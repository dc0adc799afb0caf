import PhasedArray.Fault

set_option autoImplicit false

/-!
# Settings by name (SPEC §9)

A configuration arrives as names with values.  A record accepts the names it knows
and refuses any other before it looks at a value; a name that is left out keeps the
record's default.  A value is read where it is used: one that does not fit is a fault
of the computation that needs it, and none if nothing does.
-/

namespace PhasedArray

/-- Settings in the order in which they were given. -/
abbrev Settings (α : Type) := List (String × Setting α)

namespace Settings

variable {α : Type}

/-- The settings of a table called `name`. -/
def ofTable (name : String) : Setting α → Outcome α (Settings α)
  | .table fields => .ok fields
  | _ => .error (.misfitSetting name)

/-- Refuses a name that is not in `known`. -/
def checkNames (known : List String) (s : Settings α) : Outcome α Unit :=
  match s.find? fun entry => !known.contains entry.1 with
  | some entry => .error (.unknownSetting entry.1)
  | none => .ok ()

/-- The value given last under a name. -/
def get? (s : Settings α) (name : String) : Option (Setting α) :=
  (s.reverse.find? fun entry => entry.1 = name).map Prod.snd

/-- The value given last under a name, or the default if the name is left out. -/
def get (s : Settings α) (name : String) (default : Setting α) : Setting α :=
  (s.get? name).getD default

/-- The value of a name that has to be given. -/
def required (s : Settings α) (name : String) : Outcome α (Setting α) :=
  match s.get? name with
  | some value => .ok value
  | none => .error (.missingSetting name)

end Settings

end PhasedArray
