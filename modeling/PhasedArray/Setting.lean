import PhasedArray.Tensor
import PhasedArray.Text.Quoted

set_option autoImplicit false

/-!
# Settings: values as they were given (SPEC §9)

A caller gives numbers, switches, texts, lists and tables, and any of them may stand where
any other is needed.  A `Setting` is such a value before anything has been made of it, so
that a message can repeat it and an answer can echo it.  What is needed of it is read off
where it is used, and not before.
-/

namespace PhasedArray

/-- A value as it was given. -/
inductive Setting (α : Type) where
  | nothing
  | flag (on : Bool)
  | number (n : Number α)
  | text (s : String)
  | list (items : List (Setting α))
  | table (fields : List (String × Setting α))
  | tensor (t : Tensor α)
  deriving Inhabited

namespace Setting

variable {α : Type}

/-- A whole number. -/
def whole (i : Int) : Setting α := .number (.whole i)

/-- A scalar. -/
def real (x : α) : Setting α := .number (.real x)

/-! ## The text of a value -/

mutual

/-- A value as a list shows it: a text stands between quotes. -/
def literal (numberText : Number α → String) : Setting α → String
  | nothing => "None"
  | flag true => "True"
  | flag false => "False"
  | number n => numberText n
  | text s => Text.quoted s
  | list items => "[" ++ ", ".intercalate (literals numberText items) ++ "]"
  | table fields => "\x7b" ++ ", ".intercalate (entryLiterals numberText fields) ++ "\x7d"
  | tensor _ => "array"

/-- The values of a list, each as the list shows it. -/
def literals (numberText : Number α → String) : List (Setting α) → List String
  | [] => []
  | s :: rest => literal numberText s :: literals numberText rest

/-- The entries of a table, each as the table shows it. -/
def entryLiterals (numberText : Number α → String) : List (String × Setting α) → List String
  | [] => []
  | (key, s) :: rest =>
      (Text.quoted key ++ ": " ++ literal numberText s) :: entryLiterals numberText rest

end

/-- A value as messages show it. -/
def shown (numberText : Number α → String) : Setting α → String
  | text s => s
  | s => s.literal numberText

/-- The text of a value. -/
def asText (s : Setting Float) : String := s.shown Number.text

/-! ## The value as numbers -/

/-- The value as an entry of its own. -/
def entry : Setting α → Entry α
  | nothing => .nothing
  | flag on => .flag on
  | number n => .number n
  | text s => .text s
  | _ => .other

mutual

/-- The extents of lists in lists; none if two lists in one list differ in theirs. -/
def extents? : Setting α → Option (List Nat)
  | list items => do
      match ← extentsEach? items with
      | [] => return [0]
      | inner :: rest =>
          if rest.all (· == inner) then return (rest.length + 1) :: inner else none
  | tensor t => some t.shape
  | _ => some []

/-- The extents of each value in a list. -/
def extentsEach? : List (Setting α) → Option (List (List Nat))
  | [] => some []
  | s :: rest => do return (← extents? s) :: (← extentsEach? rest)

end

mutual

/-- The entries of lists in lists, one after the other. -/
def entries : Setting α → List (Entry α)
  | list items => entriesEach items
  | s => [s.entry]

/-- The entries of the values in a list, one after the other. -/
def entriesEach : List (Setting α) → List (Entry α)
  | [] => []
  | s :: rest => entries s ++ entriesEach rest

end

/-! ## Tests -/

/-- Whether a value counts as a yes: a number unless it is zero, a text, a list or a table
unless it is empty. -/
def isYes [Scalar α] : Setting α → Bool
  | nothing => false
  | flag on => on
  | number n => !n.equals 0
  | text s => !s.isEmpty
  | list items => !items.isEmpty
  | table fields => !fields.isEmpty
  | tensor _ => true

/-- The number that a value is, a switch being one or zero. -/
def number? : Setting α → Option (Number α)
  | number n => some n
  | flag on => some (.whole (if on then 1 else 0))
  | _ => none

/-- Whether two values name the same thing: numbers and switches by their value, texts by
their characters.  An undefined number is the same as any other. -/
def names [Scalar α] (s t : Setting α) : Bool :=
  match s, t with
  | nothing, nothing => true
  | text u, text v => u == v
  | s, t =>
      match s.number?, t.number? with
      | some m, some n => m.same n || Scalar.isNaN m.value && Scalar.isNaN n.value
      | _, _ => false

/-- Whether a value is a list. -/
def isList : Setting α → Bool
  | list _ => true
  | _ => false

/-- Whether a value can be a name: no list or table can. -/
def isName : Setting α → Bool
  | list _ | table _ | tensor _ => false
  | _ => true

/-- The value itself, or another one if it is nothing. -/
def orElse (s other : Setting α) : Setting α :=
  match s with
  | nothing => other
  | s => s

/-- The values that a value runs through: those of a list, the characters of a text, the
names of a table. -/
def members? : Setting α → Option (List (Setting α))
  | list items => some items
  | text s => some (s.toList.map fun c => .text c.toString)
  | table fields => some (fields.map fun f => .text f.1)
  | _ => none

end Setting

end PhasedArray
