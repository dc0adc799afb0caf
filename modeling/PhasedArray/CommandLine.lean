import PhasedArray.Decimal.Reading
import PhasedArray.Method
import PhasedArray.Scalar.Float

set_option autoImplicit false

/-!
# The command line (SPEC §6)

Options begin with two dashes and may be shortened as long as one option alone fits.
A value follows its option or is joined to it by an equals sign, where two dashes stand
for no value; an option given twice keeps its last values.  What looks like a negative
number is a value, and so is anything that does not begin with a dash.  Nothing may stand
outside the options.
-/

namespace PhasedArray

namespace CommandLine

/-- The options. -/
inductive Key where
  | help
  | numElements
  | spacing
  | method
  | angles
  | snr
  | trials
  | snapshots
  | seed
  | forwardBackward
  | debug
  deriving DecidableEq, Repr

/-- The spelling of each option, without its dashes. -/
def spellings : List (String × Key) :=
  [("help", .help), ("num-elements", .numElements), ("spacing", .spacing), ("method", .method),
    ("angles", .angles), ("snr", .snr), ("trials", .trials), ("snapshots", .snapshots),
    ("seed", .seed), ("forward-backward", .forwardBackward), ("debug", .debug)]

/-- How many values an option takes. -/
inductive Arity where
  | none
  | one
  | some
  deriving DecidableEq, Repr

/-- The number of values of each option. -/
def Key.arity : Key → Arity
  | .help | .forwardBackward | .debug => .none
  | .angles | .snr => .some
  | _ => .one

/-- Why a command line asks for no run. -/
inductive Stop where
  /-- It cannot be read. -/
  | usage (reason : String)
  /-- It asks for help. -/
  | help
  deriving DecidableEq, Repr

/-! ## Tokens -/

/-- A word of the command line. -/
inductive Token where
  | value (text : String)
  /-- An option, with the value joined to it. -/
  | option (key : Key) (joined : Option String)
  /-- What begins like an option and is none. -/
  | unknown (text : String)
  /-- Two dashes, after which every word is a value. -/
  | divider
  deriving DecidableEq, Repr

/-- The characters without a line break at the end. -/
def dropLineBreak (cs : List Char) : List Char :=
  if cs.getLast? = some '\n' then cs.dropLast else cs

/-- Digits, a point and at least one digit, or digits alone; a line break may follow. -/
def isUnsignedNumber (cs : List Char) : Bool :=
  let cs := dropLineBreak cs
  match cs.dropWhile Text.isDigit with
  | [] => !cs.isEmpty
  | '.' :: rest => !rest.isEmpty && rest.all Text.isDigit
  | _ => false

/-- Splits a word at its first equals sign. -/
def splitJoined (cs : List Char) : List Char × Option (List Char) :=
  match cs.dropWhile (· ≠ '=') with
  | [] => (cs, none)
  | _ :: joined => (cs.takeWhile (· ≠ '='), some joined)

/-- The options whose spelling begins with the given characters; an option spelled in
full is the only one. -/
def candidates (start : List Char) : List Key :=
  match spellings.find? fun s => s.1.toList = start with
  | some s => [s.2]
  | none => (spellings.filter fun s => start.isPrefixOf s.1.toList).map Prod.snd

/-- Reads a word that begins with a dash, `cs` being what follows the dash. -/
def readDashed (text : String) (cs : List Char) : Except Stop Token :=
  match cs with
  | [] => .ok (.value text)
  | 'h' :: joined =>
      if joined.isEmpty then .ok (.option .help none)
      else if joined.all (· = 'h') || joined.tail.all (· = 'h') && joined.head? = some '='
          && joined.length ≠ 1 then .ok (.option .help none)
      else .ok (.option .help (some (String.ofList joined)))
  | '-' :: name =>
      let (start, joined) := splitJoined name
      match candidates start with
      | [key] => .ok (.option key (joined.map String.ofList))
      | [] => .ok (if cs.contains ' ' then .value text else .unknown text)
      | _ => .error (.usage s!"ambiguous option: {text}")
  | _ =>
      if isUnsignedNumber cs || cs.contains ' ' then .ok (.value text) else .ok (.unknown text)

/-- Reads a word. -/
def readWord (text : String) : Except Stop Token :=
  match text.toList with
  | '-' :: cs => readDashed text cs
  | _ => .ok (.value text)

/-- Reads the words of a command line. -/
def readWords : List String → Except Stop (List Token)
  | [] => .ok []
  | "--" :: rest => .ok (.divider :: rest.map .value)
  | word :: rest => do
      let token ← readWord word
      let tokens ← readWords rest
      return token :: tokens

/-! ## Options -/

/-- What an option was given. -/
inductive Given (β : Type) where
  | value (x : β)
  /-- Two dashes joined to the option, which stand for no value at all. -/
  | nothing
  deriving DecidableEq, Repr

/-- What a command line asks for. -/
structure Options where
  numElements : Given Int := .value 16
  spacing : Given Float := .value 0.5
  method : Given Method := .value .esprit
  angles : List Float := [-30.0, 10.0, 45.0]
  snr : List Float := [0.0, 10.0, 20.0]
  trials : Given Int := .value 100
  snapshots : Given Int := .value 256
  seed : Option (Given Int) := none
  forwardBackward : Bool := false
  debug : Bool := false

/-- A value that cannot be read. -/
def invalid {β : Type} (value : String) : Except Stop β :=
  .error (.usage s!"invalid value: {value}")

/-- Reads the single value of an option, if it has one. -/
def single {β : Type} (read : String → Option β) : List String → Except Stop (Given β)
  | [] => .ok .nothing
  | [v] => match read v with
    | some x => .ok (.value x)
    | none => invalid v
  | _ => .error (.usage "expected one argument")

/-- Reads every value of an option. -/
def every {β : Type} (read : String → Option β) (values : List String) : Except Stop (List β) :=
  values.mapM fun v => match read v with
    | some x => .ok x
    | none => invalid v

/-- The method of exactly the given name. -/
def exactMethod? (name : String) : Option Method := Method.all.find? fun m => m.key = name

/-- The options after `key` was given with `values`. -/
def apply (o : Options) (key : Key) (values : List String) : Except Stop Options :=
  match key with
  | .help => .error .help
  | .numElements => (single Decimal.readInt? values).map ({ o with numElements := · })
  | .spacing => (single Decimal.read? values).map ({ o with spacing := · })
  | .method => (single exactMethod? values).map ({ o with method := · })
  | .angles => (every Decimal.read? values).map ({ o with angles := · })
  | .snr => (every Decimal.read? values).map ({ o with snr := · })
  | .trials => (single Decimal.readInt? values).map ({ o with trials := · })
  | .snapshots => (single Decimal.readInt? values).map ({ o with snapshots := · })
  | .seed => (single Decimal.readInt? values).map ({ o with seed := some · })
  | .forwardBackward => .ok { o with forwardBackward := true }
  | .debug => .ok { o with debug := true }

/-- The values at the front. -/
def leadingValues : List Token → List String
  | .value v :: rest => v :: leadingValues rest
  | _ => []

/-- The values that an option takes, of those joined to it and those behind it, and how
many of the latter. -/
def valuesFor (key : Key) (joined : Option String) (behind : List String) :
    Except Stop (List String × Nat) :=
  match key.arity, joined, behind with
  | .none, none, _ => .ok ([], 0)
  | .none, some _, _ => .error (.usage "unexpected argument")
  | _, some v, _ => .ok (if v = "--" then [] else [v], 0)
  | .one, none, v :: _ => .ok ([v], 1)
  | .some, none, v :: vs => .ok (v :: vs, vs.length + 1)
  | _, none, [] => .error (.usage "expected an argument")

/-- Takes tokens from left to right; `stray` says whether one stood outside the options. -/
def take (o : Options) (stray : Bool) : List Token → Except Stop (Options × Bool)
  | [] => .ok (o, stray)
  | .option key joined :: rest => do
      let (values, count) ← valuesFor key joined (leadingValues rest)
      let o ← apply o key values
      take o stray (rest.drop count)
  | _ :: rest => take o true rest
termination_by tokens => tokens.length
decreasing_by
  · simp only [List.length_drop, List.length_cons]; omega
  · simp

/-- Reads a command line. -/
def parse (words : List String) : Except Stop Options := do
  let tokens ← readWords words
  let (options, stray) ← take {} false tokens
  if stray then throw (.usage "unrecognized arguments")
  return options

end CommandLine

end PhasedArray
