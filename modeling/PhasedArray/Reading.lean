import PhasedArray.Decimal.Reading
import PhasedArray.Fault

set_option autoImplicit false

/-!
# Reading values (SPEC §9)

What a computation needs of a value as it was given: a number, a whole number, a bound to
compare with, or a tensor.  Each reader says which values will do, and what is wrong with
the others; a text that spells a number is one only where scalars are stored.
-/

namespace PhasedArray

variable {α : Type} [Scalar α]

/-! ## Extents -/

/-- The most things that can be kept. -/
def Extent.greatestKept : Nat := Nat.pow 2 32

/-- One more than the most things that can be counted off one by one. -/
def Extent.countable : Nat := Nat.pow 2 60

/-- Refuses a number of things that cannot be kept, and one that cannot even be counted, since
it reaches `limit`. -/
def Extent.check (limit n : Nat) : Outcome α Unit :=
  if n < Extent.greatestKept then .ok ()
  else if n < limit then .error .extentUnkept
  else .error .extentTooLarge

/-! ## Numbers and tensors -/

/-- The value of a number as a scalar. -/
def Number.toScalar (n : Number α) : Outcome α α :=
  match n.scalar? with
  | some x => .ok x
  | none => .error .numberTooLarge

/-- The quotient of a number by a count, as a scalar. -/
def Number.toQuotient (n : Number α) (count : Nat) : Outcome α α :=
  match n.dividedBy count with
  | some x => .ok x
  | none => .error .numberTooLarge

/-- The scalar as which an entry is stored.  Nothing at all is stored as an undefined one. -/
def Entry.toScalar : Entry α → Outcome α α
  | .nothing => .ok Scalar.undefined
  | .flag on => .ok (if on then 1 else 0)
  | .number n => n.toScalar
  | .text s =>
      match Decimal.read? s with
      | some x => .ok x
      | none => .error .textForNumber
  | .other => .error .assortedEntries

namespace Tensor

/-- The tensor with its entries stored as scalars. -/
def toReal (t : Tensor α) : Outcome α (Tensor α) :=
  match t.kind with
  | .assorted values => do
      let xs ← values.toList.mapM Entry.toScalar
      match ofEntries? t.shape (xs.map Cplx.ofReal).toArray .real with
      | some r => return r
      | none => throw .shapesDisagree
  | _ => .ok (t.mapReal Cplx.re)

/-- The tensor with its entries stored as complex numbers. -/
def toComplex (t : Tensor α) : Outcome α (Tensor α) := do
  let r ← if t.isAssorted then t.toReal else pure t
  return { r with kind := .complex }

/-- A tensor as a solver takes it: texts among its entries are read, other values that are
no numbers are refused. -/
def toSolver (t : Tensor α) : Outcome α (Tensor α) :=
  if t.isTextual then t.toReal
  else if t.isAssorted then .error .undefinedNumber
  else .ok t

/-- The entries of a tensor as bounds to compare with, where whole numbers may be of any
size. -/
def toBounds (t : Tensor α) : Outcome α (Tensor α) :=
  match t.kind with
  | .assorted values =>
      if values.all fun e => e.number?.isSome then .ok { t with kind := .real }
      else .error .assortedEntries
  | _ => .ok t

/-- The entries of a tensor to calculate with beside scalars: whole numbers have to be in
their range. -/
def toAddends (t : Tensor α) : Outcome α (Tensor α) :=
  match t.kind with
  | .assorted values =>
      if values.all fun e => e.number?.isSome then t.toReal else .error .assortedEntries
  | _ => .ok t

theorem toReal_ofReals (xs : List α) : (ofReals xs).toReal = .ok (ofReals xs) := by
  simp [toReal, ofReals, mapReal, Cplx.ofReal, Function.comp_def]

end Tensor

namespace Setting

/-! ## Numbers -/

omit [Scalar α] in
/-- A number; a switch counts as one or zero. -/
def toNumber (name : String) (s : Setting α) : Outcome α (Number α) :=
  match s.number? with
  | some n => .ok n
  | none => .error (.misfitSetting name)

/-- A number as a scalar. -/
def toScalar (name : String) (s : Setting α) : Outcome α α := do
  let n ← s.toNumber name
  n.toScalar

/-- A number that fits where numbers are kept. -/
def toKept (name : String) (s : Setting α) : Outcome α α := do
  let n ← s.toNumber name
  if n.isKept then return n.value else throw .oversizedNumber

/-- The whole number that a value equals; `refused` if it equals none.  A text that spells a
whole number equals none. -/
def toWhole (name : String) (refused : Fault α) : Setting α → Outcome α Int
  | text s => .error (if (Decimal.readInt? s).isSome then refused else .textForNumber)
  | s => do
      let n ← s.toNumber name
      match n.truncate with
      | .error e => throw (.ofNoWhole e)
      | .ok i => if n.equals i then return i else throw refused

omit [Scalar α] in
/-- A number of things, which has to be written as a whole number. -/
def toCount (name : String) (s : Setting α) : Outcome α Nat := do
  match ← s.toNumber name with
  | .whole i => return i.toNat
  | .real _ => throw .unwrittenCount

/-! ## Tensors -/

/-- The most axes that a tensor may have. -/
def greatestRank : Nat := 64

/-- The tensor of lists in lists, which have to be of one length at each depth. -/
def toTensor (s : Setting α) : Outcome α (Tensor α) :=
  match s with
  | tensor t => .ok t
  | s =>
      match s.extents? with
      | none => .error .shapesDisagree
      | some shape =>
          if shape.length ≤ greatestRank then
            match Tensor.ofGiven? shape s.entries.toArray with
            | some t => .ok t
            | none => .error .shapesDisagree
          else .error .shapesDisagree

/-- The tensor of lists in lists, its entries stored as scalars. -/
def toReal (s : Setting α) : Outcome α (Tensor α) := do
  let t ← s.toTensor
  t.toReal

/-- The scalars in lists in lists, one after the other. -/
def toReals (s : Setting α) : Outcome α (List α) := do
  let t ← s.toReal
  return t.reals

/-- A tensor, unless there is nothing. -/
def toTensor? (s : Setting α) : Outcome α (Option (Tensor α)) :=
  match s with
  | nothing => .ok none
  | s => s.toTensor.map some

/-- A number that fits where numbers are kept, in a place where a list is first read as a
tensor. -/
def toSingle (name : String) (s : Setting α) : Outcome α α := do
  if s.isList then
    let _ ← s.toTensor
  s.toKept name

/-! ## Extents and shapes -/

/-- One more than the most entries that a shape may count, an extent of zero left out. -/
def greatestVolume : Nat := Nat.pow 2 59

omit [Scalar α] in
/-- An extent, which has to be written as a whole number and must not be negative; a switch
is none. -/
def toExtent (name : String) : Setting α → Outcome α Nat
  | number (.whole i) => if 0 ≤ i then .ok i.toNat else .error .extentTooLarge
  | number (.real _) => .error .unwrittenCount
  | _ => .error (.misfitSetting name)

omit [Scalar α] in
/-- The extents of a shape: one, or a list of them. -/
def toShape (name : String) (s : Setting α) : Outcome α (List Nat) := do
  let shape ← match s with
    | list items => items.mapM (toExtent name)
    | s => (s.toExtent name).map fun n => [n]
  if greatestRank < shape.length || greatestVolume ≤ volume (shape.filter (· ≠ 0)) then
    throw .extentTooLarge
  Extent.check greatestVolume (volume shape)
  return shape

/-- The complex tensor of zeros of a shape. -/
def toZeros (s : Setting α) : Outcome α (Tensor α) := do
  let shape ← s.toShape "zeros"
  return Tensor.zeros shape

/-! ## Bounds -/

/-- The bounds to compare an array of scalars with: a number, or lists of numbers. -/
def toBounds (name : String) (s : Setting α) : Outcome α (Tensor α) :=
  match s with
  | list items => do
      let t ← (list items).toTensor
      t.toBounds
  | s => (s.toScalar name).map Tensor.ofScalar

/-- The bound to compare one scalar with: a number, or lists that hold a single one. -/
def toBound (name : String) (s : Setting α) : Outcome α α := do
  let t ← s.toBounds name
  match t.reals with
  | [x] => return x
  | _ => throw .listForNumber

omit [Scalar α] in
/-- The number of values that a value runs through. -/
def toLength (name : String) (s : Setting α) : Outcome α Nat :=
  match s with
  | tensor t => .ok (t.shape.headD 0)
  | s =>
      match s.members? with
      | some l => .ok l.length
      | none => .error (.misfitSetting name)

@[simp] theorem toWhole_whole (name : String) (refused : Fault α) (i : Int) :
    (whole i : Setting α).toWhole name refused = .ok i := by
  simp [toWhole, whole, toNumber, number?, Except.bind, bind, pure, Except.pure]

end Setting

end PhasedArray
