import PhasedArray.Mat
import PhasedArray.Number

set_option autoImplicit false

/-!
# Tensors: arrays of any shape (SPEC §3)

What a caller hands over may have any number of axes.  A `Tensor` records the
extents and the entries in row-major order; `asMat?` and `asVector` are the ways
into the typed world.  Entries are complex, and a tensor remembers how they were
given: whole numbers keep to machine words until they meet other numbers.
-/

namespace PhasedArray

/-- The number of entries of a shape. -/
def volume (shape : List Nat) : Nat := shape.foldr (· * ·) 1

/-- A value among the entries of a tensor, as it was given. -/
inductive Entry (α : Type) where
  | nothing
  | flag (on : Bool)
  | number (n : Number α)
  | text (s : String)
  /-- What is none of these. -/
  | other
  deriving Inhabited

namespace Entry

variable {α : Type} [Scalar α]

omit [Scalar α] in
/-- The number that an entry is, a switch being one or zero. -/
def number? : Entry α → Option (Number α)
  | flag on => some (.whole (if on then 1 else 0))
  | number n => some n
  | _ => none

omit [Scalar α] in
/-- Whether the entry is a switch. -/
def isFlag : Entry α → Bool
  | flag _ => true
  | _ => false

omit [Scalar α] in
/-- Whether the entry is a text. -/
def isText : Entry α → Bool
  | text _ => true
  | _ => false

/-- Whether the entry is a number that fits where numbers are kept. -/
def isKept (e : Entry α) : Bool := e.number?.any Number.isKept

omit [Scalar α] in
/-- The whole number that an entry is. -/
def whole? (e : Entry α) : Option Int :=
  match e.number? with
  | some (.whole i) => some i
  | _ => none

/-- The value of an entry; undefined if it is no number. -/
def value (e : Entry α) : α := (e.number?.map Number.value).getD Scalar.undefined

end Entry

/-- How the entries of a tensor were given. -/
inductive EntryKind (α : Type) where
  | complex
  | real
  /-- Whole numbers, all kept in words of one kind. -/
  | whole (w : Word) (values : Array Int)
  /-- Switches, which count as one and zero. -/
  | flags (values : Array Int)
  /-- Values of which one is no number, or a whole number that no word holds. -/
  | assorted (values : Array (Entry α))

namespace EntryKind

variable {α : Type} [Scalar α]

/-- How a list of values is kept.  Whole numbers that need words of both kinds become
real. -/
def ofGiven (items : Array (Entry α)) : EntryKind α :=
  if items.any fun e => !e.isKept then assorted items
  else
    match items.mapM Entry.whole? with
    | some values =>
        if values.isEmpty then real
        else if items.all Entry.isFlag then flags values
        else if values.all Word.signed.holds then whole .signed values
        else if values.all fun i => !Word.signed.holds i then whole .unsigned values
        else real
    | none => real

omit [Scalar α] in
/-- Whether the entries are no complex numbers. -/
def isReal : EntryKind α → Bool
  | complex => false
  | _ => true

omit [Scalar α] in
/-- Whether one of the values cannot be kept as a number of its own. -/
def isAssorted : EntryKind α → Bool
  | assorted _ => true
  | _ => false

omit [Scalar α] in
/-- Whether the entries are switches. -/
def isFlags : EntryKind α → Bool
  | flags _ => true
  | _ => false

/-- Whether the values are texts, or numbers that go as texts among texts. -/
def isTextual : EntryKind α → Bool
  | assorted values => values.any Entry.isText && values.all fun e => e.isText || e.isKept
  | _ => false

omit [Scalar α] in
/-- The whole numbers, with the kind of word that keeps them; switches go with any. -/
def words? : EntryKind α → Option (Option Word × Array Int)
  | whole w values => some (some w, values)
  | flags values => some (none, values)
  | _ => none

end EntryKind

/-- An array with the given extents, its entries in row-major order. -/
structure Tensor (α : Type) where
  shape : List Nat
  entries : Array (Cplx α)
  kind : EntryKind α
  size_eq : entries.size = volume shape

namespace Tensor

variable {α : Type} [Scalar α]

/-- A tensor from its shape and entries, if their numbers agree. -/
def ofEntries? (shape : List Nat) (entries : Array (Cplx α)) (kind : EntryKind α) :
    Option (Tensor α) :=
  if h : entries.size = volume shape then some ⟨shape, entries, kind, h⟩ else none

/-- A tensor from its shape and values, if their numbers agree; a value that is no number
counts as undefined. -/
def ofGiven? (shape : List Nat) (items : Array (Entry α)) : Option (Tensor α) :=
  ofEntries? shape (items.map fun e => .ofReal e.value) (EntryKind.ofGiven items)

/-- The real tensor without axes. -/
def ofScalar (x : α) : Tensor α := ⟨[], #[.ofReal x], .real, by simp [volume]⟩

/-- The complex tensor of zeros. -/
def zeros (shape : List Nat) : Tensor α :=
  ⟨shape, Array.replicate (volume shape) 0, .complex, by simp⟩

/-- The tensor with one axis. -/
def ofVector {n : Nat} (x : Vector (Cplx α) n) : Tensor α :=
  ⟨[n], x.toArray, .complex, by simp [volume]⟩

/-- The tensor with one axis and real entries. -/
def ofReals (xs : List α) : Tensor α :=
  ⟨[xs.length], (xs.map Cplx.ofReal).toArray, .real, by simp [volume]⟩

/-- Whether the entries are no complex numbers. -/
def isReal (t : Tensor α) : Bool := t.kind.isReal

/-- Whether one of the values cannot be kept as a number of its own. -/
def isAssorted (t : Tensor α) : Bool := t.kind.isAssorted

/-- Whether the values are texts, or numbers that go as texts among texts. -/
def isTextual (t : Tensor α) : Bool := t.kind.isTextual

/-- The entries as numbers; a complex tensor has none, and what is no number has no number. -/
def numbers? (t : Tensor α) : Option (Array (Option (Number α))) :=
  match t.kind with
  | .complex => none
  | .real => some (t.entries.map fun z => some (.real z.re))
  | .whole _ values | .flags values => some (values.map fun i => some (.whole i))
  | .assorted values => some (values.map Entry.number?)

/-- The tensor of a matrix. -/
def ofMat {m n : Nat} (A : Mat (Cplx α) m n) : Tensor α :=
  ⟨[m, n], (Vector.ofFn fun k : Fin (m * n) =>
      have h : 0 < n := Nat.pos_of_ne_zero fun h0 => by have := k.isLt; simp [h0] at this
      A ⟨k / n, Nat.div_lt_of_lt_mul (Nat.mul_comm m n ▸ k.isLt)⟩ ⟨k % n, Nat.mod_lt _ h⟩).toArray,
    .complex, by simp [volume]⟩

/-- The number of axes. -/
def rank (t : Tensor α) : Nat := t.shape.length

/-- Every entry is finite. -/
def isFinite (t : Tensor α) : Bool := t.entries.all Cplx.isFinite

/-- The real tensor of the same shape with `f` of every entry. -/
def mapReal (f : Cplx α → α) (t : Tensor α) : Tensor α :=
  ⟨t.shape, t.entries.map fun z => Cplx.ofReal (f z), .real, by simp [t.size_eq]⟩

/-- The tensor of the same shape with `f` of every entry. -/
def map (f : Cplx α → Cplx α) (t : Tensor α) : Tensor α :=
  ⟨t.shape, t.entries.map f, .complex, by simp [t.size_eq]⟩

/-- The real parts of the entries. -/
def reals (t : Tensor α) : List α := t.entries.toList.map Cplx.re

/-- The entries as one vector. -/
def asVector (t : Tensor α) : Vector (Cplx α) t.entries.size := ⟨t.entries, rfl⟩

/-- The number that a real tensor without axes is; `none` for any other tensor. -/
def scalar? (t : Tensor α) : Option α :=
  match t.isReal, t.shape, t.entries[0]? with
  | true, [], some z => some z.re
  | _, _, _ => none

@[simp] theorem reals_ofReals (xs : List α) : (ofReals xs).reals = xs := by
  simp [reals, ofReals, Function.comp_def, Cplx.ofReal]

theorem ofReals_inj {xs ys : List α} : ofReals xs = ofReals ys ↔ xs = ys := by
  refine ⟨fun h => ?_, congrArg _⟩
  rw [← reals_ofReals xs, h, reals_ofReals]

/-- The vector of a tensor with one axis of the extent `n`; `none` for any other tensor. -/
def asVectorOf? (t : Tensor α) (n : Nat) : Option (Vector (Cplx α) n) :=
  if h : t.shape = [n] then some ⟨t.entries, by simp [t.size_eq, h, volume]⟩ else none

omit [Scalar α] in
/-- A vector is what its tensor reads back as. -/
@[simp] theorem asVectorOf?_ofVector {n : Nat} (x : Vector (Cplx α) n) :
    (ofVector x).asVectorOf? n = some x := dif_pos rfl

omit [Scalar α] in
theorem size_of_shape {t : Tensor α} {m n : Nat} (h : t.shape = [m, n]) :
    t.entries.size = m * n := by
  simp [t.size_eq, h, volume]

/-- The matrix of a tensor with two axes. -/
def toMat (t : Tensor α) (m n : Nat) (h : t.shape = [m, n]) : Mat (Cplx α) m n :=
  Mat.ofEntries ⟨t.entries, size_of_shape h⟩

/-- The matrix of a tensor of the extents `m` and `n`; `none` for any other shape. -/
def asMat? (t : Tensor α) (m n : Nat) : Option (Mat (Cplx α) m n) :=
  if h : t.shape = [m, n] then some (t.toMat m n h) else none

omit [Scalar α] in
theorem toMat_apply (t : Tensor α) {m n : Nat} (h : t.shape = [m, n]) (i : Fin m) (j : Fin n) :
    t.toMat m n h i j =
      (⟨t.entries, size_of_shape h⟩ : Vector (Cplx α) (m * n)).get (Mat.place i j) := by
  simp [toMat, Mat.ofEntries]

omit [Scalar α] in
@[simp] theorem toMat_ofMat {m n : Nat} (A : Mat (Cplx α) m n) :
    (ofMat A).toMat m n rfl = A := by
  ext i j
  have hd : (i.val * n + j.val) / n = i.val := by
    rw [Nat.add_comm, Nat.add_mul_div_right _ _ (Nat.zero_lt_of_lt j.isLt),
      Nat.div_eq_of_lt j.isLt, Nat.zero_add]
  have hm : (i.val * n + j.val) % n = j.val := by
    rw [Nat.add_comm, Nat.add_mul_mod_self_right, Nat.mod_eq_of_lt j.isLt]
  simp [toMat_apply, ofMat, Mat.place, Vector.get, hd, hm]

omit [Scalar α] in
/-- A matrix is what its tensor reads back as. -/
@[simp] theorem asMat?_ofMat {m n : Nat} (A : Mat (Cplx α) m n) :
    (ofMat A).asMat? m n = some A := by
  have h : (ofMat A).shape = [m, n] := rfl
  simp [asMat?, h]

/-- A square matrix with its extent; `none` if the tensor is none. -/
def asSquare? (t : Tensor α) : Option ((n : Nat) × Mat (Cplx α) n n) :=
  match h : t.shape with
  | [m, n] => if hmn : m = n then some ⟨n, t.toMat n n (by rw [h, hmn])⟩ else none
  | _ => none

/-- A matrix with its extents; `none` unless there are two axes. -/
def asMatrix? (t : Tensor α) : Option ((m : Nat) × (n : Nat) × Mat (Cplx α) m n) :=
  match h : t.shape with
  | [m, n] => some ⟨m, n, t.toMat m n h⟩
  | _ => none

omit [Scalar α] in
@[simp] theorem asMatrix?_ofMat {m n : Nat} (A : Mat (Cplx α) m n) :
    (ofMat A).asMatrix? = some ⟨m, n, A⟩ := by
  change some (⟨m, n, (ofMat A).toMat m n rfl⟩ : (m : Nat) × (n : Nat) × Mat (Cplx α) m n) = _
  rw [toMat_ofMat]

omit [Scalar α] in
@[simp] theorem asSquare?_ofMat {n : Nat} (A : Mat (Cplx α) n n) :
    (ofMat A).asSquare? = some ⟨n, A⟩ := by
  change (if hnn : n = n then some (⟨n, (ofMat A).toMat n n _⟩ : (n : Nat) × Mat (Cplx α) n n)
    else none) = _
  rw [dif_pos rfl, toMat_ofMat]

/-- The whole numbers of a tensor of the extents `m` and `n`, with the kind of word that
keeps them; `none` if it was given otherwise. -/
def asWhole? (t : Tensor α) (m n : Nat) : Option (Option Word × Mat Int m n) :=
  t.kind.words?.map fun (w, values) => (w, Mat.of fun i j => values.getD (Mat.place i j) 0)

/-- The square matrices in the last two axes, one after the other; `none` unless there
are two axes of one extent. -/
def asSquares? (t : Tensor α) : Option ((n : Nat) × List (Mat (Cplx α) n n)) :=
  match t.shape.reverse with
  | n :: m :: others =>
      if m = n then
        some ⟨n, (List.range (volume others)).map fun b =>
          Mat.of fun i j => t.entries.getD (b * (n * n) + (Mat.place i j).val) 0⟩
      else none
  | _ => none

/-- The entries in each place along the first axis; none for a bare number. -/
def slices (t : Tensor α) : List (List (Cplx α)) :=
  match t.shape with
  | [] => []
  | m :: rest =>
      let size := volume rest
      (List.range m).map fun i => (t.entries.extract (i * size) ((i + 1) * size)).toList

/-- The matrix of one column, of a tensor with one axis. -/
def asColumn? (t : Tensor α) : Option ((m : Nat) × Mat (Cplx α) m 1) :=
  match t.shape with
  | [_] => some ⟨t.entries.size, Mat.of fun i _ => t.entries[i]⟩
  | _ => none

/-! ## Broadcasting -/

/-- The common extent of one axis of two tensors: an extent of one stretches. -/
def commonExtent? (a b : Nat) : Option Nat :=
  if a = b then some a else if a = 1 then some b else if b = 1 then some a else none

/-- The common shape, last axes aligned; both shapes are given from the last axis. -/
def commonReversed? : List Nat → List Nat → Option (List Nat)
  | [], bs => some bs
  | as, [] => some as
  | a :: as, b :: bs => do
      let c ← commonExtent? a b
      let cs ← commonReversed? as bs
      return c :: cs

/-- The common shape of two shapes, their last axes aligned. -/
def commonShape? (a b : List Nat) : Option (List Nat) :=
  (commonReversed? a.reverse b.reverse).map List.reverse

/-- The place, in a tensor of shape `own`, that stretches over place `k` of the
shape `wide`; both shapes are given from the last axis. -/
def sourcePlace : (own wide : List Nat) → (k : Nat) → Nat
  | a :: own, w :: wide, k =>
      (if a = 1 then 0 else k % w) + a * sourcePlace own wide (k / w)
  | _, _, _ => 0

/-- The entry of `t` that stretches over place `k` of the shape `wide`. -/
def stretched (t : Tensor α) (wide : List Nat) (k : Nat) : Cplx α :=
  t.entries.getD (sourcePlace t.shape.reverse wide.reverse k) 0

/-- The common shape of two tensors, and for each of its places the places in either
tensor that stretch over it; `none` if the shapes do not fit together. -/
def pairing? (a b : Tensor α) : Option (List Nat × List (Nat × Nat)) :=
  (commonShape? a.shape b.shape).map fun wide =>
    (wide, (List.range (volume wide)).map fun k =>
      (sourcePlace a.shape.reverse wide.reverse k, sourcePlace b.shape.reverse wide.reverse k))

/-- An operation on corresponding entries, extents of one stretched; `none` if the
shapes do not fit together. -/
def combine? (op : Cplx α → Cplx α → Cplx α) (a b : Tensor α) : Option (Tensor α) := do
  let shape ← commonShape? a.shape b.shape
  return {
    shape
    entries := (Vector.ofFn fun k : Fin (volume shape) =>
      op (a.stretched shape k) (b.stretched shape k)).toArray
    kind := if a.isReal && b.isReal then .real else .complex
    size_eq := by simp }

/-- Takes extents of one off the front of a shape, `surplus` of them at most. -/
def dropUnits : (surplus : Nat) → List Nat → List Nat
  | surplus + 1, 1 :: rest => dropUnits surplus rest
  | _, shape => shape

/-- The entries that fill the shape `wide` when a tensor is put into it: extents of one
beyond its rank do not count, and the others stretch; `none` if they do not fit. -/
def filling? (t : Tensor α) (wide : List Nat) : Option (Vector (Cplx α) (volume wide)) :=
  let own := dropUnits (t.shape.length - wide.length) t.shape
  if commonShape? own wide = some wide then
    some (Vector.ofFn fun k => t.entries.getD (sourcePlace own.reverse wide.reverse k) 0)
  else none

/-- The complex tensor of real parts and imaginary parts, which are put into the shape of
the former; `none` if they do not fit it. -/
def ofParts? (re im : Tensor α) : Option (Tensor α) :=
  (im.filling? re.shape).map fun parts =>
    ⟨re.shape, Array.zipWith (fun x y => ⟨x.re, y.re⟩) re.entries parts.toArray, .complex,
      by simp [re.size_eq]⟩

/-! ## The text of a shape -/

/-- The extents between parentheses; a single extent is followed by a comma. -/
def shapeText : List Nat → String
  | [] => "()"
  | [n] => "(" ++ toString n ++ ",)"
  | shape => "(" ++ ", ".intercalate (shape.map toString) ++ ")"

end Tensor

end PhasedArray
