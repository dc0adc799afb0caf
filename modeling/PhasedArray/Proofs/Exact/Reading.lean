import PhasedArray.Proofs.Exact.Scalar
import PhasedArray.Reading

set_option autoImplicit false

/-!
# Exact arithmetic: numbers as settings

A number given as a setting, whole or not, is read as its value: where the scalars hold every
whole number none is too large to be kept, so the readers of scalars, bounds and tensors do not
fail on one.  A list of scalars is read as the tensor of its entries.
-/

namespace PhasedArray

variable {α : Type} [Scalar α]

namespace Number

section HoldsWholes

variable [Scalar.HoldsWholes α]

@[simp] theorem scalar?_eq_some (n : Number α) : n.scalar? = some n.value := by
  cases n with
  | whole i => simp [scalar?, value, Scalar.HoldsWholes.isFinite_ofInt i]
  | real x => rfl

@[simp] theorem toScalar_eq_ok (n : Number α) : n.toScalar = .ok n.value := by
  rw [toScalar, scalar?_eq_some]

theorem toQuotient_eq_ok (n : Number α) (count : ℕ) :
    n.toQuotient count = .ok (n.value / Scalar.ofNat count) := by
  unfold toQuotient dividedBy
  rw [scalar?_eq_some]

end HoldsWholes

theorem belowZero_eq (n : Number ℝ) : n.belowZero = decide (n.value < 0) := by
  cases n with
  | whole i => simp [belowZero, value]
  | real x => rfl

theorem atMostZero_eq (n : Number ℝ) : n.atMostZero = decide (n.value ≤ 0) := by
  cases n with
  | whole i => simp [atMostZero, value]
  | real x => rfl

end Number

omit [Scalar α] in
/-- Values are kept as they were given, or as numbers. -/
theorem EntryKind.ofGiven_cases (items : Array (Entry α)) :
    ofGiven items = .assorted items ∨ (ofGiven items).isAssorted = false := by
  unfold ofGiven
  by_cases hkept : items.any fun e => !e.isKept
  · exact .inl (if_pos hkept)
  · right
    rw [if_neg hkept]
    split
    · split_ifs <;> rfl
    · rfl

theorem Tensor.mapReal_mapReal (f g : Cplx α → α) (t : Tensor α) :
    (t.mapReal f).mapReal g = t.mapReal fun z => g (.ofReal (f z)) := by
  simp [mapReal, Function.comp_def]

theorem Tensor.toReal_of_not_assorted {t : Tensor α} (h : t.isAssorted = false) :
    t.toReal = .ok (t.mapReal Cplx.re) := by
  unfold toReal
  split
  · next values hkind => simp [isAssorted, hkind, EntryKind.isAssorted] at h
  · rfl

/-- Entries that are scalars already are stored as they are. -/
theorem Setting.toReal_mapReal (f : Cplx α → α) (t : Tensor α) :
    (Setting.tensor (t.mapReal f)).toReal = .ok (t.mapReal f) := by
  have hread : (Setting.tensor (t.mapReal f)).toReal = (t.mapReal f).toReal := rfl
  rw [hread, Tensor.toReal_of_not_assorted rfl, Tensor.mapReal_mapReal]
  rfl

namespace Setting

variable [Scalar.HoldsWholes α]

theorem toBounds_number (name : String) (n : Number α) :
    (number n).toBounds name = .ok (Tensor.ofScalar n.value) := by
  change Except.map Tensor.ofScalar n.toScalar = _
  rw [n.toScalar_eq_ok]
  rfl

omit [Scalar.HoldsWholes α] in
theorem toTensor_number (n : Number α) :
    (number n).toTensor =
      .ok ⟨[], #[.ofReal n.value], EntryKind.ofGiven #[.number n], rfl⟩ := by
  simp [toTensor, extents?, entries, greatestRank, Tensor.ofGiven?, Tensor.ofEntries?, volume,
    entry, Entry.value, Entry.number?]

theorem toReal_number (n : Number α) : (number n).toReal = .ok (Tensor.ofScalar n.value) := by
  rw [toReal, toTensor_number]
  change Tensor.toReal _ = _
  rcases EntryKind.ofGiven_cases #[.number n] with hkind | hkind
  · unfold Tensor.toReal
    simp only [hkind]
    simp [Entry.toScalar]
    rfl
  · rw [Tensor.toReal_of_not_assorted (by exact hkind)]
    simp [Tensor.mapReal, Tensor.ofScalar, Cplx.ofReal]

end Setting

/-! ## Lists of scalars -/

omit [Scalar α] in
/-- Scalars are kept as they are. -/
theorem EntryKind.ofGiven_reals (xs : List α) :
    ofGiven (xs.map fun x => Entry.number (.real x)).toArray = .real := by
  have hkept :
      ((xs.map fun x => Entry.number (.real x)).toArray.any fun e => !e.isKept) = false := by
    simp [Entry.isKept, Entry.number?, Number.isKept]
  rw [ofGiven, hkept]
  cases xs with
  | nil =>
    have hempty : ((([] : List α).map fun x => Entry.number (.real x)).toArray.mapM
        Entry.whole? : Option (Array ℤ)) = some #[] := by
      rw [Array.mapM_eq_mapM_toList, List.map_nil, List.mapM_nil]
      rfl
    rw [hempty]
    rfl
  | cons x xs =>
    have hnone : (((x :: xs).map fun x => Entry.number (.real x)).toArray.mapM
        Entry.whole? : Option (Array ℤ)) = none := by
      rw [Array.mapM_eq_mapM_toList, List.map_cons, List.mapM_cons]
      rfl
    rw [hnone]
    rfl

/-- An operation on a number and each number of a list. -/
theorem Tensor.combine?_ofScalar (op : Cplx α → Cplx α → Cplx α) (x : α) (ys : List α) :
    combine? op (ofScalar x) (ofReals ys) =
      some ⟨[ys.length], (ys.map fun y => op (.ofReal x) (.ofReal y)).toArray, .real,
        by simp [volume]⟩ := by
  apply congrArg some
  simp only [mk.injEq]
  refine ⟨rfl, ?_, rfl⟩
  apply Array.ext
  · simp [volume, ofScalar, ofReals]
  · intro i hi hi'
    rw [List.size_toArray, List.length_map] at hi'
    have hplace : sourcePlace [ys.length] [ys.length] i = i := by
      by_cases hone : ys.length = 1
      · simp [sourcePlace, hone]
        omega
      · simp [sourcePlace, hone, Nat.mod_eq_of_lt hi']
    have hnumber : (ofScalar x).stretched [ys.length] i = .ofReal x := rfl
    have hentry : (ofReals ys).stretched [ys.length] i = .ofReal ys[i] := by
      change (ys.map Cplx.ofReal).toArray.getD (sourcePlace [ys.length] [ys.length] i) 0 = _
      rw [hplace]
      simp [hi']
    rw [Vector.getElem_toArray, Vector.getElem_ofFn]
    change op ((ofScalar x).stretched [ys.length] i) ((ofReals ys).stretched [ys.length] i) = _
    rw [hnumber, hentry, List.getElem_toArray, List.getElem_map]

namespace Setting

variable (xs : List α)

omit [Scalar α] in
theorem extentsEach?_reals : extentsEach? (xs.map real) = some (xs.map fun _ => []) := by
  induction xs with
  | nil => rw [List.map_nil, List.map_nil, extentsEach?]
  | cons x xs ih =>
    rw [List.map_cons, extentsEach?, ih]
    rfl

omit [Scalar α] in
theorem extents?_reals : (list (xs.map real)).extents? = some [xs.length] := by
  rw [extents?, extentsEach?_reals]
  cases xs with
  | nil => rfl
  | cons x xs =>
    have hall : (xs.map fun _ => ([] : List ℕ)).all (· == []) = true := by simp
    simp only [List.map_cons, bind, Option.bind]
    rw [if_pos hall, List.length_map, List.length_cons]
    rfl

omit [Scalar α] in
theorem entriesEach_reals :
    entriesEach (xs.map real) = xs.map fun x => Entry.number (.real x) := by
  induction xs with
  | nil => rw [List.map_nil, List.map_nil, entriesEach]
  | cons x xs ih =>
    rw [List.map_cons, entriesEach, ih]
    rfl

theorem toTensor_reals : (list (xs.map real)).toTensor = .ok (.ofReals xs) := by
  have hextent : (xs.map fun x => Entry.number (.real x)).toArray.size = volume [xs.length] := by
    simp [volume]
  have hrank : [xs.length].length ≤ greatestRank := Nat.le_of_ble_eq_true rfl
  unfold toTensor
  dsimp only
  rw [extents?_reals]
  dsimp only
  rw [if_pos hrank, entries, entriesEach_reals, Tensor.ofGiven?, EntryKind.ofGiven_reals,
    Tensor.ofEntries?, dif_pos (by rw [Array.size_map, hextent])]
  simp only [List.map_toArray, List.map_map]
  rfl

theorem toReals_reals : (list (xs.map real)).toReals = .ok xs := by
  simp only [toReals, toReal, Outcome.bind_eq_ok]
  refine ⟨_, ⟨_, toTensor_reals xs, Tensor.toReal_ofReals xs⟩, ?_⟩
  rw [Tensor.reals_ofReals]
  rfl

end Setting

end PhasedArray
