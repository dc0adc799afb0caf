import PhasedArray.Peaks
import PhasedArray.Proofs.Exact.Scalar

set_option autoImplicit false

/-!
# The strongest peaks (SPEC §4.4)

Peaks of one value that all others stay below come first, in the order of their places,
because the sort is stable and looks at values only.  If there are as many of them as are
asked for, they are the answer, however many other peaks compete.
-/

namespace PhasedArray

/-- In a list where nothing that is not chosen precedes what is, the chosen come first. -/
theorem filter_append_filter_not {β : Type} {p : β → Bool} {l : List β}
    (h : l.Pairwise fun a b => p b → p a) : l.filter p ++ l.filter (fun a => !p a) = l := by
  induction l with
  | nil => rfl
  | cons a l ih =>
    rw [List.pairwise_cons] at h
    by_cases ha : p a
    · simpa [ha] using ih h.2
    · have hnone : l.filter p = [] := by
        rw [List.filter_eq_nil_iff]
        exact fun b hb hpb => ha (h.1 b hb hpb)
      have hall : l.filter (fun a => !p a) = l := by
        rw [List.filter_eq_self]
        intro b hb
        simpa using fun hpb => ha (h.1 b hb hpb)
      simp [ha, hnone, hall]

namespace Peaks

variable {n : ℕ}

/-! ## Peaks of values of any kind -/

section Listed

variable {α : Type} [Scalar α] {fraction m : α} {s : Vector α n} {i : Fin n}

/-- A peak has two neighbours, and both stay below it by more than the margin. -/
theorem neighbours_of_isPeak (h : isPeak m s i = true) :
    (∃ j : Fin n, j.val + 1 = i.val ∧ s.get j + m < s.get i) ∧
      ∃ j : Fin n, i.val + 1 = j.val ∧ s.get j + m < s.get i := by
  unfold isPeak at h
  split_ifs at h with hi
  obtain ⟨hbefore, hafter⟩ := Bool.and_eq_true_iff.mp h
  exact ⟨⟨⟨i - 1, by omega⟩, Nat.sub_add_cancel hi.1, of_decide_eq_true hbefore⟩,
    ⟨i + 1, hi.2⟩, rfl, of_decide_eq_true hafter⟩

/-- All that is listed is a peak. -/
theorem isPeak_of_mem_all (h : i ∈ all fraction s) : isPeak (margin fraction s) s i :=
  (List.mem_filter.mp (List.mem_mergeSort.mp h)).2

theorem nodup_all : (all fraction s).Nodup :=
  ((List.nodup_finRange n).filter _).perm (List.mergeSort_perm _ _).symm

end Listed

/-! ## Peaks of real values -/

variable {s : Vector ℝ n}

/-- The margin is the fraction of the largest magnitude. -/
theorem margin_eq {v : ℝ} (fraction : ℝ) (hmem : ∃ i, |s.get i| = v)
    (hle : ∀ i, |s.get i| ≤ v) : margin fraction s = fraction * v := by
  have hmax : (s.toList.map Scalar.abs).max? = some v := by
    rw [List.max?_eq_some_iff]
    constructor
    · obtain ⟨i, hi⟩ := hmem
      rw [List.mem_map]
      exact ⟨s.get i, Vector.mem_toList_iff.mpr (Vector.getElem_mem i.isLt),
        (Exact.scalar_abs _).trans hi⟩
    · intro y hy
      obtain ⟨x, hx, rfl⟩ := List.mem_map.mp hy
      obtain ⟨i, hi, rfl⟩ := Vector.mem_iff_getElem.mp (Vector.mem_toList_iff.mp hx)
      rw [Exact.scalar_abs]
      exact hle ⟨i, hi⟩
  rw [margin, Exact.maximum_eq_max, hmax]
  rfl

theorem isPeak_iff {margin : ℝ} {i : Fin n} :
    isPeak margin s i ↔ ∃ h : 0 < i.val ∧ i.val + 1 < n,
      s.get ⟨i - 1, (Nat.sub_le _ _).trans_lt i.isLt⟩ + margin < s.get i ∧
        s.get ⟨i + 1, h.2⟩ + margin < s.get i := by
  unfold isPeak
  split_ifs with h
  · rw [Bool.and_eq_true, decide_eq_true_eq, decide_eq_true_eq, exists_prop_of_true h]
    rfl
  · simp [h]

theorem margin_nonneg {fraction : ℝ} (hfraction : 0 ≤ fraction) : 0 ≤ margin fraction s :=
  mul_nonneg hfraction (Exact.maximum_abs_nonneg s.toList)

/-- A peak is interior and above both neighbours. -/
theorem lt_of_isPeak {fraction : ℝ} (hfraction : 0 ≤ fraction) {i : Fin n}
    (h : isPeak (margin fraction s) s i) :
    ∃ hi : 0 < i.val ∧ i.val + 1 < n,
      s.get ⟨i - 1, (Nat.sub_le _ _).trans_lt i.isLt⟩ < s.get i ∧
        s.get ⟨i + 1, hi.2⟩ < s.get i := by
  obtain ⟨hi, hbefore, hafter⟩ := isPeak_iff.mp h
  have hmargin := margin_nonneg (s := s) hfraction
  exact ⟨hi, by linarith, by linarith⟩

/-- Peaks of one value that all other samples stay below are the strongest, in the order of
their places. -/
theorem strongest_eq_filter {fraction v : ℝ} {p : Fin n → Bool}
    (hpeak : ∀ i, p i → isPeak (margin fraction s) s i) (htop : ∀ i, p i → s.get i = v)
    (hrest : ∀ i, ¬ p i → s.get i < v) :
    strongest fraction ((List.finRange n).countP p) s = (List.finRange n).filter p := by
  have hsorted : (all fraction s).Pairwise fun i j => decide (s.get j ≤ s.get i) :=
    List.pairwise_mergeSort (Exact.descending_trans s.get) (Exact.descending_total s.get) _
  have hchosen : (all fraction s).filter p = (List.finRange n).filter p := by
    rw [all, Exact.filter_descending s.get fun i hi j hj => (htop j hj).trans_le (htop i hi).ge,
      List.filter_filter]
    apply List.filter_congr
    intro i _
    by_cases hi : p i
    · rw [hpeak i hi, Bool.and_true]
    · simp [hi]
  have hsplit : (all fraction s).filter p ++ (all fraction s).filter (fun i => !p i) =
      all fraction s := by
    apply filter_append_filter_not
    apply hsorted.imp
    intro i j hij hj
    by_contra hi
    have hle : s.get j ≤ s.get i := decide_eq_true_eq.mp hij
    rw [htop j hj] at hle
    exact absurd (hrest i hi) (not_lt.mpr hle)
  rw [strongest, cutTake_natCast, ← hsplit, hchosen, List.countP_eq_length_filter]
  exact List.take_left' rfl

end Peaks

end PhasedArray
