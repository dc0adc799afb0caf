import PhasedArray.Proofs.Exact.Reading
import PhasedArray.Proofs.Peaks

set_option autoImplicit false

/-!
# Which peaks are found (SPEC §4.4)

The peaks of a spectrum are the samples that stand out between their neighbours by more than a
fraction of the largest magnitude.  They are ranked by value, and by place where values agree.
What the search returns is the beginning of that ranking, as far as it was asked for: nothing
else, nothing left out, and nothing out of order.  The ranking itself does not depend on how many
peaks are asked for, nor on the scale of the spectrum.
-/

namespace PhasedArray

namespace Peaks

variable {n : ℕ}

/-! ## What is looked for -/

/-- How far a peak has to rise above its neighbours: a fraction of the largest magnitude. -/
noncomputable def rise (fraction : ℝ) (s : Vector ℝ n) : ℝ := fraction * ⨆ i, |s.get i|

/-- Sample `i` has two neighbours and exceeds both by more than `m`. -/
def StandsOut (m : ℝ) (s : Vector ℝ n) (i : Fin n) : Prop :=
  (∃ j : Fin n, j.val + 1 = i.val ∧ s.get j + m < s.get i) ∧
    ∃ j : Fin n, i.val + 1 = j.val ∧ s.get j + m < s.get i

/-- The ranking: a larger sample precedes a smaller one, and of equal ones the earlier precedes
the later. -/
def Precedes (s : Vector ℝ n) (i j : Fin n) : Prop :=
  s.get j < s.get i ∨ s.get i = s.get j ∧ i < j

/-- The places are those of the first `k` peaks in the ranking, or of all peaks if there are not
as many. -/
structure AreStrongest (m : ℝ) (s : Vector ℝ n) (k : ℕ) (places : List (Fin n)) : Prop where
  standOut : ∀ i ∈ places, StandsOut m s i
  nodup : places.Nodup
  apart : ∀ i ∈ places, ∀ j ∈ places, i.val + 1 ≠ j.val
  ordered : places.Pairwise (Precedes s)
  length : places.length = min k {i | StandsOut m s i}.ncard
  others : ∀ i ∈ places, ∀ j, StandsOut m s j → j ∉ places → Precedes s i j

theorem Precedes.asymm {s : Vector ℝ n} {i j : Fin n} (h : Precedes s i j) : ¬Precedes s j i := by
  rintro (hless | ⟨hequal, hlater⟩) <;> rcases h with hgreater | ⟨hequal', hearlier⟩
  · exact hless.not_gt hgreater
  · exact hless.ne hequal'
  · exact hgreater.ne hequal
  · exact hlater.not_gt hearlier

/-- There is one list of the strongest peaks. -/
theorem AreStrongest.unique {m : ℝ} {s : Vector ℝ n} {k : ℕ} {places others : List (Fin n)}
    (h : AreStrongest m s k places) (h' : AreStrongest m s k others) : places = others := by
  have hlength : places.length = others.length := h.length.trans h'.length.symm
  have hsub : places ⊆ others := by
    intro i hi
    by_contra hout
    -- another place stands in for it, and each of the two would precede the other
    obtain ⟨j, hj, hjout⟩ : ∃ j ∈ others, j ∉ places := by
      by_contra! hall
      have hperm := (h'.nodup.subperm hall).perm_of_length_le hlength.le
      exact hout (hperm.mem_iff.mpr hi)
    exact (h.others i hi j (h'.standOut j hj) hjout).asymm
      (h'.others j hj i (h.standOut i hi) hout)
  have hperm := (h.nodup.subperm hsub).perm_of_length_le hlength.ge
  exact hperm.eq_of_pairwise (fun i j _ _ hij hji => absurd hji hij.asymm) h.ordered h'.ordered

/-! ## The test for a peak -/

theorem margin_eq_rise (fraction : ℝ) (s : Vector ℝ n) : margin fraction s = rise fraction s := by
  rcases n.eq_zero_or_pos with rfl | hn
  · obtain rfl : s = #v[] := Vector.eq_empty
    rw [rise, Real.iSup_of_isEmpty]
    rfl
  · have : Nonempty (Fin n) := Fin.pos_iff_nonempty.mp hn
    exact margin_eq fraction exists_eq_ciSup_of_finite fun i =>
      le_ciSup (Set.finite_range fun i => |s.get i|).bddAbove i

theorem standsOut_iff {m : ℝ} {s : Vector ℝ n} {i : Fin n} :
    StandsOut m s i ↔ isPeak m s i = true := by
  rw [isPeak_iff]
  constructor
  · rintro ⟨⟨j, hj, hbefore⟩, l, hl, hafter⟩
    have hinterior : 0 < i.val ∧ i.val + 1 < n := ⟨by omega, hl ▸ l.isLt⟩
    obtain rfl : j = ⟨i - 1, (Nat.sub_le _ _).trans_lt i.isLt⟩ := Fin.ext (by simp only; omega)
    obtain rfl : l = ⟨i + 1, hinterior.2⟩ := Fin.ext hl.symm
    exact ⟨hinterior, hbefore, hafter⟩
  · rintro ⟨⟨hpos, hlt⟩, hbefore, hafter⟩
    exact ⟨⟨_, Nat.sub_add_cancel hpos, hbefore⟩, _, rfl, hafter⟩

/-- Of two neighbours at most one stands out. -/
theorem StandsOut.not_next {m : ℝ} {s : Vector ℝ n} {i j : Fin n} (hm : 0 ≤ m)
    (hi : StandsOut m s i) (hj : StandsOut m s j) : i.val + 1 ≠ j.val := by
  intro hnext
  obtain ⟨-, l, hl, hafter⟩ := hi
  obtain ⟨⟨l', hl', hbefore⟩, -⟩ := hj
  obtain rfl : l = j := Fin.ext (hl.symm.trans hnext)
  obtain rfl : l' = i := Fin.ext (by omega)
  linarith

/-! ## The ranking of all peaks -/

section Ranking

variable {fraction : ℝ} {s : Vector ℝ n}

theorem mem_all_iff {i : Fin n} :
    i ∈ all fraction s ↔ StandsOut (rise fraction s) s i := by
  rw [standsOut_iff, ← margin_eq_rise, all, List.mem_mergeSort, List.mem_filter]
  exact and_iff_right (List.mem_finRange i)

theorem length_all : (all fraction s).length = {i | StandsOut (rise fraction s) s i}.ncard := by
  have hset : {i | StandsOut (rise fraction s) s i} = (all fraction s).toFinset := by
    ext i
    simp [mem_all_iff]
  rw [hset, Set.ncard_coe_finset, List.toFinset_card_of_nodup nodup_all]

/-- Peaks are listed in the order of the ranking. -/
theorem all_pairwise : (all fraction s).Pairwise (Precedes s) :=
  Exact.descending_pairwise s.get ((List.pairwise_lt_finRange n).filter _)

/-- The first peaks in the ranking are the strongest ones. -/
theorem areStrongest_take (hfraction : 0 ≤ fraction) (k : ℕ) :
    AreStrongest (rise fraction s) s k ((all fraction s).take k) := by
  have hrise : 0 ≤ rise fraction s := margin_eq_rise fraction s ▸ margin_nonneg hfraction
  have hpeak : ∀ i ∈ (all fraction s).take k, StandsOut (rise fraction s) s i :=
    fun i hi => mem_all_iff.mp (List.mem_of_mem_take hi)
  have hordered : (all fraction s).Pairwise (Precedes s) := all_pairwise
  refine ⟨hpeak, nodup_all.sublist (List.take_sublist _ _), ?_,
    hordered.sublist (List.take_sublist _ _), ?_, ?_⟩
  · exact fun i hi j hj => (hpeak i hi).not_next hrise (hpeak j hj)
  · rw [List.length_take, length_all]
  · intro i hi j hj hout
    have hsplit := List.take_append_drop k (all fraction s)
    have hmem : j ∈ (all fraction s).take k ++ (all fraction s).drop k :=
      hsplit.symm ▸ mem_all_iff.mpr hj
    rw [← hsplit, List.pairwise_append] at hordered
    exact hordered.2.2 i hi j ((List.mem_append.mp hmem).resolve_left hout)

end Ranking

/-! ## The scale of a spectrum -/

section Scale

variable {c : ℝ} (hc : 0 < c) (s : Vector ℝ n)
include hc

theorem rise_scaled (fraction : ℝ) :
    rise fraction (s.map (c * ·)) = c * rise fraction s := by
  have habs : ∀ i, |(s.map (c * ·)).get i| = c * |s.get i| := by
    intro i
    rw [Vec.get_map, abs_mul, abs_of_pos hc]
  rw [rise, rise, iSup_congr habs, ← Real.mul_iSup_of_nonneg hc.le]
  ring

theorem all_scaled (fraction : ℝ) : all fraction (s.map (c * ·)) = all fraction s := by
  have hpeak : isPeak (margin fraction (s.map (c * ·))) (s.map (c * ·)) =
      isPeak (margin fraction s) s := by
    funext i
    rw [margin_eq_rise, margin_eq_rise, rise_scaled hc, Bool.eq_iff_iff, ← standsOut_iff,
      ← standsOut_iff]
    simp only [StandsOut, Vec.get_map, ← mul_add, mul_lt_mul_iff_right₀ hc]
  have horder : (fun i j => decide ((s.map (c * ·)).get j ≤ (s.map (c * ·)).get i)) =
      fun i j => decide (s.get j ≤ s.get i) := by
    funext i j
    simp only [Vec.get_map, mul_le_mul_iff_right₀ hc]
  rw [all, hpeak, horder, all]

end Scale

/-! ## Spectra as they are given -/

theorem ofTensor_toList (fraction : Number ℝ) (k : ℕ) (s : Vector ℝ n) :
    ofTensor (.number fraction) (.whole k) (.ofReals s.toList) =
      .ok (((all fraction.value s).take k).map Fin.val) := by
  obtain ⟨⟨xs⟩, rfl⟩ := s
  have hread : (Setting.number fraction).toScalar "rtol" = .ok fraction.value :=
    fraction.toScalar_eq_ok
  change ofTensor _ _ (.ofReals xs) = _
  unfold ofTensor
  change (if xs.length < 3 then _ else _) = _
  by_cases hshort : xs.length < 3
  · have hnone : all fraction.value (Vec.ofList xs) = [] := by
      rw [List.eq_nil_iff_forall_not_mem]
      intro i hi
      obtain ⟨⟨j, hj, -⟩, l, hl, -⟩ := mem_all_iff.mp hi
      have hlt : l.val < xs.length := l.isLt
      omega
    change _ = Except.ok (((all fraction.value (Vec.ofList xs)).take k).map Fin.val)
    rw [if_pos hshort, hnone, List.take_nil]
    rfl
  · rw [if_neg hshort, hread]
    change Except.ok ((strongest fraction.value k (Vec.ofList (Tensor.ofReals xs).reals)).map
      Fin.val) = _
    rw [Tensor.reals_ofReals, strongest, cutTake_natCast]
    rfl

/-- In every spectrum the places found are those of the strongest peaks, of which there is one
list.  They are the same at every positive scale, and asking for one more keeps them at the
front. -/
theorem ofTensor_strongest {fraction : Number ℝ} (hfraction : 0 ≤ fraction.value)
    (s : Vector ℝ n) (k : ℕ) :
    ∃ places : List (Fin n),
      ofTensor (.number fraction) (.whole k) (.ofReals s.toList) = .ok (places.map Fin.val) ∧
      strongest fraction.value k s = places ∧
      AreStrongest (rise fraction.value s) s k places ∧
      (∀ others, AreStrongest (rise fraction.value s) s k others → others = places) ∧
      (∀ c : ℝ, 0 < c →
        ofTensor (.number fraction) (.whole k) (.ofReals (s.map (c * ·)).toList) =
          .ok (places.map Fin.val)) ∧
      ∃ more, ofTensor (.number fraction) (.whole (k + 1 : ℕ)) (.ofReals s.toList) =
        .ok (more.map Fin.val) ∧ places <+: more := by
  have hstrongest := areStrongest_take (s := s) hfraction k
  refine ⟨_, ofTensor_toList fraction k s, cutTake_natCast k _, hstrongest,
    fun _ hothers => hothers.unique hstrongest, fun c hc => ?_, _,
    ofTensor_toList fraction (k + 1) s, ?_⟩
  · rw [ofTensor_toList, all_scaled hc]
  · exact List.take_prefix_take_left (Nat.le_succ k)

/-- Of two peaks the higher one is found if one is asked for. -/
theorem ofTensor_strongest_two_peaks :
    0 ≤ (Number.real (defaultFraction : ℝ)).value ∧
    ofTensor (.real defaultFraction) (.whole (1 : ℕ)) (.ofReals [(0 : ℝ), 1, 0, 2, 0]) =
      .ok [3] := by
  have hfraction : (defaultFraction : ℝ) = 1e-9 := rfl
  have hnonneg : 0 ≤ (Number.real (defaultFraction : ℝ)).value := by
    change 0 ≤ (defaultFraction : ℝ)
    rw [hfraction]
    norm_num
  let s : Vector ℝ 5 := #v[0, 1, 0, 2, 0]
  obtain ⟨places, hplaces, -, hstrongest, -⟩ := ofTensor_strongest hnonneg s 1
  have htop : ∀ i : Fin 5, i ≠ 3 → s.get i < s.get 3 := by
    intro i hi
    fin_cases i <;> simp [s, Vec.get_eq_getElem] at hi ⊢
  have hrise : rise defaultFraction s < 1 := by
    have hsup : ⨆ i, |s.get i| ≤ 2 := by
      apply ciSup_le
      intro i
      fin_cases i <;> simp [s, Vec.get_eq_getElem]
    rw [rise, hfraction]
    linarith
  have hpeak : StandsOut (rise defaultFraction s) s 3 := by
    refine ⟨⟨2, rfl, ?_⟩, 4, rfl, ?_⟩ <;> simp [s, Vec.get_eq_getElem] <;> linarith
  have hlength : places.length = 1 := by
    rw [hstrongest.length, Nat.min_eq_left]
    exact (Set.ncard_pos (Set.toFinite _)).mpr ⟨3, hpeak⟩
  obtain ⟨i, rfl⟩ := List.length_eq_one_iff.mp hlength
  have hi : i = 3 := by
    by_contra hne
    have hout : (3 : Fin 5) ∉ [i] := by simpa using Ne.symm hne
    rcases hstrongest.others i List.mem_cons_self 3 hpeak hout with hless | ⟨hequal, -⟩
    · exact absurd hless (htop i hne).not_gt
    · exact absurd hequal (htop i hne).ne
  subst hi
  exact ⟨hnonneg, hplaces⟩

end Peaks

end PhasedArray
