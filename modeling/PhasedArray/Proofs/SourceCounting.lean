import PhasedArray.Proofs.InformationCriterion

set_option autoImplicit false

/-!
# How many sources are counted (SPEC §4.3)

Where some eigenvalues stand above a level that all others share, no more of them are counted as
sources, and with enough snapshots all of them are: counting more adds to the charge and takes
nothing from the misfit, while counting fewer leaves a misfit that any low enough price is worth.

For any eigenvalues the count can only grow with the number of snapshots, since the price falls.
It does not depend on the order of the eigenvalues, nor on their unit as long as they stay above
the floor.
-/

namespace PhasedArray

namespace SourceCount

/-! ## Prepared eigenvalues -/

theorem eigenvalueFloor_eq : (eigenvalueFloor : ℝ) = 1e-12 := rfl

theorem eigenvalueFloor_pos : (0 : ℝ) < eigenvalueFloor := by
  rw [eigenvalueFloor_eq]
  norm_num

theorem raised_eq (x : ℝ) : raised x = max x eigenvalueFloor := Exact.scalar_maxNaN x _

theorem prepared_perm (values : List ℝ) : (prepared values).Perm (values.map raised) :=
  (List.reverse_perm _).trans (Exact.sorted_perm _)

theorem pos_of_mem_prepared {values : List ℝ} : ∀ x ∈ prepared values, 0 < x := by
  intro x hx
  obtain ⟨y, -, rfl⟩ := List.mem_map.mp ((prepared_perm values).mem_iff.mp hx)
  rw [raised_eq]
  exact lt_max_of_lt_right eigenvalueFloor_pos

theorem prepared_congr {values values' : List ℝ} (h : values.Perm values') :
    prepared values = prepared values' := by
  rw [prepared, prepared, Exact.sorted_congr (h.map raised)]

/-- Above the floor, eigenvalues in another unit are prepared in that unit. -/
theorem prepared_scaled {values : List ℝ} {c : ℝ} (hc : 0 < c)
    (hfloor : ∀ x ∈ values, eigenvalueFloor ≤ x)
    (hscaled : ∀ x ∈ values, eigenvalueFloor ≤ c * x) :
    prepared (values.map (c * ·)) = (prepared values).map (c * ·) := by
  have hkeep : ∀ xs : List ℝ, (∀ x ∈ xs, eigenvalueFloor ≤ x) → xs.map raised = xs := by
    intro xs hxs
    refine (List.map_congr_left fun x hx => ?_).trans (List.map_id xs)
    rw [raised_eq, max_eq_left (hxs x hx), id]
  have hsorted : Scalar.sorted (values.map (c * ·)) = (Scalar.sorted values).map (c * ·) := by
    apply Exact.sorted_eq_of_perm ((Exact.sorted_perm values).map _)
    rw [List.pairwise_map]
    exact (Exact.sorted_pairwise values).imp fun h => mul_le_mul_of_nonneg_left h hc.le
  rw [prepared, prepared, hkeep values hfloor, hkeep _ (List.forall_mem_map.mpr hscaled), hsorted,
    List.map_reverse]

/-! ## Sources above a level -/

/-- Raised to the floor, `k` eigenvalues stand above a level and the others are at that level. -/
def ShowsSources (values : List ℝ) (k : ℕ) : Prop :=
  ∃ (level : ℝ) (sources : List ℝ), sources.length = k ∧ (∀ x ∈ sources, level < x) ∧
    (values.map fun x => max x eigenvalueFloor).Perm
      (sources ++ List.replicate (values.length - k) level)

namespace ShowsSources

variable {values : List ℝ} {k : ℕ}

theorem exists_prepared (h : ShowsSources values k) :
    ∃ (level : ℝ) (sources : List ℝ), sources.length = k ∧ (∀ x ∈ sources, level < x) ∧
      prepared values = sources ++ List.replicate (values.length - k) level := by
  obtain ⟨level, sources, rfl, hlarger, hperm⟩ := h
  have hmem : ∀ x ∈ Scalar.sorted sources, level < x :=
    fun x hx => hlarger x ((Exact.sorted_perm sources).mem_iff.mp hx)
  have hraised : values.map raised = values.map fun x => max x eigenvalueFloor :=
    List.map_congr_left fun x _ => raised_eq x
  have hsorted : Scalar.sorted (values.map raised) =
      List.replicate (values.length - sources.length) level ++ Scalar.sorted sources := by
    apply Exact.sorted_eq_of_perm
    · rw [hraised]
      exact (List.perm_append_comm.trans ((Exact.sorted_perm sources).append_right _)).trans
        hperm.symm
    · rw [List.pairwise_append]
      refine ⟨List.pairwise_replicate.mpr (.inr le_rfl), Exact.sorted_pairwise _, ?_⟩
      intro x hx y hy
      rw [List.eq_of_mem_replicate hx]
      exact (hmem y hy).le
  refine ⟨level, (Scalar.sorted sources).reverse, ?_, fun x hx => hmem x (List.mem_reverse.mp hx),
    ?_⟩
  · rw [List.length_reverse, (Exact.sorted_perm sources).length_eq]
  · rw [prepared, hsorted, List.reverse_append, List.reverse_replicate]

/-- The eigenvalues that the sources leave are equal. -/
theorem misfit_eq_zero (h : ShowsSources values k) {i : ℕ} (hi : k ≤ i) :
    misfit ((prepared values).drop i) = 0 := by
  have hpositive : ∀ x ∈ (prepared values).drop i, 0 < x :=
    fun x hx => pos_of_mem_prepared x (List.mem_of_mem_drop hx)
  obtain ⟨level, sources, rfl, -, hprepared⟩ := h.exists_prepared
  rw [hprepared, List.drop_append, List.drop_of_length_le hi, List.nil_append,
    List.drop_replicate] at hpositive ⊢
  rcases Nat.eq_zero_or_pos (values.length - sources.length - (i - sources.length)) with hj | hj
  · rw [hj]
    simp [misfit]
  · apply misfit_replicate
    exact hpositive level (List.mem_replicate.mpr ⟨hj.ne', rfl⟩)

/-- With a source among them they are not. -/
theorem misfit_pos (h : ShowsSources values k) (hk : k < values.length) {i : ℕ} (hi : i < k) :
    0 < misfit ((prepared values).drop i) := by
  have hpositive : ∀ x ∈ (prepared values).drop i, 0 < x :=
    fun x hx => pos_of_mem_prepared x (List.mem_of_mem_drop hx)
  obtain ⟨level, sources, rfl, hlarger, hprepared⟩ := h.exists_prepared
  rw [hprepared, List.drop_append_of_le_length hi.le] at hpositive ⊢
  have hsource : sources[i] ∈ sources.drop i := by
    rw [List.drop_eq_getElem_cons hi]
    exact List.mem_cons_self
  have hlevel : level ∈ List.replicate (values.length - sources.length) level :=
    List.mem_replicate.mpr ⟨(Nat.sub_pos_of_lt hk).ne', rfl⟩
  exact SourceCount.misfit_pos hpositive (List.mem_append_left _ hsource)
    (List.mem_append_right _ hlevel) (hlarger _ (List.getElem_mem hi)).ne'

/-- At no price are more sources counted. -/
theorem le_of_isFirstMin (h : ShowsSources values k)
    {criterion : Criterion} {n : ℝ} (hn : 1 ≤ n) {i : ℕ}
    (hi : IsFirstMin (weighed criterion n values) values.length i) : i ≤ k := by
  by_contra! hlt
  have hless := hi.first k hlt
  have hcharge : (charge values.length k : ℝ) ≤ charge values.length i :=
    Nat.cast_le.mpr (charge_lt hlt hi.lt.le).le
  rw [weighed, weighed, h.misfit_eq_zero hlt.le, h.misfit_eq_zero le_rfl] at hless
  have hprice := mul_le_mul_of_nonneg_left hcharge (price_nonneg criterion hn)
  linarith

/-- At a price low enough for every misfit, no fewer are. -/
theorem ge_of_isFirstMin (h : ShowsSources values k) (hk : k < values.length)
    {criterion : Criterion} {n : ℝ} (hn : 1 ≤ n)
    (hprice : ∀ i < k, price criterion n * charge values.length k <
      misfit ((prepared values).drop i)) {i : ℕ}
    (hi : IsFirstMin (weighed criterion n values) values.length i) : k ≤ i := by
  by_contra! hlt
  have hle := hi.least k hk
  rw [weighed, weighed, h.misfit_eq_zero le_rfl] at hle
  have hcharge : 0 ≤ price criterion n * charge values.length i :=
    mul_nonneg (price_nonneg criterion hn) (Nat.cast_nonneg _)
  have hmisfit := hprice i hlt
  linarith

/-- With enough snapshots the price is low enough. -/
theorem exists_price_lt (h : ShowsSources values k) (hk : k < values.length)
    (criterion : Criterion) : ∃ enough : ℝ, ∀ n ≥ enough, ∀ i < k,
      price criterion n * charge values.length k < misfit ((prepared values).drop i) := by
  have hlimit : Filter.Tendsto (fun n => price criterion n * charge values.length k)
      Filter.atTop (nhds 0) := by
    simpa using (tendsto_price criterion).mul_const (charge values.length k : ℝ)
  have heach : ∀ i ∈ Finset.range k, ∀ᶠ n in Filter.atTop,
      price criterion n * charge values.length k < misfit ((prepared values).drop i) :=
    fun i hi => hlimit.eventually_lt_const (h.misfit_pos hk (Finset.mem_range.mp hi))
  obtain ⟨enough, henough⟩ :=
    Filter.eventually_atTop.mp ((Filter.eventually_all_finset _).mpr heach)
  exact ⟨enough, fun n hn i hi => henough n hn i (Finset.mem_range.mpr hi)⟩

end ShowsSources

/-- Of `k` eigenvalues above the level of all others, no more than `k` are counted as sources
whatever the number of snapshots, and exactly `k` if it is large enough. -/
theorem counts_shown_sources {values : List ℝ} {k : ℕ} (hk : k < values.length)
    (h : ShowsSources values k) (criterion : Criterion) :
    (∀ n : Number ℝ, 1 ≤ n.value → ∃ i ≤ k, Counts criterion n values i) ∧
    ∃ enough : ℝ, ∀ n : Number ℝ, enough ≤ n.value → Counts criterion n values k := by
  have hne : values ≠ [] := List.ne_nil_of_length_pos (Nat.zero_lt_of_lt hk)
  have hcount : ∀ n : Number ℝ, 1 ≤ n.value → ∃ i, Counts criterion n values i ∧
      IsFirstMin (weighed criterion n.value values) values.length i := by
    intro n hn
    obtain ⟨i, -, hi⟩ := exists_estimate criterion n hne
    exact ⟨i, counts_iff.mpr hi, (estimate_eq_some_iff (one_pos.trans_le hn)).mp hi⟩
  obtain ⟨enough, henough⟩ := h.exists_price_lt hk criterion
  refine ⟨fun n hn => ?_, max 1 enough, fun n hn => ?_⟩
  · obtain ⟨i, hi, hmin⟩ := hcount n hn
    exact ⟨i, h.le_of_isFirstMin hn hmin, hi⟩
  · obtain ⟨hone, hlow⟩ := max_le_iff.mp hn
    obtain ⟨i, hi, hmin⟩ := hcount n hone
    obtain rfl : i = k := le_antisymm (h.le_of_isFirstMin hone hmin)
      (h.ge_of_isFirstMin hk hone (henough n.value hlow) hmin)
    exact hi

/-- One eigenvalue above two that are raised to the floor. -/
theorem counts_shown_sources_one :
    ShowsSources [0, 5, -1] 1 ∧
    (∀ n : Number ℝ, 1 ≤ n.value → ∃ i ≤ 1, Counts .mdl n [0, 5, -1] i) ∧
    ∃ enough : ℝ, ∀ n : Number ℝ, enough ≤ n.value → Counts .mdl n [0, 5, -1] 1 := by
  have hlow : (eigenvalueFloor : ℝ) < 5 := by
    rw [eigenvalueFloor_eq]
    norm_num
  have hpos := eigenvalueFloor_pos
  have hshows : ShowsSources [0, 5, -1] 1 := by
    refine ⟨eigenvalueFloor, [5], rfl, by simpa using hlow, ?_⟩
    have hraised : [(0 : ℝ), 5, -1].map (fun x => max x eigenvalueFloor) =
        [eigenvalueFloor, 5, eigenvalueFloor] := by
      simp only [List.map_cons, List.map_nil]
      rw [max_eq_right hpos.le, max_eq_left hlow.le, max_eq_right (by linarith)]
    rw [hraised]
    exact List.Perm.swap 5 eigenvalueFloor [eigenvalueFloor]
  exact ⟨hshows, counts_shown_sources (by decide) hshows .mdl⟩

/-! ## More snapshots, another order, another unit -/

/-- A lower price does not lead to fewer sources. -/
theorem IsFirstMin.le_of_price_le {criterion : Criterion} {n n' : ℝ} {values : List ℝ} {k k' : ℕ}
    (hk : IsFirstMin (weighed criterion n values) values.length k)
    (hk' : IsFirstMin (weighed criterion n' values) values.length k')
    (hprice : price criterion n' ≤ price criterion n) : k ≤ k' := by
  by_contra! hlt
  have hless := hk.first k' hlt
  have hle := hk'.least k hk.lt
  have hcharge : (charge values.length k' : ℝ) ≤ charge values.length k :=
    Nat.cast_le.mpr (charge_lt hlt hk.lt.le).le
  -- otherwise the product of what the price and the charge fall by would be negative
  have hsaved := mul_nonneg (sub_nonneg.mpr hprice) (sub_nonneg.mpr hcharge)
  unfold weighed at hless hle
  linarith

/-- Only the prepared eigenvalues count. -/
theorem estimate_perm {values values' : List ℝ} (h : values.Perm values') (criterion : Criterion)
    (n : Number ℝ) : estimate criterion n values = estimate criterion n values' := by
  rw [estimate, estimate, prepared_congr h]

theorem estimate_scaled {values : List ℝ} {c : ℝ} (hc : 0 < c)
    (hfloor : ∀ x ∈ values, eigenvalueFloor ≤ x)
    (hscaled : ∀ x ∈ values, eigenvalueFloor ≤ c * x) (criterion : Criterion) (n : Number ℝ) :
    estimate criterion n (values.map (c * ·)) = estimate criterion n values := by
  have hratio : ∀ k, logMeanRatio ((prepared (values.map (c * ·))).drop k) =
      logMeanRatio ((prepared values).drop k) := by
    intro k
    rw [prepared_scaled hc hfloor hscaled, ← List.map_drop]
    exact logMeanRatio_scaled (fun x hx => pos_of_mem_prepared x (List.mem_of_mem_drop hx)) hc
  rw [estimate, estimate, length_prepared, length_prepared, List.length_map]
  simp only [score, hratio]

/-- Some number of sources below that of the eigenvalues is counted, and it can only grow with
the number of snapshots, from one on or, where the criterion takes their logarithm, from three
on.  The eigenvalues may come in any order, and in any unit in which they stay above the floor. -/
theorem counts_monotone {values : List ℝ} (hne : values ≠ []) (criterion : Criterion) :
    (∀ n : Number ℝ, ∃ k < values.length, Counts criterion n values k) ∧
    (∀ n n' : Number ℝ, (falling criterion : ℝ) ≤ n.value → n.value ≤ n'.value →
      ∀ k k', Counts criterion n values k → Counts criterion n' values k' → k ≤ k') ∧
    (∀ values' : List ℝ, values.Perm values' →
      ∀ (n : Number ℝ) (k : ℕ), Counts criterion n values k ↔ Counts criterion n values' k) ∧
    ∀ c : ℝ, 0 < c → (∀ x ∈ values, eigenvalueFloor ≤ x) →
      (∀ x ∈ values, eigenvalueFloor ≤ c * x) →
      ∀ (n : Number ℝ) (k : ℕ),
        Counts criterion n values k ↔ Counts criterion n (values.map (c * ·)) k := by
  refine ⟨fun n => ?_, fun n n' hn hnn' k k' hk hk' => ?_, fun values' hperm n k => ?_,
    fun c hc hfloor hscaled n k => ?_⟩
  · obtain ⟨k, hlt, hk⟩ := exists_estimate criterion n hne
    exact ⟨k, hlt, counts_iff.mpr hk⟩
  · have hpos : 0 < n.value := (falling_pos criterion).trans_le hn
    exact IsFirstMin.le_of_price_le ((estimate_eq_some_iff hpos).mp hk.estimate)
      ((estimate_eq_some_iff (hpos.trans_le hnn')).mp hk'.estimate)
      (price_antitone criterion hn hnn')
  · rw [counts_iff, counts_iff, estimate_perm hperm]
  · rw [counts_iff, counts_iff, estimate_scaled hc hfloor hscaled]

/-- Two eigenvalues, for three snapshots and for a hundred, swapped and doubled. -/
theorem counts_monotone_two :
    ∃ k k', Counts .mdl (.whole 3) [5, 1] k ∧ Counts .mdl (.whole 100) [5, 1] k' ∧ k ≤ k' ∧
      k' < 2 ∧ Counts .mdl (.whole 3) [1, 5] k ∧
      Counts .mdl (.whole 3) ([5, 1].map ((2 : ℝ) * ·)) k := by
  obtain ⟨hexists, hmono, hperm, hscaled⟩ := counts_monotone (List.cons_ne_nil (5 : ℝ) [1]) .mdl
  obtain ⟨k, -, hk⟩ := hexists (.whole 3)
  obtain ⟨k', hlt, hk'⟩ := hexists (.whole 100)
  refine ⟨k, k', hk, hk', ?_, hlt, ?_, ?_⟩
  · exact hmono _ _ (by norm_num [falling, Number.value]) (by norm_num [Number.value]) k k' hk hk'
  · exact (hperm [1, 5] (List.Perm.swap 1 5 []) _ k).mp hk
  · refine (hscaled 2 two_pos ?_ ?_ _ k).mp hk <;> rw [eigenvalueFloor_eq] <;> norm_num

end SourceCount

end PhasedArray
