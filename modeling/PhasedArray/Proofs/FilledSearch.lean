import PhasedArray.Proofs.Peaks
import PhasedArray.Proofs.SmallEngine

set_option autoImplicit false

/-!
# What every spectral search reports (SPEC §4.4)

A search for `k` directions reports `k` angles, whatever the spectrum is: the directions of its
strongest peaks as far as there are any, in descending order, and fixed angles in the places that
are left.  Nothing is assumed of the spectrum, which may be infinite where a floor of zero is
reached, and undefined where the sentinel is; nor of the eigenvectors that it is made from.
-/

namespace PhasedArray

open Extended

/-- The largest value of a list is one of the values. -/
theorem Scalar.mem_of_maximum? {α : Type} [Scalar α] {xs : List α} {v : α}
    (h : Scalar.maximum? xs = some v) : v ∈ xs := by
  have hstep : ∀ x y : α, Scalar.maxNaN x y = x ∨ Scalar.maxNaN x y = y := by
    intro x y
    unfold Scalar.maxNaN
    split_ifs <;> simp
  have hfold : ∀ (xs : List α) (x : α), xs.foldl Scalar.maxNaN x ∈ x :: xs := by
    intro xs
    induction xs with
    | nil => simp
    | cons y ys ih =>
      intro x
      rw [List.foldl_cons]
      rcases List.mem_cons.mp (ih (Scalar.maxNaN x y)) with heq | hmem
      · rw [heq]
        rcases hstep x y with h | h <;> simp [h]
      · exact List.mem_cons_of_mem _ (List.mem_cons_of_mem _ hmem)
  cases xs with
  | nil => cases h
  | cons x xs => exact Option.some.inj h ▸ hfold xs x

/-! ## Peaks among values of any kind -/

namespace Peaks

variable {n : ℕ}

variable {s : Vector Extended n}

/-- The margin is not negative, though it may be infinite or undefined. -/
theorem not_margin_lt_zero (s : Vector Extended n) : ¬ margin defaultFraction s < 0 := by
  have hfraction : (0 : ℝ) < 1e-9 := by norm_num
  unfold margin
  apply not_mul_lt_zero hfraction
  cases hmax : Scalar.maximum? (s.toList.map Scalar.abs) with
  | none => exact fun h => h.2 h.1
  | some v =>
    obtain ⟨x, -, rfl⟩ := List.mem_map.mp (Scalar.mem_of_maximum? hmax)
    exact not_abs_lt_zero x

/-- Of two neighbours at most one is a peak, since each would have to lie above the other. -/
theorem not_next_of_mem {i j : Fin n} (hi : i ∈ all defaultFraction s)
    (hj : j ∈ all defaultFraction s) : i.val + 1 ≠ j.val := by
  intro hnext
  obtain ⟨-, j', hj', habove⟩ := neighbours_of_isPeak (isPeak_of_mem_all hi)
  obtain ⟨⟨i', hi', hbelow⟩, -⟩ := neighbours_of_isPeak (isPeak_of_mem_all hj)
  obtain rfl : j' = j := Fin.ext (hj'.symm.trans hnext)
  obtain rfl : i' = i := Fin.ext (by omega)
  have hmargin := not_margin_lt_zero s
  exact (lt_of_add_lt hmargin habove).2 (lt_of_add_lt hmargin hbelow).1

/-- Peaks are listed in descending order.  Their values are defined, so that sorting compares them
by their places in the order. -/
theorem all_descending (s : Vector Extended n) :
    (all defaultFraction s).Pairwise fun i j => s.get j ≤ s.get i := by
  let peaks := (List.finRange n).filter (isPeak (margin defaultFraction s) s)
  have hdefined : ∀ i ∈ peaks, s.get i ≠ undefined := by
    intro i hi
    obtain ⟨-, j, -, habove⟩ := neighbours_of_isPeak (List.mem_filter.mp hi).2
    exact (lt_iff.mp habove).2.1
  let key : Fin n → Fin n → Bool := fun i j => decide ((s.get j).toEReal ≤ (s.get i).toEReal)
  have hsame : all defaultFraction s = peaks.mergeSort key := by
    have hmap := List.map_mergeSort (f := id) (s := key) (l := peaks)
      (r := fun i j => decide (s.get j ≤ s.get i)) fun i hi j hj =>
        decide_eq_decide.mpr (le_iff (hdefined j hj) (hdefined i hi))
    rwa [List.map_id, List.map_id] at hmap
  have hsorted : (peaks.mergeSort key).Pairwise fun i j => key i j = true :=
    List.pairwise_mergeSort (Exact.descending_trans fun i => (s.get i).toEReal)
      (Exact.descending_total fun i => (s.get i).toEReal) peaks
  rw [hsame]
  refine hsorted.imp_of_mem fun {i j} hi hj hij => ?_
  have hi := hdefined i (List.mem_mergeSort.mp hi)
  have hj := hdefined j (List.mem_mergeSort.mp hj)
  exact (le_iff hj hi).mpr (of_decide_eq_true hij)

end Peaks

/-! ## Angles in the range -/

namespace SearchGrid

variable {grid : SearchGrid Extended} {steps : ℝ}

/-- A grid that is made from a setting has a point at the start of each step, the last of which
need not be a whole one. -/
theorem exists_steps {points : Setting Extended} (h : ofSetting points = .ok grid) :
    ∃ steps : ℝ, 0 < steps ∧ grid.steps = finite steps ∧ ∀ i < grid.size, (i : ℝ) < steps := by
  obtain ⟨number, -, hfinite, -, hgrid⟩ := exists_of_ofSetting h
  obtain ⟨steps, hsteps⟩ := isFinite_iff.mp hfinite
  have hpos := extended_steps_pos h
  rw [hgrid] at hpos ⊢
  dsimp only at hpos ⊢
  rw [hsteps, zero_eq, finite_lt] at hpos
  refine ⟨steps, hpos, hsteps, ?_⟩
  intro i hi
  rw [Int.lt_toNat] at hi
  cases number with
  | whole count =>
    rw [Number.value, ofInt_eq] at hsteps
    have hcount : (count : ℝ) = steps := finite.inj hsteps
    have hlt : ((i : ℤ) : ℝ) < (count : ℝ) := Int.cast_lt.mpr hi
    rwa [hcount, Int.cast_natCast] at hlt
  | real x =>
    obtain rfl : x = finite steps := hsteps
    have htruncate : Scalar.truncate (finite steps) = ⌊steps⌋ := if_pos hpos.le
    unfold Number.ceil at hi
    dsimp only at hi
    rw [htruncate, ofInt_eq] at hi
    split_ifs at hi with hpart
    · have hle : ((i : ℤ) : ℝ) ≤ ⌊steps⌋ := Int.cast_le.mpr (Int.lt_add_one_iff.mp hi)
      rw [Int.cast_natCast] at hle
      exact hle.trans_lt (finite_lt.mp hpart)
    · have hlt : ((i : ℤ) : ℝ) < ⌊steps⌋ := Int.cast_lt.mpr hi
      rw [Int.cast_natCast] at hlt
      exact hlt.trans_le (Int.floor_le steps)

theorem point_eq (hsteps : steps ≠ 0) (h : grid.steps = finite steps) (i : ℕ) :
    grid.point i = finite (-(Real.pi / 2) + i * (Real.pi / steps)) := by
  have htwo : (Scalar.ofNat 2 : Extended) = finite 2 := by simp
  change -Scalar.pi / Scalar.ofNat 2 + Scalar.ofNat i * Scalar.pi / grid.steps = _
  rw [h, htwo, pi_eq, ofNat_eq, finite_neg, finite_div two_ne_zero, finite_mul, finite_div hsteps,
    finite_add, neg_div, mul_div_assoc]

end SearchGrid

namespace SpectralSearch

theorem fallbackAngle_eq {k : ℕ} (hk : 0 < k) (i : ℕ) :
    fallbackAngle (Scalar.ofNat k) i = finite (-(Real.pi / 4) + i * Real.pi / (2 * k)) := by
  have htwice : (2 * k : ℝ) ≠ 0 := by positivity
  have hfour : (Scalar.ofNat 4 : Extended) = finite 4 := by simp
  have htwo : (Scalar.ofNat 2 : Extended) = finite 2 := by simp
  change -Scalar.pi / Scalar.ofNat 4 +
    Scalar.ofNat i * Scalar.pi / (Scalar.ofNat 2 * Scalar.ofNat k) = _
  rw [hfour, htwo, pi_eq, ofNat_eq, ofNat_eq, finite_neg, finite_div four_ne_zero, finite_mul,
    finite_mul, finite_div htwice, finite_add, neg_div]

theorem fallbackAngle_mem_range {i k : ℕ} (hi : i < k) :
    -(Real.pi / 4) + i * Real.pi / (2 * k) ∈ Set.Ico (-(Real.pi / 2)) (Real.pi / 2) := by
  have hk : (0 : ℝ) < k := Nat.cast_pos.mpr (Nat.zero_lt_of_lt hi)
  have hpi := Real.pi_pos
  have hnonneg : 0 ≤ i * Real.pi / (2 * k) := by positivity
  have hlt : i * Real.pi / (2 * k) < Real.pi / 2 := by
    have hcast : (i : ℝ) < k := Nat.cast_lt.mpr hi
    rw [mul_comm, mul_div_mul_comm, mul_lt_iff_lt_one_right (by positivity), div_lt_one hk]
    exact hcast
  constructor <;> linarith

/-! ## The places of the angles -/

section Places

variable {α : Type} [Scalar α] {s : SpectralSearch α} {k : ℕ} (values : Vector α s.grid.size)

/-- The first angles are the directions of the peaks. -/
theorem angles_findIn_of_lt {i : ℕ}
    (hi : i < (Peaks.strongest Peaks.defaultFraction k values).length) :
    (s.findIn k values).angles[i]? =
      some (s.grid.point (Peaks.strongest Peaks.defaultFraction k values)[i]) := by
  rw [findIn, List.getElem?_append_left (by rwa [List.length_map]), List.getElem?_map,
    List.getElem?_eq_getElem hi, Option.map_some]

/-- The other angles are those that stand in the same places when there are no peaks. -/
theorem angles_findIn_of_le {i : ℕ}
    (hi : (Peaks.strongest Peaks.defaultFraction k values).length ≤ i) (hk : i < k) :
    (s.findIn k values).angles[i]? = some (fallbackAngle (Scalar.ofNat k) i) := by
  rw [findIn, List.getElem?_append_right (by rwa [List.length_map]), List.length_map,
    List.getElem?_drop, Nat.add_sub_cancel' hi, fallbackAngles, List.getElem?_map,
    List.getElem?_range hk, Option.map_some]

end Places

/-- What a search for `k` directions reports of a spectrum: the directions of peaks, in descending
order of the spectrum, and fixed angles in the places that are left. -/
structure Fills (grid : SearchGrid Extended) (k : ℕ) (spectrum : Vector Extended grid.size)
    (places : List (Fin grid.size)) (angles : List Extended) : Prop where
  few : places.length ≤ k
  length : angles.length = k
  range : ∀ θ ∈ angles, ∃ x ∈ Set.Ico (-(Real.pi / 2)) (Real.pi / 2), θ = finite x
  peak : ∀ (i : ℕ) (hi : i < places.length), angles[i]? = some (grid.point places[i])
  interior : ∀ i ∈ places, 0 < i.val ∧ i.val + 1 < grid.size
  apart : places.Pairwise fun i j => i.val + 2 ≤ j.val ∨ j.val + 2 ≤ i.val
  descending : places.Pairwise fun i j => spectrum.get j ≤ spectrum.get i
  filler : ∀ i, places.length ≤ i → i < k →
    angles[i]? = some (finite (-(Real.pi / 4) + i * Real.pi / (2 * k)))

variable {s : SpectralSearch Extended}

/-- All angles are in the range, peaks and others. -/
theorem angles_findIn_range {points : Setting Extended}
    (hgrid : SearchGrid.ofSetting points = .ok s.grid) {k : ℕ}
    (values : Vector Extended s.grid.size) {θ : Extended}
    (hθ : θ ∈ (s.findIn k values).angles) :
    ∃ x ∈ Set.Ico (-(Real.pi / 2)) (Real.pi / 2), θ = finite x := by
  obtain ⟨steps, hpos, hsteps, hsize⟩ := SearchGrid.exists_steps hgrid
  obtain ⟨i, hi⟩ := List.mem_iff_getElem?.mp hθ
  have hk : i < k := (List.getElem?_eq_some_iff.mp hi).1.trans_eq (s.length_angles_findIn k values)
  rcases lt_or_ge i (Peaks.strongest Peaks.defaultFraction k values).length with hlt | hle
  · rw [angles_findIn_of_lt values hlt, SearchGrid.point_eq hpos.ne' hsteps] at hi
    exact ⟨_, SearchGrid.point_mem_range hpos (hsize _ (Fin.isLt _)), (Option.some.inj hi).symm⟩
  · rw [angles_findIn_of_le values hle hk, fallbackAngle_eq (Nat.zero_lt_of_lt hk)] at hi
    exact ⟨_, fallbackAngle_mem_range hk, (Option.some.inj hi).symm⟩

/-- Every spectrum is reported so. -/
theorem fills_findIn {points : Setting Extended}
    (hgrid : SearchGrid.ofSetting points = .ok s.grid) (k : ℕ)
    (values : Vector Extended s.grid.size) :
    Fills s.grid k values (Peaks.strongest Peaks.defaultFraction k values)
      (s.findIn k values).angles := by
  have hprefix : (Peaks.strongest Peaks.defaultFraction k values).Sublist
      (Peaks.all Peaks.defaultFraction values) := by
    rw [Peaks.strongest, cutTake_natCast]
    exact List.take_sublist _ _
  have hmem := hprefix.subset
  refine ⟨Peaks.length_strongest_le _ k values, s.length_angles_findIn k values,
    fun θ hθ => angles_findIn_range hgrid values hθ, fun i hi => angles_findIn_of_lt values hi,
    fun i hi => Peaks.isPeak_interior (Peaks.isPeak_of_mem_all (hmem hi)), ?_,
    (Peaks.all_descending values).sublist hprefix, ?_⟩
  · refine (Peaks.nodup_all.sublist hprefix).imp_of_mem fun {i j} hi hj hne => ?_
    have hij := Peaks.not_next_of_mem (hmem hi) (hmem hj)
    have hji := Peaks.not_next_of_mem (hmem hj) (hmem hi)
    have hval : i.val ≠ j.val := fun h => hne (Fin.ext h)
    omega
  · intro i hi hk
    rw [angles_findIn_of_le values hi hk, fallbackAngle_eq (Nat.zero_lt_of_lt hk)]

end SpectralSearch

/-! ## Estimates -/

namespace Estimator

/-- The estimate from a finite covariance is what is found in a decomposition of it. -/
theorem exists_ofCovarianceTensor_eq {α : Type} [Scalar α] (S : Solvers α) (E : Estimator α)
    {C : Mat (Cplx α) E.geometry.size E.geometry.size} (hC : C.isFinite = true) :
    ∃ D : Decomposition α E.geometry.size, D.sources = E.sources ∧
      E.ofCovarianceTensor S (.ofMat C) = ofDecomposition S E D := by
  refine ⟨⟨(Decomposition.eigenpairs S C).1, (Decomposition.eigenpairs S C).2, E.sources⟩, rfl, ?_⟩
  rw [ofCovarianceTensor, checkCovariance, Tensor.asMat?_ofMat]
  change (Decomposition.ofEntries S (.ofMat C) C E.sources >>= ofDecomposition S E) = _
  rw [Decomposition.ofEntries, if_neg (by exact Bool.false_ne_true), Decomposition.ofCovariance,
    if_pos hC]
  rfl

variable {g : Geometry Extended} {c : Config Extended} {E : Estimator Extended}
  {C : Mat (Cplx Extended) E.geometry.size E.geometry.size}

/-- Every estimate of a spectral search, whatever configuration it is made from, whatever finite
covariance it is given and whatever eigenvectors the solver returns, has as many angles as there
are sources to be looked for.  All lie in the range; those of peaks come first, and fixed ones
fill the places that are left, of which there are some exactly if the estimate says that it is
limited in resolution.  With numbers as floor and sentinel there is an estimate. -/
theorem spectral_estimate_fills (S : Solvers Extended) (hE : spectral g c = .ok E)
    (hC : C.isFinite = true) :
    (∀ floor sentinel : Number Extended, c.floor = .number floor → c.sentinel = .number sentinel →
      ∃ e, E.ofCovarianceTensor S (.ofMat C) = .ok e) ∧
    ∀ e, E.ofCovarianceTensor S (.ofMat C) = .ok e →
      ∃ (grid : SearchGrid Extended) (spectrum : Vector Extended grid.size)
        (places : List (Fin grid.size)) (angles : List Extended),
        SearchGrid.ofSetting c.gridPoints = .ok grid ∧ e.spectrum? = some spectrum.toList ∧
        e.angles? = some angles ∧ e.peaks = places.length ∧
        SpectralSearch.Fills grid E.sources spectrum places angles ∧
        (e.resolutionLimited = true ↔ e.peaks < E.sources) := by
  simp only [spectral, Outcome.bind_eq_ok] at hE
  obtain ⟨k, -, grid, hgrid, hE⟩ := hE
  cases hE
  obtain ⟨⟨_, _, _⟩, hsources, hestimate⟩ := exists_ofCovarianceTensor_eq S
    ⟨g, k, c.averaging.isYes, .spectral ⟨grid, c.floor, c.sentinel⟩⟩ hC
  cases hsources
  rw [hestimate, ofDecomposition_spectral S rfl, SpectralSearch.find]
  constructor
  · intro floor sentinel hfloor hsentinel
    rw [SpectralSearch.spectrum, SpectralSearch.spectrumAt,
      SpectralSearch.valuesOf_number hfloor hsentinel]
    exact ⟨_, rfl⟩
  · intro e he
    obtain ⟨found, hfound, rfl⟩ := Outcome.map_eq_ok.mp he
    obtain ⟨values, -, hvalues⟩ := Outcome.bind_eq_ok.mp hfound
    cases hvalues
    exact ⟨grid, values, _, _, hgrid, rfl, rfl, rfl,
      SpectralSearch.fills_findIn (s := ⟨grid, c.floor, c.sentinel⟩) hgrid k values,
      decide_eq_true_iff⟩

/-- One source before two elements, searched for in three directions: it is found on the middle
one, where alone a peak can stand, or not at all. -/
theorem spectral_estimate_fills_small :
    spectral .small .small = .ok small ∧
    (Mat.identity 2 : Mat (Cplx Extended) 2 2).isFinite = true ∧
    ∃ e, small.ofCovarianceTensor Solvers.ideal.extended (.ofMat (Mat.identity 2)) = .ok e ∧
      (e.angles? = some [finite (-(Real.pi / 6))] ∧ e.resolutionLimited = false ∨
        e.angles? = some [finite (-(Real.pi / 4))] ∧ e.resolutionLimited = true) := by
  have hmade : spectral .small .small = .ok small := ofConfig_small
  have hfinite := Mat.isFinite_identity 2
  obtain ⟨hreturns, hreports⟩ :=
    spectral_estimate_fills Solvers.ideal.extended hmade (C := Mat.identity 2) hfinite
  obtain ⟨e, he⟩ := hreturns (.real 1e-10) (.real 1e10) rfl rfl
  obtain ⟨grid, spectrum, places, angles, hgrid, -, hangles, hpeaks, hfills, hlimited⟩ :=
    hreports e he
  obtain rfl : grid = .ofNat 3 :=
    (Except.ok.inj (hgrid.symm.trans (SearchGrid.ofSetting_whole three_pos (by decide))))
  have hsources : (small.sources : ℕ) = 1 := rfl
  rw [hsources] at hfills hlimited
  refine ⟨hmade, hfinite, e, he, ?_⟩
  obtain ⟨θ, rfl⟩ := List.length_eq_one_iff.mp hfills.length
  rw [hangles]
  rcases places with _ | ⟨i, _ | ⟨j, rest⟩⟩
  · have hθ := hfills.filler 0 le_rfl one_pos
    rw [List.getElem?_cons_zero, Nat.cast_zero, zero_mul, zero_div, add_zero] at hθ
    rw [Option.some.inj hθ]
    exact .inr ⟨rfl, hlimited.mpr (hpeaks.trans_lt one_pos)⟩
  · have hmiddle : i.val = 1 := by
      obtain ⟨hpos, hlt⟩ := hfills.interior i List.mem_cons_self
      change i.val + 1 < 3 at hlt
      omega
    have hθ := hfills.peak 0 one_pos
    rw [List.getElem?_cons_zero, List.getElem_cons_zero, hmiddle,
      SearchGrid.point_eq three_ne_zero rfl] at hθ
    have hpoint : -(Real.pi / 2) + (1 : ℕ) * (Real.pi / 3) = -(Real.pi / 6) := by
      push_cast
      ring
    rw [Option.some.inj hθ, hpoint]
    refine .inl ⟨rfl, Bool.eq_false_iff.mpr fun h => ?_⟩
    exact (hlimited.mp h).ne hpeaks
  · exact absurd hfills.few (by simp)

end Estimator

end PhasedArray
