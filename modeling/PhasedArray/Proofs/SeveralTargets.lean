import PhasedArray.Proofs.MatchedFilter

set_option autoImplicit false

/-!
# Beams toward several targets (SPEC §4.7)

The beam toward several directions is the matched filter of the sum of their steering vectors, so
it makes the sum of its responses to them as great as unit power can.  The sum of steering vectors
never vanishes, however the directions are chosen: the first element is in step with all of them,
and its entries add up to their number.
-/

namespace PhasedArray

open Matrix

namespace Weights

variable (g : Geometry ℝ) (θ : List ℝ)

/-- The sum of the responses toward several directions. -/
noncomputable def responseSum (w : Vector (Cplx ℝ) g.size) : ℂ :=
  ∑ j : Fin θ.length, (response w (g.steering θ[j])).toComplex

/-! ## Sums of steering vectors -/

theorem toComplex_steeringSum : Vec.toComplex (steeringSum g θ) =
    ∑ j : Fin θ.length, Vec.toComplex (g.steering θ[j]) := by
  rw [steeringSum, Vec.toComplex_ofFn]
  funext i
  rw [toComplex_total, Finset.sum_apply]
  apply Finset.sum_congr rfl
  intro j _
  rw [g.toComplex_steering]
  exact congrFun (congrFun (g.toMatrix_steeringMatrix (Vec.ofList θ)) i) j

/-- The responses add up to that to the sum of the steering vectors. -/
theorem responseSum_eq (w : Vector (Cplx ℝ) g.size) :
    responseSum g θ w = (response w (steeringSum g θ)).toComplex := by
  rw [responseSum, toComplex_response, toComplex_steeringSum, dotProduct_sum]
  exact Finset.sum_congr rfl fun j _ => toComplex_response w (g.steering θ[j])

/-- The first element is in step with every direction. -/
theorem steeringSum_first : Vec.toComplex (steeringSum g θ) ⟨0, g.size_pos⟩ = θ.length := by
  rw [toComplex_steeringSum, Finset.sum_apply]
  simp [g.toComplex_steering]

theorem length_le_norm_steeringSum : (θ.length : ℝ) ≤ Vec.norm (steeringSum g θ) := by
  rw [Vec.norm_eq_sqrt]
  apply Real.le_sqrt_of_sq_le
  have hfirst : ‖Vec.toComplex (steeringSum g θ) ⟨0, g.size_pos⟩‖ ^ 2 ≤
      power (Vec.toComplex (steeringSum g θ)) :=
    Finset.single_le_sum (f := fun i => ‖Vec.toComplex (steeringSum g θ) i‖ ^ 2)
      (fun i _ => sq_nonneg _) (Finset.mem_univ _)
  rwa [steeringSum_first, Complex.norm_natCast] at hfirst

/-- The order of the directions does not matter. -/
theorem steeringSum_perm {θ θ' : List ℝ} (h : θ.Perm θ') : steeringSum g θ = steeringSum g θ' := by
  have hlist : ∀ l : List ℝ, Vec.toComplex (steeringSum g l) =
      (l.map fun φ => Vec.toComplex (g.steering φ)).sum := by
    intro l
    rw [toComplex_steeringSum]
    exact Fin.sum_univ_fun_getElem l fun φ => Vec.toComplex (g.steering φ)
  apply Vec.toComplex_injective
  rw [hlist, hlist]
  exact (h.map _).sum_eq

theorem steeringSum_singleton (φ : ℝ) : steeringSum g [φ] = g.steering φ := by
  apply Vec.toComplex_injective
  rw [toComplex_steeringSum]
  exact Fin.sum_univ_one _

/-! ## The beam -/

section Nonempty

variable {θ} (hθ : θ ≠ [])
include hθ

theorem steeringSum_ne_zero : Vec.toComplex (steeringSum g θ) ≠ 0 := by
  intro h
  have hfirst := steeringSum_first g θ
  rw [h, Pi.zero_apply] at hfirst
  exact List.length_eq_zero_iff.not.mpr hθ (Nat.cast_eq_zero.mp hfirst.symm)

theorem multiTarget_eq : multiTarget g θ = .ok (filterOf (steeringSum g θ)) := by
  have hsome : ¬ θ.isEmpty = true := by simpa using hθ
  rw [multiTarget, if_neg hsome, matchedTo_eq (steeringSum_ne_zero g hθ)]

/-- Directions as they are given are read first. -/
theorem multiTargetOf_eq (hsize : g.size < Extent.greatestKept) {s : Setting ℝ}
    (hs : s.toReals = .ok θ) : multiTargetOf g s = multiTarget g θ := by
  have hsome : ¬ θ.isEmpty = true := by simpa using hθ
  rw [multiTargetOf, hs]
  dsimp only [bind, Except.bind]
  rw [if_neg hsome, g.checkExtent_eq_ok hsize]

/-- However the directions are chosen and ordered, the beam toward them exists and has unit power.
The sum of its responses to them is real and at least their number, and no weights of unit power
make that sum greater.  The beam toward one direction is the matched filter of that. -/
theorem multiTarget_best :
    ∃ w, multiTarget g θ = .ok w ∧ (∀ θ' : List ℝ, θ'.Perm θ → multiTarget g θ' = .ok w) ∧
      Vec.norm w = 1 ∧ (responseSum g θ w).im = 0 ∧ (θ.length : ℝ) ≤ (responseSum g θ w).re ∧
      (∀ v, Vec.norm v = 1 → ‖responseSum g θ v‖ ≤ ‖responseSum g θ w‖) ∧
      (∀ φ, θ = [φ] → matched g φ = .ok w) ∧
      (g.size < Extent.greatestKept →
        (∀ (s : Setting ℝ) (θ' : List ℝ), s.toReals = .ok θ' → θ'.Perm θ →
          multiTargetOf g s = .ok w) ∧
        ∀ φ, θ = [φ] → matchedToward g (.real φ) = .ok (.ofVector w)) := by
  have hbest : responseSum g θ (filterOf (steeringSum g θ)) =
      ((Vec.norm (steeringSum g θ) : ℝ) : ℂ) := by
    rw [responseSum_eq, response_filterOf]
  have hperm : ∀ θ' : List ℝ, θ'.Perm θ →
      θ' ≠ [] ∧ multiTarget g θ' = .ok (filterOf (steeringSum g θ)) := by
    intro θ' h
    have hθ' : θ' ≠ [] := fun hnil => hθ (List.nil_perm.mp (hnil ▸ h))
    exact ⟨hθ', by rw [multiTarget_eq g hθ', steeringSum_perm g h]⟩
  refine ⟨_, multiTarget_eq g hθ, fun θ' h => (hperm θ' h).2,
    norm_filterOf (steeringSum_ne_zero g hθ), ?_, ?_, ?_, ?_, fun hsize => ⟨?_, ?_⟩⟩
  · rw [hbest, Complex.ofReal_im]
  · rw [hbest, Complex.ofReal_re]
    exact length_le_norm_steeringSum g θ
  · intro v hv
    rw [hbest, Complex.norm_real, Real.norm_of_nonneg (norm_pos (steeringSum_ne_zero g hθ)).le,
      responseSum_eq]
    exact norm_response_le hv _
  · rintro φ rfl
    rw [steeringSum_singleton]
    exact matched_eq g φ
  · intro s θ' hs h
    obtain ⟨hθ', hmulti⟩ := hperm θ' h
    rw [multiTargetOf_eq g hθ' hsize hs, hmulti]
  · rintro φ rfl
    rw [steeringSum_singleton]
    exact matchedToward_eq g φ hsize

end Nonempty

/-- Toward broadside and the end of the array every second element of eight cancels out. -/
theorem multiTarget_best_opposed :
    ∃ w, multiTarget .standard [0, Real.pi / 2] = .ok w ∧
      multiTargetOf .standard (.list [.real (Real.pi / 2), .real 0]) = .ok w ∧
      Vec.norm w = 1 ∧ 2 ≤ (responseSum .standard [0, Real.pi / 2] w).re ∧
      ∀ v, Vec.norm v = 1 → ‖responseSum .standard [0, Real.pi / 2] v‖ ≤
        ‖responseSum .standard [0, Real.pi / 2] w‖ := by
  have hsize : Geometry.standard.size < Extent.greatestKept := by
    norm_num [Geometry.standard, Extent.greatestKept]
  obtain ⟨w, hw, -, hnorm, -, hsum, hbest, -, hgiven⟩ :=
    multiTarget_best .standard (List.cons_ne_nil 0 [Real.pi / 2])
  refine ⟨w, hw, ?_, hnorm, by simpa using hsum, hbest⟩
  exact (hgiven hsize).1 _ _ (Setting.toReals_reals [Real.pi / 2, 0]) (List.Perm.swap _ _ _)

end Weights

end PhasedArray
