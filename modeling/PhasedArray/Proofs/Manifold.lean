import Mathlib.LinearAlgebra.Matrix.Rank
import Mathlib.LinearAlgebra.Vandermonde
import PhasedArray.Geometry
import PhasedArray.Proofs.Exact.Matrix
import PhasedArray.Proofs.Exact.Reading

set_option autoImplicit false

/-!
# The array manifold (SPEC §4.1)

The steering vector of a direction holds the powers of one number of length one, the
phasor of the direction.  A steering matrix is therefore a Vandermonde matrix on its
side: as long as there are no more directions than elements and their phasors differ, its
columns are independent.  Dropping the last or the first element leaves matrices of the
same kind that differ by the phasors alone, which is the shift that rotation fits measure.
-/

namespace PhasedArray

open Matrix

variable {m k : ℕ}

/-! ## Powers of nodes -/

/-- The powers `0, ..., m - 1` of each node, as columns. -/
def nodes (m : ℕ) (z : Fin k → ℂ) : Matrix (Fin m) (Fin k) ℂ := Matrix.of fun i j => z j ^ i.val

theorem nodes_apply (z : Fin k → ℂ) (i : Fin m) (j : Fin k) : nodes m z i j = z j ^ i.val := rfl

/-- The columns of powers of distinct nodes are independent. -/
theorem nodes_mulVec_eq_zero {z : Fin k → ℂ} (hz : Function.Injective z) (hk : k ≤ m)
    {v : Fin k → ℂ} (hv : nodes m z *ᵥ v = 0) : v = 0 := by
  apply eq_zero_of_forall_pow_sum_mul_pow_eq_zero hz
  intro i
  have hrow := congrFun hv (Fin.castLE hk i)
  simp only [mulVec, dotProduct, nodes_apply, Fin.val_castLE, Pi.zero_apply] at hrow
  rw [← hrow]
  exact Finset.sum_congr rfl fun j _ => mul_comm _ _

theorem nodes_mulVec_injective {z : Fin k → ℂ} (hz : Function.Injective z) (hk : k ≤ m) :
    Function.Injective (nodes m z).mulVec := by
  intro v w hvw
  apply sub_eq_zero.mp
  apply nodes_mulVec_eq_zero hz hk
  rw [mulVec_sub]
  exact sub_eq_zero.mpr hvw

theorem rank_nodes {z : Fin k → ℂ} (hz : Function.Injective z) (hk : k ≤ m) :
    (nodes m z).rank = k := by
  have hinjective : Function.Injective (nodes m z).mulVecLin := nodes_mulVec_injective hz hk
  rw [rank, LinearMap.finrank_range_of_inj hinjective, Module.finrank_fin_fun]

/-- A column of powers that is a combination of fewer than `m` others is one of them. -/
theorem exists_node_eq {z : Fin k → ℂ} (hz : Function.Injective z) (hk : k < m) {w : ℂ}
    {c : Fin k → ℂ} (hc : nodes m z *ᵥ c = fun i => w ^ i.val) : ∃ j, w = z j := by
  by_contra hne
  push Not at hne
  have hcons : Function.Injective (Fin.cons w z : Fin (k + 1) → ℂ) := by
    rw [Fin.cons_injective_iff]
    refine ⟨?_, hz⟩
    rintro ⟨j, hj⟩
    exact hne j hj.symm
  have hzero : nodes m (Fin.cons w z : Fin (k + 1) → ℂ) *ᵥ Fin.cons (-1) c = 0 := by
    funext i
    have hrow := congrFun hc i
    simp only [mulVec, dotProduct, nodes_apply] at hrow
    simp [mulVec, dotProduct, nodes_apply, Fin.sum_univ_succ, hrow]
  have hfirst := congrFun (nodes_mulVec_eq_zero hcons hk hzero) 0
  simp at hfirst

/-- The powers of a number of length one have length one. -/
theorem star_pow_mul_pow {z : ℂ} (hz : ‖z‖ = 1) (l : ℕ) : star (z ^ l) * z ^ l = 1 := by
  have hsq := Complex.conj_mul' (z ^ l)
  rw [norm_pow, hz, one_pow, Complex.ofReal_one, one_pow] at hsq
  exact hsq

/-! ## Sub-arrays -/

theorem nodes_dropLast (z : Fin k → ℂ) :
    (nodes m z).submatrix (Fin.castLE (Nat.sub_le m 1)) id = nodes (m - 1) z := rfl

/-- Dropping the first element multiplies each column by its node. -/
theorem nodes_dropFirst (z : Fin k → ℂ) :
    (nodes m z).submatrix Mat.next id = nodes (m - 1) z * diagonal z := by
  ext i j
  rw [mul_diagonal, nodes_apply, ← pow_succ]
  rfl

theorem map_star_mul {l : ℕ} (M : Matrix (Fin m) (Fin k) ℂ) (N : Matrix (Fin k) (Fin l) ℂ) :
    (M * N).map star = M.map star * N.map star := Matrix.map_mul (f := starRingEnd ℂ)

/-- For nodes of length one, the array seen from its other end, conjugated, is the array
with each column turned. -/
theorem nodes_reversed {z : Fin k → ℂ} (hz : ∀ j, ‖z j‖ = 1) :
    ((nodes m z).map star).submatrix Fin.rev id =
      nodes m z * diagonal fun j => star (z j) ^ (m - 1) := by
  ext i j
  have hunit : star (z j) * z j = 1 := by simpa using star_pow_mul_pow (hz j) 1
  have hsplit : m - 1 = m - (i.val + 1) + i.val := by omega
  rw [mul_diagonal, nodes_apply, hsplit, pow_add, mul_comm, mul_assoc, ← mul_pow, hunit,
    one_pow, mul_one]
  simp [nodes_apply, Fin.val_rev]

namespace Geometry

variable (g : Geometry ℝ)

/-- The phase factor between neighbouring elements for a wave from direction `θ`. -/
noncomputable def phasor (θ : ℝ) : ℂ := Complex.exp (g.phaseStep θ * Complex.I)

@[simp] theorem norm_phasor (θ : ℝ) : ‖g.phasor θ‖ = 1 := Complex.norm_exp_ofReal_mul_I _

theorem phaseStep_eq (θ : ℝ) : g.phaseStep θ = 2 * Real.pi * g.spacing * Real.sin θ := by
  rw [phaseStep]
  rfl

theorem toComplex_element (φ : ℝ) (i : ℕ) :
    (element φ i).toComplex = Complex.exp (φ * Complex.I) ^ i := by
  rw [element, Cplx.toComplex_cis, ← Complex.exp_nat_mul]
  congr 1
  push_cast [Exact.scalar_ofNat]
  ring

theorem toMatrix_steeringMatrix (θ : Vector ℝ k) :
    (g.steeringMatrix θ).toMatrix = nodes g.size fun j => g.phasor (θ.get j) := by
  ext i j
  rw [Mat.toMatrix_apply, steeringMatrix_apply, toComplex_element]
  rfl

theorem toComplex_steering (θ : ℝ) :
    Vec.toComplex (g.steering θ) = fun i => g.phasor θ ^ i.val := by
  funext i
  rw [Vec.toComplex, Vec.get_eq_getElem]
  change (g.steering θ)[i.val].toComplex = _
  rw [steering_getElem, toComplex_element]
  rfl

theorem norm_steering (θ : ℝ) (i : Fin g.size) : ‖Vec.toComplex (g.steering θ) i‖ = 1 := by
  rw [toComplex_steering, norm_pow, norm_phasor, one_pow]

/-! ## Directions as they are given -/

section Given

variable {α : Type} [Scalar α]

/-- An array whose extent and spacing are given as numbers. -/
theorem ofSettings_numbers {n : ℕ} {d : α} (hn : 0 < n) (hd : 0 < d)
    (hfinite : Scalar.isFinite d = true) :
    ofSettings (.whole n) (.real d) =
      .ok { size := n, spacing := d, size_pos := hn, spacing_pos := hd } := by
  have hcount : elementCount (.whole n : Setting α) = .ok ⟨n, hn⟩ := by
    unfold elementCount
    rw [Setting.toWhole_whole]
    exact dif_pos hn
  have hspacing : spacingOf (.real d) = .ok ⟨d, hd⟩ := (dif_pos hd).trans (if_pos hfinite)
  rw [ofSettings, hcount]
  change (spacingOf (.real d) >>= _) = _
  rw [hspacing]
  rfl

theorem checkExtent_eq_ok (g : Geometry α) (hsize : g.size < Extent.greatestKept) :
    g.checkExtent = .ok () :=
  if_pos hsize

/-- Directions given as a list of numbers are those numbers. -/
theorem directionsAmong_reals (g : Geometry α) (hsize : g.size < Extent.greatestKept)
    (θ : List α) : g.directionsAmong (.list (θ.map .real)) = .ok θ := by
  simp only [directionsAmong, Outcome.bind_eq_ok]
  exact ⟨θ, Setting.toReals_reals θ, (), g.checkExtent_eq_ok hsize, rfl⟩

end Given

theorem standard_spacing_pos : (0 : ℝ) < 0.5 := by norm_num

/-- Eight elements half a wavelength apart. -/
noncomputable def standard : Geometry ℝ where
  size := 8
  spacing := 0.5
  size_pos := Nat.succ_pos 7
  spacing_pos := standard_spacing_pos

/-- That is the array which is made without settings. -/
theorem ofSettings_standard : ofSettings (.whole 8) defaultSpacing = .ok standard :=
  ofSettings_numbers (n := 8) (Nat.succ_pos 7) standard_spacing_pos rfl

/-- A direction given as a number has its steering vector. -/
theorem steeringToward_real (hsize : g.size < Extent.greatestKept) (θ : ℝ) :
    g.steeringToward (.real θ) = .ok (.ofVector (g.steering θ)) := by
  have hkind : EntryKind.ofGiven #[Entry.number (.real θ)] = EntryKind.real :=
    EntryKind.ofGiven_reals [θ]
  have hphases : g.phaseSteps ⟨[], #[.ofReal θ], EntryKind.ofGiven #[.number (.real θ)], rfl⟩ =
      .ok (.ofScalar (g.phaseStep θ)) := by
    simp [phaseSteps, hkind, Tensor.isAssorted, EntryKind.isAssorted, EntryKind.isFlags,
      Tensor.mapReal, Tensor.ofScalar, Cplx.ofReal]
  simp only [steeringToward, steeringOfTensor, Outcome.bind_eq_ok]
  refine ⟨_, Setting.toTensor_number (.real θ), _, hphases, (), g.checkExtent_eq_ok hsize, ?_⟩
  rw [Tensor.combine?_ofScalar]
  apply congrArg Except.ok
  simp only [Tensor.ofVector, Tensor.mk.injEq, List.length_map, List.length_range, List.map_map,
    and_true, true_and]
  apply Array.ext
  · simp
  · intro i hi hi'
    simp [steering_getElem, element, Cplx.ofReal]

/-- Whatever directions a steering tensor is made from, its entries are phases. -/
theorem exists_cis_of_mem_steeringOfTensor {t a : Tensor ℝ} (h : g.steeringOfTensor t = .ok a)
    {z : Cplx ℝ} (hz : z ∈ a.entries) : ∃ x, z = Cplx.cis x := by
  simp only [steeringOfTensor, Outcome.bind_eq_ok] at h
  obtain ⟨φ, -, -, -, h⟩ := h
  unfold Tensor.combine? at h
  cases hshape : Tensor.commonShape? φ.shape
      (Tensor.ofReals ((List.range g.size).map (Scalar.ofNat : ℕ → ℝ))).shape with
  | none =>
    rw [hshape] at h
    cases h
  | some shape =>
    rw [hshape] at h
    cases h
    obtain ⟨i, hi, hentry⟩ := Array.mem_iff_getElem.mp hz
    rw [Vector.getElem_toArray, Vector.getElem_ofFn] at hentry
    exact ⟨_, hentry.symm⟩

end Geometry

end PhasedArray
