import PhasedArray.Proofs.SessionAccounting
import PhasedArray.Proofs.SmallEngine
import PhasedArray.Record

set_option autoImplicit false

/-!
# Which records are strict (SPEC §3, §6)

The record of an estimate leaves out angles that are not finite, and the spectrum is finite
wherever the floor is positive.  The error has no such guard: against true angles that are not as
many as there are sources it is infinite, and the record with it is not strict.  Every other
record is.
-/

namespace PhasedArray

open Extended

/-! ## Numbers of a record -/

namespace Estimate

/-- The angles of a record are finite.  So a record is strict if its spectrum and its error are. -/
theorem isStrict_record_iff {α : Type} [Scalar α] {e : Estimate α} :
    e.record.isStrict = true ↔
      (∀ spectrum ∈ e.spectrum?, ∀ x ∈ spectrum, Scalar.isFinite x = true) ∧
        ∀ error ∈ e.error, Scalar.isFinite error.value = true := by
  have hangles : ∀ x ∈ e.record.angles.filterMap id, Scalar.isFinite x = true := by
    intro x hx
    simp only [record, List.mem_filterMap, List.mem_map, id] at hx
    obtain ⟨_, ⟨y, -, hy⟩, rfl⟩ := hx
    split_ifs at hy with hfinite
    cases hy
    exact hfinite
  simp only [Record.isStrict, Record.numbers, List.all_append, Bool.and_eq_true, List.all_eq_true]
  constructor
  · rintro ⟨⟨-, hspectrum⟩, herror⟩
    constructor
    · intro spectrum hs x hx
      apply hspectrum
      rw [record, Option.mem_def.mp hs]
      exact hx
    · intro error he
      apply herror
      rw [record, Option.mem_def.mp he]
      exact List.mem_singleton_self _
  · rintro ⟨hspectrum, herror⟩
    refine ⟨⟨hangles, ?_⟩, ?_⟩
    · intro x hx
      cases hs : e.spectrum? with
      | none =>
        rw [record, hs] at hx
        exact absurd hx List.not_mem_nil
      | some spectrum =>
        rw [record, hs] at hx
        exact hspectrum spectrum hs x hx
    · intro x hx
      cases he : e.error with
      | none =>
        rw [record, he] at hx
        exact absurd hx List.not_mem_nil
      | some error =>
        rw [record, he] at hx
        rw [List.mem_singleton.mp hx]
        exact herror error he

end Estimate

/-- Against finite angles the error is finite if there are as many of them as sources. -/
theorem Estimate.IsPlain.finite_error_iff {k : ℕ} {e : Estimate Extended} (h : e.IsPlain k)
    (hk : 0 < k) {actual : List Extended} (hactual : ∀ x ∈ actual, Scalar.isFinite x = true) :
    (∀ error ∈ (e.scored actual).error, Scalar.isFinite error.value = true) ↔
      e.degenerate = true ∨ actual.length = k := by
  cases hdegenerate : e.degenerate with
  | true =>
    rw [h.error_of_degenerate hdegenerate]
    exact ⟨fun _ => .inl rfl, fun _ => nofun⟩
  | false =>
    by_cases hlength : actual.length = k
    · obtain ⟨r, hr⟩ := h.exists_error_of_length_eq hdegenerate hk hactual hlength
      rw [hr]
      refine ⟨fun _ => .inr hlength, fun _ error herror => ?_⟩
      cases herror
      rfl
    · rw [h.error_of_length_ne hdegenerate hlength]
      constructor
      · intro hfinite
        have hvalue := hfinite .unmatched rfl
        rw [AngleError.value, one_div_zero] at hvalue
        exact nomatch hvalue
      · rintro (hnever | hnever)
        · exact nomatch hnever
        · exact absurd hnever hlength

/-! ## The records of an engine -/

namespace Estimator

theorem exists_ofConfig_of_ofRequest {α : Type} [Scalar α] {g : Geometry α} {c : Config α}
    {method : Setting α} {E : Estimator α} (h : ofRequest g c method = .ok E) :
    ∃ asked, ofConfig g c asked = .ok E := by
  cases method with
  | nothing => exact ⟨none, h⟩
  | _ =>
    obtain ⟨m, -, h⟩ := Outcome.bind_eq_ok.mp h
    exact ⟨some m, h⟩

end Estimator

namespace Engine

theorem score_eq {α : Type} [Scalar α] (e : Estimate α) {actual : Setting α}
    (h : actual ≠ .nothing) : score e actual = e.scoredAgainst actual := by
  cases actual with
  | nothing => exact absurd rfl h
  | _ => rfl

/-- The record of an estimate that an engine makes is strict unless the estimate, not being
degenerate, is scored against true angles in another number than there are sources. -/
theorem record_isStrict_iff {S : Solvers Extended} (hS : S.KeepsFinite)
    {config : Setting Extended} {u : Setup Extended} (hu : ofConfig config = .ok u)
    {floor sentinel : Number Extended} (hfloor : u.config.floor = .number floor)
    (hpos : 0 < floor.value) (hsentinel : u.config.sentinel = .number sentinel)
    (hfinite : Scalar.isFinite sentinel.value = true) {snapshots : Tensor Extended}
    {method actual : Setting Extended}
    (hactual : actual = .nothing ∨
      ∃ l, actual.toReals = .ok l ∧ ∀ x ∈ l, Scalar.isFinite x = true)
    {e : Estimate Extended} (h : directions S u snapshots method actual = .ok e) :
    e.record.isStrict = true ↔
      e.degenerate = true ∨ actual = .nothing ∨
        ∃ l, actual.toReals = .ok l ∧ l.length = u.estimator.sources := by
  simp only [directions, Outcome.bind_eq_ok] at h
  obtain ⟨E, hE, found, hfound, hscore⟩ := h
  have hconfigured := estimator_of_ofConfig hu
  rw [estimatorFor_eq hconfigured] at hE
  obtain ⟨asked, hE⟩ := Estimator.exists_ofConfig_of_ofRequest hE
  obtain ⟨X, -, hfound⟩ := Outcome.bind_eq_ok.mp hfound
  have hsources := Estimator.sources_eq hE hconfigured
  have hplain := Estimator.isPlain_estimateSnapshots hS hE hfound
  have hspectrum : ∀ spectrum ∈ found.spectrum?, ∀ x ∈ spectrum, Scalar.isFinite x = true :=
    fun _ h => Estimator.finite_spectrum hE hfloor hpos hsentinel hfinite hfound h
  have hnone : ∀ error ∈ (none : Option (AngleError Extended)),
      Scalar.isFinite error.value = true :=
    fun error herror => absurd herror (Option.not_mem_none error)
  rw [Estimate.isStrict_record_iff]
  by_cases hnothing : actual = .nothing
  · subst hnothing
    cases hscore
    rw [hplain.unscored]
    exact ⟨fun _ => .inr (.inl rfl), fun _ => ⟨hspectrum, hnone⟩⟩
  · obtain ⟨l, hread, hl⟩ := hactual.resolve_left hnothing
    have herror := hplain.finite_error_iff E.sources.2.1 hl
    rw [score_eq found hnothing] at hscore
    rcases Estimate.eq_of_scoredAgainst hscore with ⟨hdegenerate, rfl⟩ | ⟨-, l', hread', rfl⟩
    · rw [hplain.unscored]
      exact ⟨fun _ => .inl hdegenerate, fun _ => ⟨hspectrum, hnone⟩⟩
    · cases hread.symm.trans hread'
      rw [Estimate.spectrum?_scored, herror, hsources]
      constructor
      · rintro ⟨-, hdegenerate | hlength⟩
        · exact .inl ((found.degenerate_scored l).trans hdegenerate)
        · exact .inr (.inr ⟨l, hread, hlength⟩)
      · rintro (hdegenerate | hnever | ⟨l', hread', hlength⟩)
        · exact ⟨hspectrum, .inl ((found.degenerate_scored l).symm.trans hdegenerate)⟩
        · exact absurd hnever hnothing
        · cases hread.symm.trans hread'
          exact ⟨hspectrum, .inr hlength⟩

/-- A snapshot of two ones. -/
noncomputable def ones : Mat (Cplx Extended) Geometry.small.size 1 := Mat.of fun _ _ => 1

/-- The small engine has an estimate for it, which is not degenerate, and scores it against any
angles. -/
theorem exists_directions_small (S : Solvers Extended) (angles : List Extended) :
    ∃ found X, Estimator.small.estimateSnapshots S X = .ok found ∧ found.degenerate = false ∧
      directions S Setup.small (.ofMat ones) .nothing (.list (angles.map .real)) =
        .ok (found.scored angles) := by
  have hones : ones.isFinite = true := Mat.isFinite_of fun _ _ => rfl
  have hread := Snapshots.ofTensor_ofMat Geometry.small.size_pos one_pos hones
  obtain ⟨found, hfound⟩ := Estimator.exists_estimate_small S (X := ⟨_, 1, ones, _, _, hones⟩) rfl
  have hestimate : Estimator.small.estimate S (.ofMat ones) = .ok found := by
    rw [Estimator.estimate, hread]
    exact hfound
  have hdegenerate : found.degenerate = false := by
    rw [← Bool.not_eq_true]
    exact fun h => Estimate.method_of_degenerate h (Estimator.method_estimate hestimate)
  refine ⟨found, _, hfound, hdegenerate, ?_⟩
  simp only [directions, Outcome.bind_eq_ok]
  refine ⟨.small, rfl, found, hestimate, ?_⟩
  change found.scoredAgainst (.list (angles.map .real)) = _
  rw [Estimate.scoredAgainst, hdegenerate, if_neg Bool.false_ne_true,
    Setting.toReals_reals]
  rfl

/-- Against one angle the record of the estimate is strict. -/
theorem record_isStrict_small :
    ∃ e, directions Solvers.ideal.extended Setup.small (.ofMat ones) .nothing
        (.list [.real 0.1]) = .ok e ∧ e.record.isStrict = true := by
  obtain ⟨found, -, -, -, h⟩ := exists_directions_small Solvers.ideal.extended [0.1]
  have hread : (Setting.list [.real (0.1 : Extended)]).toReals = .ok [0.1] :=
    Setting.toReals_reals [0.1]
  have hangle : ∀ x ∈ [(0.1 : Extended)], Scalar.isFinite x = true := by
    intro x hx
    cases List.mem_singleton.mp hx
    rfl
  have hfloor : 0 < (Number.real (1e-10 : Extended)).value :=
    finite_lt.mpr (by norm_num)
  exact ⟨_, h, (record_isStrict_iff Solvers.ideal.keepsFinite_extended ofConfig_small rfl hfloor
    rfl rfl (.inr ⟨_, hread, hangle⟩) h).mpr (.inr (.inr ⟨_, hread, rfl⟩))⟩

/-- Against two angles it is not, although the engine has a positive floor and a finite sentinel,
the samples are finite and the angles are too. -/
theorem record_not_isStrict_small :
    ofConfig smallConfig = .ok Setup.small ∧
      Setup.small.config.floor = .real 1e-10 ∧ (0 : Extended) < 1e-10 ∧
      Setup.small.config.sentinel = .real 1e10 ∧ Scalar.isFinite (1e10 : Extended) = true ∧
      ones.isFinite = true ∧ Scalar.isFinite (0.1 : Extended) = true ∧
      Scalar.isFinite (0.2 : Extended) = true ∧
      ∃ e, directions Solvers.ideal.extended Setup.small (.ofMat ones) .nothing
          (.list [.real 0.1, .real 0.2]) = .ok e ∧ e.record.isStrict = false := by
  have hS := Solvers.ideal.keepsFinite_extended
  obtain ⟨found, X, hfound, hdegenerate, h⟩ :=
    exists_directions_small Solvers.ideal.extended [0.1, 0.2]
  have hplain := Estimator.isPlain_estimateSnapshots hS Estimator.ofConfig_small hfound
  have hangles : ∀ x ∈ [(0.1 : Extended), 0.2], Scalar.isFinite x = true := by
    intro x hx
    rcases List.mem_pair.mp hx with rfl | rfl <;> rfl
  refine ⟨ofConfig_small, rfl, finite_lt.mpr (by norm_num), rfl, rfl,
    Mat.isFinite_of fun _ _ => rfl, rfl, rfl, _, h, ?_⟩
  rw [← Bool.not_eq_true, Estimate.isStrict_record_iff, hplain.finite_error_iff one_pos hangles]
  rintro ⟨-, hnever | hnever⟩
  · exact Bool.false_ne_true (hdegenerate.symm.trans hnever)
  · exact absurd hnever (by decide)

end Engine

end PhasedArray
