import PhasedArray.Proofs.PairedSweeps

set_option autoImplicit false

/-!
# Three ways to one estimate (SPEC §4.6)

A comparison draws samples once and assesses each of its estimators on them, and a trial draws
samples for a single one.  From one state of the stream these are the same samples, so the
estimate of an estimator does not depend on which others it is compared with, nor in which order.
A sweep of one trial at the ratio of the scene ends in statistics of the same estimate.
-/

namespace PhasedArray

/-! ## Estimates that have an error -/

section Assessed

variable {α : Type} [Scalar α] {S : Solvers α} {E : Estimator α} {e : Estimate α}

/-- An estimator leaves it open how well it did. -/
theorem Estimator.error_estimateSnapshots {X : Snapshots α}
    (h : E.estimateSnapshots S X = .ok e) : e.error = none := by
  obtain ⟨D, -, h⟩ := exists_decomposition_of_estimateSnapshots h
  cases hsearch : E.search with
  | spectral s =>
    rw [ofDecomposition_spectral S hsearch] at h
    obtain ⟨found, -, rfl⟩ := Outcome.map_eq_ok.mp h
    rfl
  | rotational kind tolerance =>
    rw [ofDecomposition_rotational S hsearch] at h
    obtain ⟨found, -, rfl⟩ := Outcome.map_eq_ok.mp h
    rfl

/-- An assessed estimate has an error unless it is degenerate. -/
theorem Evaluation.isNone_error_of_assess {m : ℕ} {actual : Setting α} {X : Samples α m}
    (h : assess S E actual X = .ok e) : e.error.isNone = e.degenerate := by
  obtain ⟨found, hfound, hscored⟩ := Outcome.bind_eq_ok.mp h
  obtain ⟨Y, -, hfound⟩ := Outcome.bind_eq_ok.mp hfound
  have hplain := Estimator.error_estimateSnapshots hfound
  rcases Estimate.eq_of_scoredAgainst hscored with ⟨hdegenerate, rfl⟩ | ⟨-, angles, -, rfl⟩
  · rw [hplain, hdegenerate]
    rfl
  · rw [Estimate.error_scored hplain, Option.isNone_map, Estimate.degenerate_scored]
    rfl

end Assessed

namespace Evaluation

variable {α σ : Type} [Scalar α] {S : Solvers α} {G : Generator α σ} {g : Geometry α}
  {scene : Scene α} {s t : σ}

/-! ## Comparisons -/

/-- What the estimators of a comparison make of samples are their own estimates, by name. -/
theorem assess_of_estimateAll {m : ℕ} {actual : Setting α} {X : Samples α m}
    {named : List (Setting α × Estimator α)} {results : List (Setting α × Estimate α)}
    (h : estimateAll S actual X.2 named = .ok results) :
    results.map Prod.fst = named.map Prod.fst ∧
      ∀ p ∈ named.zip results, assess S p.1.2 actual X = .ok p.2.2 := by
  induction named generalizing results with
  | nil =>
    cases h
    exact ⟨rfl, fun _ hp => absurd hp List.not_mem_nil⟩
  | cons entry rest ih =>
    simp only [estimateAll, Outcome.bind_eq_ok] at h
    obtain ⟨found, hfound, e, hscored, others, hothers, h⟩ := h
    cases h
    obtain ⟨hnames, hassess⟩ := ih hothers
    refine ⟨by rw [List.map_cons, List.map_cons, hnames], ?_⟩
    rw [List.zip_cons_cons]
    exact List.forall_mem_cons.mpr ⟨Outcome.bind_eq_ok.mpr ⟨found, hfound, hscored⟩, hassess⟩

/-- A comparison that returns drew samples of the array that its estimators have in common, and
assessed each of them on these. -/
theorem exists_drawn_of_compare {named : List (Setting α × Estimator α)}
    {results : List (Setting α × Estimate α)} (hg : ∀ entry ∈ named, entry.2.geometry = g)
    (h : compare S G named scene s = (.ok results, t)) :
    ∃ X : Samples α g.size, Signal.generate G g scene s = (.ok X, t) ∧
      results.map Prod.fst = named.map Prod.fst ∧
      ∀ p ∈ named.zip results, assess S p.1.2 scene.angles X = .ok p.2.2 := by
  cases named with
  | nil => cases h
  | cons entry rest =>
    obtain ⟨name, first⟩ := entry
    obtain rfl : first.geometry = g := hg _ List.mem_cons_self
    unfold compare at h
    dsimp only at h
    split_ifs at h
    · rcases hdrawn : Signal.generate G first.geometry scene s with ⟨fault | X, s'⟩
      · rw [hdrawn] at h
        cases h
      · rw [hdrawn] at h
        obtain ⟨hresults, rfl⟩ := Prod.mk.inj h
        exact ⟨X, rfl, assess_of_estimateAll hresults⟩
    · cases h

theorem exists_estimateAll {m : ℕ} {actual : Setting α} {X : Samples α m}
    {named : List (Setting α × Estimator α)}
    (h : ∀ entry ∈ named, ∃ e, assess S entry.2 actual X = .ok e) :
    ∃ results, estimateAll S actual X.2 named = .ok results := by
  induction named with
  | nil => exact ⟨[], rfl⟩
  | cons entry rest ih =>
    obtain ⟨hfirst, hrest⟩ := List.forall_mem_cons.mp h
    obtain ⟨e, he⟩ := hfirst
    obtain ⟨found, hfound, hscored⟩ := Outcome.bind_eq_ok.mp he
    obtain ⟨others, hothers⟩ := ih hrest
    refine ⟨(entry.1, e) :: others, ?_⟩
    simp only [estimateAll, Outcome.bind_eq_ok]
    exact ⟨found, hfound, e, hscored, others, hothers, rfl⟩

/-- A comparison returns if the trials of its estimators do. -/
theorem exists_compare {named : List (Setting α × Estimator α)} (hne : named ≠ [])
    (hg : ∀ entry ∈ named, entry.2.geometry = g) (hsame : g.sameArray g = true)
    (h : ∀ entry ∈ named, Returns S G entry.2 scene) (s : σ) :
    ∃ results t, compare S G named scene s = (.ok results, t) := by
  obtain ⟨⟨name, first⟩, rest, rfl⟩ := List.exists_cons_of_ne_nil hne
  obtain ⟨rfl, hrest⟩ := List.forall_mem_cons.mp hg
  obtain ⟨_, t, htrial⟩ := h _ List.mem_cons_self s
  obtain ⟨X, hdrawn, -⟩ := exists_drawn_of_trial htrial
  have hassess : ∀ entry ∈ (name, first) :: rest, ∃ e, assess S entry.2 scene.angles X = .ok e := by
    intro entry hentry
    obtain ⟨e, t', htrial'⟩ := h entry hentry s
    rw [hg entry hentry, trial_eq_of_drawn hdrawn] at htrial'
    exact ⟨e, (Prod.mk.inj htrial').1⟩
  obtain ⟨results, hresults⟩ := exists_estimateAll hassess
  have hall : (rest.all fun entry => entry.2.geometry.sameArray first.geometry) = true := by
    rw [List.all_eq_true]
    intro entry hentry
    rw [hrest entry hentry, hsame]
  refine ⟨results, t, ?_⟩
  unfold compare
  dsimp only
  rw [if_pos hall, hdrawn]
  dsimp only
  rw [hresults]

/-! ## Sweeps of one trial -/

/-- A request for one trial of a scene. -/
structure SweepRequest.IsSingle (r : SweepRequest α) (scene : Scene α) : Prop where
  angles : r.angles = scene.angles
  ratios : r.ratios.members? = some [scene.snr]
  snapshots : r.snapshots = scene.snapshots
  trials : r.trials.toCount "num_trials" = .ok 1

omit [Scalar α] in
theorem SweepRequest.IsSingle.sceneAt_eq {r : SweepRequest α} (h : r.IsSingle scene) :
    r.sceneAt scene.snr = scene := by
  rw [sceneAt, h.angles, h.snapshots]

theorem SweepRequest.IsSingle.eq_of_checked {r : SweepRequest α} (h : r.IsSingle scene)
    {ratios : List (Setting α)} (hchecked : r.checked = .ok ratios) : ratios = [scene.snr] := by
  simp only [checked, Outcome.check_eq_ok, Outcome.bind_eq_ok] at hchecked
  obtain ⟨-, -, -, -, -, hratios⟩ := hchecked
  rw [h.ratios] at hratios
  exact (Except.ok.inj hratios).symm

/-- A sweep of one trial drew samples for the scene, and has the statistics of what the estimator
made of them. -/
theorem SweepRequest.IsSingle.exists_of_sweep {r : SweepRequest α} (h : r.IsSingle scene)
    {E : Estimator α} (hE : E.geometry = g) {same : α → α → Bool} {result : Sweep α}
    (hsweep : sweep S G E r same s = (.ok result, t)) :
    ∃ (X : Samples α g.size) (e : Estimate α) (x : α),
      Signal.generate G g scene s = (.ok X, t) ∧ assess S E scene.angles X = .ok e ∧
      scene.snr.toScalar "snr_db" = .ok x ∧ result = [(x, pointOf r.bound [e])] := by
  obtain ⟨ratios, hratios, bs, hblocks, hresult⟩ := exists_blocks_of_sweep hE hsweep
  cases h.eq_of_checked hratios
  rw [SweepRequest.count_eq h.trials] at hblocks
  cases hblocks with
  | next ran counted read others =>
    cases others
    cases ran with
    | done => exact nomatch counted
    | next drawn assessed more =>
      cases more with
      | next => exact nomatch counted
      | done =>
        rw [h.sceneAt_eq] at drawn assessed
        exact ⟨_, _, _, drawn, assessed, read, hresult⟩

/-- The statistics of one estimate. -/
theorem pointOf_singleton (hmean : ∀ x : α, Scalar.mean [x] = x) (threshold : Outcome α α)
    (e : Estimate α) :
    (pointOf threshold [e]).trials = 1 ∧ (pointOf threshold [e]).meanError = e.error ∧
      (pointOf threshold [e]).degenerate = if e.error.isNone then 1 else 0 := by
  refine ⟨rfl, ?_, ?_⟩
  · rw [pointOf, Tally.point, Tally.extended, List.nil_append]
    cases herror : e.error with
    | none =>
      rw [List.filterMap_cons_none herror]
      rfl
    | some error =>
      rw [List.filterMap_cons_some herror]
      cases error with
      | unmatched => rfl
      | rms x => exact congrArg (fun y => some (AngleError.rms y)) (hmean x)
  · change 0 + [e].countP (fun e => e.error.isNone) = _
    rw [Nat.zero_add, List.countP_singleton]

/-! ## All three -/

/-- The three evaluations of an estimator agree.  In a comparison of estimators of one array each
has the estimate of its own trial from the same state of the stream, so that it has the same one
in any other comparison there; and the sweep of one trial from that state reports the error of
this estimate, which is its own mean, or one degenerate trial. -/
theorem evaluations_agree (hmean : ∀ x : α, Scalar.mean [x] = x)
    {named : List (Setting α × Estimator α)} {results : List (Setting α × Estimate α)}
    (hg : ∀ entry ∈ named, entry.2.geometry = g)
    (h : compare S G named scene s = (.ok results, t)) :
    results.map Prod.fst = named.map Prod.fst ∧
      ∀ p ∈ named.zip results,
        trial S G p.1.2 g scene s = (.ok p.2.2, t) ∧
        (∀ named' results' t', (∀ entry ∈ named', entry.2.geometry = g) →
          compare S G named' scene s = (.ok results', t') →
          t' = t ∧ ∀ p' ∈ named'.zip results', p'.1.2 = p.1.2 → p'.2.2 = p.2.2) ∧
        ∀ r : SweepRequest α, r.IsSingle scene → ∀ same result t',
          sweep S G p.1.2 r same s = (.ok result, t') →
          t' = t ∧ ∃ x point, scene.snr.toScalar "snr_db" = .ok x ∧ result = [(x, point)] ∧
            point.trials = 1 ∧ point.meanError = p.2.2.error ∧
            if p.2.2.degenerate then point.degenerate = 1 ∧ point.meanError = none
            else point.degenerate = 0 ∧ point.meanError.isSome := by
  obtain ⟨X, hdrawn, hnames, hassess⟩ := exists_drawn_of_compare hg h
  refine ⟨hnames, fun p hp => ⟨?_, ?_, ?_⟩⟩
  · rw [trial_eq_of_drawn hdrawn, hassess p hp]
  · intro named' results' t' hg' h'
    obtain ⟨X', hdrawn', -, hassess'⟩ := exists_drawn_of_compare hg' h'
    cases hdrawn.symm.trans hdrawn'
    refine ⟨rfl, fun p' hp' hsame => ?_⟩
    have hestimate := hassess' p' hp'
    rw [hsame, hassess p hp] at hestimate
    exact (Except.ok.inj hestimate).symm
  · intro r hr same result t' hsweep
    have hE : p.1.2.geometry = g := hg p.1 (List.of_mem_zip hp).1
    obtain ⟨X', e, x, hdrawn', hassess', hx, rfl⟩ := hr.exists_of_sweep hE hsweep
    cases hdrawn.symm.trans hdrawn'
    cases (hassess p hp).symm.trans hassess'
    obtain ⟨htrials, herror, hdegenerate⟩ := pointOf_singleton hmean r.bound p.2.2
    have hnone := isNone_error_of_assess hassess'
    refine ⟨rfl, x, _, hx, rfl, htrials, herror, ?_⟩
    rw [hdegenerate, herror, hnone]
    cases hd : p.2.2.degenerate with
    | true => exact ⟨rfl, Option.isNone_iff_eq_none.mp (hnone.trans hd)⟩
    | false => exact ⟨rfl, Option.isNone_eq_false_iff.mp (hnone.trans hd)⟩

open Extended

/-- The scene of a small sweep at a ratio. -/
noncomputable def smallScene (ratio : ℝ) : Scene Extended :=
  (smallRequest [ratio]).sceneAt (.real (finite ratio))

/-- One trial of it. -/
noncomputable def singleRequest (ratio : ℝ) : SweepRequest Extended :=
  { smallRequest [ratio] with trials := .whole 1 }

theorem singleRequest_isSingle (ratio : ℝ) : (singleRequest ratio).IsSingle (smallScene ratio) :=
  ⟨rfl, rfl, rfl, rfl⟩

theorem returns_smallScene (S : Solvers Extended) {E : Estimator Extended}
    (hE : E.geometry = .small) (hsearch : E.search = .spectral .small) (ratio : ℝ) :
    Returns S zeros E (smallScene ratio) :=
  returns_small S hE hsearch ratio

theorem exists_sweep_single {S : Solvers Extended} {E : Estimator Extended} {ratio : ℝ}
    (h : Returns S zeros E (smallScene ratio)) (same : Extended → Extended → Bool) (s : ℕ) :
    ∃ result t, sweep S zeros E (singleRequest ratio) same s = (.ok result, t) := by
  have hchecked : (singleRequest ratio).checked = .ok [(smallScene ratio).snr] := rfl
  have hbound : (singleRequest ratio).bound = .ok 0.1 := rfl
  exact exists_sweep hbound hchecked (singleRequest_isSingle ratio).trials
    (List.forall_mem_singleton.mpr h) (List.forall_mem_singleton.mpr ⟨finite ratio, rfl⟩) same s

/-- Two searches of one small array, of which one averages the covariance. -/
noncomputable def smallNamed : List (Setting Extended × Estimator Extended) :=
  [(.text "plain", .small), (.text "averaged", .smallAveraged)]

/-- Both have an estimate in the comparison, that of the trial and of the sweep of one trial. -/
theorem evaluations_agree_small :
    ∃ results t,
      compare Solvers.ideal.extended zeros smallNamed (smallScene 10) 0 = (.ok results, t) ∧
      results.length = 2 ∧ ∀ p ∈ smallNamed.zip results,
        trial Solvers.ideal.extended zeros p.1.2 .small (smallScene 10) 0 = (.ok p.2.2, t) ∧
        ∃ x point, sweep Solvers.ideal.extended zeros p.1.2 (singleRequest 10) sameOrUndefined 0 =
            (.ok [(x, point)], t) ∧
          point.meanError = p.2.2.error := by
  have hg : ∀ entry ∈ smallNamed, entry.2.geometry = .small :=
    List.forall_mem_cons.mpr ⟨rfl, List.forall_mem_singleton.mpr rfl⟩
  have hreturns : ∀ entry ∈ smallNamed,
      Returns Solvers.ideal.extended zeros entry.2 (smallScene 10) :=
    List.forall_mem_cons.mpr ⟨returns_smallScene _ rfl rfl 10,
      List.forall_mem_singleton.mpr (returns_smallScene _ rfl rfl 10)⟩
  obtain ⟨results, t, h⟩ :=
    exists_compare (List.cons_ne_nil _ _) hg Geometry.sameArray_small hreturns 0
  obtain ⟨hnames, hagree⟩ := evaluations_agree mean_singleton hg h
  have hlength : results.length = 2 := by
    rw [← List.length_map Prod.fst, hnames]
    rfl
  refine ⟨results, t, h, hlength, fun p hp => ?_⟩
  obtain ⟨htrial, -, hsweeps⟩ := hagree p hp
  obtain ⟨result, t', hsweep⟩ :=
    exists_sweep_single (hreturns p.1 (List.of_mem_zip hp).1) sameOrUndefined 0
  obtain ⟨rfl, x, point, -, rfl, -, herror, -⟩ :=
    hsweeps _ (singleRequest_isSingle 10) _ _ _ hsweep
  exact ⟨htrial, x, point, hsweep, herror⟩

end Evaluation

end PhasedArray
