import PhasedArray.Proofs.Standard

set_option autoImplicit false

/-!
# Requests of a session are independent (SPEC §4.9, §5)

No request of a session changes the answer to another one: each has the outcome that it has on
an engine set up for it alone.  The order of the requests does not matter to the counters either,
since these are a sum.  A request that names the configured method is the same as one that names
none, although an estimator is made for the former and the latter has the engine's own.
-/

namespace PhasedArray.Engine

variable {α : Type} [Scalar α]

theorem session_fst_eq_alone {S : Solvers α} {config : Setting α} {u : Setup α}
    (hu : ofConfig config = .ok u) (rs : List (Request α)) :
    (session S u {} rs).1 = rs.map (answerAlone S config) := by
  rw [session_fst]
  apply List.map_congr_left
  intro r _
  rw [answerAlone, hu]
  exact (handle_fst S u {} r).symm

/-- The order of requests does not matter to the counters. -/
theorem session_snd_perm {S : Solvers α} {u : Setup α} {rs rs' : List (Request α)}
    (h : rs.Perm rs') (c : Counters) : (session S u c rs).2 = (session S u c rs').2 := by
  rw [session_snd, session_snd, (h.map (tally S u)).sum_eq]

omit [Scalar α] in
/-- The key of a method names it. -/
theorem methodOf_key (m : Method) : Estimator.methodOf (.text m.key : Setting α) = .ok m := by
  have hkey : Method.ofText? m.key = some m := by cases m <;> decide +kernel
  unfold Estimator.methodOf
  dsimp only
  rw [hkey]

/-- An engine that is asked for the configured method by name takes the estimator that it has. -/
theorem estimatorFor_of_named {u : Setup α}
    (hu : Estimator.ofConfig u.geometry u.config none = .ok u.estimator) {named : Setting α}
    (h : Estimator.methodOf named = .ok u.config.method) :
    estimatorFor u named = estimatorFor u .nothing := by
  rw [estimatorFor_eq hu, estimatorFor_eq hu]
  cases named with
  | nothing => rfl
  | _ =>
    change (Estimator.methodOf _ >>= _) = _
    rw [h]
    rfl

/-- The requests of a session do not depend on each other.  Each has the outcome that it has on
an engine set up from the same configuration for it alone; any other order of the requests leads
to the same counters; and naming the configured method, for which its key serves, has the same
outcome and the same effect on the counters as naming none. -/
theorem session_independent (S : Solvers α) {config : Setting α} {u : Setup α}
    (hu : ofConfig config = .ok u) :
    (∀ rs : List (Request α), (session S u {} rs).1 = rs.map (answerAlone S config)) ∧
    (∀ rs rs' : List (Request α), rs.Perm rs' →
      (session S u {} rs').2 = (session S u {} rs).2) ∧
    Estimator.methodOf (.text u.config.method.key : Setting α) = .ok u.config.method ∧
    ∀ named, Estimator.methodOf named = .ok u.config.method → ∀ c snapshots actual,
      handle S u c (.directions snapshots named actual) =
        handle S u c (.directions snapshots .nothing actual) := by
  have hestimator := estimator_of_ofConfig hu
  refine ⟨session_fst_eq_alone hu, ?_, methodOf_key _, ?_⟩
  · intro rs rs' hperm
    exact session_snd_perm hperm.symm {}
  · intro named hnamed c snapshots actual
    have hsame : directions S u snapshots named actual =
        directions S u snapshots .nothing actual := by
      rw [directions, directions, estimatorFor_of_named hestimator hnamed]
    unfold handle
    dsimp only
    rw [hsame]

/-- The three requests, two of which fail, in the order in which they are and the other way
round. -/
theorem session_independent_three :
    ofConfig (.table [] : Setting ℝ) = .ok Setup.standard ∧
    (session .ideal Setup.standard {} Request.three).1 =
      Request.three.map (answerAlone .ideal (.table [])) ∧
    (session .ideal Setup.standard {} Request.three.reverse).2 =
      (session .ideal Setup.standard {} Request.three).2 ∧
    handle .ideal Setup.standard {} (.directions silence (.text "music") .nothing) =
      handle .ideal Setup.standard {} (.directions silence .nothing .nothing) := by
  obtain ⟨halone, hperm, hmusic, hnamed⟩ := session_independent .ideal ofConfig_nil
  exact ⟨ofConfig_nil, halone Request.three,
    hperm Request.three Request.three.reverse (List.reverse_perm _).symm,
    hnamed (.text "music") hmusic {} silence .nothing⟩

end PhasedArray.Engine
