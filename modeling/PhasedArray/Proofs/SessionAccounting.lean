import PhasedArray.Proofs.Standard

set_option autoImplicit false

/-!
# What the counters of a session count (SPEC §4.9)

Requests are counted when they arrive.  An estimate is counted under the method that was asked
for; a fault is counted if it lies in the array or its data, and for beams also if the request
is not well formed.  True angles are looked at after the estimate, and nothing that can be wrong
with them is a fault of the array, so a request that fails there leaves only its arrival behind.
-/

namespace PhasedArray

/-! ## Reading true angles -/

namespace Setting

variable {α : Type} [Scalar α]

theorem toTensor_error {s : Setting α} {e : Fault α} (h : s.toTensor = .error e) :
    e = .shapesDisagree := by
  unfold toTensor at h
  split at h
  · exact nomatch h
  · split at h
    · exact (Except.error.inj h).symm
    · split_ifs at h
      · split at h
        · exact nomatch h
        · exact (Except.error.inj h).symm
      · exact (Except.error.inj h).symm

end Setting

section Reading

variable {α : Type} [Scalar α]

theorem Entry.toScalar_error {x : Entry α} {e : Fault α} (h : x.toScalar = .error e) :
    e.isOfArray = false := by
  cases x with
  | nothing => exact nomatch h
  | flag on => exact nomatch h
  | number n =>
    change n.toScalar = .error e at h
    unfold Number.toScalar at h
    split at h
    · exact nomatch h
    · cases h
      rfl
  | text s =>
    unfold toScalar at h
    dsimp only at h
    split at h
    · exact nomatch h
    · cases h
      rfl
  | other =>
    cases h
    rfl

omit [Scalar α] in
/-- A list that cannot be worked through has a member that cannot. -/
theorem Outcome.exists_of_mapM_error {β γ : Type} {f : β → Outcome α γ} {l : List β} {e : Fault α}
    (h : l.mapM f = .error e) : ∃ x ∈ l, f x = .error e := by
  induction l with
  | nil => exact nomatch h
  | cons x rest ih =>
    rw [List.mapM_cons, bind_eq_error] at h
    rcases h with hx | ⟨y, -, h⟩
    · exact ⟨x, List.mem_cons_self, hx⟩
    · rcases bind_eq_error.mp h with hrest | ⟨ys, -, h⟩
      · obtain ⟨z, hz, hfault⟩ := ih hrest
        exact ⟨z, List.mem_cons_of_mem x hz, hfault⟩
      · exact nomatch h

theorem Tensor.toReal_error {t : Tensor α} {e : Fault α} (h : t.toReal = .error e) :
    e.isOfArray = false := by
  unfold toReal at h
  split at h
  · next values _ =>
    rcases Outcome.bind_eq_error.mp h with hread | ⟨xs, -, h⟩
    · obtain ⟨x, -, hx⟩ := Outcome.exists_of_mapM_error hread
      exact Entry.toScalar_error hx
    · split at h
      · exact nomatch h
      · cases h
        rfl
  · exact nomatch h

/-- What is wrong with a list of scalars is nothing of the array. -/
theorem Setting.toReals_error {s : Setting α} {e : Fault α} (h : s.toReals = .error e) :
    e.isOfArray = false := by
  simp only [toReals, toReal, Outcome.bind_eq_error] at h
  rcases h with (htensor | ⟨t, -, hreal⟩) | ⟨t, -, h⟩
  · rw [toTensor_error htensor]
    rfl
  · exact Tensor.toReal_error hreal
  · cases h

end Reading

/-! ## The method of an estimate -/

namespace Estimate

variable {α : Type} {e : Estimate α}

/-- Only a rotation fit can have no result. -/
theorem method_of_degenerate (h : e.degenerate = true) : e.method ≠ .music := by
  unfold degenerate angles? at h
  unfold method
  cases hfinding : e.finding with
  | spectral found => simp [hfinding] at h
  | rotational kind angles => cases kind <;> exact nofun

/-- Only a spectrum can have too few peaks. -/
theorem method_of_resolutionLimited (h : e.resolutionLimited = true) : e.method = .music := by
  unfold resolutionLimited at h
  unfold method
  cases hfinding : e.finding with
  | spectral found => rfl
  | rotational kind angles => simp [hfinding] at h

theorem method_scoredAgainst [Scalar α] {actual : Setting α} {scored : Estimate α}
    (h : e.scoredAgainst actual = .ok scored) : scored.method = e.method := by
  unfold scoredAgainst at h
  split_ifs at h
  · cases h
    rfl
  · cases hread : actual.toReals with
    | error fault =>
      rw [hread] at h
      exact nomatch h
    | ok angles =>
      rw [hread] at h
      cases h
      unfold scored
      split <;> rfl

end Estimate

namespace Estimator

variable {α : Type} [Scalar α] {S : Solvers α}

theorem method_ofDecomposition {E : Estimator α} {D : Decomposition α E.geometry.size}
    {e : Estimate α} (h : ofDecomposition S E D = .ok e) : e.method = E.method := by
  unfold ofDecomposition at h
  unfold Estimator.method
  cases hsearch : E.search with
  | spectral s =>
    rw [hsearch] at h
    obtain ⟨finding, hfinding, he⟩ := Outcome.bind_eq_ok.mp h
    obtain ⟨found, -, hfound⟩ := Outcome.bind_eq_ok.mp hfinding
    cases hfound
    cases he
    rfl
  | rotational kind tolerance =>
    rw [hsearch] at h
    obtain ⟨finding, hfinding, he⟩ := Outcome.bind_eq_ok.mp h
    obtain ⟨angles, -, hangles⟩ := Outcome.bind_eq_ok.mp hfinding
    cases hangles
    cases he
    rfl

/-- An estimate is made by the method of its estimator. -/
theorem method_estimate {E : Estimator α} {t : Tensor α} {e : Estimate α}
    (h : E.estimate S t = .ok e) : e.method = E.method := by
  simp only [estimate, estimateSnapshots, ofCovariance, Outcome.bind_eq_ok] at h
  obtain ⟨X, -, C, -, D, -, h⟩ := h
  exact method_ofDecomposition h

theorem method_spectral {g : Geometry α} {c : Config α} {E : Estimator α}
    (h : spectral g c = .ok E) : E.method = .music := by
  simp only [spectral, Outcome.bind_eq_ok] at h
  obtain ⟨k, -, grid, -, h⟩ := h
  cases h
  rfl

theorem method_rotational {g : Geometry α} {kind : RotationFit} {c : Config α} {E : Estimator α}
    (h : rotational g kind c = .ok E) : E.method = kind.method := by
  unfold rotational at h
  split_ifs at h
  obtain ⟨k, -, h⟩ := Outcome.bind_eq_ok.mp h
  cases h
  rfl

/-- An estimator uses the method it is asked for, or the configured one. -/
theorem method_ofConfig {g : Geometry α} {c : Config α} {asked : Option Method} {E : Estimator α}
    (h : ofConfig g c asked = .ok E) : E.method = asked.getD c.method := by
  unfold ofConfig at h
  cases hmethod : asked.getD c.method with
  | music =>
    rw [hmethod] at h
    exact method_spectral h
  | esprit =>
    rw [hmethod] at h
    exact method_rotational h
  | tlsEsprit =>
    rw [hmethod] at h
    exact method_rotational h

end Estimator

namespace Engine

variable {α : Type} [Scalar α] (S : Solvers α) (u : Setup α)

/-! ## Requests and how they end -/

/-- Whether a request asks for directions. -/
def Request.isDirections : Request α → Bool
  | .directions _ _ _ => true
  | .beam _ => false

/-- Whether a request asks for a beam. -/
def Request.isBeam : Request α → Bool
  | .directions _ _ _ => false
  | .beam _ => true

/-- The method that a request asks for: the configured one unless there is another. -/
def methodFor (method : Setting α) : Outcome α Method :=
  match method with
  | .nothing => .ok u.config.method
  | given => Estimator.methodOf given

/-- The estimate for a request before it is scored: an estimator is made, and it estimates. -/
def estimation (snapshots : Tensor α) (method : Setting α) : Outcome α (Estimate α) := do
  let E ← estimatorFor u method
  E.estimate S snapshots

/-- Whether a request for directions is answered and asks for the method `m`. -/
def answersBy (m : Method) : Request α → Bool
  | .directions snapshots method actual =>
      (directions S u snapshots method actual).isOk &&
        decide ((methodFor u method).toOption = some m)
  | .beam _ => false

/-- Whether a request for directions fails by a fault of the array before there is anything to
score. -/
def failsToEstimate : Request α → Bool
  | .directions snapshots method _ =>
      match estimation S u snapshots method with
      | .error e => e.isOfArray
      | .ok _ => false
  | .beam _ => false

/-- Whether a request for a beam is answered. -/
def answersBeam : Request α → Bool
  | .directions _ _ _ => false
  | .beam params => (beam u params).isOk

/-- Whether a request for a beam fails by a fault of the array, or because it is not well
formed. -/
def failsToBeam : Request α → Bool
  | .directions _ _ _ => false
  | .beam params =>
      match beam u params with
      | .error e => e.isOfArray || decide (e.family = .argument)
      | .ok _ => false

/-- The counters when a request has arrived. -/
def Counters.arrived (c : Counters) : Request α → Counters
  | .directions _ _ _ => { c with doaRequests := c.doaRequests + 1 }
  | .beam _ => { c with beamRequests := c.beamRequests + 1 }

/-- What the counters of a session say about its requests. -/
structure Accounts (rs : List (Request α)) (c : Counters) : Prop where
  doaRequests : c.doaRequests = rs.countP Request.isDirections
  beamRequests : c.beamRequests = rs.countP Request.isBeam
  byMethod : ∀ m, c.byMethod.get m = rs.countP (answersBy S u m)
  errors : c.errors = rs.countP (failsToEstimate S u) + rs.countP (failsToBeam u)
  degenerate : c.degenerate ≤ c.byMethod.get .esprit + c.byMethod.get .tlsEsprit
  resolutionLimited : c.resolutionLimited ≤ c.byMethod.get .music
  notConverged : c.notConverged ≤ rs.countP (answersBeam u)

/-! ## Directions -/

theorem directions_eq_bind (snapshots : Tensor α) (method actual : Setting α) :
    directions S u snapshots method actual =
      estimation S u snapshots method >>= fun e => score e actual := by
  unfold directions estimation
  rw [bind_assoc]

theorem score_error {e : Estimate α} {actual : Setting α} {fault : Fault α}
    (h : score e actual = .error fault) : fault.isOfArray = false := by
  have hscored : ∀ actual, e.scoredAgainst actual = .error fault → fault.isOfArray = false := by
    intro actual h
    unfold Estimate.scoredAgainst at h
    split_ifs at h
    cases hread : actual.toReals with
    | error reading =>
      rw [hread] at h
      cases h
      exact Setting.toReals_error hread
    | ok angles =>
      rw [hread] at h
      exact nomatch h
  cases actual with
  | nothing => exact nomatch h
  | _ => exact hscored _ h

theorem method_score {e scored : Estimate α} {actual : Setting α}
    (h : score e actual = .ok scored) : scored.method = e.method := by
  cases actual with
  | nothing =>
    cases h
    rfl
  | _ => exact Estimate.method_scoredAgainst h

/-- A fault of the array ends a request for directions before there is anything to score. -/
theorem failsToEstimate_eq {snapshots : Tensor α} {method actual : Setting α} {e : Fault α}
    (h : directions S u snapshots method actual = .error e) :
    failsToEstimate S u (.directions snapshots method actual) = e.isOfArray := by
  rw [directions_eq_bind, Outcome.bind_eq_error] at h
  unfold failsToEstimate
  dsimp only
  rcases h with hestimation | ⟨estimate, hestimation, hscore⟩
  · rw [hestimation]
  · rw [hestimation]
    exact (score_error hscore).symm

/-- Without one it is answered or fails at the score. -/
theorem failsToEstimate_eq_false {snapshots : Tensor α} {method actual : Setting α}
    {e : Estimate α} (h : directions S u snapshots method actual = .ok e) :
    failsToEstimate S u (.directions snapshots method actual) = false := by
  rw [directions_eq_bind, Outcome.bind_eq_ok] at h
  unfold failsToEstimate
  dsimp only
  obtain ⟨estimate, hestimation, -⟩ := h
  rw [hestimation]

variable {u}

theorem methodFor_of_estimatorFor
    (hu : Estimator.ofConfig u.geometry u.config none = .ok u.estimator)
    {method : Setting α} {E : Estimator α} (h : estimatorFor u method = .ok E) :
    methodFor u method = .ok E.method := by
  rw [estimatorFor_eq hu] at h
  cases method with
  | nothing =>
    rw [Estimator.method_ofConfig h]
    rfl
  | _ =>
    obtain ⟨m, hm, hE⟩ := Outcome.bind_eq_ok.mp h
    rw [Estimator.method_ofConfig hE]
    exact hm

/-- An answer with directions is by the method that the request asks for. -/
theorem methodFor_eq (hu : Estimator.ofConfig u.geometry u.config none = .ok u.estimator)
    {snapshots : Tensor α} {method actual : Setting α} {e : Estimate α}
    (h : directions S u snapshots method actual = .ok e) : methodFor u method = .ok e.method := by
  rw [directions_eq_bind, Outcome.bind_eq_ok] at h
  obtain ⟨estimate, hestimation, hscore⟩ := h
  obtain ⟨E, hE, hestimate⟩ := Outcome.bind_eq_ok.mp hestimation
  rw [method_score hscore, Estimator.method_estimate hestimate]
  exact methodFor_of_estimatorFor hu hE

/-- Snapshots without a signal have an estimate, but no score against angles that are no list. -/
theorem directions_ragged (S : Solvers ℝ) :
    directions S Setup.standard silence .nothing Request.ragged = .error .shapesDisagree := by
  obtain ⟨e, he⟩ := exists_directions_silence S
  have hmethod := methodFor_eq S (estimator_of_ofConfig ofConfig_nil) he
  have hdegenerate : ¬e.degenerate = true := by
    intro h
    exact Estimate.method_of_degenerate h (Except.ok.inj hmethod).symm
  rw [directions_eq_bind, Outcome.bind_eq_ok] at he
  obtain ⟨estimate, hestimation, hscore⟩ := he
  cases hscore
  rw [directions_eq_bind, hestimation]
  change e.scoredAgainst Request.ragged = _
  rw [Estimate.scoredAgainst, if_neg hdegenerate]
  rfl

/-! ## What each request adds -/

variable (u)

theorem tally_of_estimate {snapshots : Tensor α} {method actual : Setting α} {e : Estimate α}
    (h : directions S u snapshots method actual = .ok e) :
    tally S u (.directions snapshots method actual) =
      { doaRequests := 1
        byMethod := (0 : MethodCounts).bump e.method
        degenerate := e.degenerate.toNat
        resolutionLimited := e.resolutionLimited.toNat } := by
  unfold tally handle Counters.recordDirections
  dsimp only
  rw [h, ← Counters.countIf_zero, ← Counters.countIf_zero]
  rfl

theorem tally_of_lost_estimate {snapshots : Tensor α} {method actual : Setting α} {e : Fault α}
    (h : directions S u snapshots method actual = .error e) :
    tally S u (.directions snapshots method actual) =
      { doaRequests := 1, errors := e.isOfArray.toNat } := by
  unfold tally handle Counters.recordDirections
  dsimp only
  rw [h, ← Counters.countIf_zero]
  rfl

theorem tally_of_beam {params : Settings α} {b : Beam α} (h : beam u params = .ok b) :
    tally S u (.beam params) = { beamRequests := 1, notConverged := (!b.converged).toNat } := by
  unfold tally handle Counters.recordBeam
  dsimp only
  rw [h, ← Counters.countIf_zero]
  rfl

theorem tally_of_lost_beam {params : Settings α} {e : Fault α} (h : beam u params = .error e) :
    tally S u (.beam params) =
      { beamRequests := 1, errors := (Counters.beamFaultCounts e).toNat } := by
  unfold tally handle Counters.recordBeam
  dsimp only
  rw [h, ← Counters.countIf_zero]
  rfl

/-! ## Requests add up -/

theorem countP_singleton {ι : Type} (p : ι → Bool) (i : ι) : [i].countP p = (p i).toNat := by
  rw [List.countP_cons, List.countP_nil, zero_add]
  cases p i <;> rfl

theorem MethodCounts.get_bump_zero (m k : Method) :
    ((0 : MethodCounts).bump m).get k = (decide (m = k)).toNat := by
  rw [get_bump, get_zero]
  by_cases h : m = k
  · rw [if_pos h, decide_eq_true h]
    rfl
  · rw [if_neg h, decide_eq_false h]
    rfl

variable {u}

theorem accounts_of_estimate (hu : Estimator.ofConfig u.geometry u.config none = .ok u.estimator)
    {snapshots : Tensor α} {method actual : Setting α} {e : Estimate α}
    (h : directions S u snapshots method actual = .ok e) :
    Accounts S u [.directions snapshots method actual]
      (tally S u (.directions snapshots method actual)) := by
  rw [tally_of_estimate S u h]
  constructor
  case doaRequests => rfl
  case beamRequests => rfl
  case byMethod =>
    intro m
    rw [MethodCounts.get_bump_zero, countP_singleton, answersBy, h, methodFor_eq S hu h]
    simp [Except.isOk, Except.toBool, Except.toOption]
  case errors =>
    rw [countP_singleton, countP_singleton, failsToEstimate_eq_false S u h]
    rfl
  case degenerate =>
    dsimp only
    rw [MethodCounts.get_bump_zero, MethodCounts.get_bump_zero]
    cases hdegenerate : e.degenerate with
    | false => exact Nat.zero_le _
    | true =>
      have hmethod := Estimate.method_of_degenerate hdegenerate
      cases hm : e.method with
      | music => exact absurd hm hmethod
      | esprit => exact le_rfl
      | tlsEsprit => exact le_rfl
  case resolutionLimited =>
    dsimp only
    rw [MethodCounts.get_bump_zero]
    cases hlimited : e.resolutionLimited with
    | false => exact Nat.zero_le _
    | true =>
      rw [Estimate.method_of_resolutionLimited hlimited]
      exact le_rfl
  case notConverged => exact Nat.zero_le _

theorem accounts_of_lost_estimate {snapshots : Tensor α} {method actual : Setting α} {e : Fault α}
    (h : directions S u snapshots method actual = .error e) :
    Accounts S u [.directions snapshots method actual]
      (tally S u (.directions snapshots method actual)) := by
  rw [tally_of_lost_estimate S u h]
  constructor
  case doaRequests => rfl
  case beamRequests => rfl
  case byMethod =>
    intro m
    rw [countP_singleton, answersBy, h]
    exact MethodCounts.get_zero m
  case errors =>
    rw [countP_singleton, countP_singleton, failsToEstimate_eq S u h]
    rfl
  case degenerate => exact Nat.zero_le _
  case resolutionLimited => exact Nat.zero_le _
  case notConverged => exact Nat.zero_le _

theorem accounts_of_beam {params : Settings α} {b : Beam α} (h : beam u params = .ok b) :
    Accounts S u [.beam params] (tally S u (.beam params)) := by
  rw [tally_of_beam S u h]
  constructor
  case doaRequests => rfl
  case beamRequests => rfl
  case byMethod => exact MethodCounts.get_zero
  case errors =>
    rw [countP_singleton, countP_singleton, failsToBeam, h]
    rfl
  case degenerate => exact Nat.zero_le _
  case resolutionLimited => exact Nat.zero_le _
  case notConverged =>
    rw [countP_singleton, answersBeam, h]
    exact Bool.toNat_le _

theorem accounts_of_lost_beam {params : Settings α} {e : Fault α} (h : beam u params = .error e) :
    Accounts S u [.beam params] (tally S u (.beam params)) := by
  rw [tally_of_lost_beam S u h]
  constructor
  case doaRequests => rfl
  case beamRequests => rfl
  case byMethod => exact MethodCounts.get_zero
  case errors =>
    rw [countP_singleton, countP_singleton, failsToBeam, h]
    exact (zero_add _).symm
  case degenerate => exact Nat.zero_le _
  case resolutionLimited => exact Nat.zero_le _
  case notConverged => exact Nat.zero_le _

/-- What one request adds accounts for it. -/
theorem accounts_tally (hu : Estimator.ofConfig u.geometry u.config none = .ok u.estimator)
    (r : Request α) : Accounts S u [r] (tally S u r) := by
  cases r with
  | directions snapshots method actual =>
    cases h : directions S u snapshots method actual with
    | ok e => exact accounts_of_estimate S hu h
    | error e => exact accounts_of_lost_estimate S h
  | beam params =>
    cases h : beam u params with
    | ok b => exact accounts_of_beam S h
    | error e => exact accounts_of_lost_beam S h

theorem Accounts.nil : Accounts S u [] 0 :=
  ⟨rfl, rfl, MethodCounts.get_zero, rfl, Nat.zero_le _, Nat.zero_le _, Nat.zero_le _⟩

variable {S}

/-- Counters that account for two lists of requests account together for both. -/
theorem Accounts.append {rs rs' : List (Request α)} {c c' : Counters} (h : Accounts S u rs c)
    (h' : Accounts S u rs' c') : Accounts S u (rs ++ rs') (c + c') := by
  constructor
  case doaRequests =>
    rw [List.countP_append, ← h.doaRequests, ← h'.doaRequests]
    rfl
  case beamRequests =>
    rw [List.countP_append, ← h.beamRequests, ← h'.beamRequests]
    rfl
  case byMethod =>
    intro m
    rw [List.countP_append, ← h.byMethod, ← h'.byMethod]
    exact MethodCounts.get_add _ _ m
  case errors =>
    have hboth : (c + c').errors = c.errors + c'.errors := rfl
    rw [hboth, h.errors, h'.errors, List.countP_append, List.countP_append]
    omega
  case degenerate =>
    have hboth : (c + c').byMethod = c.byMethod + c'.byMethod := rfl
    rw [hboth, MethodCounts.get_add, MethodCounts.get_add]
    calc c.degenerate + c'.degenerate
        ≤ (c.byMethod.get .esprit + c.byMethod.get .tlsEsprit) +
          (c'.byMethod.get .esprit + c'.byMethod.get .tlsEsprit) :=
          Nat.add_le_add h.degenerate h'.degenerate
      _ = _ := by omega
  case resolutionLimited =>
    have hboth : (c + c').byMethod = c.byMethod + c'.byMethod := rfl
    rw [hboth, MethodCounts.get_add]
    exact Nat.add_le_add h.resolutionLimited h'.resolutionLimited
  case notConverged =>
    rw [List.countP_append]
    exact Nat.add_le_add h.notConverged h'.notConverged

/-- The counters of a session account for its requests. -/
theorem accounts_session (hu : Estimator.ofConfig u.geometry u.config none = .ok u.estimator)
    (rs : List (Request α)) : Accounts S u rs (session S u 0 rs).2 := by
  rw [session_snd, zero_add]
  induction rs with
  | nil => exact Accounts.nil S
  | cons r rest ih =>
    rw [List.map_cons, List.sum_cons]
    exact (accounts_tally S hu r).append ih

variable (S) in
/-- A request that fails by a fault of neither kind leaves its arrival behind and nothing else. -/
theorem handle_of_uncounted {r : Request α} {e : Fault α} (h : answer S u r = .error e)
    (hestimate : failsToEstimate S u r = false) (hbeam : failsToBeam u r = false) (c : Counters) :
    (handle S u c r).2 = c.arrived r := by
  cases r with
  | directions snapshots method actual =>
    cases hdirections : directions S u snapshots method actual with
    | ok estimate =>
      rw [answer, hdirections] at h
      exact nomatch h
    | error fault =>
      rw [failsToEstimate_eq S u hdirections] at hestimate
      rw [handle_snd, tally_of_lost_estimate S u hdirections, hestimate]
      rfl
  | beam params =>
    cases hparams : beam u params with
    | ok b =>
      rw [answer, hparams] at h
      exact nomatch h
    | error fault =>
      rw [failsToBeam, hparams] at hbeam
      rw [handle_snd, tally_of_lost_beam S u hparams]
      have huncounted : Counters.beamFaultCounts fault = false := hbeam
      rw [huncounted]
      rfl

variable (S) in
/-- The counters of an engine that was set up from any configuration say of any session what
happened in it: how many requests of either kind there were, how many estimates there were by
each method, how many requests failed by a fault that counts, and at least how many results were
of the doubtful kinds.  A request that fails in another way leaves only its arrival behind,
wherever in a session it stands. -/
theorem session_accounts {config : Setting α} {u : Setup α} (hu : ofConfig config = .ok u)
    (rs : List (Request α)) :
    Accounts S u rs (session S u {} rs).2 ∧
    ∀ r e, answer S u r = .error e → failsToEstimate S u r = false → failsToBeam u r = false →
      ∀ c, (handle S u c r).2 = c.arrived r :=
  ⟨accounts_session (estimator_of_ofConfig hu) rs,
    fun _ _ h hestimate hbeam c => handle_of_uncounted S h hestimate hbeam c⟩

/-- Of three requests one is answered, by the configured method, and two fail in ways that count.
True angles that are no list fail in a way that does not. -/
theorem session_accounts_three :
    ofConfig (.table [] : Setting ℝ) = .ok Setup.standard ∧
    (session .ideal Setup.standard {} Request.three).2.doaRequests = 2 ∧
    (session .ideal Setup.standard {} Request.three).2.beamRequests = 1 ∧
    (session .ideal Setup.standard {} Request.three).2.byMethod.get .music = 1 ∧
    (session .ideal Setup.standard {} Request.three).2.errors = 2 ∧
    ∀ c, (handle .ideal Setup.standard c (.directions silence .nothing Request.ragged)).2 =
      { c with doaRequests := c.doaRequests + 1 } := by
  obtain ⟨haccounts, huncounted⟩ := session_accounts .ideal ofConfig_nil Request.three
  obtain ⟨e, he⟩ := exists_directions_silence .ideal
  have hunknown := directions_fourier .ideal
  have hunnamed : beam Setup.standard [] = .error (.missingSetting "element_count") := rfl
  have hsearched : answersBy .ideal Setup.standard .music (.directions silence .nothing .nothing) =
      true := by
    rw [answersBy, he]
    rfl
  have hunsearched : answersBy .ideal Setup.standard .music
      (.directions silence (.text "fourier") .nothing) = false := by
    rw [answersBy, hunknown]
    rfl
  have hlost : failsToEstimate .ideal Setup.standard
      (.directions silence (.text "fourier") .nothing) = true :=
    failsToEstimate_eq .ideal Setup.standard hunknown
  have hunbuilt : failsToBeam Setup.standard (.beam []) = true := by
    rw [failsToBeam, hunnamed]
    rfl
  have hragged := directions_ragged .ideal
  refine ⟨ofConfig_nil, haccounts.doaRequests, haccounts.beamRequests, ?_, ?_, ?_⟩
  · rw [haccounts.byMethod, Request.three, List.countP_cons, hsearched, List.countP_cons,
      hunsearched]
    rfl
  · rw [haccounts.errors, Request.three, List.countP_cons,
      failsToEstimate_eq_false .ideal Setup.standard he, List.countP_cons, hlost]
    simp only [List.countP_cons, hunbuilt]
    rfl
  · intro c
    refine huncounted (.directions silence .nothing Request.ragged) .shapesDisagree ?_ ?_ rfl c
    · rw [answer, hragged]
      rfl
    · exact failsToEstimate_eq .ideal Setup.standard hragged

end Engine

end PhasedArray
