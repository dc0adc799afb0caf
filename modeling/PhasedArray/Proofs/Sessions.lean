import Mathlib.Algebra.BigOperators.Group.List.Basic
import PhasedArray.Engine

set_option autoImplicit false

/-!
# Sessions (SPEC §4.9)

An engine answers each request from its setup alone; only the counters go from one request to
the next.  What a request adds to them does not depend on what they were (`handle_snd`), so the
counters of a session are a sum over its requests (`session_snd`).
-/

namespace PhasedArray.Engine

/-! ## Counters add up -/

attribute [ext] MethodCounts Counters

namespace MethodCounts

instance : Zero MethodCounts := ⟨{}⟩

instance : Add MethodCounts :=
  ⟨fun a b => ⟨a.music + b.music, a.esprit + b.esprit, a.tlsEsprit + b.tlsEsprit⟩⟩

@[simp] theorem get_zero (m : Method) : (0 : MethodCounts).get m = 0 := by cases m <;> rfl

@[simp] theorem get_add (a b : MethodCounts) (m : Method) : (a + b).get m = a.get m + b.get m := by
  cases m <;> rfl

/-- Counts that agree for every method are the same. -/
theorem ext_get {a b : MethodCounts} (h : ∀ m, a.get m = b.get m) : a = b :=
  MethodCounts.ext (h .music) (h .esprit) (h .tlsEsprit)

instance : AddCommMonoid MethodCounts where
  add_assoc a b c := ext_get fun m => by simp only [get_add, add_assoc]
  zero_add a := ext_get fun m => by simp
  add_zero a := ext_get fun m => by simp
  add_comm a b := ext_get fun m => by simp only [get_add, add_comm]
  nsmul := nsmulRec

/-- Counting one more estimate adds to the counts what it adds to none. -/
theorem bump_eq_add (c : MethodCounts) (m : Method) : c.bump m = c + (0 : MethodCounts).bump m := by
  apply ext_get
  intro k
  rw [get_add, get_bump, get_bump, get_zero]
  split_ifs <;> rfl

end MethodCounts

namespace Counters

instance : Zero Counters := ⟨{}⟩

instance : Add Counters :=
  ⟨fun a b =>
    { doaRequests := a.doaRequests + b.doaRequests
      beamRequests := a.beamRequests + b.beamRequests
      degenerate := a.degenerate + b.degenerate
      resolutionLimited := a.resolutionLimited + b.resolutionLimited
      notConverged := a.notConverged + b.notConverged
      errors := a.errors + b.errors
      byMethod := a.byMethod + b.byMethod }⟩

instance : AddCommMonoid Counters where
  add_assoc _ _ _ := Counters.ext (add_assoc _ _ _) (add_assoc _ _ _) (add_assoc _ _ _)
    (add_assoc _ _ _) (add_assoc _ _ _) (add_assoc _ _ _) (add_assoc _ _ _)
  zero_add _ := Counters.ext (zero_add _) (zero_add _) (zero_add _) (zero_add _) (zero_add _)
    (zero_add _) (zero_add _)
  add_zero _ := rfl
  add_comm _ _ := Counters.ext (add_comm _ _) (add_comm _ _) (add_comm _ _) (add_comm _ _)
    (add_comm _ _) (add_comm _ _) (add_comm _ _)
  nsmul := nsmulRec

theorem countIf_zero (p : Bool) : countIf p 0 = p.toNat := by cases p <;> rfl

theorem countIf_eq_add (p : Bool) (n : ℕ) : countIf p n = n + countIf p 0 := by cases p <;> rfl

variable {α : Type}

theorem recordDirections_eq_add (c : Counters) (outcome : Outcome α (Estimate α)) :
    c.recordDirections outcome = c + (0 : Counters).recordDirections outcome := by
  cases outcome with
  | error e =>
    apply Counters.ext
    case errors => exact countIf_eq_add _ _
    all_goals rfl
  | ok e =>
    apply Counters.ext
    case degenerate => exact countIf_eq_add _ _
    case resolutionLimited => exact countIf_eq_add _ _
    case byMethod => exact MethodCounts.bump_eq_add _ _
    all_goals rfl

theorem recordBeam_eq_add (c : Counters) (outcome : Outcome α (Beam α)) :
    c.recordBeam outcome = c + (0 : Counters).recordBeam outcome := by
  cases outcome with
  | error e =>
    apply Counters.ext
    case errors => exact countIf_eq_add _ _
    all_goals rfl
  | ok b =>
    apply Counters.ext
    case notConverged => exact countIf_eq_add _ _
    all_goals rfl

end Counters

/-! ## What each request adds -/

variable {α : Type} [Scalar α] (S : Solvers α) (u : Setup α)

/-- What a request adds to the counters. -/
def tally (r : Request α) : Counters := (handle S u 0 r).2

/-- A request adds the same to all counters. -/
theorem handle_snd (c : Counters) (r : Request α) : (handle S u c r).2 = c + tally S u r := by
  cases r with
  | directions snapshots method actual => exact c.recordDirections_eq_add _
  | beam params => exact c.recordBeam_eq_add _

/-- A session adds what its requests add. -/
theorem session_snd (c : Counters) (rs : List (Request α)) :
    (session S u c rs).2 = c + (rs.map (tally S u)).sum := by
  induction rs generalizing c with
  | nil => exact (add_zero c).symm
  | cons r rest ih =>
    have hrest := ih (handle S u c r).2
    rw [handle_snd, add_assoc] at hrest
    rw [List.map_cons, List.sum_cons, ← hrest, ← handle_snd]
    rfl

/-! ## Setups -/

variable {u}

theorem estimator_of_setup {array doa optimizer : Setting α}
    (h : setup array doa optimizer = .ok u) :
    Estimator.ofConfig u.geometry u.config none = .ok u.estimator := by
  simp only [setup, Outcome.bind_eq_ok] at h
  obtain ⟨_, -, g, -, _, -, c, -, _, -, _, -, o, -, E, hE, h⟩ := h
  cases h
  exact hE

/-- The estimator of an engine is the one of its configuration. -/
theorem estimator_of_ofConfig {config : Setting α} (h : ofConfig config = .ok u) :
    Estimator.ofConfig u.geometry u.config none = .ok u.estimator := by
  unfold ofConfig at h
  split at h
  · exact estimator_of_setup h
  · split_ifs at h
    exact estimator_of_setup h

/-- Made once or made anew, the estimator for a request is the same. -/
theorem estimatorFor_eq (hu : Estimator.ofConfig u.geometry u.config none = .ok u.estimator)
    (method : Setting α) :
    estimatorFor u method = Estimator.ofRequest u.geometry u.config method := by
  cases method with
  | nothing => exact hu.symm
  | _ => rfl

end PhasedArray.Engine
