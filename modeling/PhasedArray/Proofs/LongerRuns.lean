import PhasedArray.Proofs.MonotoneAscent

set_option autoImplicit false

/-!
# Longer runs (SPEC §4.8)

Neither the budget nor the threshold has a part in a step: they say when a run ends.  So a run
with a larger budget is the run with the smaller one, which goes on from there unless it has
converged (`Run.climb_add`), and a run toward a higher threshold does not end before the one
toward the lower threshold does (`Run.isPrefix_of_le`).  What a run goes on from stays a prefix of
its history, and the best weights are only ever replaced by better ones (`Run.Extends`).

None of this is about exact arithmetic.  It holds over any scalars whose order is transitive.
-/

namespace PhasedArray

/-! ## What one iteration adds -/

namespace Run

variable {α : Type} [Scalar α] {m k : ℕ} {A : Ascent α m k}

/-- The state `next` goes on from the state `run`: it has a longer history, and as good or better
weights. -/
structure Extends (run next : Run α m) : Prop where
  history : run.history <+: next.history
  best : next.best = run.best ∧ next.bestObjective = run.bestObjective ∨
    run.bestObjective < next.bestObjective

theorem Extends.refl (run : Run α m) : run.Extends run where
  history := List.prefix_rfl
  best := .inl ⟨rfl, rfl⟩

theorem Extends.trans [IsTrans α (· < ·)] {r₁ r₂ r₃ : Run α m} (h : r₁.Extends r₂)
    (h' : r₂.Extends r₃) : r₁.Extends r₃ where
  history := h.history.trans h'.history
  best := by
    rcases h'.best with ⟨hbest, hobjective⟩ | hgreater
    · rw [hbest, hobjective]
      exact h.best
    · right
      rcases h.best with ⟨-, hobjective⟩ | hgreater'
      · rwa [← hobjective]
      · exact IsTrans.trans _ _ _ hgreater' hgreater

theorem extends_extend (A : Ascent α m k) (i : ℕ) (run : Run α m) (w : Vector (Cplx α) m) :
    run.Extends (run.extend A i w) where
  history := by
    rw [extend_history]
    exact List.prefix_append _ _
  best := by
    unfold extend
    by_cases hgreater : run.bestObjective < A.objective w
    · rw [if_pos hgreater]
      exact .inr hgreater
    · rw [if_neg hgreater]
      exact .inl ⟨rfl, rfl⟩

/-- What a state says of itself: there is one response for each iteration, and the best objective
is that of the best weights. -/
structure IsConsistent (A : Ascent α m k) (run : Run α m) : Prop where
  iterations : run.iterations = run.history.length
  bestObjective : run.bestObjective = A.objective run.best

theorem isConsistent_start (A : Ascent α m k) (w : Vector (Cplx α) m) :
    (start A w).IsConsistent A := ⟨rfl, rfl⟩

theorem IsConsistent.extend {run : Run α m} (h : run.IsConsistent A) (w : Vector (Cplx α) m) :
    (run.extend A run.iterations w).IsConsistent A where
  iterations := by
    rw [extend_iterations, extend_history, List.length_append, List.length_singleton,
      h.iterations]
  bestObjective := by
    unfold Run.extend
    by_cases hgreater : run.bestObjective < A.objective w
    · rw [if_pos hgreater]
    · rw [if_neg hgreater]
      exact h.bestObjective

/-! ## What a run adds -/

/-- A run that is resumed in a consistent state and may take `budget` more iterations. -/
structure Resumes (A : Ascent α m k) (budget : ℕ) (run : Run α m) (f : Finished α m) : Prop where
  goesOn : run.Extends f.run
  isConsistent : f.run.IsConsistent A
  within : f.run.history.length ≤ run.history.length + budget
  exhausted : f.converged = false → f.run.history.length = run.history.length + budget

section Climb

variable {t : α} {budget : ℕ} {run : Run α m} {f : Finished α m}

/-- A run with budget left takes a step, and then it has converged or goes on. -/
theorem climb_succ_eq_ok (h : climb A t (budget + 1) run.iterations run = .ok f) :
    ∃ w, A.advance run.iterations run.weights = .ok w ∧
      (t ≤ A.targetResponse w ∧ f = ⟨run.extend A run.iterations w, true⟩ ∨
        ¬ t ≤ A.targetResponse w ∧ climb A t budget
          (run.extend A run.iterations w).iterations (run.extend A run.iterations w) = .ok f) := by
  rw [climb] at h
  cases hadvance : A.advance run.iterations run.weights with
  | error e =>
    rw [hadvance] at h
    cases h
  | ok w =>
    rw [hadvance] at h
    dsimp only at h
    refine ⟨w, rfl, ?_⟩
    by_cases hreached : t ≤ A.targetResponse w
    · rw [if_pos hreached] at h
      exact .inl ⟨hreached, (Except.ok.inj h).symm⟩
    · rw [if_neg hreached] at h
      rw [extend_iterations]
      exact .inr ⟨hreached, h⟩

theorem resumes_of_climb [IsTrans α (· < ·)] (hrun : run.IsConsistent A)
    (h : climb A t budget run.iterations run = .ok f) : Resumes A budget run f := by
  induction budget generalizing run with
  | zero =>
    cases h
    exact ⟨.refl run, hrun, le_rfl, fun _ => rfl⟩
  | succ budget ih =>
    obtain ⟨w, -, ⟨-, rfl⟩ | ⟨-, hrest⟩⟩ := climb_succ_eq_ok h
    · refine ⟨extends_extend A _ run w, hrun.extend w, ?_, nofun⟩
      rw [extend_history, List.length_append, List.length_singleton]
      omega
    · have hnext := ih (hrun.extend w) hrest
      have hlength : (run.extend A run.iterations w).history.length + budget =
          run.history.length + (budget + 1) := by
        rw [extend_history, List.length_append, List.length_singleton]
        omega
      refine ⟨(extends_extend A _ run w).trans hnext.goesOn, hnext.isConsistent, ?_, ?_⟩
      · rw [← hlength]
        exact hnext.within
      · rw [← hlength]
        exact hnext.exhausted

end Climb

/-! ## Two runs -/

/-- A run with a larger budget is the run with the smaller one, which goes on unless it has
converged. -/
theorem climb_add (A : Ascent α m k) (t : α) (budget more i : ℕ) (run : Run α m) :
    climb A t (budget + more) i run = climb A t budget i run >>= fun f =>
      if f.converged then .ok f else climb A t more (i + budget) f.run := by
  induction budget generalizing i run with
  | zero =>
    rw [Nat.zero_add]
    rfl
  | succ budget ih =>
    rw [Nat.add_right_comm, climb, climb]
    cases A.advance i run.weights with
    | error e => rfl
    | ok w =>
      dsimp only
      by_cases hreached : t ≤ A.targetResponse w
      · rw [if_pos hreached, if_pos hreached]
        rfl
      · rw [if_neg hreached, if_neg hreached, ih, Nat.add_right_comm i 1, Nat.add_assoc i]

/-- A run toward a higher threshold does not end before the one toward the lower threshold. -/
theorem isPrefix_of_le [IsTrans α (· < ·)] [IsTrans α (· ≤ ·)] {t t' : α} (hle : t ≤ t')
    {budget : ℕ} {run : Run α m} (hrun : run.IsConsistent A) {f f' : Finished α m}
    (h : climb A t budget run.iterations run = .ok f)
    (h' : climb A t' budget run.iterations run = .ok f') :
    f.run.history <+: f'.run.history := by
  induction budget generalizing run with
  | zero =>
    cases h
    cases h'
    exact List.prefix_rfl
  | succ budget ih =>
    obtain ⟨w, hw, ⟨hreached, rfl⟩ | ⟨hbelow, hrest⟩⟩ := climb_succ_eq_ok h
    · obtain ⟨w', hw', ⟨-, rfl⟩ | ⟨-, hrest'⟩⟩ := climb_succ_eq_ok h'
      · cases hw.symm.trans hw'
        exact List.prefix_rfl
      · cases hw.symm.trans hw'
        exact (resumes_of_climb (hrun.extend w) hrest').goesOn.history
    · obtain ⟨w', hw', ⟨hreached', -⟩ | ⟨-, hrest'⟩⟩ := climb_succ_eq_ok h'
      · cases hw.symm.trans hw'
        exact absurd (IsTrans.trans _ _ _ hle hreached') hbelow
      · cases hw.symm.trans hw'
        exact ih (hrun.extend w) hrest hrest'

end Run

/-! ## Runs of plans -/

namespace Plan

variable {α : Type} [Scalar α] {p : Plan α}

/-- With a larger budget a run is the same if it converged, and else goes on. -/
theorem run_of_larger_budget [IsTrans α (· < ·)] {n n' : ℕ} (hle : n ≤ n')
    {f f' : Finished α p.geometry.size} (h : { p with budget := n }.run = .ok f)
    (h' : { p with budget := n' }.run = .ok f') :
    f.run.IsConsistent p.ascent ∧ f'.run.IsConsistent p.ascent ∧
      f.run.history = f'.run.history.take n ∧ (f.converged = true → f' = f) ∧
      (f.converged = false → f.run.Extends f'.run) := by
  have hstart := Run.isConsistent_start p.ascent p.start
  cases ht : p.threshold.toNumber "snr_threshold" with
  | error e =>
    -- without iterations nothing comes after the start
    obtain ⟨rfl, rfl⟩ := eq_start_of_run (p := { p with budget := n }) ht h
    obtain ⟨rfl, rfl⟩ := eq_start_of_run (p := { p with budget := n' }) ht h'
    exact ⟨hstart, hstart, rfl, fun _ => rfl, fun _ => .refl _⟩
  | ok t =>
    rw [run_eq_climbFrom (p := { p with budget := n }) ht] at h
    rw [run_eq_climbFrom (p := { p with budget := n' }) ht] at h'
    have hfirst := Run.resumes_of_climb hstart h
    have hsecond := Run.resumes_of_climb hstart h'
    obtain ⟨more, rfl⟩ := Nat.exists_eq_add_of_le hle
    have hrest : (if f.converged then .ok f
        else Run.climb p.ascent t.value more (0 + n) f.run) = .ok f' := by
      have hboth := h'
      rw [Run.climbFrom, Run.climb_add] at hboth
      obtain ⟨f₁, hf₁, hrest⟩ := Outcome.bind_eq_ok.mp hboth
      cases h.symm.trans hf₁
      exact hrest
    refine ⟨hfirst.isConsistent, hsecond.isConsistent, ?_⟩
    cases hconverged : f.converged with
    | true =>
      rw [hconverged] at hrest
      cases hrest
      refine ⟨(List.take_of_length_le ?_).symm, fun _ => rfl, nofun⟩
      exact hfirst.within.trans_eq (Nat.zero_add n)
    | false =>
      have hlength : f.run.history.length = 0 + n := hfirst.exhausted hconverged
      rw [hconverged, ← hlength, ← hfirst.isConsistent.iterations] at hrest
      have hgoesOn := (Run.resumes_of_climb hfirst.isConsistent hrest).goesOn
      refine ⟨?_, nofun, fun _ => hgoesOn⟩
      rw [List.prefix_iff_eq_take.mp hgoesOn.history, hlength, Nat.zero_add]

/-- Toward a higher threshold a run takes as many iterations or more. -/
theorem run_of_higher_threshold [IsTrans α (· < ·)] [IsTrans α (· ≤ ·)] {s s' : Setting α}
    {t t' : Number α} (ht : s.toNumber "snr_threshold" = .ok t)
    (ht' : s'.toNumber "snr_threshold" = .ok t') (hle : t.value ≤ t'.value)
    {f f' : Finished α p.geometry.size} (h : { p with threshold := s }.run = .ok f)
    (h' : { p with threshold := s' }.run = .ok f') :
    f.run.IsConsistent p.ascent ∧ f'.run.IsConsistent p.ascent ∧
      f.run.history <+: f'.run.history := by
  have hstart := Run.isConsistent_start p.ascent p.start
  rw [run_eq_climbFrom (p := { p with threshold := s }) ht] at h
  rw [run_eq_climbFrom (p := { p with threshold := s' }) ht'] at h'
  have hfirst := Run.resumes_of_climb hstart h
  have hsecond := Run.resumes_of_climb hstart h'
  exact ⟨hfirst.isConsistent, hsecond.isConsistent, Run.isPrefix_of_le hle hstart h h'⟩

end Plan

/-! ## Beams -/

namespace Optimizer

variable {α : Type} [Scalar α] {o : Optimizer α} {r : BeamRequest α}

/-- A request with another budget has a plan with another budget. -/
theorem plan_with_budget {p p' : Plan α} (h : o.plan r = .ok p) {b : Setting α}
    (h' : o.plan { r with budget := b } = .ok p') : p' = { p with budget := p'.budget } := by
  have hanswers := plan_eq_ok_iff.mp h
  have hanswers' := plan_eq_ok_iff.mp h'
  have hread : o.plan { r with budget := b } = .ok { p with budget := p'.budget } :=
    plan_eq_ok_iff.mpr { hanswers with limit := hanswers'.limit, budget := hanswers'.budget }
  exact Except.ok.inj (h'.symm.trans hread)

/-- A request with another threshold has a plan with another threshold. -/
theorem plan_with_threshold {p : Plan α} (h : o.plan r = .ok p) (s : Setting α) :
    o.plan { r with threshold := s } = .ok { p with threshold := s.orElse o.threshold } :=
  plan_eq_ok_iff.mpr { plan_eq_ok_iff.mp h with threshold := rfl }

/-- A larger budget or a higher threshold only extends a run, over any scalars whose order is
transitive.

Of two beams whose requests differ in their budgets `n ≤ n'`, the first has the first `n` responses
of the second.  If it converged, the second is the same beam; if neither did, the second has the
weights of the first or weights of a greater objective.  Of two beams whose requests differ in
their thresholds, the history of the one with the lower threshold is a prefix of that of the other,
so it has no more iterations. -/
theorem optimize_goes_on [IsTrans α (· < ·)] [IsTrans α (· ≤ ·)] (o : Optimizer α)
    (r : BeamRequest α) {beam : Beam α} (h : o.optimize r = .ok beam) :
    (∀ (b : Setting α) (beam' : Beam α) (n n' : ℕ),
      o.optimize { r with budget := b } = .ok beam' →
      (r.budget.orElse o.budget).toCount "max_iterations" = .ok n →
      (b.orElse o.budget).toCount "max_iterations" = .ok n' → n ≤ n' →
      beam.history = beam'.history.take n ∧
      (beam.converged = true → beam' = beam) ∧
      (beam.converged = false → beam'.converged = false →
        ∃ p w w', o.plan r = .ok p ∧ beam.weights = w.toList ∧ beam'.weights = w'.toList ∧
          (w' = w ∨ p.ascent.objective w < p.ascent.objective w'))) ∧
    ∀ (s : Setting α) (beam' : Beam α) (t t' : Number α),
      o.optimize { r with threshold := s } = .ok beam' →
      (r.threshold.orElse o.threshold).toNumber "snr_threshold" = .ok t →
      (s.orElse o.threshold).toNumber "snr_threshold" = .ok t' → t.value ≤ t'.value →
      beam.history <+: beam'.history ∧ beam.iterations ≤ beam'.iterations := by
  obtain ⟨p, hp, f, hf, pattern, hpattern, rfl⟩ := optimize_eq_ok_iff.mp h
  have hanswers := plan_eq_ok_iff.mp hp
  constructor
  · intro b beam' n n' h' hn hn' hle
    obtain ⟨p', hp', f', hf', pattern', hpattern', rfl⟩ := optimize_eq_ok_iff.mp h'
    obtain rfl : p.budget = n := Except.ok.inj (hanswers.budget.symm.trans hn)
    obtain rfl : p'.budget = n' :=
      Except.ok.inj ((plan_eq_ok_iff.mp hp').budget.symm.trans hn')
    obtain ⟨budget', hbudget'⟩ : ∃ budget', budget' = p'.budget := ⟨_, rfl⟩
    have hplan := plan_with_budget hp hp'
    rw [← hbudget'] at hplan hle
    subst hplan
    obtain ⟨hfirst, hsecond, hhistory, hconverged, hextends⟩ :=
      Plan.run_of_larger_budget (p := p) hle hf hf'
    refine ⟨hhistory, ?_, ?_⟩
    · intro hc
      obtain rfl := hconverged hc
      cases hpattern.symm.trans hpattern'
      rfl
    · intro hc hc'
      have hbest : f.weights = f.run.best := if_neg (Bool.eq_false_iff.mp hc)
      have hbest' : f'.weights = f'.run.best := if_neg (Bool.eq_false_iff.mp hc')
      refine ⟨p, f.weights, f'.weights, hp, rfl, rfl, ?_⟩
      rw [hbest, hbest', ← hfirst.bestObjective, ← hsecond.bestObjective]
      exact (hextends hc).best.imp_left And.left
  · intro s beam' t t' h' ht ht' hle
    obtain ⟨p', hp', f', hf', pattern', -, rfl⟩ := optimize_eq_ok_iff.mp h'
    cases hp'.symm.trans (plan_with_threshold hp s)
    have hthreshold : p.threshold = r.threshold.orElse o.threshold := hanswers.threshold
    obtain ⟨hfirst, hsecond, hinitial⟩ :=
      Plan.run_of_higher_threshold (p := p) (hthreshold ▸ ht) ht' hle hf hf'
    refine ⟨hinitial, ?_⟩
    change f.run.iterations ≤ f'.run.iterations
    rw [hfirst.iterations, hsecond.iterations]
    exact hinitial.length_le

/-- A gentle run of two elements with an interferer, of three and of seven iterations and toward
two thresholds. -/
theorem optimize_goes_on_pair :
    ∃ first longer higher,
      (ofRates 0.1 0.5).optimize (.pair [-(Real.pi / 2)] 1.3 3) = .ok first ∧
      (ofRates 0.1 0.5).optimize (.pair [-(Real.pi / 2)] 1.3 7) = .ok longer ∧
      (ofRates 0.1 0.5).optimize (.pair [-(Real.pi / 2)] 1.4 3) = .ok higher ∧
      first.history = longer.history.take 3 ∧ (first.converged = true → longer = first) ∧
      first.history <+: higher.history ∧ first.iterations ≤ higher.iterations := by
  have hstep : (0 : ℝ) < 0.1 := by norm_num
  have hcharge : (0 : ℝ) ≤ 0.5 := by norm_num
  have hsmall : (0.1 : ℝ) * 0.5 * (2 : ℕ) * (1 : ℕ) < 1 := by norm_num
  have hthresholds : (1.3 : ℝ) ≤ 1.4 := by norm_num
  have hbeam : ∀ threshold budget, ∃ beam,
      (ofRates 0.1 0.5).optimize (.pair [-(Real.pi / 2)] threshold budget) = .ok beam := by
    intro threshold budget
    have hplan := Plan.pair_isMadeBy [-(Real.pi / 2)] threshold budget hstep hcharge
    exact hplan.exists_optimize (t := .real threshold) (hplan.isGentle hsmall) rfl
      (ofRates_grid 0.1 0.5)
  obtain ⟨first, hfirst⟩ := hbeam 1.3 3
  obtain ⟨longer, hlonger⟩ := hbeam 1.3 7
  obtain ⟨higher, hhigher⟩ := hbeam 1.4 3
  obtain ⟨hbudget, hthreshold⟩ := optimize_goes_on (ofRates 0.1 0.5)
    (.pair [-(Real.pi / 2)] 1.3 3) hfirst
  obtain ⟨hhistory, hsame, -⟩ :=
    hbudget (.whole 7) longer 3 7 hlonger rfl rfl (Nat.le_of_ble_eq_true rfl)
  obtain ⟨hinitial, hiterations⟩ :=
    hthreshold (.real 1.4) higher (.real 1.3) (.real 1.4) hhigher rfl rfl hthresholds
  exact ⟨first, longer, higher, hfirst, hlonger, hhigher, hhistory, hsame, hinitial, hiterations⟩

end Optimizer

end PhasedArray
