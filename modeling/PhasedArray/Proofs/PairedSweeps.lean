import PhasedArray.Proofs.ReturningSweeps

set_option autoImplicit false

/-!
# Sweeps are paired and compositional (SPEC §4.6)

What a trial draws does not depend on what is made of it, so two estimators of one array are
given the same samples trial by trial and leave the stream in the same state (`Trials.paired`,
`Blocks.paired`).  A sweep over two lists of ratios goes on where the sweep over the first one
ended (`sweepInto_append`); if the lists have no ratio in common, neither touches the statistics
of the other (`sweepInto_keep`).
-/

namespace PhasedArray

open Extended

/-! ## Values that are kept -/

section PutBy

variable {κ υ : Type} {same : κ → κ → Bool} {key : κ}

/-- A value is put behind entries of other keys. -/
theorem putBy_append {kept : List (κ × υ)} (h : ∀ entry ∈ kept, same entry.1 key = false)
    (value : υ) (rest : List (κ × υ)) :
    putBy same key value (kept ++ rest) = kept ++ putBy same key value rest := by
  induction kept with
  | nil => rfl
  | cons entry kept ih =>
    have hother : same entry.1 key = false := h entry List.mem_cons_self
    rw [List.cons_append, putBy, hother, ih fun e he => h e (List.mem_cons_of_mem entry he)]
    rfl

/-- A key is one that was there, or the one that is put. -/
theorem fst_of_mem_putBy {value : υ} {entries : List (κ × υ)} {entry : κ × υ}
    (h : entry ∈ putBy same key value entries) :
    entry.1 ∈ entries.map Prod.fst ∨ entry.1 = key := by
  have hkeys := List.mem_map_of_mem (f := Prod.fst) h
  rw [map_fst_putBy] at hkeys
  split_ifs at hkeys
  · exact .inl hkeys
  · simpa using hkeys

end PutBy

namespace Evaluation

variable {α σ : Type} [Scalar α]

/-! ## Paired trials -/

section Paired

variable {S S' : Solvers α} {G : Generator α σ} {E E' : Estimator α} {g : Geometry α}

/-- Two runs of as many trials from one state draw the same samples, and end in one state. -/
theorem Trials.paired {scene : Scene α} {s t t' : σ} {ts ts' : List (Trial α g.size)}
    (h : Trials S G E g scene s ts t) (h' : Trials S' G E' g scene s ts' t')
    (hlength : ts.length = ts'.length) :
    ts.map Trial.samples = ts'.map Trial.samples ∧ t = t' := by
  induction h generalizing ts' with
  | done s =>
    cases h' with
    | done => exact ⟨rfl, rfl⟩
    | next => exact nomatch hlength
  | next drawn _ _ ih =>
    cases h' with
    | done => exact nomatch hlength
    | next drawn' _ others' =>
      cases drawn.symm.trans drawn'
      obtain ⟨hsamples, hstate⟩ := ih others' (Nat.succ.inj hlength)
      refine ⟨?_, hstate⟩
      rw [List.map_cons, List.map_cons, hsamples]

/-- The samples of a sweep, block by block and trial by trial. -/
def samplesOf {m : ℕ} (bs : List (Block α m)) : List (List (Samples α m)) :=
  bs.map fun b => b.trials.map Trial.samples

/-- Two runs through the same ratios from one state draw the same samples, and end in one
state. -/
theorem Blocks.paired {r : SweepRequest α} {count : ℕ} {ratios : List (Setting α)} {s t t' : σ}
    {bs bs' : List (Block α g.size)} (h : Blocks S G E g r count ratios s bs t)
    (h' : Blocks S' G E' g r count ratios s bs' t') : samplesOf bs = samplesOf bs' ∧ t = t' := by
  induction h generalizing bs' with
  | done s =>
    cases h' with
    | done => exact ⟨rfl, rfl⟩
  | next ran counted _ _ ih =>
    cases h' with
    | next ran' counted' _ others' =>
      obtain ⟨hsamples, rfl⟩ := ran.paired ran' (counted.trans counted'.symm)
      obtain ⟨hrest, hstate⟩ := ih others'
      refine ⟨?_, hstate⟩
      rw [samplesOf, List.map_cons, hsamples]
      exact congrArg _ hrest

end Paired

/-! ## Composed sweeps -/

section Composed

variable {S : Solvers α} {G : Generator α σ} {E : Estimator α} {r : SweepRequest α} {count : ℕ}
  {same : α → α → Bool}

/-- A sweep over two lists is the sweep over the first and then over the second. -/
theorem sweepInto_append (l₁ l₂ : List (Setting α)) (done : Sweep α) (s : σ) :
    sweepInto S G E r count same (l₁ ++ l₂) done s =
      match sweepInto S G E r count same l₁ done s with
      | (.error e, t) => (.error e, t)
      | (.ok done, t) => sweepInto S G E r count same l₂ done t := by
  induction l₁ generalizing done s with
  | nil => rfl
  | cons ratio rest ih =>
    simp only [List.cons_append, sweepInto]
    obtain ⟨outcome, t⟩ := trials S G E (r.sceneAt ratio) r.bound count {} s
    cases outcome with
    | error fault => rfl
    | ok tally =>
      cases ratio.toScalar "snr_db" with
      | error fault => rfl
      | ok x => exact ih _ t

/-- The entries of a sweep are of the ratios that there were and of those it ran through. -/
theorem fst_of_mem_sweepInto {ratios : List (Setting α)} {done result : Sweep α} {s t : σ}
    (h : sweepInto S G E r count same ratios done s = (.ok result, t)) {entry : α × SweepPoint α}
    (hentry : entry ∈ result) :
    entry.1 ∈ done.map Prod.fst ∨ ∃ ratio ∈ ratios, ratio.toScalar "snr_db" = .ok entry.1 := by
  induction ratios generalizing done s with
  | nil =>
    cases h
    exact .inl (List.mem_map_of_mem hentry)
  | cons ratio rest ih =>
    simp only [sweepInto] at h
    rcases htrials : trials S G E (r.sceneAt ratio) r.bound count {} s with ⟨outcome, s'⟩
    rw [htrials] at h
    cases outcome with
    | error fault => cases h
    | ok tally =>
      cases hread : ratio.toScalar "snr_db" with
      | error fault =>
        rw [hread] at h
        cases h
      | ok x =>
        rw [hread] at h
        rcases ih h with hdone | ⟨later, hlater, hvalue⟩
        · obtain ⟨old, hold, hkey⟩ := List.mem_map.mp hdone
          rcases fst_of_mem_putBy hold with hbefore | hnew
          · exact .inl (hkey ▸ hbefore)
          · refine .inr ⟨ratio, List.mem_cons_self, ?_⟩
            rw [hread, ← hkey, hnew]
        · exact .inr ⟨later, List.mem_cons_of_mem ratio hlater, hvalue⟩

/-- Entries of other ratios stay in front as they are. -/
theorem sweepInto_keep {ratios : List (Setting α)} {kept : Sweep α}
    (h : ∀ entry ∈ kept, ∀ ratio ∈ ratios, ∀ y, ratio.toScalar "snr_db" = .ok y →
      same entry.1 y = false) (done : Sweep α) (s : σ) :
    sweepInto S G E r count same ratios (kept ++ done) s =
      match sweepInto S G E r count same ratios done s with
      | (.error e, t) => (.error e, t)
      | (.ok done, t) => (.ok (kept ++ done), t) := by
  induction ratios generalizing done s with
  | nil => rfl
  | cons ratio rest ih =>
    simp only [sweepInto]
    obtain ⟨outcome, t⟩ := trials S G E (r.sceneAt ratio) r.bound count {} s
    cases outcome with
    | error fault => rfl
    | ok tally =>
      cases hread : ratio.toScalar "snr_db" with
      | error fault => rfl
      | ok y =>
        dsimp only
        rw [putBy_append fun entry hentry => h entry hentry ratio List.mem_cons_self y hread]
        exact ih (fun entry hentry later hlater =>
          h entry hentry later (List.mem_cons_of_mem ratio hlater)) _ t

/-- The request over other ratios. -/
def SweepRequest.over (r : SweepRequest α) (ratios : List (Setting α)) : SweepRequest α :=
  { r with ratios := .list ratios }

/-- What is wrong with a request beside its ratios is wrong with it over any others. -/
theorem checked_over (r : SweepRequest α) :
    (∃ fault, ∀ l, (r.over l).checked = .error fault) ∨ ∀ l, (r.over l).checked = .ok l := by
  unfold SweepRequest.checked SweepRequest.over
  dsimp only
  cases r.trials.toNumber "num_trials" with
  | error fault => exact .inl ⟨fault, fun _ => rfl⟩
  | ok n =>
    by_cases hbelow : n.belowOne
    · exact .inl ⟨.trialCount r.trials, fun _ => if_pos hbelow⟩
    · have hpass : ∀ (x : Outcome α (List (Setting α))),
          (if n.belowOne then (throw (.trialCount r.trials) : Outcome α PUnit) >>= fun _ => x
            else x) = x := fun x => if_neg hbelow
      cases hlength : r.angles.toLength "true_angles" with
      | error fault => exact .inl ⟨fault, fun l => hpass _⟩
      | ok length => exact .inr fun l => hpass _

theorem sweepInto_over (l ratios : List (Setting α)) (done : Sweep α) (s : σ) :
    sweepInto S G E (r.over l) count same ratios done s =
      sweepInto S G E r count same ratios done s := by
  induction ratios generalizing done s with
  | nil => rfl
  | cons ratio rest ih =>
    simp only [sweepInto, ih]
    rfl

/-- A number of trials that was written as a whole one is the number of trials at each ratio. -/
theorem sweep_over_of_count (hchecked : ∀ l, (r.over l).checked = .ok l)
    (hcount : r.trials.toCount "num_trials" = .ok count) (l : List (Setting α)) (s : σ) :
    sweep S G E (r.over l) same s = sweepInto S G E r count same l [] s := by
  unfold sweep
  rw [hchecked]
  cases l with
  | nil => rfl
  | cons ratio rest =>
    have hsame : (r.over (ratio :: rest)).trials.toCount "num_trials" = .ok count := hcount
    dsimp only
    rw [hsame]
    exact sweepInto_over _ _ _ _

/-- Any other is refused where there are ratios. -/
theorem sweep_over_of_refused (hchecked : ∀ l, (r.over l).checked = .ok l) {fault : Fault α}
    (hcount : r.trials.toCount "num_trials" = .error fault) (l : List (Setting α)) (s : σ) :
    sweep S G E (r.over l) same s = if l.isEmpty then (.ok [], s) else (.error fault, s) := by
  unfold sweep
  rw [hchecked]
  cases l with
  | nil => rfl
  | cons ratio rest =>
    have hsame : (r.over (ratio :: rest)).trials.toCount "num_trials" = .error fault := hcount
    dsimp only
    rw [hsame]
    rfl

/-- The entries of two sweeps, of which the second starts where the first leaves the stream. -/
def joined (first : Outcome α (Sweep α) × σ) (second : σ → Outcome α (Sweep α) × σ) :
    Outcome α (Sweep α) × σ :=
  match first with
  | (.error fault, t) => (.error fault, t)
  | (.ok done, t) =>
      match second t with
      | (.error fault, t) => (.error fault, t)
      | (.ok more, t) => (.ok (done ++ more), t)

omit [Scalar α] in
theorem joined_of_ok {first : Outcome α (Sweep α) × σ} {second : σ → Outcome α (Sweep α) × σ}
    {done more : Sweep α} {t t' : σ} (h : first = (.ok done, t))
    (h' : second t = (.ok more, t')) : joined first second = (.ok (done ++ more), t') := by
  rw [h, joined, h']

/-- A sweep over two lists without a common ratio is the sweep over the first, and from the state
that this leaves the sweep over the second. -/
theorem sweep_append {l₁ l₂ : List (Setting α)}
    (h : ∀ a ∈ l₁, ∀ b ∈ l₂, ∀ x y, a.toScalar "snr_db" = .ok x → b.toScalar "snr_db" = .ok y →
      same x y = false) (s : σ) :
    sweep S G E (r.over (l₁ ++ l₂)) same s =
      joined (sweep S G E (r.over l₁) same s) (sweep S G E (r.over l₂) same) := by
  rcases checked_over r with ⟨fault, hchecked⟩ | hchecked
  · unfold sweep
    simp only [hchecked]
    rfl
  unfold joined
  cases hcount : r.trials.toCount "num_trials" with
  | error fault =>
    simp only [sweep_over_of_refused hchecked hcount]
    cases l₁ <;> cases l₂ <;> rfl
  | ok count =>
    simp only [sweep_over_of_count hchecked hcount]
    rw [sweepInto_append]
    rcases hfirst : sweepInto S G E r count same l₁ [] s with ⟨_ | first, t⟩
    · rfl
    · have hkept : ∀ entry ∈ first, ∀ ratio ∈ l₂, ∀ y, ratio.toScalar "snr_db" = .ok y →
          same entry.1 y = false := by
        intro entry hentry ratio hratio y hy
        rcases fst_of_mem_sweepInto hfirst hentry with hnone | ⟨a, ha, hx⟩
        · exact absurd hnone List.not_mem_nil
        · exact h a ha ratio hratio _ y hx hy
      have hrest : sweepInto S G E r count same l₂ (first ++ []) t = _ :=
        sweepInto_keep hkept [] t
      rw [List.append_nil] at hrest
      exact hrest

end Composed

/-! ## Both -/

section Sweeps

variable {α σ : Type} [Scalar α]

/-- Sweeps are paired and compositional.  Two estimators of one array whose sweeps return, by
whatever solvers, go through blocks of trials in which they are given the same samples one by one,
and leave the stream in one state.  A sweep over two lists of ratios without a common one has the
entries of the sweep over the first and those of the sweep over the second from the state in which
the first leaves the stream, and it fails where one of them does. -/
theorem sweep_paired_append (G : Generator α σ) (g : Geometry α) (r : SweepRequest α)
    (same : α → α → Bool) (s : σ) :
    (∀ (S S' : Solvers α) (E E' : Estimator α), E.geometry = g → E'.geometry = g →
      ∀ done done' t t', sweep S G E r same s = (.ok done, t) →
        sweep S' G E' r same s = (.ok done', t') →
        t = t' ∧ ∃ ratios, r.checked = .ok ratios ∧ ∃ bs bs' : List (Block α g.size),
          Blocks S G E g r r.count ratios s bs t ∧ done = summary r.bound same [] bs ∧
          Blocks S' G E' g r r.count ratios s bs' t' ∧ done' = summary r.bound same [] bs' ∧
          samplesOf bs = samplesOf bs') ∧
    ∀ (S : Solvers α) (E : Estimator α) (l₁ l₂ : List (Setting α)), E.geometry = g →
      (∀ a ∈ l₁, ∀ b ∈ l₂, ∀ x y, a.toScalar "snr_db" = .ok x → b.toScalar "snr_db" = .ok y →
        same x y = false) →
      sweep S G E (r.over (l₁ ++ l₂)) same s =
        joined (sweep S G E (r.over l₁) same s) (sweep S G E (r.over l₂) same) := by
  constructor
  · intro S S' E E' hE hE' done done' t t' h h'
    obtain ⟨ratios, hratios, bs, hblocks, hdone⟩ := exists_blocks_of_sweep hE h
    obtain ⟨ratios', hratios', bs', hblocks', hdone'⟩ := exists_blocks_of_sweep hE' h'
    cases hratios.symm.trans hratios'
    obtain ⟨hsamples, hstate⟩ := hblocks.paired hblocks'
    exact ⟨hstate, ratios, hratios, bs, bs', hblocks, hdone, hblocks', hdone', hsamples⟩
  · intro S E l₁ l₂ _ hdisjoint
    exact sweep_append hdisjoint s

/-- Two searches of one small array, of which one averages the covariance, are given the same
samples; and a sweep over two ratios is the sweep over one and then over the other. -/
theorem sweep_paired_append_small :
    (∃ done done' t, ∃ bs bs' : List (Block Extended Geometry.small.size),
      sweep Solvers.ideal.extended zeros .small (smallRequest [0, 10]) sameOrUndefined 0 =
          (.ok done, t) ∧
        sweep Solvers.ideal.extended zeros .smallAveraged (smallRequest [0, 10])
          sameOrUndefined 0 = (.ok done', t) ∧
        done = summary (smallRequest [0, 10]).bound sameOrUndefined [] bs ∧
        done' = summary (smallRequest [0, 10]).bound sameOrUndefined [] bs' ∧
        samplesOf bs = samplesOf bs') ∧
    ∃ first second t t',
      sweep Solvers.ideal.extended zeros .small (smallRequest [0]) sameOrUndefined 0 =
          (.ok first, t) ∧
        sweep Solvers.ideal.extended zeros .small (smallRequest [10]) sameOrUndefined t =
          (.ok second, t') ∧
        sweep Solvers.ideal.extended zeros .small (smallRequest [0, 10]) sameOrUndefined 0 =
          (.ok (first ++ second), t') := by
  let S := Solvers.ideal.extended
  obtain ⟨hpaired, happend⟩ :=
    sweep_paired_append zeros .small (smallRequest [0, 10]) sameOrUndefined 0
  constructor
  · obtain ⟨done, t, h⟩ := exists_sweep_small S (E := .small) rfl rfl [0, 10] sameOrUndefined 0
    obtain ⟨done', t', h'⟩ :=
      exists_sweep_small S (E := .smallAveraged) rfl rfl [0, 10] sameOrUndefined 0
    obtain ⟨rfl, -, -, bs, bs', -, hdone, -, hdone', hsamples⟩ :=
      hpaired S S .small .smallAveraged rfl rfl done done' t t' h h'
    exact ⟨done, done', t, bs, bs', h, h', hdone, hdone', hsamples⟩
  · obtain ⟨first, t, hfirst⟩ := exists_sweep_small S (E := .small) rfl rfl [0] sameOrUndefined 0
    obtain ⟨second, t', hsecond⟩ :=
      exists_sweep_small S (E := .small) rfl rfl [10] sameOrUndefined t
    have hother : sameOrUndefined (finite 0) (finite 10) = false := by
      simp [sameOrUndefined, Scalar.same, Scalar.isNaN]
    have hboth := happend S .small [.real (finite 0)] [.real (finite 10)] rfl (by
      intro a ha b hb x y hx hy
      cases List.mem_singleton.mp ha
      cases List.mem_singleton.mp hb
      cases hx
      cases hy
      exact hother)
    exact ⟨first, second, t, t', hfirst, hsecond, hboth.trans (joined_of_ok hfirst hsecond)⟩

end Sweeps

end Evaluation

end PhasedArray
