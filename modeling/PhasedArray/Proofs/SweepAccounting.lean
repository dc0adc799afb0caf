import PhasedArray.Proofs.ReturningSweeps

set_option autoImplicit false

/-!
# What a sweep reports (SPEC §4.6)

A sweep has one entry for each distinct ratio, in the order in which the ratios first occur, and
the entry holds the statistics of the last block of trials at its ratio.  These account for every
trial of the block: each is degenerate or has an error, and the errors below the threshold are
the successes.  Against true angles in another number than there are sources, no trial succeeds
and the mean error is infinite, unless every trial is degenerate and there is none.
-/

namespace PhasedArray

open Extended

/-! ## Values that are put by key -/

section PutBy

variable {κ υ : Type} {same : κ → κ → Bool}

/-- Keys of which none is the same as an earlier one. -/
def Apart (same : κ → κ → Bool) (keys : List κ) : Prop :=
  keys.Pairwise fun x y => same x y = false

/-- Puts values one after the other. -/
def putAll (same : κ → κ → Bool) (done : List (κ × υ)) (entries : List (κ × υ)) :
    List (κ × υ) :=
  entries.foldl (fun done entry => putBy same entry.1 entry.2 done) done

theorem apart_putBy {key : κ} {value : υ} {done : List (κ × υ)}
    (h : Apart same (done.map Prod.fst)) :
    Apart same ((putBy same key value done).map Prod.fst) := by
  rw [map_fst_putBy]
  split_ifs with hany
  · exact h
  · refine List.pairwise_append.mpr ⟨h, List.pairwise_singleton _ _, ?_⟩
    intro x hx y hy
    obtain ⟨entry, hentry, rfl⟩ := List.mem_map.mp hx
    rw [List.mem_singleton.mp hy, ← Bool.not_eq_true]
    exact fun hsame => hany (List.any_eq_true.mpr ⟨entry, hentry, hsame⟩)

/-- The keys are those there were and, each where it occurs first, the distinct ones among the
others. -/
theorem map_fst_putAll (done entries : List (κ × υ)) :
    (putAll same done entries).map Prod.fst =
      done.map Prod.fst ++ ((entries.map Prod.fst).filter fun x =>
        !(done.map Prod.fst).any fun key => same key x).eraseDupsBy fun later earlier =>
          same earlier later := by
  induction entries generalizing done with
  | nil => exact (List.append_nil _).symm
  | cons entry rest ih =>
    have hstep : putAll same done (entry :: rest) =
        putAll same (putBy same entry.1 entry.2 done) rest := rfl
    have hany : (done.map Prod.fst).any (fun key => same key entry.1) =
        done.any fun e => same e.1 entry.1 := List.any_map ..
    rw [hstep, ih, map_fst_putBy, List.map_cons]
    split_ifs with hold
    · rw [List.filter_cons_of_neg (by rw [hany, hold]; exact Bool.false_ne_true)]
    · rw [Bool.not_eq_true] at hold
      rw [List.filter_cons_of_pos (by rw [hany, hold]; rfl), List.eraseDupsBy_cons,
        List.append_assoc, List.singleton_append, List.filter_filter]
      congr 4
      funext x
      rw [List.any_append, List.any_cons, List.any_nil, Bool.or_false, Bool.not_or, Bool.and_comm]
      cases same entry.1 x <;> rfl

variable (heq : ∀ {x y : κ}, same x y = true → x = y)

include heq

/-- An entry is the one that is put, or one that was there under another key. -/
theorem mem_putBy {key : κ} {value : υ} {done : List (κ × υ)}
    (h : Apart same (done.map Prod.fst)) {entry : κ × υ}
    (hentry : entry ∈ putBy same key value done) :
    entry ∈ done ∧ same entry.1 key = false ∨ entry = (key, value) := by
  induction done with
  | nil => exact .inr (List.mem_singleton.mp hentry)
  | cons first rest ih =>
    obtain ⟨hfirst, hrest⟩ := List.pairwise_cons.mp h
    rw [putBy] at hentry
    split_ifs at hentry with hsame
    · rcases List.mem_cons.mp hentry with rfl | hlater
      · exact .inr (by rw [heq hsame])
      · refine .inl ⟨List.mem_cons_of_mem _ hlater, ?_⟩
        rw [← Bool.not_eq_true]
        intro hagain
        have hother := hfirst entry.1 (List.mem_map_of_mem hlater)
        rw [heq hagain, hsame] at hother
        exact absurd hother.symm Bool.false_ne_true
    · rcases List.mem_cons.mp hentry with rfl | hlater
      · exact .inl ⟨List.mem_cons_self, Bool.not_eq_true _ ▸ hsame⟩
      · exact (ih hrest hlater).imp_left fun h => ⟨List.mem_cons_of_mem _ h.1, h.2⟩

/-- An entry is the last that is put under its key, or was there before and no other is. -/
theorem mem_putAll {done entries : List (κ × υ)} (h : Apart same (done.map Prod.fst))
    {entry : κ × υ} (hentry : entry ∈ putAll same done entries) :
    (entry ∈ done ∧ ∀ later ∈ entries, same entry.1 later.1 = false) ∨
      ∃ before after, entries = before ++ entry :: after ∧
        ∀ later ∈ after, same entry.1 later.1 = false := by
  induction entries generalizing done with
  | nil => exact .inl ⟨hentry, fun _ hlater => absurd hlater List.not_mem_nil⟩
  | cons next rest ih =>
    have hstep : entry ∈ putAll same (putBy same next.1 next.2 done) rest := hentry
    rcases ih (apart_putBy h) hstep with ⟨hbefore, hlater⟩ | ⟨before, after, rfl, hlater⟩
    · rcases mem_putBy heq h hbefore with ⟨hdone, hnext⟩ | rfl
      · exact .inl ⟨hdone, List.forall_mem_cons.mpr ⟨hnext, hlater⟩⟩
      · exact .inr ⟨[], rest, rfl, hlater⟩
    · exact .inr ⟨next :: before, after, rfl, hlater⟩

end PutBy

/-! ## Errors as numbers -/

namespace AngleError

/-- An error is below a bound if its number is: an infinite one is below none. -/
theorem below_eq (bound : Extended) (error : AngleError Extended) :
    error.below bound = decide (error.value < bound) := by
  cases error with
  | rms x => rfl
  | unmatched =>
    have hnot : ¬ infinite false < bound := by
      rintro ⟨hle, hnle⟩
      cases bound with
      | finite x => exact hle
      | infinite s =>
        cases s with
        | false => exact hnle hle
        | true => exact hle
      | undefined => exact hle
    rw [value_unmatched, decide_eq_false hnot]
    rfl

variable {α : Type} [Scalar α]

theorem mean_map_rms (xs : List α) : mean (xs.map rms) = .rms (Scalar.mean xs) := by
  have hvalues : (xs.map rms).mapM value? = some xs := by
    induction xs with
    | nil => rfl
    | cons x xs ih =>
      rw [List.map_cons, List.mapM_cons, ih]
      rfl
  rw [mean, hvalues]

theorem mean_of_mem_unmatched {errors : List (AngleError α)} (h : .unmatched ∈ errors) :
    mean errors = .unmatched := by
  have hvalues : errors.mapM value? = none := by
    induction errors with
    | nil => exact absurd h List.not_mem_nil
    | cons error rest ih =>
      rw [List.mapM_cons]
      rcases List.mem_cons.mp h with rfl | hrest
      · rfl
      · rw [ih hrest]
        cases error <;> rfl
  rw [mean, hvalues]

end AngleError

namespace Extended

/-- Infinite values have an infinite mean. -/
theorem mean_infinite {xs : List Extended} (h : ∀ x ∈ xs, x = infinite false) (hne : xs ≠ []) :
    Scalar.mean xs = infinite false := by
  have hlength : (0 : ℝ) < xs.length := Nat.cast_pos.mpr (List.length_pos_of_ne_nil hne)
  have hsum : Scalar.sum xs = infinite false := by
    obtain ⟨x, rest, rfl⟩ := List.exists_cons_of_ne_nil hne
    obtain ⟨rfl, hrest⟩ := List.forall_mem_cons.mp h
    have hfold : ∀ l : List Extended, (∀ y ∈ l, y = infinite false) →
        l.foldl (· + ·) (infinite false) = infinite false := by
      intro l hl
      induction l with
      | nil => rfl
      | cons y l ih =>
        obtain ⟨rfl, htail⟩ := List.forall_mem_cons.mp hl
        exact ih htail
    exact hfold rest hrest
  rw [Scalar.mean, hsum, ofNat_eq, infinite_div false hlength]

end Extended

namespace AngleError

variable {errors : List (AngleError Extended)}

/-- Finite errors have the mean of their numbers. -/
theorem value_mean_of_rms (h : ∀ error ∈ errors, ∃ r : ℝ, rms (finite r) = error)
    (hne : errors ≠ []) :
    (mean errors).value = Scalar.mean (errors.map value) ∧
      ∃ r : ℝ, Scalar.mean (errors.map value) = finite r := by
  have hrange : errors ∈ Set.range (List.map fun r : ℝ => rms (finite r)) := by
    rw [Set.range_list_map]
    exact h
  obtain ⟨rs, rfl⟩ := hrange
  have hrs : rs ≠ [] := by
    rintro rfl
    exact hne rfl
  have hvalues : (rs.map fun r => rms (finite r)).map value = rs.map finite := List.map_map
  have hmean : mean (rs.map fun r => rms (finite r)) = .rms (Scalar.mean (rs.map finite)) := by
    rw [← mean_map_rms, List.map_map]
    rfl
  rw [hvalues, hmean]
  exact ⟨rfl, _, mean_map_finite hrs⟩

/-- Errors of unmatched sets have an infinite mean, and so have their numbers. -/
theorem value_mean_of_unmatched (h : ∀ error ∈ errors, error = unmatched) (hne : errors ≠ []) :
    (mean errors).value = infinite false ∧ Scalar.mean (errors.map value) = infinite false := by
  constructor
  · obtain ⟨error, herror⟩ := List.exists_mem_of_ne_nil errors hne
    rw [mean_of_mem_unmatched (h error herror ▸ herror), value_unmatched]
  · refine mean_infinite ?_ fun hnil => hne (List.map_eq_nil_iff.mp hnil)
    intro x hx
    obtain ⟨error, herror, rfl⟩ := List.mem_map.mp hx
    rw [h error herror, value_unmatched]

end AngleError

/-! ## The trials of a block -/

namespace Evaluation

/-- Whether an error is below a threshold; below one that cannot be read there is none. -/
noncomputable def isBelow (threshold : Outcome Extended Extended) (error : AngleError Extended) :
    Bool :=
  match threshold with
  | .ok bound => decide (error.value < bound)
  | .error _ => false

/-- The errors of estimates as numbers, of those that have one. -/
noncomputable def errorsOf (es : List (Estimate Extended)) : List Extended :=
  (es.filterMap Estimate.error).map AngleError.value

/-- What the statistics of a block say of its estimates, which were made for `k` sources and
scored against the angles `actual`. -/
structure Accounts (k : ℕ) (actual : List Extended) (threshold : Outcome Extended Extended)
    (es : List (Estimate Extended)) (p : SweepPoint Extended) : Prop where
  /-- An estimate has an error unless it is degenerate, that of its angles. -/
  scored : ∀ e ∈ es, e.error = e.angles?.map fun angles => .between angles actual
  trials : p.trials = es.length
  /-- Every trial is degenerate or not. -/
  complete : p.degenerate + es.countP (fun e => !e.degenerate) = p.trials
  /-- The share of the successes is that of the errors below the threshold. -/
  successes : p.successRate * Scalar.ofNat p.trials =
    Scalar.ofNat (es.countP fun e => e.error.any (isBelow threshold))
  undefined_iff : p.mean = undefined ↔ ∀ e ∈ es, e.degenerate = true
  mean : (∃ e ∈ es, e.degenerate = false) → p.mean = Scalar.mean (errorsOf es)
  unmatched : actual.length ≠ k →
    p.successRate = 0 ∧ ((∃ e ∈ es, e.degenerate = false) → p.mean = infinite false)

/-- An estimate as a trial leaves it, of `k` sources and scored against angles. -/
def IsScored (k : ℕ) (actual : List Extended) (e : Estimate Extended) : Prop :=
  ∃ found : Estimate Extended, found.IsPlain k ∧ e = found.scored actual

namespace IsScored

variable {k : ℕ} {actual : List Extended} {e : Estimate Extended}

theorem error_eq (h : IsScored k actual e) :
    e.error = e.angles?.map fun angles => .between angles actual := by
  obtain ⟨found, hplain, rfl⟩ := h
  rw [Estimate.error_scored hplain.unscored, Estimate.angles?_scored]

theorem isNone_error (h : IsScored k actual e) : e.error.isNone = e.degenerate := by
  rw [h.error_eq, Option.isNone_map]
  rfl

/-- Against another number of angles every error is that of unmatched sets. -/
theorem error_of_length_ne (h : IsScored k actual e) (hlength : actual.length ≠ k)
    {error : AngleError Extended} (herror : e.error = some error) : error = .unmatched := by
  obtain ⟨found, hplain, rfl⟩ := h
  cases hdegenerate : found.degenerate with
  | true =>
    rw [hplain.error_of_degenerate hdegenerate] at herror
    exact nomatch herror
  | false =>
    rw [hplain.error_of_length_ne hdegenerate hlength] at herror
    exact (Option.some.inj herror).symm

/-- Against as many finite angles every error is finite. -/
theorem error_of_length_eq (h : IsScored k actual e) (hk : 0 < k)
    (hactual : ∀ x ∈ actual, Scalar.isFinite x = true) (hlength : actual.length = k)
    {error : AngleError Extended} (herror : e.error = some error) :
    ∃ r : ℝ, error = .rms (finite r) := by
  obtain ⟨found, hplain, rfl⟩ := h
  cases hdegenerate : found.degenerate with
  | true =>
    rw [hplain.error_of_degenerate hdegenerate] at herror
    exact nomatch herror
  | false =>
    obtain ⟨r, hr⟩ := hplain.exists_error_of_length_eq hdegenerate hk hactual hlength
    exact ⟨r, Option.some.inj (herror.symm.trans hr)⟩

end IsScored

section Points

variable {k : ℕ} {actual : List Extended} {threshold : Outcome Extended Extended}
  {es : List (Estimate Extended)}

theorem succeeds_eq (threshold : Outcome Extended Extended) (e : Estimate Extended) :
    succeeds threshold e = e.error.any (isBelow threshold) := by
  unfold succeeds isBelow
  cases e.error with
  | none => rfl
  | some error =>
    cases threshold with
    | error fault => rfl
    | ok bound => exact error.below_eq bound

theorem mean_pointOf (threshold : Outcome Extended Extended) (es : List (Estimate Extended)) :
    (pointOf threshold es).mean =
      if (es.filterMap Estimate.error).isEmpty then undefined
      else (AngleError.mean (es.filterMap Estimate.error)).value := by
  rw [SweepPoint.mean, pointOf, Tally.point, Tally.extended, List.nil_append]
  split_ifs
  · exact undefined_eq
  · rfl

theorem exists_error_iff (h : ∀ e ∈ es, IsScored k actual e) :
    es.filterMap Estimate.error ≠ [] ↔ ∃ e ∈ es, e.degenerate = false := by
  constructor
  · intro hne
    obtain ⟨error, herror⟩ := List.exists_mem_of_ne_nil _ hne
    obtain ⟨e, he, heq⟩ := List.mem_filterMap.mp herror
    refine ⟨e, he, ?_⟩
    rw [← (h e he).isNone_error, heq]
    rfl
  · rintro ⟨e, he, hdegenerate⟩
    rw [← (h e he).isNone_error, Option.isNone_eq_false_iff] at hdegenerate
    obtain ⟨error, herror⟩ := Option.isSome_iff_exists.mp hdegenerate
    exact List.ne_nil_of_mem (List.mem_filterMap.mpr ⟨e, he, herror⟩)

/-- The number of the mean error is the mean of the errors as numbers, which is infinite if the
sets are unmatched. -/
theorem value_mean (hk : 0 < k) (hactual : ∀ x ∈ actual, Scalar.isFinite x = true)
    (h : ∀ e ∈ es, IsScored k actual e) (hne : es.filterMap Estimate.error ≠ []) :
    (AngleError.mean (es.filterMap Estimate.error)).value = Scalar.mean (errorsOf es) ∧
      Scalar.mean (errorsOf es) ≠ undefined ∧
      (actual.length ≠ k → Scalar.mean (errorsOf es) = infinite false) := by
  by_cases hlength : actual.length = k
  · have hrms : ∀ error ∈ es.filterMap Estimate.error, ∃ r : ℝ, .rms (finite r) = error := by
      intro error herror
      obtain ⟨e, he, heq⟩ := List.mem_filterMap.mp herror
      obtain ⟨r, hr⟩ := (h e he).error_of_length_eq hk hactual hlength heq
      exact ⟨r, hr.symm⟩
    obtain ⟨hvalue, r, hmean⟩ := AngleError.value_mean_of_rms hrms hne
    refine ⟨hvalue, ?_, fun hother => absurd hlength hother⟩
    rw [errorsOf, hmean]
    exact nofun
  · have hunmatched : ∀ error ∈ es.filterMap Estimate.error, error = .unmatched := by
      intro error herror
      obtain ⟨e, he, heq⟩ := List.mem_filterMap.mp herror
      exact (h e he).error_of_length_ne hlength heq
    obtain ⟨hvalue, hmean⟩ := AngleError.value_mean_of_unmatched hunmatched hne
    refine ⟨hvalue.trans hmean.symm, ?_, fun _ => hmean⟩
    rw [errorsOf, hmean]
    exact nofun

/-- Against another number of angles no estimate succeeds. -/
theorem countP_success_eq_zero (h : ∀ e ∈ es, IsScored k actual e) (hlength : actual.length ≠ k) :
    es.countP (fun e => e.error.any (isBelow threshold)) = 0 := by
  rw [List.countP_eq_zero]
  intro e he hsuccess
  obtain ⟨error, herror, hbelow⟩ := (Option.any_eq_true _ _).mp hsuccess
  rw [(h e he).error_of_length_ne hlength herror] at hbelow
  cases threshold with
  | error fault => exact nomatch hbelow
  | ok bound => exact nomatch (AngleError.below_eq bound .unmatched).trans hbelow

theorem countP_degenerate (h : ∀ e ∈ es, IsScored k actual e) :
    es.countP (fun e => e.error.isNone) + es.countP (fun e => !e.degenerate) = es.length := by
  have hcount : es.countP (fun e => e.error.isNone) = es.countP Estimate.degenerate :=
    List.countP_congr fun e he => by rw [(h e he).isNone_error]
  rw [hcount, List.length_eq_countP_add_countP Estimate.degenerate]
  simp only [Bool.not_eq_true, Bool.decide_eq_false]

theorem mean_pointOf_of_exists (hk : 0 < k) (hactual : ∀ x ∈ actual, Scalar.isFinite x = true)
    (h : ∀ e ∈ es, IsScored k actual e) (hsome : ∃ e ∈ es, e.degenerate = false) :
    (pointOf threshold es).mean = Scalar.mean (errorsOf es) := by
  have hne := (exists_error_iff h).mpr hsome
  rw [mean_pointOf, if_neg (by rwa [List.isEmpty_iff]), (value_mean hk hactual h hne).1]

/-- The mean error is undefined if no estimate has one, and not otherwise. -/
theorem mean_pointOf_eq_undefined_iff (hk : 0 < k)
    (hactual : ∀ x ∈ actual, Scalar.isFinite x = true) (h : ∀ e ∈ es, IsScored k actual e) :
    (pointOf threshold es).mean = undefined ↔ ∀ e ∈ es, e.degenerate = true := by
  constructor
  · intro hundefined e he
    by_contra hdegenerate
    have hsome : ∃ e ∈ es, e.degenerate = false := ⟨e, he, Bool.not_eq_true _ ▸ hdegenerate⟩
    rw [mean_pointOf_of_exists hk hactual h hsome] at hundefined
    exact (value_mean hk hactual h ((exists_error_iff h).mpr hsome)).2.1 hundefined
  · intro hall
    have hnone : es.filterMap Estimate.error = [] := by
      by_contra hne
      obtain ⟨e, he, hdegenerate⟩ := (exists_error_iff h).mp hne
      exact Bool.false_ne_true (hdegenerate.symm.trans (hall e he))
    rw [mean_pointOf, hnone]
    rfl

/-- The statistics of a block account for its trials. -/
theorem accounts_pointOf (hk : 0 < k) (hactual : ∀ x ∈ actual, Scalar.isFinite x = true)
    (h : ∀ e ∈ es, IsScored k actual e) (hes : 0 < es.length) :
    Accounts k actual threshold es (pointOf threshold es) := by
  have hlength : (es.length : ℝ) ≠ 0 := Nat.cast_ne_zero.mpr hes.ne'
  have hsuccesses : (pointOf threshold es).successes =
      es.countP fun e => e.error.any (isBelow threshold) := by
    change 0 + es.countP (succeeds threshold) = _
    rw [Nat.zero_add, funext (succeeds_eq threshold)]
  have hrate : (pointOf threshold es).successRate =
      finite ((es.countP fun e => e.error.any (isBelow threshold) : ℕ) / es.length) := by
    rw [SweepPoint.successRate, hsuccesses]
    exact finite_div hlength
  refine ⟨fun e he => (h e he).error_eq, rfl, ?_, ?_, mean_pointOf_eq_undefined_iff hk hactual h,
    mean_pointOf_of_exists hk hactual h, fun hunmatched => ⟨?_, fun hsome => ?_⟩⟩
  · change 0 + es.countP (fun e => e.error.isNone) + _ = es.length
    rw [Nat.zero_add, countP_degenerate h]
  · rw [hrate]
    change finite _ * finite es.length = finite _
    rw [finite_mul, div_mul_cancel₀ _ hlength]
  · rw [hrate, countP_success_eq_zero h hunmatched, Nat.cast_zero, zero_div]
    rfl
  · have hne := (exists_error_iff h).mpr hsome
    rw [mean_pointOf_of_exists hk hactual h hsome, (value_mean hk hactual h hne).2.2 hunmatched]

end Points

/-! ## The trials of a sweep -/

section Runs

variable {σ : Type} {S : Solvers Extended} {G : Generator Extended σ} {g : Geometry Extended}
  {c : Estimator.Config Extended} {asked : Option Method} {E : Estimator Extended}

/-- What returns was made of samples that are there and finite, and is scored. -/
theorem isScored_of_assess (hS : S.KeepsFinite) (hE : Estimator.ofConfig g c asked = .ok E)
    {m : ℕ} {given : Setting Extended} {X : Samples Extended m} {e : Estimate Extended}
    (h : assess S E given X = .ok e) :
    (0 < X.1 ∧ X.2.isFinite = true) ∧
      ∀ actual, given.toReals = .ok actual → IsScored E.sources actual e := by
  obtain ⟨found, hfound, hscored⟩ := Outcome.bind_eq_ok.mp h
  obtain ⟨Y, hY, hfound⟩ := Outcome.bind_eq_ok.mp hfound
  constructor
  · unfold Snapshots.ofMat at hY
    split_ifs at hY with hm hn hX
    exact ⟨hn, hX⟩
  · intro actual hread
    refine ⟨found, Estimator.isPlain_estimateSnapshots hS hE hfound, ?_⟩
    rcases Estimate.eq_of_scoredAgainst hscored with
      ⟨hdegenerate, rfl⟩ | ⟨-, actual', hread', rfl⟩
    · exact (Estimate.scored_of_degenerate hdegenerate actual).symm
    · cases hread.symm.trans hread'
      rfl

theorem Trials.isScored (hS : S.KeepsFinite) (hE : Estimator.ofConfig g c asked = .ok E)
    {scene : Scene Extended} {s t : σ} {ts : List (Trial Extended g.size)}
    (h : Trials S G E g scene s ts t) {actual : List Extended}
    (hread : scene.angles.toReals = .ok actual) :
    ∀ e ∈ ts.map Trial.estimate, IsScored E.sources actual e := by
  induction h with
  | done => exact fun _ he => absurd he List.not_mem_nil
  | next _ assessed _ ih =>
    exact List.forall_mem_cons.mpr ⟨(isScored_of_assess hS hE assessed).2 actual hread, ih⟩

/-- The angles of a scene in which a trial returns can be read, and all are finite; against them
every estimate is scored. -/
theorem Trials.exists_actual (hS : S.KeepsFinite) (hE : Estimator.ofConfig g c asked = .ok E)
    {scene : Scene Extended} {s t : σ} {ts : List (Trial Extended g.size)}
    (h : Trials S G E g scene s ts t) (hts : 0 < ts.length) :
    ∃ actual, scene.angles.toReals = .ok actual ∧ (∀ x ∈ actual, Scalar.isFinite x = true) ∧
      ∀ e ∈ ts.map Trial.estimate, IsScored E.sources actual e := by
  have hall : ∀ actual, scene.angles.toReals = .ok actual →
      ∀ e ∈ ts.map Trial.estimate, IsScored E.sources actual e :=
    fun _ hread => h.isScored hS hE hread
  cases h with
  | done => exact absurd hts (lt_irrefl 0)
  | next drawn assessed others =>
    obtain ⟨⟨hn, hX⟩, -⟩ := isScored_of_assess hS hE assessed
    obtain ⟨actual, hread, hfinite⟩ := Signal.finite_of_generate drawn hn hX
    exact ⟨actual, hread, hfinite, hall actual hread⟩

theorem summary_eq_putAll {m : ℕ} (threshold : Outcome Extended Extended)
    (same : Extended → Extended → Bool) (done : Sweep Extended) (bs : List (Block Extended m)) :
    summary threshold same done bs =
      putAll same done (bs.map fun b => (b.ratio, b.point threshold)) := by
  rw [summary, putAll, List.foldl_map]

theorem eq_of_sameOrUndefined {x y : Extended} (h : sameOrUndefined x y = true) : x = y := by
  rcases Bool.or_eq_true_iff.mp h with h | h
  · exact eq_of_same h
  · obtain ⟨hx, hy⟩ := Bool.and_eq_true_iff.mp h
    rw [isNaN_iff.mp hx, isNaN_iff.mp hy]

/-- A sweep that returns ran a block of trials at each ratio.  Its keys are the distinct ratios in
the order in which they first occur, where an undefined one may be distinct from the others or
not.  The entry of a ratio holds the statistics of the last block at that ratio, which account for
all of its trials. -/
theorem sweep_accounts (hS : S.KeepsFinite) (hE : Estimator.ofConfig g c asked = .ok E)
    {same : Extended → Extended → Bool} (hsame : same = Scalar.same ∨ same = sameOrUndefined)
    {r : SweepRequest Extended} {result : Sweep Extended} {s t : σ}
    (h : sweep S G E r same s = (.ok result, t)) :
    ∃ ratios, r.checked = .ok ratios ∧ ∃ bs : List (Block Extended g.size),
      Blocks S G E g r r.count ratios s bs t ∧
      ratios.mapM (fun ratio => ratio.toScalar "snr_db") = .ok (bs.map Block.ratio) ∧
      result.map Prod.fst =
        (bs.map Block.ratio).eraseDupsBy (fun later earlier => same earlier later) ∧
      ∀ entry ∈ result,
        0 < entry.2.trials ∧ r.trials.toCount "num_trials" = .ok entry.2.trials ∧
        ∃ before b after, bs = before ++ b :: after ∧ b.ratio = entry.1 ∧
          (∀ later ∈ after, same entry.1 later.ratio = false) ∧
          ∃ actual, r.angles.toReals = .ok actual ∧
            Accounts E.sources actual r.bound (b.trials.map Trial.estimate) entry.2 := by
  obtain ⟨ratios, hratios, bs, hblocks, hresult⟩ :=
    exists_blocks_of_sweep (Estimator.geometry_eq hE) h
  have heq : ∀ {x y : Extended}, same x y = true → x = y := by
    intro x y hxy
    rcases hsame with rfl | rfl
    · exact eq_of_same hxy
    · exact eq_of_sameOrUndefined hxy
  have hnone : Apart same (([] : Sweep Extended).map Prod.fst) := List.Pairwise.nil
  refine ⟨ratios, hratios, bs, hblocks, hblocks.mapM_ratios, ?_, ?_⟩
  · have hall : ∀ xs : List Extended,
        (xs.filter fun x => !(([] : Sweep Extended).map Prod.fst).any fun key => same key x) = xs :=
      fun xs => List.filter_eq_self.mpr fun _ _ => rfl
    rw [hresult, summary_eq_putAll, map_fst_putAll, hall, List.map_map]
    rfl
  · intro entry hentry
    have hcount := toCount_of_sweep h (List.ne_nil_of_mem hentry)
    have hpos := pos_of_checked hratios hcount
    rw [hresult, summary_eq_putAll] at hentry
    rcases mem_putAll heq hnone hentry with ⟨hdone, -⟩ | ⟨before, after, hsplit, hlater⟩
    · exact absurd hdone List.not_mem_nil
    · obtain ⟨bs₁, bs₂, rfl, rfl, hrest⟩ := List.map_eq_append_iff.mp hsplit
      obtain ⟨b, bs₃, rfl, rfl, rfl⟩ := List.map_eq_cons_iff.mp hrest
      obtain ⟨hlength, ratio, s', t', hran⟩ :=
        hblocks.exists_trials_of_mem (List.mem_append_right bs₁ List.mem_cons_self)
      obtain ⟨actual, hread, hactual, hscored⟩ := hran.exists_actual hS hE (hlength ▸ hpos)
      have hes : (b.trials.map Trial.estimate).length = r.count := by
        rw [List.length_map, hlength]
      have haccounts : Accounts E.sources actual r.bound (b.trials.map Trial.estimate)
          (b.point r.bound) := accounts_pointOf E.sources.2.1 hactual hscored (hes ▸ hpos)
      have htrials : (b.point r.bound).trials = r.count := hes
      refine ⟨htrials ▸ hpos, htrials ▸ hcount, bs₁, b, bs₃, rfl, rfl, ?_, actual, hread,
        haccounts⟩
      exact fun later hmem => hlater _ (List.mem_map_of_mem hmem)

/-- A sweep over a ratio, another one and the first again has two entries, of two trials each. -/
theorem sweep_accounts_small :
    ∃ result t, sweep Solvers.ideal.extended zeros .small (smallRequest [0, 10, 0])
        sameOrUndefined 0 = (.ok result, t) ∧
      result.map Prod.fst = [finite 0, finite 10] ∧
      ∀ entry ∈ result, ∃ actual, ∃ es : List (Estimate Extended),
        Accounts 1 actual (.ok 0.1) es entry.2 ∧ es.length = 2 := by
  obtain ⟨result, t, h⟩ := exists_sweep_small Solvers.ideal.extended (E := .small) rfl rfl
    [0, 10, 0] sameOrUndefined 0
  obtain ⟨ratios, hratios, bs, -, hread, hkeys, haccounts⟩ :=
    sweep_accounts Solvers.ideal.keepsFinite_extended Estimator.ofConfig_small (.inr rfl) h
  refine ⟨result, t, h, ?_, ?_⟩
  · have hbs : bs.map Block.ratio = [finite 0, finite 10, finite 0] := by
      cases hratios
      exact (Except.ok.inj hread).symm
    rw [hkeys, hbs]
    simp [List.eraseDupsBy_cons, sameOrUndefined, Scalar.same, Scalar.isNaN]
  · intro entry hentry
    obtain ⟨-, hcount, -, b, -, -, -, -, actual, -, haccount⟩ := haccounts entry hentry
    have htwo : (smallRequest [0, 10, 0]).trials.toCount "num_trials" = .ok 2 := rfl
    have hlength : 2 = (b.trials.map Trial.estimate).length :=
      (Except.ok.inj (htwo.symm.trans hcount)).trans haccount.trials
    exact ⟨actual, _, haccount, hlength.symm⟩

end Runs

end Evaluation

end PhasedArray
