import Hypha.Scheduler.PoolTask

/-!
# The grace period of a pool

`run_pool` remembers the tick at which the pool fell below its minimum, and forgets it at a tick that finds enough
members. Between two ticks the members may change in any way; only what a tick samples counts.

* `Tick`, `ticks` : the clock and the number of members that the ticks of a run have sampled;
* `Overdue` : the pool has been below its minimum since a tick that lies at least the grace period back;
* `Tracks` : what the variable of the task remembers, in terms of the ticks;
* `grace_expires_iff` : the task ends at the first tick that is overdue, and only there.
-/

namespace Hypha.Scheduler

open Hypha.Lib

variable {PeerId : Type} [LinearOrder PeerId]

set_option linter.unusedSectionVars false

/-! ## Ticks -/

/-- What a tick of the reconciliation samples. -/
structure Tick where
  now : Instant
  count : Nat

/-- The tick of a step, if it is one. -/
def tickOf (e : PoolEvent PeerId) : Option Tick :=
  match e.input with
  | .tick now _ => some ⟨now, e.pre.members.length⟩
  | .exit _ _ => none

/-- The ticks of a history, newest first. -/
def ticks (h : List (PoolEvent PeerId)) : List Tick := h.filterMap tickOf

/-- The clock does not go back from tick to tick. -/
def Steady (e : PoolEvent PeerId) (h : List (PoolEvent PeerId)) : Prop :=
  ∀ t ∈ tickOf e, ∀ earlier ∈ ticks h, earlier.now ≤ t.now

/-- The newest tick and an earlier one, at least the grace period before it, are below the minimum, and so is every tick
between them. -/
def Overdue (config : PoolConfig) : List Tick → Prop
  | [] => False
  | t :: ts => t.count < config.min ∧ ∃ between m older, ts = between ++ m :: older ∧
      (∀ x ∈ between, x.count < config.min) ∧ m.count < config.min ∧ m.now + config.grace ≤ t.now

/-- The task returns in a step because the grace period is over. -/
def GraceExpires (config : PoolConfig) (e : PoolEvent PeerId) : Prop :=
  e.pre.error = none ∧ e.post.error = some (.graceExpired config.name config.min)

section Streak
variable (config : PoolConfig)

/-- The newest ticks that are below the minimum, up to the last one that is not. -/
def streak (ts : List Tick) : List Tick := ts.takeWhile fun t => decide (t.count < config.min)

/-- When the pool fell below its minimum, if it is below. -/
def fellAt (ts : List Tick) : Option Instant := (streak config ts).getLast?.map (·.now)

theorem fellAt_cons_of_not_below {t : Tick} (ht : ¬ t.count < config.min) (ts : List Tick) :
    fellAt config (t :: ts) = none := by
  rw [fellAt, streak, List.takeWhile_cons_of_neg (by simpa using ht)]
  rfl

/-- A tick below the minimum starts a streak or goes on with it. -/
theorem fellAt_cons_of_below {t : Tick} (ht : t.count < config.min) (ts : List Tick) :
    fellAt config (t :: ts) = some ((fellAt config ts).getD t.now) := by
  rw [fellAt, fellAt, streak, List.takeWhile_cons_of_pos (by simpa using ht), List.getLast?_cons]
  change some ((streak config ts).getLast?.getD t).now = _
  cases (streak config ts).getLast? <;> rfl

/-- A streak ends in the tick at which the pool fell below its minimum. -/
theorem split_of_fellAt {ts : List Tick} {start : Instant} (h : fellAt config ts = some start) :
    ∃ between m older, ts = between ++ m :: older ∧ (∀ x ∈ between, x.count < config.min) ∧
      m.count < config.min ∧ m.now = start := by
  obtain ⟨m, hm, hstart⟩ := Option.map_eq_some_iff.mp h
  obtain ⟨between, hstreak⟩ := List.getLast?_eq_some_iff.mp hm
  have hbelow : ∀ x ∈ between ++ [m], x.count < config.min := by
    intro x hx
    rw [← hstreak] at hx
    exact of_decide_eq_true (List.all_eq_true.mp List.all_takeWhile x hx)
  refine ⟨between, m, ts.dropWhile fun t => decide (t.count < config.min), ?_, ?_, ?_, hstart⟩
  · calc ts = streak config ts ++ ts.dropWhile _ := List.takeWhile_append_dropWhile.symm
      _ = between ++ m :: ts.dropWhile _ := by rw [hstreak, List.append_assoc]; rfl
  · exact fun x hx => hbelow x (List.mem_append_left _ hx)
  · exact hbelow m (List.mem_append_right _ (List.mem_singleton_self m))

/-- The pool fell below its minimum no later than at any tick from which on it has been below. -/
theorem fellAt_le {between older : List Tick} {m : Tick} (hbetween : ∀ x ∈ between, x.count < config.min)
    (hm : m.count < config.min) (holder : ∀ x ∈ older, x.now ≤ m.now) :
    ∃ start, fellAt config (between ++ m :: older) = some start ∧ start ≤ m.now := by
  induction between with
  | nil =>
    refine ⟨_, fellAt_cons_of_below config hm older, ?_⟩
    cases hfell : fellAt config older with
    | none => exact Nat.le_refl _
    | some start =>
      obtain ⟨between, m', rest, rfl, -, -, rfl⟩ := split_of_fellAt config hfell
      exact holder m' (List.mem_append_right _ List.mem_cons_self)
  | cons x between ih =>
    obtain ⟨start, hstart, hle⟩ := ih fun y hy => hbetween y (List.mem_cons_of_mem x hy)
    refine ⟨start, ?_, hle⟩
    rw [List.cons_append, fellAt_cons_of_below config (hbetween x List.mem_cons_self), hstart]
    rfl

/-- **A tick is overdue** if the pool fell below its minimum at least the grace period ago. -/
theorem overdue_cons_iff {t : Tick} {ts : List Tick} (hsteady : ts.Pairwise fun later earlier => earlier.now ≤ later.now) :
    Overdue config (t :: ts) ↔
      t.count < config.min ∧ ∃ start, fellAt config ts = some start ∧ start + config.grace ≤ t.now := by
  refine and_congr_right fun _ => ⟨?_, ?_⟩
  · rintro ⟨between, m, older, rfl, hbetween, hm, hgrace⟩
    have holder := (List.pairwise_cons.mp (List.pairwise_append.mp hsteady).2.1).1
    obtain ⟨start, hstart, hle⟩ := fellAt_le config hbetween hm holder
    exact ⟨start, hstart, (Nat.add_le_add_right hle _).trans hgrace⟩
  · rintro ⟨start, hstart, hgrace⟩
    obtain ⟨between, m, older, hts, hbetween, hm, rfl⟩ := split_of_fellAt config hstart
    exact ⟨between, m, older, hts, hbetween, hm, hgrace⟩

theorem not_overdue_of_min_eq_zero (hmin : config.min = 0) : ∀ ts, ¬ Overdue config ts
  | [] => fun h => h
  | _ :: _ => fun h => Nat.not_lt_zero _ (hmin ▸ h.1)

end Streak

/-! ## What the task remembers -/

/-- What the variables of `run_pool` say about the ticks: while it runs no tick has been overdue, and it remembers when
the pool fell below its minimum; it has returned only if some tick was overdue. -/
structure Tracks (config : PoolConfig) (w : World (PoolTask PeerId) (PoolInput PeerId) (Option Nat)) : Prop where
  steady : (ticks w.history).Pairwise fun later earlier => earlier.now ≤ later.now
  since : w.state.error = none → w.state.belowMinSince = fellAt config (ticks w.history)
  running : w.state.error = none ↔ ∀ ts, ts <:+ ticks w.history → ¬ Overdue config ts

section Step
variable {config : PoolConfig} {w : World (PoolTask PeerId) (PoolInput PeerId) (Option Nat)}

theorem tracks_initial (config : PoolConfig) :
    Tracks config (⟨{}, []⟩ : World (PoolTask PeerId) (PoolInput PeerId) (Option Nat)) := by
  refine ⟨List.Pairwise.nil, fun _ => rfl, fun _ ts hts => ?_, fun _ => rfl⟩
  rw [List.eq_nil_of_suffix_nil hts]
  exact fun h => h

/-- Allocation does not touch the grace period. -/
theorem allocate_keeps (s : PoolTask PeerId) (answer : Except AllocatorError (List (Worker PeerId × SystemTime))) :
    (s.allocate config answer).1.error = s.error ∧
      (s.allocate config answer).1.belowMinSince = s.belowMinSince := by
  unfold PoolTask.allocate
  split
  · split
    · split <;> exact ⟨rfl, rfl⟩
    · exact ⟨rfl, rfl⟩
  · exact ⟨rfl, rfl⟩

/-- What a tick does to the grace period. -/
theorem tick_track (config : PoolConfig) {s : PoolTask PeerId} (hrunning : s.error = none) (now : Instant)
    (answer : Except AllocatorError (List (Worker PeerId × SystemTime))) :
    (poolStep config s (.tick now answer)).1.error = (s.track config now).error ∧
      (poolStep config s (.tick now answer)).1.belowMinSince = (s.track config now).belowMinSince := by
  unfold poolStep
  rw [hrunning, Option.isSome_none, if_neg Bool.false_ne_true]
  dsimp only
  split_ifs
  · exact ⟨rfl, rfl⟩
  · exact allocate_keeps _ answer

/-- An exit does not touch the grace period, and a task that has returned stays as it is. -/
theorem poolStep_keeps (config : PoolConfig) {s : PoolTask PeerId} {i : PoolInput PeerId}
    (h : s.error ≠ none ∨ ∃ n result, i = .exit n result) :
    (poolStep config s i).1.error = s.error ∧ (poolStep config s i).1.belowMinSince = s.belowMinSince := by
  unfold poolStep
  split_ifs with hended
  · exact ⟨rfl, rfl⟩
  · rcases h with h | ⟨n, result, rfl⟩
    · exact absurd (Option.isSome_iff_ne_none.mpr h) hended
    · dsimp only
      split <;> exact ⟨rfl, rfl⟩

/-- The task returns at a tick exactly when the pool fell below its minimum at least the grace period ago; otherwise it
remembers when the pool fell. -/
theorem track_cases {s : PoolTask PeerId} {ts : List Tick} (hrunning : s.error = none)
    (hsince : s.belowMinSince = fellAt config ts) (now : Instant) :
    ((s.track config now).error = some (.graceExpired config.name config.min) ∧ s.members.length < config.min ∧
        ∃ start, fellAt config ts = some start ∧ start + config.grace ≤ now) ∨
      (s.track config now).error = none ∧
        (s.track config now).belowMinSince = fellAt config (⟨now, s.members.length⟩ :: ts) ∧
        ¬ (s.members.length < config.min ∧ ∃ start, fellAt config ts = some start ∧ start + config.grace ≤ now) := by
  unfold PoolTask.track
  by_cases hbelow : s.members.length < config.min
  · rw [if_pos hbelow, fellAt_cons_of_below config (t := ⟨now, s.members.length⟩) hbelow, hsince]
    cases hfell : fellAt config ts with
    | none =>
      refine Or.inr ⟨hrunning, rfl, ?_⟩
      rintro ⟨-, start, hstart, -⟩
      cases hstart
    | some start =>
      dsimp only
      split_ifs with hgrace
      · exact Or.inl ⟨rfl, hbelow, start, rfl, hgrace⟩
      · refine Or.inr ⟨hrunning, hsince.trans hfell, ?_⟩
        rintro ⟨-, start', hstart, hgrace'⟩
        cases hstart
        exact hgrace hgrace'
  · rw [if_neg hbelow, fellAt_cons_of_not_below config (t := ⟨now, s.members.length⟩) hbelow]
    exact Or.inr ⟨hrunning, rfl, fun h => hbelow h.1⟩

/-- What a step says about the grace period: the task returns exactly at a tick that is the first one to be overdue. -/
def ExpiresFirst (config : PoolConfig) (e : PoolEvent PeerId) (h : List (PoolEvent PeerId)) : Prop :=
  GraceExpires config e ↔ ∃ t, tickOf e = some t ∧ Overdue config (t :: ticks h) ∧
    ∀ ts, ts <:+ ticks h → ¬ Overdue config ts

theorem ticks_cons_of_none {e : PoolEvent PeerId} (he : tickOf e = none) (h : List (PoolEvent PeerId)) :
    ticks (e :: h) = ticks h := List.filterMap_cons_none he

theorem ticks_cons_of_some {e : PoolEvent PeerId} {t : Tick} (he : tickOf e = some t) (h : List (PoolEvent PeerId)) :
    ticks (e :: h) = t :: ticks h := List.filterMap_cons_some he

theorem Tracks.exit (hI : Tracks config w) (n : Nat) (result : Except WorkerError Unit) :
    Tracks config ((poolMachine config).next w (.exit n result)) ∧
      ExpiresFirst config ((poolMachine config).event w.state (.exit n result)) w.history := by
  obtain ⟨herror, hsince⟩ := poolStep_keeps config (s := w.state) (Or.inr ⟨n, result, rfl⟩)
  have hticks := ticks_cons_of_none (e := (poolMachine config).event w.state (.exit n result)) rfl w.history
  refine ⟨⟨?_, ?_, ?_⟩, ?_⟩
  · rw [Machine.next_history, hticks]
    exact hI.steady
  · intro hrunning
    rw [Machine.next_history, hticks]
    exact hsince.trans (hI.since (herror.symm.trans hrunning))
  · rw [Machine.next_history, hticks]
    exact (Eq.congr_left herror).trans hI.running
  · refine iff_of_false ?_ ?_
    · rintro ⟨hrunning, hended⟩
      cases (herror.symm.trans hended).symm.trans hrunning
    · rintro ⟨t, ht, -⟩
      cases ht

theorem Tracks.tick (hI : Tracks config w) (now : Instant)
    (answer : Except AllocatorError (List (Worker PeerId × SystemTime)))
    (hsteady : Steady ((poolMachine config).event w.state (.tick now answer)) w.history) :
    Tracks config ((poolMachine config).next w (.tick now answer)) ∧
      ExpiresFirst config ((poolMachine config).event w.state (.tick now answer)) w.history := by
  have hticks : ticks ((poolMachine config).event w.state (.tick now answer) :: w.history) =
      ⟨now, w.state.members.length⟩ :: ticks w.history := ticks_cons_of_some rfl w.history
  have hsorted : (ticks ((poolMachine config).next w (.tick now answer)).history).Pairwise
      fun later earlier => earlier.now ≤ later.now := by
    rw [Machine.next_history, hticks]
    exact List.pairwise_cons.mpr ⟨fun t ht => hsteady _ rfl t ht, hI.steady⟩
  have hoverdue := overdue_cons_iff config (t := ⟨now, w.state.members.length⟩) hI.steady
  -- the suffixes of the ticks after the step are all of them and those from before
  have hsuffix : (∀ ts, ts <:+ (⟨now, w.state.members.length⟩ : Tick) :: ticks w.history → ¬ Overdue config ts) ↔
      ¬ Overdue config (⟨now, w.state.members.length⟩ :: ticks w.history) ∧
        ∀ ts, ts <:+ ticks w.history → ¬ Overdue config ts := by
    simp only [List.suffix_cons_iff, forall_eq_or_imp]
  by_cases hrunning : w.state.error = none
  · obtain ⟨herror, hsince⟩ := tick_track config hrunning now answer
    rcases track_cases hrunning (hI.since hrunning) now with ⟨hended, hexpired⟩ | ⟨hgoes, hfell, hnot⟩
    · refine ⟨⟨hsorted, fun h => ?_, iff_of_false (fun h => ?_) (fun h => ?_)⟩, iff_of_true ⟨hrunning, ?_⟩ ?_⟩
      · cases (herror.trans hended).symm.trans h
      · cases (herror.trans hended).symm.trans h
      · rw [Machine.next_history, hticks] at h
        exact h _ List.suffix_rfl (hoverdue.mpr hexpired)
      · exact herror.trans hended
      · exact ⟨_, rfl, hoverdue.mpr hexpired, hI.running.mp hrunning⟩
    · have hnone := hsuffix.mpr ⟨fun h => hnot (hoverdue.mp h), hI.running.mp hrunning⟩
      refine ⟨⟨hsorted, fun _ => ?_, iff_of_true (herror.trans hgoes) ?_⟩, iff_of_false ?_ ?_⟩
      · rw [Machine.next_history, hticks]
        exact hsince.trans hfell
      · rw [Machine.next_history, hticks]
        exact hnone
      · rintro ⟨-, hended⟩
        cases (herror.trans hgoes).symm.trans hended
      · rintro ⟨t, ht, hlate, -⟩
        cases ht
        exact hnot (hoverdue.mp hlate)
  · obtain ⟨herror, -⟩ := poolStep_keeps config (i := .tick now answer) (Or.inl hrunning)
    have hnot : (poolStep config w.state (.tick now answer)).1.error ≠ none := fun h => hrunning (herror.symm.trans h)
    refine ⟨⟨hsorted, fun h => absurd h hnot, iff_of_false hnot fun h => ?_⟩, iff_of_false ?_ ?_⟩
    · rw [Machine.next_history, hticks, hsuffix] at h
      exact hrunning (hI.running.mpr h.2)
    · exact fun h => hrunning h.1
    · rintro ⟨-, -, -, hnone⟩
      exact hrunning (hI.running.mpr hnone)

theorem Tracks.next (hI : Tracks config w) (i : PoolInput PeerId)
    (hsteady : Steady ((poolMachine config).event w.state i) w.history) :
    Tracks config ((poolMachine config).next w i) ∧
      ExpiresFirst config ((poolMachine config).event w.state i) w.history := by
  cases i with
  | tick now answer => exact hI.tick now answer hsteady
  | exit n result => exact hI.exit n result

end Step

/-! ## Runs -/

/-- **The grace period.** In every run whose clock does not go back, the task returns `GraceExpired` at a tick exactly
when it is the first one that is overdue; a pool without a minimum never ends that way. -/
theorem grace_expires_iff (config : PoolConfig) (inputs : List (PoolInput PeerId))
    (hsteady : Along Steady (runPool config inputs).history) :
    Along (ExpiresFirst config) (runPool config inputs).history ∧
      (config.min = 0 → (runPool config inputs).state.error = none) := by
  obtain ⟨hI, halong⟩ := (poolMachine config).along_of_invariant (Tracks config) Steady (ExpiresFirst config)
    (tracks_initial config) (fun _ i hI hsteady => hI.next i hsteady) inputs hsteady
  exact ⟨halong, fun hmin => hI.running.mpr fun ts _ => not_overdue_of_min_eq_zero config hmin ts⟩

instance (e : PoolEvent PeerId) (h : List (PoolEvent PeerId)) : Decidable (Steady e h) :=
  inferInstanceAs (Decidable (∀ t ∈ tickOf e, ∀ earlier ∈ ticks h, earlier.now ≤ t.now))

/-- A pool that needs one member and waits for two milliseconds. -/
def oneNeeded : PoolConfig := ⟨"train", 1, 1, 2⟩

/-- The one worker exits, another one joins, it exits too, and then nobody offers to work any more. -/
def graceRuns : List (PoolInput Nat) :=
  [.tick 0 (.ok [(⟨1, 1, {}⟩, 0)]), .exit 0 (.ok ()), .tick 1 (.error .noOffersReceived),
    .tick 2 (.ok [(⟨2, 2, {}⟩, 2)]), .tick 3 (.error .timeout), .exit 0 (.ok ()), .tick 4 (.error .timeout),
    .tick 5 (.error .timeout), .tick 6 (.error .timeout)]

theorem grace_expires_graceRuns :
    (runPool oneNeeded graceRuns).state.error.isSome = true ∧
      Along (ExpiresFirst oneNeeded) (runPool oneNeeded graceRuns).history := by
  refine ⟨by decide, (grace_expires_iff oneNeeded graceRuns (by decide)).1⟩

end Hypha.Scheduler
