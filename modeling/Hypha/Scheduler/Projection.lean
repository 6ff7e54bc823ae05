import Mathlib.Algebra.Order.BigOperators.Group.List
import Mathlib.Tactic.SplitIfs
import Hypha.Lib.Loop
import Hypha.Lib.Recurring
import Hypha.Scheduler.Statistics

/-!
# The projection's loop

Worker `i` of a projection completes batches at `first i`, `first i + statistic i` and so on, as long as the times fit
into a `u64`. A state of the loop is `Synced` to a bound if it has counted just the completions before that bound.

* `advance_completed` : a pass completes a batch of every worker that is due next;
* `Synced.advance` : from one bound to the next;
* `ends_final` : the loop ends, and `Projection.final` is where.
-/

namespace Hypha

open Hypha.Lib

/-! ## Casts -/

theorem toI32_of_lt {x : Int} (h : -2 ^ 31 ≤ x) (h' : x < 2 ^ 31) : toI32 x = x := by
  unfold toI32
  exact Int.bmod_eq_of_le (by omega) (by omega)

/-- A deficit reads as none left, or as a positive number of samples if it wraps around. -/
theorem toI32_neg_le_zero_iff (d : Nat) : toI32 (-d) ≤ 0 ↔ d % 2 ^ 32 ≤ 2 ^ 31 := by
  unfold toI32 Int.bmod
  dsimp only
  split <;> omega

/-- The upper half of the `u32` range reads as no samples. -/
theorem toI32_le_zero {n : Nat} (h : 2 ^ 31 ≤ n) (h' : n < 2 ^ 32) : toI32 n ≤ 0 := by
  unfold toI32 Int.bmod
  dsimp only
  split <;> omega

@[simp] theorem toI32_toI32 (x : Int) : toI32 (toI32 x) = toI32 x := Int.bmod_bmod

theorem toI32_sub_toI32 (x y : Int) : toI32 (x - toI32 y) = toI32 (x - y) := Int.sub_bmod_bmod

theorem toI32_toI32_sub (x y : Int) : toI32 (toI32 x - y) = toI32 (x - y) := Int.bmod_sub_bmod

namespace Projection

/-! ## One pass -/

/-- The batches that worker `i` has completed. -/
def done (s : Projection) (i : Nat) : Nat := s.updates.getD i 0

/-- When worker `i` completes the next one. -/
def next (s : Projection) (i : Nat) : Nat := s.nextUpdate.getD i 0

/-- There is a counter and a time for each of `n` workers. -/
structure Sized (n : Nat) (s : Projection) : Prop where
  updates : s.updates.length = n
  nextUpdate : s.nextUpdate.length = n

/-- The workers `is` complete a batch each. -/
structure Completed (batchSizes statistics : List Nat) (cap : Nat) (is : List Nat) (s s' : Projection) : Prop where
  time : s'.time = s.time
  sized : Sized batchSizes.length s'
  done : ∀ i, s'.done i = if i ∈ is then min (s.done i + 1) (2 ^ 32 - 1) else s.done i
  next : ∀ i, s'.next i = if i ∈ is then min (s.next i + statistics.getD i 0) u64Max else s.next i
  toGo : s'.toGo = toI32 (s.toGo - ((is.map fun i => batchSizes.getD i 0).sum : Nat))
  capped : s'.capped = true ↔ s.capped = true ∨ ∃ i ∈ is, cap ≤ s'.done i

theorem getD_set {l : List Nat} {i : Nat} (hi : i < l.length) (x j : Nat) :
    (l.set i x).getD j 0 = if j = i then x else l.getD j 0 := by
  rw [List.getD_eq_getElem?_getD, List.getElem?_set, List.getD_eq_getElem?_getD]
  by_cases hj : j = i
  · subst hj
    simp [hi]
  · simp [hj, Ne.symm hj]

section Pass
variable (batchSizes statistics : List Nat) (cap : Nat)

theorem completed_foldl : ∀ (is : List Nat) (s : Projection), is.Nodup → (∀ i ∈ is, i < batchSizes.length) →
    Sized batchSizes.length s → toI32 s.toGo = s.toGo →
      Completed batchSizes statistics cap is s (is.foldl (complete batchSizes statistics cap) s) := by
  intro is
  induction is with
  | nil =>
    intro s _ _ hsized hgo
    exact ⟨rfl, hsized, fun _ => rfl, fun _ => rfl, by simp [hgo], by simp⟩
  | cons i is ih =>
    intro s hnodup hin hsized hgo
    obtain ⟨hi, hnodup⟩ := List.nodup_cons.mp hnodup
    have hlt := hin i List.mem_cons_self
    have hdone : ∀ j, (complete batchSizes statistics cap s i).done j =
        if j = i then min (s.done i + 1) (2 ^ 32 - 1) else s.done j := getD_set (hsized.updates ▸ hlt) _
    have hnext : ∀ j, (complete batchSizes statistics cap s i).next j =
        if j = i then min (s.next i + statistics.getD i 0) u64Max else s.next j :=
      getD_set (hsized.nextUpdate ▸ hlt) _
    have hrest := ih (complete batchSizes statistics cap s i) hnodup (fun j hj => hin j (List.mem_cons_of_mem i hj))
      ⟨(List.length_set ..).trans hsized.updates, (List.length_set ..).trans hsized.nextUpdate⟩
      (toI32_toI32 _)
    rw [List.foldl_cons]
    refine ⟨hrest.time, hrest.sized, fun j => ?_, fun j => ?_, ?_, ?_⟩
    · rw [hrest.done, hdone]
      by_cases hj : j = i
      · subst hj
        simp [hi]
      · simp [hj]
    · rw [hrest.next, hnext]
      by_cases hj : j = i
      · subst hj
        simp [hi]
      · simp [hj]
    · rw [hrest.toGo, List.map_cons, List.sum_cons]
      change toI32 (toI32 (s.toGo - toI32 ↑(batchSizes.getD i 0)) - _) = _
      rw [toI32_sub_toI32, toI32_toI32_sub, Int.natCast_add, Int.sub_sub]
    · rw [hrest.capped]
      have hi' : (is.foldl (complete batchSizes statistics cap) (complete batchSizes statistics cap s i)).done i =
          min (s.done i + 1) (2 ^ 32 - 1) := by rw [hrest.done, if_neg hi, hdone, if_pos rfl]
      have hcap : (complete batchSizes statistics cap s i).capped = true ↔
          s.capped = true ∨ cap ≤ min (s.done i + 1) (2 ^ 32 - 1) := by
        change (s.capped || decide (cap ≤ min (s.done i + 1) (2 ^ 32 - 1))) = true ↔ _
        rw [Bool.or_eq_true, decide_eq_true_eq]
      rw [hcap, or_assoc, ← hi', ← List.exists_mem_cons_iff (fun j => cap ≤ _)]

/-- The workers that complete a batch at `t`. -/
def due (n : Nat) (s : Projection) (t : Nat) : List Nat := (List.range n).filter fun i => s.next i = t

theorem mem_due {n : Nat} {s : Projection} {t i : Nat} : i ∈ due n s t ↔ i < n ∧ s.next i = t := by
  simp [due]

/-- A pass goes on to the least time at which a worker completes a batch, and completes the batches due then. -/
theorem advance_completed {s : Projection} (hsized : Sized batchSizes.length s) (hgo : toI32 s.toGo = s.toGo)
    (hne : 0 < batchSizes.length) :
    (∃ i < batchSizes.length, s.next i = (s.advance batchSizes statistics cap).time) ∧
      (∀ i < batchSizes.length, (s.advance batchSizes statistics cap).time ≤ s.next i) ∧
      Completed batchSizes statistics cap (due batchSizes.length s (s.advance batchSizes statistics cap).time)
        { s with time := (s.advance batchSizes statistics cap).time } (s.advance batchSizes statistics cap) := by
  have hget : ∀ i < batchSizes.length, s.nextUpdate[i]? = some (s.next i) := by
    intro i hi
    rw [← hsized.nextUpdate] at hi
    unfold next
    rw [List.getD_eq_getElem?_getD, List.getElem?_eq_getElem hi, Option.getD_some]
  obtain ⟨t, ht⟩ : ∃ t, s.nextUpdate.min? = some t := by
    cases h : s.nextUpdate.min? with
    | some t => exact ⟨t, rfl⟩
    | none =>
      have hsize := hsized.nextUpdate
      rw [List.min?_eq_none_iff.mp h] at hsize
      exact absurd hsize hne.ne
  obtain ⟨hmem, hle⟩ := List.min?_eq_some_iff.mp ht
  have hfilter : ((List.range batchSizes.length).filter fun i => s.nextUpdate[i]? = some t) =
      due batchSizes.length s t := by
    refine List.filter_congr fun i hi => decide_eq_decide.mpr ?_
    rw [hget i (List.mem_range.mp hi), Option.some.injEq]
  have hadv : s.advance batchSizes statistics cap = (due batchSizes.length s t).foldl
      (complete batchSizes statistics cap) { s with time := t } := by
    unfold advance
    rw [ht]
    dsimp only
    rw [hfilter]
  have hfold := completed_foldl batchSizes statistics cap (due batchSizes.length s t) { s with time := t }
    (List.nodup_range.filter _) (fun i hi => (mem_due.mp hi).1) ⟨hsized.updates, hsized.nextUpdate⟩ hgo
  rw [← hadv] at hfold
  have htime : (s.advance batchSizes statistics cap).time = t := hfold.time
  rw [htime]
  refine ⟨?_, fun i hi => hle _ (List.mem_of_getElem? (hget i hi)), hfold⟩
  obtain ⟨i, hi⟩ := List.mem_iff_getElem?.mp hmem
  have hlt : i < batchSizes.length := by
    rw [← hsized.nextUpdate]
    exact (List.getElem?_eq_some_iff.mp hi).1
  exact ⟨i, hlt, Option.some.inj ((hget i hlt).symm.trans hi)⟩

end Pass

end Projection

/-! ## The loop against the completions before a bound -/

/-- The arguments of `BasicSimulation::project`. -/
structure Workload where
  progress : List Nat
  batchSizes : List Nat
  statistics : List Nat
  left : Nat
  cap : Nat
  progress_length : progress.length = batchSizes.length
  statistics_length : statistics.length = batchSizes.length
  nonempty : 0 < batchSizes.length
  statistics_pos : ∀ d ∈ statistics, 0 < d
  cap_lt : cap < 2 ^ 32

namespace Workload

variable (w : Workload)

/-- The number of workers. -/
def workers : Nat := w.batchSizes.length

/-- How long worker `i` takes for a batch. -/
def statistic (i : Nat) : Nat := w.statistics.getD i 0

/-- When worker `i` completes its first batch. -/
def first (i : Nat) : Nat := (w.progress.getD i 0 + w.statistic i) % 2 ^ 64

/-- The batches that worker `i` completes before a bound. -/
def completions (bound i : Nat) : Nat := Recurring.before (w.first i) (w.statistic i) bound

/-- The samples of these batches. -/
def total (bound : Nat) : Nat :=
  ((List.range w.workers).map fun i => w.completions bound i * w.batchSizes.getD i 0).sum

/-- Some worker completes a batch at `t`. -/
def IsEvent (t : Nat) : Prop := ∃ i < w.workers, ∃ k, w.first i + k * w.statistic i = t

/-- Before the bound, some worker has been given as many batches as the cap allows. -/
def Capped (bound : Nat) : Prop := ∃ i < w.workers, 0 < w.completions bound i ∧ w.cap ≤ w.completions bound i

/-- The samples that are left, in 32 bits. -/
def toGo (bound : Nat) : Int := toI32 (w.left - w.total bound)

/-- The variables before the first pass. -/
def start : Projection where
  time := 0
  toGo := toI32 w.left
  updates := List.replicate w.batchSizes.length 0
  nextUpdate := List.zipWith (fun a b => (a + b) % 2 ^ 64) w.progress w.statistics
  capped := false

/-- The condition of the loop. -/
def goes (s : Projection) : Prop := 0 < s.toGo ∧ s.capped = false

instance : DecidablePred goes := fun _ => inferInstanceAs (Decidable (_ ∧ _))

/-- The body of the loop. -/
def body : Projection → Projection := Projection.advance w.batchSizes w.statistics w.cap

/-- What the loop leaves behind. -/
def final : Projection := Projection.final w.progress w.batchSizes w.statistics w.left w.cap

theorem statistic_pos {i : Nat} (hi : i < w.workers) : 0 < w.statistic i := by
  rw [workers, ← w.statistics_length] at hi
  refine w.statistics_pos _ ?_
  rw [statistic, List.getD_eq_getElem?_getD, List.getElem?_eq_getElem hi]
  exact List.getElem_mem hi

theorem first_le (i : Nat) : w.first i ≤ u64Max := by
  have : w.first i < 2 ^ 64 := Nat.mod_lt _ (by decide)
  unfold u64Max
  omega

/-- The loop has counted the completions before `bound`. -/
structure Synced (bound : Nat) (s : Projection) : Prop where
  sized : Projection.Sized w.batchSizes.length s
  done : ∀ i < w.workers, s.done i = w.completions bound i
  next : ∀ i < w.workers, s.next i = min (w.first i + s.done i * w.statistic i) u64Max
  toGo : s.toGo = w.toGo bound
  capped : s.capped = true ↔ w.Capped bound

theorem completions_zero (i : Nat) : w.completions 0 i = 0 := Recurring.before_eq_zero (Nat.zero_le _)

theorem lt_completions_iff {bound i : Nat} (hi : i < w.workers) (k : Nat) :
    k < w.completions bound i ↔ w.first i + k * w.statistic i < bound :=
  Recurring.lt_before_iff (w.statistic_pos hi) k

/-- At an event, somebody has completed a batch. -/
theorem completions_pos {t : Nat} (ht : w.IsEvent t) : ∃ i < w.workers, 0 < w.completions (t + 1) i := by
  obtain ⟨i, hi, k, hk⟩ := ht
  have hlt : k < w.completions (t + 1) i := (w.lt_completions_iff hi k).mpr (Nat.lt_succ_of_le hk.le)
  exact ⟨i, hi, Nat.zero_lt_of_lt hlt⟩

theorem total_zero : w.total 0 = 0 := by
  simp [total, completions_zero]

@[simp] theorem done_start (i : Nat) : w.start.done i = 0 := by
  by_cases hi : i < w.batchSizes.length <;> simp [Projection.done, start, List.getD_eq_getElem?_getD, hi]

theorem toGo_start : w.start.toGo = toI32 w.left := by
  rw [start]

theorem time_start : w.start.time = 0 := by
  rw [start]

theorem next_start {i : Nat} (hi : i < w.workers) : w.start.next i = w.first i := by
  have hp : i < w.progress.length := w.progress_length ▸ hi
  have hs : i < w.statistics.length := w.statistics_length ▸ hi
  unfold Projection.next start first statistic
  simp only [List.getD_eq_getElem?_getD, List.getElem?_zipWith, List.getElem?_eq_getElem hp,
    List.getElem?_eq_getElem hs, Option.getD_some]

theorem synced_start : w.Synced 0 w.start := by
  refine ⟨⟨List.length_replicate, ?_⟩, fun i hi => ?_, fun i hi => ?_, ?_, ?_⟩
  · change (List.zipWith _ _ _).length = _
    rw [List.length_zipWith, w.progress_length, w.statistics_length, Nat.min_self]
  · rw [completions_zero, done_start]
  · rw [next_start w hi, done_start, Nat.zero_mul, Nat.add_zero, Nat.min_eq_left (w.first_le i)]
  · unfold start toGo
    rw [total_zero, Int.natCast_zero, Int.sub_zero]
  · simp [start, Capped, completions_zero]

/-- The completions up to a time at which none is due before. -/
theorem completions_succ {bound t i : Nat} (hi : i < w.workers) (hbound : bound ≤ t)
    (hnext : t ≤ w.first i + w.completions bound i * w.statistic i) :
    w.completions (t + 1) i =
      w.completions bound i + if w.first i + w.completions bound i * w.statistic i = t then 1 else 0 :=
  Recurring.before_succ (w.statistic_pos hi) (Nat.le_succ_of_le hbound) hnext

/-- The samples up to a time at which the workers `is` complete a batch, and none was completed since the bound. -/
theorem total_succ {bound t : Nat} {p : Nat → Bool} (h : ∀ i < w.workers,
      w.completions (t + 1) i = w.completions bound i + if p i = true then 1 else 0) :
    w.total (t + 1) =
      w.total bound + (((List.range w.workers).filter p).map fun i => w.batchSizes.getD i 0).sum := by
  have hterm : w.total (t + 1) = ((List.range w.workers).map fun i =>
      w.completions bound i * w.batchSizes.getD i 0 + if p i = true then w.batchSizes.getD i 0 else 0).sum := by
    unfold total
    refine congrArg List.sum (List.map_congr_left fun i hi => ?_)
    rw [h i (List.mem_range.mp hi), Nat.add_mul]
    split_ifs
    · rw [Nat.one_mul]
    · rw [Nat.zero_mul]
  rw [hterm, List.sum_map_add, List.sum_map_ite]
  simp [total]

/-! ## One pass of the loop -/

variable {w} {bound : Nat} {s : Projection}

theorem Synced.pass (h : w.Synced bound s) :
    (∃ i < w.workers, s.next i = (w.body s).time) ∧ (∀ i < w.workers, (w.body s).time ≤ s.next i) ∧
      Projection.Completed w.batchSizes w.statistics w.cap (Projection.due w.workers s (w.body s).time)
        { s with time := (w.body s).time } (w.body s) := by
  refine Projection.advance_completed w.batchSizes w.statistics w.cap h.sized ?_ w.nonempty
  rw [h.toGo]
  exact toI32_toI32 _

/-- The next completion of a worker was not counted. -/
theorem Synced.le_next (h : w.Synced bound s) {i : Nat} (hi : i < w.workers) :
    bound ≤ w.first i + s.done i * w.statistic i := by
  rw [h.done i hi]
  exact Recurring.le_next (w.statistic_pos hi)

theorem Synced.time_le (h : w.Synced bound s) {i : Nat} (hi : i < w.workers) :
    (w.body s).time ≤ w.first i + s.done i * w.statistic i :=
  (h.pass.2.1 i hi).trans ((h.next i hi).trans_le (Nat.min_le_left _ _))

/-- The loop skips no event. -/
theorem Synced.least (h : w.Synced bound s) {t : Nat} (ht : w.IsEvent t) (hbound : bound ≤ t) :
    (w.body s).time ≤ t := by
  obtain ⟨i, hi, k, rfl⟩ := ht
  have hk : s.done i ≤ k := by
    rw [h.done i hi]
    exact Nat.not_lt.mp fun hlt => Nat.not_lt.mpr hbound ((w.lt_completions_iff hi k).mp hlt)
  exact (h.time_le hi).trans (Nat.add_le_add_left (Nat.mul_le_mul_right _ hk) _)

/-- The time that a pass goes on to does not stand for larger ones. -/
def Exact (w : Workload) (s : Projection) : Prop :=
  ∀ i < w.workers, s.next i = (w.body s).time → w.first i + s.done i * w.statistic i = (w.body s).time

theorem Synced.isEvent (h : w.Synced bound s) (hexact : w.Exact s) :
    w.IsEvent (w.body s).time ∧ bound ≤ (w.body s).time := by
  obtain ⟨i, hi, hmin⟩ := h.pass.1
  refine ⟨⟨i, hi, s.done i, hexact i hi hmin⟩, ?_⟩
  rw [← hexact i hi hmin]
  exact h.le_next hi

theorem Synced.mem_due (h : w.Synced bound s) (hexact : w.Exact s) {i : Nat} (hi : i < w.workers) :
    i ∈ Projection.due w.workers s (w.body s).time ↔ w.first i + s.done i * w.statistic i = (w.body s).time := by
  rw [Projection.mem_due]
  refine ⟨fun hn => hexact i hi hn.2, fun hn => ⟨hi, ?_⟩⟩
  obtain ⟨m, hm, hmin⟩ := h.pass.1
  have htime : (w.body s).time ≤ u64Max := hmin ▸ (h.next m hm).trans_le (Nat.min_le_right _ _)
  rw [h.next i hi, hn, Nat.min_eq_left htime]

theorem Synced.completions_body (h : w.Synced bound s) (hexact : w.Exact s) {i : Nat} (hi : i < w.workers) :
    w.completions ((w.body s).time + 1) i =
      s.done i + if i ∈ Projection.due w.workers s (w.body s).time then 1 else 0 := by
  rw [completions_succ w hi (h.isEvent hexact).2 (h.done i hi ▸ h.time_le hi), ← h.done i hi]
  simp only [h.mem_due hexact hi]

/-- A worker that has completed a batch is short of the cap while the loop goes on. -/
theorem Synced.short (h : w.Synced bound s) (hgoes : goes s) {i : Nat} (hi : i < w.workers) (hpos : 0 < s.done i) :
    s.done i < w.cap := by
  refine Nat.not_le.mp fun hle => ?_
  have hcapped := h.capped.mpr ⟨i, hi, h.done i hi ▸ hpos, h.done i hi ▸ hle⟩
  exact Bool.false_ne_true (hgoes.2.symm.trans hcapped)

theorem Synced.done_body (h : w.Synced bound s) (hgoes : goes s) (hexact : w.Exact s) {i : Nat} (hi : i < w.workers) :
    (w.body s).done i = w.completions ((w.body s).time + 1) i := by
  have hsmall : s.done i + 1 ≤ 2 ^ 32 - 1 := by
    have hcap := w.cap_lt
    rcases Nat.eq_zero_or_pos (s.done i) with hzero | hpos
    · omega
    · have := h.short hgoes hi hpos
      omega
  rw [h.pass.2.2.done, h.completions_body hexact hi]
  split_ifs
  · exact Nat.min_eq_left hsmall
  · rfl

theorem Synced.next_body (h : w.Synced bound s) (hgoes : goes s) (hexact : w.Exact s) {i : Nat} (hi : i < w.workers) :
    (w.body s).next i = min (w.first i + (w.body s).done i * w.statistic i) u64Max := by
  rw [h.pass.2.2.next, h.done_body hgoes hexact hi, h.completions_body hexact hi]
  by_cases hd : i ∈ Projection.due w.workers s (w.body s).time
  · rw [if_pos hd, if_pos hd]
    change min (s.next i + w.statistic i) u64Max = _
    rw [(Projection.mem_due.mp hd).2, ← (h.mem_due hexact hi).mp hd, Nat.succ_mul, Nat.add_assoc]
  · rw [if_neg hd, if_neg hd]
    exact h.next i hi

theorem Synced.toGo_body (h : w.Synced bound s) (hexact : w.Exact s) :
    (w.body s).toGo = w.toGo ((w.body s).time + 1) := by
  have htotal : w.total ((w.body s).time + 1) = w.total bound +
      ((Projection.due w.workers s (w.body s).time).map fun i => w.batchSizes.getD i 0).sum :=
    w.total_succ fun i hi => by
      rw [h.completions_body hexact hi, h.done i hi]
      simp [Projection.mem_due, hi]
  rw [h.pass.2.2.toGo]
  change toI32 (s.toGo - _) = _
  rw [h.toGo]
  unfold Workload.toGo
  rw [toI32_toI32_sub, htotal, Int.natCast_add, Int.sub_sub]

theorem Synced.capped_body (h : w.Synced bound s) (hgoes : goes s) (hexact : w.Exact s) :
    (w.body s).capped = true ↔ w.Capped ((w.body s).time + 1) := by
  rw [h.pass.2.2.capped]
  change s.capped = true ∨ _ ↔ _
  rw [hgoes.2]
  constructor
  · rintro (hfalse | ⟨i, hi, hcap⟩)
    · exact absurd hfalse Bool.false_ne_true
    · have hlt := (Projection.mem_due.mp hi).1
      rw [h.done_body hgoes hexact hlt] at hcap
      refine ⟨i, hlt, ?_, hcap⟩
      rw [h.completions_body hexact hlt, if_pos hi]
      exact Nat.succ_pos _
  · rintro ⟨i, hi, hpos, hcap⟩
    -- who is not due has not reached the cap, since the loop went on
    by_cases hd : i ∈ Projection.due w.workers s (w.body s).time
    · exact Or.inr ⟨i, hd, h.done_body hgoes hexact hi ▸ hcap⟩
    · rw [h.completions_body hexact hi, if_neg hd] at hpos hcap
      exact absurd (h.short hgoes hi hpos) (Nat.not_lt.mpr hcap)

/-- **One pass.** -/
theorem Synced.advance (h : w.Synced bound s) (hgoes : goes s) (hexact : w.Exact s) :
    w.Synced ((w.body s).time + 1) (w.body s) where
  sized := h.pass.2.2.sized
  done _ hi := h.done_body hgoes hexact hi
  next _ hi := h.next_body hgoes hexact hi
  toGo := h.toGo_body hexact
  capped := h.capped_body hgoes hexact

variable (w)

/-! ## Termination -/

/-- What every pass keeps: no worker is given more batches than the cap allows, or one if the cap is zero, and as long
as the loop may go on every worker that was given some is short of the cap. -/
structure Bounded (s : Projection) : Prop where
  sized : Projection.Sized w.batchSizes.length s
  toGo : toI32 s.toGo = s.toGo
  le : ∀ i < w.workers, s.done i ≤ max 1 w.cap
  lt : s.capped = false → ∀ i < w.workers, 0 < s.done i → s.done i < w.cap

/-- All batches that the workers were given. -/
def given (s : Projection) : Nat := ((List.range w.workers).map s.done).sum

theorem bounded_start : w.Bounded w.start := by
  refine ⟨w.synced_start.sized, ?_, fun i _ => ?_, fun _ i _ hpos => ?_⟩
  · rw [w.synced_start.toGo]
    exact toI32_toI32 _
  · rw [done_start]
    exact Nat.zero_le _
  · rw [done_start] at hpos
    exact absurd hpos (Nat.lt_irrefl 0)

variable {w}

/-- A pass gives somebody a batch, and takes none away. -/
theorem Bounded.body (h : w.Bounded s) (hgoes : goes s) :
    w.Bounded (w.body s) ∧ w.given s < w.given (w.body s) ∧ ∀ i, i < w.workers → s.done i ≤ (w.body s).done i := by
  obtain ⟨⟨m, hm, hmin⟩, -, hpass⟩ :=
    Projection.advance_completed w.batchSizes w.statistics w.cap h.sized h.toGo w.nonempty
  have hcap := w.cap_lt
  have hlt := h.lt hgoes.2
  generalize hbody : Projection.advance w.batchSizes w.statistics w.cap s = s' at hmin hpass
  rw [show w.body s = s' from hbody]
  have hdone : ∀ i < w.workers, s'.done i =
      s.done i + if i ∈ Projection.due w.batchSizes.length s s'.time then 1 else 0 := by
    intro i hi
    have hsmall : s.done i + 1 ≤ 2 ^ 32 - 1 := by
      rcases Nat.eq_zero_or_pos (s.done i) with hzero | hpos
      · omega
      · have := hlt i hi hpos
        omega
    rw [hpass.done]
    split_ifs
    · exact Nat.min_eq_left hsmall
    · rfl
  have hmono : ∀ i < w.workers, s.done i ≤ s'.done i := fun i hi => by
    rw [hdone i hi]
    exact Nat.le_add_right _ _
  refine ⟨⟨hpass.sized, ?_, fun i hi => ?_, fun hopen i hi hpos => ?_⟩, ?_, hmono⟩
  · rw [hpass.toGo]
    exact toI32_toI32 _
  · rw [hdone i hi]
    rcases Nat.eq_zero_or_pos (s.done i) with hzero | hpos
    · split_ifs <;> omega
    · have := hlt i hi hpos
      split_ifs <;> omega
  · by_contra hle
    rw [Nat.not_lt] at hle
    by_cases hd : i ∈ Projection.due w.batchSizes.length s s'.time
    · have := hpass.capped.mpr (Or.inr ⟨i, hd, hle⟩)
      rw [hopen] at this
      exact Bool.false_ne_true this
    · rw [hdone i hi, if_neg hd, Nat.add_zero] at hpos hle
      exact absurd (hlt i hi hpos) (Nat.not_lt.mpr hle)
  · refine List.sum_lt_sum _ _ (fun i hi => hmono i (List.mem_range.mp hi)) ⟨m, List.mem_range.mpr hm, ?_⟩
    rw [hdone m hm, if_pos (Projection.mem_due.mpr ⟨hm, hmin⟩)]
    exact Nat.lt_succ_self _

theorem Bounded.given_le (h : w.Bounded s) (hopen : s.capped = false) :
    w.given s ≤ w.workers * w.cap := by
  have hle : ∀ x ∈ (List.range w.workers).map s.done, x ≤ w.cap := by
    intro x hx
    obtain ⟨i, hi, rfl⟩ := List.mem_map.mp hx
    exact Nat.not_lt.mp fun hlt => Nat.not_lt.mpr hlt.le (h.lt hopen i (List.mem_range.mp hi) (Nat.zero_lt_of_lt hlt))
  have hsum := List.sum_le_card_nsmul _ _ hle
  rw [List.length_map, List.length_range] at hsum
  exact hsum

variable (w)

theorem loop_eq_iterate (fuel : Nat) : ∀ s : Projection,
    Projection.loop w.batchSizes w.statistics w.cap fuel s = Loop.iterate goes w.body fuel s := by
  induction fuel with
  | zero => exact fun _ => rfl
  | succ fuel ih =>
    intro s
    unfold Projection.loop Loop.iterate
    rw [ih]
    rfl

/-- **The loop ends**: every pass gives out a batch, and with all workers at the cap there are none left to give. -/
theorem ends_final : Loop.Ends goes w.body w.start w.final := by
  have hfinal : w.final = Loop.iterate goes w.body (w.workers * w.cap + 1) w.start := w.loop_eq_iterate _ _
  rw [hfinal]
  refine Loop.ends_iterate (I := w.Bounded)
    (fun s => if s.capped = true then 0 else w.workers * w.cap + 1 - w.given s)
    (fun s h hgoes => (h.body hgoes).1) (fun s h hgoes => ?_) w.bounded_start ?_
  · have hle := h.given_le hgoes.2
    have hlt := (h.body hgoes).2.1
    simp only [hgoes.2, Bool.false_eq_true, if_false]
    split_ifs <;> omega
  · exact Nat.sub_le _ _

theorem bounded_final : w.Bounded w.final :=
  (w.ends_final.rule (fun _ h hgoes => (h.body hgoes).1) w.bounded_start).1

end Workload

end Hypha
