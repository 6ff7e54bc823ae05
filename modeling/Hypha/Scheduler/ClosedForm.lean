import Mathlib.Order.Bounds.Defs
import Hypha.Scheduler.Projection

/-!
# The projection in closed form

While all times fit into a `u64`, the loop visits the times at which batches are completed in their order.

* `Reached` : how far the loop has come; `reached_final` : where it ends;
* `project_closed_form` : what `BasicSimulation::project` returns as a function of the time it returns;
* `stops_right_iff` : when that time is the first one at which the samples suffice or a worker is at the cap.
-/

namespace Hypha

open Hypha.Lib

namespace Workload

variable (w : Workload)

/-- No time that the loop can come to exceeds a `u64`. -/
def Fits : Prop := ∀ i < w.workers, w.progress.getD i 0 + (w.cap + 1) * w.statistic i < 2 ^ 64

/-- What stops the loop at `t`: a worker is at the cap, or no samples are left in 32 bits. -/
def Stops (t : Nat) : Prop := w.Capped (t + 1) ∨ w.toGo (t + 1) ≤ 0

/-- The loop has come to the bound: it has not begun, or it is at an event before which it did not have to stop. -/
inductive Reached : Nat → Projection → Prop where
  | start : Reached 0 w.start
  | event {s : Projection} (left : 0 < toI32 w.left) (event : w.IsEvent s.time)
      (past : ∀ t, w.IsEvent t → t < s.time → ¬ w.Stops t) : Reached (s.time + 1) s

variable {w}

theorem first_eq (hfits : w.Fits) {i : Nat} (hi : i < w.workers) :
    w.first i = w.progress.getD i 0 + w.statistic i := by
  have hfit := hfits i hi
  rw [Nat.succ_mul] at hfit
  exact Nat.mod_eq_of_lt (by omega)

/-- The next completion of a worker that is short of the cap is not cut off. -/
theorem next_fits (hfits : w.Fits) {s : Projection} (h : w.Bounded s) (hgoes : goes s) {i : Nat} (hi : i < w.workers) :
    w.first i + s.done i * w.statistic i ≤ u64Max := by
  have hfit := hfits i hi
  have hle : (s.done i + 1) * w.statistic i ≤ (w.cap + 1) * w.statistic i := by
    refine Nat.mul_le_mul_right _ ?_
    rcases Nat.eq_zero_or_pos (s.done i) with hzero | hpos
    · omega
    · have := h.lt hgoes.2 i hi hpos
      omega
  rw [Nat.succ_mul] at hle
  rw [first_eq hfits hi]
  unfold u64Max
  omega

theorem exact_of_fits (hfits : w.Fits) {bound : Nat} {s : Projection} (h : w.Synced bound s) (hb : w.Bounded s)
    (hgoes : goes s) : w.Exact s := by
  intro i hi hnext
  rw [← hnext, h.next i hi, Nat.min_eq_left (next_fits hfits hb hgoes hi)]

/-- Where the loop goes on, nothing stops it. -/
theorem Synced.not_stops {s : Projection} (h : w.Synced (s.time + 1) s) (hgoes : goes s) : ¬ w.Stops s.time := by
  rintro (hcap | hgo)
  · exact Bool.false_ne_true (hgoes.2.symm.trans (h.capped.mpr hcap))
  · rw [← h.toGo] at hgo
    exact absurd hgoes.1 (Int.not_lt.mpr hgo)

theorem Reached.body {bound : Nat} {s : Projection} (hr : w.Reached bound s) (h : w.Synced bound s) (hgoes : goes s)
    (hexact : w.Exact s) : w.Reached ((w.body s).time + 1) (w.body s) := by
  have hevent := (h.isEvent hexact).1
  cases hr with
  | start =>
    have hleft : 0 < toI32 w.left := by
      rw [← w.toGo_start]
      exact hgoes.1
    exact Reached.event hleft hevent fun t ht hlt => absurd (h.least ht (Nat.zero_le t)) (Nat.not_le.mpr hlt)
  | event left _ past =>
    refine Reached.event left hevent fun t ht hlt => ?_
    -- an event before the one the loop goes on to is the one it is at, or an earlier one
    have hle : t ≤ s.time := Nat.le_of_lt_succ (Nat.not_le.mp fun hle => Nat.not_le.mpr hlt (h.least ht hle))
    rcases hle.lt_or_eq with hlt | rfl
    · exact past t ht hlt
    · exact h.not_stops hgoes

/-- The loop ends where it begins if no samples are left in 32 bits, and else at an event that stops it. -/
theorem Reached.ended {bound : Nat} {s : Projection} (hr : w.Reached bound s) (h : w.Synced bound s)
    (hdone : ¬ goes s) :
    (toI32 w.left ≤ 0 ∧ s = w.start) ∨
      (0 < toI32 w.left ∧ w.IsEvent s.time ∧ s.time < bound ∧ w.Stops s.time ∧
        ∀ t, w.IsEvent t → t < s.time → ¬ w.Stops t) := by
  cases hr with
  | start =>
    refine Or.inl ⟨Int.not_lt.mp fun hlt => hdone ⟨?_, rfl⟩, rfl⟩
    rw [w.toGo_start]
    exact hlt
  | event left event past =>
    refine Or.inr ⟨left, event, Nat.lt_succ_self _, ?_, past⟩
    by_contra hstops
    unfold Stops at hstops
    rw [not_or, ← h.capped, ← h.toGo, Bool.not_eq_true, Int.not_le] at hstops
    exact hdone ⟨hstops.2, hstops.1⟩

/-- **Where the loop ends**: it has not begun, or it is at the first event that stops it. -/
theorem reached_final (hfits : w.Fits) :
    (toI32 w.left ≤ 0 ∧ w.final = w.start) ∨
      (0 < toI32 w.left ∧ w.Synced (w.final.time + 1) w.final ∧
        IsLeast {t | w.IsEvent t ∧ w.Stops t} w.final.time) := by
  obtain ⟨⟨-, bound, hsynced, hreached⟩, hdone⟩ :=
    w.ends_final.rule (I := fun s => w.Bounded s ∧ ∃ bound, w.Synced bound s ∧ w.Reached bound s)
      (fun s h hgoes => by
        obtain ⟨hb, bound, hsynced, hreached⟩ := h
        have hexact := exact_of_fits hfits hsynced hb hgoes
        exact ⟨(hb.body hgoes).1, _, hsynced.advance hgoes hexact, hreached.body hsynced hgoes hexact⟩)
      ⟨w.bounded_start, 0, w.synced_start, Reached.start⟩
  generalize w.final = s at hsynced hreached hdone
  rcases hreached.ended hsynced hdone with hnone | ⟨left, event, hlt, hstops, past⟩
  · exact Or.inl hnone
  · have hbound : bound = s.time + 1 := by
      cases hreached with
      | start => exact absurd hlt (Nat.not_lt_zero _)
      | event _ _ _ => rfl
    subst hbound
    exact Or.inr ⟨left, hsynced, ⟨event, hstops⟩, fun t ht => Nat.not_lt.mp fun hlt => past t ht.1 hlt ht.2⟩

/-! ## The values that are returned -/

variable (w)

/-- For every worker the number of its completions `progress + k * statistic`, `1 ≤ k`, up to `t`. -/
noncomputable def updatesAt (t : Nat) : List Nat :=
  List.zipWith (fun p d => Set.ncard {k : Nat | 1 ≤ k ∧ p + k * d ≤ t}) w.progress w.statistics

/-- The samples of batches of the given sizes. -/
def samples (updates batchSizes : List Nat) : Nat := (List.zipWith (· * ·) updates batchSizes).sum

variable {w}

theorem updatesAt_eq (hfits : w.Fits) (t : Nat) :
    w.updatesAt t = (List.range w.workers).map (w.completions (t + 1)) := by
  have hlength : (w.updatesAt t).length = w.workers := by
    unfold updatesAt
    rw [List.length_zipWith, w.progress_length, w.statistics_length, Nat.min_self]
    rfl
  refine List.ext_getElem (by simpa using hlength) fun i hi _ => ?_
  rw [hlength] at hi
  have hp : i < w.progress.length := w.progress_length ▸ hi
  have hs : i < w.statistics.length := w.statistics_length ▸ hi
  have hprogress : w.progress.getD i 0 = w.progress[i] := by
    rw [List.getD_eq_getElem?_getD, List.getElem?_eq_getElem hp, Option.getD_some]
  have hstatistic : w.statistic i = w.statistics[i] := by
    rw [statistic, List.getD_eq_getElem?_getD, List.getElem?_eq_getElem hs, Option.getD_some]
  simp only [updatesAt, List.getElem_zipWith, List.getElem_map, List.getElem_range]
  rw [← hprogress, ← hstatistic, Recurring.ncard_multiples (w.statistic_pos hi), ← first_eq hfits hi]
  rfl

theorem samples_map (f : Nat → Nat) : samples ((List.range w.workers).map f) w.batchSizes =
    ((List.range w.workers).map fun i => f i * w.batchSizes.getD i 0).sum := by
  refine congrArg List.sum (List.ext_getElem (by simp [workers]) fun i hi _ => ?_)
  have hb : i < w.batchSizes.length := by
    rw [List.length_zipWith] at hi
    omega
  simp [List.getD_eq_getElem?_getD, hb]

theorem samples_updatesAt (hfits : w.Fits) (t : Nat) : samples (w.updatesAt t) w.batchSizes = w.total (t + 1) := by
  rw [updatesAt_eq hfits, samples_map]
  rfl

theorem Synced.updates_eq {bound : Nat} {s : Projection} (h : w.Synced bound s) :
    s.updates = (List.range w.workers).map (w.completions bound) := by
  refine List.ext_getElem (by simpa [workers] using h.sized.updates) fun i hi _ => ?_
  have hdone := h.done i (by rwa [h.sized.updates] at hi)
  unfold Projection.done at hdone
  rw [List.getD_eq_getElem?_getD, List.getElem?_eq_getElem hi, Option.getD_some] at hdone
  simpa using hdone

/-- Up to an event, somebody is at the cap if and only if the event is `Capped`. -/
theorem capped_iff (hfits : w.Fits) {t : Nat} (ht : w.IsEvent t) :
    w.Capped (t + 1) ↔ ∃ u ∈ w.updatesAt t, w.cap ≤ u := by
  rw [updatesAt_eq hfits]
  constructor
  · rintro ⟨i, hi, -, hcap⟩
    exact ⟨_, List.mem_map.mpr ⟨i, List.mem_range.mpr hi, rfl⟩, hcap⟩
  · rintro ⟨u, hu, hcap⟩
    obtain ⟨i, hi, rfl⟩ := List.mem_map.mp hu
    rcases Nat.eq_zero_or_pos (w.completions (t + 1) i) with hzero | hpos
    · -- a cap of zero is met by whoever completes a batch at the event
      obtain ⟨j, hj, hlt⟩ := w.completions_pos ht
      exact ⟨j, hj, hlt, by omega⟩
    · exact ⟨i, List.mem_range.mp hi, hpos, hcap⟩

/-- A pass adds at most one batch of each worker. -/
theorem total_succ_le {bound t : Nat} (hbound : bound ≤ t) (ht : ∀ u, w.IsEvent u → bound ≤ u → t ≤ u) :
    w.total (t + 1) ≤ w.total bound + w.batchSizes.sum := by
  have hsizes : w.batchSizes.sum = ((List.range w.workers).map fun i => w.batchSizes.getD i 0).sum := by
    refine congrArg List.sum (List.ext_getElem (by simp [workers]) fun i hi _ => ?_)
    simp [List.getD_eq_getElem?_getD, hi]
  rw [hsizes]
  unfold total
  rw [← List.sum_map_add]
  refine List.sum_le_sum fun i hi => ?_
  have hi := List.mem_range.mp hi
  have hnext : t ≤ w.first i + w.completions bound i * w.statistic i :=
    ht _ ⟨i, hi, _, rfl⟩ (Recurring.le_next (w.statistic_pos hi))
  rw [w.completions_succ hi hbound hnext, Nat.add_mul]
  split_ifs <;> omega

/-- While the batch sizes sum up to less than `2^31`, the remaining count is exact. -/
theorem toGo_final (hfits : w.Fits) (hleft : w.left < 2 ^ 31) (hsum : w.batchSizes.sum < 2 ^ 31) :
    w.final.toGo = w.left - samples w.final.updates w.batchSizes := by
  obtain ⟨-, bound, hsynced, hsmall⟩ :=
    (w.ends_final.rule (I := fun s => w.Bounded s ∧ ∃ bound, w.Synced bound s ∧ w.total bound < w.left + 2 ^ 31)
      (fun s h hgoes => by
        obtain ⟨hb, bound, hsynced, hsmall⟩ := h
        have hexact := exact_of_fits hfits hsynced hb hgoes
        refine ⟨(hb.body hgoes).1, _, hsynced.advance hgoes hexact, ?_⟩
        have hgo := hgoes.1
        rw [hsynced.toGo, toGo, toI32_of_lt (by omega) (by omega)] at hgo
        have hle := total_succ_le (hsynced.isEvent hexact).2 fun u => hsynced.least
        omega)
      ⟨w.bounded_start, 0, w.synced_start, by rw [total_zero]; omega⟩).1
  rw [hsynced.toGo, hsynced.updates_eq, samples_map]
  exact toI32_of_lt (by omega) (by omega)

/-- **The projection in closed form.** -/
theorem project_closed_form (w : Workload) (hfits : w.Fits) (hpos : 0 < w.left) (hleft : w.left < 2 ^ 31)
    (hsum : w.batchSizes.sum < 2 ^ 31) :
    ∃ s, Loop.Ends goes w.body w.start s ∧
      basicSimulation.project w.progress w.batchSizes w.statistics w.left w.cap =
        (s.time, s.toGo, s.updates, s.capped) ∧
      s.updates = w.updatesAt s.time ∧ (∀ u ∈ s.updates, u ≤ max 1 w.cap) ∧
      s.toGo = w.left - samples s.updates w.batchSizes ∧ (s.capped = true ↔ ∃ u ∈ s.updates, w.cap ≤ u) := by
  refine ⟨w.final, w.ends_final, rfl, ?_⟩
  have hgo : ¬ toI32 w.left ≤ 0 := by
    rw [toI32_of_lt (by omega) (by omega)]
    omega
  obtain ⟨-, hsynced, ⟨hevent, -⟩, -⟩ := (reached_final hfits).resolve_left fun h => hgo h.1
  have hupdates : w.final.updates = w.updatesAt w.final.time := by
    rw [hsynced.updates_eq, updatesAt_eq hfits]
  refine ⟨hupdates, fun u hu => ?_, toGo_final hfits hleft hsum, ?_⟩
  · rw [hsynced.updates_eq] at hu
    obtain ⟨i, hi, rfl⟩ := List.mem_map.mp hu
    rw [← hsynced.done i (List.mem_range.mp hi)]
    exact w.bounded_final.le i (List.mem_range.mp hi)
  · rw [hsynced.capped, hupdates]
    exact capped_iff hfits hevent

/-- The first call of the source's tests. -/
def stepsCap : Workload where
  progress := [0, 0, 0]
  batchSizes := [10, 5, 1]
  statistics := [20, 30, 50]
  left := 9999
  cap := 3
  progress_length := rfl
  statistics_length := rfl
  nonempty := by decide
  statistics_pos := by decide
  cap_lt := by decide

theorem fits_stepsCap : stepsCap.Fits := by
  unfold Fits workers
  decide

/-- The projection of `test_simulation_hits_steps_cap`. -/
theorem project_closed_form_stepsCap :
    ∃ s, Loop.Ends goes stepsCap.body stepsCap.start s ∧
      basicSimulation.project [0, 0, 0] [10, 5, 1] [20, 30, 50] 9999 3 = (s.time, s.toGo, s.updates, s.capped) ∧
      s.updates = stepsCap.updatesAt s.time ∧ (∀ u ∈ s.updates, u ≤ max 1 3) ∧
      s.toGo = 9999 - samples s.updates [10, 5, 1] ∧ (s.capped = true ↔ ∃ u ∈ s.updates, 3 ≤ u) :=
  project_closed_form stepsCap fits_stepsCap (by decide) (by decide) (by decide)

/-! ## The time that is returned -/

section Time

variable (w)

/-- At `t` a worker completes a batch, and then the samples suffice or a worker is at the cap. -/
def Meets (t : Nat) : Prop :=
  (∃ i < w.workers, ∃ k, 1 ≤ k ∧ w.progress.getD i 0 + k * w.statistic i = t) ∧
    (w.left ≤ samples (w.updatesAt t) w.batchSizes ∨ ∃ u ∈ w.updatesAt t, w.cap ≤ u)

/-- The projection stops at the first such time, and some worker completes a batch until then. -/
def StopsRight : Prop :=
  let result := basicSimulation.project w.progress w.batchSizes w.statistics w.left w.cap
  IsLeast {t | w.Meets t} result.1 ∧ ∃ u ∈ result.2.2.1, 0 < u

theorem project_eq : basicSimulation.project w.progress w.batchSizes w.statistics w.left w.cap =
    (w.final.time, w.final.toGo, w.final.updates, w.final.capped) := rfl

variable {w}

theorem stopsRight_iff {time : Nat} {toGo : Int} {updates : List Nat} {capped : Bool}
    (h : basicSimulation.project w.progress w.batchSizes w.statistics w.left w.cap = (time, toGo, updates, capped)) :
    w.StopsRight ↔ IsLeast {t | w.Meets t} time ∧ ∃ u ∈ updates, 0 < u := by
  unfold StopsRight
  rw [h]

theorem isEvent_iff (hfits : w.Fits) {t : Nat} :
    w.IsEvent t ↔ ∃ i < w.workers, ∃ k, 1 ≤ k ∧ w.progress.getD i 0 + k * w.statistic i = t := by
  constructor
  · rintro ⟨i, hi, k, rfl⟩
    refine ⟨i, hi, k + 1, Nat.succ_pos k, ?_⟩
    rw [first_eq hfits hi, Nat.succ_mul]
    omega
  · rintro ⟨i, hi, k, hk, rfl⟩
    obtain ⟨j, rfl⟩ : ∃ j, k = j + 1 := ⟨k - 1, by omega⟩
    refine ⟨i, hi, j, ?_⟩
    rw [first_eq hfits hi, Nat.succ_mul]
    omega

theorem meets_iff (hfits : w.Fits) {t : Nat} :
    w.Meets t ↔ w.IsEvent t ∧ (w.left ≤ w.total (t + 1) ∨ w.Capped (t + 1)) := by
  unfold Meets
  rw [← isEvent_iff hfits, samples_updatesAt hfits]
  exact and_congr_right fun ht => or_congr_right (capped_iff hfits ht).symm

/-- No sample is missing in 32 bits: then none is missing, and what is too much does not wrap around. -/
theorem toGo_le_zero_iff (hleft : w.left < 2 ^ 31) {bound : Nat} :
    w.toGo bound ≤ 0 ↔ w.left ≤ w.total bound ∧ (w.total bound - w.left) % 2 ^ 32 ≤ 2 ^ 31 := by
  unfold toGo
  by_cases hle : w.left ≤ w.total bound
  · rw [← toI32_neg_le_zero_iff, Int.natCast_sub hle, Int.neg_sub, and_iff_right hle]
  · rw [toI32_of_lt (by omega) (by omega)]
    exact ⟨fun h => by omega, fun h => absurd h.1 hle⟩

/-- A projection that has not begun is not at an event. -/
theorem not_meets_zero : ¬ w.Meets 0 := by
  rintro ⟨⟨i, hi, k, hk, h⟩, -⟩
  have := Nat.mul_pos hk (w.statistic_pos hi)
  omega

/-- At an event at which the projection should stop it does, unless the surplus wraps around. -/
theorem stops_iff (hfits : w.Fits) (hleft : w.left < 2 ^ 31) {t : Nat} (ht : w.Meets t) :
    w.Stops t ↔ (∃ u ∈ w.updatesAt t, w.cap ≤ u) ∨
      (samples (w.updatesAt t) w.batchSizes - w.left) % 2 ^ 32 ≤ 2 ^ 31 := by
  obtain ⟨hevent, htotal⟩ := (meets_iff hfits).mp ht
  rw [← capped_iff hfits hevent, samples_updatesAt hfits]
  unfold Stops
  rw [toGo_le_zero_iff hleft]
  by_cases hcap : w.Capped (t + 1)
  · exact iff_of_true (Or.inl hcap) (Or.inl hcap)
  · rw [and_iff_right (htotal.resolve_right hcap)]

theorem meets_of_stops (hfits : w.Fits) (hleft : w.left < 2 ^ 31) {t : Nat} (ht : w.IsEvent t) (hstops : w.Stops t) :
    w.Meets t :=
  (meets_iff hfits).mpr ⟨ht, hstops.symm.imp_left fun h => ((toGo_le_zero_iff hleft).mp h).1⟩

/-- **When the projection stops at the right event.** -/
theorem stops_right_iff (w : Workload) (hfits : w.Fits) (hpos : 0 < w.left) (hleft : w.left < 2 ^ 32) :
    w.StopsRight ↔ w.left < 2 ^ 31 ∧ ∀ t, IsLeast {t | w.Meets t} t →
      (∃ u ∈ w.updatesAt t, w.cap ≤ u) ∨ (samples (w.updatesAt t) w.batchSizes - w.left) % 2 ^ 32 ≤ 2 ^ 31 := by
  rw [stopsRight_iff w.project_eq]
  by_cases hsmall : w.left < 2 ^ 31
  · have hgo : ¬ toI32 w.left ≤ 0 := by
      rw [toI32_of_lt (by omega) (by omega)]
      omega
    obtain ⟨-, hsynced, ⟨hevent, hstops⟩, hleast⟩ := (reached_final hfits).resolve_left fun h => hgo h.1
    generalize w.final = s at hsynced hevent hstops hleast ⊢
    have hmeets := meets_of_stops hfits hsmall hevent hstops
    constructor
    · rintro ⟨htime, -⟩
      refine ⟨hsmall, fun t ht => ?_⟩
      rw [ht.unique htime]
      exact (stops_iff hfits hsmall hmeets).mp hstops
    · rintro ⟨-, hright⟩
      -- the first time that meets the claim stops the loop, and no earlier one does
      obtain ⟨t, ht⟩ : ∃ t, IsLeast {t | w.Meets t} t := by
        classical
        exact ⟨Nat.find ⟨_, hmeets⟩, Nat.find_spec ⟨_, hmeets⟩, fun _ hu => Nat.find_min' ⟨_, hmeets⟩ hu⟩
      have htime : t = s.time := Nat.le_antisymm (ht.2 hmeets)
        (hleast ⟨((meets_iff hfits).mp ht.1).1, (stops_iff hfits hsmall ht.1).mpr (hright t ht)⟩)
      refine ⟨htime ▸ ht, ?_⟩
      obtain ⟨i, hi, hlt⟩ := w.completions_pos hevent
      rw [hsynced.updates_eq]
      exact ⟨_, List.mem_map.mpr ⟨i, List.mem_range.mpr hi, rfl⟩, hlt⟩
  · -- the samples read as none left, and no pass is made
    have hnone := toI32_le_zero (Nat.not_lt.mp hsmall) hleft
    have hfinal := ((reached_final hfits).resolve_right fun h => absurd h.1 (not_lt.mpr hnone)).2
    have htime : w.final.time = 0 := by rw [hfinal, time_start]
    generalize w.final = s at htime ⊢
    rw [htime]
    constructor
    · intro h
      exact absurd h.1.1 not_meets_zero
    · intro h
      exact absurd h.1 hsmall

theorem stops_right_stepsCap :
    stepsCap.StopsRight ↔ stepsCap.left < 2 ^ 31 ∧ ∀ t, IsLeast {t | stepsCap.Meets t} t →
      (∃ u ∈ stepsCap.updatesAt t, stepsCap.cap ≤ u) ∨
        (samples (stepsCap.updatesAt t) stepsCap.batchSizes - stepsCap.left) % 2 ^ 32 ≤ 2 ^ 31 :=
  stops_right_iff stepsCap fits_stepsCap (by decide) (by decide)

/-- One worker, with one sample in a batch, and `2^31` samples missing. -/
def halfRange : Workload where
  progress := [0]
  batchSizes := [1]
  statistics := [1]
  left := 2 ^ 31
  cap := 1
  progress_length := rfl
  statistics_length := rfl
  nonempty := by decide
  statistics_pos := by decide
  cap_lt := by decide

/-- The missing samples are negative as an `i32`, and the worker is given no batch. -/
theorem stops_right_fails : halfRange.Fits ∧ 0 < halfRange.left ∧ halfRange.left < 2 ^ 32 ∧ ¬ halfRange.StopsRight := by
  refine ⟨?_, by decide, by decide, fun h => ?_⟩
  · unfold Fits workers
    decide
  · have hproject : basicSimulation.project [0] [1] [1] (2 ^ 31) 1 = (0, -2 ^ 31, [0], false) := by decide
    have hupdates := ((stopsRight_iff (w := halfRange) hproject).mp h).2
    simp at hupdates

end Time

end Workload

end Hypha
