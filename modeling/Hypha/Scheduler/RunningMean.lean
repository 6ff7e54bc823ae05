import Mathlib.Algebra.Order.Field.Basic
import Mathlib.Data.Rat.Cast.Order
import Mathlib.Tactic.FieldSimp
import Mathlib.Tactic.GCongr
import Mathlib.Tactic.Linarith
import Mathlib.Tactic.Ring
import Hypha.Lib.Machine
import Hypha.Scheduler.Statistics

/-!
# The running mean

`RunningMean` is meant to be the mean time of a batch, each update weighted with its number of batches. It adds
`(time / count - mean) / samples` where a weighted mean adds `count` times that.

* `Near` : the value is the weighted mean, up to two for each update;
* `unweighted`, `tdiv_mul_eq_iff` : the updates for which the missing factor makes no difference;
* `near_step`, `near_run` : with such updates only, the value stays near.
-/

namespace Hypha.RunningMean

open Hypha.Lib

/-- The statistic as a machine that takes times and counts. -/
def statistic : Machine RunningMean (Nat × Nat) Unit :=
  ⟨fun self (time, count) => (RuntimeStatistic.update self time count, ())⟩

/-- The run of a list of updates on a new statistic. -/
def run (updates : List (Nat × Nat)) : World RunningMean (Nat × Nat) Unit :=
  statistic.run RuntimeStatistic.default updates

/-- One update of a run. -/
abbrev Update := Event RunningMean (Nat × Nat) Unit

/-- Whether an update has batches. -/
def counts (e : Update) : Bool := decide (0 < e.input.2)

/-- The time of the batches of a list of updates. -/
def sumTimes (h : List Update) : Nat := ((h.filter counts).map (·.input.1)).sum

/-- The batches of a list of updates. -/
def sumCounts (h : List Update) : Nat := (h.map (·.input.2)).sum

/-- The value is the weighted mean, up to two for each update with batches. -/
def Near (w : World RunningMean (Nat × Nat) Unit) : Prop :=
  0 < w.history.countP counts →
    |(RuntimeStatistic.value w.state : ℚ) - sumTimes w.history / sumCounts w.history| ≤ 2 * w.history.countP counts

/-- Whether the weight of an update makes no difference: it is one, there is nothing to weigh it against, or what the
weighted mean would add is less than one. -/
def unweighted (self : RunningMean) (time count : Nat) : Bool :=
  decide (count ≤ 1 ∨ self.samples = 0 ∨
    (count : ℤ) * |((time / count : ℕ) : ℤ) - self.runningMean| < (self.samples + count : ℕ))

/-! ## Truncated quotients -/

theorem abs_tdiv_sub_le (a : ℤ) {b : ℤ} (hb : 0 < b) : |(a.tdiv b : ℚ) - a / b| ≤ 1 := by
  have hbq : (0 : ℚ) < b := by exact_mod_cast hb
  have hsplit : (a : ℚ) = b * (a.tdiv b : ℚ) + (a.tmod b : ℚ) := by exact_mod_cast (Int.mul_tdiv_add_tmod a b).symm
  have hmod : |(a.tmod b : ℚ)| ≤ b := by
    have hlt : (a.tmod b).natAbs < b.natAbs := by
      rw [Int.natAbs_tmod]
      exact Nat.mod_lt _ (by omega)
    have habs : |a.tmod b| ≤ b := by
      rw [abs_le]
      omega
    exact_mod_cast habs
  have heq : (a.tdiv b : ℚ) - a / b = -(a.tmod b : ℚ) / b := by
    rw [hsplit]
    field_simp
    ring
  rw [heq, abs_div, abs_neg, abs_of_pos hbq]
  exact div_le_one_of_le₀ hmod hbq.le

/-- A truncated part of the way from `m` to `q` ends between them. -/
theorem between_of_tdiv (m q : ℤ) (n : ℕ) :
    (m ≤ m + (q - m).tdiv n ∧ m + (q - m).tdiv n ≤ q) ∨ (q ≤ m + (q - m).tdiv n ∧ m + (q - m).tdiv n ≤ m) := by
  obtain ⟨e, he | he⟩ := (q - m).eq_nat_or_neg
  · have hle : e / n ≤ e := Nat.div_le_self e n
    rw [he, ← Int.ofNat_tdiv]
    generalize e / n = k at hle
    omega
  · have hle : e / n ≤ e := Nat.div_le_self e n
    rw [he, Int.neg_tdiv, ← Int.ofNat_tdiv]
    generalize e / n = k at hle
    omega

theorem mul_div_eq_iff {c : ℕ} (hc : 0 < c) (e : ℕ) {n : ℕ} (hn : 0 < n) :
    c * e / n = e / n ↔ c = 1 ∨ c * e < n := by
  constructor
  · intro h
    by_contra hcon
    have htwo : 2 * e ≤ c * e := Nat.mul_le_mul_right e (by omega)
    have hpos : 1 ≤ c * e / n := (Nat.one_le_div_iff hn).mpr (by omega)
    have hle : n ≤ e := by
      by_contra hlt
      rw [Nat.div_eq_of_lt (by omega : e < n)] at h
      omega
    have hmore : e / n + 1 ≤ c * e / n := by
      rw [← Nat.add_div_right e hn]
      exact Nat.div_le_div_right (by omega)
    omega
  · rintro (rfl | hlt)
    · rw [Nat.one_mul]
    · have hle : e ≤ c * e := Nat.le_mul_of_pos_left e hc
      rw [Nat.div_eq_of_lt hlt, Nat.div_eq_of_lt (by omega)]

/-- **A factor makes no difference** to a truncated quotient exactly when it is one or what it yields is cut off. -/
theorem tdiv_mul_eq_iff {c : ℕ} (hc : 0 < c) (d : ℤ) {n : ℕ} (hn : 0 < n) :
    ((c : ℤ) * d).tdiv n = d.tdiv n ↔ c = 1 ∨ (c : ℤ) * |d| < n := by
  have hcast : ∀ e : ℕ, ((c : ℤ) * e).tdiv n = (e : ℤ).tdiv n ↔ c = 1 ∨ (c : ℤ) * e < n := by
    intro e
    have hnat := mul_div_eq_iff hc e hn
    rw [← Int.natCast_mul, ← Int.ofNat_tdiv, ← Int.ofNat_tdiv, Int.natCast_inj, hnat, Int.ofNat_lt]
  obtain ⟨e, rfl | rfl⟩ := d.eq_nat_or_neg
  · rw [hcast, Nat.abs_cast]
  · rw [abs_neg, Nat.abs_cast, mul_neg, Int.neg_tdiv, Int.neg_tdiv, neg_inj, hcast]

/-! ## One update -/

/-- The samples and times that fit. -/
def limit : Nat := 2 ^ 62

theorem toI64_of_lt {x : ℤ} (hneg : -(2 * limit : ℕ) ≤ x) (h : x < (2 * limit : ℕ)) : toI64 x = x := by
  unfold toI64 limit at *
  apply Int.bmod_eq_of_le <;> omega

theorem toU64_of_nonneg {x : ℤ} (h0 : 0 ≤ x) (h : x < limit) : (toU64 x : ℤ) = x := by
  unfold toU64 limit at *
  omega

/-- In range, no cast of an update wraps. -/
theorem toI64_step {m q n : ℕ} (hm : m < limit) (hq : q < limit) (hn : n < limit) :
    toI64 (toI64 m + (toI64 (toI64 q - toI64 m)).tdiv (toI64 n)) = m + ((q : ℤ) - m).tdiv n := by
  have hbetween := between_of_tdiv m q n
  rw [toI64_of_lt (x := m) (by omega) (by omega), toI64_of_lt (x := q) (by omega) (by omega),
    toI64_of_lt (x := n) (by omega) (by omega), toI64_of_lt (x := q - m) (by omega) (by omega),
    toI64_of_lt (by omega) (by omega)]

/-- An update in range: the truncated step towards the time of a batch. -/
theorem update_of_range {self : RunningMean} {time count : Nat} (hc : 0 < count) (hn : 0 < self.samples)
    (hmean : self.runningMean < limit) (htime : time < limit) (hsum : self.samples + count < limit) :
    (self.update time count).samples = self.samples + count ∧
      ((self.update time count).runningMean : ℤ) = self.runningMean +
        (((time / count : ℕ) : ℤ) - self.runningMean).tdiv (self.samples + count : ℕ) ∧
      (self.update time count).runningMean < limit := by
  obtain ⟨m, n⟩ := self
  dsimp only at *
  have hq : time / count < limit := (Nat.div_le_self time count).trans_lt htime
  have hwrap : (n + count) % 2 ^ 64 = n + count := by
    apply Nat.mod_eq_of_lt
    unfold limit at hsum
    omega
  unfold RunningMean.update
  dsimp only
  rw [if_pos hc, if_neg hn.ne', hwrap, toI64_step hmean hq hsum]
  generalize time / count = q at hq
  have hbetween := between_of_tdiv m q (n + count)
  have hvalue := toU64_of_nonneg (x := m + ((q : ℤ) - m).tdiv (n + count : ℕ)) (by omega) (by omega)
  refine ⟨rfl, hvalue, ?_⟩
  show toU64 _ < limit
  omega

/-- **The missing factor** makes no difference exactly to these updates: the step is that of a weighted mean. -/
theorem unweighted_iff {self : RunningMean} {time count : Nat} (hc : 0 < count) (hn : 0 < self.samples)
    (hmean : self.runningMean < limit) (htime : time < limit) (hsum : self.samples + count < limit) :
    unweighted self time count = true ↔
      ((self.update time count).runningMean : ℤ) = self.runningMean +
        ((count : ℤ) * (((time / count : ℕ) : ℤ) - self.runningMean)).tdiv (self.samples + count : ℕ) := by
  rw [(update_of_range hc hn hmean htime hsum).2.1, add_right_inj]
  refine Iff.trans ?_ eq_comm
  rw [tdiv_mul_eq_iff hc _ (Nat.add_pos_left hn count)]
  unfold unweighted
  rw [decide_eq_true_eq]
  omega

/-! ## The error -/

/-- A weighted step, up to one, from what was near to what is near. -/
theorem error_step {m N S c t q r : ℚ} (hN : 0 < N) (hc : 0 < c) (hq : |c * q - t| ≤ c)
    (hr : |r - c * (q - m) / (N + c)| ≤ 1) : |m + r - (S + t) / (N + c)| ≤ |m - S / N| + 2 := by
  have hpos : 0 < N + c := add_pos hN hc
  have hsplit : m + r - (S + t) / (N + c) =
      (r - c * (q - m) / (N + c)) + (m - S / N) * (N / (N + c)) + (c * q - t) / (N + c) := by
    field_simp
    ring
  have hold : |(m - S / N) * (N / (N + c))| ≤ |m - S / N| := by
    rw [abs_mul, abs_of_nonneg (div_nonneg hN.le hpos.le)]
    exact mul_le_of_le_one_right (abs_nonneg _) ((div_le_one hpos).mpr (le_add_of_nonneg_right hc.le))
  have hfloor : |(c * q - t) / (N + c)| ≤ 1 := by
    rw [abs_div, abs_of_pos hpos, div_le_one hpos]
    exact hq.trans (le_add_of_nonneg_left hN.le)
  calc |m + r - (S + t) / (N + c)|
      ≤ |r - c * (q - m) / (N + c)| + |(m - S / N) * (N / (N + c))| + |(c * q - t) / (N + c)| := by
        rw [hsplit]
        exact (abs_add_le _ _).trans (add_le_add (abs_add_le _ _) le_rfl)
    _ ≤ 1 + |m - S / N| + 1 := add_le_add (add_le_add hr hold) hfloor
    _ = |m - S / N| + 2 := by ring

theorem abs_mul_div_sub_le (t : ℕ) {c : ℕ} (hc : 0 < c) : |(c : ℚ) * (t / c : ℕ) - t| ≤ c := by
  have hsplit : (t : ℚ) = c * (t / c : ℕ) + (t % c : ℕ) := by exact_mod_cast (Nat.div_add_mod t c).symm
  have hmod : ((t % c : ℕ) : ℚ) ≤ c := by exact_mod_cast (Nat.mod_lt t hc).le
  rw [show (c : ℚ) * (t / c : ℕ) - t = -((t % c : ℕ) : ℚ) by linarith, abs_neg, abs_of_nonneg (Nat.cast_nonneg _)]
  exact hmod

/-! ## Every run -/

/-- What the statistic knows of the updates. -/
structure Tracks (w : World RunningMean (Nat × Nat) Unit) : Prop where
  samples : w.state.samples = sumCounts w.history
  mean : 0 < w.state.samples → w.state.runningMean < limit
  near : Near w

theorem sumCounts_pos_iff : ∀ h : List Update, 0 < sumCounts h ↔ 0 < h.countP counts
  | [] => Iff.rfl
  | e :: h => by
    have ih := sumCounts_pos_iff h
    unfold sumCounts at ih ⊢
    rw [List.map_cons, List.sum_cons, List.countP_cons]
    by_cases hc : 0 < e.input.2
    · simp [counts, hc]
    · simp only [counts, hc, decide_false, Bool.false_eq_true, if_false, Nat.add_zero]
      omega

theorem sumCounts_cons (e : Update) (h : List Update) : sumCounts (e :: h) = e.input.2 + sumCounts h := by
  unfold sumCounts
  rw [List.map_cons, List.sum_cons]

section Step
variable {w : World RunningMean (Nat × Nat) Unit} {time count : Nat}

/-- An update without batches changes nothing. -/
theorem tracks_skip (h : Tracks w) : Tracks (statistic.next w (time, 0)) := by
  have hstate : (statistic.next w (time, 0)).state = w.state := rfl
  have hcounts : counts (statistic.event w.state (time, 0)) = false := rfl
  have htimes : sumTimes (statistic.next w (time, 0)).history = sumTimes w.history := by
    unfold sumTimes
    rw [Machine.next_history, List.filter_cons_of_neg (by simp [hcounts])]
  have hsum : sumCounts (statistic.next w (time, 0)).history = sumCounts w.history := by
    rw [Machine.next_history, sumCounts_cons]
    exact Nat.zero_add _
  have hcount : (statistic.next w (time, 0)).history.countP counts = w.history.countP counts := by
    rw [Machine.next_history, List.countP_cons_of_neg (by simp [hcounts])]
  refine ⟨?_, ?_, ?_⟩
  · rw [hstate, hsum]
    exact h.samples
  · rw [hstate]
    exact h.mean
  · unfold Near
    rw [hstate, htimes, hsum, hcount]
    exact h.near

/-- What an update with batches adds. -/
theorem sums_next (w : World RunningMean (Nat × Nat) Unit) (time : Nat) (hc : 0 < count) :
    sumTimes (statistic.next w (time, count)).history = time + sumTimes w.history ∧
      sumCounts (statistic.next w (time, count)).history = count + sumCounts w.history ∧
      (statistic.next w (time, count)).history.countP counts = w.history.countP counts + 1 := by
  have hcounts : counts (statistic.event w.state (time, count)) = true := decide_eq_true hc
  refine ⟨?_, ?_, ?_⟩
  · unfold sumTimes
    rw [Machine.next_history, List.filter_cons_of_pos hcounts, List.map_cons, List.sum_cons]
    rfl
  · rw [Machine.next_history, sumCounts_cons]
    rfl
  · rw [Machine.next_history, List.countP_cons_of_pos hcounts]

/-- The first update with batches. -/
theorem tracks_first (h : Tracks w) (hc : 0 < count) (htime : time < limit) (hzero : w.state.samples = 0) :
    Tracks (statistic.next w (time, count)) := by
  obtain ⟨htimes, hsum, hcount⟩ := sums_next w time hc
  have hstate : (statistic.next w (time, count)).state = ⟨time / count, count⟩ := by
    show w.state.update time count = _
    unfold RunningMean.update
    rw [if_pos hc, if_pos hzero]
  have hnone : w.history.countP counts = 0 := by
    have hpos := sumCounts_pos_iff w.history
    rw [← h.samples] at hpos
    omega
  have htimes0 : sumTimes w.history = 0 := by
    unfold sumTimes
    rw [List.filter_eq_nil_iff.mpr (List.countP_eq_zero.mp hnone)]
    rfl
  have hsum0 : sumCounts w.history = 0 := h.samples.symm.trans hzero
  refine ⟨?_, fun _ => ?_, fun _ => ?_⟩
  · rw [hstate, hsum, hsum0]
    rfl
  · rw [hstate]
    exact (Nat.div_le_self time count).trans_lt htime
  · rw [hstate, htimes, hsum, hcount, htimes0, hsum0, hnone]
    have hcq : (0 : ℚ) < count := by exact_mod_cast hc
    show |((time / count : ℕ) : ℚ) - ((time + 0 : ℕ) : ℚ) / ((count + 0 : ℕ) : ℚ)| ≤ 2 * ((0 + 1 : ℕ) : ℚ)
    have hsplit : ((time / count : ℕ) : ℚ) - time / count = (count * (time / count : ℕ) - time) / count := by
      field_simp
    have hle : |((time / count : ℕ) : ℚ) - time / count| ≤ 1 := by
      rw [hsplit, abs_div, abs_of_pos hcq, div_le_one hcq]
      exact abs_mul_div_sub_le time hc
    rw [Nat.add_zero, Nat.add_zero, Nat.zero_add, Nat.cast_one, mul_one]
    linarith

/-- A further update with batches. -/
theorem tracks_further (h : Tracks w) (hc : 0 < count) (htime : time < limit)
    (hlimit : sumCounts w.history + count < limit) (hpos : 0 < w.state.samples)
    (hun : unweighted w.state time count = true) : Tracks (statistic.next w (time, count)) := by
  obtain ⟨htimes, hsum, hcount⟩ := sums_next w time hc
  rw [← h.samples] at hlimit
  obtain ⟨hsamples, -, hmean⟩ := update_of_range hc hpos (h.mean hpos) htime hlimit
  have hstep := (unweighted_iff hc hpos (h.mean hpos) htime hlimit).mp hun
  have hold := h.near ((sumCounts_pos_iff _).mp (h.samples ▸ hpos))
  refine ⟨?_, fun _ => hmean, fun _ => ?_⟩
  · rw [hsum, ← h.samples, Nat.add_comm]
    exact hsamples
  · rw [htimes, hsum, hcount, ← h.samples]
    have hvalue : ((w.state.update time count).runningMean : ℚ) = w.state.runningMean +
        (((count : ℤ) * (((time / count : ℕ) : ℤ) - w.state.runningMean)).tdiv
          (w.state.samples + count : ℕ) : ℤ) := by exact_mod_cast hstep
    have hround := abs_tdiv_sub_le ((count : ℤ) * (((time / count : ℕ) : ℤ) - w.state.runningMean))
      (b := (w.state.samples + count : ℕ)) (by omega)
    push_cast at hround
    have herror := error_step (m := w.state.runningMean) (N := w.state.samples) (S := sumTimes w.history)
      (by exact_mod_cast hpos) (by exact_mod_cast hc) (abs_mul_div_sub_le time hc) hround
    have hnear : |(w.state.runningMean : ℚ) - sumTimes w.history / w.state.samples| ≤ 2 * w.history.countP counts := by
      rw [h.samples]
      exact hold
    show |((w.state.update time count).runningMean : ℚ) - _| ≤ _
    rw [hvalue]
    push_cast at herror ⊢
    rw [add_comm (time : ℚ), add_comm (count : ℚ)]
    exact herror.trans (by linarith)

end Step

/-- The counts of a run stay below their sum. -/
theorem along_sumCounts {n : Nat} (updates : List (Nat × Nat)) (h : (updates.map Prod.snd).sum < n) :
    Along (fun e h => sumCounts (e :: h) < n) (run updates).history := by
  have hsum : ∀ us : List (Nat × Nat), sumCounts (run us).history = (us.map Prod.snd).sum := by
    intro us
    induction us using List.reverseRecOn with
    | nil => rfl
    | append_singleton us u ih =>
      unfold run at ih ⊢
      rw [Machine.run_snoc, Machine.next_history, sumCounts_cons, ih, List.map_append, List.sum_append, Nat.add_comm]
      rfl
  induction updates using List.reverseRecOn with
  | nil => exact trivial
  | append_singleton us u ih =>
    have hall := hsum (us ++ [u])
    unfold run at ih hall ⊢
    rw [Machine.run_snoc, Machine.next_history] at hall ⊢
    rw [List.map_append, List.sum_append] at h hall
    exact ⟨hall.trans_lt h, ih (by omega)⟩

/-- **Near the weighted mean**, after every update, as long as no update is one that needs its weight. -/
theorem near_run (updates : List (Nat × Nat)) (htimes : ∀ u ∈ updates, u.1 < limit)
    (hcounts : (updates.map Prod.snd).sum < limit)
    (hunweighted : Along (fun e _ => unweighted e.pre e.input.1 e.input.2 = true) (run updates).history) :
    Along (fun e h => Near ⟨e.post, e :: h⟩) (run updates).history := by
  have hrange : Along (fun e _ => e.input.1 < limit) (run updates).history := statistic.along_input htimes
  refine (statistic.along_of_invariant Tracks
    (fun e h => (e.input.1 < limit ∧ sumCounts (e :: h) < limit) ∧ unweighted e.pre e.input.1 e.input.2 = true)
    (fun e h => Near ⟨e.post, e :: h⟩) ?_ ?_ updates
    ((hrange.and (along_sumCounts updates hcounts)).and hunweighted)).2
  · exact ⟨rfl, fun h => absurd h (Nat.lt_irrefl 0), fun h => absurd h (Nat.lt_irrefl 0)⟩
  · rintro w ⟨time, count⟩ h ⟨⟨htime, hsum⟩, hun⟩
    rw [sumCounts_cons] at hsum
    have hnext : Tracks (statistic.next w (time, count)) := by
      rcases Nat.eq_zero_or_pos count with rfl | hc
      · exact tracks_skip h
      · rcases Nat.eq_zero_or_pos w.state.samples with hzero | hpos
        · exact tracks_first h hc htime hzero
        · exact tracks_further h hc htime (by rw [Nat.add_comm]; exact hsum) hpos hun
    exact ⟨hnext, hnext.near⟩

/-- The updates of the first test of the source. -/
theorem near_run_singles :
    Along (fun e h => Near ⟨e.post, e :: h⟩) (run [(1050, 1), (1000, 1), (1025, 1), (2050, 1)]).history :=
  near_run _ (by decide) (by decide) (by decide +kernel)

/-- A thousand batches of 1000 ms after one of 0 ms leave the mean at 0. -/
theorem near_run_fails : ¬ Near (run [(0, 1), (1000000, 1000)]) := by
  intro h
  have hnear := h (by decide +kernel)
  revert hnear
  decide +kernel

end Hypha.RunningMean
