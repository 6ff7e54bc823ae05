import Mathlib.Data.Set.Card
import Mathlib.Order.Interval.Finset.Nat

/-!
# Recurring events

An event that recurs at `first`, `first + period`, `first + 2 * period` and so on.

* `before` : how often it occurs before a bound, in closed form; `lt_before_iff` : what characterises it;
* `before_succ` : one more moment;
* `ncard_multiples` : the events `p + k * d` with `1 ≤ k`, up to a moment.
-/

namespace Hypha.Lib.Recurring

/-- The number of occurrences before `bound`. -/
def before (first period bound : Nat) : Nat := (bound - first + (period - 1)) / period

variable {first period bound : Nat}

theorem lt_before_iff (hperiod : 0 < period) (k : Nat) : k < before first period bound ↔ first + k * period < bound := by
  unfold before
  rw [← Nat.succ_le_iff, Nat.le_div_iff_mul_le hperiod, Nat.succ_mul]
  omega

/-- The next occurrence is not before the bound. -/
theorem le_next (hperiod : 0 < period) : bound ≤ first + before first period bound * period :=
  Nat.not_lt.mp fun h => Nat.lt_irrefl _ ((lt_before_iff hperiod _).mpr h)

theorem before_eq (hperiod : 0 < period) {n : Nat} (h : ∀ k, k < n ↔ first + k * period < bound) :
    before first period bound = n := by
  refine Nat.le_antisymm (Nat.not_lt.mp fun hlt => ?_) (Nat.not_lt.mp fun hlt => ?_)
  · exact Nat.lt_irrefl n ((h n).mpr ((lt_before_iff hperiod n).mp hlt))
  · exact Nat.lt_irrefl _ ((lt_before_iff hperiod _).mpr ((h _).mp hlt))

theorem before_eq_zero (h : bound ≤ first) : before first period bound = 0 := by
  unfold before
  rw [Nat.sub_eq_zero_of_le h, Nat.zero_add]
  rcases Nat.eq_zero_or_pos period with rfl | hperiod
  · rfl
  · exact Nat.div_eq_of_lt (by omega)

/-- If nothing occurs from the bound on until `t`, what has occurred up to `t` is what had occurred before the bound,
and what occurs at `t`. -/
theorem before_succ (hperiod : 0 < period) {t : Nat} (hbound : bound ≤ t + 1)
    (hnext : t ≤ first + before first period bound * period) :
    before first period (t + 1) =
      before first period bound + if first + before first period bound * period = t then 1 else 0 := by
  have hiff : ∀ k, k < before first period bound ↔ first + k * period < bound := lt_before_iff hperiod
  generalize before first period bound = n at hnext hiff ⊢
  refine before_eq hperiod fun k => ?_
  have hmono : ∀ a b : Nat, a ≤ b → first + a * period ≤ first + b * period :=
    fun a b h => Nat.add_le_add_left (Nat.mul_le_mul_right _ h) _
  rcases Nat.lt_trichotomy k n with hk | rfl | hk
  · have := (hiff k).mp hk
    split_ifs <;> omega
  · split_ifs <;> omega
  · have hlt : first + n * period < first + k * period :=
      Nat.add_lt_add_left (Nat.mul_lt_mul_of_pos_right hk hperiod) _
    split_ifs <;> omega

/-- The multiples that count from one. -/
theorem ncard_multiples {p d : Nat} (hd : 0 < d) (t : Nat) :
    Set.ncard {k : Nat | 1 ≤ k ∧ p + k * d ≤ t} = before (p + d) d (t + 1) := by
  have hset : {k : Nat | 1 ≤ k ∧ p + k * d ≤ t} = (Finset.Icc 1 (before (p + d) d (t + 1)) : Set Nat) := by
    ext k
    rw [Set.mem_ofPred_eq, Finset.coe_Icc, Set.mem_Icc, and_congr_right_iff]
    intro hk
    obtain ⟨j, rfl⟩ : ∃ j, k = j + 1 := ⟨k - 1, by omega⟩
    rw [Nat.succ_le_iff, lt_before_iff hd, Nat.succ_mul]
    omega
  rw [hset, Set.ncard_coe_finset, Nat.card_Icc, Nat.add_sub_cancel]

end Hypha.Lib.Recurring
