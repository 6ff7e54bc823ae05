import Mathlib.Algebra.Order.Floor.Semifield
import Mathlib.Data.Rat.Floor
import Hypha.Lib.Saturating

/-!
# Doubles as rationals, infinities and NaN

What IEEE 754 says of the results of a few operations, for any rounding of the finite ones.

* `Double`, `Double.le` : the values and their order; zero has no sign;
* `Rounding` : which double stands for an exact result, `Rounding.exact` : itself;
* `Rounding.div`, `Double.floor`, `Double.min`, `Double.toU32` : division, also by zero, and what is done with its result;
* `toU32_min` : the minimum may be taken before or after the cast, unless there is a NaN.
-/

namespace Hypha.Lib

inductive Double where
  | nan
  | negInf
  | posInf
  | fin (q : ℚ)
  deriving DecidableEq

namespace Double

/-- The comparison `<=`. -/
def le : Double → Double → Prop
  | nan, _ | _, nan => False
  | negInf, _ => True
  | _, negInf => False
  | _, posInf => True
  | posInf, _ => False
  | fin a, fin b => a ≤ b

/-- `f64::floor`. -/
def floor : Double → Double
  | fin q => fin ⌊q⌋
  | x => x

/-- `f64::min`: a NaN is discarded. -/
def min : Double → Double → Double
  | nan, y => y
  | x, nan => x
  | negInf, _ => negInf
  | _, negInf => negInf
  | posInf, y => y
  | x, posInf => x
  | fin a, fin b => fin (Min.min a b)

/-- The cast `as u32`, which saturates. -/
def toU32 : Double → Nat
  | nan => 0
  | negInf => 0
  | posInf => u32Max
  | fin q => Min.min ⌊q⌋₊ u32Max

/-- The largest finite double. -/
def max : Double := fin ((2 ^ 53 - 1) * 2 ^ 971)

theorem toU32_le (x : Double) : x.toU32 ≤ u32Max := by
  cases x with
  | nan => exact Nat.zero_le _
  | negInf => exact Nat.zero_le _
  | posInf => exact Nat.le_refl _
  | fin q => exact min_le_right _ _

theorem toU32_natCast {n : Nat} (h : n ≤ u32Max) : (fin n).toU32 = n := by
  show Min.min ⌊(n : ℚ)⌋₊ u32Max = n
  rw [Nat.floor_natCast, min_eq_left h]

theorem toU32_max : max.toU32 = u32Max := by
  have hsmall : ((u32Max : Nat) : ℚ) ≤ 2 ^ 53 - 1 := by
    unfold u32Max
    norm_num
  have hone : (1 : ℚ) ≤ 2 ^ 971 := one_le_pow₀ (by norm_num)
  have hlarge : (2 ^ 53 - 1 : ℚ) ≤ (2 ^ 53 - 1) * 2 ^ 971 := le_mul_of_one_le_right (by norm_num) hone
  exact min_eq_right (Nat.le_floor (hsmall.trans hlarge))

/-- **The minimum and the cast** commute. -/
theorem toU32_min {x y : Double} (hx : x ≠ nan) (hy : y ≠ nan) : (x.min y).toU32 = Min.min x.toU32 y.toU32 := by
  cases x with
  | nan => exact absurd rfl hx
  | negInf => cases y <;> first | exact absurd rfl hy | exact (Nat.zero_min _).symm
  | posInf =>
    cases y with
    | nan => exact absurd rfl hy
    | negInf => exact (Nat.min_zero _).symm
    | posInf => exact (min_self _).symm
    | fin b => exact (min_eq_right (toU32_le (fin b))).symm
  | fin a =>
    cases y with
    | nan => exact absurd rfl hy
    | negInf => exact (Nat.min_zero _).symm
    | posInf => exact (min_eq_left (toU32_le (fin a))).symm
    | fin b =>
      show Min.min ⌊Min.min a b⌋₊ u32Max = Min.min (Min.min ⌊a⌋₊ u32Max) (Min.min ⌊b⌋₊ u32Max)
      rw [Nat.floor_mono.map_min, min_min_min_comm, min_self]

theorem floor_ne_nan {x : Double} (h : x ≠ nan) : x.floor ≠ nan := by
  cases x with
  | nan => exact h
  | _ => exact nofun

/-- A double that is at least one is so as an integer. -/
theorem one_le_toU32_floor {x : Double} (h : (fin 1).le x) : 1 ≤ x.floor.toU32 := by
  cases x with
  | nan => exact h.elim
  | negInf => exact h.elim
  | posInf => exact (by decide : 1 ≤ u32Max)
  | fin q =>
    refine le_min (Nat.le_floor ?_) (by decide)
    have hfloor : (1 : ℤ) ≤ ⌊q⌋ := Int.le_floor.mpr (by exact_mod_cast h)
    exact_mod_cast hfloor

end Double

/-- Which double stands for an exact result. -/
structure Rounding where
  round : ℚ → Double
  ne_nan : ∀ q, round q ≠ .nan
  mono : ∀ p q, p ≤ q → (round p).le (round q)
  one : round 1 = .fin 1

namespace Rounding

/-- No rounding at all. -/
def exact : Rounding where
  round := .fin
  ne_nan := nofun
  mono _ _ h := h
  one := rfl

variable (rnd : Rounding)

/-- The quotient of two finite doubles. -/
def div (x y : ℚ) : Double :=
  if y = 0 then if x = 0 then .nan else if 0 < x then .posInf else .negInf else rnd.round (x / y)

theorem div_of_ne {x y : ℚ} (h : y ≠ 0) : rnd.div x y = rnd.round (x / y) := if_neg h

theorem div_ne_nan {x y : ℚ} (h : y ≠ 0) : rnd.div x y ≠ .nan := by
  rw [rnd.div_of_ne h]
  exact rnd.ne_nan _

theorem one_le_div {x y : ℚ} (hy : 0 < y) (h : y ≤ x) : (Double.fin 1).le (rnd.div x y) := by
  rw [rnd.div_of_ne hy.ne', ← rnd.one]
  exact rnd.mono 1 (x / y) ((one_le_div₀ hy).mpr h)

end Rounding

end Hypha.Lib
