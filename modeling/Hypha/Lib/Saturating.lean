import Mathlib.Algebra.Ring.Nat
import Mathlib.Order.MinMax

/-!
# Unsigned 32-bit arithmetic on naturals

`saturatingAdd` clamps at `u32Max`, `wrappingAdd` and `wrappingMul` drop the carry: what a `u32` counter meets when the
sum or the product no longer fits.
-/

namespace Hypha.Lib

/-- The largest `u32`. -/
def u32Max : Nat := 2 ^ 32 - 1

/-- `u32::saturating_add`. -/
def saturatingAdd (a b : Nat) : Nat := min (a + b) u32Max

/-- `u32` addition of a release build, which wraps. -/
def wrappingAdd (a b : Nat) : Nat := (a + b) % 2 ^ 32

/-- `u32` multiplication of a release build, which wraps. -/
def wrappingMul (a b : Nat) : Nat := a * b % 2 ^ 32

theorem saturatingAdd_of_le {a b : Nat} (h : a + b ≤ u32Max) : saturatingAdd a b = a + b := min_eq_left h

theorem saturatingAdd_le (a b : Nat) : saturatingAdd a b ≤ a + b := min_le_left _ _

theorem wrappingMul_of_lt {a b : Nat} (h : a * b < 2 ^ 32) : wrappingMul a b = a * b := Nat.mod_eq_of_lt h

theorem saturatingAdd_min (a k : Nat) : saturatingAdd (min a u32Max) k = min (k + a) u32Max := by
  unfold saturatingAdd
  omega

/-- Adding twice is adding once exactly when nothing is added or the first sum is already clamped. -/
theorem saturatingAdd_twice_iff (a k : Nat) :
    saturatingAdd (saturatingAdd a k) k = saturatingAdd a k ↔ k = 0 ∨ u32Max ≤ a + k := by
  unfold saturatingAdd
  omega

end Hypha.Lib
