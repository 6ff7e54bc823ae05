import Mathlib.Data.Nat.Digits.Defs

/-!
# Little-endian bytes

* `toLe` : the last bytes of a number, least significant first, `ofLe` : the number of some bytes;
* `ofLe_toLe` : enough bytes determine the number.
-/

namespace Hypha.Lib

/-- The `w` least significant bytes of a number. -/
def toLe : Nat → Nat → List UInt8
  | 0, _ => []
  | w + 1, n => UInt8.ofNat n :: toLe w (n / 256)

/-- The number with the given bytes. -/
def ofLe (bytes : List UInt8) : Nat := Nat.ofDigits 256 (bytes.map UInt8.toNat)

@[simp] theorem length_toLe (w : Nat) : ∀ n, (toLe w n).length = w := by
  induction w with
  | zero => exact fun _ => rfl
  | succ w ih => exact fun n => congrArg Nat.succ (ih _)

theorem ofLe_toLe (w : Nat) : ∀ {n : Nat}, n < 256 ^ w → ofLe (toLe w n) = n := by
  induction w with
  | zero =>
    intro n hn
    rw [Nat.pow_zero, Nat.lt_one_iff] at hn
    subst hn
    rfl
  | succ w ih =>
    intro n hn
    have hrest := ih (Nat.div_lt_of_lt_mul (by rwa [Nat.pow_succ'] at hn))
    rw [toLe, ofLe, List.map_cons, Nat.ofDigits_cons, UInt8.toNat_ofNat']
    change n % 256 + 256 * ofLe (toLe w (n / 256)) = n
    rw [hrest, Nat.mod_add_div]

end Hypha.Lib
