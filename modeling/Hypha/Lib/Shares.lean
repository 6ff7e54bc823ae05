import Hypha.Lib.Machine
import Mathlib.Algebra.BigOperators.Ring.List
import Mathlib.Algebra.Order.BigOperators.Group.List
import Mathlib.Algebra.Order.Field.Basic
import Mathlib.Data.Rat.Cast.Order

/-!
# Pro rata shares of a running total

A list of events, newest first. Some add an amount for their owner, some are claims of an owner; a claim is worth the
owner's share so far over the total so far.

* `share`, `total` : what one owner, and all of them, have added;
* `values` : what the claims are worth together;
* `claimed_eq_total` : if everyone with a share claims once, the shares of the claims cover the total;
* `values_eq_one_iff` : they are worth one exactly when every claim with a share is made at the final total.
-/

namespace Hypha.Lib

variable {α ι : Type} [DecidableEq ι] (owner claim : α → Option ι) (amount : α → Nat)

/-- What `i` has added. -/
def share (i : ι) (l : List α) : Nat := (l.map fun x => if owner x = some i then amount x else 0).sum

/-- What all have added. -/
def total (l : List α) : Nat := (l.map amount).sum

/-- What the claims are worth together. -/
def values : List α → ℚ
  | [] => 0
  | x :: l => ((claim x).map fun i => (share owner amount i (x :: l) : ℚ) / total amount (x :: l)).getD 0 + values l

/-- What the claims of `c` come to, with the shares of `l`. -/
def claimed (l c : List α) : Nat := (c.map fun x => ((claim x).map fun i => share owner amount i l).getD 0).sum

theorem total_cons (x : α) (l : List α) : total amount (x :: l) = amount x + total amount l := by
  simp [total]

theorem share_cons (i : ι) (x : α) (l : List α) :
    share owner amount i (x :: l) = (if owner x = some i then amount x else 0) + share owner amount i l := by
  simp [share]

variable {owner amount} in
/-- Who owns none of it has no share. -/
theorem share_eq_zero {i : ι} {l : List α} (h : ∀ x ∈ l, owner x ≠ some i) : share owner amount i l = 0 := by
  refine List.sum_eq_zero fun n hn => ?_
  obtain ⟨x, hx, rfl⟩ := List.mem_map.mp hn
  exact if_neg (h x hx)

theorem share_le_total (i : ι) (l : List α) : share owner amount i l ≤ total amount l := by
  unfold share total
  refine List.sum_le_sum fun x _ => ?_
  split_ifs
  · exact Nat.le_refl _
  · exact Nat.zero_le _

theorem total_le_of_suffix {b l : List α} (h : b <:+ l) : total amount b ≤ total amount l := by
  obtain ⟨a, rfl⟩ := h
  unfold total
  rw [List.map_append, List.sum_append]
  exact Nat.le_add_left _ _

theorem share_le_of_suffix (i : ι) {b l : List α} (h : b <:+ l) : share owner amount i b ≤ share owner amount i l := by
  obtain ⟨a, rfl⟩ := h
  unfold share
  rw [List.map_append, List.sum_append]
  exact Nat.le_add_left _ _

/-! ## Claims cover the total -/

/-- Every amount is counted once for each claim of its owner. -/
theorem claimed_eq_sum (l : List α) : ∀ c, claimed owner claim amount l c =
    (l.map fun y => c.countP (fun x => (claim x).isSome && decide (claim x = owner y)) * amount y).sum
  | [] => by simp [claimed]
  | x :: c => by
    have ih := claimed_eq_sum l c
    unfold claimed at ih ⊢
    rw [List.map_cons, List.sum_cons, ih]
    simp only [List.countP_cons, Nat.add_mul]
    rw [List.sum_map_add, Nat.add_comm]
    congr 1
    cases hx : claim x with
    | none => simp
    | some i =>
      simp only [share, Option.map_some, Option.getD_some, Option.isSome_some, Bool.true_and, decide_eq_true_eq,
        ite_mul, Nat.one_mul, Nat.zero_mul]
      simp only [eq_comm]

/-- Everyone with a share claims once: the shares of the claims cover the total. -/
theorem claimed_eq_total {l : List α} (howner : ∀ x ∈ l, owner x = none → amount x = 0)
    (honce : ∀ i, 0 < share owner amount i l → l.countP (fun x => decide (claim x = some i)) = 1) :
    claimed owner claim amount l l = total amount l := by
  rw [claimed_eq_sum]
  unfold total
  congr 1
  refine List.map_congr_left fun y hy => ?_
  rcases Nat.eq_zero_or_pos (amount y) with hzero | hpos
  · rw [hzero, Nat.mul_zero]
  · cases ho : owner y with
    | none => exact absurd (howner y hy ho) hpos.ne'
    | some i =>
      have hshare : 0 < share owner amount i l := by
        refine Nat.lt_of_lt_of_le hpos ?_
        refine List.single_le_sum (by simp) _ (List.mem_map.mpr ⟨y, hy, ?_⟩)
        rw [if_pos ho]
      have hcount : ∀ x : α, ((claim x).isSome && decide (claim x = some i)) = decide (claim x = some i) := by
        intro x
        cases claim x <;> simp
      simp only [hcount, honce i hshare, Nat.one_mul]

/-! ## What the claims are worth -/

section Values
variable {owner claim amount} {l : List α}

variable (owner) in
/-- A claim is worth at least its part of the final total, and just that if it has no share or is made at that
total. -/
theorem value_ge (i : ι) {b : List α} (hpos : 0 < total amount l) (hle : total amount b ≤ total amount l) :
    (share owner amount i b : ℚ) / total amount l ≤ share owner amount i b / total amount b ∧
      ((share owner amount i b : ℚ) / total amount l = share owner amount i b / total amount b ↔
        (0 < share owner amount i b → total amount b = total amount l)) := by
  rcases Nat.eq_zero_or_pos (share owner amount i b) with hzero | hshare
  · simp [hzero]
  · have hb : 0 < total amount b := Nat.lt_of_lt_of_le hshare (share_le_total owner amount i b)
    have hs : (0 : ℚ) < share owner amount i b := by exact_mod_cast hshare
    have hbq : (0 : ℚ) < total amount b := by exact_mod_cast hb
    have hlq : (0 : ℚ) < total amount l := by exact_mod_cast hpos
    refine ⟨div_le_div_of_nonneg_left hs.le hbq (by exact_mod_cast hle), ?_⟩
    rw [div_eq_mul_inv, div_eq_mul_inv, mul_right_inj' hs.ne', inv_inj, Nat.cast_inj]
    exact ⟨fun h _ => h.symm, fun h => (h hshare).symm⟩

/-- The claims of a suffix are worth at least their part of the final total. -/
theorem values_ge (hpos : 0 < total amount l) : ∀ b, b <:+ l →
    Along (fun x g => ∀ i, claim x = some i → share owner amount i (x :: g) = share owner amount i l) b →
    (claimed owner claim amount l b : ℚ) / total amount l ≤ values owner claim amount b ∧
      ((claimed owner claim amount l b : ℚ) / total amount l = values owner claim amount b ↔
        Along (fun x g => ∀ i, claim x = some i → 0 < share owner amount i (x :: g) →
          total amount (x :: g) = total amount l) b)
  | [], _, _ => by simp [claimed, values]
  | x :: b, hs, ⟨hx, hb⟩ => by
    have hle := total_le_of_suffix amount hs
    obtain ⟨ihle, iheq⟩ := values_ge hpos b ((List.suffix_cons x b).trans hs) hb
    rw [along_cons, ← iheq]
    have hclaimed : claimed owner claim amount l (x :: b) =
        ((claim x).map fun i => share owner amount i l).getD 0 + claimed owner claim amount l b := by
      simp [claimed]
    rw [hclaimed, values, Nat.cast_add, add_div]
    cases hi : claim x with
    | none => simpa using ihle
    | some i =>
      obtain ⟨hvle, hveq⟩ := value_ge owner i hpos hle
      rw [hx i hi] at hvle hveq
      simp only [Option.map_some, Option.getD_some, Option.some.injEq, forall_eq', hx i hi]
      refine ⟨add_le_add hvle ihle, ?_⟩
      rw [add_eq_add_iff_eq_and_eq hvle ihle, hveq]

/-- **When claims are worth one.** Everyone with a share claims once, having added all it will: the claims are worth
one exactly when there is a total, and every claim with a share is made at it. -/
theorem values_eq_one_iff (howner : ∀ x ∈ l, owner x = none → amount x = 0)
    (honce : ∀ i, 0 < share owner amount i l → l.countP (fun x => decide (claim x = some i)) = 1)
    (hown : Along (fun x g => ∀ i, claim x = some i → share owner amount i (x :: g) = share owner amount i l) l) :
    values owner claim amount l = 1 ↔
      0 < total amount l ∧ Along (fun x g => ∀ i, claim x = some i → 0 < share owner amount i (x :: g) →
        total amount (x :: g) = total amount l) l := by
  rcases Nat.eq_zero_or_pos (total amount l) with hzero | hpos
  · have hvalues : ∀ b, b <:+ l → values owner claim amount b = 0 := by
      intro b hb
      induction b with
      | nil => rfl
      | cons x b ih =>
        have htotal : total amount (x :: b) = 0 := Nat.le_zero.mp (hzero ▸ total_le_of_suffix amount hb)
        rw [values, ih ((List.suffix_cons x b).trans hb), htotal]
        cases claim x <;> simp
    rw [hvalues l List.suffix_rfl, hzero]
    simp
  · have hq : (total amount l : ℚ) ≠ 0 := by exact_mod_cast hpos.ne'
    have heq := (values_ge hpos l List.suffix_rfl hown).2
    rw [claimed_eq_total owner claim amount howner honce, div_self hq] at heq
    rw [← heq]
    exact ⟨fun h => ⟨hpos, h.symm⟩, fun h => h.2.symm⟩

end Values

end Hypha.Lib
