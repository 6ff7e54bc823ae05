import Mathlib.Order.BooleanAlgebra.Set
import Mathlib.Logic.Function.Basic

/-!
# Custody of items

Every live item is in the hands of exactly one holder, and a holder has at most one.

* `Custody holds live` : the items held are the live ones, and no two holders have the same;
* `Custody.acquire`, `Custody.transfer`, `Custody.release` : an item comes to life in the hands of a holder, changes
  hands, dies.
-/

namespace Hypha.Lib

variable {H R : Type}

/-- The items held are the live ones, each by one holder. -/
structure Custody (holds : H → Option R) (live : Set R) : Prop where
  unique : ∀ a b r, holds a = some r → holds b = some r → a = b
  live_iff : ∀ r, r ∈ live ↔ ∃ a, holds a = some r

namespace Custody

variable {holds : H → Option R} {live : Set R} {a b : H} {r : R}

theorem empty : Custody (fun _ : H => (none : Option R)) ∅ := by
  refine ⟨fun _ _ _ ha => ?_, fun r => ⟨fun hr => ?_, fun ⟨_, ha⟩ => ?_⟩⟩
  · cases ha
  · cases hr
  · cases ha

theorem mem_live (h : Custody holds live) (ha : holds a = some r) : r ∈ live := (h.live_iff r).mpr ⟨a, ha⟩

section Update
variable [DecidableEq H]

theorem update_eq_some_iff {v : Option R} :
    Function.update holds a v b = some r ↔ (b = a ∧ v = some r) ∨ (b ≠ a ∧ holds b = some r) := by
  by_cases hb : b = a
  · subst hb
    simp
  · simp [hb]

/-- An item that was not live comes to life in empty hands. -/
theorem acquire (h : Custody holds live) (ha : holds a = none) (hr : r ∉ live) :
    Custody (Function.update holds a (some r)) (insert r live) := by
  have hfree : ∀ b, holds b ≠ some r := fun b hb => hr (h.mem_live hb)
  refine ⟨fun b c q hb hc => ?_, fun q => ?_⟩
  · rw [update_eq_some_iff] at hb hc
    rcases hb with ⟨rfl, hb⟩ | ⟨hba, hb⟩
    · obtain rfl := Option.some.inj hb
      rcases hc with ⟨rfl, -⟩ | ⟨-, hc⟩
      · rfl
      · exact absurd hc (hfree c)
    · rcases hc with ⟨rfl, hc⟩ | ⟨-, hc⟩
      · obtain rfl := Option.some.inj hc
        exact absurd hb (hfree b)
      · exact h.unique b c q hb hc
  · rw [Set.mem_insert_iff, h.live_iff]
    refine ⟨?_, ?_⟩
    · rintro (rfl | ⟨b, hb⟩)
      · exact ⟨a, by simp⟩
      · have hba : b ≠ a := by
          rintro rfl
          rw [ha] at hb
          cases hb
        exact ⟨b, update_eq_some_iff.mpr (Or.inr ⟨hba, hb⟩)⟩
    · rintro ⟨b, hb⟩
      rcases update_eq_some_iff.mp hb with ⟨-, hq⟩ | ⟨-, hb⟩
      · exact Or.inl (Option.some.inj hq).symm
      · exact Or.inr ⟨b, hb⟩

/-- The item of a holder dies. -/
theorem release (h : Custody holds live) (ha : holds a = some r) :
    Custody (Function.update holds a none) (live \ {r}) := by
  have hother : ∀ b q, Function.update holds a none b = some q ↔ b ≠ a ∧ holds b = some q := by
    intro b q
    rw [update_eq_some_iff]
    simp
  refine ⟨fun b c q hb hc => ?_, fun q => ?_⟩
  · exact h.unique b c q ((hother b q).mp hb).2 ((hother c q).mp hc).2
  · rw [Set.mem_sdiff, Set.mem_singleton_iff, h.live_iff]
    refine ⟨?_, ?_⟩
    · rintro ⟨⟨b, hb⟩, hqr⟩
      refine ⟨b, (hother b q).mpr ⟨?_, hb⟩⟩
      rintro rfl
      exact hqr (Option.some.inj (hb.symm.trans ha))
    · rintro ⟨b, hb⟩
      obtain ⟨hba, hb⟩ := (hother b q).mp hb
      refine ⟨⟨b, hb⟩, ?_⟩
      rintro rfl
      exact hba (h.unique b a q hb ha)

/-- The item of a holder goes to empty hands. -/
theorem transfer (h : Custody holds live) (ha : holds a = some r) (hb : holds b = none) :
    Custody (Function.update (Function.update holds a none) b (some r)) live := by
  have hab : b ≠ a := by
    rintro rfl
    rw [hb] at ha
    cases ha
  have hempty : Function.update holds a none b = none := by
    rw [Function.update_of_ne hab, hb]
  have hnew := (h.release ha).acquire hempty (r := r) (fun hr => hr.2 rfl)
  rwa [Set.insert_sdiff_singleton, Set.insert_eq_of_mem (h.mem_live ha)] at hnew

end Update

end Custody

end Hypha.Lib
