import Mathlib.Data.List.Dedup
import Mathlib.Data.List.MinMax
import Mathlib.Data.List.Sort

/-!
# The smallest of a list

A selection of at most `k` items with the smallest scores, of all items or with one item for each owner.

* `smallest` : the `k` smallest values of a list, in order;
* `smallest_perm`, `smallest_eq` : they depend on the list only up to order, and how to recognise them;
* `minima` : the smallest score of every owner;
* `Smallest`, `SmallestPerOwner` : the two kinds of selection, with the steps that keep them;
* `Smallest.scores`, `SmallestPerOwner.scores` : the scores of a selection;
* `SmallestPerOwner.append_iff` : when a selection stays right as more items come;
* `firstBest` : the first of an owner's items with the smallest score.
-/

namespace Hypha.Lib

open List

variable {α ι κ : Type} [LinearOrder κ]

/-- The `k` smallest values of a list, in order. -/
def smallest (k : Nat) (l : List κ) : List κ := (l.insertionSort (· ≤ ·)).take k

theorem smallest_perm (k : Nat) {l l' : List κ} (h : l ~ l') : smallest k l = smallest k l' := by
  unfold smallest
  congr 1
  apply List.Perm.eq_of_pairwise' (r := (· ≤ ·))
  · exact pairwise_insertionSort _ l
  · exact pairwise_insertionSort _ l'
  · exact (perm_insertionSort _ l).trans (h.trans (perm_insertionSort _ l').symm)

/-- The smallest values are recognised by what they leave out. -/
theorem smallest_eq {k : Nat} {l s r : List κ} (hsorted : s.Pairwise (· ≤ ·)) (hlen : s.length ≤ k) (hperm : l ~ s ++ r)
    (hrest : ∀ y ∈ r, s.length = k ∧ ∀ x ∈ s, x ≤ y) : smallest k l = s := by
  have hsort : l.insertionSort (· ≤ ·) = s ++ r.insertionSort (· ≤ ·) := by
    apply List.Perm.eq_of_pairwise' (r := (· ≤ ·))
    · exact pairwise_insertionSort _ l
    · refine pairwise_append.mpr ⟨hsorted, pairwise_insertionSort _ r, fun x hx y hy => ?_⟩
      exact (hrest y ((mem_insertionSort _).mp hy)).2 x hx
    · exact (perm_insertionSort _ l).trans (hperm.trans (Perm.append_left s (perm_insertionSort _ r).symm))
  unfold smallest
  rw [hsort]
  cases r with
  | nil =>
    rw [insertionSort_nil, append_nil]
    exact take_of_length_le hlen
  | cons y r => rw [← (hrest y mem_cons_self).1, take_left]

/-! ## A selection of all items -/

section All
variable (score : α → κ)

/-- `kept` is a selection of `k` items of `seen` with the smallest scores. -/
structure Smallest (k : Nat) (seen kept : List α) : Prop where
  sorted : kept.Pairwise fun a b => score a ≤ score b
  length : kept.length ≤ k
  rest : ∃ rest, seen ~ kept ++ rest ∧ ∀ y ∈ rest, kept.length = k ∧ ∀ x ∈ kept, score x ≤ score y

variable {score} {k : Nat} {seen kept : List α}

theorem Smallest.nil : Smallest score k [] [] := ⟨.nil, Nat.zero_le k, [], .refl _, fun _ h => absurd h not_mem_nil⟩

/-- **The scores of a selection** are the smallest of all. -/
theorem Smallest.scores (h : Smallest score k seen kept) : kept.map score = smallest k (seen.map score) := by
  obtain ⟨rest, hperm, hrest⟩ := h.rest
  symm
  apply smallest_eq (r := rest.map score)
  · exact pairwise_map.mpr h.sorted
  · rw [length_map]
    exact h.length
  · rw [← map_append]
    exact hperm.map score
  · rw [length_map, forall_mem_map]
    exact fun y hy => ⟨(hrest y hy).1, forall_mem_map.mpr (hrest y hy).2⟩

/-- One more item while there is room. -/
theorem Smallest.add (h : Smallest score k seen kept) {a : α} {kept' : List α} (hroom : kept.length < k)
    (hperm : kept' ~ kept ++ [a]) (hsorted : kept'.Pairwise fun a b => score a ≤ score b) :
    Smallest score k (seen ++ [a]) kept' := by
  obtain ⟨rest, hseen, hrest⟩ := h.rest
  have hnil : rest = [] := by
    apply eq_nil_iff_forall_not_mem.mpr
    intro y hy
    have hfull := (hrest y hy).1
    omega
  subst hnil
  refine ⟨hsorted, ?_, [], ?_, fun _ hy => absurd hy not_mem_nil⟩
  · rw [hperm.length_eq, length_append, length_singleton]
    omega
  · rw [append_nil] at hseen ⊢
    exact (hseen.append_right [a]).trans hperm.symm

/-- A better item takes the place of the worst. -/
theorem Smallest.replace {init : List α} {last a : α} (h : Smallest score k seen (init ++ [last])) {kept' : List α}
    (hfull : (init ++ [last]).length = k) (hlt : score a < score last) (hperm : kept' ~ init ++ [a])
    (hsorted : kept'.Pairwise fun a b => score a ≤ score b) : Smallest score k (seen ++ [a]) kept' := by
  obtain ⟨rest, hseen, hrest⟩ := h.rest
  have hinit : ∀ x ∈ init, score x ≤ score last := fun x hx =>
    (pairwise_append.mp h.sorted).2.2 x hx last (mem_singleton_self last)
  have hlen : kept'.length = k := by
    rw [hperm.length_eq, ← hfull, length_append, length_append, length_singleton, length_singleton]
  have hkept : ∀ x ∈ kept', score x ≤ score last := by
    intro x hx
    rcases mem_append.mp (hperm.subset hx) with hx | hx
    · exact hinit x hx
    · rw [mem_singleton.mp hx]
      exact hlt.le
  refine ⟨hsorted, hlen.le, last :: rest, ?_, ?_⟩
  · calc seen ++ [a]
        ~ (init ++ [last] ++ rest) ++ [a] := hseen.append_right [a]
      _ = init ++ (last :: rest ++ [a]) := by simp
      _ ~ init ++ ([a] ++ last :: rest) := perm_append_comm.append_left init
      _ = (init ++ [a]) ++ last :: rest := (append_assoc ..).symm
      _ ~ kept' ++ last :: rest := hperm.symm.append_right _
  · intro y hy
    rcases mem_cons.mp hy with rfl | hy
    · exact ⟨hlen, hkept⟩
    · refine ⟨hlen, fun x hx => (hkept x hx).trans ?_⟩
      exact (hrest y hy).2 last (mem_append_right _ (mem_singleton_self last))

/-- An item that is no better than the worst is left out. -/
theorem Smallest.reject (h : Smallest score k seen kept) {a : α} (hfull : kept.length = k)
    (hle : ∀ x ∈ kept, score x ≤ score a) : Smallest score k (seen ++ [a]) kept := by
  obtain ⟨rest, hseen, hrest⟩ := h.rest
  refine ⟨h.sorted, h.length, rest ++ [a], ?_, ?_⟩
  · rw [← append_assoc]
    exact hseen.append_right [a]
  · intro y hy
    rcases mem_append.mp hy with hy | hy
    · exact hrest y hy
    · rw [mem_singleton.mp hy]
      exact ⟨hfull, hle⟩

end All

/-! ## A selection with one item for each owner -/

section PerOwner
variable [DecidableEq ι] (owner : α → ι) (score : α → κ)

/-- The smallest score of an owner. -/
def minimumOf (seen : List α) (i : ι) : Option κ := ((seen.filter fun a => owner a = i).map score).min?

/-- The smallest score of every owner. -/
def minima (seen : List α) : List κ := (seen.map owner).dedup.filterMap (minimumOf owner score seen)

/-- `kept` is a selection of `k` owners of items in `seen` with the smallest scores, with the best item of each. -/
structure SmallestPerOwner (k : Nat) (seen kept : List α) : Prop where
  sorted : kept.Pairwise fun a b => score a ≤ score b
  length : kept.length ≤ k
  nodup : (kept.map owner).Nodup
  mem : ∀ a ∈ kept, a ∈ seen
  best : ∀ a ∈ kept, ∀ x ∈ seen, owner x = owner a → score a ≤ score x
  rest : ∀ x ∈ seen, owner x ∉ kept.map owner → kept.length = k ∧ ∀ a ∈ kept, score a ≤ score x

variable {owner score} {k : Nat} {seen kept : List α}

theorem minimumOf_eq_some {i : ι} {a : α} (ha : a ∈ seen) (hi : owner a = i)
    (hbest : ∀ x ∈ seen, owner x = i → score a ≤ score x) : minimumOf owner score seen i = some (score a) := by
  unfold minimumOf
  rw [min?_eq_some_iff]
  constructor
  · exact mem_map_of_mem (mem_filter.mpr ⟨ha, decide_eq_true hi⟩)
  · rw [forall_mem_map]
    intro x hx
    obtain ⟨hx, hxi⟩ := mem_filter.mp hx
    exact hbest x hx (of_decide_eq_true hxi)

theorem exists_of_minimumOf {i : ι} {y : κ} (h : minimumOf owner score seen i = some y) :
    ∃ x ∈ seen, owner x = i ∧ score x = y := by
  obtain ⟨x, hx, rfl⟩ := mem_map.mp (min?_mem h)
  obtain ⟨hx, hi⟩ := mem_filter.mp hx
  exact ⟨x, hx, of_decide_eq_true hi, rfl⟩

theorem minima_perm {seen' : List α} (h : seen ~ seen') : minima owner score seen ~ minima owner score seen' := by
  have hmin : minimumOf owner score seen = minimumOf owner score seen' := by
    funext i
    have hp := (h.filter fun a => decide (owner a = i)).map score
    ext y
    unfold minimumOf
    rw [min?_eq_some_iff, min?_eq_some_iff, hp.mem_iff]
    exact and_congr_right fun _ => forall_congr' fun x => by rw [hp.mem_iff]
  unfold minima
  rw [hmin]
  exact ((h.map owner).dedup).filterMap _

omit [DecidableEq ι] in
theorem SmallestPerOwner.nil : SmallestPerOwner owner score k [] [] where
  sorted := .nil
  length := Nat.zero_le k
  nodup := nodup_nil
  mem _ h := absurd h not_mem_nil
  best _ h := absurd h not_mem_nil
  rest _ h := absurd h not_mem_nil

omit [DecidableEq ι] in
/-- Which items there are is all that matters. -/
theorem SmallestPerOwner.perm {seen' : List α} (h : SmallestPerOwner owner score k seen kept) (hp : seen ~ seen') :
    SmallestPerOwner owner score k seen' kept where
  sorted := h.sorted
  length := h.length
  nodup := h.nodup
  mem a ha := hp.subset (h.mem a ha)
  best a ha x hx := h.best a ha x (hp.symm.subset hx)
  rest x hx := h.rest x (hp.symm.subset hx)

/-- **The scores of a selection** are the smallest of the minima. -/
theorem SmallestPerOwner.scores (h : SmallestPerOwner owner score k seen kept) :
    kept.map score = smallest k (minima owner score seen) := by
  have hkept : (kept.map owner).filterMap (minimumOf owner score seen) = kept.map score := by
    rw [filterMap_map, ← filterMap_eq_map]
    refine filterMap_congr fun a ha => ?_
    exact minimumOf_eq_some (h.mem a ha) rfl (h.best a ha)
  have howners : (seen.map owner).dedup ~
      kept.map owner ++ (seen.map owner).dedup.filter fun i => i ∉ kept.map owner := by
    refine (perm_ext_iff_of_nodup (nodup_dedup _) ?_).mpr fun i => ?_
    · refine nodup_append.mpr ⟨h.nodup, (nodup_dedup _).filter _, fun i hi j hj hij => ?_⟩
      exact of_decide_eq_true (mem_filter.mp hj).2 (hij ▸ hi)
    · rw [mem_append, mem_filter, mem_dedup, decide_eq_true_eq]
      constructor
      · exact fun hi => (em (i ∈ kept.map owner)).imp_right fun hout => ⟨hi, hout⟩
      · rintro (hi | ⟨hi, -⟩)
        · obtain ⟨a, ha, rfl⟩ := mem_map.mp hi
          exact mem_map_of_mem (h.mem a ha)
        · exact hi
  symm
  apply smallest_eq (r := ((seen.map owner).dedup.filter fun i => i ∉ kept.map owner).filterMap
    (minimumOf owner score seen))
  · exact pairwise_map.mpr h.sorted
  · rw [length_map]
    exact h.length
  · rw [← hkept, ← filterMap_append]
    exact howners.filterMap _
  · intro y hy
    obtain ⟨i, hi, hmin⟩ := mem_filterMap.mp hy
    obtain ⟨x, hx, rfl, rfl⟩ := exists_of_minimumOf hmin
    have hout : owner x ∉ kept.map owner := of_decide_eq_true (mem_filter.mp hi).2
    rw [length_map, forall_mem_map]
    exact h.rest x hx hout

theorem SmallestPerOwner.owners_subset (h : SmallestPerOwner owner score k seen kept) :
    kept.map owner ⊆ (seen.map owner).dedup := by
  intro i hi
  obtain ⟨a, ha, rfl⟩ := mem_map.mp hi
  exact mem_dedup.mpr (mem_map_of_mem (h.mem a ha))

/-- A selection has as many items as there are owners, at most `k`. -/
theorem SmallestPerOwner.length_eq (h : SmallestPerOwner owner score k seen kept) :
    kept.length = min k (seen.map owner).dedup.length := by
  have howners : (kept.map owner).length = kept.length := length_map owner
  have hle : kept.length ≤ (seen.map owner).dedup.length := by
    rw [← howners]
    exact (subperm_of_subset h.nodup h.owners_subset).length_le
  by_cases hall : (seen.map owner).dedup ⊆ kept.map owner
  · have hge : (seen.map owner).dedup.length ≤ kept.length := by
      rw [← howners]
      exact (subperm_of_subset (nodup_dedup _) hall).length_le
    have hlen := h.length
    omega
  · obtain ⟨i, hi, hout⟩ : ∃ i ∈ (seen.map owner).dedup, i ∉ kept.map owner := by
      by_contra hcon
      push Not at hcon
      exact hall hcon
    obtain ⟨x, hx, rfl⟩ := mem_map.mp (mem_dedup.mp hi)
    have hfull := (h.rest x hx hout).1
    omega

/-- Where there is room for every owner, every owner is kept. -/
theorem SmallestPerOwner.mem_owners_iff (h : SmallestPerOwner owner score k seen kept)
    (hroom : (seen.map owner).dedup.length ≤ k) (i : ι) : i ∈ kept.map owner ↔ i ∈ (seen.map owner).dedup := by
  have hlen := h.length_eq
  have hperm := (subperm_of_subset h.nodup h.owners_subset).perm_of_length_le (by rw [length_map]; omega)
  exact hperm.mem_iff

/-- Whether an item leaves a selection as it is: it is no better than the one of its owner, or than any if there is
none. -/
def Yields (owner : α → ι) (score : α → κ) (k : Nat) (kept : List α) (x : α) : Prop :=
  (∀ a ∈ kept, owner x = owner a → score a ≤ score x) ∧
    (owner x ∉ kept.map owner → kept.length = k ∧ ∀ a ∈ kept, score a ≤ score x)

omit [DecidableEq ι] in
/-- **A selection stays right** exactly if every further item leaves it as it is. -/
theorem SmallestPerOwner.append_iff (h : SmallestPerOwner owner score k seen kept) (late : List α) :
    SmallestPerOwner owner score k (seen ++ late) kept ↔ ∀ x ∈ late, Yields owner score k kept x := by
  constructor
  · intro h' x hx
    have hx' : x ∈ seen ++ late := mem_append_right _ hx
    exact ⟨fun a ha => h'.best a ha x hx', h'.rest x hx'⟩
  · intro hlate
    refine ⟨h.sorted, h.length, h.nodup, fun a ha => mem_append_left _ (h.mem a ha), ?_, ?_⟩
    · intro a ha x hx hxa
      rcases mem_append.mp hx with hx | hx
      · exact h.best a ha x hx hxa
      · exact (hlate x hx).1 a ha hxa
    · intro x hx hout
      rcases mem_append.mp hx with hx | hx
      · exact h.rest x hx hout
      · exact (hlate x hx).2 hout

section Steps
variable {a : α} {kept' : List α}

omit [DecidableEq ι] in
/-- An owner improves on its own item. -/
theorem SmallestPerOwner.improve {b : α} {l₁ l₂ : List α} (h : SmallestPerOwner owner score k seen (l₁ ++ b :: l₂))
    (hown : owner b = owner a) (hlt : score a < score b) (hperm : kept' ~ l₁ ++ a :: l₂)
    (hsorted : kept'.Pairwise fun a b => score a ≤ score b) : SmallestPerOwner owner score k (seen ++ [a]) kept' := by
  have hb : b ∈ l₁ ++ b :: l₂ := mem_append_right _ mem_cons_self
  have howners : kept'.map owner ~ (l₁ ++ b :: l₂).map owner := by
    refine (hperm.map owner).trans (Perm.of_eq ?_)
    rw [map_append, map_cons, map_append, map_cons, hown]
  -- whoever is kept is the new item, or was kept and has another owner
  have hkept : ∀ x ∈ kept', x = a ∨ x ∈ l₁ ++ b :: l₂ ∧ owner x ≠ owner b := by
    intro x hx
    have hnodup := h.nodup
    rw [map_append, map_cons, nodup_middle, nodup_cons, ← map_append] at hnodup
    rcases mem_append.mp (hperm.subset hx) with hx | hx
    · refine .inr ⟨mem_append_left _ hx, fun he => hnodup.1 ?_⟩
      exact he ▸ mem_map_of_mem (mem_append_left _ hx)
    · rcases mem_cons.mp hx with rfl | hx
      · exact .inl rfl
      · refine .inr ⟨mem_append_right _ (mem_cons_of_mem _ hx), fun he => hnodup.1 ?_⟩
        exact he ▸ mem_map_of_mem (mem_append_right _ hx)
  refine ⟨hsorted, ?_, (howners.nodup_iff).mpr h.nodup, ?_, ?_, ?_⟩
  · rw [← length_map owner, howners.length_eq, length_map]
    exact h.length
  · intro x hx
    rcases hkept x hx with rfl | ⟨hx, -⟩
    · exact mem_append_right _ (mem_singleton_self x)
    · exact mem_append_left _ (h.mem x hx)
  · intro x hx y hy hyx
    rcases mem_append.mp hy with hseen | hnow
    · rcases hkept x hx with rfl | ⟨hx, -⟩
      · exact hlt.le.trans (h.best b hb y hseen (hyx.trans hown.symm))
      · exact h.best x hx y hseen hyx
    · rw [mem_singleton.mp hnow] at hyx ⊢
      rcases hkept x hx with rfl | ⟨-, hne⟩
      · exact le_refl _
      · exact absurd (hyx.symm.trans hown.symm) hne
  · intro y hy hout
    rw [howners.mem_iff] at hout
    rcases mem_append.mp hy with hseen | hnow
    · obtain ⟨hlen, hle⟩ := h.rest y hseen hout
      refine ⟨?_, fun x hx => ?_⟩
      · rw [← length_map owner, howners.length_eq, length_map]
        exact hlen
      · rcases hkept x hx with rfl | ⟨hx, -⟩
        · exact hlt.le.trans (hle b hb)
        · exact hle x hx
    · rw [mem_singleton.mp hnow, ← hown] at hout
      exact absurd (mem_map_of_mem hb) hout

omit [DecidableEq ι] in
/-- Another owner while there is room. -/
theorem SmallestPerOwner.add (h : SmallestPerOwner owner score k seen kept) (hnew : owner a ∉ kept.map owner)
    (hroom : kept.length < k) (hperm : kept' ~ kept ++ [a])
    (hsorted : kept'.Pairwise fun a b => score a ≤ score b) : SmallestPerOwner owner score k (seen ++ [a]) kept' := by
  have hkept : ∀ x, x ∈ kept' ↔ x ∈ kept ∨ x = a := fun x => by
    rw [hperm.mem_iff, mem_append, mem_singleton]
  have hall : ∀ y ∈ seen, owner y ∈ kept.map owner := by
    intro y hy
    by_contra hout
    have hfull := (h.rest y hy hout).1
    omega
  refine ⟨hsorted, ?_, ?_, ?_, ?_, ?_⟩
  · rw [hperm.length_eq, length_append, length_singleton]
    omega
  · rw [(hperm.map owner).nodup_iff, map_append, map_singleton]
    exact nodup_append.mpr ⟨h.nodup, nodup_singleton _, fun i hi j hj hij => hnew (mem_singleton.mp hj ▸ hij ▸ hi)⟩
  · intro x hx
    rcases (hkept x).mp hx with hx | rfl
    · exact mem_append_left _ (h.mem x hx)
    · exact mem_append_right _ (mem_singleton_self x)
  · intro x hx y hy hyx
    rcases mem_append.mp hy with hseen | hnow
    · rcases (hkept x).mp hx with hx | rfl
      · exact h.best x hx y hseen hyx
      · exact absurd (hyx ▸ hall y hseen) hnew
    · rw [mem_singleton.mp hnow] at hyx ⊢
      rcases (hkept x).mp hx with hx | rfl
      · exact absurd (hyx ▸ mem_map_of_mem hx) hnew
      · exact le_refl _
  · intro y hy hout
    refine absurd ?_ hout
    rw [(hperm.map owner).mem_iff, map_append, mem_append]
    rcases mem_append.mp hy with hseen | hnow
    · exact .inl (hall y hseen)
    · exact .inr (mem_map_of_mem hnow)

omit [DecidableEq ι] in
/-- Another owner takes the place of the worst. -/
theorem SmallestPerOwner.replace {init : List α} {last : α}
    (h : SmallestPerOwner owner score k seen (init ++ [last])) (hnew : owner a ∉ (init ++ [last]).map owner)
    (hfull : (init ++ [last]).length = k) (hlt : score a < score last) (hperm : kept' ~ init ++ [a])
    (hsorted : kept'.Pairwise fun a b => score a ≤ score b) : SmallestPerOwner owner score k (seen ++ [a]) kept' := by
  have hlast : last ∈ init ++ [last] := mem_append_right _ (mem_singleton_self last)
  have hinit : ∀ x ∈ init, score x ≤ score last := fun x hx =>
    (pairwise_append.mp h.sorted).2.2 x hx last (mem_singleton_self last)
  have hkept : ∀ x, x ∈ kept' ↔ x ∈ init ∨ x = a := fun x => by
    rw [hperm.mem_iff, mem_append, mem_singleton]
  have hle : ∀ x ∈ kept', score x ≤ score last := by
    intro x hx
    rcases (hkept x).mp hx with hx | rfl
    · exact hinit x hx
    · exact hlt.le
  have hlen : kept'.length = k := by
    rw [hperm.length_eq, ← hfull, length_append, length_append, length_singleton, length_singleton]
  refine ⟨hsorted, hlen.le, ?_, ?_, ?_, ?_⟩
  · rw [(hperm.map owner).nodup_iff, map_append, map_singleton]
    have hnodup := h.nodup
    rw [map_append] at hnodup hnew
    refine nodup_append.mpr ⟨(nodup_append.mp hnodup).1, nodup_singleton _, fun i hi j hj hij => hnew ?_⟩
    exact mem_append_left _ (mem_singleton.mp hj ▸ hij ▸ hi)
  · intro x hx
    rcases (hkept x).mp hx with hx | rfl
    · exact mem_append_left _ (h.mem x (mem_append_left _ hx))
    · exact mem_append_right _ (mem_singleton_self x)
  · intro x hx y hy hyx
    rcases mem_append.mp hy with hseen | hnow
    · rcases (hkept x).mp hx with hx | rfl
      · exact h.best x (mem_append_left _ hx) y hseen hyx
      · exact hlt.le.trans ((h.rest y hseen (hyx ▸ hnew)).2 last hlast)
    · rw [mem_singleton.mp hnow] at hyx ⊢
      rcases (hkept x).mp hx with hx | rfl
      · exact absurd (hyx ▸ mem_map_of_mem (mem_append_left _ hx)) hnew
      · exact le_refl _
  · intro y hy hout
    rcases mem_append.mp hy with hseen | hnow
    · -- whether it was left out before or belongs to the owner that is now, it is no better than the old worst
      have hworst : score last ≤ score y := by
        by_cases hin : owner y ∈ (init ++ [last]).map owner
        · refine h.best last hlast y hseen ?_
          rw [map_append, mem_append, map_singleton, mem_singleton] at hin
          rcases hin with hin | hin
          · refine absurd ?_ hout
            rw [(hperm.map owner).mem_iff, map_append]
            exact mem_append_left _ hin
          · exact hin
        · exact (h.rest y hseen hin).2 last hlast
      exact ⟨hlen, fun x hx => (hle x hx).trans hworst⟩
    · refine absurd ?_ hout
      rw [(hperm.map owner).mem_iff, map_append]
      exact mem_append_right _ (mem_map_of_mem hnow)

end Steps

/-! ### The first of the best -/

variable (owner score)

/-- The first of an owner's items with the smallest score. -/
def firstBest (seen : List α) (i : ι) : Option α := (seen.filter fun a => owner a = i).argmin score

variable {owner score} {a : α} {i : ι}

theorem firstBest_snoc_of_ne (hne : owner a ≠ i) : firstBest owner score (seen ++ [a]) i = firstBest owner score seen i := by
  unfold firstBest
  rw [filter_append, filter_cons_of_neg (by simpa using hne), filter_nil, append_nil]

theorem firstBest_snoc_of_le {b : α} (hb : firstBest owner score seen i = some b) (hle : score b ≤ score a) :
    firstBest owner score (seen ++ [a]) i = some b := by
  by_cases hown : owner a = i
  · unfold firstBest at *
    rw [filter_append, filter_cons_of_pos (by simpa using hown), filter_nil, argmin_concat, hb]
    exact if_neg (not_lt.mpr hle)
  · rw [firstBest_snoc_of_ne hown, hb]

theorem firstBest_snoc_of_lt (hlt : ∀ x ∈ seen, owner x = owner a → score a < score x) :
    firstBest owner score (seen ++ [a]) (owner a) = some a := by
  unfold firstBest
  rw [filter_append, filter_cons_of_pos (by simp), filter_nil, argmin_concat]
  cases hbest : (seen.filter fun x => owner x = owner a).argmin score with
  | none => rfl
  | some b =>
    obtain ⟨hb, hown⟩ := mem_filter.mp (argmin_mem hbest)
    exact if_pos (hlt b hb (of_decide_eq_true hown))

end PerOwner

end Hypha.Lib
