import Mathlib.Data.List.AList
import Mathlib.Data.List.Sort

/-!
# Hash maps

A hash map is an association list without repeated keys. It lists its values in an order that nobody promises: the order
is given by a ranking of the keys, any order being that of some ranking.

* `Table K V` : hash maps;
* `Table.lookup_insert_iff`, `Table.lookup_erase_iff` : what is found after an insertion and a removal;
* `Table.listing`, `Table.values`, `Table.mem_values` : the entries and the values in the order of a ranking;
* `Table.lookup_foldl_insert` : what is found after a list of entries was inserted;
* `Table.mapValues`, `Table.restrict`, `Table.update` : other values, fewer keys, more entries, in the order of the map;
* `Table.traverse`, `Table.lookup_of_traverse` : other values, from a function that may fail.
-/

namespace Hypha.Lib

/-- A hash map. -/
abbrev Table (K V : Type) := AList (fun _ : K => V)

namespace Table

variable {K V : Type} [DecidableEq K] {m : Table K V} {k l : K} {u v : V}

theorem lookup_insert_iff : (AList.insert k v m).lookup l = some u ↔ (l = k ∧ v = u) ∨ (l ≠ k ∧ m.lookup l = some u) := by
  by_cases hl : l = k
  · subst hl
    simp
  · rw [AList.lookup_insert_ne hl]
    simp [hl]

theorem lookup_erase_iff : (AList.erase k m).lookup l = some u ↔ l ≠ k ∧ m.lookup l = some u := by
  by_cases hl : l = k
  · subst hl
    simp
  · rw [AList.lookup_erase_ne hl]
    simp [hl]

theorem lookup_singleton (k l : K) (v : V) :
    (AList.singleton k v : Table K V).lookup l = if l = k then some v else none := by
  rw [← AList.insert_empty]
  split_ifs with h
  · rw [h, AList.lookup_insert]
  · rw [AList.lookup_insert_ne h, AList.lookup_empty]

theorem mem_of_lookup (h : m.lookup k = some v) : k ∈ m := by
  rw [← AList.lookup_isSome, h]
  rfl

theorem exists_lookup (h : k ∈ m) : ∃ v, m.lookup k = some v :=
  Option.isSome_iff_exists.mp (AList.lookup_isSome.mpr h)

/-- The entries in the order of a ranking of the keys. -/
def listing (rank : K → Nat) (m : Table K V) : List (Σ _ : K, V) :=
  m.entries.insertionSort fun a b => rank a.1 ≤ rank b.1

omit [DecidableEq K] in
theorem listing_perm (rank : K → Nat) (m : Table K V) : (listing rank m).Perm m.entries := List.perm_insertionSort _ _

omit [DecidableEq K] in
theorem nodupKeys_listing (rank : K → Nat) (m : Table K V) : (listing rank m).NodupKeys :=
  (List.perm_nodupKeys (listing_perm rank m)).mpr m.nodupKeys

theorem dlookup_listing (rank : K → Nat) (m : Table K V) (k : K) : (listing rank m).dlookup k = m.lookup k :=
  List.perm_dlookup k (nodupKeys_listing rank m)
    (listing_perm rank m)

omit [DecidableEq K] in
theorem mem_keys_listing {rank : K → Nat} : k ∈ (listing rank m).keys ↔ k ∈ m :=
  List.Perm.mem_iff ((listing_perm rank m).map Sigma.fst)

/-- The values in the order of a ranking of the keys. -/
def values (rank : K → Nat) (m : Table K V) : List V :=
  (m.entries.insertionSort fun a b => rank a.1 ≤ rank b.1).map Sigma.snd

theorem mem_values {rank : K → Nat} : v ∈ values rank m ↔ ∃ k, m.lookup k = some v := by
  unfold values
  simp only [List.mem_map, List.mem_insertionSort]
  refine ⟨?_, ?_⟩
  · rintro ⟨⟨k, v⟩, hmem, rfl⟩
    exact ⟨k, AList.mem_lookup_iff.mpr hmem⟩
  · rintro ⟨k, hk⟩
    exact ⟨⟨k, v⟩, AList.mem_lookup_iff.mp hk, rfl⟩

/-- Removal leaves the other entries in their order. -/
theorem entries_erase_sublist (k : K) (m : Table K V) : (AList.erase k m).entries.Sublist m.entries :=
  List.kerase_sublist k m.entries

/-- What a map has after entries with new keys, all different, have been inserted. -/
theorem lookup_foldl_insert {α : Type} (key : α → K) (value : α → V) : ∀ {entries : List α} {m : Table K V},
    (entries.map key).Nodup → (∀ e ∈ entries, key e ∉ m) →
    ((entries.foldl (fun m e => AList.insert (key e) (value e) m) m).lookup k = some v ↔
      (∃ e ∈ entries, key e = k ∧ value e = v) ∨ m.lookup k = some v)
  | [], m, _, _ => by simp
  | e :: entries, m, hnodup, hnew => by
    rw [List.map_cons, List.nodup_cons] at hnodup
    rw [List.foldl_cons, lookup_foldl_insert key value hnodup.2, lookup_insert_iff, List.exists_mem_cons_iff, or_assoc,
      or_left_comm]
    · constructor
      · rintro (⟨hk, hv⟩ | hrest | ⟨-, hm⟩)
        · exact Or.inl ⟨hk.symm, hv⟩
        · exact Or.inr (Or.inl hrest)
        · exact Or.inr (Or.inr hm)
      · rintro (⟨hk, hv⟩ | hrest | hm)
        · exact Or.inl ⟨hk.symm, hv⟩
        · exact Or.inr (Or.inl hrest)
        · refine Or.inr (Or.inr ⟨?_, hm⟩)
          rintro rfl
          exact hnew e List.mem_cons_self (mem_of_lookup hm)
    · intro e' he' hmem
      rw [AList.mem_insert] at hmem
      rcases hmem with heq | hmem
      · exact hnodup.1 (heq ▸ List.mem_map_of_mem he')
      · exact hnew e' (List.mem_cons_of_mem _ he') hmem

/-- Other values under the same keys. -/
def mapValues {W : Type} (f : K → V → W) (m : Table K V) : Table K W where
  entries := m.entries.map (.map id f)
  nodupKeys := List.NodupKeys.map₂ f m.entries m.nodupKeys

theorem lookup_mapValues {W : Type} (f : K → V → W) (m : Table K V) (k : K) :
    (mapValues f m).lookup k = (m.lookup k).map (f k) :=
  List.dlookup_map₂ k

theorem mem_mapValues {W : Type} {f : K → V → W} : k ∈ mapValues f m ↔ k ∈ m := by
  rw [← AList.lookup_isSome, lookup_mapValues, Option.isSome_map, AList.lookup_isSome]

/-- The entries under some keys. -/
def restrict (p : K → Bool) (m : Table K V) : Table K V where
  entries := m.entries.filter fun e => p e.1
  nodupKeys := m.nodupKeys.sublist List.filter_sublist

omit [DecidableEq K] in
theorem of_mem_restrict {p : K → Bool} (h : k ∈ restrict p m) : p k = true := by
  obtain ⟨e, he, rfl⟩ := List.mem_map.mp (AList.mem_keys.mp h)
  exact (List.mem_filter.mp he).2

/-- `dict.update`: the keys stay where they are, and new ones come last. -/
def update (m n : Table K V) : Table K V where
  entries := (mapValues (fun k v => (n.lookup k).getD v) m).entries ++ (restrict (· ∉ m) n).entries
  nodupKeys := by
    unfold List.NodupKeys
    rw [List.keys_append]
    refine List.nodup_append.mpr ⟨AList.keys_nodup _, AList.keys_nodup _, ?_⟩
    rintro k hk _ hl rfl
    have hnew := of_mem_restrict (p := fun k => k ∉ m) (AList.mem_keys.mpr hl)
    exact of_decide_eq_true hnew (mem_mapValues.mp (AList.mem_keys.mpr hk))

section Traverse
variable {W : Type} {f : K → V → Option W} {n : Table K W}

/-- The entries for which the function gives a value. -/
def collect (f : K → V → Option W) (entries : List (Σ _ : K, V)) : List (Σ _ : K, W) :=
  entries.filterMap fun e => (f e.1 e.2).map (Sigma.mk e.1)

omit [DecidableEq K] in
theorem keys_collect_sublist (f : K → V → Option W) : ∀ entries : List (Σ _ : K, V),
    (collect f entries).keys.Sublist entries.keys
  | [] => .slnil
  | e :: entries => by
    have ih := keys_collect_sublist f entries
    unfold collect at ih ⊢
    rw [List.filterMap_cons]
    cases f e.1 e.2 with
    | none => exact ih.cons _
    | some w => exact ih.cons_cons _

theorem dlookup_collect (f : K → V → Option W) (k : K) : ∀ {entries : List (Σ _ : K, V)}, entries.NodupKeys →
    (collect f entries).dlookup k = (entries.dlookup k).bind (f k)
  | [], _ => rfl
  | ⟨l, v⟩ :: entries, h => by
    obtain ⟨hl, hrest⟩ := List.nodupKeys_cons.mp h
    have ih := dlookup_collect f k hrest
    unfold collect at ih ⊢
    rw [List.filterMap_cons]
    by_cases hk : k = l
    · subst hk
      rw [List.dlookup_cons_eq, Option.bind_some]
      cases hw : f k v with
      | none =>
        refine ih.trans ?_
        rw [List.dlookup_eq_none.mpr hl, Option.bind_none]
      | some w => exact List.dlookup_cons_eq _ _ _
    · refine Eq.trans ?_ (congrArg (Option.bind · (f k)) (List.dlookup_cons_ne entries ⟨l, v⟩ hk)).symm
      rw [← ih]
      cases f l v with
      | none => rfl
      | some w => exact List.dlookup_cons_ne _ (⟨l, w⟩ : Σ _ : K, W) hk

/-- The values that the function gives, if it gives one for every entry. -/
def traverse (f : K → V → Option W) (m : Table K V) : Option (Table K W) :=
  if m.entries.all fun e => (f e.1 e.2).isSome then
    some ⟨collect f m.entries, List.Nodup.sublist (keys_collect_sublist f m.entries) m.nodupKeys⟩
  else none

theorem lookup_of_traverse (h : traverse f m = some n) (k : K) : n.lookup k = (m.lookup k).bind (f k) := by
  unfold traverse at h
  split_ifs at h
  obtain rfl := Option.some.inj h
  exact dlookup_collect f k m.nodupKeys

theorem isSome_of_traverse (h : traverse f m = some n) (hv : m.lookup k = some v) : (f k v).isSome := by
  unfold traverse at h
  split_ifs at h with hall
  exact List.all_eq_true.mp hall ⟨k, v⟩ (AList.mem_lookup_iff.mp hv)

theorem exists_traverse (h : ∀ k v, m.lookup k = some v → (f k v).isSome) : ∃ n, traverse f m = some n := by
  unfold traverse
  rw [if_pos (List.all_eq_true.mpr fun e he => h e.1 e.2 (AList.mem_lookup_iff.mpr he))]
  exact ⟨_, rfl⟩

theorem mem_of_traverse (h : traverse f m = some n) : k ∈ n ↔ k ∈ m := by
  rw [← AList.lookup_isSome, ← AList.lookup_isSome, lookup_of_traverse h k]
  cases hv : m.lookup k with
  | none => rfl
  | some v =>
    have hsome := isSome_of_traverse h hv
    exact iff_of_true hsome rfl

end Traverse

end Table

end Hypha.Lib
