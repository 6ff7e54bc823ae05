import Hypha.Tracker.Slice

/-!
# Whom a slice is stolen from

A peer that finds open slices, but none of its own and none of nobody's, steals one. The counts of open slices are
sorted in ascending order, so the slice is taken from a peer that has the fewest of them and not from the slowest one.

* `openCount`, `countRead` : the open slices of a peer, and what the map of counts says of them;
* `mem_openCounts_iff`, `slowPeer_least`, `slowPeer_first` : the map, the peer that is chosen from it;
* `Stolen`, `next_stolen` : what a call of `next` does that has to steal;
* `steals_from_slowest_iff` : when every order of the map takes the slice from a slowest peer;
* `answers_iff` : a call of `next` is answered if there are slices at all.
-/

namespace Hypha.Tracker

open Hypha.Lib

variable {PeerId : Type} [DecidableEq PeerId]

set_option linter.unusedSectionVars false

/-! ## The counts -/

/-- The open slices of a peer. -/
def SliceTracker.openCount (t : SliceTracker PeerId) (p : PeerId) : Nat :=
  t.slices.countP fun s => !s.processed && decide (s.peer = some p)

/-- What is counted for a peer: the first slice counts zero, and a count is a `u32`. -/
def countRead (n : Nat) : Nat := (n - 1) % 2 ^ 32

theorem mem_countPeer {counts : List (PeerId × Nat)} {p q : PeerId} {v : Nat} :
    (q, v) ∈ countPeer counts p ↔
      q ≠ p ∧ (q, v) ∈ counts ∨
        q = p ∧ ((∃ u, (p, u) ∈ counts ∧ v = wrappingAdd u 1) ∨ (∀ u, (p, u) ∉ counts) ∧ v = 0) := by
  unfold countPeer
  split_ifs with h
  · obtain ⟨⟨p', u'⟩, hmem, hp⟩ := List.any_eq_true.mp h
    obtain rfl : p' = p := of_decide_eq_true hp
    rw [List.mem_map]
    constructor
    · rintro ⟨⟨r, u⟩, hru, he⟩
      dsimp only at he
      split_ifs at he with hr <;> obtain ⟨rfl, rfl⟩ := Prod.mk.inj he
      · exact .inr ⟨hr, .inl ⟨u, hr ▸ hru, rfl⟩⟩
      · exact .inl ⟨hr, hru⟩
    · rintro (⟨hne, hq⟩ | ⟨rfl, ⟨u, hu, rfl⟩ | ⟨hnone, -⟩⟩)
      · exact ⟨(q, v), hq, if_neg hne⟩
      · exact ⟨(q, u), hu, if_pos rfl⟩
      · exact absurd hmem (hnone u')
  · have hnone : ∀ u, (p, u) ∉ counts := fun u hu => h (List.any_eq_true.mpr ⟨(p, u), hu, decide_eq_true rfl⟩)
    rw [List.mem_append, List.mem_singleton, Prod.mk.injEq]
    constructor
    · rintro (hq | ⟨rfl, rfl⟩)
      · exact .inl ⟨fun hqp => hnone v (hqp ▸ hq), hq⟩
      · exact .inr ⟨rfl, .inr ⟨hnone, rfl⟩⟩
    · rintro (⟨-, hq⟩ | ⟨rfl, ⟨u, hu, -⟩ | ⟨-, rfl⟩⟩)
      · exact .inl hq
      · exact absurd hu (hnone u)
      · exact .inr ⟨rfl, rfl⟩

theorem mem_foldl_countPeer (peers : List PeerId) (q : PeerId) (v : Nat) :
    (q, v) ∈ peers.foldl countPeer [] ↔ 0 < peers.count q ∧ v = countRead (peers.count q) := by
  induction peers using List.reverseRecOn generalizing v with
  | nil => simp
  | append_singleton peers p ih =>
    rw [List.foldl_append, List.foldl_cons, List.foldl_nil, mem_countPeer, List.count_append, List.count_singleton]
    by_cases hqp : q = p
    · subst hqp
      rw [if_pos (beq_self_eq_true q)]
      simp only [ih, ne_eq, not_true_eq_false, false_and, true_and, false_or, Nat.succ_pos]
      by_cases hzero : peers.count q = 0
      · rw [hzero]
        simp [countRead]
      · have hpos : 0 < peers.count q := Nat.pos_of_ne_zero hzero
        simp only [hpos, true_and, exists_eq_left, forall_eq, false_and, or_false]
        unfold countRead wrappingAdd
        omega
    · rw [if_neg (fun h => hqp (beq_iff_eq.mp h).symm), Nat.add_zero, ih]
      simp [hqp]

/-- The entries of the map of counts. -/
theorem mem_openCounts_iff (t : SliceTracker PeerId) (q : PeerId) (v : Nat) :
    (q, v) ∈ openCounts t.slices ↔ 0 < t.openCount q ∧ v = countRead (t.openCount q) := by
  have hcount : ((t.slices.filter (fun s => !s.processed)).filterMap (·.peer)).count q = t.openCount q := by
    unfold SliceTracker.openCount
    rw [List.count, List.countP_filterMap, List.countP_filter]
    refine List.countP_congr fun s _ => ?_
    cases s.peer with
    | none => simp
    | some p => simp [and_comm]
  unfold openCounts
  rw [mem_foldl_countPeer, hcount]

/-! ## The peer that is chosen -/

/-- Nobody with open slices has fewer of them, as they are counted. -/
def SliceTracker.IsLeast (t : SliceTracker PeerId) (p : PeerId) : Prop :=
  0 < t.openCount p ∧ ∀ q, 0 < t.openCount q → countRead (t.openCount p) ≤ countRead (t.openCount q)

/-- The slice is stolen from a peer for which the count is least. -/
theorem slowPeer_least {order : IterationOrder (PeerId × Nat)} {t : SliceTracker PeerId} {p : PeerId}
    (h : slowPeer order t.slices = some p) : t.IsLeast p := by
  unfold slowPeer at h
  obtain ⟨⟨p', v⟩, hc, rfl⟩ := Option.map_eq_some_iff.mp h
  have hsorted := List.pairwise_insertionSort (fun a b : PeerId × Nat => a.2 ≤ b.2) (order.arrange (openCounts t.slices))
  have hperm := (List.perm_insertionSort (fun a b : PeerId × Nat => a.2 ≤ b.2) _).trans
    (order.perm (openCounts t.slices))
  obtain ⟨rest, hrest⟩ := List.head?_eq_some_iff.mp hc
  rw [hrest] at hsorted hperm
  have hp := (mem_openCounts_iff t p' v).mp (hperm.mem_iff.mp (List.mem_cons_self ..))
  refine ⟨hp.1, fun q hq => ?_⟩
  have hqmem := hperm.mem_iff.mpr ((mem_openCounts_iff t q _).mpr ⟨hq, rfl⟩)
  rw [← hp.2]
  rcases List.mem_cons.mp hqmem with heq | hlater
  · exact (Prod.mk.inj heq).2.ge
  · exact (List.pairwise_cons.mp hsorted).1 _ hlater

/-- The order in which the map yields `c` first. -/
def IterationOrder.first {α : Type} [BEq α] [LawfulBEq α] (c : α) : IterationOrder α where
  arrange l := if c ∈ l then c :: l.erase c else l
  perm l := by
    split_ifs with hc
    · exact (List.perm_cons_erase hc).symm
    · exact List.Perm.refl l

/-- Every such peer is chosen in some order. -/
theorem slowPeer_first {t : SliceTracker PeerId} {p : PeerId} (h : t.IsLeast p) :
    slowPeer (.first (p, countRead (t.openCount p))) t.slices = some p := by
  have hmem := (mem_openCounts_iff t p _).mpr ⟨h.1, rfl⟩
  unfold slowPeer IterationOrder.first
  dsimp only
  rw [if_pos hmem, List.insertionSort_cons_of_forall_rel]
  · rfl
  · rintro ⟨q, v⟩ hq
    obtain ⟨hpos, rfl⟩ := (mem_openCounts_iff t q v).mp (List.mem_of_mem_erase hq)
    exact h.2 q hpos

/-! ## Stealing a slice -/

/-- There are open slices, but none of nobody's and none of the peer that asks. -/
structure MustSteal (t : SliceTracker PeerId) (peer : PeerId) : Prop where
  exists_open : ∃ s ∈ t.slices, s.processed = false
  none_for : ∀ s ∈ t.slices, s.openFor peer = false

/-- One slice, which was open and `owner`'s, is handed to `peer`; no other slice changes. -/
structure Stolen (t : SliceTracker PeerId) (peer owner : PeerId) (hash : Nat) (t' : SliceTracker PeerId) : Prop where
  slices : ∃ before s after, t.slices = before ++ s :: after ∧ t'.slices = before ++ s.handTo peer :: after ∧
    s.processed = false ∧ s.peer = some owner ∧ s.hash = hash
  owner_ne : owner ≠ peer
  processing : t'.processing = Function.update t.processing peer (some hash)
  rounds : t'.rounds = t.rounds

/-- **What `next` does when it has to steal**: it takes the slice from the peer that is chosen. -/
theorem next_stolen {t : SliceTracker PeerId} {peer : PeerId} (h : MustSteal t peer)
    (order : IterationOrder (PeerId × Nat)) : ∃ owner hash t',
      slowPeer order t.slices = some owner ∧ t.next order 2 peer = some (hash, t') ∧ Stolen t peer owner hash t' := by
  have hout : t.handOut peer peer = none := by
    rcases hcase : t.handOut peer peer with _ | ⟨hash, t'⟩
    · rfl
    · obtain ⟨r, hr, -⟩ := Option.map_eq_some_iff.mp hcase
      obtain ⟨before, s, after, hslices, -, hopen, -⟩ := handFirst_some hr
      have hs : s ∈ t.slices := hslices ▸ List.mem_append_right _ (List.mem_cons_self ..)
      exact Bool.noConfusion ((h.none_for s hs).symm.trans hopen)
  obtain ⟨u, hu, huopen⟩ := h.exists_open
  obtain ⟨owner, howner⟩ : ∃ owner, slowPeer order t.slices = some owner := by
    rcases hslow : slowPeer order t.slices with _ | owner
    · obtain ⟨q, hq, -⟩ := Slice.peer_of_not_openFor (h.none_for u hu) huopen
      exact absurd (slowPeer_none hslow u hu huopen) (hq ▸ Option.some_ne_none q)
    · exact ⟨owner, rfl⟩
  have hattempt := SliceTracker.attempt_ne_panicked order t peer
  unfold SliceTracker.attempt at hattempt
  rw [hout] at hattempt
  dsimp only at hattempt
  rw [if_neg (not_any_unlabelled h.none_for), howner] at hattempt
  dsimp only at hattempt
  rcases hsteal : t.handOut owner peer with _ | ⟨hash, t'⟩
  · rw [hsteal] at hattempt
    exact absurd rfl hattempt
  refine ⟨owner, hash, t', howner, ?_, ?_⟩
  · unfold SliceTracker.next SliceTracker.attempt
    rw [hout]
    dsimp only
    rw [if_neg (not_any_unlabelled h.none_for), howner]
    dsimp only
    rw [hsteal]
  · obtain ⟨r, hr, he⟩ := Option.map_eq_some_iff.mp hsteal
    obtain ⟨rfl, rfl⟩ := Prod.mk.inj he
    obtain ⟨before, s, after, hslices, hslices', hopen, hhash⟩ := handFirst_some hr
    have hprocessed := Slice.processed_of_openFor hopen
    have hs : s ∈ t.slices := hslices ▸ List.mem_append_right _ (List.mem_cons_self ..)
    obtain ⟨q, hq, hne⟩ := Slice.peer_of_not_openFor (h.none_for s hs) hprocessed
    obtain rfl : q = owner := by
      unfold Slice.openFor at hopen
      rw [hq, hprocessed] at hopen
      exact of_decide_eq_true hopen
    exact ⟨⟨before, s, after, hslices, hslices', hprocessed, hq, hhash⟩, hne, rfl, rfl⟩

/-- The two slices at which the lists differ. -/
theorem eq_of_splits {α : Type} {a a' b b' : α} {after after' : List α} (ha : a ≠ a') (hb : b ≠ b') :
    ∀ {before before' : List α}, before ++ a :: after = before' ++ b :: after' →
      before ++ a' :: after = before' ++ b' :: after' → a = b
  | [], [], h, _ => (List.cons.inj h).1
  | [], _ :: _, h, h' => absurd ((List.cons.inj h).1.trans (List.cons.inj h').1.symm) ha
  | _ :: _, [], h, h' => absurd ((List.cons.inj h).1.symm.trans (List.cons.inj h').1) hb
  | _ :: _, _ :: _, h, h' => eq_of_splits ha hb (List.cons.inj h).2 (List.cons.inj h').2

theorem Slice.ne_handTo {s : Slice PeerId} (h : s.processed = false) (peer : PeerId) : s ≠ s.handTo peer := by
  intro heq
  rw [heq] at h
  exact Bool.noConfusion h

/-- The slices before and after tell who the slice was stolen from. -/
theorem Stolen.owner_unique {t t' : SliceTracker PeerId} {peer p q : PeerId} {x y : Nat} (h : Stolen t peer p x t')
    (h' : Stolen t peer q y t') : p = q := by
  obtain ⟨before, s, after, hslices, hslices', hopen, hpeer, -⟩ := h.slices
  obtain ⟨before₂, s₂, after₂, hslices₂, hslices₂', hopen₂, hpeer₂, -⟩ := h'.slices
  have hs : s = s₂ := eq_of_splits (Slice.ne_handTo hopen peer) (Slice.ne_handTo hopen₂ peer)
    (hslices.symm.trans hslices₂) (hslices'.symm.trans hslices₂')
  rw [hs, hpeer₂] at hpeer
  exact (Option.some.inj hpeer).symm

/-! ## The slowest peer -/

/-- The slice that `next` hands out was a peer's that has the most open slices; it is the one slice that changes. -/
def StealsFromSlowest (order : IterationOrder (PeerId × Nat)) (t : SliceTracker PeerId) (peer : PeerId) : Prop :=
  ∃ owner hash t', t.next order 2 peer = some (hash, t') ∧ Stolen t peer owner hash t' ∧
    ∀ q, t.openCount q ≤ t.openCount owner

/-- Whoever has the fewest open slices, as they are counted, has the most. -/
def LeastHasMost (t : SliceTracker PeerId) : Prop :=
  ∀ p, t.IsLeast p → ∀ q, t.openCount q ≤ t.openCount p

/-- The peers that have open slices have equally many. -/
def EquallyMany (t : SliceTracker PeerId) : Prop :=
  ∀ p q, 0 < t.openCount p → 0 < t.openCount q → t.openCount p = t.openCount q

theorem stealsFromSlowest_iff {t : SliceTracker PeerId} {peer owner : PeerId} (h : MustSteal t peer)
    {order : IterationOrder (PeerId × Nat)} (howner : slowPeer order t.slices = some owner) :
    StealsFromSlowest order t peer ↔ ∀ q, t.openCount q ≤ t.openCount owner := by
  obtain ⟨p, hash, t', hp, hnext, hstolen⟩ := next_stolen h order
  obtain rfl : p = owner := Option.some.inj (hp.symm.trans howner)
  constructor
  · rintro ⟨q, y, u, hnext', hstolen', hmost⟩
    obtain ⟨rfl, rfl⟩ := Prod.mk.inj (Option.some.inj (hnext.symm.trans hnext'))
    rwa [hstolen.owner_unique hstolen']
  · exact fun hmost => ⟨p, hash, t', hnext, hstolen, hmost⟩

/-- The counts are not too large to be compared. -/
theorem countRead_le_iff {m n : Nat} (hm : 0 < m) (hn : 0 < n) (hm' : m ≤ 2 ^ 32) (hn' : n ≤ 2 ^ 32) :
    countRead m ≤ countRead n ↔ m ≤ n := by
  unfold countRead
  omega

theorem stealsFromSlowest_iff_of_le {t : SliceTracker PeerId} {peer : PeerId} (h : MustSteal t peer)
    (hle : ∀ q, t.openCount q ≤ 2 ^ 32) (order : IterationOrder (PeerId × Nat)) :
    StealsFromSlowest order t peer ↔ EquallyMany t := by
  obtain ⟨owner, -, -, howner, -⟩ := next_stolen h order
  have hleast := slowPeer_least howner
  have hfewest : ∀ q, 0 < t.openCount q → t.openCount owner ≤ t.openCount q := fun q hq =>
    (countRead_le_iff hleast.1 hq (hle owner) (hle q)).mp (hleast.2 q hq)
  rw [stealsFromSlowest_iff h howner]
  constructor
  · intro hmost p q hp hq
    exact ((hmost p).antisymm (hfewest p hp)).trans ((hmost q).antisymm (hfewest q hq)).symm
  · intro hequal q
    rcases Nat.eq_zero_or_pos (t.openCount q) with hzero | hpos
    · exact hzero ▸ Nat.zero_le _
    · exact (hequal q owner hpos hleast.1).le

/-- **Stealing from the slowest peer.** After any calls, a peer that has to steal gets a slice of a peer with the most
open slices, whatever the order of the map, exactly if whoever has the fewest, as they are counted, has the most. Unless
a peer has more than `2 ^ 32` open slices, that is when all have equally many, and then no order helps otherwise. -/
theorem steals_from_slowest_iff (hashes : List Nat) (inputs : List (Input PeerId)) (peer : PeerId)
    (h : MustSteal (run hashes inputs).state peer) :
    ((∀ order, StealsFromSlowest order (run hashes inputs).state peer) ↔ LeastHasMost (run hashes inputs).state) ∧
      ((∀ q, (run hashes inputs).state.openCount q ≤ 2 ^ 32) →
        ∀ order, StealsFromSlowest order (run hashes inputs).state peer ↔ EquallyMany (run hashes inputs).state) := by
  refine ⟨⟨fun hall p hp => ?_, fun hmost order => ?_⟩, fun hle order => stealsFromSlowest_iff_of_le h hle order⟩
  · exact (stealsFromSlowest_iff h (slowPeer_first hp)).mp (hall _)
  · obtain ⟨owner, -, -, howner, -⟩ := next_stolen h order
    exact (stealsFromSlowest_iff h howner).mpr (hmost owner (slowPeer_least howner))

/-- Two slices, and peer 1 has not asked for its own in the second round: peer 2 steals it, in every order. -/
theorem steals_from_slowest_two_peers :
    let t := (run [10, 11] ([1, 2, 2].map fun p => .next p (.listed (Nat × Nat)))).state
    ∀ order, StealsFromSlowest order t 2 := by
  intro t
  have hone : ∀ q, t.openCount q ≤ 1 := fun q =>
    (List.countP_mono_left fun s _ hs => (Bool.and_eq_true .. ▸ hs : _ ∧ _).1).trans
      (by decide : t.slices.countP (fun s => !s.processed) ≤ 1)
  refine fun order => ((steals_from_slowest_iff [10, 11] _ 2 ⟨by decide, by decide⟩).2 (fun q => ?_) order).mpr ?_
  · exact (hone q).trans (by decide)
  · intro p q hp hq
    exact ((hone p).antisymm hp).trans ((hone q).antisymm hq).symm

/-- A round in which peer 1 gets two slices, peer 2 and peer 3 one each; in the next one peer 3 takes its own. -/
def unevenCalls : List (Input Nat) := [1, 1, 2, 3, 3].map fun p => .next p (.listed (Nat × Nat))

/-- Peer 3 then steals the one slice of peer 2, and the two of peer 1 are left. -/
theorem steals_from_slowest_fails :
    ¬ ∀ (hashes : List Nat) (inputs : List (Input Nat)) (peer : Nat), MustSteal (run hashes inputs).state peer →
      ∀ order, StealsFromSlowest order (run hashes inputs).state peer := by
  intro hclaim
  have hmust : MustSteal (run [10, 11, 12, 13] unevenCalls).state 3 := ⟨by decide, by decide⟩
  have hsteals := hclaim [10, 11, 12, 13] unevenCalls 3 hmust (.listed (Nat × Nat))
  have howner : slowPeer (.listed (Nat × Nat)) (run [10, 11, 12, 13] unevenCalls).state.slices = some 2 := by decide
  have hmost := (stealsFromSlowest_iff hmust howner).mp hsteals 1
  exact absurd hmost (by decide)

/-! ## Answers -/

/-- `next` returns one of the hashes, it recurses once at most and no `expect` fails. -/
def Answers (order : IterationOrder (PeerId × Nat)) (hashes : List Nat) (t : SliceTracker PeerId) (peer : PeerId) : Prop :=
  ∃ hash t', t.next order 2 peer = some (hash, t') ∧ hash ∈ hashes

theorem SliceTracker.mem_hashes_of_handed {t t' : SliceTracker PeerId} {peer : PeerId} {hash : Nat}
    (h : Handed t peer hash t') : hash ∈ t.hashes := by
  obtain ⟨before, s, after, hslices, -, -, rfl⟩ := h.slices
  exact List.mem_map_of_mem (hslices ▸ List.mem_append_right _ (List.mem_cons_self ..))

/-- Without slices every attempt ends a round, and the recursion does not end. -/
theorem SliceTracker.next_of_no_slices (order : IterationOrder (PeerId × Nat)) (peer : PeerId) :
    ∀ (depth : Nat) {t : SliceTracker PeerId}, t.slices = [] → t.next order depth peer = none
  | 0, _, _ => rfl
  | depth + 1, t, h => by
    have hattempt : t.attempt order peer = .roundOver := by
      cases hcase : t.attempt order peer with
      | handed hash t' =>
        have hhash := mem_hashes_of_handed (attempt_handed hcase)
        unfold hashes at hhash
        rw [h] at hhash
        exact absurd hhash List.not_mem_nil
      | roundOver => rfl
      | panicked => exact absurd hcase (attempt_ne_panicked order t peer)
    unfold next
    rw [hattempt]
    refine next_of_no_slices order peer depth ?_
    unfold newRound
    rw [h]
    rfl

/-- **`next` answers** after any calls, exactly if there are slices. -/
theorem answers_iff (hashes : List Nat) (inputs : List (Input PeerId)) (peer : PeerId)
    (order : IterationOrder (PeerId × Nat)) : Answers order hashes (run hashes inputs).state peer ↔ hashes ≠ [] := by
  have hhashes := hashes_run hashes inputs
  constructor
  · rintro ⟨hash, t', -, hmem⟩ hnil
    rw [hnil] at hmem
    exact List.not_mem_nil hmem
  · intro hne
    have hslices : (run hashes inputs).state.slices ≠ [] := by
      intro hnil
      rw [SliceTracker.hashes, hnil] at hhashes
      exact hne hhashes.symm
    obtain ⟨hash, t', hnext⟩ := SliceTracker.next_returns order peer (Nat.le_refl 2) hslices
    refine ⟨hash, t', hnext, ?_⟩
    rw [← hhashes]
    rcases SliceTracker.next_cases hnext with hhanded | ⟨-, hhanded⟩
    · exact SliceTracker.mem_hashes_of_handed hhanded
    · rw [← SliceTracker.hashes_newRound]
      exact SliceTracker.mem_hashes_of_handed hhanded

/-- A data record without slices: the first call of `next` does not return, however often it recurses. -/
theorem answers_fails :
    (¬ ∀ (hashes : List Nat) (inputs : List (Input Nat)) (peer : Nat) (order : IterationOrder (Nat × Nat)),
      Answers order hashes (run hashes inputs).state peer) ∧
      ∀ depth, (run [] [] : Trace Nat).state.next (.listed (Nat × Nat)) depth 0 = none := by
  have hnever : ∀ depth, (run [] [] : Trace Nat).state.next (.listed (Nat × Nat)) depth 0 = none :=
    fun depth => SliceTracker.next_of_no_slices (.listed (Nat × Nat)) 0 depth rfl
  refine ⟨fun hclaim => ?_, hnever⟩
  obtain ⟨hash, t', hnext, -⟩ := hclaim [] [] 0 (.listed (Nat × Nat))
  exact Option.some_ne_none _ (hnext.symm.trans (hnever 2))

end Hypha.Tracker
