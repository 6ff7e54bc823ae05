import Mathlib.Data.List.Sort
import Mathlib.Logic.Function.Basic
import Hypha.Lib.Machine
import Hypha.Lib.Saturating

/-!
# The slice tracker

`SliceTracker` (`tracker/slice.rs`) hands the slices of a data set to the peers that ask for one. `next` gives a peer the
first open slice that is its own or nobody's; if there is none it steals an open slice of the peer with the fewest of
them; if no slice is open it starts a new round and tries again. The labels of the slices survive the rounds.

* `IterationOrder` : the order in which a `HashMap` yields its entries, anything goes;
* `Handed`, `next_cases`, `next_returns` : what a call of `next` does, and that it returns;
* `isOpen_handed`, `isOpen_newRound`, `isOpen_removeWorker` : which slices are open after a call;
* `machine`, `run` : a tracker that is called again and again.
-/

namespace Hypha.Tracker

open Hypha.Lib

variable {PeerId : Type} [DecidableEq PeerId]

set_option linter.unusedSectionVars false

/-! ## The tracker -/

structure Slice (PeerId : Type) where
  hash : Nat
  peer : Option PeerId := none
  processed : Bool := false

structure SliceTracker (PeerId : Type) where
  slices : List (Slice PeerId)
  processing : PeerId → Option Nat := fun _ => none
  rounds : Nat := 0

/-- The order in which a `HashMap` yields its entries: some permutation of them. -/
structure IterationOrder (α : Type) where
  arrange : List α → List α
  perm : ∀ l, (arrange l).Perm l

/-- The entries as they are listed. -/
def IterationOrder.listed (α : Type) : IterationOrder α := ⟨id, fun _ => List.Perm.refl _⟩

namespace Slice

/-- Open, and labelled with `owner` or with nobody. -/
def openFor (s : Slice PeerId) (owner : PeerId) : Bool := !s.processed && s.peer.all (fun id => decide (id = owner))

/-- Hand a slice to a peer. -/
def handTo (s : Slice PeerId) (peer : PeerId) : Slice PeerId := { s with processed := true, peer := some peer }

end Slice

/-- `counts.entry(peer).and_modify(|f| *f += 1).or_insert(0)`. -/
def countPeer (counts : List (PeerId × Nat)) (peer : PeerId) : List (PeerId × Nat) :=
  if counts.any (fun c => decide (c.1 = peer)) then
    counts.map (fun c => if c.1 = peer then (c.1, wrappingAdd c.2 1) else c)
  else counts ++ [(peer, 0)]

/-- The entries of the map that counts the open slices of each peer. -/
def openCounts (slices : List (Slice PeerId)) : List (PeerId × Nat) :=
  ((slices.filter (fun s => !s.processed)).filterMap (·.peer)).foldl countPeer []

/-- `counts.iter().sorted_by_key(|f| f.1).next()`. -/
def slowPeer (order : IterationOrder (PeerId × Nat)) (slices : List (Slice PeerId)) : Option PeerId :=
  ((order.arrange (openCounts slices)).insertionSort (fun a b => a.2 ≤ b.2)).head?.map (·.1)

/-- Hand the first slice that is open for `owner` to `peer`. -/
def handFirst (owner peer : PeerId) : List (Slice PeerId) → Option (Nat × List (Slice PeerId))
  | [] => none
  | s :: slices =>
    if s.openFor owner then some (s.hash, s.handTo peer :: slices)
    else (handFirst owner peer slices).map (fun r => (r.1, s :: r.2))

/-- Take the peer's label off its slices. The loop of the source takes off one at a time until none is left. -/
def clearLabels (peer : PeerId) (slices : List (Slice PeerId)) : List (Slice PeerId) :=
  slices.map fun s => if s.peer = some peer then { s with peer := none } else s

/-- Reopen the first slice of that hash. -/
def reopenFirst (hash : Nat) : List (Slice PeerId) → List (Slice PeerId)
  | [] => []
  | s :: slices => if s.hash = hash then { s with processed := false } :: slices else s :: reopenFirst hash slices

namespace SliceTracker

def new (sliceHashes : List Nat) : SliceTracker PeerId where
  slices := sliceHashes.map fun hash => { hash }

/-- What `next` does before it recurses: it hands out a slice, or the round is over, or an `expect` fails. -/
inductive Attempt (PeerId : Type) where
  | handed (hash : Nat) (tracker : SliceTracker PeerId)
  | roundOver
  | panicked

/-- Hand the first slice that is open for `owner` to `peer`, and note that `peer` processes it. -/
def handOut (self : SliceTracker PeerId) (owner peer : PeerId) : Option (Nat × SliceTracker PeerId) :=
  (handFirst owner peer self.slices).map fun r =>
    (r.1, { self with slices := r.2, processing := Function.update self.processing peer (some r.1) })

/-- An open slice of the peer or of nobody, else one of the peer that has the fewest open slices. -/
def attempt (order : IterationOrder (PeerId × Nat)) (self : SliceTracker PeerId) (peer : PeerId) : Attempt PeerId :=
  match self.handOut peer peer with
  | some (hash, tracker) => .handed hash tracker
  | none =>
    -- every open slice is expected to be somebody's
    if self.slices.any (fun s => !s.processed && s.peer.isNone) then .panicked
    else
      match slowPeer order self.slices with
      | none => .roundOver
      | some slow =>
        match self.handOut slow peer with
        | some (hash, tracker) => .handed hash tracker
        | none => .panicked

/-- All slices are open again. -/
def newRound (self : SliceTracker PeerId) : SliceTracker PeerId :=
  { self with
    rounds := wrappingAdd self.rounds 1
    slices := self.slices.map fun s => { s with processed := false } }

/-- **`next`**, recursing at most `depth` times; without slices it recurses forever. -/
def next (order : IterationOrder (PeerId × Nat)) :
    Nat → SliceTracker PeerId → PeerId → Option (Nat × SliceTracker PeerId)
  | 0, _, _ => none
  | depth + 1, self, peer =>
    match self.attempt order peer with
    | .handed hash tracker => some (hash, tracker)
    | .roundOver => next order depth self.newRound peer
    | .panicked => none

/-- **`remove_worker`**: the peer's labels go, and the slice it processes is open again. -/
def removeWorker (self : SliceTracker PeerId) (peer : PeerId) : SliceTracker PeerId :=
  let slices := clearLabels peer self.slices
  { self with
    slices := match self.processing peer with
      | some hash => reopenFirst hash slices
      | none => slices
    processing := Function.update self.processing peer none }

/-- Whether a slice of that hash is open. -/
def isOpen (self : SliceTracker PeerId) (hash : Nat) : Bool :=
  self.slices.any (fun s => decide (s.hash = hash) && !s.processed)

/-- The hashes of the slices. -/
def hashes (self : SliceTracker PeerId) : List Nat := self.slices.map (·.hash)

end SliceTracker

/-! ## The peer to steal from -/

theorem countPeer_keys (counts : List (PeerId × Nat)) (p : PeerId) :
    ∀ q, q ∈ (countPeer counts p).map (·.1) ↔ q = p ∨ q ∈ counts.map (·.1) := by
  intro q
  unfold countPeer
  split_ifs with h
  · have hkeys : (counts.map fun c => if c.1 = p then (c.1, wrappingAdd c.2 1) else c).map (·.1) =
        counts.map (·.1) := by
      rw [List.map_map]
      refine List.map_congr_left (fun c _ => ?_)
      dsimp only [Function.comp_apply]
      split_ifs <;> rfl
    rw [hkeys]
    obtain ⟨c, hc, hcp⟩ := List.any_eq_true.mp h
    refine ⟨Or.inr, fun hq => hq.elim (fun hqp => ?_) id⟩
    rw [hqp, ← of_decide_eq_true hcp]
    exact List.mem_map_of_mem hc
  · rw [List.map_append, List.mem_append]
    simp only [List.map_cons, List.map_nil, List.mem_singleton]
    exact or_comm

theorem foldl_countPeer_keys (peers : List PeerId) (q : PeerId) :
    ∀ counts : List (PeerId × Nat),
      q ∈ (peers.foldl countPeer counts).map (·.1) ↔ q ∈ peers ∨ q ∈ counts.map (·.1) := by
  induction peers with
  | nil => intro counts; simp
  | cons p peers ih =>
    intro counts
    rw [List.foldl_cons, ih, countPeer_keys, List.mem_cons]
    tauto

/-- The peers that are counted are those with an open slice. -/
theorem mem_openCounts (slices : List (Slice PeerId)) (q : PeerId) :
    q ∈ (openCounts slices).map (·.1) ↔ ∃ s ∈ slices, s.processed = false ∧ s.peer = some q := by
  unfold openCounts
  rw [foldl_countPeer_keys]
  simp [and_assoc]

theorem slowPeer_some {order : IterationOrder (PeerId × Nat)} {slices : List (Slice PeerId)} {q : PeerId}
    (h : slowPeer order slices = some q) : ∃ s ∈ slices, s.processed = false ∧ s.peer = some q := by
  unfold slowPeer at h
  obtain ⟨c, hc, rfl⟩ := Option.map_eq_some_iff.mp h
  have hmem := List.mem_of_mem_head? (Option.mem_def.mpr hc)
  rw [(List.perm_insertionSort _ _).mem_iff, (order.perm _).mem_iff] at hmem
  exact (mem_openCounts slices c.1).mp (List.mem_map_of_mem hmem)

/-- If there is nobody to steal from, every open slice is nobody's. -/
theorem slowPeer_none {order : IterationOrder (PeerId × Nat)} {slices : List (Slice PeerId)}
    (h : slowPeer order slices = none) : ∀ s ∈ slices, s.processed = false → s.peer = none := by
  unfold slowPeer at h
  rw [Option.map_eq_none_iff, List.head?_eq_none_iff] at h
  have hnil : openCounts slices = [] := by
    have hperm := (List.perm_insertionSort (fun a b => a.2 ≤ b.2) (order.arrange (openCounts slices))).trans
      (order.perm _)
    rw [h] at hperm
    exact hperm.nil_eq.symm
  intro s hs hopen
  cases hpeer : s.peer with
  | none => rfl
  | some q =>
    have hq := (mem_openCounts slices q).mpr ⟨s, hs, hopen, hpeer⟩
    rw [hnil] at hq
    exact absurd hq List.not_mem_nil

/-! ## Handing out a slice -/

namespace Slice

theorem processed_of_openFor {s : Slice PeerId} {owner : PeerId} (h : s.openFor owner = true) : s.processed = false := by
  unfold openFor at h
  rw [Bool.and_eq_true, Bool.not_eq_true'] at h
  exact h.1

/-- A slice that is not open for a peer is processed, or somebody else's. -/
theorem peer_of_not_openFor {s : Slice PeerId} {owner : PeerId} (h : s.openFor owner = false)
    (hopen : s.processed = false) : ∃ q, s.peer = some q ∧ q ≠ owner := by
  unfold openFor at h
  rw [hopen, Bool.not_false, Bool.true_and] at h
  cases hpeer : s.peer with
  | none =>
    rw [hpeer] at h
    exact Bool.noConfusion h
  | some q =>
    rw [hpeer] at h
    exact ⟨q, rfl, of_decide_eq_false h⟩

end Slice

theorem handFirst_some {owner peer : PeerId} {hash : Nat} {slices' : List (Slice PeerId)} :
    ∀ {slices : List (Slice PeerId)}, handFirst owner peer slices = some (hash, slices') →
      ∃ before s after, slices = before ++ s :: after ∧ slices' = before ++ s.handTo peer :: after ∧
        s.openFor owner = true ∧ s.hash = hash
  | [], h => by cases h
  | s :: slices, h => by
    unfold handFirst at h
    split_ifs at h with hopen
    · obtain ⟨rfl, rfl⟩ := Prod.mk.inj (Option.some.inj h)
      exact ⟨[], s, slices, rfl, rfl, hopen, rfl⟩
    · obtain ⟨r, hr, he⟩ := Option.map_eq_some_iff.mp h
      obtain ⟨rfl, rfl⟩ := Prod.mk.inj he
      have hrest : handFirst owner peer slices = some (r.1, r.2) := hr
      obtain ⟨before, s', after, rfl, hslices', hopen', hhash⟩ := handFirst_some hrest
      exact ⟨s :: before, s', after, rfl, by rw [hslices']; rfl, hopen', hhash⟩

theorem handFirst_none {owner peer : PeerId} :
    ∀ {slices : List (Slice PeerId)}, handFirst owner peer slices = none → ∀ s ∈ slices, s.openFor owner = false
  | [], _, s, hs => absurd hs List.not_mem_nil
  | s :: slices, h, s', hs' => by
    unfold handFirst at h
    split_ifs at h with hopen
    rcases List.mem_cons.mp hs' with rfl | hmem
    · exact Bool.eq_false_iff.mpr hopen
    · exact handFirst_none (Option.map_eq_none_iff.mp h) s' hmem

/-- If no slice is open for a peer, every open slice is somebody's. -/
theorem not_any_unlabelled {peer : PeerId} {slices : List (Slice PeerId)}
    (h : ∀ s ∈ slices, s.openFor peer = false) : ¬ slices.any (fun s => !s.processed && s.peer.isNone) = true := by
  intro hany
  obtain ⟨s, hs, hboth⟩ := List.any_eq_true.mp hany
  rw [Bool.and_eq_true, Bool.not_eq_true', Option.isNone_iff_eq_none] at hboth
  obtain ⟨q, hq, -⟩ := Slice.peer_of_not_openFor (h s hs) hboth.1
  exact Option.some_ne_none q (hq.symm.trans hboth.2)

/-- A slice that was open is handed to a peer, which now processes it. -/
structure Handed (t : SliceTracker PeerId) (peer : PeerId) (hash : Nat) (t' : SliceTracker PeerId) : Prop where
  slices : ∃ before s after, t.slices = before ++ s :: after ∧ t'.slices = before ++ s.handTo peer :: after ∧
    s.processed = false ∧ s.hash = hash
  processing : t'.processing = Function.update t.processing peer (some hash)
  rounds : t'.rounds = t.rounds

namespace SliceTracker

theorem handOut_some {t t' : SliceTracker PeerId} {owner peer : PeerId} {hash : Nat}
    (h : t.handOut owner peer = some (hash, t')) : Handed t peer hash t' := by
  unfold handOut at h
  obtain ⟨r, hr, he⟩ := Option.map_eq_some_iff.mp h
  obtain ⟨rfl, rfl⟩ := Prod.mk.inj he
  obtain ⟨before, s, after, hslices, hslices', hopen, hhash⟩ := handFirst_some hr
  exact ⟨⟨before, s, after, hslices, hslices', Slice.processed_of_openFor hopen, hhash⟩, rfl, rfl⟩

theorem handOut_none {t : SliceTracker PeerId} {owner peer : PeerId} (h : t.handOut owner peer = none) :
    ∀ s ∈ t.slices, s.openFor owner = false :=
  handFirst_none (Option.map_eq_none_iff.mp h)

theorem attempt_handed {order : IterationOrder (PeerId × Nat)} {t t' : SliceTracker PeerId} {peer : PeerId}
    {hash : Nat} (h : t.attempt order peer = .handed hash t') : Handed t peer hash t' := by
  unfold attempt at h
  split at h
  · next hout =>
    cases h
    exact handOut_some hout
  · split_ifs at h
    split at h
    · cases h
    · split at h
      · next hout =>
        cases h
        exact handOut_some hout
      · cases h

theorem attempt_roundOver {order : IterationOrder (PeerId × Nat)} {t : SliceTracker PeerId} {peer : PeerId}
    (h : t.attempt order peer = .roundOver) : ∀ s ∈ t.slices, s.processed = true := by
  unfold attempt at h
  split at h
  · cases h
  · next hout =>
    split_ifs at h
    split at h
    · next hslow =>
      -- an open slice would be nobody's, and then it would have been handed out
      intro s hs
      rw [← Bool.not_eq_false]
      intro hopen
      have hpeer := slowPeer_none hslow s hs hopen
      obtain ⟨q, hq, -⟩ := Slice.peer_of_not_openFor (handOut_none hout s hs) hopen
      exact Option.some_ne_none q (hq.symm.trans hpeer)
    · split at h <;> cases h

/-- The open slices are somebody's, and the peer to steal from has one, so no `expect` of `next` fails. -/
theorem attempt_ne_panicked (order : IterationOrder (PeerId × Nat)) (t : SliceTracker PeerId) (peer : PeerId) :
    t.attempt order peer ≠ .panicked := by
  intro h
  unfold attempt at h
  split at h
  · cases h
  · next hnone =>
    rw [if_neg (not_any_unlabelled (handOut_none hnone))] at h
    split at h
    · cases h
    · next slow hslow =>
      split at h
      · cases h
      · next hout =>
        obtain ⟨s, hs, hopen, hpeer⟩ := slowPeer_some hslow
        obtain ⟨q, hq, hne⟩ := Slice.peer_of_not_openFor (handOut_none hout s hs) hopen
        exact hne (Option.some.inj (hq.symm.trans hpeer))

/-- **What `next` does**: it hands out an open slice, or, when all are processed, one of the next round. -/
theorem next_cases {order : IterationOrder (PeerId × Nat)} {peer : PeerId} {hash : Nat} {t' : SliceTracker PeerId} :
    ∀ {depth : Nat} {t : SliceTracker PeerId}, t.next order depth peer = some (hash, t') →
      Handed t peer hash t' ∨ (∀ s ∈ t.slices, s.processed = true) ∧ Handed t.newRound peer hash t'
  | 0, _, h => by cases h
  | depth + 1, t, h => by
    unfold next at h
    split at h
    · next hattempt =>
      obtain ⟨rfl, rfl⟩ := Prod.mk.inj (Option.some.inj h)
      exact Or.inl (attempt_handed hattempt)
    · next hattempt =>
      refine Or.inr ⟨attempt_roundOver hattempt, ?_⟩
      rcases next_cases h with hhanded | ⟨hall, hhanded⟩
      · exact hhanded
      · -- a second new round would need slices that are open and processed
        obtain ⟨⟨before, s, after, hslices, -⟩, -, -⟩ := hhanded
        have hne : t.newRound.slices ≠ [] := by
          intro hnil
          rw [newRound, hnil] at hslices
          cases before <;> cases hslices
        obtain ⟨s', hs'⟩ := List.exists_mem_of_ne_nil _ hne
        have hprocessed := hall s' hs'
        obtain ⟨s'', -, rfl⟩ := List.mem_map.mp hs'
        exact Bool.noConfusion hprocessed
    · cases h

/-- **`next` returns** whenever there are slices, recursing once at most. -/
theorem next_returns (order : IterationOrder (PeerId × Nat)) {t : SliceTracker PeerId} (peer : PeerId) {depth : Nat}
    (hdepth : 2 ≤ depth) (hne : t.slices ≠ []) : ∃ hash t', t.next order depth peer = some (hash, t') := by
  obtain ⟨depth, rfl⟩ : ∃ d, depth = d + 2 := ⟨depth - 2, by omega⟩
  unfold next
  cases hfirst : t.attempt order peer with
  | handed hash t' => exact ⟨hash, t', rfl⟩
  | panicked => exact absurd hfirst (attempt_ne_panicked order t peer)
  | roundOver =>
    dsimp only
    unfold next
    cases hsecond : t.newRound.attempt order peer with
    | handed hash t' => exact ⟨hash, t', rfl⟩
    | panicked => exact absurd hsecond (attempt_ne_panicked order _ peer)
    | roundOver =>
      obtain ⟨s, hs⟩ := List.exists_mem_of_ne_nil _ hne
      have hopen := attempt_roundOver hsecond { s with processed := false } (List.mem_map_of_mem hs)
      exact Bool.noConfusion hopen

/-! ## Which slices are open -/

@[simp] theorem hashes_new (sliceHashes : List Nat) : (new sliceHashes : SliceTracker PeerId).hashes = sliceHashes := by
  simp [new, hashes, Function.comp_def]

@[simp] theorem hashes_newRound (t : SliceTracker PeerId) : t.newRound.hashes = t.hashes := by
  simp [newRound, hashes, Function.comp_def]

theorem hashes_handed {t t' : SliceTracker PeerId} {peer : PeerId} {hash : Nat} (h : Handed t peer hash t') :
    t'.hashes = t.hashes := by
  obtain ⟨before, s, after, hslices, hslices', -, -⟩ := h.slices
  unfold hashes
  rw [hslices, hslices']
  simp [Slice.handTo]

theorem hashes_reopenFirst (hash : Nat) (slices : List (Slice PeerId)) :
    (reopenFirst hash slices).map (·.hash) = slices.map (·.hash) := by
  induction slices with
  | nil => rfl
  | cons s slices ih =>
    unfold reopenFirst
    split_ifs
    · rfl
    · rw [List.map_cons, List.map_cons, ih]

theorem hashes_clearLabels (peer : PeerId) (slices : List (Slice PeerId)) :
    (clearLabels peer slices).map (·.hash) = slices.map (·.hash) := by
  unfold clearLabels
  rw [List.map_map]
  refine List.map_congr_left (fun s _ => ?_)
  dsimp only [Function.comp_apply]
  split_ifs <;> rfl

theorem hashes_removeWorker (t : SliceTracker PeerId) (peer : PeerId) : (t.removeWorker peer).hashes = t.hashes := by
  unfold removeWorker hashes
  dsimp only
  split
  · rw [hashes_reopenFirst, hashes_clearLabels]
  · exact hashes_clearLabels peer t.slices

theorem isOpen_iff (t : SliceTracker PeerId) (hash : Nat) :
    t.isOpen hash = true ↔ ∃ s ∈ t.slices, s.hash = hash ∧ s.processed = false := by
  simp [isOpen]

/-- The slice that is handed out was open; of the others, the same ones are open afterwards. -/
theorem isOpen_handed {t t' : SliceTracker PeerId} {peer : PeerId} {hash : Nat} (h : Handed t peer hash t')
    (hnodup : t.hashes.Nodup) (x : Nat) :
    t.isOpen hash = true ∧ (t'.isOpen x = true ↔ t.isOpen x = true ∧ x ≠ hash) := by
  obtain ⟨before, s, after, hslices, hslices', hopen, rfl⟩ := h.slices
  have hs : s ∈ t.slices := hslices ▸ List.mem_append_right _ (List.mem_cons_self ..)
  have honly : ∀ s' ∈ before ++ after, s'.hash ≠ s.hash := by
    intro s' hs' heq
    unfold hashes at hnodup
    rw [hslices, List.map_append, List.map_cons, List.nodup_middle, List.nodup_cons, ← List.map_append] at hnodup
    exact hnodup.1 (heq ▸ List.mem_map_of_mem hs')
  refine ⟨(isOpen_iff t _).mpr ⟨s, hs, rfl, hopen⟩, ?_⟩
  have hmem : ∀ u : Slice PeerId, ∀ s', s' ∈ before ++ u :: after ↔ s' = u ∨ s' ∈ before ++ after := by
    intro u s'
    simp only [List.mem_append, List.mem_cons]
    tauto
  rw [isOpen_iff, isOpen_iff, hslices, hslices']
  simp only [hmem]
  constructor
  · rintro ⟨s', rfl | hs', hx, hopen'⟩
    · exact Bool.noConfusion hopen'
    · exact ⟨⟨s', Or.inr hs', hx, hopen'⟩, fun heq => honly s' hs' (hx.trans heq)⟩
  · rintro ⟨⟨s', rfl | hs', hx, hopen'⟩, hne⟩
    · exact absurd hx.symm hne
    · exact ⟨s', Or.inr hs', hx, hopen'⟩

theorem isOpen_newRound (t : SliceTracker PeerId) (x : Nat) : t.newRound.isOpen x = true ↔ x ∈ t.hashes := by
  rw [isOpen_iff]
  unfold newRound hashes
  simp [and_comm]

theorem isOpen_reopenFirst (hash x : Nat) (slices : List (Slice PeerId)) :
    (∃ s ∈ reopenFirst hash slices, s.hash = x ∧ s.processed = false) ↔
      (∃ s ∈ slices, s.hash = x ∧ s.processed = false) ∨ x = hash ∧ hash ∈ slices.map (·.hash) := by
  induction slices with
  | nil => simp [reopenFirst]
  | cons s slices ih =>
    unfold reopenFirst
    split_ifs with hs
    · subst hs
      rw [List.exists_mem_cons_iff, List.exists_mem_cons_iff]
      simp only [List.map_cons, List.mem_cons, true_or, and_true]
      grind
    · rw [List.exists_mem_cons_iff, ih, List.exists_mem_cons_iff, List.map_cons, List.mem_cons, or_assoc]
      have hne : hash ≠ s.hash := fun h => hs h.symm
      simp only [hne, false_or]

/-- A removal opens the slice that the peer processes, and no other one. -/
theorem isOpen_removeWorker (t : SliceTracker PeerId) (peer : PeerId) (x : Nat) :
    (t.removeWorker peer).isOpen x = true ↔
      t.isOpen x = true ∨ t.processing peer = some x ∧ x ∈ t.hashes := by
  have hopen : ∀ y, (∃ s ∈ clearLabels peer t.slices, s.hash = y ∧ s.processed = false) ↔
      ∃ s ∈ t.slices, s.hash = y ∧ s.processed = false := by
    intro y
    unfold clearLabels
    constructor
    · rintro ⟨s', hs', hy, hopen⟩
      obtain ⟨s, hs, rfl⟩ := List.mem_map.mp hs'
      refine ⟨s, hs, ?_⟩
      split_ifs at hy hopen <;> exact ⟨hy, hopen⟩
    · rintro ⟨s, hs, hy, hopen⟩
      refine ⟨_, List.mem_map_of_mem hs, ?_⟩
      split_ifs <;> exact ⟨hy, hopen⟩
  rw [isOpen_iff, isOpen_iff]
  unfold removeWorker
  dsimp only
  split
  · next hash hprocessing =>
    rw [isOpen_reopenFirst, hopen, hashes_clearLabels, hprocessing, Option.some.injEq, eq_comm]
    refine or_congr_right (and_congr_right (fun heq => ?_))
    rw [heq]
    rfl
  · next hprocessing =>
    rw [hopen, hprocessing]
    simp

end SliceTracker

/-! ## Calls, one after the other -/

/-- A call of the tracker; `order` is the order in which the counts are read if the call gets to steal. -/
inductive Input (PeerId : Type) where
  | next (peer : PeerId) (order : IterationOrder (PeerId × Nat))
  | removeWorker (peer : PeerId)

/-- The step of a call, with the slice it hands out. `next` recurses once at most (`next_returns`). -/
def step (t : SliceTracker PeerId) : Input PeerId → SliceTracker PeerId × Option Nat
  | .next peer order =>
    match t.next order 2 peer with
    | some (hash, t') => (t', some hash)
    | none => (t, none)
  | .removeWorker peer => (t.removeWorker peer, none)

/-- The tracker. -/
def machine : Machine (SliceTracker PeerId) (Input PeerId) (Option Nat) := ⟨step⟩

/-- One call of a run. -/
abbrev Call (PeerId : Type) := Event (SliceTracker PeerId) (Input PeerId) (Option Nat)

/-- A tracker with the calls made so far. -/
abbrev Trace (PeerId : Type) := World (SliceTracker PeerId) (Input PeerId) (Option Nat)

/-- The calls of a list on a new tracker. -/
def run (hashes : List Nat) (inputs : List (Input PeerId)) : Trace PeerId := machine.run (.new hashes) inputs

/-- What one call does. -/
theorem step_next {t : SliceTracker PeerId} {peer : PeerId} {order : IterationOrder (PeerId × Nat)} {hash : Nat}
    (h : (step t (.next peer order)).2 = some hash) :
    Handed t peer hash (step t (.next peer order)).1 ∨
      (∀ s ∈ t.slices, s.processed = true) ∧ Handed t.newRound peer hash (step t (.next peer order)).1 := by
  unfold step at h ⊢
  dsimp only at h ⊢
  split at h
  · next hnext =>
    cases h
    exact SliceTracker.next_cases hnext
  · cases h

theorem step_next_none {t : SliceTracker PeerId} {peer : PeerId} {order : IterationOrder (PeerId × Nat)}
    (h : (step t (.next peer order)).2 = none) : (step t (.next peer order)).1 = t := by
  unfold step at h ⊢
  dsimp only at h ⊢
  split at h
  · cases h
  · rfl

theorem step_next_returns {t : SliceTracker PeerId} (peer : PeerId) (order : IterationOrder (PeerId × Nat))
    (hne : t.slices ≠ []) : ∃ hash, (step t (.next peer order)).2 = some hash := by
  obtain ⟨hash, t', h⟩ := SliceTracker.next_returns order peer (Nat.le_refl 2) hne
  exact ⟨hash, by simp [step, h]⟩

theorem hashes_step (t : SliceTracker PeerId) (i : Input PeerId) : (step t i).1.hashes = t.hashes := by
  cases i with
  | next peer order =>
    cases h : (step t (.next peer order)).2 with
    | none => rw [step_next_none h]
    | some hash =>
      rcases step_next h with hhanded | ⟨-, hhanded⟩
      · exact SliceTracker.hashes_handed hhanded
      · rw [SliceTracker.hashes_handed hhanded, SliceTracker.hashes_newRound]
  | removeWorker peer => exact SliceTracker.hashes_removeWorker t peer

/-- No call changes which slices there are. -/
theorem hashes_run (hashes : List Nat) (inputs : List (Input PeerId)) :
    (run hashes inputs).state.hashes = hashes := by
  refine machine.run_invariant (fun w => w.state.hashes = hashes) (SliceTracker.hashes_new hashes) ?_ inputs
  intro w i h
  exact (hashes_step w.state i).trans h

end Hypha.Tracker
