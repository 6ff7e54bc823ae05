import Mathlib.Algebra.Ring.Nat
import Hypha.Tracker.Slice

/-!
# Slice coverage

What the peers together get from a slice tracker. As long as no worker is removed, the calls of `next` come in blocks
of as many as there are slices, and each block hands out every slice once, whoever calls and whomever they steal from.

* `Blocks`, `blocks_run` : the slices handed out so far, cut into rounds;
* `every_block_covers` : every block is a permutation of the slices, and the round counter counts the blocks.
-/

namespace Hypha.Tracker

open Hypha.Lib

variable {PeerId : Type} [DecidableEq PeerId]

set_option linter.unusedSectionVars false

/-- The slices handed out, oldest first. -/
def served (h : List (Call PeerId)) : List Nat := h.reverse.filterMap (·.output)

/-- The slices that are not open. -/
def SliceTracker.processedHashes (t : SliceTracker PeerId) : List Nat := (t.slices.filter (·.processed)).map (·.hash)

theorem served_cons (e : Call PeerId) (h : List (Call PeerId)) : served (e :: h) = served h ++ e.output.toList :=
  filterMap_reverse_cons Event.output e h

namespace SliceTracker

theorem processedHashes_new (hashes : List Nat) : (new hashes : SliceTracker PeerId).processedHashes = [] := by
  simp [processedHashes, new]

theorem processedHashes_newRound (t : SliceTracker PeerId) : t.newRound.processedHashes = [] := by
  simp [processedHashes, newRound]

theorem processedHashes_of_all {t : SliceTracker PeerId} (h : ∀ s ∈ t.slices, s.processed = true) :
    t.processedHashes = t.hashes := by
  unfold processedHashes hashes
  rw [List.filter_eq_self.mpr h]

theorem processedHashes_handed {t t' : SliceTracker PeerId} {peer : PeerId} {hash : Nat} (h : Handed t peer hash t') :
    t'.processedHashes.Perm (t.processedHashes ++ [hash]) := by
  obtain ⟨before, s, after, hslices, hslices', hopen, rfl⟩ := h.slices
  unfold processedHashes
  rw [hslices, hslices']
  simp only [List.filter_append, List.filter_cons, hopen, Slice.handTo, if_true, Bool.false_eq_true, if_false,
    List.map_append, List.map_cons]
  rw [List.append_assoc]
  refine List.Perm.append_left _ ?_
  exact (List.perm_append_singleton _ _).symm

end SliceTracker

/-! ## Rounds as blocks -/

/-- What has been handed out is whole rounds, each a permutation of the slices, and the part of a round. -/
structure Blocks (hashes : List Nat) (w : Trace PeerId) (rounds : List (List Nat)) (current : List Nat) : Prop where
  handed : served w.history = rounds.flatten ++ current
  whole : ∀ b ∈ rounds, b.Perm hashes
  processed : current.Perm w.state.processedHashes
  counted : w.state.rounds = rounds.length % 2 ^ 32

/-- One more call of `next`. -/
theorem blocks_next {hashes : List Nat} {w : Trace PeerId} {rounds : List (List Nat)} {current : List Nat}
    (hblocks : Blocks hashes w rounds current) (hhashes : w.state.hashes = hashes) (hne : hashes ≠ []) (peer : PeerId)
    (order : IterationOrder (PeerId × Nat)) :
    ∃ rounds' current', Blocks hashes (machine.next w (.next peer order)) rounds' current' ∧ current' ≠ [] := by
  have hslices : w.state.slices ≠ [] := by
    intro hnil
    rw [← hhashes, SliceTracker.hashes, hnil] at hne
    exact hne rfl
  obtain ⟨hash, hout⟩ := step_next_returns peer order hslices
  have hserved : served (machine.next w (.next peer order)).history = served w.history ++ [hash] := by
    rw [Machine.next_history, served_cons]
    simp only [Machine.event_output, machine, hout, Option.toList_some]
  rcases step_next hout with hhanded | ⟨hall, hhanded⟩
  · -- the round goes on
    refine ⟨rounds, current ++ [hash], ⟨?_, hblocks.whole, ?_, ?_⟩, by simp⟩
    · rw [hserved, hblocks.handed, List.append_assoc]
    · exact (hblocks.processed.append_right _).trans (SliceTracker.processedHashes_handed hhanded).symm
    · exact hhanded.rounds.trans hblocks.counted
  · -- every slice is processed: the part of a round was a whole one
    refine ⟨rounds ++ [current], [hash], ⟨?_, ?_, ?_, ?_⟩, by simp⟩
    · rw [hserved, hblocks.handed, List.flatten_append, List.flatten_singleton]
    · intro b hb
      rcases List.mem_append.mp hb with hb | hb
      · exact hblocks.whole b hb
      · rw [List.mem_singleton.mp hb, ← hhashes, ← SliceTracker.processedHashes_of_all hall]
        exact hblocks.processed
    · have hperm := SliceTracker.processedHashes_handed hhanded
      rw [SliceTracker.processedHashes_newRound, List.nil_append] at hperm
      exact hperm.symm
    · have hrounds := hhanded.rounds
      rw [SliceTracker.newRound] at hrounds
      dsimp only at hrounds
      rw [hblocks.counted] at hrounds
      rw [List.length_append, List.length_singleton]
      refine hrounds.trans ?_
      unfold wrappingAdd
      omega

/-- **Calls of `next`** hand out whole rounds and a part of one that is not empty once there was a call. -/
theorem blocks_run {hashes : List Nat} (hne : hashes ≠ []) (calls : List (PeerId × IterationOrder (PeerId × Nat))) :
    ∃ rounds current, Blocks hashes (run hashes (calls.map fun c => .next c.1 c.2)) rounds current ∧
      (calls ≠ [] → current ≠ []) := by
  induction calls using List.reverseRecOn with
  | nil =>
    refine ⟨[], [], ⟨rfl, fun _ hb => absurd hb List.not_mem_nil, ?_, rfl⟩, fun h => absurd rfl h⟩
    show [].Perm (SliceTracker.new hashes : SliceTracker PeerId).processedHashes
    rw [SliceTracker.processedHashes_new]
  | append_singleton calls c ih =>
    obtain ⟨rounds, current, hblocks, -⟩ := ih
    rw [List.map_append, run, List.map_singleton, Machine.run_snoc, ← run]
    obtain ⟨rounds', current', hblocks', hcurrent'⟩ := blocks_next hblocks (hashes_run hashes _) hne c.1 c.2
    exact ⟨rounds', current', hblocks', fun _ => hcurrent'⟩

theorem length_processedHashes_le (t : SliceTracker PeerId) : t.processedHashes.length ≤ t.hashes.length := by
  unfold SliceTracker.processedHashes SliceTracker.hashes
  rw [List.length_map, List.length_map]
  exact List.length_filter_le _ _

theorem length_flatten_rounds {hashes : List Nat} {rounds : List (List Nat)} (h : ∀ b ∈ rounds, b.Perm hashes) :
    rounds.flatten.length = rounds.length * hashes.length := by
  induction rounds with
  | nil => simp
  | cons b rounds ih =>
    have hb : b.length = hashes.length := (h b (List.mem_cons_self ..)).length_eq
    rw [List.flatten_cons, List.length_append, ih (fun b' hb' => h b' (List.mem_cons_of_mem _ hb')), hb,
      List.length_cons, Nat.add_mul, Nat.one_mul, Nat.add_comm]

/-- The blocks of a list that is made of whole rounds and a part of one. -/
theorem block_perm {hashes current : List Nat} (hcurrent : current.length = hashes.length → current.Perm hashes)
    (hle : current.length ≤ hashes.length) :
    ∀ {rounds : List (List Nat)} {j : Nat}, (∀ b ∈ rounds, b.Perm hashes) →
      (j + 1) * hashes.length ≤ (rounds.flatten ++ current).length →
      (((rounds.flatten ++ current).drop (j * hashes.length)).take hashes.length).Perm hashes
  | [], j, _, hj => by
    rw [List.flatten_nil, List.nil_append] at hj ⊢
    have hlen : j * hashes.length = 0 ∧ current.length = hashes.length := by
      rw [Nat.add_mul, Nat.one_mul] at hj
      constructor <;> omega
    rw [hlen.1, List.drop_zero, List.take_of_length_le (Nat.le_of_eq hlen.2)]
    exact hcurrent hlen.2
  | b :: rounds, 0, h, _ => by
    have hb := h b (List.mem_cons_self ..)
    rw [Nat.zero_mul, List.drop_zero, List.flatten_cons, List.append_assoc, ← hb.length_eq, List.take_left]
    exact hb
  | b :: rounds, j + 1, h, hj => by
    have hb := h b (List.mem_cons_self ..)
    have hsplit : (j + 1) * hashes.length = b.length + j * hashes.length := by
      rw [hb.length_eq, Nat.add_mul, Nat.one_mul, Nat.add_comm]
    rw [List.flatten_cons, List.append_assoc] at hj ⊢
    rw [hsplit, ← List.drop_drop, List.drop_left]
    refine block_perm hcurrent hle (fun b' hb' => h b' (List.mem_cons_of_mem _ hb')) ?_
    rw [List.length_append, hb.length_eq, Nat.add_mul, Nat.one_mul] at hj
    omega

/-- The part of a round is not longer than a round. -/
theorem Blocks.length_current_le {hashes : List Nat} {w : Trace PeerId} {rounds : List (List Nat)}
    {current : List Nat} (h : Blocks hashes w rounds current) (hhashes : w.state.hashes = hashes) :
    current.length ≤ hashes.length := by
  rw [h.processed.length_eq, ← hhashes]
  exact length_processedHashes_le w.state

theorem Blocks.current_perm {hashes : List Nat} {w : Trace PeerId} {rounds : List (List Nat)}
    {current : List Nat} (h : Blocks hashes w rounds current) (hhashes : w.state.hashes = hashes)
    (hlen : current.length = hashes.length) : current.Perm hashes := by
  have hall : ∀ s ∈ w.state.slices, s.processed = true := by
    rw [h.processed.length_eq, ← hhashes] at hlen
    unfold SliceTracker.processedHashes SliceTracker.hashes at hlen
    rw [List.length_map, List.length_map] at hlen
    exact List.length_filter_eq_length_iff.mp hlen
  rw [← hhashes, ← SliceTracker.processedHashes_of_all hall]
  exact h.processed

theorem length_served_run {hashes : List Nat} (hne : hashes ≠ [])
    (calls : List (PeerId × IterationOrder (PeerId × Nat))) :
    (served (run hashes (calls.map fun c => .next c.1 c.2)).history).length = calls.length := by
  induction calls using List.reverseRecOn with
  | nil => rfl
  | append_singleton calls c ih =>
    rw [List.map_append, run, List.map_singleton, Machine.run_snoc, ← run, Machine.next_history, served_cons,
      List.length_append, ih, List.length_append, List.length_singleton]
    have hslices : (run hashes (calls.map fun c => .next c.1 c.2)).state.slices ≠ [] := by
      intro hnil
      have hhashes := hashes_run hashes (calls.map fun c => .next c.1 c.2)
      rw [SliceTracker.hashes, hnil] at hhashes
      exact hne hhashes.symm
    obtain ⟨hash, hout⟩ := step_next_returns c.1 c.2 hslices
    simp only [Machine.event_output, machine, hout, Option.toList_some, List.length_singleton]

/-- The round counter of a tracker that was called: the rounds before the one under way, in 32 bits. -/
theorem rounds_run {hashes : List Nat} (hne : hashes ≠ []) {calls : List (PeerId × IterationOrder (PeerId × Nat))}
    (hcalls : calls ≠ []) :
    (run hashes (calls.map fun c => .next c.1 c.2)).state.rounds = (calls.length - 1) / hashes.length % 2 ^ 32 := by
  obtain ⟨rounds, current, hblocks, hcurrent⟩ := blocks_run hne calls
  have hlen := length_served_run hne calls
  rw [hblocks.handed, List.length_append, length_flatten_rounds hblocks.whole] at hlen
  have hle := hblocks.length_current_le (hashes_run hashes _)
  have hpos : 0 < current.length := List.length_pos_iff.mpr (hcurrent hcalls)
  rw [hblocks.counted]
  congr 1
  refine (Nat.div_eq_of_lt_le ?_ ?_).symm
  · omega
  · rw [Nat.add_mul, Nat.one_mul]
    omega

/-- **Every round covers the slices.** Whoever calls `next`, and in whatever order the counts are read, every call
returns, the calls of a block hand out the slices, each as often as it occurs, and the counter counts the blocks before
the last call's, in 32 bits. -/
theorem every_block_covers (hashes : List Nat) (hne : hashes ≠ [])
    (calls : List (PeerId × IterationOrder (PeerId × Nat))) :
    (served (run hashes (calls.map fun c => .next c.1 c.2)).history).length = calls.length ∧
      (∀ j, (j + 1) * hashes.length ≤ calls.length →
        (((served (run hashes (calls.map fun c => .next c.1 c.2)).history).drop (j * hashes.length)).take
          hashes.length).Perm hashes) ∧
      (calls ≠ [] → (run hashes (calls.map fun c => .next c.1 c.2)).state.rounds =
        (calls.length - 1) / hashes.length % 2 ^ 32) := by
  have hlen := length_served_run hne calls
  refine ⟨hlen, fun j hj => ?_, rounds_run hne⟩
  obtain ⟨rounds, current, hblocks, -⟩ := blocks_run hne calls
  have hhashes := hashes_run hashes (calls.map fun c => Input.next c.1 c.2)
  rw [hblocks.handed] at hlen ⊢
  rw [← hlen] at hj
  exact block_perm (hblocks.current_perm hhashes) (hblocks.length_current_le hhashes) hblocks.whole hj

/-- Two peers, three slices and eight calls: peer 1 steals the last slice of the second round, peer 2 two slices of the
third. -/
theorem every_block_covers_two_peers :
    let calls := [1, 1, 2, 1, 1, 1, 2, 2].map fun p => (p, IterationOrder.listed (Nat × Nat))
    served (run [10, 11, 12] (calls.map fun c => .next c.1 c.2)).history = [10, 11, 12, 10, 11, 12, 10, 11] ∧
      (((served (run [10, 11, 12] (calls.map fun c => .next c.1 c.2)).history).drop 3).take 3).Perm [10, 11, 12] := by
  refine ⟨by decide, ?_⟩
  exact (every_block_covers [10, 11, 12] (by decide) _).2.1 1 (by decide)

/-- One slice and one peer: after `2 ^ 32 + 1` calls the counter is back at zero. -/
theorem round_counter_wraps :
    ¬ ∀ (hashes : List Nat), hashes ≠ [] → ∀ calls : List (Nat × IterationOrder (Nat × Nat)), calls ≠ [] →
      (run hashes (calls.map fun c => .next c.1 c.2)).state.rounds = (calls.length - 1) / hashes.length := by
  intro h
  obtain ⟨calls, hlen⟩ : ∃ calls : List (Nat × IterationOrder (Nat × Nat)), calls.length = 2 ^ 32 + 1 :=
    ⟨_, List.length_replicate (a := (1, .listed (Nat × Nat)))⟩
  have hcalls : calls ≠ [] := by
    intro hnil
    rw [hnil, List.length_nil] at hlen
    omega
  have hclaim := h [0] (List.cons_ne_nil 0 []) calls hcalls
  rw [rounds_run (List.cons_ne_nil 0 []) hcalls, hlen, List.length_singleton, Nat.div_one] at hclaim
  omega

end Hypha.Tracker
