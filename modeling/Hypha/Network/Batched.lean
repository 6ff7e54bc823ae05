import Hypha.Network.Utils

/-!
# Batches lose nothing

* `Lossless` : the batches followed by the buffer are the items that were received, no batch is empty or too long, and
  the timer is armed exactly while an item waits;
* `batched_lossless` : it holds after every answer of the inner stream;
* `pollNext_run` : a call of `poll_next` is a run of turns, the last of which returns, `pollNext_returns` : it returns
  after as many answers as a batch is long.
-/

namespace Hypha.Network

open Hypha.Lib

variable {Item : Type}

/-- The turns of `poll_next`, over all calls. -/
def batched : Machine (Batched Item) (Inner Item) (Option (Poll (Option (List Item)))) := ⟨Batched.turn⟩

abbrev BatchedEvent (Item : Type) := Event (Batched Item) (Inner Item) (Option (Poll (Option (List Item))))

abbrev BatchedRun (Item : Type) := World (Batched Item) (Inner Item) (Option (Poll (Option (List Item))))

def Inner.received : Inner Item → Option Item
  | .item x _ => some x
  | _ => none

/-- The batch that a turn emits. -/
def emitted : Option (Poll (Option (List Item))) → Option (List Item)
  | some (.ready (some batch)) => some batch
  | _ => none

/-- The items that were received, in order. -/
def items (h : List (BatchedEvent Item)) : List Item := (h.map (·.input)).reverse.filterMap Inner.received

/-- The batches that were emitted, in order. -/
def batches (h : List (BatchedEvent Item)) : List (List Item) := (h.map (·.output)).reverse.filterMap emitted

theorem items_cons (e : BatchedEvent Item) (h : List (BatchedEvent Item)) :
    items (e :: h) = items h ++ e.input.received.toList := by
  unfold items
  rw [List.map_cons, filterMap_reverse_cons]

theorem batches_cons (e : BatchedEvent Item) (h : List (BatchedEvent Item)) :
    batches (e :: h) = batches h ++ (emitted e.output).toList := by
  unfold batches
  rw [List.map_cons, filterMap_reverse_cons]

/-- What a turn leaves: nothing is lost, the batch that is emitted has an allowed length, the timer is armed exactly while
an item waits, and no item waits at the end. -/
structure Lossless (e : BatchedEvent Item) (h : List (BatchedEvent Item)) : Prop where
  kept : (batches (e :: h)).flatten ++ e.post.buffer = items (e :: h)
  batch : ∀ batch, emitted e.output = some batch → batch ≠ [] ∧ batch.length ≤ max 1 e.post.limit
  armed : e.post.delay.isSome = true ↔ e.post.buffer ≠ []
  ended : e.output = some (.ready none) → e.post.buffer = []

/-- The state between turns. -/
structure Armed (limit : Nat) (s : Batched Item) : Prop where
  limit_eq : s.limit = limit
  room : s.buffer.length < max 1 limit
  armed : s.delay.isSome = true ↔ s.buffer ≠ []

/-- What a turn does with the buffer. -/
inductive Turned (s : Batched Item) : Inner Item → Batched Item × Option (Poll (Option (List Item))) → Prop where
  | pushed {item : Item} {now : Nat} (short : (s.push item now).buffer.length < s.limit) :
      Turned s (.item item now) (s.push item now, none)
  | full {item : Item} {now : Nat} : Turned s (.item item now) (s.push item now).flush
  | flushed {answer : Inner Item} (others : answer.received = none) (some : s.buffer ≠ []) : Turned s answer s.flush
  | stays {answer : Inner Item} {poll : Poll (Option (List Item))} (others : answer.received = none)
      (emits : emitted (some poll) = none) (ended : poll = .ready none → s.buffer = []) : Turned s answer (s, some poll)

theorem turned (s : Batched Item) (answer : Inner Item) : Turned s answer (s.turn answer) := by
  cases answer with
  | item item now =>
    simp only [Batched.turn]
    split_ifs with hfull
    · exact .full
    · exact .pushed (Nat.lt_of_not_le hfull)
  | ended =>
    simp only [Batched.turn]
    split_ifs with hempty
    · exact .stays rfl rfl fun _ => List.isEmpty_iff.mp hempty
    · exact .flushed rfl fun h => hempty (List.isEmpty_iff.mpr h)
  | pending fired =>
    simp only [Batched.turn]
    split_ifs with hempty
    · exact .stays rfl rfl fun h => by cases h
    · exact .flushed rfl fun h => hempty (List.isEmpty_iff.mpr h)
    · exact .stays rfl rfl fun h => by cases h

theorem Armed.push {limit : Nat} {s : Batched Item} (h : Armed limit s) (item : Item) (now : Nat) :
    (s.push item now).delay.isSome = true := by
  unfold Batched.push
  dsimp only
  split_ifs with hempty
  · rfl
  · exact h.armed.mpr fun hnil => hempty (List.isEmpty_iff.mpr hnil)

/-- No item waits, and no timer is armed. -/
theorem armed_empty {limit : Nat} {s : Batched Item} (hlimit : s.limit = limit) (hbuffer : s.buffer = [])
    (hdelay : s.delay = none) : Armed limit s := by
  refine ⟨hlimit, ?_, ?_⟩ <;> rw [hbuffer]
  · exact Nat.lt_of_lt_of_le Nat.zero_lt_one (Nat.le_max_left _ _)
  · rw [hdelay]
    simp

/-- A turn, given the state between turns: what it emits and keeps is what was kept and arrives. -/
theorem Armed.turn {limit : Nat} {s : Batched Item} {answer : Inner Item}
    {r : Batched Item × Option (Poll (Option (List Item)))} (h : Armed limit s) (hturn : Turned s answer r) :
    Armed limit r.1 ∧ (emitted r.2).toList.flatten ++ r.1.buffer = s.buffer ++ answer.received.toList ∧
      (∀ batch, emitted r.2 = some batch → batch ≠ [] ∧ batch.length ≤ max 1 limit) ∧
      (r.2 = some (.ready none) → r.1.buffer = []) := by
  have hroom := h.room
  cases hturn with
  | @pushed item now short =>
    rw [h.limit_eq] at short
    have hsome : (s.push item now).buffer ≠ [] := List.append_ne_nil_of_right_ne_nil _ (List.cons_ne_nil _ _)
    refine ⟨⟨h.limit_eq, short.trans_le (Nat.le_max_right _ _), iff_of_true (h.push item now) hsome⟩, rfl, ?_, ?_⟩
    · intro batch hbatch
      cases hbatch
    · intro hended
      cases hended
  | @full item now =>
    refine ⟨armed_empty h.limit_eq rfl rfl, by simp [Batched.flush, Batched.push, emitted, Inner.received], ?_, ?_⟩
    · intro batch hbatch
      obtain rfl : s.buffer ++ [item] = batch := Option.some.inj hbatch
      refine ⟨List.append_ne_nil_of_right_ne_nil _ (List.cons_ne_nil _ _), ?_⟩
      rw [List.length_append, List.length_singleton]
      omega
    · intro hended
      cases hended
  | flushed others hsome =>
    refine ⟨armed_empty h.limit_eq rfl rfl, by simp [Batched.flush, emitted, others], ?_, ?_⟩
    · intro batch hbatch
      obtain rfl : s.buffer = batch := Option.some.inj hbatch
      exact ⟨hsome, hroom.le⟩
    · intro hended
      cases hended
  | stays others emits ended =>
    refine ⟨h, by simp [emits, others], ?_, ?_⟩
    · intro batch hbatch
      rw [emits] at hbatch
      cases hbatch
    · intro hended
      exact ended (Option.some.inj hended)

/-- What the adapter keeps between turns. -/
structure Buffered (limit : Nat) (w : BatchedRun Item) : Prop where
  state : Armed limit w.state
  kept : (batches w.history).flatten ++ w.state.buffer = items w.history

theorem Buffered.next {limit : Nat} {w : BatchedRun Item} (h : Buffered limit w) (answer : Inner Item) :
    Buffered limit (batched.next w answer) ∧ Lossless (batched.event w.state answer) w.history := by
  obtain ⟨hstate, hkept, hbatch, hended⟩ := h.state.turn (turned w.state answer)
  have hall : (batches (batched.next w answer).history).flatten ++ (batched.next w answer).state.buffer =
      items (batched.next w answer).history := by
    rw [Machine.next_history]
    rw [batches_cons, items_cons, List.flatten_append, List.append_assoc, ← h.kept, List.append_assoc]
    exact congrArg _ hkept
  refine ⟨⟨hstate, hall⟩, hall, fun batch hb => ?_, hstate.armed, hended⟩
  exact hstate.limit_eq ▸ hbatch batch hb

/-- **Batching loses nothing**, over every sequence of answers of the inner stream. -/
theorem batched_lossless (limit wait : Nat) (answers : List (Inner Item)) :
    Along Lossless (batched.run (.new limit wait) answers).history := by
  refine (batched.along_of_invariant (Buffered limit) (fun _ _ => True) Lossless ?_ (fun w i h _ => h.next i) answers
    (along_true _)).2
  exact ⟨armed_empty rfl rfl rfl, rfl⟩

/-- A call of `poll_next` is a run of turns: all but the last go on, and the last one returns. -/
theorem pollNext_run {s s' : Batched Item} {answers rest : List (Inner Item)} {poll : Poll (Option (List Item))}
    (h : s.pollNext answers = some (s', poll, rest)) :
    ∃ used last, answers = used ++ last :: rest ∧ (∀ e ∈ (batched.run s used).history, e.output = none) ∧
      batched.step (batched.run s used).state last = (s', some poll) := by
  induction answers generalizing s with
  | nil => cases h
  | cons answer answers ih =>
    unfold Batched.pollNext at h
    split at h
    · next s₁ poll' hturn =>
      cases h
      refine ⟨[], answer, rfl, fun e he => ?_, hturn⟩
      cases he
    · next s₁ hturn =>
      obtain ⟨used, last, rfl, hnone, hlast⟩ := ih h
      have hstep : batched.step s answer = (s₁, none) := hturn
      refine ⟨answer :: used, last, rfl, ?_, ?_⟩ <;> rw [Machine.run_cons, hstep]
      · intro e he
        rcases List.mem_append.mp he with he | he
        · exact hnone e he
        · rw [List.mem_singleton.mp he, Machine.event_output, hstep]
      · exact hlast

/-- A call of `poll_next` returns after as many answers as a batch is long. -/
theorem pollNext_returns {limit : Nat} {s : Batched Item} (h : Armed limit s) {answers : List (Inner Item)}
    (hlong : max 1 limit ≤ s.buffer.length + answers.length) : (s.pollNext answers).isSome = true := by
  induction answers generalizing s with
  | nil => exact absurd h.room (Nat.not_lt_of_le hlong)
  | cons answer answers ih =>
    unfold Batched.pollNext
    have hturned := turned s answer
    obtain ⟨hnext, -⟩ := h.turn hturned
    generalize s.turn answer = r at hturned hnext ⊢
    cases hturned with
    | pushed short =>
      refine ih hnext ?_
      simp only [Batched.push, List.length_append, List.length_cons, List.length_nil] at hlong ⊢
      omega
    | full => rfl
    | flushed => rfl
    | stays => rfl

end Hypha.Network
