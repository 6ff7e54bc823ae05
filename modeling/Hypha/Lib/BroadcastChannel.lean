import Mathlib.Data.List.Basic

/-!
# Broadcast channels

A channel with many receivers that keeps the last values that were sent. A receiver reads them one after the other; one
that has fallen behind what is kept is told how many it has missed, and goes on with the oldest that is kept.

* `BroadcastChannel.send`, `BroadcastChannel.recv` : the channel, with a position for each receiver;
* `BroadcastChannel.Holds` : the channel holds the end of the list of all that was sent;
* `Reads`, `BroadcastChannel.Holds.recv` : what one read takes from the list of what is unread;
* `Accounts` : what was received accounts for all that was sent and is not unread;
* `Accounts.send`, `Accounts.read` : the account goes on with both;
* `Accounts.of_values` : a receiver that never lags has received everything, in order.
-/

namespace Hypha.Lib

variable {α : Type}

/-- What a receiver gets: a value, or the number of those that it has missed. -/
inductive Received (α : Type) where
  | value (a : α)
  | lagged (missed : Nat)
  deriving DecidableEq, Repr

/-- A channel that keeps the last values, the oldest first, and counts all of them. -/
structure BroadcastChannel (α : Type) where
  capacity : Nat
  buffer : List α := []
  tail : Nat := 0
  deriving DecidableEq, Repr

namespace BroadcastChannel

variable (c : BroadcastChannel α)

def send (a : α) : BroadcastChannel α :=
  { c with buffer := (c.buffer ++ [a]).drop (c.buffer.length + 1 - c.capacity), tail := c.tail + 1 }

/-- What a receiver at a position gets, and its position then; nothing if it has read everything. -/
def recv (next : Nat) : Option (Received α × Nat) :=
  if next + c.buffer.length < c.tail then
    some (.lagged (c.tail - c.buffer.length - next), c.tail - c.buffer.length)
  else c.buffer[next + c.buffer.length - c.tail]?.map fun a => (.value a, next + 1)

/-- The channel holds the end of what was sent. -/
structure Holds (sent : List α) : Prop where
  tail : c.tail = sent.length
  buffer : c.buffer = sent.drop (sent.length - c.capacity)

end BroadcastChannel

/-- One read takes the first of the values that are unread, or passes over some. -/
def Reads (unread : List α) : Received α → List α → Prop
  | .value a, rest => unread = a :: rest
  | .lagged missed, rest => 0 < missed ∧ missed ≤ unread.length ∧ rest = unread.drop missed

/-- What was received, one read after the other, leaves what is unread of all that was sent. -/
def Accounts : List (Received α) → List α → List α → Prop
  | [], sent, unread => sent = unread
  | item :: items, sent, unread => ∃ rest, Reads sent item rest ∧ Accounts items rest unread

/-- The values among what was received. -/
def Received.value? : Received α → Option α
  | .value a => some a
  | .lagged _ => none

namespace BroadcastChannel.Holds

variable {c : BroadcastChannel α} {sent : List α} {next : Nat}

theorem new (capacity : Nat) : (⟨capacity, [], 0⟩ : BroadcastChannel α).Holds [] :=
  ⟨rfl, List.drop_nil.symm⟩

theorem length_buffer (h : c.Holds sent) : c.buffer.length = min c.capacity sent.length := by
  rw [h.buffer, List.length_drop]
  omega

theorem send (h : c.Holds sent) (a : α) : (c.send a).Holds (sent ++ [a]) := by
  refine ⟨?_, ?_⟩
  · show c.tail + 1 = _
    rw [h.tail, List.length_append, List.length_singleton]
  · show (c.buffer ++ [a]).drop (c.buffer.length + 1 - c.capacity) = _
    have hlength := h.length_buffer
    have hold : sent.drop (sent.length - c.capacity) ++ [a] = (sent ++ [a]).drop (sent.length - c.capacity) :=
      (List.drop_append_of_le_length (Nat.sub_le _ _)).symm
    rw [hlength, h.buffer, hold, List.drop_drop, List.length_append, List.length_singleton]
    congr 1
    show sent.length - c.capacity + (min c.capacity sent.length + 1 - c.capacity) = sent.length + 1 - c.capacity
    omega

/-- **One read.** A receiver that has read everything waits; any other reads what is unread, and if it has missed
something then more was unread than the channel keeps. -/
theorem recv (h : c.Holds sent) (hcapacity : 0 < c.capacity) (hnext : next ≤ sent.length) :
    (c.recv next = none ∧ next = sent.length) ∨
      ∃ item next', c.recv next = some (item, next') ∧ next' ≤ sent.length ∧
        Reads (sent.drop next) item (sent.drop next') ∧
        ((∃ missed, item = .lagged missed) → next + c.capacity < sent.length) := by
  have hlength := h.length_buffer
  have htail := h.tail
  unfold BroadcastChannel.recv
  split_ifs with hlate
  · refine Or.inr ⟨_, _, rfl, by omega, ⟨by omega, ?_, ?_⟩, fun _ => by omega⟩
    · rw [List.length_drop]
      omega
    · rw [List.drop_drop]
      congr 1
      omega
  · have hget : c.buffer[next + c.buffer.length - c.tail]? = sent[next]? := by
      rw [h.buffer, List.getElem?_drop, List.length_drop]
      congr 1
      omega
    rw [hget]
    by_cases hend : next = sent.length
    · exact Or.inl ⟨by rw [hend, List.getElem?_eq_none (Nat.le_refl _)]; rfl, hend⟩
    · have hlt : next < sent.length := by omega
      refine Or.inr ⟨.value sent[next], next + 1, ?_, hlt, List.drop_eq_getElem_cons hlt, ?_⟩
      · rw [List.getElem?_eq_getElem hlt]
        rfl
      · rintro ⟨missed, ⟨⟩⟩

end BroadcastChannel.Holds

/-! ## The account of a receiver -/

section Accounts
variable {sent unread rest : List α} {items : List (Received α)} {item : Received α}

theorem Reads.append (h : Reads unread item rest) (a : α) : Reads (unread ++ [a]) item (rest ++ [a]) := by
  cases item with
  | value b =>
    have hcons : unread = b :: rest := h
    show unread ++ [a] = b :: (rest ++ [a])
    rw [hcons, List.cons_append]
  | lagged missed =>
    obtain ⟨hpos, hle, hrest⟩ := h
    refine ⟨hpos, ?_, ?_⟩
    · rw [List.length_append]
      exact Nat.le_add_right_of_le hle
    · rw [hrest, List.drop_append_of_le_length hle]

/-- One more value is sent. -/
theorem Accounts.send (h : Accounts items sent unread) (a : α) : Accounts items (sent ++ [a]) (unread ++ [a]) := by
  induction items generalizing sent with
  | nil =>
    have hall : sent = unread := h
    exact congrArg (· ++ [a]) hall
  | cons item items ih =>
    obtain ⟨rest, hreads, hrest⟩ := h
    exact ⟨rest ++ [a], hreads.append a, ih hrest⟩

/-- One more read. -/
theorem Accounts.read (h : Accounts items sent unread) (hreads : Reads unread item rest) :
    Accounts (items ++ [item]) sent rest := by
  induction items generalizing sent with
  | nil =>
    have hall : sent = unread := h
    exact ⟨rest, hall ▸ hreads, rfl⟩
  | cons first items ih =>
    obtain ⟨rest', hfirst, hrest'⟩ := h
    exact ⟨rest', hfirst, ih hrest'⟩

/-- A receiver that has missed nothing has received everything that is not unread, in order. -/
theorem Accounts.of_values (h : Accounts items sent unread) (hvalues : ∀ missed, .lagged missed ∉ items) :
    ∃ values, items = values.map .value ∧ sent = values ++ unread := by
  induction items generalizing sent with
  | nil => exact ⟨[], rfl, h⟩
  | cons item items ih =>
    obtain ⟨rest, hreads, hrest⟩ := h
    obtain ⟨values, hitems, hsent⟩ := ih hrest fun missed hmem => hvalues missed (List.mem_cons_of_mem _ hmem)
    cases item with
    | value a =>
      have hcons : sent = a :: rest := hreads
      exact ⟨a :: values, by rw [hitems, List.map_cons], by rw [hcons, hsent, List.cons_append]⟩
    | lagged missed => exact absurd List.mem_cons_self (hvalues missed)

/-- What a receiver has got is in the order of sending. -/
theorem Accounts.sublist (h : Accounts items sent unread) : (items.filterMap Received.value? ++ unread).Sublist sent := by
  induction items generalizing sent with
  | nil =>
    have hall : sent = unread := h
    exact hall ▸ List.Sublist.refl _
  | cons item items ih =>
    obtain ⟨rest, hreads, hrest⟩ := h
    cases item with
    | value a =>
      have hcons : sent = a :: rest := hreads
      rw [hcons]
      exact (ih hrest).cons_cons a
    | lagged missed =>
      rw [hreads.2.2] at hrest
      exact (ih hrest).trans (List.drop_sublist _ _)

end Accounts

end Hypha.Lib
