import Hypha.Lib.BroadcastChannel
import Hypha.Lib.Machine
import Hypha.Lib.Table

/-!
# Gossipsub subscriptions

The driver of `gossipsub.rs` between its callers and the gossipsub behaviour: each topic that the behaviour is subscribed
to has a broadcast channel, each caller that subscribes a stream that reads from it.

* `GossipsubDriver.processGossipsubAction`, `GossipsubDriver.processGossipsubEvent`, `GossipsubDriver.pollNext` : what the
  driver does with an action and with a message, and what a stream yields;
* `heard` : the messages of its topic that have arrived since a stream was opened, until someone unsubscribed;
* `yielded` : what the stream has yielded;
* `streams_account` : the driver has a channel for exactly the topics of the behaviour; what was received accounts for all
  that was heard and is not unread, and nothing is unread when a stream ends;
* `streams_keep_up` : a stream that is never eight messages behind when one arrives misses none.
-/

namespace Hypha.Network

open Hypha.Lib

set_option linter.unusedSectionVars false

structure GossipsubMessage (PeerId Data : Type) where
  source : PeerId
  data : Data
  deriving DecidableEq, Repr

inductive GossipsubError where
  | subscription (error : String)
  | publish (error : String)
  deriving DecidableEq, Repr

/-- An action, with what the behaviour answers apart from what depends on its subscriptions. -/
inductive GossipsubAction (Topic Data : Type) where
  | publish (topic : Topic) (data : Data) (answer : Except String Unit)
  | subscribe (topic : Topic) (answer : Except String Unit)
  | unsubscribe (topic : Topic)

/-- A stream: the channel that it reads, its position, and whether it has not been dropped. -/
structure GossipStream where
  channel : Nat
  next : Nat
  alive : Bool := true
  deriving DecidableEq, Repr

/-- The driver and the streams. `subscribed` are the topics of the behaviour; the senders of the channels are in
`subscriptions`. -/
structure GossipsubDriver (Topic PeerId Data : Type) where
  subscribed : List Topic := []
  subscriptions : Table Topic Nat := ∅
  channels : List (BroadcastChannel (GossipsubMessage PeerId Data)) := []
  streams : List GossipStream := []

inductive GossipsubInput (Topic PeerId Data : Type) where
  | action (action : GossipsubAction Topic Data)
  | message (topic : Topic) (message : GossipsubMessage PeerId Data)
  | pollNext (i : Nat)
  | dropStream (i : Nat)

/-- What a caller or the reader of a stream gets. -/
inductive GossipsubOutput (PeerId Data : Type) where
  | published
  | subscribed (i : Nat)
  | unsubscribed
  | failed (error : GossipsubError)
  | panicked
  | item (item : Received (GossipsubMessage PeerId Data))
  | ended
  | nothing
  deriving DecidableEq, Repr

/-- The capacity of `broadcast::channel(5)`: the next power of two. -/
def channelCapacity : Nat := 8

variable {Topic PeerId Data : Type} [DecidableEq Topic]

namespace GossipsubDriver

variable (s : GossipsubDriver Topic PeerId Data)

/-- `subscribe` of a sender: a new stream, which reads what is sent from now on. -/
def openStream (n : Nat) : GossipsubDriver Topic PeerId Data × GossipsubOutput PeerId Data :=
  ({ s with streams := s.streams ++ [⟨n, (s.channels[n]?.map BroadcastChannel.tail).getD 0, true⟩] },
    .subscribed s.streams.length)

/-- `process_gossipsub_action`. -/
def processGossipsubAction : GossipsubAction Topic Data →
    GossipsubDriver Topic PeerId Data × GossipsubOutput PeerId Data
  | .publish _ _ (.error error) => (s, .failed (.publish error))
  | .publish _ _ (.ok ()) => (s, .published)
  | .subscribe _ (.error error) => (s, .failed (.subscription error))
  | .subscribe topic (.ok ()) =>
    if topic ∈ s.subscribed then
      match s.subscriptions.lookup topic with
      | some n => s.openStream n
      | none => (s, .panicked)
    else
      openStream { s with
        subscribed := topic :: s.subscribed
        subscriptions := s.subscriptions.insert topic s.channels.length
        channels := s.channels ++ [{ capacity := channelCapacity }] } s.channels.length
  | .unsubscribe topic =>
    if topic ∈ s.subscribed then
      ({ s with
        subscribed := s.subscribed.filter fun t => decide (t ≠ topic)
        subscriptions := s.subscriptions.erase topic }, .unsubscribed)
    else (s, .unsubscribed)

/-- Whether a channel has a receiver. -/
def hasReceiver (n : Nat) : Bool := s.streams.any fun stream => stream.alive && decide (stream.channel = n)

/-- `process_gossipsub_event`: what is sent without a receiver is not kept. -/
def processGossipsubEvent (topic : Topic) (message : GossipsubMessage PeerId Data) : GossipsubDriver Topic PeerId Data :=
  match s.subscriptions.lookup topic with
  | some n => if s.hasReceiver n then { s with channels := s.channels.modify n fun c => c.send message } else s
  | none => s

/-- Whether the sender of a channel has not been dropped. -/
def hasSender (n : Nat) : Bool := s.subscriptions.entries.any fun entry => decide (entry.2 = n)

/-- `BroadcastStream::poll_next`. -/
def pollNext (i : Nat) : GossipsubDriver Topic PeerId Data × GossipsubOutput PeerId Data :=
  match s.streams[i]? with
  | some ⟨n, next, true⟩ =>
    match s.channels[n]?.bind fun c => c.recv next with
    | some (item, next') => ({ s with streams := s.streams.set i ⟨n, next', true⟩ }, .item item)
    | none => (s, if s.hasSender n then .nothing else .ended)
  | _ => (s, .nothing)

def dropStream (i : Nat) : GossipsubDriver Topic PeerId Data :=
  { s with streams := s.streams.modify i fun stream => { stream with alive := false } }

end GossipsubDriver

/-- The driver and the streams as a machine. -/
def gossipsub : Machine (GossipsubDriver Topic PeerId Data) (GossipsubInput Topic PeerId Data)
    (GossipsubOutput PeerId Data) where
  step s
    | .action action => s.processGossipsubAction action
    | .message topic message => (s.processGossipsubEvent topic message, .nothing)
    | .pollNext i => s.pollNext i
    | .dropStream i => (s.dropStream i, .nothing)

abbrev GossipsubEvent (Topic PeerId Data : Type) :=
  Event (GossipsubDriver Topic PeerId Data) (GossipsubInput Topic PeerId Data) (GossipsubOutput PeerId Data)

/-! ## What a stream should get -/

/-- What has arrived for a stream, and whether more may. -/
structure Hearing (Topic PeerId Data : Type) where
  topic : Topic
  isOpen : Bool := true
  messages : List (GossipsubMessage PeerId Data) := []

/-- What an event is for a stream. -/
def Hearing.next (i : Nat) (hearing : Hearing Topic PeerId Data) :
    GossipsubInput Topic PeerId Data → Hearing Topic PeerId Data
  | .message topic message =>
    if hearing.isOpen ∧ topic = hearing.topic then { hearing with messages := hearing.messages ++ [message] } else hearing
  | .action (.unsubscribe topic) => if topic = hearing.topic then { hearing with isOpen := false } else hearing
  | .dropStream j => if j = i then { hearing with isOpen := false } else hearing
  | _ => hearing

/-- The topic of a stream that is opened. -/
def opened? (i : Nat) (e : GossipsubEvent Topic PeerId Data) : Option (Hearing Topic PeerId Data) :=
  match e.input, e.output with
  | .action (.subscribe topic _), .subscribed j => if j = i then some { topic := topic } else none
  | _, _ => none

/-- What has arrived for a stream since it was opened. -/
def heard (i : Nat) : List (GossipsubEvent Topic PeerId Data) → Option (Hearing Topic PeerId Data)
  | [] => none
  | e :: h =>
    match heard i h with
    | some hearing => some (hearing.next i e.input)
    | none => opened? i e

/-- What a stream yields in a step. -/
def yielded? (i : Nat) (e : GossipsubEvent Topic PeerId Data) : Option (Received (GossipsubMessage PeerId Data)) :=
  match e.input, e.output with
  | .pollNext j, .item item => if j = i then some item else none
  | _, _ => none

/-- What a stream has yielded, the first item first. -/
def yielded (i : Nat) (h : List (GossipsubEvent Topic PeerId Data)) :
    List (Received (GossipsubMessage PeerId Data)) := h.reverse.filterMap (yielded? i)

/-! ## The driver and the behaviour agree -/

section Sound
variable {s : GossipsubDriver Topic PeerId Data} {topic : Topic} {n : Nat}

/-- The driver has a sender for each topic of the behaviour and for no other, each of a channel of its own. -/
structure Sound (s : GossipsubDriver Topic PeerId Data) : Prop where
  topics : ∀ topic, topic ∈ s.subscribed ↔ topic ∈ s.subscriptions
  bound : ∀ topic n, s.subscriptions.lookup topic = some n → n < s.channels.length
  distinct : ∀ topic topic' n, s.subscriptions.lookup topic = some n → s.subscriptions.lookup topic' = some n →
    topic = topic'
  channels : ∀ c ∈ s.channels, c.capacity = channelCapacity ∧ ∃ sent, c.Holds sent

/-- The driver with one more topic. -/
def addTopic (s : GossipsubDriver Topic PeerId Data) (topic : Topic) : GossipsubDriver Topic PeerId Data :=
  { s with
    subscribed := topic :: s.subscribed
    subscriptions := s.subscriptions.insert topic s.channels.length
    channels := s.channels ++ [{ capacity := channelCapacity }] }

/-- The driver with one topic fewer. -/
def removeTopic (s : GossipsubDriver Topic PeerId Data) (topic : Topic) : GossipsubDriver Topic PeerId Data :=
  { s with
    subscribed := s.subscribed.filter fun t => decide (t ≠ topic)
    subscriptions := s.subscriptions.erase topic }

/-- **What an action does** to a driver that agrees with the behaviour. -/
theorem Sound.action (hs : Sound s) (action : GossipsubAction Topic Data) :
    (∃ output, s.processGossipsubAction action = (s, output) ∧ output ≠ .panicked ∧ (∀ i, output ≠ .subscribed i) ∧
        (∀ item, output ≠ .item item) ∧ ∀ topic, action = .unsubscribe topic → s.subscriptions.lookup topic = none) ∨
      (∃ topic n, action = .subscribe topic (.ok ()) ∧ s.subscriptions.lookup topic = some n ∧
        s.processGossipsubAction action = s.openStream n) ∨
      (∃ topic, action = .subscribe topic (.ok ()) ∧ topic ∉ s.subscriptions ∧
        s.processGossipsubAction action = (addTopic s topic).openStream s.channels.length) ∨
      ∃ topic, action = .unsubscribe topic ∧ s.processGossipsubAction action = (removeTopic s topic, .unsubscribed) := by
  cases action with
  | publish topic data answer =>
    refine Or.inl ?_
    cases answer <;> exact ⟨_, rfl, nofun, nofun, nofun, nofun⟩
  | subscribe topic answer =>
    cases answer with
    | error error => exact Or.inl ⟨_, rfl, nofun, nofun, nofun, nofun⟩
    | ok =>
      by_cases hmem : topic ∈ s.subscribed
      · obtain ⟨n, hn⟩ := Table.exists_lookup ((hs.topics topic).mp hmem)
        refine Or.inr (Or.inl ⟨topic, n, rfl, hn, ?_⟩)
        simp only [GossipsubDriver.processGossipsubAction, if_pos hmem, hn]
      · refine Or.inr (Or.inr (Or.inl ⟨topic, rfl, fun h => hmem ((hs.topics topic).mpr h), ?_⟩))
        simp only [GossipsubDriver.processGossipsubAction, if_neg hmem]
        rfl
  | unsubscribe topic =>
    by_cases hmem : topic ∈ s.subscribed
    · refine Or.inr (Or.inr (Or.inr ⟨topic, rfl, ?_⟩))
      simp only [GossipsubDriver.processGossipsubAction, if_pos hmem]
      rfl
    · refine Or.inl ⟨.unsubscribed, ?_, nofun, nofun, nofun, ?_⟩
      · simp only [GossipsubDriver.processGossipsubAction, if_neg hmem]
      · rintro _ ⟨⟩
        exact AList.lookup_eq_none.mpr fun h => hmem ((hs.topics topic).mpr h)

theorem Sound.openStream (hs : Sound s) (n : Nat) : Sound (s.openStream n).1 := 
  ⟨hs.topics, hs.bound, hs.distinct, hs.channels⟩

theorem Sound.addTopic (hs : Sound s) (topic : Topic) : Sound (addTopic s topic) := by
  refine ⟨fun t => ?_, fun t n hn => ?_, fun t t' n hn hn' => ?_, fun c hc => ?_⟩
  · show t ∈ topic :: s.subscribed ↔ t ∈ s.subscriptions.insert topic s.channels.length
    rw [List.mem_cons, AList.mem_insert, hs.topics]
  · show n < (s.channels ++ [_]).length
    rw [List.length_append, List.length_singleton]
    rcases Table.lookup_insert_iff.mp hn with ⟨-, rfl⟩ | ⟨-, hold⟩
    · exact Nat.lt_succ_self _
    · exact Nat.lt_succ_of_lt (hs.bound t n hold)
  · rcases Table.lookup_insert_iff.mp hn with ⟨rfl, rfl⟩ | ⟨-, hold⟩
    · rcases Table.lookup_insert_iff.mp hn' with ⟨rfl, -⟩ | ⟨-, hold'⟩
      · rfl
      · exact absurd (hs.bound t' _ hold') (Nat.lt_irrefl _)
    · rcases Table.lookup_insert_iff.mp hn' with ⟨-, rfl⟩ | ⟨-, hold'⟩
      · exact absurd (hs.bound t _ hold) (Nat.lt_irrefl _)
      · exact hs.distinct t t' n hold hold'
  · rcases List.mem_append.mp hc with hc | hc
    · exact hs.channels c hc
    · rw [List.mem_singleton.mp hc]
      exact ⟨rfl, [], .new channelCapacity⟩

theorem Sound.removeTopic (hs : Sound s) (topic : Topic) : Sound (removeTopic s topic) := by
  refine ⟨fun t => ?_, fun t n hn => ?_, fun t t' n hn hn' => ?_, hs.channels⟩
  · show t ∈ s.subscribed.filter _ ↔ t ∈ s.subscriptions.erase topic
    rw [List.mem_filter, AList.mem_erase, hs.topics, decide_eq_true_iff, and_comm]
  · exact hs.bound t n (Table.lookup_erase_iff.mp hn).2
  · exact hs.distinct t t' n (Table.lookup_erase_iff.mp hn).2 (Table.lookup_erase_iff.mp hn').2

/-- The driver after a message for one of its topics. -/
def sendTo (s : GossipsubDriver Topic PeerId Data) (n : Nat) (message : GossipsubMessage PeerId Data) :
    GossipsubDriver Topic PeerId Data :=
  { s with channels := s.channels.modify n fun c => c.send message }

theorem Sound.sendTo (hs : Sound s) (n : Nat) (message : GossipsubMessage PeerId Data) : Sound (sendTo s n message) := by
  refine ⟨hs.topics, fun t k hk => ?_, hs.distinct, fun c hc => ?_⟩
  · show k < (s.channels.modify n _).length
    rw [List.length_modify]
    exact hs.bound t k hk
  · obtain ⟨k, hk⟩ := List.mem_iff_getElem?.mp hc
    have hget : (s.channels.modify n fun c => c.send message)[k]? = some c := hk
    rw [List.getElem?_modify] at hget
    obtain ⟨old, hold, rfl⟩ := Option.map_eq_some_iff.mp hget
    obtain ⟨hcapacity, sent, hholds⟩ := hs.channels old (List.mem_of_getElem? hold)
    split_ifs
    · exact ⟨hcapacity, _, hholds.send message⟩
    · exact ⟨hcapacity, sent, hholds⟩

/-- **What a message does**: it is sent to the channel of its topic, or nobody could receive it. -/
theorem message_cases (s : GossipsubDriver Topic PeerId Data) (topic : Topic) (message : GossipsubMessage PeerId Data) :
    (∃ n, s.subscriptions.lookup topic = some n ∧ s.hasReceiver n = true ∧
      s.processGossipsubEvent topic message = sendTo s n message) ∨
      ((∀ n, s.subscriptions.lookup topic = some n → s.hasReceiver n = false) ∧
        s.processGossipsubEvent topic message = s) := by
  unfold GossipsubDriver.processGossipsubEvent
  rcases hn : s.subscriptions.lookup topic with _ | n
  · exact Or.inr ⟨nofun, rfl⟩
  · by_cases hreceiver : s.hasReceiver n = true
    · exact Or.inl ⟨n, rfl, hreceiver, if_pos hreceiver⟩
    · refine Or.inr ⟨?_, if_neg hreceiver⟩
      rintro _ ⟨⟩
      exact Bool.eq_false_iff.mpr hreceiver

end Sound

/-! ## A stream over a run -/

section Stream
variable {s : GossipsubDriver Topic PeerId Data} {stream : GossipStream} {hearing : Hearing Topic PeerId Data}
  {unread : List (GossipsubMessage PeerId Data)} {items : List (Received (GossipsubMessage PeerId Data))} {i : Nat}

/-- What a stream has yet to read, and whether its channel has a sender. -/
structure Reading (s : GossipsubDriver Topic PeerId Data) (stream : GossipStream) (hearing : Hearing Topic PeerId Data)
    (unread : List (GossipsubMessage PeerId Data)) : Prop where
  holds : ∃ c sent, s.channels[stream.channel]? = some c ∧ c.Holds sent ∧ stream.next ≤ sent.length ∧
    unread = sent.drop stream.next
  sender : hearing.isOpen = true → s.subscriptions.lookup hearing.topic = some stream.channel
  closed : hearing.isOpen = false → ∀ topic, s.subscriptions.lookup topic ≠ some stream.channel

/-- What a stream has yielded accounts for what has arrived for it. -/
def Follows (s : GossipsubDriver Topic PeerId Data) (i : Nat) (hearing : Hearing Topic PeerId Data)
    (items : List (Received (GossipsubMessage PeerId Data))) : Prop :=
  ∃ stream unread, s.streams[i]? = some stream ∧ Accounts items hearing.messages unread ∧
    if stream.alive then Reading s stream hearing unread else hearing.isOpen = false

theorem Reading.lt (h : Reading s stream hearing unread) : stream.channel < s.channels.length := by
  obtain ⟨c, sent, hc, -⟩ := h.holds
  exact (List.getElem?_eq_some_iff.mp hc).1

/-- If no topic has the channel that a stream reads then no message is for it any more. -/
theorem Follows.of_lookup_none (h : Follows s i hearing items) (hnone : s.subscriptions.lookup hearing.topic = none) :
    hearing.isOpen = false := by
  obtain ⟨stream, unread, -, -, hreading⟩ := h
  split_ifs at hreading
  · by_contra hopen
    cases hnone.symm.trans (hreading.sender (Bool.not_eq_false _ ▸ hopen))
  · exact hreading

theorem Follows.openStream (h : Follows s i hearing items) (n : Nat) : Follows (s.openStream n).1 i hearing items := by
  obtain ⟨stream, unread, hstream, haccounts, hreading⟩ := h
  refine ⟨stream, unread, ?_, haccounts, ?_⟩
  · exact (List.getElem?_append_left (List.getElem?_eq_some_iff.mp hstream).1).trans hstream
  · split_ifs at hreading ⊢
    · exact ⟨hreading.holds, hreading.sender, hreading.closed⟩
    · exact hreading

theorem Follows.addTopic (h : Follows s i hearing items) {topic : Topic} (hnew : topic ∉ s.subscriptions) :
    Follows (addTopic s topic) i hearing items := by
  obtain ⟨stream, unread, hstream, haccounts, hreading⟩ := h
  refine ⟨stream, unread, hstream, haccounts, ?_⟩
  split_ifs at hreading ⊢
  · obtain ⟨c, sent, hc, hholds⟩ := hreading.holds
    refine ⟨⟨c, sent, (List.getElem?_append_left hreading.lt).trans hc, hholds⟩, fun hopen => ?_, fun hopen t ht => ?_⟩
    · have hlookup := hreading.sender hopen
      refine (AList.lookup_insert_ne fun heq => hnew ?_).trans hlookup
      exact heq ▸ Table.mem_of_lookup hlookup
    · rcases Table.lookup_insert_iff.mp ht with ⟨-, hlast⟩ | ⟨-, hold⟩
      · exact absurd (hlast ▸ hreading.lt) (Nat.lt_irrefl _)
      · exact hreading.closed hopen t hold
  · exact hreading

theorem Follows.removeTopic (h : Follows s i hearing items) (hs : Sound s) (topic : Topic) :
    Follows (removeTopic s topic) i (hearing.next i (.action (.unsubscribe topic))) items := by
  obtain ⟨stream, unread, hstream, haccounts, hreading⟩ := h
  have hkeeps : (hearing.next i (.action (.unsubscribe topic))).messages = hearing.messages := by
    simp only [Hearing.next]
    split_ifs <;> rfl
  refine ⟨stream, unread, hstream, hkeeps ▸ haccounts, ?_⟩
  split_ifs at hreading ⊢
  · simp only [Hearing.next]
    split_ifs with htopic
    · refine ⟨hreading.holds, nofun, fun _ t ht => ?_⟩
      obtain ⟨hne, hold⟩ := Table.lookup_erase_iff.mp ht
      by_cases hopen : hearing.isOpen = true
      · exact hne ((hs.distinct t hearing.topic _ hold (hreading.sender hopen)).trans htopic.symm)
      · exact hreading.closed (Bool.eq_false_iff.mpr hopen) t hold
    · refine ⟨hreading.holds, fun hopen => ?_, fun hopen t ht => ?_⟩
      · exact (AList.lookup_erase_ne (Ne.symm htopic)).trans (hreading.sender hopen)
      · exact hreading.closed hopen t (Table.lookup_erase_iff.mp ht).2
  · simp only [Hearing.next]
    split_ifs
    · rfl
    · exact hreading

/-- Unsubscribing from a topic without subscription changes nothing. -/
theorem Follows.next_of_lookup_none (h : Follows s i hearing items) {topic : Topic}
    (hnone : s.subscriptions.lookup topic = none) : hearing.next i (.action (.unsubscribe topic)) = hearing := by
  simp only [Hearing.next]
  split_ifs with htopic
  · have hclosed := h.of_lookup_none (htopic ▸ hnone)
    cases hearing
    rw [← hclosed]
  · rfl

/-- A message that nobody could receive is not for the stream. -/
theorem Follows.ignore (h : Follows s i hearing items) {topic : Topic} {message : GossipsubMessage PeerId Data}
    (hnobody : ∀ n, s.subscriptions.lookup topic = some n → s.hasReceiver n = false) :
    hearing.next i (.message topic message) = hearing := by
  obtain ⟨stream, unread, hstream, -, hreading⟩ := h
  refine if_neg ?_
  rintro ⟨hopen, rfl⟩
  split_ifs at hreading with halive
  · have hfalse := hnobody _ (hreading.sender hopen)
    have htrue : s.hasReceiver stream.channel = true :=
      List.any_eq_true.mpr ⟨stream, List.mem_of_getElem? hstream, by simp [halive]⟩
    cases hfalse.symm.trans htrue
  · cases hreading.symm.trans hopen

/-- A message is for the stream exactly if it is sent to its channel. -/
theorem Follows.sendTo (h : Follows s i hearing items) (hs : Sound s) {topic : Topic} {n : Nat}
    (hn : s.subscriptions.lookup topic = some n) (message : GossipsubMessage PeerId Data) :
    Follows (sendTo s n message) i (hearing.next i (.message topic message)) items := by
  obtain ⟨stream, unread, hstream, haccounts, hreading⟩ := h
  split_ifs at hreading with halive
  · obtain ⟨c, sent, hc, hholds, hnext, rfl⟩ := hreading.holds
    have hget : (s.channels.modify n fun c => c.send message)[stream.channel]? =
        some (if n = stream.channel then c.send message else c) := by
      rw [List.getElem?_modify, hc]
      rfl
    by_cases hfor : hearing.isOpen = true ∧ topic = hearing.topic
    · obtain ⟨hopen, rfl⟩ := hfor
      obtain rfl := Option.some.inj ((hreading.sender hopen).symm.trans hn)
      rw [if_pos rfl] at hget
      refine ⟨stream, sent.drop stream.next ++ [message], hstream, ?_, ?_⟩
      · simp only [Hearing.next, hopen, and_self, if_true]
        exact haccounts.send message
      · rw [if_pos halive]
        simp only [Hearing.next, hopen, and_self, if_true]
        refine ⟨⟨_, _, hget, hholds.send message, ?_, ?_⟩, fun _ => hreading.sender hopen, nofun⟩
        · rw [List.length_append]
          exact hnext.trans (Nat.le_add_right _ _)
        · exact (List.drop_append_of_le_length hnext).symm
    · have hother : n ≠ stream.channel := by
        rintro rfl
        by_cases hopen : hearing.isOpen = true
        · exact hfor ⟨hopen, hs.distinct _ _ _ hn (hreading.sender hopen)⟩
        · exact hreading.closed (Bool.eq_false_iff.mpr hopen) topic hn
      rw [if_neg hother] at hget
      have hsame : hearing.next i (.message topic message) = hearing := if_neg hfor
      rw [hsame]
      refine ⟨stream, _, hstream, haccounts, ?_⟩
      rw [if_pos halive]
      exact ⟨⟨c, sent, hget, hholds, hnext, rfl⟩, hreading.sender, hreading.closed⟩
  · have hsame : hearing.next i (.message topic message) = hearing :=
      if_neg fun hfor => by cases hreading.symm.trans hfor.1
    rw [hsame]
    refine ⟨stream, unread, hstream, haccounts, ?_⟩
    rw [if_neg halive]
    exact hreading

theorem Follows.dropStream (h : Follows s i hearing items) (j : Nat) :
    Follows (s.dropStream j) i (hearing.next i (.dropStream j)) items := by
  obtain ⟨stream, unread, hstream, haccounts, hreading⟩ := h
  have hget : (s.dropStream j).streams[i]? = some (if j = i then { stream with alive := false } else stream) := by
    show (s.streams.modify j _)[i]? = _
    rw [List.getElem?_modify, hstream]
    rfl
  by_cases hj : j = i
  · simp only [Hearing.next, if_pos hj]
    rw [if_pos hj] at hget
    exact ⟨_, unread, hget, haccounts, rfl⟩
  · simp only [Hearing.next, if_neg hj]
    rw [if_neg hj] at hget
    refine ⟨stream, unread, hget, haccounts, ?_⟩
    split_ifs at hreading ⊢
    · exact ⟨hreading.holds, hreading.sender, hreading.closed⟩
    · exact hreading

theorem hasSender_of_lookup {topic : Topic} {n : Nat} (hn : s.subscriptions.lookup topic = some n) :
    s.hasSender n = true :=
  List.any_eq_true.mpr ⟨⟨topic, n⟩, AList.mem_lookup_iff.mp hn, decide_eq_true rfl⟩

/-- Polling a stream changes nothing but its position. -/
theorem pollNext_state (s : GossipsubDriver Topic PeerId Data) (j : Nat) :
    (s.pollNext j).1 = s ∨ ∃ stream, (s.pollNext j).1 = { s with streams := s.streams.set j stream } := by
  unfold GossipsubDriver.pollNext
  split
  · split
    · exact Or.inr ⟨_, rfl⟩
    · exact Or.inl rfl
  · exact Or.inl rfl

/-- Polling one stream leaves the others where they are. -/
theorem Follows.pollOther (h : Follows s i hearing items) {j : Nat} (hj : j ≠ i) :
    Follows (s.pollNext j).1 i hearing items := by
  rcases pollNext_state s j with hsame | ⟨stream', hset⟩
  · rw [hsame]
    exact h
  · obtain ⟨stream, unread, hstream, haccounts, hreading⟩ := h
    rw [hset]
    refine ⟨stream, unread, ?_, haccounts, ?_⟩
    · exact (List.getElem?_set_ne hj).trans hstream
    · split_ifs at hreading ⊢
      · exact ⟨hreading.holds, hreading.sender, hreading.closed⟩
      · exact hreading

/-- **One poll of a stream**: it yields what is next, or it has read everything and waits or ends, or it was dropped. -/
theorem Follows.poll (h : Follows s i hearing items) (hs : Sound s) :
    (∃ item, (s.pollNext i).2 = .item item ∧ Follows (s.pollNext i).1 i hearing (items ++ [item]) ∧
        ((∃ missed, item = .lagged missed) → (∀ missed, .lagged missed ∉ items) →
          items.length + channelCapacity < hearing.messages.length)) ∨
      (s.pollNext i = (s, .nothing)) ∨
      (s.pollNext i = (s, .ended) ∧ Accounts items hearing.messages [] ∧ hearing.isOpen = false) := by
  obtain ⟨⟨n, next, alive⟩, unread, hstream, haccounts, hreading⟩ := h
  cases alive with
  | false => exact Or.inr (Or.inl (by simp only [GossipsubDriver.pollNext, hstream]))
  | true =>
    rw [if_pos rfl] at hreading
    obtain ⟨c, sent, hc, hholds, hnext, rfl⟩ := hreading.holds
    obtain ⟨hcapacity, -⟩ := hs.channels c (List.mem_of_getElem? hc)
    rcases hholds.recv (hcapacity ▸ by decide) hnext with ⟨hnone, hend⟩ | ⟨item, next', hsome, hnext', hreads, hlag⟩
    · have hpoll : s.pollNext i = (s, if s.hasSender n then .nothing else .ended) := by
        simp only [GossipsubDriver.pollNext, hstream, hc, Option.bind_some, hnone]
      by_cases hsender : s.hasSender n = true
      · exact Or.inr (Or.inl (hpoll.trans (by rw [if_pos hsender])))
      · refine Or.inr (Or.inr ⟨hpoll.trans (by rw [if_neg hsender]), ?_, ?_⟩)
        · have hread : sent.drop next = [] := List.drop_eq_nil_of_le hend.ge
          exact hread ▸ haccounts
        · by_contra hopen
          exact hsender (hasSender_of_lookup (hreading.sender (Bool.not_eq_false _ ▸ hopen)))
    · have hpoll : s.pollNext i = ({ s with streams := s.streams.set i ⟨n, next', true⟩ }, .item item) := by
        simp only [GossipsubDriver.pollNext, hstream, hc, Option.bind_some, hsome]
      refine Or.inl ⟨item, congrArg Prod.snd hpoll, ?_, fun hmissed hvalues => ?_⟩
      · rw [hpoll]
        refine ⟨⟨n, next', true⟩, _, List.getElem?_set_self (List.getElem?_eq_some_iff.mp hstream).1,
          haccounts.read hreads, ?_⟩
        exact ⟨⟨c, sent, hc, hholds, hnext', rfl⟩, hreading.sender, hreading.closed⟩
      · obtain ⟨values, rfl, hmessages⟩ := haccounts.of_values hvalues
        have hlate := hlag hmissed
        rw [hcapacity] at hlate
        rw [hmessages, List.length_append, List.length_map, List.length_drop]
        omega

end Stream

/-! ## Over runs -/

section Run
variable {s : GossipsubDriver Topic PeerId Data} {i : Nat} {h : List (GossipsubEvent Topic PeerId Data)}

/-- A stream has not been opened, or what it has yielded accounts for what has arrived for it. -/
def Tracks (i : Nat) (s : GossipsubDriver Topic PeerId Data) (h : List (GossipsubEvent Topic PeerId Data)) : Prop :=
  match heard i h with
  | none => s.streams.length ≤ i ∧ yielded i h = []
  | some hearing => Follows s i hearing (yielded i h)

theorem yielded_cons (e : GossipsubEvent Topic PeerId Data) :
    yielded i (e :: h) = yielded i h ++ (yielded? i e).toList := filterMap_reverse_cons _ e h

/-- A step that neither opens the stream nor yields one of its items. -/
theorem Tracks.quiet {e : GossipsubEvent Topic PeerId Data} (ht : Tracks i e.pre h) (hopens : opened? i e = none)
    (hyields : yielded? i e = none) (hlength : e.pre.streams.length ≤ i → e.post.streams.length ≤ i)
    (hfollows : ∀ hearing, heard i h = some hearing → Follows e.pre i hearing (yielded i h) →
      Follows e.post i (hearing.next i e.input) (yielded i h)) : Tracks i e.post (e :: h) := by
  unfold Tracks at *
  rw [yielded_cons, hyields, Option.toList_none, List.append_nil]
  rcases hheard : heard i h with _ | hearing
  · simp only [heard, hheard, hopens] at ht ⊢
    exact ⟨hlength ht.1, ht.2⟩
  · simp only [heard, hheard] at ht ⊢
    exact hfollows hearing hheard ht

/-- A stream is opened: it has nothing to read yet. -/
theorem Tracks.opens {topic : Topic} {n : Nat} (hs : Sound s) (ht : Tracks i s h)
    (hn : s.subscriptions.lookup topic = some n) {pre : GossipsubDriver Topic PeerId Data} :
    Tracks i (s.openStream n).1
      (⟨pre, .action (.subscribe topic (.ok ())), .subscribed s.streams.length, (s.openStream n).1⟩ :: h) := by
  unfold Tracks at *
  rw [yielded_cons, show yielded? i _ = none from rfl, Option.toList_none, List.append_nil]
  rcases hheard : heard i h with _ | hearing
  · simp only [heard, hheard, opened?] at ht ⊢
    obtain ⟨hlength, hnothing⟩ := ht
    by_cases hi : s.streams.length = i
    · simp only [if_pos hi]
      have hbound := hs.bound topic n hn
      obtain ⟨c, hc⟩ : ∃ c, s.channels[n]? = some c := ⟨s.channels[n], List.getElem?_eq_getElem hbound⟩
      obtain ⟨-, sent, hholds⟩ := hs.channels c (List.mem_of_getElem? hc)
      refine ⟨⟨n, c.tail, true⟩, [], ?_, ?_, ?_⟩
      · show (s.streams ++ [_])[i]? = _
        rw [← hi, List.getElem?_concat_length, hc]
        rfl
      · rw [hnothing]
        rfl
      · refine ⟨⟨c, sent, hc, hholds, hholds.tail.le, ?_⟩, fun _ => hn, nofun⟩
        exact (List.drop_eq_nil_of_le hholds.tail.ge).symm
    · simp only [if_neg hi]
      refine ⟨?_, hnothing⟩
      show (s.streams ++ [_]).length ≤ i
      rw [List.length_append, List.length_singleton]
      omega
  · simp only [heard, hheard] at ht ⊢
    exact ht.openStream n

/-- An action keeps the driver and the streams in order. -/
theorem Tracks.action (hs : Sound s) (action : GossipsubAction Topic Data) :
    Sound (gossipsub.event s (.action action)).post ∧ (gossipsub.event s (.action action)).output ≠ .panicked ∧
      ∀ i h, Tracks i s h → Tracks i (gossipsub.event s (.action action)).post (gossipsub.event s (.action action) :: h) := by
  rcases hs.action action with ⟨output, hstep, hpanic, hsub, hitem, hunsub⟩ | ⟨topic, n, rfl, hn, hstep⟩ |
    ⟨topic, rfl, hnew, hstep⟩ | ⟨topic, rfl, hstep⟩
  · have hevent : gossipsub.event s (.action action) = ⟨s, .action action, output, s⟩ := by
      simp [Machine.event, gossipsub, hstep]
    rw [hevent]
    refine ⟨hs, hpanic, fun i h ht => ht.quiet ?_ rfl id fun hearing _ hfollows => ?_⟩
    · cases action with
      | subscribe topic answer =>
        cases output with
        | subscribed j => exact absurd rfl (hsub j)
        | _ => rfl
      | _ => rfl
    · cases action with
      | unsubscribe topic => exact (hfollows.next_of_lookup_none (hunsub topic rfl)).symm ▸ hfollows
      | _ => exact hfollows
  · have hevent : gossipsub.event s (.action (.subscribe topic (.ok ()))) =
        ⟨s, .action (.subscribe topic (.ok ())), .subscribed s.streams.length, (s.openStream n).1⟩ := by
      simp [Machine.event, gossipsub, hstep, GossipsubDriver.openStream]
    rw [hevent]
    exact ⟨hs.openStream n, nofun, fun i h ht => ht.opens hs hn⟩
  · have hevent : gossipsub.event s (.action (.subscribe topic (.ok ()))) = ⟨s, .action (.subscribe topic (.ok ())),
        .subscribed s.streams.length, ((addTopic s topic).openStream s.channels.length).1⟩ := by
      simp only [Machine.event, gossipsub, hstep]
      rfl
    rw [hevent]
    refine ⟨(hs.addTopic topic).openStream _, nofun, fun i h ht => ?_⟩
    have hadded : Tracks i (addTopic s topic) h := by
      unfold Tracks at *
      rcases hheard : heard i h with _ | hearing
      · simp only [hheard] at ht ⊢
        exact ht
      · simp only [hheard] at ht ⊢
        exact ht.addTopic hnew
    exact hadded.opens (hs.addTopic topic) (AList.lookup_insert s.subscriptions)
  · have hevent : gossipsub.event s (.action (.unsubscribe topic)) =
        ⟨s, .action (.unsubscribe topic), .unsubscribed, removeTopic s topic⟩ := by
      simp [Machine.event, gossipsub, hstep]
    rw [hevent]
    exact ⟨hs.removeTopic topic, nofun, fun i h ht =>
      ht.quiet rfl rfl id fun hearing _ hfollows => hfollows.removeTopic hs topic⟩

/-- A message keeps them in order. -/
theorem Tracks.message (hs : Sound s) (topic : Topic) (message : GossipsubMessage PeerId Data) :
    Sound (s.processGossipsubEvent topic message) ∧ ∀ i h, Tracks i s h →
      Tracks i (s.processGossipsubEvent topic message) (gossipsub.event s (.message topic message) :: h) := by
  rcases message_cases s topic message with ⟨n, hn, -, hstep⟩ | ⟨hnobody, hstep⟩
  · have hevent : gossipsub.event s (.message topic message) =
        ⟨s, .message topic message, .nothing, sendTo s n message⟩ := by simp [Machine.event, gossipsub, hstep]
    rw [hstep, hevent]
    exact ⟨hs.sendTo n message, fun i h ht => ht.quiet rfl rfl id fun hearing _ hfollows => hfollows.sendTo hs hn message⟩
  · have hevent : gossipsub.event s (.message topic message) = ⟨s, .message topic message, .nothing, s⟩ := by
      simp [Machine.event, gossipsub, hstep]
    rw [hstep, hevent]
    exact ⟨hs, fun i h ht => ht.quiet rfl rfl id fun hearing _ hfollows => (hfollows.ignore hnobody).symm ▸ hfollows⟩

/-- Polls and drops keep the driver in order. -/
theorem Sound.pollNext (hs : Sound s) (j : Nat) : Sound (s.pollNext j).1 := by
  rcases pollNext_state s j with hsame | ⟨stream, hset⟩
  · rw [hsame]
    exact hs
  · rw [hset]
    exact ⟨hs.topics, hs.bound, hs.distinct, hs.channels⟩

theorem Sound.dropStream (hs : Sound s) (j : Nat) : Sound (s.dropStream j) :=
  ⟨hs.topics, hs.bound, hs.distinct, hs.channels⟩

theorem length_pollNext (s : GossipsubDriver Topic PeerId Data) (j : Nat) :
    (s.pollNext j).1.streams.length = s.streams.length := by
  rcases pollNext_state s j with hsame | ⟨stream, hset⟩
  · rw [hsame]
  · rw [hset]
    exact List.length_set

/-- A stream that has not been opened yields nothing. -/
theorem pollNext_of_length_le (hi : s.streams.length ≤ i) : s.pollNext i = (s, .nothing) := by
  simp only [GossipsubDriver.pollNext, List.getElem?_eq_none hi]

/-- A poll keeps the streams in order. -/
theorem Tracks.pollNext (hs : Sound s) (ht : Tracks i s h) (j : Nat) :
    Tracks i (s.pollNext j).1 (gossipsub.event s (.pollNext j) :: h) := by
  have hopens : opened? i (gossipsub.event s (.pollNext j)) = none := rfl
  by_cases hj : j = i
  · subst hj
    unfold Tracks at *
    rcases hheard : heard j h with _ | hearing
    · simp only [heard, hheard, hopens] at ht ⊢
      have hevent : gossipsub.event s (.pollNext j) = ⟨s, .pollNext j, .nothing, s⟩ := by
        simp [Machine.event, gossipsub, pollNext_of_length_le ht.1]
      rw [yielded_cons, hevent, length_pollNext]
      exact ⟨ht.1, by rw [ht.2]; rfl⟩
    · simp only [heard, hheard] at ht ⊢
      rw [yielded_cons]
      rcases ht.poll hs with ⟨item, hitem, hfollows, -⟩ | hnothing | ⟨hended, -⟩
      · have hyields : yielded? j (gossipsub.event s (.pollNext j)) = some item := by
          simp only [yielded?, Machine.event, gossipsub, hitem, if_pos]
        rw [hyields]
        exact hfollows
      · have hevent : gossipsub.event s (.pollNext j) = ⟨s, .pollNext j, .nothing, s⟩ := by
          simp [Machine.event, gossipsub, hnothing]
        rw [hevent, hnothing]
        exact (List.append_nil (yielded j h)).symm ▸ ht
      · have hevent : gossipsub.event s (.pollNext j) = ⟨s, .pollNext j, .ended, s⟩ := by
          simp [Machine.event, gossipsub, hended]
        rw [hevent, hended]
        exact (List.append_nil (yielded j h)).symm ▸ ht
  · have hyields : yielded? i (gossipsub.event s (.pollNext j)) = none := by
      unfold yielded?
      split
      · next k item hk _ =>
        cases hk
        exact if_neg hj
      · rfl
    exact ht.quiet hopens hyields (fun hle => (length_pollNext s j).trans_le hle) fun hearing _ hfollows =>
      hfollows.pollOther hj

theorem Tracks.dropStream (ht : Tracks i s h) (j : Nat) :
    Tracks i (s.dropStream j) (gossipsub.event s (.dropStream j) :: h) := by
  have hevent : gossipsub.event s (.dropStream j) = ⟨s, .dropStream j, .nothing, s.dropStream j⟩ := rfl
  rw [hevent]
  refine ht.quiet rfl rfl (fun hle => ?_) fun hearing _ hfollows => hfollows.dropStream j
  show (s.streams.modify j _).length ≤ i
  rwa [List.length_modify]

/-- **The step.** Whatever happens, the driver agrees with the behaviour and every stream with what has arrived. -/
theorem Tracks.step (hs : Sound s) (input : GossipsubInput Topic PeerId Data) :
    Sound (gossipsub.event s input).post ∧ (gossipsub.event s input).output ≠ .panicked ∧
      ∀ i h, Tracks i s h → Tracks i (gossipsub.event s input).post (gossipsub.event s input :: h) := by
  cases input with
  | action action => exact Tracks.action hs action
  | message topic message =>
    obtain ⟨hsound, htracks⟩ := Tracks.message hs topic message
    exact ⟨hsound, nofun, htracks⟩
  | pollNext j =>
    refine ⟨hs.pollNext j, ?_, fun i h ht => ht.pollNext hs j⟩
    show (s.pollNext j).2 ≠ .panicked
    unfold GossipsubDriver.pollNext
    split
    · split
      · nofun
      · split_ifs <;> nofun
    · nofun
  | dropStream j => exact ⟨hs.dropStream j, nofun, fun i h ht => ht.dropStream j⟩

theorem Sound.initial : Sound ({} : GossipsubDriver Topic PeerId Data) := by
  refine ⟨fun topic => ?_, fun topic n hn => ?_, fun topic topic' n hn _ => ?_, fun c hc => ?_⟩
  · exact iff_of_false List.not_mem_nil (AList.notMem_empty topic)
  · cases hn
  · cases hn
  · cases hc

/-- The state of a run with the streams that it has. -/
theorem run_tracks (inputs : List (GossipsubInput Topic PeerId Data)) :
    Sound (gossipsub.run ({} : GossipsubDriver Topic PeerId Data) inputs).state ∧
      ∀ i, Tracks i (gossipsub.run {} inputs).state (gossipsub.run {} inputs).history := by
  refine gossipsub.run_invariant (fun v => Sound v.state ∧ ∀ i, Tracks i v.state v.history) ⟨.initial, ?_⟩ ?_ inputs
  · exact fun i => ⟨Nat.zero_le i, rfl⟩
  · rintro v input ⟨hs, ht⟩
    obtain ⟨hsound, -, htracks⟩ := Tracks.step hs input
    exact ⟨hsound, fun i => htracks i v.history (ht i)⟩

/-- A stream ends when someone has unsubscribed from its topic and it has read everything. -/
def EndsRead (e : GossipsubEvent Topic PeerId Data) (h : List (GossipsubEvent Topic PeerId Data)) : Prop :=
  ∀ i, e.input = .pollNext i → e.output = .ended →
    ∃ hearing, heard i h = some hearing ∧ hearing.isOpen = false ∧ Accounts (yielded i h) hearing.messages []

/-- **Subscriptions.** The driver has a channel for exactly the topics that the behaviour is subscribed to, so that it
never panics, and what a stream has yielded accounts for all messages of its topic that have arrived since it was opened
and until someone unsubscribed, in order and with every gap counted; it ends when nothing is unread. -/
theorem streams_account (inputs : List (GossipsubInput Topic PeerId Data)) :
    (∀ topic, topic ∈ (gossipsub.run ({} : GossipsubDriver Topic PeerId Data) inputs).state.subscribed ↔
      topic ∈ (gossipsub.run ({} : GossipsubDriver Topic PeerId Data) inputs).state.subscriptions) ∧
    (∀ i hearing, heard i (gossipsub.run ({} : GossipsubDriver Topic PeerId Data) inputs).history = some hearing →
      ∃ unread, Accounts (yielded i (gossipsub.run ({} : GossipsubDriver Topic PeerId Data) inputs).history)
        hearing.messages unread) ∧
    Along (fun e h => e.output ≠ .panicked ∧ EndsRead e h)
      (gossipsub.run ({} : GossipsubDriver Topic PeerId Data) inputs).history := by
  obtain ⟨hs, ht⟩ := run_tracks inputs
  refine ⟨hs.topics, fun i hearing hheard => ?_, ?_⟩
  · have htracks := ht i
    simp only [Tracks, hheard] at htracks
    obtain ⟨stream, unread, -, haccounts, -⟩ := htracks
    exact ⟨unread, haccounts⟩
  · refine (gossipsub.along_of_invariant (fun v => Sound v.state ∧ ∀ i, Tracks i v.state v.history) (fun _ _ => True) _
      ⟨.initial, fun i => ⟨Nat.zero_le i, rfl⟩⟩ ?_ inputs (along_true _)).2
    rintro v input ⟨hs, ht⟩ -
    obtain ⟨hsound, hpanic, htracks⟩ := Tracks.step hs input
    refine ⟨⟨hsound, fun i => htracks i v.history (ht i)⟩, hpanic, ?_⟩
    rintro i rfl hended
    have hended : (v.state.pollNext i).2 = .ended := hended
    have hi := ht i
    unfold Tracks at hi
    rcases hheard : heard i v.history with _ | hearing
    · simp only [hheard] at hi
      rw [pollNext_of_length_le hi.1] at hended
      cases hended
    · simp only [hheard] at hi
      rcases hi.poll hs with ⟨item, hitem, -⟩ | hnothing | ⟨-, haccounts, hclosed⟩
      · cases hitem.symm.trans hended
      · rw [hnothing] at hended
        cases hended
      · exact ⟨hearing, rfl, hclosed, haccounts⟩

/-! ### Streams that keep up -/

/-- When a message arrives for a stream, what it has not yielded fits into the channel with the message. -/
def keepsUp (i : Nat) (e : GossipsubEvent Topic PeerId Data) (h : List (GossipsubEvent Topic PeerId Data)) : Bool :=
  match heard i h, e.input with
  | some hearing, .message topic _ =>
    !(hearing.isOpen && decide (topic = hearing.topic)) ||
      decide (hearing.messages.length < (yielded i h).length + channelCapacity)
  | _, _ => true

/-- Nothing has been missed and no more is unread than the channel holds. -/
def Current (i : Nat) (h : List (GossipsubEvent Topic PeerId Data)) : Prop :=
  (∀ missed, .lagged missed ∉ yielded i h) ∧
    ∀ hearing, heard i h = some hearing → hearing.messages.length ≤ (yielded i h).length + channelCapacity

theorem Current.cons {e : GossipsubEvent Topic PeerId Data} (hcurrent : Current i h) (hyields : yielded? i e = none)
    (hlength : ∀ hearing, heard i (e :: h) = some hearing → hearing.messages = [] ∨
      (∃ before, heard i h = some before ∧ hearing.messages = before.messages) ∨
      hearing.messages.length ≤ (yielded i h).length + channelCapacity) : Current i (e :: h) := by
  unfold Current
  rw [yielded_cons, hyields, Option.toList_none, List.append_nil]
  refine ⟨hcurrent.1, fun hearing hheard => ?_⟩
  rcases hlength hearing hheard with hnone | ⟨before, hbefore, hsame⟩ | hle
  · rw [hnone]
    exact Nat.zero_le _
  · rw [hsame]
    exact hcurrent.2 before hbefore
  · exact hle

/-- A stream that is polled and has missed nothing yet misses nothing now. -/
theorem Current.poll (hs : Sound s) (ht : Tracks i s h) (hcurrent : Current i h) :
    Current i (gossipsub.event s (.pollNext i) :: h) := by
  unfold Tracks at ht
  rcases hheard : heard i h with _ | hearing
  · simp only [hheard] at ht
    have hevent : gossipsub.event s (.pollNext i) = ⟨s, .pollNext i, .nothing, s⟩ := by
      simp [Machine.event, gossipsub, pollNext_of_length_le ht.1]
    rw [hevent]
    refine hcurrent.cons rfl fun hearing hopened => ?_
    simp only [heard, hheard] at hopened
    cases hopened
  · simp only [hheard] at ht
    have hsame : heard i (gossipsub.event s (.pollNext i) :: h) = some hearing := by simp only [heard, hheard]; rfl
    rcases ht.poll hs with ⟨item, hitem, -, hlag⟩ | hnothing | ⟨hended, -⟩
    · have hyields : yielded? i (gossipsub.event s (.pollNext i)) = some item := by
        simp only [yielded?, Machine.event, gossipsub, hitem, if_pos]
      unfold Current
      rw [yielded_cons, hyields, hsame]
      refine ⟨fun missed hmem => ?_, fun _ hh => ?_⟩
      · rcases List.mem_append.mp hmem with hold | hnew
        · exact hcurrent.1 missed hold
        · have hlate := hlag ⟨missed, (List.mem_singleton.mp hnew).symm⟩ hcurrent.1
          exact absurd (hcurrent.2 hearing hheard) (not_le.mpr hlate)
      · obtain rfl := Option.some.inj hh
        have hle := hcurrent.2 hearing hheard
        rw [List.length_append]
        omega
    · have hevent : gossipsub.event s (.pollNext i) = ⟨s, .pollNext i, .nothing, s⟩ := by
        simp [Machine.event, gossipsub, hnothing]
      rw [hevent] at hsame ⊢
      refine hcurrent.cons rfl fun after hafter => Or.inr (Or.inl ⟨hearing, hheard, ?_⟩)
      rw [Option.some.inj (hsame.symm.trans hafter)]
    · have hevent : gossipsub.event s (.pollNext i) = ⟨s, .pollNext i, .ended, s⟩ := by
        simp [Machine.event, gossipsub, hended]
      rw [hevent] at hsame ⊢
      refine hcurrent.cons rfl fun after hafter => Or.inr (Or.inl ⟨hearing, hheard, ?_⟩)
      rw [Option.some.inj (hsame.symm.trans hafter)]

/-- Only a message for the stream changes what has arrived for it. -/
theorem Hearing.messages_next (hearing : Hearing Topic PeerId Data) (input : GossipsubInput Topic PeerId Data) :
    (hearing.next i input).messages = hearing.messages ∨
      ∃ topic message, input = .message topic message ∧ hearing.isOpen = true ∧ topic = hearing.topic ∧
        (hearing.next i input).messages = hearing.messages ++ [message] := by
  cases input with
  | action action =>
    refine Or.inl ?_
    cases action with
    | unsubscribe topic =>
      simp only [Hearing.next]
      split_ifs <;> rfl
    | _ => rfl
  | message topic message =>
    by_cases hfor : hearing.isOpen = true ∧ topic = hearing.topic
    · exact Or.inr ⟨topic, message, rfl, hfor.1, hfor.2, by simp only [Hearing.next, if_pos hfor]⟩
    · exact Or.inl (by simp only [Hearing.next, if_neg hfor])
  | pollNext j => exact Or.inl rfl
  | dropStream j =>
    refine Or.inl ?_
    simp only [Hearing.next]
    split_ifs <;> rfl

/-- A stream that keeps up misses nothing. -/
theorem Current.step (hs : Sound s) (ht : Tracks i s h) (hcurrent : Current i h)
    (input : GossipsubInput Topic PeerId Data) (hkeeps : keepsUp i (gossipsub.event s input) h = true) :
    Current i (gossipsub.event s input :: h) := by
  by_cases hpoll : input = .pollNext i
  · rw [hpoll]
    exact hcurrent.poll hs ht
  · have hyields : yielded? i (gossipsub.event s input) = none := by
      unfold yielded?
      split
      · next j item hj _ =>
        have hinput : input = .pollNext j := hj
        exact if_neg fun (heq : j = i) => hpoll (heq ▸ hinput)
      · rfl
    refine hcurrent.cons hyields fun after hafter => ?_
    rcases hheard : heard i h with _ | hearing
    · refine Or.inl ?_
      simp only [heard, hheard, opened?] at hafter
      split at hafter
      · split_ifs at hafter
        rw [← Option.some.inj hafter]
      · cases hafter
    · simp only [heard, hheard] at hafter
      rw [← Option.some.inj hafter]
      rcases hearing.messages_next input with hsame | ⟨topic, message, rfl, hopen, rfl, hmore⟩
      · exact Or.inr (Or.inl ⟨hearing, rfl, hsame⟩)
      · refine Or.inr (Or.inr ?_)
        have hroom : hearing.messages.length < (yielded i h).length + channelCapacity := by
          simpa [keepsUp, hheard, hopen] using hkeeps
        show (hearing.next i (.message hearing.topic message)).messages.length ≤ _
        rw [hmore, List.length_append, List.length_singleton]
        exact hroom

/-- **A stream that keeps up** with its topic yields every message, in order. -/
theorem streams_keep_up (i : Nat) (inputs : List (GossipsubInput Topic PeerId Data))
    (hkeeps : Along (fun e h => keepsUp i e h = true)
      (gossipsub.run ({} : GossipsubDriver Topic PeerId Data) inputs).history)
    (hearing : Hearing Topic PeerId Data)
    (hheard : heard i (gossipsub.run ({} : GossipsubDriver Topic PeerId Data) inputs).history = some hearing) :
    ∃ values unread, hearing.messages = values ++ unread ∧
      yielded i (gossipsub.run ({} : GossipsubDriver Topic PeerId Data) inputs).history = values.map .value := by
  obtain ⟨⟨-, ht, hcurrent⟩, -⟩ := gossipsub.along_of_invariant
    (fun v => Sound v.state ∧ Tracks i v.state v.history ∧ Current i v.history) (fun e h => keepsUp i e h = true)
    (fun _ _ => True) ⟨.initial, ⟨Nat.zero_le i, rfl⟩, nofun, nofun⟩ (fun v input ⟨hs, ht, hcurrent⟩ hkeeps => by
      obtain ⟨hsound, -, htracks⟩ := Tracks.step hs input
      exact ⟨⟨hsound, htracks i v.history ht, hcurrent.step hs ht input hkeeps⟩, trivial⟩) inputs hkeeps
  simp only [Tracks, hheard] at ht
  obtain ⟨stream, unread, -, haccounts, -⟩ := ht
  obtain ⟨values, hyielded, hmessages⟩ := haccounts.of_values hcurrent.1
  exact ⟨values, unread, hmessages, hyielded⟩

/-- A subscriber reads one of two messages before someone unsubscribes. -/
def chat : List (GossipsubInput Nat Nat Nat) :=
  [.action (.subscribe 0 (.ok ())), .message 0 ⟨1, 10⟩, .message 1 ⟨1, 11⟩, .pollNext 0, .message 0 ⟨2, 12⟩,
    .action (.unsubscribe 0), .message 0 ⟨2, 13⟩]

theorem streams_keep_up_chat :
    Along (fun e h => keepsUp 0 e h = true) (gossipsub.run ({} : GossipsubDriver Nat Nat Nat) chat).history ∧
      ∃ values unread, ([⟨1, 10⟩, ⟨2, 12⟩] : List (GossipsubMessage Nat Nat)) = values ++ unread ∧
        yielded 0 (gossipsub.run ({} : GossipsubDriver Nat Nat Nat) chat).history = values.map .value := by
  have hkeeps : Along (fun e h => keepsUp 0 e h = true)
      (gossipsub.run ({} : GossipsubDriver Nat Nat Nat) chat).history := by decide +kernel
  exact ⟨hkeeps, streams_keep_up 0 chat hkeeps ⟨0, false, [⟨1, 10⟩, ⟨2, 12⟩]⟩ rfl⟩

end Run

end Hypha.Network
