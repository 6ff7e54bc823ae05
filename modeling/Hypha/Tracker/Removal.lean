import Hypha.Tracker.Slice

/-!
# Removed workers

`remove_worker` is to give back the slice that a lost worker was processing, so that the round still covers it. The
tracker remembers the last slice of each peer across rounds, though: a peer that got nothing in this round is removed
with a slice of an earlier one, and if somebody else was handed that slice in this round it is open once more.

* `inFlight` : the slice a peer was handed last in this round;
* `ReopensInFlight`, `HandsFresh`, `HandedAgain` : what a removal reopens, that no slice of a present peer is handed to
  another one, that the slice of a removed peer is handed out again before the round ends;
* `RemovedInTime` : the removal does not come after somebody else was handed the slice of an earlier round;
* `removal_covers_iff` : these go together.
-/

namespace Hypha.Tracker

open Hypha.Lib

variable {PeerId : Type} [DecidableEq PeerId]

set_option linter.unusedSectionVars false

/-! ## The history -/

/-- Whether a call starts a round. -/
def startsRound (e : Call PeerId) : Bool := decide (e.post.rounds ≠ e.pre.rounds)

/-- The calls of the current round, newest first. The call that starts a round belongs to it. -/
def currentRound : List (Call PeerId) → List (Call PeerId)
  | [] => []
  | e :: h => if startsRound e then [e] else e :: currentRound h

/-- The slice that a peer was handed last; a removal takes it away. -/
def lastHanded (p : PeerId) : List (Call PeerId) → Option Nat
  | [] => none
  | e :: h =>
    match e.input with
    | .next q _ => if q = p then e.output.or (lastHanded p h) else lastHanded p h
    | .removeWorker q => if q = p then none else lastHanded p h

/-- The slice that a peer was handed last, in the current round. -/
def inFlight (p : PeerId) (h : List (Call PeerId)) : Option Nat := lastHanded p (currentRound h)

/-- Whether a peer was handed a slice in these calls and has not been removed since. -/
def held (p : PeerId) (x : Nat) : List (Call PeerId) → Bool
  | [] => false
  | e :: h =>
    match e.input with
    | .next q _ => decide (q = p ∧ e.output = some x) || held p x h
    | .removeWorker q => if q = p then false else held p x h

/-! ## What is asked of a call -/

/-- A removal reopens exactly the slice that the peer was handed last, if that was in this round. -/
def ReopensInFlight (e : Call PeerId) (h : List (Call PeerId)) : Prop :=
  ∀ p, e.input = .removeWorker p →
    ∀ x, e.post.isOpen x = true ↔ e.pre.isOpen x = true ∨ inFlight p h = some x

/-- A slice that a peer was handed in this round is not handed out again while that peer is present. -/
def HandsFresh (e : Call PeerId) (h : List (Call PeerId)) : Prop :=
  ∀ p order x, e.input = .next p order → e.output = some x → startsRound e = false →
    ∀ q, held q x (currentRound h) = false

/-- When a round starts, every slice that a peer removed in the round before was processing has been handed out
again. -/
def HandedAgain (e : Call PeerId) (h : List (Call PeerId)) : Prop :=
  startsRound e = true → ∀ after r before p x, h = after ++ r :: before →
    (∀ e' ∈ after, startsRound e' = false) → r.input = .removeWorker p → inFlight p before = some x →
      ∃ e' ∈ after, e'.output = some x

/-- A peer is removed with a slice of this round, or before its slice was handed out in this round. -/
def RemovedInTime (e : Call PeerId) (h : List (Call PeerId)) : Prop :=
  ∀ p x, e.input = .removeWorker p → lastHanded p h = some x → inFlight p h = some x ∨ e.pre.isOpen x = true

/-! ## What a call does -/

theorem lastHanded_currentRound {p : PeerId} {x : Nat} :
    ∀ {h : List (Call PeerId)}, lastHanded p (currentRound h) = some x → lastHanded p h = some x
  | [], hx => hx
  | e :: h, hx => by
    unfold currentRound at hx
    split_ifs at hx with hstarts
    · unfold lastHanded at hx ⊢
      split at hx
      · split_ifs at hx ⊢
        · simp only [lastHanded, Option.or_none] at hx
          rw [hx]
          rfl
        · cases hx
      · split_ifs at hx
        cases hx
    · unfold lastHanded at hx ⊢
      split at hx
      · split_ifs at hx ⊢
        · cases hout : e.output with
          | some y => rwa [hout] at hx
          | none =>
            rw [hout, Option.none_or] at hx
            exact lastHanded_currentRound hx
        · exact lastHanded_currentRound hx
      · split_ifs at hx ⊢
        exact lastHanded_currentRound hx

theorem held_of_lastHanded {p : PeerId} {x : Nat} :
    ∀ {h : List (Call PeerId)}, lastHanded p h = some x → held p x h = true
  | [], hx => by cases hx
  | e :: h, hx => by
    unfold lastHanded at hx
    unfold held
    split at hx
    · split_ifs at hx with hq
      · cases hout : e.output with
        | some y =>
          rw [hout, Option.some_or] at hx
          simp [hq, hx]
        | none =>
          rw [hout, Option.none_or] at hx
          simp [held_of_lastHanded hx]
      · simp [held_of_lastHanded hx]
    · split_ifs at hx ⊢ with hq
      exact held_of_lastHanded hx

section Step
variable {t : SliceTracker PeerId}

theorem not_isOpen_of_all (hall : ∀ s ∈ t.slices, s.processed = true) (y : Nat) : t.isOpen y = false := by
  rw [← Bool.not_eq_true, SliceTracker.isOpen_iff]
  rintro ⟨s, hs, -, hopen⟩
  rw [hall s hs] at hopen
  exact Bool.noConfusion hopen

/-- A call that hands out a slice: the round goes on and the slice was open, or no slice was and a round starts. -/
theorem next_event {peer : PeerId} {order : IterationOrder (PeerId × Nat)} {x : Nat} (hnodup : t.hashes.Nodup)
    (hout : (step t (.next peer order)).2 = some x) :
    (startsRound (machine.event t (.next peer order)) = false ∧ t.isOpen x = true ∧
        ∀ y, (step t (.next peer order)).1.isOpen y = true ↔ t.isOpen y = true ∧ y ≠ x) ∨
      startsRound (machine.event t (.next peer order)) = true ∧ (∀ y, t.isOpen y = false) ∧
        ∀ y, (step t (.next peer order)).1.isOpen y = true ↔ y ∈ t.hashes ∧ y ≠ x := by
  rcases step_next hout with hhanded | ⟨hall, hhanded⟩
  · refine Or.inl ⟨?_, (SliceTracker.isOpen_handed hhanded hnodup x).1,
      fun y => (SliceTracker.isOpen_handed hhanded hnodup y).2⟩
    exact decide_eq_false (fun hne => hne hhanded.rounds)
  · refine Or.inr ⟨?_, not_isOpen_of_all hall, fun y => ?_⟩
    · have hrounds : (step t (.next peer order)).1.rounds ≠ t.rounds := by
        rw [hhanded.rounds]
        unfold SliceTracker.newRound wrappingAdd
        dsimp only
        omega
      exact decide_eq_true hrounds
    · rw [(SliceTracker.isOpen_handed hhanded (by rwa [SliceTracker.hashes_newRound]) y).2,
        SliceTracker.isOpen_newRound]

theorem startsRound_of_none {i : Input PeerId} (h : (step t i).2 = none) :
    startsRound (machine.event t i) = false := by
  cases i with
  | next peer order =>
    have hstep : (step t (.next peer order)).1 = t := step_next_none h
    simp [startsRound, machine, hstep]
  | removeWorker peer => simp [startsRound, machine, step, SliceTracker.removeWorker]

/-- Slices stay open until they are handed out. -/
theorem isOpen_stays {i : Input PeerId} {x : Nat} (hnodup : t.hashes.Nodup) (hx : t.isOpen x = true)
    (hout : (step t i).2 ≠ some x) : (step t i).1.isOpen x = true := by
  cases i with
  | next peer order =>
    cases hy : (step t (.next peer order)).2 with
    | none => rwa [step_next_none hy]
    | some y =>
      have hne : x ≠ y := fun h => hout (h ▸ hy)
      rcases next_event hnodup hy with ⟨-, -, hopen⟩ | ⟨-, hnone, -⟩
      · exact (hopen x).mpr ⟨hx, hne⟩
      · rw [hnone x] at hx
        exact Bool.noConfusion hx
  | removeWorker peer => exact (SliceTracker.isOpen_removeWorker t peer x).mpr (Or.inl hx)

end Step

/-! ## What the tracker remembers -/

/-- The tracker remembers the last slice of each peer. -/
structure Remembers (hashes : List Nat) (w : Trace PeerId) : Prop where
  slices : w.state.hashes = hashes
  processing : ∀ p, w.state.processing p = lastHanded p w.history
  known : ∀ p x, lastHanded p w.history = some x → x ∈ hashes

theorem remembers_step {hashes : List Nat} (w : Trace PeerId) (i : Input PeerId)
    (h : Remembers hashes w) : Remembers hashes (machine.next w i) := by
  have hhashes : (machine.next w i).state.hashes = hashes := (hashes_step w.state i).trans h.slices
  cases i with
  | next peer order =>
    cases hout : (step w.state (.next peer order)).2 with
    | none =>
      have hlast : ∀ p, lastHanded p (machine.next w (.next peer order)).history = lastHanded p w.history := by
        intro p
        simp [lastHanded, machine, hout]
      refine ⟨hhashes, fun p => ?_, fun p x hx => h.known p x (hlast p ▸ hx)⟩
      rw [hlast, ← h.processing, Machine.next_state]
      exact congrArg (·.processing p) (step_next_none hout)
    | some y =>
      have hlast : ∀ p, lastHanded p (machine.next w (.next peer order)).history =
          if peer = p then some y else lastHanded p w.history := by
        intro p
        simp [lastHanded, machine, hout]
      have hprocessing : (step w.state (.next peer order)).1.processing =
          Function.update w.state.processing peer (some y) := by
        rcases step_next hout with hhanded | ⟨-, hhanded⟩ <;> exact hhanded.processing
      have hy : y ∈ hashes := by
        rw [← h.slices]
        rcases step_next hout with hhanded | ⟨-, hhanded⟩
        · obtain ⟨before, s, after, hslices, -, -, rfl⟩ := hhanded.slices
          exact List.mem_map_of_mem (hslices ▸ List.mem_append_right _ (List.mem_cons_self ..))
        · obtain ⟨before, s, after, hslices, -, -, rfl⟩ := hhanded.slices
          rw [← SliceTracker.hashes_newRound]
          exact List.mem_map_of_mem (hslices ▸ List.mem_append_right _ (List.mem_cons_self ..))
      refine ⟨hhashes, fun p => ?_, fun p x hx => ?_⟩
      · rw [hlast, Machine.next_state]
        show (step w.state (.next peer order)).1.processing p = _
        rw [hprocessing, Function.update_apply]
        split_ifs with hp hp' hp'
        · rfl
        · exact absurd hp.symm hp'
        · exact absurd hp'.symm hp
        · exact h.processing p
      · rw [hlast] at hx
        split_ifs at hx
        · rwa [← Option.some.inj hx]
        · exact h.known p x hx
  | removeWorker peer =>
    have hlast : ∀ p, lastHanded p (machine.next w (.removeWorker peer)).history =
        if peer = p then none else lastHanded p w.history := by
      intro p
      rfl
    refine ⟨hhashes, fun p => ?_, fun p x hx => ?_⟩
    · rw [hlast]
      show Function.update w.state.processing peer none p = _
      rw [Function.update_apply]
      split_ifs with hp hp' hp'
      · rfl
      · exact absurd hp.symm hp'
      · exact absurd hp'.symm hp
      · exact h.processing p
    · rw [hlast] at hx
      split_ifs at hx
      exact h.known p x hx

theorem remembers_new (hashes : List Nat) : Remembers hashes (⟨.new hashes, []⟩ : Trace PeerId) :=
  ⟨SliceTracker.hashes_new hashes, fun _ => rfl, fun _ _ hx => by cases hx⟩

/-- **A removal** reopens what it should exactly when it comes in time. -/
theorem reopens_iff {hashes : List Nat} {w : Trace PeerId} (h : Remembers hashes w) (i : Input PeerId) :
    ReopensInFlight (machine.event w.state i) w.history ↔ RemovedInTime (machine.event w.state i) w.history := by
  cases i with
  | next peer order =>
    constructor
    · intro _ p x hi
      cases hi
    · intro _ p hi
      cases hi
  | removeWorker peer =>
    have hopen : ∀ x, (machine.event w.state (.removeWorker peer)).post.isOpen x = true ↔
        w.state.isOpen x = true ∨ lastHanded peer w.history = some x := by
      intro x
      show (w.state.removeWorker peer).isOpen x = true ↔ _
      rw [SliceTracker.isOpen_removeWorker, h.processing, h.slices]
      exact or_congr_right (and_iff_left_of_imp (h.known peer x))
    constructor
    · intro hreopens p x hp hx
      obtain rfl := Input.removeWorker.inj hp
      exact ((hreopens peer rfl x).mp ((hopen x).mpr (Or.inr hx))).symm
    · intro htime p hp x
      obtain rfl := Input.removeWorker.inj hp
      rw [hopen]
      refine ⟨fun hx => hx.elim Or.inl (fun hlast => (htime peer x rfl hlast).symm), ?_⟩
      exact fun hx => hx.imp_right (fun hflight => lastHanded_currentRound hflight)

/-! ## Who holds a slice -/

theorem held_cons_next {p : PeerId} {x y : Nat} {e : Call PeerId} {h : List (Call PeerId)} {q : PeerId}
    {order : IterationOrder (PeerId × Nat)} (hi : e.input = .next q order) (hout : e.output = some y) :
    held p x (e :: h) = true ↔ (q = p ∧ y = x) ∨ held p x h = true := by
  simp [held, hi, hout]

theorem held_cons_removeWorker {p q : PeerId} {x : Nat} {e : Call PeerId} {h : List (Call PeerId)}
    (hi : e.input = .removeWorker q) : held p x (e :: h) = true ↔ q ≠ p ∧ held p x h = true := by
  simp [held, hi]

theorem held_cons_none {p q : PeerId} {x : Nat} {e : Call PeerId} {h : List (Call PeerId)}
    {order : IterationOrder (PeerId × Nat)} (hi : e.input = .next q order) (hout : e.output = none) :
    held p x (e :: h) = held p x h := by
  simp [held, hi, hout]

/-- The slices that present peers were handed in this round are not open, and each is held by one peer. -/
structure Holding (w : Trace PeerId) : Prop where
  processed : ∀ q x, held q x (currentRound w.history) = true → w.state.isOpen x = false
  exclusive : ∀ q q' x, held q x (currentRound w.history) = true → held q' x (currentRound w.history) = true → q = q'

theorem currentRound_next {w : Trace PeerId} {i : Input PeerId} (h : startsRound (machine.event w.state i) = false) :
    currentRound (machine.next w i).history = machine.event w.state i :: currentRound w.history := by
  rw [Machine.next_history, currentRound, h]
  rfl

theorem currentRound_next_starts {w : Trace PeerId} {i : Input PeerId}
    (h : startsRound (machine.event w.state i) = true) :
    currentRound (machine.next w i).history = [machine.event w.state i] := by
  rw [Machine.next_history, currentRound, h]
  rfl

/-- A slice that is open is held by nobody. -/
theorem Holding.not_held {w : Trace PeerId} (h : Holding w) {x : Nat} (hopen : w.state.isOpen x = true)
    (q : PeerId) : held q x (currentRound w.history) = false := by
  rw [← Bool.not_eq_true]
  intro hheld
  rw [h.processed q x hheld] at hopen
  exact Bool.noConfusion hopen

theorem holding_handed {hashes : List Nat} (hnodup : hashes.Nodup) {w : Trace PeerId} (h : Remembers hashes w)
    (hholding : Holding w) {peer : PeerId} {order : IterationOrder (PeerId × Nat)} {y : Nat}
    (hout : (step w.state (.next peer order)).2 = some y) :
    Holding (machine.next w (.next peer order)) ∧ HandsFresh (machine.event w.state (.next peer order)) w.history := by
  have hnodup' : w.state.hashes.Nodup := by rwa [h.slices]
  have hevent : (machine.event w.state (.next peer order)).output = some y := hout
  rcases next_event hnodup' hout with ⟨hgoes, hopen, hstep⟩ | ⟨hstarts, -, hstep⟩
  · have hround := currentRound_next hgoes
    have hfree := hholding.not_held hopen
    refine ⟨⟨fun q x hq => ?_, fun q q' x hq hq' => ?_⟩, fun p order' x _ hx _ q => ?_⟩
    · rw [hround, held_cons_next rfl hevent] at hq
      rw [← Bool.not_eq_true]
      intro hx
      obtain ⟨hx, hne⟩ := (hstep x).mp hx
      rcases hq with ⟨-, heq⟩ | hq
      · exact hne heq.symm
      · rw [hholding.processed q x hq] at hx
        exact Bool.noConfusion hx
    · rw [hround, held_cons_next rfl hevent] at hq hq'
      rcases hq with ⟨hp, rfl⟩ | hq <;> rcases hq' with ⟨hp', heq⟩ | hq'
      · exact hp.symm.trans hp'
      · exact absurd hq' (by simp [hfree q'])
      · subst heq
        exact absurd hq (by simp [hfree q])
      · exact hholding.exclusive q q' x hq hq'
    · obtain rfl := Option.some.inj (hevent.symm.trans hx)
      exact hfree q
  · have hround := currentRound_next_starts hstarts
    refine ⟨⟨fun q x hq => ?_, fun q q' x hq hq' => ?_⟩, fun p order' x _ _ hnot => ?_⟩
    · rw [hround, held_cons_next rfl hevent] at hq
      rw [← Bool.not_eq_true]
      intro hx
      rcases hq with ⟨-, heq⟩ | hq
      · exact ((hstep x).mp hx).2 heq.symm
      · cases hq
    · rw [hround, held_cons_next rfl hevent] at hq hq'
      rcases hq with ⟨hp, -⟩ | hq <;> rcases hq' with ⟨hp', -⟩ | hq'
      · exact hp.symm.trans hp'
      · cases hq'
      · cases hq
      · cases hq
    · rw [hstarts] at hnot
      exact Bool.noConfusion hnot

theorem holding_step {hashes : List Nat} (hnodup : hashes.Nodup) (w : Trace PeerId) (i : Input PeerId)
    (h : Remembers hashes w) (hholding : Holding w) (htime : RemovedInTime (machine.event w.state i) w.history) :
    Holding (machine.next w i) ∧ HandsFresh (machine.event w.state i) w.history := by
  cases i with
  | next peer order =>
    cases hout : (step w.state (.next peer order)).2 with
    | some y => exact holding_handed hnodup h hholding hout
    | none =>
      have hround := currentRound_next (startsRound_of_none hout)
      have hheld : ∀ q x, held q x (currentRound (machine.next w (.next peer order)).history) =
          held q x (currentRound w.history) := by
        intro q x
        rw [hround]
        exact held_cons_none rfl hout
      refine ⟨⟨fun q x hq => ?_, fun q q' x hq hq' => ?_⟩, fun p order' x _ hx _ q => ?_⟩
      · rw [Machine.next_state]
        show (step w.state (.next peer order)).1.isOpen x = false
        rw [step_next_none hout]
        exact hholding.processed q x (hheld q x ▸ hq)
      · exact hholding.exclusive q q' x (hheld q x ▸ hq) (hheld q' x ▸ hq')
      · cases hout.symm.trans hx
  | removeWorker peer =>
    have hround := currentRound_next (w := w) (i := .removeWorker peer) (startsRound_of_none rfl)
    refine ⟨⟨fun q x hq => ?_, fun q q' x hq hq' => ?_⟩, fun p order' x hi => by cases hi⟩
    · rw [hround, held_cons_removeWorker rfl] at hq
      obtain ⟨hne, hq⟩ := hq
      rw [← Bool.not_eq_true]
      intro hx
      -- what is open now was open before, or it is the slice of the removed peer, who alone holds it
      rcases ((reopens_iff h _).mpr htime peer rfl x).mp hx with hx | hflight
      · rw [hholding.not_held hx q] at hq
        exact Bool.noConfusion hq
      · exact hne (hholding.exclusive peer q x (held_of_lastHanded hflight) hq)
    · rw [hround, held_cons_removeWorker rfl] at hq hq'
      exact hholding.exclusive q q' x hq.2 hq'.2

/-! ## What a removal leaves to be handed out -/

/-- The slices of peers removed in this round are open until they are handed out. -/
def Pending (w : Trace PeerId) : Prop :=
  ∀ after r before p x, w.history = after ++ r :: before → (∀ e ∈ after, startsRound e = false) →
    r.input = .removeWorker p → inFlight p before = some x → (∀ e ∈ after, e.output ≠ some x) →
      w.state.isOpen x = true

theorem pending_step {hashes : List Nat} (hnodup : hashes.Nodup) (w : Trace PeerId) (i : Input PeerId)
    (h : Remembers hashes w) (hpending : Pending w) :
    Pending (machine.next w i) ∧ HandedAgain (machine.event w.state i) w.history := by
  have hnodup' : w.state.hashes.Nodup := by rwa [h.slices]
  constructor
  · intro after r before p x hhist hrounds hr hflight hnot
    rw [Machine.next_history] at hhist
    cases after with
    | nil =>
      obtain ⟨rfl, rfl⟩ := List.cons.inj hhist
      obtain rfl : i = .removeWorker p := hr
      have hlast := lastHanded_currentRound hflight
      show (w.state.removeWorker p).isOpen x = true
      rw [SliceTracker.isOpen_removeWorker, h.processing, h.slices]
      exact Or.inr ⟨hlast, h.known p x hlast⟩
    | cons e after =>
      obtain ⟨rfl, hbefore⟩ := List.cons.inj hhist
      have hopen := hpending after r before p x hbefore
        (fun e he => hrounds e (List.mem_cons_of_mem _ he)) hr hflight
        (fun e he => hnot e (List.mem_cons_of_mem _ he))
      exact isOpen_stays hnodup' hopen (hnot _ (List.mem_cons_self ..))
  · intro hstarts after r before p x hhist hrounds hr hflight
    -- a round starts only when no slice is open
    have hnone : ∀ y, w.state.isOpen y = false := by
      cases hout : (step w.state i).2 with
      | none =>
        rw [startsRound_of_none hout] at hstarts
        exact Bool.noConfusion hstarts
      | some y =>
        cases i with
        | removeWorker peer => cases hout
        | next peer order =>
          rcases next_event hnodup' hout with ⟨hgoes, -, -⟩ | ⟨-, hnone, -⟩
          · rw [hgoes] at hstarts
            exact Bool.noConfusion hstarts
          · exact hnone
    by_contra hnot
    push Not at hnot
    have hopen := hpending after r before p x hhist hrounds hr hflight hnot
    rw [hnone x] at hopen
    exact Bool.noConfusion hopen

/-- In time or not, the slice of a removed peer is handed out again before the next round starts. -/
theorem handedAgain_run {hashes : List Nat} (hnodup : hashes.Nodup) (inputs : List (Input PeerId)) :
    Along HandedAgain (run hashes inputs).history := by
  refine (machine.along_of_invariant (fun w => Remembers hashes w ∧ Pending w) (fun _ _ => True) HandedAgain
    ⟨remembers_new hashes, fun after r before _ _ hhist => ?_⟩ ?_ inputs (along_true _)).2
  · cases after <;> cases hhist
  · rintro w i ⟨hremembers, hpending⟩ -
    obtain ⟨hpending', hagain⟩ := pending_step hnodup w i hremembers hpending
    exact ⟨⟨remembers_step w i hremembers, hpending'⟩, hagain⟩

/-- If the removals come in time, no slice of a present peer is handed to another one. -/
theorem handsFresh_run {hashes : List Nat} (hnodup : hashes.Nodup) {inputs : List (Input PeerId)}
    (htime : Along RemovedInTime (run hashes inputs).history) : Along HandsFresh (run hashes inputs).history := by
  refine (machine.along_of_invariant (fun w => Remembers hashes w ∧ Holding w) RemovedInTime HandsFresh
    ⟨remembers_new hashes, ⟨fun _ _ hq => absurd hq Bool.false_ne_true, fun _ _ _ hq => absurd hq Bool.false_ne_true⟩⟩
    ?_ inputs htime).2
  rintro w i ⟨hremembers, hholding⟩ hi
  obtain ⟨hholding', hfresh⟩ := holding_step hnodup w i hremembers hholding hi
  exact ⟨⟨remembers_step w i hremembers, hholding'⟩, hfresh⟩

/-- **What the tracker owes to removed workers.** In every run over distinct slices, every removal reopens exactly the
slice that its peer was handed last in the round, no slice of a present peer is handed to another one, and the slice of
a removed peer is handed out again before the next round starts, if and only if every removal comes in time. -/
theorem removal_covers_iff (hashes : List Nat) (hnodup : hashes.Nodup) (inputs : List (Input PeerId)) :
    Along ReopensInFlight (run hashes inputs).history ∧ Along HandsFresh (run hashes inputs).history ∧
      Along HandedAgain (run hashes inputs).history ↔ Along RemovedInTime (run hashes inputs).history := by
  have hreopens := machine.along_iff_of_invariant (Remembers hashes) (fun _ _ => True) ReopensInFlight RemovedInTime
    (remembers_new hashes) remembers_step (fun w i hw _ => reopens_iff hw i) inputs (along_true _)
  constructor
  · intro h
    exact hreopens.mp h.1
  · intro htime
    exact ⟨hreopens.mpr htime, handsFresh_run hnodup htime, handedAgain_run hnodup inputs⟩

/-- Peers 1 and 2 are handed one slice each. In the next round peer 2 gets its own one and steals that of peer 1, which
is removed then: the slice that peer 2 was handed in this round is open, and peer 3 is handed it. -/
def staleRemoval : List (Input Nat) :=
  [.next 1 (.listed _), .next 2 (.listed _), .next 2 (.listed _), .next 2 (.listed _), .removeWorker 1,
    .next 3 (.listed _)]

theorem stale_removal_reopens :
    ¬ ∀ (hashes : List Nat), hashes.Nodup → ∀ inputs : List (Input Nat),
      Along ReopensInFlight (run hashes inputs).history ∧ Along HandsFresh (run hashes inputs).history ∧
        Along HandedAgain (run hashes inputs).history := by
  intro h
  obtain ⟨hreopens, -, -⟩ := h [0, 1] (by decide) staleRemoval
  have hopen := (hreopens.2.1 1 rfl 0).mp (by decide)
  revert hopen
  decide

/-- Peer 1 is removed in the round in which it was handed its slice, which peer 3 then gets. -/
def timelyRemoval : List (Input Nat) := [.next 1 (.listed _), .removeWorker 1, .next 3 (.listed _)]

theorem removal_covers_in_time :
    Along RemovedInTime (run [0, 1] timelyRemoval).history ∧ Along HandsFresh (run [0, 1] timelyRemoval).history := by
  have htime : Along RemovedInTime (run [0, 1] timelyRemoval).history := by
    refine ⟨?_, ?_, ?_, trivial⟩
    · intro p x hi
      cases hi
    · intro p x hi hx
      cases hi
      exact Or.inl hx
    · intro p x hi
      cases hi
  exact ⟨htime, ((removal_covers_iff [0, 1] (by decide) timelyRemoval).mpr htime).2.1⟩

end Hypha.Tracker
