import Hypha.Lib.Machine
import Hypha.ParameterServer.Executor

/-!
# Broadcasting an update

`broadcast_update` as a machine: an input is how something it waits for ends, the opening of a stream, a read, a write,
a shutdown, in any order over the targets. There is a stream for every target, and a task writes the gradient file to
it; the main task collects the results of the tasks.

* `Target.step` : the delivery to one target; `Broadcast.step` : all of it;
* `chosen` : whom a reference names;
* `failsFor` : the steps in which the delivery to a target fails, for good;
* `Sound` : the invariant of a target: it has ended well, with the whole file, or it has failed, or neither yet;
* `broadcast_reaches_iff` : after a success everyone has the file exactly if no delivery failed, which goes unnoticed.

The file does not change meanwhile, so that its length is the one that is announced.
-/

namespace Hypha.ParameterServer

open Hypha.Lib

variable {PeerId : Type}

/-- `ConnectorError`, as far as `send` returns it. -/
inductive ConnectorError (PeerId : Type) where
  | openStream (error : String)
  | io (error : String)
  | unsupportedSend (reference : Reference PeerId)
  deriving DecidableEq

/-- The errors of `broadcast_update`. -/
inductive BroadcastError (PeerId : Type) where
  | io (error : String)
  | connector (error : ConnectorError PeerId)
  deriving DecidableEq

/-! ## One target -/

/-- `FixedInterval::from_millis(200).take(15)`: one attempt and fifteen more. -/
def maxPushAttempts : Nat := 16

/-- Where the delivery to a target is: its stream is being opened, then its task runs, until it ends with a result. -/
inductive Stage where
  | opening (attempts : Nat)
  | spawned
  | copying
  | closing
  | ended (result : Except Unit Unit)
  deriving DecidableEq

/-- A target with what was written to its stream, whether that was shut down without an error, and whether the result
of its task was collected. -/
structure Target (PeerId : Type) where
  peerId : PeerId
  stage : Stage := .opening 0
  written : List UInt8 := []
  closed : Bool := false
  collected : Bool := false
  deriving DecidableEq

/-- What may happen to the delivery to a target. -/
inductive TargetAct where
  | opensStream (result : Except String Unit)
  | opensFile (result : Except String Unit)
  | copies (n : Nat)
  | copied (result : Except String Unit)
  | shuts (result : Except String Unit)
  | joins

/-- One step of the delivery of a file, if it is where that can happen. Whatever fails, the task ends with `Err(())`. -/
def Target.step (file : List UInt8) (t : Target PeerId) : TargetAct → Option (Target PeerId)
  | .opensStream result =>
    match t.stage, result with
    | .opening _, .ok () => some { t with stage := .spawned }
    | .opening attempts, .error _ =>
      -- the error is an item of the stream of writers, and has a task of its own
      if attempts + 1 < maxPushAttempts then some { t with stage := .opening (attempts + 1) }
      else some { t with stage := .ended (.error ()) }
    | _, _ => none
  | .opensFile result =>
    match t.stage, result with
    | .spawned, .ok () => some { t with stage := .copying }
    | .spawned, .error _ => some { t with stage := .ended (.error ()) }
    | _, _ => none
  | .copies n =>
    match t.stage with
    | .copying => some { t with written := file.take (t.written.length + n) }
    | _ => none
  | .copied result =>
    match t.stage, result with
    | .copying, .ok () => if t.written = file then some { t with stage := .closing } else none
    | .copying, .error _ => some { t with stage := .ended (.error ()) }
    | _, _ => none
  | .shuts result =>
    match t.stage, result with
    | .closing, .ok () => some { t with stage := .ended (.ok ()), closed := true }
    | .closing, .error _ => some { t with stage := .ended (.error ()) }
    | _, _ => none
  | .joins =>
    match t.stage with
    | .ended _ => if t.collected then none else some { t with collected := true }
    | _ => none

/-! ## All targets -/

/-- Where the main task waits: for the length of the file, for the stream to a sole target, for the writers, for the
results of the tasks. -/
inductive BroadcastPhase (PeerId : Type) where
  | starting
  | sole (peer : PeerId)
  | streaming
  | joining
  | returned (result : Except (BroadcastError PeerId) Unit)
  deriving DecidableEq

structure Broadcast (PeerId : Type) where
  phase : BroadcastPhase PeerId := .starting
  targets : List (Target PeerId) := []
  removed : Bool := false
  deriving DecidableEq

inductive BroadcastAct where
  | metadata (result : Except String Unit)
  | opensSole (result : Except String Unit)
  | target (i : Nat) (act : TargetAct)
  | exhausts
  | finishes
  | cancels

namespace Broadcast

variable (s : Broadcast PeerId)

def fail (error : BroadcastError PeerId) : Broadcast PeerId := { s with phase := .returned (.error error) }

/-- `Connector::send`, up to the first stream. -/
def send : Reference PeerId → Broadcast PeerId
  | .peers peers .all _ => { s with phase := .streaming, targets := peers.map fun peer => { peerId := peer } }
  | .peers peers _ _ =>
    match peers with
    | peer :: _ => { s with phase := .sole peer }
    | [] => s.fail (.connector (.io "no peers provided"))
  | reference => s.fail (.connector (.unsupportedSend reference))

/-- The file is removed, if that is possible, and the broadcast has succeeded. -/
def succeed : Broadcast PeerId := { s with phase := .returned (.ok ()), removed := true }

/-- Whether a step of a target can happen: streams are opened before any result is collected. -/
def admits : TargetAct → Bool
  | .opensStream _ => match s.phase with
    | .streaming => true
    | _ => false
  | .joins => match s.phase with
    | .joining => true
    | _ => false
  | _ => match s.phase with
    | .streaming | .joining => true
    | _ => false

/-- One step of `broadcast_update`, if it is where that can happen. -/
def step (reference : Reference PeerId) (file : List UInt8) : BroadcastAct → Option (Broadcast PeerId)
  | .metadata result =>
    match s.phase, result with
    | .starting, .ok () => some (s.send reference)
    | .starting, .error e => some (s.fail (.io e))
    | _, _ => none
  | .opensSole result =>
    match s.phase, result with
    | .sole peer, .ok () => some { s with phase := .streaming, targets := [{ peerId := peer, stage := .spawned }] }
    | .sole _, .error e => some (s.fail (.connector (.openStream e)))
    | _, _ => none
  | .target i act =>
    if s.admits act then
      (s.targets[i]?.bind fun t => t.step file act).map fun t => { s with targets := s.targets.set i t }
    else none
  | .exhausts =>
    match s.phase with
    | .streaming =>
      if s.targets.all fun t => match t.stage with
          | .opening _ => false
          | _ => true then
        some { s with phase := .joining }
      else none
    | _ => none
  | .finishes =>
    match s.phase with
    | .joining => if s.targets.all (·.collected) then some s.succeed else none
    | _ => none
  | .cancels =>
    match s.phase with
    | .joining => some s.succeed
    | _ => none

end Broadcast

/-- The broadcast of a file to a reference, as a machine: the output is whether the input could happen. -/
def broadcastUpdate (reference : Reference PeerId) (file : List UInt8) : Machine (Broadcast PeerId) BroadcastAct Bool where
  step s act :=
    match s.step reference file act with
    | some s' => (s', true)
    | none => (s, false)

abbrev BroadcastEvent (PeerId : Type) := Event (Broadcast PeerId) BroadcastAct Bool

abbrev BroadcastRun (PeerId : Type) := World (Broadcast PeerId) BroadcastAct Bool

/-! ## The specification -/

/-- Whom a reference names: everyone, or the first. -/
def chosen : Reference PeerId → List PeerId
  | .peers peers .all _ => peers
  | .peers peers _ _ => peers.head?.toList
  | _ => []

/-- Everyone has the file on a stream that was shut down without an error. -/
def ReachedEveryone (reference : Reference PeerId) (file : List UInt8) (s : Broadcast PeerId) : Prop :=
  ∀ p ∈ chosen reference, ∃ t ∈ s.targets, t.peerId = p ∧ t.written = file ∧ t.closed = true

/-- A target cannot be delivered to: the last attempt to open its stream fails, or the file cannot be opened, or the copy
or the shutdown fails. -/
def Stage.fails : Stage → TargetAct → Bool
  | .opening attempts, .opensStream (.error _) => decide (maxPushAttempts ≤ attempts + 1)
  | .spawned, .opensFile (.error _) => true
  | .copying, .copied (.error _) => true
  | .closing, .shuts (.error _) => true
  | _, _ => false

/-- Whether the delivery to the target at a position fails in a step. -/
def failsFor (i : Nat) (e : BroadcastEvent PeerId) : Bool :=
  match e.input with
  | .target j act => e.output && decide (j = i) && e.pre.targets[j]?.any fun t => t.stage.fails act
  | _ => false

/-- Whether the delivery to the target at a position has not failed. -/
def spared (i : Nat) (h : List (BroadcastEvent PeerId)) : Bool := h.all fun e => !failsFor i e

/-! ## What a step may do -/

section Steps
variable {reference : Reference PeerId} {file : List UInt8} {s s' : Broadcast PeerId} {t t' : Target PeerId}

/-- **What may happen**, and what it leads to. -/
inductive Broadcasts (reference : Reference PeerId) (file : List UInt8) (s : Broadcast PeerId) :
    BroadcastAct → Broadcast PeerId → Prop where
  | sends (hphase : s.phase = .starting) : Broadcasts reference file s (.metadata (.ok ())) (s.send reference)
  | missesFile (error : String) (hphase : s.phase = .starting) :
      Broadcasts reference file s (.metadata (.error error)) (s.fail (.io error))
  | opensSole (peer : PeerId) (hphase : s.phase = .sole peer) :
      Broadcasts reference file s (.opensSole (.ok ()))
        { s with phase := .streaming, targets := [{ peerId := peer, stage := .spawned }] }
  | missesSole (peer : PeerId) (error : String) (hphase : s.phase = .sole peer) :
      Broadcasts reference file s (.opensSole (.error error)) (s.fail (.connector (.openStream error)))
  | target (i : Nat) (act : TargetAct) (t t' : Target PeerId) (hphase : s.phase = .streaming ∨ s.phase = .joining)
      (ht : s.targets[i]? = some t) (hstep : t.step file act = some t') :
      Broadcasts reference file s (.target i act) { s with targets := s.targets.set i t' }
  | exhausts (hphase : s.phase = .streaming) : Broadcasts reference file s .exhausts { s with phase := .joining }
  | finishes (hphase : s.phase = .joining) (hcollected : ∀ t ∈ s.targets, t.collected = true) :
      Broadcasts reference file s .finishes s.succeed
  | cancels (hphase : s.phase = .joining) : Broadcasts reference file s .cancels s.succeed

theorem phase_of_admits {act : TargetAct} (h : s.admits act = true) : s.phase = .streaming ∨ s.phase = .joining := by
  unfold Broadcast.admits at h
  split at h <;> split at h <;> simp_all

theorem broadcasts_of_step {act : BroadcastAct} (h : s.step reference file act = some s') :
    Broadcasts reference file s act s' := by
  unfold Broadcast.step at h
  cases act with
  | metadata result =>
    dsimp only at h
    split at h
    · next hphase =>
      cases h
      exact .sends hphase
    · next hphase =>
      cases h
      exact .missesFile _ hphase
    · cases h
  | opensSole result =>
    dsimp only at h
    split at h
    · next hphase =>
      cases h
      exact .opensSole _ hphase
    · next hphase =>
      cases h
      exact .missesSole _ _ hphase
    · cases h
  | target i act =>
    dsimp only at h
    split_ifs at h with hadmits
    obtain ⟨t', hbind, rfl⟩ := Option.map_eq_some_iff.mp h
    obtain ⟨t, ht, hstep⟩ := Option.bind_eq_some_iff.mp hbind
    exact .target i act t t' (phase_of_admits hadmits) ht hstep
  | exhausts =>
    dsimp only at h
    split at h
    · next hphase =>
      split_ifs at h
      cases h
      exact .exhausts hphase
    · cases h
  | finishes =>
    dsimp only at h
    split at h
    · next hphase =>
      split_ifs at h with hall
      cases h
      exact .finishes hphase (List.all_eq_true.mp hall)
    · cases h
  | cancels =>
    dsimp only at h
    split at h
    · next hphase =>
      cases h
      exact .cancels hphase
    · cases h

end Steps

/-! ## One target -/

/-- A target has ended well, with the whole file, and was spared, or it has failed and was not, or it has not ended and
its result was not collected. -/
def Sound (file : List UInt8) (spared : Bool) (t : Target PeerId) : Prop :=
  match t.stage with
  | .ended (.ok ()) => t.written = file ∧ t.closed = true ∧ spared = true
  | .ended (.error ()) => t.closed = false ∧ spared = false
  | .closing => t.written = file ∧ t.closed = false ∧ t.collected = false ∧ spared = true
  | _ => t.closed = false ∧ t.collected = false ∧ spared = true

theorem peerId_step {file : List UInt8} {t t' : Target PeerId} {act : TargetAct} (hstep : t.step file act = some t') :
    t'.peerId = t.peerId := by
  unfold Target.step at hstep
  cases act <;> dsimp only at hstep <;> split at hstep <;> (try split_ifs at hstep) <;> cases hstep <;> rfl

/-- **A step of a target** keeps it sound. -/
theorem Sound.step {file : List UInt8} {spared : Bool} {t t' : Target PeerId} {act : TargetAct}
    (h : Sound file spared t) (hstep : t.step file act = some t') :
    Sound file (spared && !t.stage.fails act) t' := by
  unfold Target.step at hstep
  unfold Sound at h
  cases act with
  | opensStream result =>
    dsimp only at hstep
    split at hstep
    · next attempts hstage =>
      cases hstep
      rw [hstage] at h ⊢
      simpa [Sound, Stage.fails] using h
    · next attempts error hstage =>
      rw [hstage] at h ⊢
      split_ifs at hstep with hmore <;> cases hstep
      · have hlast : ¬ maxPushAttempts ≤ attempts + 1 := by omega
        simpa [Sound, Stage.fails, hlast] using h
      · have hlast : maxPushAttempts ≤ attempts + 1 := by omega
        simp [Sound, Stage.fails, hlast, h.1]
    · cases hstep
  | opensFile result =>
    dsimp only at hstep
    split at hstep
    · next hstage =>
      cases hstep
      rw [hstage] at h ⊢
      simpa [Sound, Stage.fails] using h
    · next hstage =>
      cases hstep
      rw [hstage] at h ⊢
      simp [Sound, Stage.fails, h.1]
    · cases hstep
  | copies n =>
    dsimp only at hstep
    split at hstep
    · next hstage =>
      cases hstep
      rw [hstage] at h ⊢
      simpa [Sound, Stage.fails, hstage] using h
    · cases hstep
  | copied result =>
    dsimp only at hstep
    split at hstep
    · next hstage =>
      rw [hstage] at h ⊢
      split_ifs at hstep with hwritten
      cases hstep
      simpa [Sound, Stage.fails, hwritten] using h
    · next hstage =>
      cases hstep
      rw [hstage] at h ⊢
      simp [Sound, Stage.fails, h.1]
    · cases hstep
  | shuts result =>
    dsimp only at hstep
    split at hstep
    · next hstage =>
      cases hstep
      rw [hstage] at h ⊢
      simp [Sound, Stage.fails, h.1, h.2.2.2]
    · next hstage =>
      cases hstep
      rw [hstage] at h ⊢
      simp [Sound, Stage.fails, h.2.1]
    · cases hstep
  | joins =>
    dsimp only at hstep
    split at hstep
    · next result hstage =>
      split_ifs at hstep with hcollected
      cases hstep
      rw [hstage] at h ⊢
      cases result <;> simpa [Sound, Stage.fails, hstage] using h
    · cases hstep

/-- Whether a target has everything, after its result was collected. -/
theorem Sound.collected {file : List UInt8} {spared : Bool} {t : Target PeerId} (h : Sound file spared t)
    (hcollected : t.collected = true) : t.written = file ∧ t.closed = true ↔ spared = true := by
  unfold Sound at h
  split at h
  · exact iff_of_true ⟨h.1, h.2.1⟩ h.2.2
  · exact iff_of_false (fun hall => absurd (h.1.symm.trans hall.2) Bool.false_ne_true)
      fun hspared => absurd (h.2.symm.trans hspared) Bool.false_ne_true
  · exact absurd (h.2.2.1.symm.trans hcollected) Bool.false_ne_true
  · exact absurd (h.2.1.symm.trans hcollected) Bool.false_ne_true

/-! ## Runs -/

section Runs
variable {reference : Reference PeerId} {file : List UInt8} {s s' : Broadcast PeerId} {w : BroadcastRun PeerId}

/-- There is a target for everyone, once there are streams. -/
def Shaped (reference : Reference PeerId) (s : Broadcast PeerId) : Prop :=
  match s.phase with
  | .starting => s.targets = []
  | .sole peer => s.targets = [] ∧ chosen reference = [peer]
  | .returned (.error _) => True
  | _ => s.targets.map (·.peerId) = chosen reference

/-- The invariant of a broadcast that is not cancelled. -/
structure Sane (reference : Reference PeerId) (file : List UInt8) (w : BroadcastRun PeerId) : Prop where
  shaped : Shaped reference w.state
  sound : ∀ i t, w.state.targets[i]? = some t → Sound file (spared i w.history) t
  later : ∀ i, w.state.targets[i]? = none → spared i w.history = true
  collected : w.state.phase = .returned (.ok ()) → ∀ t ∈ w.state.targets, t.collected = true

theorem spared_cons (i : Nat) (e : BroadcastEvent PeerId) (h : List (BroadcastEvent PeerId)) :
    spared i (e :: h) = (spared i h && !failsFor i e) := Bool.and_comm ..

/-- What a step can do to a run. -/
theorem next_cases (reference : Reference PeerId) (file : List UInt8) (w : BroadcastRun PeerId) (act : BroadcastAct) :
    (broadcastUpdate reference file).next w act = ⟨w.state, ⟨w.state, act, false, w.state⟩ :: w.history⟩ ∨
    ∃ s', Broadcasts reference file w.state act s' ∧
      (broadcastUpdate reference file).next w act = ⟨s', ⟨w.state, act, true, s'⟩ :: w.history⟩ := by
  rcases hstep : w.state.step reference file act with _ | s'
  · exact .inl (by simp [Machine.next, Machine.event, broadcastUpdate, hstep])
  · exact .inr ⟨s', broadcasts_of_step hstep, by simp [Machine.next, Machine.event, broadcastUpdate, hstep]⟩

theorem shaped_send (reference : Reference PeerId) (hnone : s.targets = []) : Shaped reference (s.send reference) := by
  cases reference with
  | peers peers strategy resource =>
    cases strategy with
    | all =>
      show (peers.map fun peer => ({ peerId := peer } : Target PeerId)).map (·.peerId) = peers
      rw [List.map_map]
      exact List.map_id _
    | random | one =>
      cases peers with
      | nil => exact trivial
      | cons peer peers => exact ⟨hnone, rfl⟩
  | _ => exact trivial

/-- The targets that `send` makes are yet to be delivered to. -/
theorem send_fresh (reference : Reference PeerId) (hnone : s.targets = []) :
    ∀ t ∈ (s.send reference).targets, Sound file true t := by
  unfold Broadcast.send
  split
  · intro t ht
    obtain ⟨peer, -, rfl⟩ := List.mem_map.mp ht
    exact ⟨rfl, rfl, rfl⟩
  · split
    all_goals
      intro t ht
      have hold : t ∈ s.targets := ht
      rw [hnone] at hold
      exact absurd hold List.not_mem_nil
  · intro t ht
    have hold : t ∈ s.targets := ht
    rw [hnone] at hold
    exact absurd hold List.not_mem_nil

theorem send_phase (reference : Reference PeerId) : (s.send reference).phase ≠ .returned (.ok ()) := by
  unfold Broadcast.send
  split
  · exact fun h => by cases h
  · split <;> exact fun h => by cases h
  · exact fun h => by cases h

/-- A step that is not of a target, and changes no target that was there. -/
theorem Sane.keeps (h : Sane reference file w) {e : BroadcastEvent PeerId} (he : ∀ i, failsFor i e = false)
    (hshaped : Shaped reference s') (hsound : s'.targets = w.state.targets ∨
      w.state.targets = [] ∧ ∀ t ∈ s'.targets, Sound file true t)
    (hcollected : s'.phase = .returned (.ok ()) → ∀ t ∈ s'.targets, t.collected = true) :
    Sane reference file ⟨s', e :: w.history⟩ := by
  have hspared : ∀ i, spared i (e :: w.history) = spared i w.history := by
    intro i
    rw [spared_cons, he, Bool.not_false, Bool.and_true]
  refine ⟨hshaped, fun i t ht => ?_, fun i hi => ?_, hcollected⟩
  · rw [hspared]
    rcases hsound with hsame | ⟨hnone, hfresh⟩
    · exact h.sound i t (hsame ▸ ht)
    · rw [h.later i (by rw [hnone]; rfl)]
      exact hfresh t (List.mem_of_getElem? ht)
  · rw [hspared]
    rcases hsound with hsame | ⟨hnone, -⟩
    · exact h.later i (hsame ▸ hi)
    · exact h.later i (by rw [hnone]; rfl)

/-- A step of a target. -/
theorem Sane.target (h : Sane reference file w) {i : Nat} {act : TargetAct} {t t' : Target PeerId}
    (hphase : w.state.phase = .streaming ∨ w.state.phase = .joining) (ht : w.state.targets[i]? = some t)
    (hstep : t.step file act = some t') :
    Sane reference file
      ⟨{ w.state with targets := w.state.targets.set i t' },
        ⟨w.state, .target i act, true, { w.state with targets := w.state.targets.set i t' }⟩ :: w.history⟩ := by
  have hpeers : (w.state.targets.set i t').map (·.peerId) = w.state.targets.map (·.peerId) := by
    have hget : (w.state.targets.map (·.peerId))[i]? = some t.peerId := by rw [List.getElem?_map, ht, Option.map_some]
    obtain ⟨hlt, hpeer⟩ := List.getElem?_eq_some_iff.mp hget
    rw [List.map_set, peerId_step hstep, ← hpeer, List.set_getElem_self]
  have hfails : ∀ j s', failsFor j ⟨w.state, .target i act, true, s'⟩ = (decide (i = j) && t.stage.fails act) := by
    intro j s'
    unfold failsFor
    dsimp only
    rw [ht]
    rfl
  refine ⟨?_, fun j u hu => ?_, fun j hj => ?_, fun hok => ?_⟩
  · have hshaped := h.shaped
    unfold Shaped at hshaped ⊢
    rcases hphase with hphase | hphase <;>
    · dsimp only
      rw [hphase] at hshaped ⊢
      exact hpeers.trans hshaped
  · rw [spared_cons, hfails]
    by_cases hij : i = j
    · subst hij
      rw [decide_eq_true rfl, Bool.true_and]
      rw [List.getElem?_set_self (List.getElem?_eq_some_iff.mp ht).1] at hu
      obtain rfl := Option.some.inj hu
      exact (h.sound i t ht).step hstep
    · rw [decide_eq_false hij, Bool.false_and, Bool.not_false, Bool.and_true]
      rw [List.getElem?_set_ne hij] at hu
      exact h.sound j u hu
  · have hlen := List.getElem?_eq_none_iff.mp hj
    rw [List.length_set] at hlen
    have hlt := (List.getElem?_eq_some_iff.mp ht).1
    have hij : i ≠ j := by omega
    rw [spared_cons, hfails, decide_eq_false hij, Bool.false_and, Bool.not_false, Bool.and_true]
    exact h.later j (List.getElem?_eq_none hlen)
  · rcases hphase with hphase | hphase <;>
    · rw [hphase] at hok
      cases hok

/-- **A step** keeps the invariant, unless it cancels. -/
theorem Sane.next (h : Sane reference file w) (act : BroadcastAct) (hcancel : act ≠ .cancels) :
    Sane reference file ((broadcastUpdate reference file).next w act) := by
  rcases next_cases reference file w act with heq | ⟨s', hsteps, heq⟩ <;> rw [heq]
  · refine h.keeps (fun i => ?_) h.shaped (.inl rfl) h.collected
    unfold failsFor
    cases act <;> rfl
  have hshaped := h.shaped
  unfold Shaped at hshaped
  cases hsteps with
  | sends hphase =>
    rw [hphase] at hshaped
    exact h.keeps (fun _ => rfl) (shaped_send reference hshaped) (.inr ⟨hshaped, send_fresh reference hshaped⟩)
      fun hok => absurd hok (send_phase reference)
  | missesFile error hphase => exact h.keeps (fun _ => rfl) trivial (.inl rfl) fun hok => by cases hok
  | opensSole peer hphase =>
    rw [hphase] at hshaped
    refine h.keeps (fun _ => rfl) hshaped.2.symm (.inr ⟨hshaped.1, fun t ht => ?_⟩) fun hok => by cases hok
    rw [List.mem_singleton.mp ht]
    exact ⟨rfl, rfl, rfl⟩
  | missesSole peer error hphase => exact h.keeps (fun _ => rfl) trivial (.inl rfl) fun hok => by cases hok
  | target i act t t' hphase ht hstep => exact h.target hphase ht hstep
  | exhausts hphase =>
    rw [hphase] at hshaped
    exact h.keeps (fun _ => rfl) hshaped (.inl rfl) fun hok => by cases hok
  | finishes hphase hcollected =>
    rw [hphase] at hshaped
    exact h.keeps (fun _ => rfl) hshaped (.inl rfl) fun _ => hcollected
  | cancels hphase => exact absurd rfl hcancel

theorem sane_run (reference : Reference PeerId) (file : List UInt8) (acts : List BroadcastAct)
    (hcancel : .cancels ∉ acts) :
    Sane reference file ((broadcastUpdate reference file).run {} acts) := by
  have hacts : ∀ act ∈ acts, act ≠ .cancels := fun act hact he => hcancel (he ▸ hact)
  have hinputs := (broadcastUpdate reference file).along_input (s := {}) hacts
  refine ((broadcastUpdate reference file).along_of_invariant (Sane reference file) _ (fun _ _ => True) ?_ ?_ acts
    hinputs).1
  · exact ⟨rfl, fun i t ht => absurd ht (by simp), fun _ _ => rfl, fun hok => by cases hok⟩
  · exact fun w act hw hact => ⟨hw.next act hact, trivial⟩

end Runs

/-! ## The report -/

section Report
variable {F : Type} [LinearOrder PeerId] (display : BroadcastError PeerId → String)

/-- How a broadcast ends for the executor. -/
def BroadcastPhase.outcome : BroadcastPhase PeerId → Option (Option String)
  | .returned (.ok ()) => some none
  | .returned (.error e) => some (some (display e))
  | _ => none

/-- The executor reports a broadcast, and drops the gradient, exactly after a success. -/
theorem broadcasts_reported {e e' : Executor PeerId F} {s : Broadcast PeerId} {error : Option String}
    (houtcome : s.phase.outcome display = some error) (h : e.step (.broadcasts error) = some e') :
    (e'.currentStatus = .broadcastedUpdate none ↔ s.phase = .returned (.ok ())) ∧
      e'.pendingUpdate = if s.phase = .returned (.ok ()) then none else e.pendingUpdate := by
  unfold BroadcastPhase.outcome at houtcome
  simp only [Executor.step, Executor.broadcasted] at h
  split at h
  · split at houtcome
    · next hphase =>
      cases houtcome
      cases h
      rw [hphase, if_pos rfl]
      exact ⟨iff_of_true rfl rfl, rfl⟩
    · next error hphase =>
      cases houtcome
      cases h
      rw [hphase, if_neg (by simp)]
      exact ⟨iff_of_false (by simp [Executor.report]) (by simp), rfl⟩
    · cases houtcome
  · cases h

end Report

/-! ## Whom a broadcast reaches -/

/-- **After a success** everyone has the whole file exactly if to everyone there was a delivery that did not fail: the
failures of the others are logged. -/
theorem broadcast_reaches_iff (reference : Reference PeerId) (file : List UInt8) (acts : List BroadcastAct)
    (hcancel : .cancels ∉ acts)
    (hok : ((broadcastUpdate reference file).run {} acts).state.phase = .returned (.ok ())) :
    ReachedEveryone reference file ((broadcastUpdate reference file).run {} acts).state ↔
      ∀ p ∈ chosen reference, ∃ i, (chosen reference)[i]? = some p ∧
        spared i ((broadcastUpdate reference file).run {} acts).history = true := by
  have h := sane_run reference file acts hcancel
  have hshaped := h.shaped
  unfold Shaped at hshaped
  rw [hok] at hshaped
  refine forall₂_congr fun p _ => ?_
  rw [← hshaped]
  constructor
  · rintro ⟨t, ht, rfl, hall⟩
    obtain ⟨i, hi⟩ := List.mem_iff_getElem?.mp ht
    refine ⟨i, by rw [List.getElem?_map, hi]; rfl, ?_⟩
    exact ((h.sound i t hi).collected (h.collected hok t ht)).mp hall
  · rintro ⟨i, hi, hspared⟩
    rw [List.getElem?_map] at hi
    obtain ⟨t, ht, rfl⟩ := Option.map_eq_some_iff.mp hi
    have hmem := List.mem_of_getElem? ht
    exact ⟨t, hmem, rfl, ((h.sound i t ht).collected (h.collected hok t hmem)).mpr hspared⟩

/-- The file of three bytes is written to the one target. -/
def delivered : List BroadcastAct :=
  [.metadata (.ok ()), .target 0 (.opensStream (.ok ())), .exhausts, .target 0 (.opensFile (.ok ())),
    .target 0 (.copies 3), .target 0 (.copied (.ok ())), .target 0 (.shuts (.ok ())), .target 0 .joins, .finishes]

theorem broadcast_reaches_delivered :
    ReachedEveryone (.peers [1] .all none) [7, 8, 9]
      ((broadcastUpdate (.peers [1] .all none) [7, 8, 9]).run {} delivered).state := by
  refine (broadcast_reaches_iff (.peers [1] .all none) [7, 8, 9] delivered (by simp [delivered]) (by decide)).mpr ?_
  intro p hp
  rw [List.mem_singleton.mp hp]
  exact ⟨0, rfl, by decide⟩

/-- The stream breaks after one byte, and the broadcast succeeds. -/
def broken : List BroadcastAct :=
  [.metadata (.ok ()), .target 0 (.opensStream (.ok ())), .exhausts, .target 0 (.opensFile (.ok ())),
    .target 0 (.copies 1), .target 0 (.copied (.error "broken pipe")), .target 0 .joins, .finishes]

theorem broadcast_reaches_fails :
    .cancels ∉ broken ∧
      ((broadcastUpdate (.peers [1] .all none) [7, 8, 9]).run {} broken).state.phase = .returned (.ok ()) ∧
      ¬ ReachedEveryone (.peers [1] .all none) [7, 8, 9]
        ((broadcastUpdate (.peers [1] .all none) [7, 8, 9]).run {} broken).state := by
  refine ⟨by simp [broken], by decide, fun h => ?_⟩
  obtain ⟨t, ht, -, hwritten, -⟩ := h 1 (List.mem_singleton_self 1)
  revert t
  decide

end Hypha.ParameterServer
