import Mathlib.Data.List.Dedup
import Mathlib.Data.List.Induction
import Hypha.ParameterServer.Nesterov

/-!
# Aggregating updates (`parameter_server.rs`)

`aggregate_updates` takes updates from the store, one of each peer, merges their files two by two, hands the result to the
optimizer as `avg-final` and removes it. Updates arrive in the store meanwhile. A `Turn` is one turn of the loop: the
updates that have arrived since the last one, the order in which the store's map lists its keys, the order in which the
tensors of the file are listed, and which branch the wait comes to when there is nothing to take.

* `choose`, `merge`, `aggregateLoop`, `handOver`, `aggregateUpdates` : the function;
* `select` : which updates are taken, as long as nothing goes wrong;
* `turned` : what one turn comes to, for the loop and for what is taken;
* `aggregateLoop_carries` : what the loop has in hand is the sum of what it has taken;
* `aggregation_sums` : what the optimizer gets.
-/

namespace Hypha.ParameterServer

open Hypha.Lib

set_option linter.unusedSectionVars false

variable {PeerId R : Type} [DecidableEq PeerId]

structure Arrival (PeerId R : Type) where
  peer : PeerId
  file : StagedFile R

/-- The files of each peer, the most recent last. -/
abbrev UpdatesStore (PeerId R : Type) := Table PeerId (List (StagedFile R))

def filesOf (store : UpdatesStore PeerId R) (p : PeerId) : List (StagedFile R) := (store.lookup p).getD []

/-- `store.entry(pid).or_default().push(file_path)`. -/
def push (store : UpdatesStore PeerId R) (a : Arrival PeerId R) : UpdatesStore PeerId R :=
  AList.insert a.peer (filesOf store a.peer ++ [a.file]) store

/-- What an aggregation works on. Random UUIDs are new, so they are counted; `arrivals` lists what has arrived. -/
structure Server (PeerId R : Type) where
  store : UpdatesStore PeerId R
  dir : WorkDir R
  uuids : Nat := 0
  arrivals : List (Arrival PeerId R) := []

def Server.receive (s : Server PeerId R) (arrived : List (Arrival PeerId R)) : Server PeerId R :=
  { s with store := arrived.foldl push s.store, arrivals := s.arrivals ++ arrived }

/-- Which branch the `select!` comes to. -/
inductive Wait where
  | cancelled
  | maxDelay
  | deadline
  | notified
  deriving DecidableEq, Repr

structure Turn (PeerId R : Type) where
  arrived : List (Arrival PeerId R) := []
  keysRank : PeerId → Nat
  tensorsRank : String → Nat
  wait : Wait

/-- The arguments of a call, and what happens during it; `late` arrive after the loop. -/
structure Call (PeerId R : Type) where
  allowed : List PeerId
  momentum : R
  learningRate : R
  turns : List (Turn PeerId R)
  late : List (Arrival PeerId R) := []
  momentumRank : String → Nat
  updateRank : String → Nat

/-! ## The function -/

/-- If allowed empty, accept any; else only allowed. -/
def eligibleKeys (allowed : List PeerId) (rank : PeerId → Nat) (store : UpdatesStore PeerId R) : List PeerId :=
  let keys := (store.listing rank).map Sigma.fst
  if allowed.isEmpty then keys else keys.filter (· ∈ allowed)

/-- Pick first with available files that we haven't used yet in this round. -/
def choose (used : List PeerId) (store : UpdatesStore PeerId R) :
    List PeerId → Option (PeerId × StagedFile R × UpdatesStore PeerId R)
  | [] => none
  | pid :: keys =>
    if pid ∈ used then choose used store keys
    else
      match (filesOf store pid).getLast? with
      | some path => some (pid, path, AList.insert pid (filesOf store pid).dropLast store)
      | none => choose used store keys

/-- `fs::remove_file`; nothing else refers to a staged file. -/
def WorkDir.remove (dir : WorkDir R) : Source R → WorkDir R
  | .staged _ => dir
  | .named name => Function.update dir name none

/-- Merge into running average. -/
def merge [CommRing R] (digest : String → BitVec 256) (rank : String → Nat) (s : Server PeerId R)
    (fileName : StagedFile R) : Option (Source R) → Server PeerId R × Except Failure (Source R)
  | none => (s, .ok (.staged fileName))
  | some result =>
    let resulting := FileName.joined s.uuids
    match applyTensorOp digest Tensor.add rank s.dir (.staged fileName) result resulting with
    | (dir, .error e) => ({ s with dir, uuids := s.uuids + 1 }, .error e)
    | (dir, .ok ()) => ({ s with dir := dir.remove result, uuids := s.uuids + 1 }, .ok (.named resulting))

/-- We've used all allowed peers; `allowed` and `used` are sets. -/
def usedAll (allowed used : List PeerId) : Bool :=
  !allowed.isEmpty && decide (allowed.dedup.length ≤ used.length)

section Aggregation
variable [CommRing R] (digest : String → BitVec 256)

/-- The loop, as far as the turns go: where it ends, an error or the merged file. -/
def aggregateLoop (allowed : List PeerId) :
    List (Turn PeerId R) → Server PeerId R → List PeerId → Option (Source R) →
      Server PeerId R × Option (Except Failure (Option (Source R)))
  | [], s, _, _ => (s, none)
  | turn :: turns, s, used, current =>
    let s := s.receive turn.arrived
    match choose used s.store (eligibleKeys allowed turn.keysRank s.store) with
    | some (peerId, fileName, store) =>
      match merge digest turn.tensorsRank { s with store } fileName current with
      | (s, .error e) => (s, some (.error e))
      | (s, .ok merged) =>
        if usedAll allowed (peerId :: used) then (s, some (.ok (some merged)))
        else aggregateLoop allowed turns s (peerId :: used) (some merged)
    | none =>
      match turn.wait with
      | .cancelled => (s, some (.error (.invalidExecutorConfig "aggregation cancelled")))
      | .maxDelay | .deadline => (s, some (.ok current))
      | .notified => aggregateLoop allowed turns s used current

/-- `fs::rename` of the merged file to `avg-final`. -/
def handOver (s : Server PeerId R) : Option (Source R) → Server PeerId R × Except Failure Unit
  | none => (s, .error (.invalidExecutorConfig "no updates available to aggregate"))
  | some result =>
    match s.dir.read result with
    | none => (s, .error (.io "no such file"))
    | some content => ({ s with dir := Function.update (s.dir.remove result) .avgFinal (some content) }, .ok ())

/-- Up to the call of the optimizer. -/
def gather (call : Call PeerId R) (s : Server PeerId R) : Server PeerId R × Option (Except Failure Unit) :=
  match aggregateLoop digest call.allowed call.turns s [] none with
  | (s, none) => (s, none)
  | (s, some (.error e)) => (s.receive call.late, some (.error e))
  | (s, some (.ok current)) =>
    match handOver (s.receive call.late) current with
    | (s, result) => (s, some result)

def aggregateUpdates (call : Call PeerId R) (s : Server PeerId R) : Server PeerId R × Option (Except Failure FileName) :=
  match gather digest call s with
  | (s, none) => (s, none)
  | (s, some (.error e)) => (s, some (.error e))
  | (s, some (.ok ())) =>
    match nesterov digest call.momentum call.learningRate call.momentumRank call.updateRank s.dir (.named .avgFinal) with
    | (dir, .error e) => ({ s with dir }, some (.error e))
    | (dir, .ok gradientFile) => ({ s with dir := Function.update dir .avgFinal none }, some (.ok gradientFile))

end Aggregation

/-! ## The store -/

section Store
variable {store store' : UpdatesStore PeerId R} {p q : PeerId} {f : StagedFile R}

/-- What has arrived from a peer. -/
def filesFrom (p : PeerId) (arrived : List (Arrival PeerId R)) : List (StagedFile R) :=
  (arrived.filter (·.peer = p)).map Arrival.file

theorem filesFrom_append (p : PeerId) (before after : List (Arrival PeerId R)) :
    filesFrom p (before ++ after) = filesFrom p before ++ filesFrom p after := by
  unfold filesFrom
  rw [List.filter_append, List.map_append]

theorem filesOf_insert (files : List (StagedFile R)) :
    filesOf (AList.insert p files store) q = if q = p then files else filesOf store q := by
  unfold filesOf
  split_ifs with h
  · rw [h, AList.lookup_insert, Option.getD_some]
  · rw [AList.lookup_insert_ne h]

theorem filesOf_push (a : Arrival PeerId R) :
    filesOf (push store a) q = filesOf store q ++ filesFrom q [a] := by
  unfold push filesFrom
  rw [filesOf_insert]
  split_ifs with hq
  · have hfrom : [a].filter (·.peer = q) = [a] := List.filter_eq_self.mpr (by simp [hq])
    rw [hfrom, hq]
    rfl
  · have hother : [a].filter (·.peer = q) = [] := List.filter_eq_nil_iff.mpr (by simp [Ne.symm hq])
    rw [hother]
    exact (List.append_nil _).symm

theorem filesOf_foldl_push (arrived : List (Arrival PeerId R)) :
    ∀ store : UpdatesStore PeerId R, filesOf (arrived.foldl push store) q = filesOf store q ++ filesFrom q arrived := by
  induction arrived with
  | nil => exact fun _ => (List.append_nil _).symm
  | cons a arrived ih =>
    intro store
    rw [List.foldl_cons, ih, filesOf_push, List.append_assoc, ← filesFrom_append, List.singleton_append]

theorem mem_of_filesOf (h : filesOf store p ≠ []) : p ∈ store := by
  by_contra hp
  refine h ?_
  unfold filesOf
  rw [AList.lookup_eq_none.mpr hp, Option.getD_none]

theorem mem_eligibleKeys {allowed : List PeerId} {rank : PeerId → Nat} :
    p ∈ eligibleKeys allowed rank store ↔ p ∈ store ∧ (allowed = [] ∨ p ∈ allowed) := by
  have hkeys : p ∈ (store.listing rank).map Sigma.fst ↔ p ∈ store := Table.mem_keys_listing
  unfold eligibleKeys
  dsimp only
  split_ifs with hany
  · rw [hkeys, List.isEmpty_iff.mp hany]
    exact (and_iff_left (.inl rfl)).symm
  · rw [List.mem_filter, hkeys, decide_eq_true_iff]
    exact and_congr_right fun _ => (or_iff_right (List.isEmpty_iff.not.mp hany)).symm

/-- What is chosen is the most recent file of an eligible peer, and is taken out of the store. -/
theorem of_choose {used keys : List PeerId} (h : choose used store keys = some (p, f, store')) :
    p ∈ keys ∧ p ∉ used ∧ (filesOf store p).getLast? = some f ∧
      store' = AList.insert p (filesOf store p).dropLast store := by
  induction keys with
  | nil => cases h
  | cons pid keys ih =>
    unfold choose at h
    split_ifs at h with hused
    · exact (ih h).imp_left (List.mem_cons_of_mem _)
    · cases hlast : (filesOf store pid).getLast? with
      | none =>
        rw [hlast] at h
        exact (ih h).imp_left (List.mem_cons_of_mem _)
      | some path =>
        rw [hlast] at h
        cases h
        exact ⟨List.mem_cons_self, hused, hlast, rfl⟩

theorem choose_eq_none {used keys : List PeerId} (h : choose used store keys = none) :
    ∀ p ∈ keys, p ∉ used → filesOf store p = [] := by
  induction keys with
  | nil => nofun
  | cons pid keys ih =>
    intro p hp hunused
    unfold choose at h
    split_ifs at h with hused
    · rcases List.mem_cons.mp hp with rfl | hp
      · exact absurd hused hunused
      · exact ih h p hp hunused
    · cases hlast : (filesOf store pid).getLast? with
      | some path =>
        rw [hlast] at h
        cases h
      | none =>
        rw [hlast] at h
        rcases List.mem_cons.mp hp with rfl | hp
        · exact List.getLast?_eq_none_iff.mp hlast
        · exact ih h p hp hunused

end Store

/-! ## Merging -/

def ofTensors (m : TensorMap R) : Option (Content R) := some (.tensors m)

/-- The contents of files that can be merged one after the other. -/
def FittingContents (contents : List (Option (Content R))) : Prop :=
  ∃ maps, contents = maps.map ofTensors ∧ Fitting maps

theorem ofTensors_injective : Function.Injective (ofTensors : TensorMap R → Option (Content R)) := fun _ _ h =>
  Content.tensors.inj (Option.some.inj h)

theorem fittingContents_map {maps : List (TensorMap R)} : FittingContents (maps.map ofTensors) ↔ Fitting maps := by
  constructor
  · rintro ⟨maps', heq, hfitting⟩
    rwa [List.map_injective_iff.mpr ofTensors_injective heq]
  · exact fun hfitting => ⟨maps, rfl, hfitting⟩

theorem FittingContents.of_concat {contents : List (Option (Content R))} {content : Option (Content R)}
    (h : FittingContents (contents ++ [content])) :
    ∃ maps m, contents = maps.map ofTensors ∧ content = ofTensors m ∧ Fitting (maps ++ [m]) := by
  obtain ⟨all, heq, hfitting⟩ := h
  obtain ⟨maps, last, rfl, hmaps, hlast⟩ := List.append_eq_map_iff.mp heq
  obtain ⟨m, rfl, hm⟩ := List.map_eq_singleton_iff.mp hlast
  exact ⟨maps, m, hmaps.symm, hm.symm, hfitting⟩

theorem FittingContents.prefix {contents rest : List (Option (Content R))} (h : FittingContents (contents ++ rest)) :
    FittingContents contents := by
  induction rest using List.reverseRecOn with
  | nil => rwa [List.append_nil] at h
  | append_singleton rest content ih =>
    rw [← List.append_assoc] at h
    obtain ⟨maps, m, hmaps, -, hfitting⟩ := h.of_concat
    exact ih ⟨maps, hmaps, hfitting.of_concat⟩

/-- Files that come and go while updates are merged. -/
def FileName.isScratch : FileName → Bool
  | .joined _ | .result _ => true
  | _ => false

/-- A file that the aggregation owns: a received one, or one that it has made. -/
def Source.isOwned (uuids : Nat) : Source R → Prop
  | .staged _ => True
  | .named (.joined uuid) => uuid < uuids
  | .named _ => False

/-- A new UUID names no file yet. -/
def Server.Fresh (s : Server PeerId R) : Prop := ∀ uuid, s.uuids ≤ uuid → s.dir (.joined uuid) = none

section Merging
variable [CommRing R]

/-- What is in hand after taking updates with these contents: nothing, their sum, or a file without tensors when they
cannot be summed. -/
inductive Carries (s : Server PeerId R) : List (Option (Content R)) → Option (Source R) → Prop where
  | nothing : Carries s [] none
  | sum {src : Source R} {maps : List (TensorMap R)} {total : TensorMap R} (ne : maps ≠ []) (fitting : Fitting maps)
      (sums : SumOf maps total) (owned : src.isOwned s.uuids) (read : s.dir.read src = ofTensors total) :
      Carries s (maps.map ofTensors) (some src)
  | broken {src : Source R} {contents : List (Option (Content R))} (ne : contents ≠ [])
      (misfit : ¬ FittingContents contents) (owned : src.isOwned s.uuids) (read : ∀ m, s.dir.read src ≠ ofTensors m) :
      Carries s contents (some src)

/-- What a merge comes to. -/
structure Merged (s : Server PeerId R) (contents : List (Option (Content R))) (file : StagedFile R)
    (after : Server PeerId R × Except Failure (Source R)) : Prop where
  store : after.1.store = s.store
  arrivals : after.1.arrivals = s.arrivals
  fresh : after.1.Fresh
  frame : ∀ f, f.isScratch = false → after.1.dir f = s.dir f
  carries : ∀ src, after.2 = .ok src → Carries after.1 (contents ++ [file.content]) (some src)
  misfit : ∀ e, after.2 = .error e → ¬ FittingContents (contents ++ [file.content])

variable {digest : String → BitVec 256} {rank : String → Nat} {s : Server PeerId R} {file : StagedFile R}
  {contents : List (Option (Content R))} {current : Option (Source R)}

/-- The first update. -/
theorem merge_none (hfresh : s.Fresh) : Merged s [] file (merge digest rank s file none) where
  store := rfl
  arrivals := rfl
  fresh := hfresh
  frame _ _ := rfl
  carries src hsrc := by
    obtain rfl : Source.staged file = src := Except.ok.inj hsrc
    by_cases hread : ∃ m, file.content = ofTensors m
    · obtain ⟨m, hm⟩ := hread
      rw [List.nil_append, hm]
      exact .sum (List.cons_ne_nil m []) (Fitting.singleton m) (SumOf.singleton m) trivial hm
    · refine .broken (List.cons_ne_nil _ _) ?_ trivial fun m hm => hread ⟨m, hm⟩
      rintro hfitting
      obtain ⟨maps, m, -, hm, -⟩ := hfitting.of_concat
      exact hread ⟨m, hm⟩
  misfit e he := nomatch he

theorem Source.ne_joined {src : Source R} {uuids : Nat} (h : src.isOwned uuids) : src ≠ .named (.joined uuids) := by
  rintro rfl
  exact lt_irrefl _ h

theorem WorkDir.remove_of_ne {dir : WorkDir R} {src : Source R} {f : FileName} (h : src ≠ .named f) :
    dir.remove src f = dir f := by
  cases src with
  | staged file => rfl
  | named name => exact Function.update_of_ne (fun heq => h (congrArg Source.named heq.symm)) _ _

/-- The files that an operation and the removal of its second file leave as they were. -/
theorem merge_frame {result : Source R} {f : FileName} (hf : f.isResult = false) (hne : f ≠ .joined s.uuids)
    (hsrc : result ≠ .named f) : (merge digest rank s file (some result)).1.dir f = s.dir f := by
  have hframe : (applyTensorOp digest Tensor.add rank s.dir (.staged file) result (.joined s.uuids)).1 f = s.dir f :=
    applyTensorOp_frame hne hf
  unfold merge
  dsimp only
  split
  · rename_i dir e hrun
    rwa [hrun] at hframe
  · rename_i dir hrun
    rw [hrun] at hframe
    exact (WorkDir.remove_of_ne hsrc).trans hframe

theorem merge_some (result : Source R) :
    (merge digest rank s file (some result)).1.store = s.store ∧
      (merge digest rank s file (some result)).1.arrivals = s.arrivals ∧
      (merge digest rank s file (some result)).1.uuids = s.uuids + 1 := by
  unfold merge
  dsimp only
  split <;> exact ⟨rfl, rfl, rfl⟩

/-- Merging into something in hand: what is left to say is what is in hand then. -/
theorem Merged.of_some {result : Source R} (hfresh : s.Fresh) (howned : result.isOwned s.uuids)
    (hcarries : ∀ src, (merge digest rank s file (some result)).2 = .ok src →
      Carries (merge digest rank s file (some result)).1 (contents ++ [file.content]) (some src))
    (hmisfit : ∀ e, (merge digest rank s file (some result)).2 = .error e →
      ¬ FittingContents (contents ++ [file.content])) :
    Merged s contents file (merge digest rank s file (some result)) := by
  obtain ⟨hstore, harrivals, huuids⟩ := @merge_some _ _ _ _ digest rank s file result
  refine ⟨hstore, harrivals, fun uuid huuid => ?_, fun f hf => ?_, hcarries, hmisfit⟩
  · rw [huuids] at huuid
    have hne : FileName.joined uuid ≠ .joined s.uuids := fun heq => by
      rw [FileName.joined.inj heq] at huuid
      omega
    have hsrc : result ≠ .named (.joined uuid) := by
      rintro rfl
      have hlt : uuid < s.uuids := howned
      omega
    rw [merge_frame rfl hne hsrc, hfresh uuid (by omega)]
  · refine merge_frame ?_ ?_ ?_
    · cases f <;> first | rfl | cases hf
    · rintro rfl
      cases hf
    · rintro rfl
      cases f <;> first | exact howned | cases hf

theorem merge_error {result : Source R} {e : Failure}
    (h : (applyTensorOp digest Tensor.add rank s.dir (.staged file) result (.joined s.uuids)).2 = .error e) :
    (merge digest rank s file (some result)).2 = .error e := by
  unfold merge
  dsimp only
  split
  · rename_i dir e' hrun
    rw [hrun] at h
    exact congrArg Except.error (Except.error.inj h)
  · rename_i dir hrun
    rw [hrun] at h
    cases h

theorem merge_candle {e : Failure} (h : (merge digest rank s file current).2 = .error e) :
    ∃ error, e = .candle error := by
  cases current with
  | none => cases h
  | some result =>
    unfold merge at h
    dsimp only at h
    split at h
    · rename_i dir e' hrun
      cases h
      exact applyTensorOp_candle (congrArg Prod.snd hrun)
    · cases h

theorem merge_ok {result : Source R} {dir' : WorkDir R}
    (h : applyTensorOp digest Tensor.add rank s.dir (.staged file) result (.joined s.uuids) = (dir', .ok ())) :
    merge digest rank s file (some result) =
      ({ s with dir := dir'.remove result, uuids := s.uuids + 1 }, .ok (.named (.joined s.uuids))) := by
  unfold merge
  dsimp only
  rw [h]

/-- Merging into a file without tensors. -/
theorem merge_broken {result : Source R} (hfresh : s.Fresh) (howned : result.isOwned s.uuids)
    (hmisfit : ¬ FittingContents contents) (hread : ∀ m, s.dir.read result ≠ ofTensors m) :
    Merged s contents file (merge digest rank s file (some result)) := by
  have herror : (merge digest rank s file (some result)).2 = .error (.candle "invalid safetensors") :=
    merge_error (applyTensorOp_refused fun ⟨_, m, _, hm⟩ => hread m hm)
  exact .of_some hfresh howned (fun src hsrc => nomatch herror.symm.trans hsrc) fun _ _ hfit => hmisfit hfit.prefix

theorem fittingContents_concat {maps : List (TensorMap R)} {m total : TensorMap R} (hsum : SumOf maps total)
    (hne : maps ≠ []) (hfitting : Fitting maps) :
    FittingContents (maps.map ofTensors ++ [ofTensors m]) ↔ SameShapes m total ∧ Meets m total := by
  rw [← List.map_singleton, ← List.map_append, fittingContents_map, Fitting.concat_iff hsum hne]
  exact and_iff_right hfitting

section Sum
variable {result : Source R} {maps : List (TensorMap R)} {m total : TensorMap R} (hfresh : s.Fresh) (hne : maps ≠ [])
  (hfitting : Fitting maps) (hsum : SumOf maps total) (howned : result.isOwned s.uuids)
  (htotal : s.dir.read result = ofTensors total)

include hfresh howned in
/-- The new file is not one of tensors. -/
theorem merge_unreadable (h : ∀ m, file.content ≠ ofTensors m) :
    Merged s contents file (merge digest rank s file (some result)) := by
  have herror : (merge digest rank s file (some result)).2 = .error (.candle "invalid safetensors") :=
    merge_error (applyTensorOp_refused fun ⟨m, _, hm, _⟩ => h m hm)
  refine .of_some hfresh howned (fun src hsrc => nomatch herror.symm.trans hsrc) fun _ _ hfit => ?_
  obtain ⟨-, m, -, hm, -⟩ := hfit.of_concat
  exact h m hm

include hfresh hne hfitting hsum howned htotal in
/-- A tensor of the new file has another shape than its sum. -/
theorem merge_misshapen (hm : file.content = ofTensors m) (hshapes : ¬ SameShapes m total) :
    Merged s (maps.map ofTensors) file (merge digest rank s file (some result)) := by
  have hmismatch : ∃ n x y, m.lookup n = some x ∧ total.lookup n = some y ∧ Tensor.add x y = none := by
    by_contra hnone
    refine hshapes fun n x y hx hy => ?_
    by_contra hshape
    exact hnone ⟨n, x, y, hx, hy, Tensor.add_eq_none_iff.mpr hshape⟩
  have herror : (merge digest rank s file (some result)).2 = .error (.candle "shape mismatch") :=
    merge_error (applyTensorOp_mismatch hm htotal hmismatch)
  refine .of_some hfresh howned (fun src hsrc => nomatch herror.symm.trans hsrc) fun _ _ hfit => ?_
  rw [hm, fittingContents_concat hsum hne hfitting] at hfit
  exact hshapes hfit.1

include hfresh hne hfitting hsum howned htotal in
/-- The new file is added; without a common name there is no file for the sum. -/
theorem merge_added (hm : file.content = ofTensors m) (hshapes : SameShapes m total)
    (hinj : Set.InjOn digest {n | n ∈ m}) :
    Merged s (maps.map ofTensors) file (merge digest rank s file (some result)) := by
  obtain ⟨dir', C, hrun, happlied⟩ : ∃ dir' C,
      applyTensorOp digest Tensor.add rank s.dir (.staged file) result (.joined s.uuids) = (dir', .ok ()) ∧
        Applied Tensor.add m total (.joined s.uuids) s.dir dir' C :=
    applyTensorOp_ok hm htotal hinj rfl fun n x y hx hy =>
      Option.isSome_iff_exists.mpr (Tensor.exists_add (hshapes n x y hx hy))
  have hmerge := merge_ok hrun
  refine .of_some hfresh howned (fun src hsrc => ?_) fun e he => nomatch (congrArg Prod.snd hmerge).symm.trans he
  rw [hmerge] at hsrc ⊢
  obtain rfl : Source.named (.joined s.uuids) = src := Except.ok.inj hsrc
  have hread : (dir'.remove result) (.joined s.uuids) = dir' (.joined s.uuids) :=
    WorkDir.remove_of_ne (Source.ne_joined howned)
  have hconcat := @fittingContents_concat _ _ maps m total hsum hne hfitting
  rw [hm]
  by_cases hmeets : Meets m total
  · have hnext : SumOf (maps ++ [m]) C :=
      (hsum.cons hshapes happlied.combined).perm (List.perm_append_singleton m maps).symm
    have hfits := hconcat.mpr ⟨hshapes, hmeets⟩
    rw [← List.map_singleton, ← List.map_append] at hfits ⊢
    exact .sum (List.append_ne_nil_of_right_ne_nil _ (List.cons_ne_nil _ _)) (fittingContents_map.mp hfits) hnext
      (Nat.lt_succ_self _) (hread.trans (happlied.written hmeets))
  · refine .broken (List.append_ne_nil_of_right_ne_nil _ (List.cons_ne_nil _ _)) (fun hfit => hmeets (hconcat.mp hfit).2)
      (Nat.lt_succ_self _) fun m' hm' => ?_
    have hnone : dir' (.joined s.uuids) = none := (happlied.unwritten hmeets).trans (hfresh _ le_rfl)
    cases (hread.trans hnone).symm.trans hm'

end Sum

/-- Whatever is in hand, merging one more update leaves in hand what it should. -/
theorem merge_carries (hfresh : s.Fresh) (hcarries : Carries s contents current)
    (hinj : ∀ m, file.content = ofTensors m → Set.InjOn digest {n | n ∈ m}) :
    Merged s contents file (merge digest rank s file current) := by
  cases hcarries with
  | nothing => exact merge_none hfresh
  | @sum _ _ total ne fitting sums owned read =>
    by_cases htensors : ∃ m, file.content = ofTensors m
    · obtain ⟨m, hm⟩ := htensors
      by_cases hshapes : SameShapes m total
      · exact merge_added hfresh ne fitting sums owned read hm hshapes (hinj m hm)
      · exact merge_misshapen hfresh ne fitting sums owned read hm hshapes
    · exact merge_unreadable hfresh owned fun m hm => htensors ⟨m, hm⟩
  | broken ne misfit owned read => exact merge_broken hfresh owned misfit read

end Merging

/-! ## The loop -/

/-- How the loop ends, as long as nothing goes wrong; `goesOn` when the turns do not suffice. -/
inductive Ending where
  | finished
  | cancelled
  | goesOn
  deriving DecidableEq, Repr

/-- The updates that the loop takes, as long as nothing goes wrong. -/
def select (allowed : List PeerId) :
    List (Turn PeerId R) → UpdatesStore PeerId R → List PeerId → List (PeerId × StagedFile R) × Ending
  | [], _, _ => ([], .goesOn)
  | turn :: turns, store, used =>
    let store := turn.arrived.foldl push store
    match choose used store (eligibleKeys allowed turn.keysRank store) with
    | some (peerId, fileName, store) =>
      if usedAll allowed (peerId :: used) then ([(peerId, fileName)], .finished)
      else
        let rest := select allowed turns store (peerId :: used)
        ((peerId, fileName) :: rest.1, rest.2)
    | none =>
      match turn.wait with
      | .cancelled => ([], .cancelled)
      | .maxDelay | .deadline => ([], .finished)
      | .notified => select allowed turns store used

section Select
variable {allowed used : List PeerId} {turn : Turn PeerId R} {store store' : UpdatesStore PeerId R} {p : PeerId}
  {file : StagedFile R}

theorem select_some (turns : List (Turn PeerId R)) (h : choose used (turn.arrived.foldl push store)
      (eligibleKeys allowed turn.keysRank (turn.arrived.foldl push store)) = some (p, file, store')) :
    select allowed (turn :: turns) store used =
      if usedAll allowed (p :: used) then ([(p, file)], .finished)
      else ((p, file) :: (select allowed turns store' (p :: used)).1, (select allowed turns store' (p :: used)).2) := by
  simp only [select, h]

theorem select_none (turns : List (Turn PeerId R)) (h : choose used (turn.arrived.foldl push store)
      (eligibleKeys allowed turn.keysRank (turn.arrived.foldl push store)) = none) :
    (select allowed (turn :: turns) store used).1 = [] ∨
      select allowed (turn :: turns) store used = select allowed turns (turn.arrived.foldl push store) used := by
  simp only [select, h]
  cases turn.wait with
  | notified => exact .inr rfl
  | cancelled | maxDelay | deadline => exact .inl rfl

end Select

def contentsOf (taken : List (PeerId × StagedFile R)) : List (Option (Content R)) := taken.map fun u => u.2.content

section Loop
variable [CommRing R] {digest : String → BitVec 256} {allowed used : List PeerId} {turn : Turn PeerId R}
  {turns : List (Turn PeerId R)} {s : Server PeerId R} {current : Option (Source R)} {p : PeerId} {file : StagedFile R}
  {store : UpdatesStore PeerId R}

/-- What one turn comes to: what would be taken from there on, and what the loop returns. -/
inductive Turned (digest : String → BitVec 256) (allowed : List PeerId) (turn : Turn PeerId R)
    (turns : List (Turn PeerId R)) (s : Server PeerId R) (used : List PeerId) (current : Option (Source R)) :
    List (PeerId × StagedFile R) × Ending → Server PeerId R × Option (Except Failure (Option (Source R))) → Prop where
  | waits : Turned digest allowed turn turns s used current (select allowed turns (s.receive turn.arrived).store used)
      (aggregateLoop digest allowed turns (s.receive turn.arrived) used current)
  | cancelled (wait : turn.wait = .cancelled) :
      Turned digest allowed turn turns s used current ([], .cancelled)
        (s.receive turn.arrived, some (.error (.invalidExecutorConfig "aggregation cancelled")))
  | finished :
      Turned digest allowed turn turns s used current ([], .finished) (s.receive turn.arrived, some (.ok current))
  | fails {p : PeerId} {file : StagedFile R} {store : UpdatesStore PeerId R} {after : Server PeerId R} {e : Failure}
      (chosen : choose used (s.receive turn.arrived).store
        (eligibleKeys allowed turn.keysRank (s.receive turn.arrived).store) = some (p, file, store))
      (merged : merge digest turn.tensorsRank { s.receive turn.arrived with store } file current = (after, .error e))
      (rest : List (PeerId × StagedFile R)) (ending : Ending) :
      Turned digest allowed turn turns s used current ((p, file) :: rest, ending) (after, some (.error e))
  | last {p : PeerId} {file : StagedFile R} {store : UpdatesStore PeerId R} {after : Server PeerId R} {src : Source R}
      (chosen : choose used (s.receive turn.arrived).store
        (eligibleKeys allowed turn.keysRank (s.receive turn.arrived).store) = some (p, file, store))
      (merged : merge digest turn.tensorsRank { s.receive turn.arrived with store } file current = (after, .ok src)) :
      Turned digest allowed turn turns s used current ([(p, file)], .finished) (after, some (.ok (some src)))
  | takes {p : PeerId} {file : StagedFile R} {store : UpdatesStore PeerId R} {after : Server PeerId R} {src : Source R}
      (chosen : choose used (s.receive turn.arrived).store
        (eligibleKeys allowed turn.keysRank (s.receive turn.arrived).store) = some (p, file, store))
      (merged : merge digest turn.tensorsRank { s.receive turn.arrived with store } file current = (after, .ok src)) :
      Turned digest allowed turn turns s used current
        ((p, file) :: (select allowed turns store (p :: used)).1, (select allowed turns store (p :: used)).2)
        (aggregateLoop digest allowed turns after (p :: used) (some src))

theorem turned (turn : Turn PeerId R) (turns : List (Turn PeerId R)) (s : Server PeerId R) (used : List PeerId)
    (current : Option (Source R)) :
    Turned digest allowed turn turns s used current (select allowed (turn :: turns) s.store used)
      (aggregateLoop digest allowed (turn :: turns) s used current) := by
  cases hchoose : choose used (s.receive turn.arrived).store
      (eligibleKeys allowed turn.keysRank (s.receive turn.arrived).store) with
  | none =>
    have hselect : choose used (turn.arrived.foldl push s.store)
        (eligibleKeys allowed turn.keysRank (turn.arrived.foldl push s.store)) = none := hchoose
    simp only [select, aggregateLoop, hchoose, hselect]
    cases hwait : turn.wait with
    | notified => exact .waits
    | cancelled => exact .cancelled hwait
    | maxDelay => exact .finished
    | deadline => exact .finished
  | some chosen =>
    obtain ⟨p, file, store⟩ := chosen
    rw [select_some turns hchoose]
    simp only [aggregateLoop, hchoose]
    rcases hmerge : merge digest turn.tensorsRank { s.receive turn.arrived with store } file current with ⟨after, e | src⟩
    · split_ifs <;> exact .fails hchoose hmerge _ _
    · dsimp only
      split_ifs
      · exact .last hchoose hmerge
      · exact .takes hchoose hmerge

/-- What the loop comes to, where taking everything makes `all`: an error has a reason, and otherwise `all` is in hand. -/
structure Looped (s : Server PeerId R) (all : List (Option (Content R))) (ending : Ending)
    (after : Server PeerId R × Option (Except Failure (Option (Source R)))) : Prop where
  fresh : after.1.Fresh
  frame : ∀ f, f.isScratch = false → after.1.dir f = s.dir f
  ok : ∀ current, after.2 = some (.ok current) → ending = .finished ∧ Carries after.1 all current
  error : ∀ e, after.2 = some (.error e) → ending = .cancelled ∨ ¬ FittingContents all
  goesOn : after.2 = none → ending = .goesOn

theorem Looped.of_frame {s' : Server PeerId R} {all : List (Option (Content R))} {ending : Ending}
    {after : Server PeerId R × Option (Except Failure (Option (Source R)))} (h : Looped s' all ending after)
    (hframe : ∀ f, f.isScratch = false → s'.dir f = s.dir f) : Looped s all ending after :=
  { h with frame := fun f hf => (h.frame f hf).trans (hframe f hf) }

/-- What is in hand does not depend on the store. -/
theorem Carries.of_dir {s' : Server PeerId R} {contents : List (Option (Content R))} (h : Carries s contents current)
    (hdir : s'.dir = s.dir) (huuids : s'.uuids = s.uuids) : Carries s' contents current := by
  cases h with
  | nothing => exact .nothing
  | sum ne fitting sums owned read => exact .sum ne fitting sums (huuids ▸ owned) (hdir ▸ read)
  | broken ne misfit owned read => exact .broken ne misfit (huuids ▸ owned) (hdir ▸ read)

theorem contentsOf_cons (u : PeerId × StagedFile R) (taken : List (PeerId × StagedFile R)) :
    contentsOf (u :: taken) = u.2.content :: contentsOf taken := rfl

/-- The digest tells the names of each update apart. -/
def TellsApart (digest : String → BitVec 256) (taken : List (PeerId × StagedFile R)) : Prop :=
  ∀ u ∈ taken, ∀ m, u.2.content = ofTensors m → Set.InjOn digest {n | n ∈ m}

/-- The loop has in hand what it has taken. -/
theorem aggregateLoop_carries (turns : List (Turn PeerId R)) :
    ∀ (s : Server PeerId R) used current contents, s.Fresh → Carries s contents current →
      TellsApart digest (select allowed turns s.store used).1 →
        Looped s (contents ++ contentsOf (select allowed turns s.store used).1) (select allowed turns s.store used).2
          (aggregateLoop digest allowed turns s used current) := by
  induction turns with
  | nil =>
    intro s used current contents hfresh _ _
    exact ⟨hfresh, fun _ _ => rfl, nofun, nofun, fun _ => rfl⟩
  | cons turn turns ih =>
    intro s used current contents hfresh hcarries hdigest
    have hcarries' : Carries (s.receive turn.arrived) contents current := hcarries.of_dir rfl rfl
    have hturned := @turned _ _ _ _ digest allowed turn turns s used current
    generalize select allowed (turn :: turns) s.store used = selected at hturned hdigest ⊢
    generalize aggregateLoop digest allowed (turn :: turns) s used current = after at hturned ⊢
    cases hturned with
    | waits =>
      exact (ih (s.receive turn.arrived) used current contents hfresh hcarries' hdigest).of_frame fun _ _ => rfl
    | cancelled wait => exact ⟨hfresh, fun _ _ => rfl, nofun, fun _ _ => .inl rfl, nofun⟩
    | finished =>
      refine ⟨hfresh, fun _ _ => rfl, fun _ h => ⟨rfl, ?_⟩, nofun, nofun⟩
      cases h
      rw [contentsOf, List.map_nil, List.append_nil]
      exact hcarries'
    | @fails p file store after e chosen merged rest ending =>
      -- whatever else would be taken
      have hmerged : Merged { s.receive turn.arrived with store } contents file (after, .error e) :=
        merged ▸ merge_carries hfresh (hcarries.of_dir rfl rfl) (hdigest _ List.mem_cons_self)
      refine ⟨hmerged.fresh, hmerged.frame, nofun, fun _ _ => .inr fun hfit => hmerged.misfit e rfl ?_, nofun⟩
      rw [contentsOf_cons, ← List.singleton_append, ← List.append_assoc] at hfit
      exact hfit.prefix
    | @last p file store after src chosen merged =>
      have hmerged : Merged { s.receive turn.arrived with store } contents file (after, .ok src) :=
        merged ▸ merge_carries hfresh (hcarries.of_dir rfl rfl) (hdigest _ List.mem_cons_self)
      refine ⟨hmerged.fresh, hmerged.frame, fun _ h => ⟨rfl, ?_⟩, nofun, nofun⟩
      cases h
      exact hmerged.carries src rfl
    | @takes p file store after src chosen merged =>
      have hmerged : Merged { s.receive turn.arrived with store } contents file (after, .ok src) :=
        merged ▸ merge_carries hfresh (hcarries.of_dir rfl rfl) (hdigest _ List.mem_cons_self)
      have hrest := ih after (p :: used) (some src) _ hmerged.fresh (hmerged.carries src rfl)
      rw [hmerged.store] at hrest
      have hframe : ∀ f, f.isScratch = false → after.dir f = s.dir f := hmerged.frame
      have hlooped := (hrest fun u hu => hdigest u (List.mem_cons_of_mem _ hu)).of_frame hframe
      rwa [contentsOf_cons, ← List.singleton_append, ← List.append_assoc]

end Loop

/-! ## What is taken -/

section Taken
variable {allowed used : List PeerId} {store : UpdatesStore PeerId R}

/-- The updates that the turns take: one of each peer, of allowed peers only, and each the most recent of its peer when
it is taken. -/
structure Takes (allowed used : List PeerId) (store : UpdatesStore PeerId R) (turns : List (Turn PeerId R))
    (taken : List (PeerId × StagedFile R)) : Prop where
  nodup : (taken.map Prod.fst).Nodup
  unused : ∀ u ∈ taken, u.1 ∉ used
  allowed : ∀ u ∈ taken, allowed = [] ∨ u.1 ∈ allowed
  newest : ∀ u ∈ taken, ∃ earlier turn later, turns = earlier ++ turn :: later ∧
    (filesOf store u.1 ++ filesFrom u.1 ((earlier ++ [turn]).flatMap Turn.arrived)).getLast? = some u.2

theorem takes_nil (turns : List (Turn PeerId R)) : Takes allowed used store turns [] :=
  ⟨List.nodup_nil, nofun, nofun, nofun⟩

theorem newest_later {turn : Turn PeerId R} {turns : List (Turn PeerId R)} {store' : UpdatesStore PeerId R} {p : PeerId}
    {file : StagedFile R} (hstore : filesOf store' p = filesOf (turn.arrived.foldl push store) p)
    (h : ∃ earlier next later, turns = earlier ++ next :: later ∧
      (filesOf store' p ++ filesFrom p ((earlier ++ [next]).flatMap Turn.arrived)).getLast? = some file) :
    ∃ earlier next later, turn :: turns = earlier ++ next :: later ∧
      (filesOf store p ++ filesFrom p ((earlier ++ [next]).flatMap Turn.arrived)).getLast? = some file := by
  obtain ⟨earlier, next, later, rfl, hlast⟩ := h
  refine ⟨turn :: earlier, next, later, rfl, ?_⟩
  rw [hstore, filesOf_foldl_push, List.append_assoc, ← filesFrom_append] at hlast
  exact hlast

theorem select_takes (turns : List (Turn PeerId R)) :
    ∀ (store : UpdatesStore PeerId R) used, Takes allowed used store turns (select allowed turns store used).1 := by
  induction turns with
  | nil => exact fun _ _ => takes_nil []
  | cons turn turns ih =>
    intro store used
    cases hchoose : choose used (turn.arrived.foldl push store)
        (eligibleKeys allowed turn.keysRank (turn.arrived.foldl push store)) with
    | none =>
      rcases select_none turns hchoose with hselect | hselect
      · rw [hselect]
        exact takes_nil _
      · rw [hselect]
        have hrest := ih (turn.arrived.foldl push store) used
        exact ⟨hrest.nodup, hrest.unused, hrest.allowed, fun u hu => newest_later rfl (hrest.newest u hu)⟩
    | some chosen =>
      obtain ⟨p, file, store'⟩ := chosen
      obtain ⟨hkey, hunused, hlast, rfl⟩ := of_choose hchoose
      have hallowed := (mem_eligibleKeys.mp hkey).2
      have hnewest : ∃ earlier next later, turn :: turns = earlier ++ next :: later ∧
          (filesOf store p ++ filesFrom p ((earlier ++ [next]).flatMap Turn.arrived)).getLast? = some file := by
        refine ⟨[], turn, turns, rfl, ?_⟩
        rwa [List.nil_append, List.flatMap_singleton, ← filesOf_foldl_push]
      rw [select_some turns hchoose]
      split_ifs
      · exact ⟨List.nodup_singleton p, List.forall_mem_singleton.mpr hunused, List.forall_mem_singleton.mpr hallowed,
          List.forall_mem_singleton.mpr hnewest⟩
      · have hrest := ih (AList.insert p (filesOf (turn.arrived.foldl push store) p).dropLast
          (turn.arrived.foldl push store)) (p :: used)
        refine ⟨List.nodup_cons.mpr ⟨fun hp => ?_, hrest.nodup⟩, List.forall_mem_cons.mpr ⟨hunused, fun u hu => ?_⟩,
          List.forall_mem_cons.mpr ⟨hallowed, hrest.allowed⟩, List.forall_mem_cons.mpr ⟨hnewest, fun u hu => ?_⟩⟩
        · obtain ⟨u, hu, rfl⟩ := List.mem_map.mp hp
          exact hrest.unused u hu List.mem_cons_self
        · exact fun hmem => hrest.unused u hu (List.mem_cons_of_mem _ hmem)
        · have hne : u.1 ≠ p := fun heq => hrest.unused u hu (List.mem_cons.mpr (.inl heq))
          refine newest_later ?_ (hrest.newest u hu)
          rw [filesOf_insert, if_neg hne]

/-- An eligible update in the store: something is taken in the first turn. -/
theorem select_ne_nil {turn : Turn PeerId R} {turns : List (Turn PeerId R)} {p : PeerId}
    (hallowed : allowed = [] ∨ p ∈ allowed) (hunused : p ∉ used) (hfiles : filesOf store p ≠ []) :
    (select allowed (turn :: turns) store used).1 ≠ [] := by
  have hreceived : filesOf (turn.arrived.foldl push store) p ≠ [] := by
    rw [filesOf_foldl_push]
    exact List.append_ne_nil_of_left_ne_nil hfiles _
  cases hchoose : choose used (turn.arrived.foldl push store)
      (eligibleKeys allowed turn.keysRank (turn.arrived.foldl push store)) with
  | none =>
    exact absurd (choose_eq_none hchoose p (mem_eligibleKeys.mpr ⟨mem_of_filesOf hreceived, hallowed⟩) hunused) hreceived
  | some chosen =>
    rw [select_some turns hchoose]
    split_ifs <;> exact List.cons_ne_nil _ _

end Taken

/-! ## What the optimizer gets -/

/-- The tensors of a file; without any where it is not a file of tensors. -/
def StagedFile.tensors (file : StagedFile R) : TensorMap R :=
  match file.content with
  | some (.tensors m) => m
  | _ => ∅

theorem StagedFile.tensors_of_content {file : StagedFile R} {m : TensorMap R} (h : file.content = ofTensors m) :
    file.tensors = m := by
  unfold tensors
  rw [h]
  rfl

def mapsOf (taken : List (PeerId × StagedFile R)) : List (TensorMap R) := taken.map fun u => u.2.tensors

theorem contentsOf_of_readable {taken : List (PeerId × StagedFile R)}
    (h : ∀ u ∈ taken, u.2.content = ofTensors u.2.tensors) : contentsOf taken = (mapsOf taken).map ofTensors := by
  unfold contentsOf mapsOf
  rw [List.map_map]
  exact List.map_congr_left h

theorem fittingContents_iff {taken : List (PeerId × StagedFile R)} :
    FittingContents (contentsOf taken) ↔
      (∀ u ∈ taken, u.2.content = ofTensors u.2.tensors) ∧ Fitting (mapsOf taken) := by
  constructor
  · rintro ⟨maps, heq, hfitting⟩
    have hreadable : ∀ u ∈ taken, u.2.content = ofTensors u.2.tensors := fun u hu => by
      have hmem : u.2.content ∈ maps.map ofTensors := heq ▸ List.mem_map_of_mem hu
      obtain ⟨m, -, hm⟩ := List.mem_map.mp hmem
      rw [StagedFile.tensors_of_content hm.symm, hm]
    rw [contentsOf_of_readable hreadable] at heq
    rw [List.map_injective_iff.mpr ofTensors_injective heq]
    exact ⟨hreadable, hfitting⟩
  · rintro ⟨hreadable, hfitting⟩
    exact ⟨mapsOf taken, contentsOf_of_readable hreadable, hfitting⟩

section Handed
variable [CommRing R] {digest : String → BitVec 256} {s : Server PeerId R} {current : Option (Source R)}
  {contents : List (Option (Content R))} {maps : List (TensorMap R)}

theorem handOver_none {src : Source R} (h : s.dir.read src = none) :
    handOver s (some src) = (s, .error (.io "no such file")) := by
  unfold handOver
  dsimp only
  rw [h]

theorem handOver_some {src : Source R} {content : Content R} (h : s.dir.read src = some content) :
    handOver s (some src) =
      ({ s with dir := Function.update (s.dir.remove src) .avgFinal (some content) }, .ok ()) := by
  unfold handOver
  dsimp only
  rw [h]

theorem handOver_avgFinal {src : Source R} {content : Content R} (h : s.dir.read src = some content) :
    (handOver s (some src)).2 = .ok () ∧ (handOver s (some src)).1.dir .avgFinal = some content := by
  rw [handOver_some h]
  constructor
  · rfl
  · exact Function.update_self FileName.avgFinal (some content) (s.dir.remove src)

/-- The files that handing over leaves as they were. -/
theorem handOver_frame (h : Carries s contents current) {f : FileName} (hf : f.isScratch = false)
    (hfinal : f ≠ .avgFinal) : (handOver s current).1.dir f = s.dir f := by
  have howned : ∀ src, current = some src → src.isOwned s.uuids := by
    cases h with
    | nothing => nofun
    | sum _ _ _ owned _ => exact fun _ heq => Option.some.inj heq ▸ owned
    | broken _ _ owned _ => exact fun _ heq => Option.some.inj heq ▸ owned
  cases current with
  | none => rfl
  | some src =>
    have hsrc : src ≠ .named f := by
      rintro rfl
      cases f <;> first | exact howned _ rfl | cases hf
    cases hread : s.dir.read src with
    | none => rw [handOver_none hread]
    | some content =>
      rw [handOver_some hread]
      exact (Function.update_of_ne hfinal _ _).trans (WorkDir.remove_of_ne hsrc)

/-- Where everything in hand fits, the optimizer gets its sum. -/
theorem handOver_sum (h : Carries s (maps.map ofTensors) current) (hne : maps ≠ []) (hfitting : Fitting maps) :
    ∃ total, SumOf maps total ∧ (handOver s current).2 = .ok () ∧
      (handOver s current).1.dir .avgFinal = ofTensors total := by
  generalize hcontents : maps.map ofTensors = contents at h
  cases h with
  | nothing => exact absurd (List.map_eq_nil_iff.mp hcontents) hne
  | @sum src maps' total _ _ sums _ read =>
    obtain rfl := List.map_injective_iff.mpr ofTensors_injective hcontents
    exact ⟨total, sums, handOver_avgFinal read⟩
  | broken _ misfit _ _ => exact absurd ⟨maps, hcontents.symm, hfitting⟩ misfit

/-- Where it does not, the optimizer gets nothing, or a file without tensors. -/
theorem handOver_misfit (h : Carries s contents current) (hmisfit : ¬ FittingContents contents) :
    (∃ e, (handOver s current).2 = .error e) ∨ ∃ content, (handOver s current).2 = .ok () ∧
      (handOver s current).1.dir .avgFinal = some content ∧ ∀ G, content ≠ .tensors G := by
  cases h with
  | nothing => exact .inl ⟨_, rfl⟩
  | sum _ fitting _ _ _ => exact absurd (fittingContents_map.mpr fitting) hmisfit
  | @broken src _ _ _ _ read =>
    cases hread : s.dir.read src with
    | none =>
      rw [handOver_none hread]
      exact .inl ⟨_, rfl⟩
    | some content =>
      obtain ⟨hok, hfinal⟩ := handOver_avgFinal hread
      refine .inr ⟨content, hok, hfinal, ?_⟩
      rintro G rfl
      exact read G hread

end Handed

/-! ## The call -/

/-- What the call takes as long as nothing goes wrong. -/
def Call.taken (call : Call PeerId R) (s : Server PeerId R) : List (PeerId × StagedFile R) :=
  (select call.allowed call.turns s.store []).1

def Call.ending (call : Call PeerId R) (s : Server PeerId R) : Ending := (select call.allowed call.turns s.store []).2

section Calls
variable [CommRing R] {digest : String → BitVec 256} {call : Call PeerId R} {s : Server PeerId R}

theorem looped (hfresh : s.Fresh) (hdigest : TellsApart digest (call.taken s)) :
    Looped s (contentsOf (call.taken s)) (call.ending s) (aggregateLoop digest call.allowed call.turns s [] none) :=
  aggregateLoop_carries call.turns s [] none [] hfresh .nothing hdigest

theorem gather_of_loop {s' : Server PeerId R} {current : Option (Source R)}
    (h : aggregateLoop digest call.allowed call.turns s [] none = (s', some (.ok current))) :
    gather digest call s =
      ((handOver (s'.receive call.late) current).1, some (handOver (s'.receive call.late) current).2) := by
  unfold gather
  rw [h]

theorem gather_of_error {s' : Server PeerId R} {e : Failure}
    (h : aggregateLoop digest call.allowed call.turns s [] none = (s', some (.error e))) :
    gather digest call s = (s'.receive call.late, some (.error e)) := by
  unfold gather
  rw [h]

theorem gather_of_none {s' : Server PeerId R}
    (h : aggregateLoop digest call.allowed call.turns s [] none = (s', none)) : gather digest call s = (s', none) := by
  unfold gather
  rw [h]

/-- The loop ends with what it has taken in hand, where that fits. -/
theorem gather_sum (hfresh : s.Fresh) (hdigest : TellsApart digest (call.taken s)) (hended : call.ending s = .finished)
    (hne : call.taken s ≠ []) (hfitting : FittingContents (contentsOf (call.taken s))) :
    ∃ total, SumOf (mapsOf (call.taken s)) total ∧ (gather digest call s).2 = some (.ok ()) ∧
      (gather digest call s).1.dir .avgFinal = ofTensors total ∧
      ∀ f, f.isScratch = false → f ≠ .avgFinal → (gather digest call s).1.dir f = s.dir f := by
  have hlooped := looped hfresh hdigest
  rcases hloop : aggregateLoop digest call.allowed call.turns s [] none with ⟨s', _ | e | current⟩
  · rw [hloop] at hlooped
    cases hended.symm.trans (hlooped.goesOn rfl)
  · rw [hloop] at hlooped
    rcases hlooped.error e rfl with hcancelled | hmisfit
    · cases hended.symm.trans hcancelled
    · exact absurd hfitting hmisfit
  · rw [hloop] at hlooped
    obtain ⟨hreadable, hmaps⟩ := fittingContents_iff.mp hfitting
    have hcarries := ((hlooped.ok current rfl).2.of_dir rfl rfl : Carries (s'.receive call.late) _ current)
    obtain ⟨total, hsum, hok, hfinal⟩ := handOver_sum (contentsOf_of_readable hreadable ▸ hcarries)
      (fun h => hne (List.map_eq_nil_iff.mp h)) hmaps
    rw [gather_of_loop hloop]
    refine ⟨total, hsum, congrArg some hok, hfinal, fun f hf hne => ?_⟩
    exact (handOver_frame hcarries hf hne).trans (hlooped.frame f hf)

theorem aggregateUpdates_of_error {e : Failure} (h : (gather digest call s).2 = some (.error e)) :
    (aggregateUpdates digest call s).2 = some (.error e) := by
  unfold aggregateUpdates
  rcases hgather : gather digest call s with ⟨s', _ | e' | _⟩
  · rw [hgather] at h
    cases h
  · rw [hgather] at h
    cases h
    rfl
  · rw [hgather] at h
    cases h

/-- Where the optimizer is called, its result is that of the call. -/
theorem aggregateUpdates_of_gather (h : (gather digest call s).2 = some (.ok ())) :
    (aggregateUpdates digest call s).2 = some (nesterov digest call.momentum call.learningRate call.momentumRank
      call.updateRank (gather digest call s).1.dir (.named .avgFinal)).2 := by
  unfold aggregateUpdates
  rcases hgather : gather digest call s with ⟨s', _ | e' | _⟩
  · rw [hgather] at h
    cases h
  · rw [hgather] at h
    cases h
  · dsimp only
    rcases nesterov digest call.momentum call.learningRate call.momentumRank call.updateRank s'.dir (.named .avgFinal) with
      ⟨dir, e | path⟩ <;> rfl

/-- Updates that cannot be summed fail the call. -/
theorem aggregateUpdates_misfit (hfresh : s.Fresh) (hdigest : TellsApart digest (call.taken s))
    (hended : call.ending s ≠ .goesOn) (hmisfit : ¬ FittingContents (contentsOf (call.taken s))) :
    ∃ e, (aggregateUpdates digest call s).2 = some (.error e) := by
  have hlooped := looped hfresh hdigest
  rcases hloop : aggregateLoop digest call.allowed call.turns s [] none with ⟨s', _ | e | current⟩
  · rw [hloop] at hlooped
    exact absurd (hlooped.goesOn rfl) hended
  · exact ⟨e, aggregateUpdates_of_error (by rw [gather_of_error hloop])⟩
  · rw [hloop] at hlooped
    have hcarries : Carries (s'.receive call.late) _ current := (hlooped.ok current rfl).2.of_dir rfl rfl
    have hgather := gather_of_loop hloop
    rcases handOver_misfit hcarries hmisfit with ⟨e, he⟩ | ⟨content, hok, hfinal, hrefused⟩
    · exact ⟨e, aggregateUpdates_of_error (by rw [hgather, he])⟩
    · refine ⟨.candle "invalid safetensors", (aggregateUpdates_of_gather (by rw [hgather, hok])).trans ?_⟩
      rw [hgather]
      exact congrArg some (nesterov_refused rfl hfinal hrefused)

/-- What a call sums: the names that are common to all the updates it takes, one of each peer. -/
structure SumsUpdates (digest : String → BitVec 256) (call : Call PeerId R) (s : Server PeerId R) : Prop where
  takes : Takes call.allowed [] s.store call.turns (call.taken s)
  ne : call.taken s ≠ []
  /-- The optimizer gets the sum, whatever the order, where all are files of tensors and, if there is more than one, have
  a common name. -/
  sums : (∀ u ∈ call.taken s, u.2.content = ofTensors u.2.tensors) →
    ((call.taken s).length = 1 ∨ ∃ name, ∀ u ∈ call.taken s, name ∈ u.2.tensors) →
      ∃ total, (gather digest call s).2 = some (.ok ()) ∧
        (gather digest call s).1.dir .avgFinal = some (.tensors total) ∧
        ∀ maps, (mapsOf (call.taken s)).Perm maps → SumOf maps total
  fails : 2 ≤ (call.taken s).length → (¬ ∃ name, ∀ u ∈ call.taken s, name ∈ u.2.tensors) →
    ∃ e, (aggregateUpdates digest call s).2 = some (.error e)

/-- **Aggregation sums**, for updates of the same shapes. -/
theorem aggregation_sums (hfresh : s.Fresh) (hdigest : TellsApart digest (call.taken s))
    (heligible : ∃ p, (call.allowed = [] ∨ p ∈ call.allowed) ∧ filesOf s.store p ≠ [])
    (hended : call.ending s = .finished)
    (hshapes : ∀ u ∈ call.taken s, ∀ v ∈ call.taken s, SameShapes u.2.tensors v.2.tensors) :
    SumsUpdates digest call s := by
  have hne : call.taken s ≠ [] := by
    obtain ⟨p, hallowed, hfiles⟩ := heligible
    unfold Call.ending at hended
    unfold Call.taken
    cases hturns : call.turns with
    | nil =>
      rw [hturns] at hended
      cases hended
    | cons turn turns => exact select_ne_nil hallowed List.not_mem_nil hfiles
  have hlength : (mapsOf (call.taken s)).length = (call.taken s).length := List.length_map _
  refine ⟨select_takes call.turns s.store [], hne, fun hreadable hcommon => ?_, fun htwo hnone => ?_⟩
  · have hfitting : Fitting (mapsOf (call.taken s)) := by
      refine .of_sameShapes (fun htwo => ?_) ?_
      · obtain ⟨name, hname⟩ := hcommon.resolve_left (by omega)
        exact ⟨name, List.forall_mem_map.mpr hname⟩
      · exact List.forall_mem_map.mpr fun u hu => List.forall_mem_map.mpr fun v hv => hshapes u hu v hv
    obtain ⟨total, hsum, hok, hfinal, -⟩ :=
      gather_sum hfresh hdigest hended hne (fittingContents_iff.mpr ⟨hreadable, hfitting⟩)
    exact ⟨total, hok, hfinal, fun maps hperm => hsum.perm hperm⟩
  · refine aggregateUpdates_misfit hfresh hdigest (hended ▸ nofun) fun hfitting => ?_
    obtain ⟨name, hname⟩ := (fittingContents_iff.mp hfitting).2.common (hlength ▸ htwo)
    exact hnone ⟨name, fun u hu => hname _ (List.mem_map_of_mem hu)⟩

end Calls

/-- A file with one number, under the name that `testDigest` is about. -/
def testUpdate (uuid : Nat) (x : ℚ) : StagedFile ℚ := ⟨uuid, ofTensors (AList.singleton "gradient" ⟨[1], [x], rfl⟩)⟩

/-- Two peers have sent updates, one of them two. -/
def testServer : Server Nat ℚ where
  store := AList.insert 1 [testUpdate 10 1, testUpdate 11 2] (AList.singleton 2 [testUpdate 20 3])
  dir _ := none

/-- A third peer sends its update while the aggregation waits for it. -/
def testCall : Call Nat ℚ where
  allowed := [1, 2, 3]
  momentum := 7/10
  learningRate := 1/10
  turns := [⟨[], id, fun _ => 0, .notified⟩, ⟨[], id, fun _ => 0, .notified⟩, ⟨[], id, fun _ => 0, .notified⟩,
    ⟨[⟨3, testUpdate 30 4⟩], id, fun _ => 0, .notified⟩]
  momentumRank _ := 0
  updateRank _ := 0

theorem testUpdate_tensors (uuid : Nat) (x : ℚ) :
    (testUpdate uuid x).tensors = AList.singleton "gradient" ⟨[1], [x], rfl⟩ := rfl

theorem aggregation_sums_threePeers :
    SumsUpdates testDigest testCall testServer ∧
      testCall.taken testServer = [(1, testUpdate 11 2), (2, testUpdate 20 3), (3, testUpdate 30 4)] := by
  have htaken : testCall.taken testServer = [(1, testUpdate 11 2), (2, testUpdate 20 3), (3, testUpdate 30 4)] := rfl
  have hupdate : ∀ u ∈ testCall.taken testServer, ∃ uuid x, u.2 = testUpdate uuid x := by
    rw [htaken]
    simp only [List.forall_mem_cons]
    exact ⟨⟨_, _, rfl⟩, ⟨_, _, rfl⟩, ⟨_, _, rfl⟩, nofun⟩
  refine ⟨aggregation_sums (fun _ _ => rfl) (fun u hu m hm => ?_) ⟨1, .inr (by decide), by decide⟩ rfl
    (fun u hu v hv name a b ha hb => ?_), htaken⟩
  · obtain ⟨uuid, x, hux⟩ := hupdate u hu
    rw [← StagedFile.tensors_of_content hm, hux, testUpdate_tensors]
    exact fun a ha b hb _ => (List.mem_singleton.mp ha).trans (List.mem_singleton.mp hb).symm
  · obtain ⟨uuid, x, hux⟩ := hupdate u hu
    obtain ⟨uuid', x', hvx⟩ := hupdate v hv
    rw [hux, testUpdate_tensors, Table.lookup_singleton] at ha
    rw [hvx, testUpdate_tensors, Table.lookup_singleton] at hb
    split_ifs at ha hb
    cases ha
    cases hb
    rfl

end Hypha.ParameterServer
