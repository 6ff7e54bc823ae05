import Mathlib.Data.Set.Function
import Mathlib.Logic.Function.Basic
import Hypha.Lib.Tensor

/-!
# Operations on files of tensors (`parameter_server.rs`)

`apply_tensor_op` reads two files and writes a third, by way of one more file for each tensor, which is named by the
digest of the tensor's name. The work directory maps the names of its files to what they contain; a received update lies
elsewhere, under a name of its own, and is a `StagedFile`. Numbers are exact; `tensors()` lists the tensors of a file in
an order that nobody promises, so the order is given by a ranking of their names.

* `operate`, `operate_ok` : the loop over the tensors of the first file;
* `applyTensorOp`, `applyTensorOp_ok` : the result has the names that the files have in common;
* `applyTensorOp_frame` : what is not touched.
-/

namespace Hypha.ParameterServer

open Hypha.Lib

set_option linter.unusedSectionVars false

/-- The files of the work directory; the results of single tensors are named by the SHA-256 digest of the tensor's
name. -/
inductive FileName where
  | momentum
  | momentumUpdate
  | gradientUpdate
  | avgFinal
  | joined (uuid : Nat)
  | result (digest : BitVec 256)
  | other (path : String)
  deriving DecidableEq, Repr

def FileName.isResult : FileName → Bool
  | .result _ => true
  | _ => false

/-- Neither a result nor one of the optimizer's own files. -/
def FileName.isInput : FileName → Bool
  | .avgFinal | .joined _ | .other _ => true
  | .momentum | .momentumUpdate | .gradientUpdate | .result _ => false

variable {R : Type}

/-- What a file contains: tensors, or something that `MmapedSafetensors::new` refuses. -/
inductive Content (R : Type) where
  | tensors (tensors : TensorMap R)
  | refused

/-- A received update, as its file is found when it is opened. -/
structure StagedFile (R : Type) where
  uuid : Nat
  content : Option (Content R)

/-- The path of a file to read. -/
inductive Source (R : Type) where
  | staged (file : StagedFile R)
  | named (name : FileName)

abbrev WorkDir (R : Type) := FileName → Option (Content R)

def WorkDir.read (dir : WorkDir R) : Source R → Option (Content R)
  | .staged file => file.content
  | .named name => dir name

def Source.isInput : Source R → Bool
  | .staged _ => true
  | .named name => name.isInput

/-- What reading an input depends on. -/
theorem WorkDir.read_congr {dir dir' : WorkDir R} (h : ∀ f, f.isInput = true → dir' f = dir f) {source : Source R}
    (hsource : source.isInput = true) : dir'.read source = dir.read source := by
  cases source with
  | staged file => rfl
  | named name => exact h name hsource

theorem FileName.not_isResult {f : FileName} (h : f.isInput = true) : f.isResult = false := by
  cases f <;> first | rfl | cases h

/-- `executor::Error`, as far as the aggregation returns it, and a panic. -/
inductive Failure where
  | candle (error : String)
  | io (error : String)
  | invalidExecutorConfig (message : String)
  | panicked (message : String)
  deriving DecidableEq, Repr

/-- `step?`, then the rest. -/
def andThen {α β : Type} (step : WorkDir R × Except Failure α)
    (rest : WorkDir R → α → WorkDir R × Except Failure β) : WorkDir R × Except Failure β :=
  match step with
  | (dir, .error e) => (dir, .error e)
  | (dir, .ok a) => rest dir a

theorem andThen_ok {α β : Type} (dir : WorkDir R) (a : α) (rest : WorkDir R → α → WorkDir R × Except Failure β) :
    andThen (dir, .ok a) rest = rest dir a := rfl

theorem andThen_error {α β : Type} {step : WorkDir R × Except Failure α}
    {rest : WorkDir R → α → WorkDir R × Except Failure β} {e : Failure} (h : step.2 = .error e) :
    (andThen step rest).2 = .error e := by
  obtain ⟨dir, e' | a⟩ := step
  · exact congrArg Except.error (Except.error.inj h)
  · cases h

theorem andThen_eq_error {α β : Type} {step : WorkDir R × Except Failure α}
    {rest : WorkDir R → α → WorkDir R × Except Failure β} {e : Failure} (h : (andThen step rest).2 = .error e) :
    step.2 = .error e ∨ ∃ dir a, step = (dir, .ok a) ∧ (rest dir a).2 = .error e := by
  obtain ⟨dir, e' | a⟩ := step
  · exact .inl (congrArg Except.error (Except.error.inj h))
  · exact .inr ⟨dir, a, rfl, h⟩

theorem andThen_eq_ok {α β : Type} {step : WorkDir R × Except Failure α}
    {rest : WorkDir R → α → WorkDir R × Except Failure β} {b : β} (h : (andThen step rest).2 = .ok b) :
    ∃ dir a, step = (dir, .ok a) ∧ (rest dir a).2 = .ok b := by
  obtain ⟨dir, e | a⟩ := step
  · cases h
  · exact ⟨dir, a, rfl, h⟩

abbrev TensorOp (R : Type) := Tensor R → Tensor R → Option (Tensor R)

section Operation
variable (digest : String → BitVec 256) (op : TensorOp R)

/-- The loop over the tensors of the first file, with the paths of the results. -/
def operate (tensorsB : TensorMap R) :
    List (Σ _ : String, Tensor R) → WorkDir R → List FileName → WorkDir R × Except Failure (List FileName)
  | [], dir, resultTensors => (dir, .ok resultTensors)
  | ⟨name, tensorA⟩ :: tensorsA, dir, resultTensors =>
    match tensorsB.lookup name with
    | some tensorB =>
      match op tensorA tensorB with
      | some resultTensor =>
        let resultPath := FileName.result (digest name)
        operate tensorsB tensorsA (Function.update dir resultPath (some (.tensors (AList.singleton name resultTensor))))
          (resultTensors ++ [resultPath])
      | none => (dir, .error (.candle "shape mismatch"))
    -- not found in the second file: skipped
    | none => operate tensorsB tensorsA dir resultTensors

/-- `MmapedSafetensors::multi`. -/
def multi (dir : WorkDir R) : List FileName → Option (TensorMap R)
  | [] => some ∅
  | path :: paths =>
    match dir path with
    | some (.tensors tensors) => (multi dir paths).map (· ∪ tensors)
    | _ => none

/-- Write all result tensors to the new file; with none, nothing is written. -/
def writeResults (output : FileName) (dir : WorkDir R) (resultTensors : List FileName) : WorkDir R × Except Failure Unit :=
  if resultTensors.isEmpty then (dir, .ok ())
  else
    match multi dir resultTensors with
    | some allTensors => (Function.update dir output (some (.tensors allTensors)), .ok ())
    | none => (dir, .error (.candle "invalid safetensors"))

def applyTensorOp (rank : String → Nat) (dir : WorkDir R) (fileA fileB : Source R) (output : FileName) :
    WorkDir R × Except Failure Unit :=
  match dir.read fileA, dir.read fileB with
  | some (.tensors tensorsA), some (.tensors tensorsB) =>
    andThen (operate digest op tensorsB (tensorsA.listing rank) dir []) (writeResults output)
  | _, _ => (dir, .error (.candle "invalid safetensors"))

/-! ## The loop -/

variable {op} {tensorsB : TensorMap R}

theorem operate_skip {name : String} {x : Tensor R} {rest : List (Σ _ : String, Tensor R)} {dir : WorkDir R}
    {results : List FileName} (h : tensorsB.lookup name = none) :
    operate digest op tensorsB (⟨name, x⟩ :: rest) dir results = operate digest op tensorsB rest dir results := by
  simp only [operate, h]

theorem operate_result {name : String} {x y t : Tensor R} {rest : List (Σ _ : String, Tensor R)} {dir : WorkDir R}
    {results : List FileName} (h : tensorsB.lookup name = some y) (ht : op x y = some t) :
    operate digest op tensorsB (⟨name, x⟩ :: rest) dir results =
      operate digest op tensorsB rest
        (Function.update dir (.result (digest name)) (some (.tensors (AList.singleton name t))))
        (results ++ [.result (digest name)]) := by
  simp only [operate, h, ht]

theorem operate_mismatch {name : String} {x y : Tensor R} {rest : List (Σ _ : String, Tensor R)} {dir : WorkDir R}
    {results : List FileName} (h : tensorsB.lookup name = some y) (ht : op x y = none) :
    operate digest op tensorsB (⟨name, x⟩ :: rest) dir results = (dir, .error (.candle "shape mismatch")) := by
  simp only [operate, h, ht]

/-- Only the files of results are touched. -/
theorem operate_frame {f : FileName} (hf : f.isResult = false) (tensors : List (Σ _ : String, Tensor R)) :
    ∀ dir results, (operate digest op tensorsB tensors dir results).1 f = dir f := by
  induction tensors with
  | nil => exact fun _ _ => rfl
  | cons e rest ih =>
    obtain ⟨name, x⟩ := e
    intro dir results
    cases hB : tensorsB.lookup name with
    | none => rw [operate_skip digest hB, ih]
    | some y =>
      cases ht : op x y with
      | none => rw [operate_mismatch digest hB ht]
      | some t =>
        have hne : f ≠ .result (digest name) := by
          rintro rfl
          cases hf
        rw [operate_result digest hB ht, ih, Function.update_of_ne hne]

theorem dlookup_cons {name : String} {x : Tensor R} {rest : List (Σ _ : String, Tensor R)} (n : String) :
    List.dlookup n (⟨name, x⟩ :: rest) = if n = name then some x else List.dlookup n rest := by
  split_ifs with h
  · subst h
    exact List.dlookup_cons_eq rest n x
  · exact List.dlookup_cons_ne rest ⟨name, x⟩ h

variable (op tensorsB)

/-- What the loop comes to: the files of the results are there and hold, together, the results. -/
structure Operated (tensors : List (Σ _ : String, Tensor R)) (dir dir' : WorkDir R) (made : List FileName)
    (results : TensorMap R) : Prop where
  /-- Only the files of these tensors are touched. -/
  frame : ∀ f, (∀ n ∈ tensors.keys, f ≠ .result (digest n)) → dir' f = dir f
  read : multi dir' made = some results
  empty : made = [] ↔ ∀ n, results.lookup n = none
  lookup : ∀ n, results.lookup n = (tensors.dlookup n).bind fun x => (tensorsB.lookup n).bind (op x)

variable {op tensorsB}

theorem Operated.skip {name : String} {x : Tensor R} {rest : List (Σ _ : String, Tensor R)} {dir dir' : WorkDir R}
    {made : List FileName} {C : TensorMap R} (hB : tensorsB.lookup name = none)
    (h : Operated digest op tensorsB rest dir dir' made C) :
    Operated digest op tensorsB (⟨name, x⟩ :: rest) dir dir' made C where
  frame f hf := h.frame f fun n hn => hf n (List.mem_cons_of_mem _ hn)
  read := h.read
  empty := h.empty
  lookup n := by
    rw [h.lookup, dlookup_cons]
    split_ifs with hn
    · rw [hn, hB]
      cases List.dlookup name rest <;> rfl
    · rfl

/-- One more result, under a name that does not come again. -/
theorem Operated.result {name : String} {x y t : Tensor R} {rest : List (Σ _ : String, Tensor R)} {dir dir' : WorkDir R}
    {made : List FileName} {C : TensorMap R} (hB : tensorsB.lookup name = some y) (ht : op x y = some t)
    (hname : name ∉ rest.keys) (hdigest : ∀ n ∈ rest.keys, digest n ≠ digest name)
    (h : Operated digest op tensorsB rest
      (Function.update dir (.result (digest name)) (some (.tensors (AList.singleton name t)))) dir' made C) :
    Operated digest op tensorsB (⟨name, x⟩ :: rest) dir dir' (.result (digest name) :: made)
      (C ∪ AList.singleton name t) := by
  have hnone : List.dlookup name rest = none := List.dlookup_eq_none.mpr hname
  have hread : dir' (.result (digest name)) = some (.tensors (AList.singleton name t)) := by
    rw [h.frame _ fun n hn heq => hdigest n hn (FileName.result.inj heq).symm, Function.update_self]
  have hlookup : ∀ n, (C ∪ AList.singleton name t).lookup n =
      (List.dlookup n (⟨name, x⟩ :: rest)).bind fun x => (tensorsB.lookup n).bind (op x) := by
    intro n
    rw [dlookup_cons]
    split_ifs with hn
    · subst hn
      have hC : n ∉ C := by
        rw [← AList.lookup_eq_none, h.lookup, hnone]
        rfl
      rw [AList.lookup_union_right hC, Table.lookup_singleton, if_pos rfl, hB]
      exact ht.symm
    · rw [← h.lookup]
      by_cases hC : n ∈ C
      · exact AList.lookup_union_left hC
      · rw [AList.lookup_union_right hC, Table.lookup_singleton, if_neg hn, AList.lookup_eq_none.mpr hC]
  refine ⟨fun f hf => ?_, ?_, ?_, hlookup⟩
  · rw [h.frame f fun n hn => hf n (List.mem_cons_of_mem _ hn), Function.update_of_ne (hf name List.mem_cons_self)]
  · simp only [multi, hread, h.read, Option.map_some]
  · refine iff_of_false (List.cons_ne_nil _ _) fun hempty => ?_
    have hsome := hlookup name
    rw [hempty, dlookup_cons, if_pos rfl, hB] at hsome
    exact absurd (hsome.trans ht) nofun

theorem operate_ok (tensors : List (Σ _ : String, Tensor R)) (hkeys : tensors.NodupKeys)
    (hinj : Set.InjOn digest {n | n ∈ tensors.keys})
    (hop : ∀ n x y, tensors.dlookup n = some x → tensorsB.lookup n = some y → (op x y).isSome) :
    ∀ dir results, ∃ dir' made C, operate digest op tensorsB tensors dir results = (dir', .ok (results ++ made)) ∧
      Operated digest op tensorsB tensors dir dir' made C := by
  induction tensors with
  | nil =>
    intro dir results
    refine ⟨dir, [], ∅, by rw [List.append_nil]; rfl, ?_⟩
    exact ⟨fun _ _ => rfl, rfl, iff_of_true rfl AList.lookup_empty, AList.lookup_empty⟩
  | cons e rest ih =>
    obtain ⟨name, x⟩ := e
    obtain ⟨hname, hrest⟩ := List.nodupKeys_cons.mp hkeys
    have hkey : ∀ n ∈ rest.keys, n ≠ name := fun n hn heq => hname (heq ▸ hn)
    specialize ih hrest (hinj.mono fun n hn => List.mem_cons_of_mem _ hn) fun n x' y hx' hy => by
      have hn : n ≠ name := hkey n (List.dlookup_isSome.mp (hx' ▸ rfl))
      exact hop n x' y (by rw [dlookup_cons, if_neg hn, hx']) hy
    intro dir results
    cases hB : tensorsB.lookup name with
    | none =>
      obtain ⟨dir', made, C, hrun, hmade⟩ := ih dir results
      exact ⟨dir', made, C, by rw [operate_skip digest hB, hrun], hmade.skip digest hB⟩
    | some y =>
      obtain ⟨t, ht⟩ := Option.isSome_iff_exists.mp (hop name x y (by rw [dlookup_cons, if_pos rfl]) hB)
      obtain ⟨dir', made, C, hrun, hmade⟩ :=
        ih (Function.update dir (.result (digest name)) (some (.tensors (AList.singleton name t))))
          (results ++ [.result (digest name)])
      refine ⟨dir', .result (digest name) :: made, _, ?_, hmade.result digest hB ht hname fun n hn heq => ?_⟩
      · rw [operate_result digest hB ht, hrun, List.append_assoc]
        rfl
      · exact hkey n hn (hinj (List.mem_cons_of_mem _ hn) List.mem_cons_self heq)

/-- Two tensors that do not fit end the loop. -/
theorem operate_error (tensors : List (Σ _ : String, Tensor R)) (hkeys : tensors.NodupKeys)
    (hop : ∃ n x y, tensors.dlookup n = some x ∧ tensorsB.lookup n = some y ∧ op x y = none) :
    ∀ dir results, (operate digest op tensorsB tensors dir results).2 = .error (.candle "shape mismatch") := by
  induction tensors with
  | nil =>
    obtain ⟨n, x, y, hx, -⟩ := hop
    cases hx
  | cons e rest ih =>
    obtain ⟨name, x⟩ := e
    obtain ⟨hname, hrest⟩ := List.nodupKeys_cons.mp hkeys
    obtain ⟨n, x', y', hx', hy', hnone⟩ := hop
    intro dir results
    by_cases hn : n = name
    · subst hn
      rw [dlookup_cons, if_pos rfl] at hx'
      obtain rfl := Option.some.inj hx'
      rw [operate_mismatch digest hy' hnone]
    · rw [dlookup_cons, if_neg hn] at hx'
      specialize ih hrest ⟨n, x', y', hx', hy', hnone⟩
      cases hB : tensorsB.lookup name with
      | none => rw [operate_skip digest hB, ih]
      | some y =>
        cases ht : op x y with
        | none => rw [operate_mismatch digest hB ht]
        | some t => rw [operate_result digest hB ht, ih]

/-- Its errors are candle's. -/
theorem operate_candle {e : Failure} (tensors : List (Σ _ : String, Tensor R)) :
    ∀ dir results, (operate digest op tensorsB tensors dir results).2 = .error e → ∃ error, e = .candle error := by
  induction tensors with
  | nil => exact fun _ _ h => nomatch h
  | cons entry rest ih =>
    obtain ⟨name, x⟩ := entry
    intro dir results h
    cases hB : tensorsB.lookup name with
    | none =>
      rw [operate_skip digest hB] at h
      exact ih _ _ h
    | some y =>
      cases ht : op x y with
      | none =>
        rw [operate_mismatch digest hB ht] at h
        exact ⟨_, (Except.error.inj h).symm⟩
      | some t =>
        rw [operate_result digest hB ht] at h
        exact ih _ _ h

/-! ## The operation -/

variable (op)

/-- What a successful operation comes to. -/
structure Applied (tensorsA tensorsB : TensorMap R) (output : FileName) (dir dir' : WorkDir R) (C : TensorMap R) :
    Prop where
  combined : Combined op tensorsA tensorsB C
  written : Meets tensorsA tensorsB → dir' output = some (.tensors C)
  /-- Without a common name the file that should be written is left as it was. -/
  unwritten : ¬ Meets tensorsA tensorsB → dir' output = dir output
  frame : ∀ f, f ≠ output → f.isResult = false → dir' f = dir f

section Apply
variable {digest : String → BitVec 256} {op} {rank : String → Nat} {dir : WorkDir R} {fileA fileB : Source R}
  {output : FileName} {tensorsA tensorsB : TensorMap R}

theorem writeResults_frame {f : FileName} (hf : f ≠ output) (results : List FileName) :
    (writeResults output dir results).1 f = dir f := by
  unfold writeResults
  split_ifs
  · rfl
  split
  · exact Function.update_of_ne hf _ _
  · rfl

theorem writeResults_of_multi {made : List FileName} {C : TensorMap R} (hmade : made ≠ []) (h : multi dir made = some C) :
    writeResults output dir made = (Function.update dir output (some (.tensors C)), .ok ()) := by
  unfold writeResults
  rw [if_neg (List.isEmpty_iff.not.mpr hmade), h]

/-- Whatever happens, other files are left as they were. -/
theorem applyTensorOp_frame {f : FileName} (houtput : f ≠ output) (hf : f.isResult = false) :
    (applyTensorOp digest op rank dir fileA fileB output).1 f = dir f := by
  unfold applyTensorOp
  split
  · rename_i A B _ _
    rw [← operate_frame digest hf (A.listing rank) dir []]
    rcases operate digest op B (A.listing rank) dir [] with ⟨dir', e | results⟩
    · rfl
    · exact writeResults_frame houtput results
  · rfl

theorem applyTensorOp_of_read (hA : dir.read fileA = some (.tensors tensorsA))
    (hB : dir.read fileB = some (.tensors tensorsB)) :
    applyTensorOp digest op rank dir fileA fileB output =
      andThen (operate digest op tensorsB (tensorsA.listing rank) dir []) (writeResults output) := by
  unfold applyTensorOp
  rw [hA, hB]

theorem applyTensorOp_ok (hA : dir.read fileA = some (.tensors tensorsA))
    (hB : dir.read fileB = some (.tensors tensorsB)) (hinj : Set.InjOn digest {n | n ∈ tensorsA})
    (houtput : output.isResult = false)
    (hop : ∀ n x y, tensorsA.lookup n = some x → tensorsB.lookup n = some y → (op x y).isSome) :
    ∃ dir' C, applyTensorOp digest op rank dir fileA fileB output = (dir', .ok ()) ∧
      Applied op tensorsA tensorsB output dir dir' C := by
  obtain ⟨dir', made, C, hrun, hmade⟩ := operate_ok digest (tensorsA.listing rank) (Table.nodupKeys_listing _ _)
    (hinj.mono fun n hn => Table.mem_keys_listing.mp hn)
    (fun n x y hx hy => hop n x y (Table.dlookup_listing rank tensorsA n ▸ hx) hy) dir []
  have hcombined : Combined op tensorsA tensorsB C := fun n => by rw [hmade.lookup, Table.dlookup_listing]
  have hmeets : made = [] ↔ ¬ Meets tensorsA tensorsB := by
    rw [hmade.empty]
    constructor
    · rintro hempty ⟨n, hnA, hnB⟩
      obtain ⟨x, hx⟩ := Table.exists_lookup hnA
      obtain ⟨y, hy⟩ := Table.exists_lookup hnB
      have hsome := hop n x y hx hy
      rw [← hcombined.lookup hx hy, hempty] at hsome
      cases hsome
    · intro hnone n
      by_contra hsome
      obtain ⟨t, ht⟩ := Option.ne_none_iff_exists'.mp hsome
      obtain ⟨x, y, hx, hy, -⟩ := hcombined.exists_of_lookup ht
      exact hnone ⟨n, Table.mem_of_lookup hx, Table.mem_of_lookup hy⟩
  have hframe : ∀ f, f.isResult = false → dir' f = dir f := fun f hf =>
    hmade.frame f fun n _ heq => by
      rw [heq] at hf
      cases hf
  rw [applyTensorOp_of_read hA hB, hrun, List.nil_append]
  by_cases hempty : made = []
  · have hnone := hmeets.mp hempty
    subst hempty
    exact ⟨dir', C, rfl, hcombined, fun h => absurd h hnone, fun _ => hframe output houtput, fun f _ => hframe f⟩
  · refine ⟨_, C, writeResults_of_multi hempty hmade.read, hcombined, fun _ => Function.update_self _ _ _,
      fun hnone => absurd (hmeets.mpr hnone) hempty, fun f hne hf => ?_⟩
    rw [Function.update_of_ne hne, hframe f hf]

theorem applyTensorOp_mismatch (hA : dir.read fileA = some (.tensors tensorsA))
    (hB : dir.read fileB = some (.tensors tensorsB))
    (hop : ∃ n x y, tensorsA.lookup n = some x ∧ tensorsB.lookup n = some y ∧ op x y = none) :
    (applyTensorOp digest op rank dir fileA fileB output).2 = .error (.candle "shape mismatch") := by
  obtain ⟨n, x, y, hx, hrest⟩ := hop
  have herror := operate_error digest (tensorsA.listing rank) (Table.nodupKeys_listing _ _)
    ⟨n, x, y, by rw [Table.dlookup_listing, hx], hrest⟩ dir []
  rw [applyTensorOp_of_read hA hB]
  exact andThen_error herror

/-- A file that is not one of tensors, or is not there. -/
theorem applyTensorOp_refused
    (h : ¬ ∃ A B, dir.read fileA = some (.tensors A) ∧ dir.read fileB = some (.tensors B)) :
    (applyTensorOp digest op rank dir fileA fileB output).2 = .error (.candle "invalid safetensors") := by
  unfold applyTensorOp
  split
  · rename_i A B hA hB
    exact absurd ⟨A, B, hA, hB⟩ h
  · rfl

theorem applyTensorOp_candle {e : Failure} (h : (applyTensorOp digest op rank dir fileA fileB output).2 = .error e) :
    ∃ error, e = .candle error := by
  unfold applyTensorOp at h
  split at h
  · rcases andThen_eq_error h with h | ⟨dir', results, -, h⟩
    · exact operate_candle digest _ _ _ h
    · unfold writeResults at h
      split_ifs at h
      split at h
      · cases h
      · exact ⟨_, (Except.error.inj h).symm⟩
  · exact ⟨_, (Except.error.inj h).symm⟩

end Apply

end Operation

end Hypha.ParameterServer
