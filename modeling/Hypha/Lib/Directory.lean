import Hypha.Lib.Machine

/-!
# Directories that forget lazily

A directory keeps entries about peers, some of which are members. Members come and go, a write makes or changes the entry
of a peer, member or not, and only a prune drops the entries of the peers that are not members.

* `Directory` : a machine of such calls;
* `Directory.forgotten` : no write for the peer since it was pruned as a non-member, or ever;
* `Directory.along_entry_eq_none_iff` : these are the peers without an entry;
* `Directory.along_entry_since` : an entry stays what it was until it is written or pruned.
-/

namespace Hypha.Lib

/-- What a call is to a directory. -/
inductive DirectoryCall (α : Type) where
  | membership
  | prune
  | write (peer : α)

/-- A machine that keeps entries. -/
structure Directory (σ ι ο α ε : Type) extends Machine σ ι ο where
  isMember : σ → α → Bool
  entry : σ → α → Option ε
  call : ι → DirectoryCall α
  entry_membership : ∀ s i, call i = .membership → ∀ p, entry (step s i).1 p = entry s p
  entry_prune : ∀ s i, call i = .prune → ∀ p, entry (step s i).1 p = if isMember s p then entry s p else none
  entry_write : ∀ s i p, call i = .write p → (entry (step s i).1 p).isSome = true
  entry_write_of_ne : ∀ s i q, call i = .write q → ∀ p, p ≠ q → entry (step s i).1 p = entry s p

namespace Directory

variable {σ ι ο α ε : Type} (d : Directory σ ι ο α ε)

section Forgotten
variable [DecidableEq α]

/-- Whether the directory was pruned while the peer was not a member and has not been written for it since, or has
never been written for it. -/
def forgotten (p : α) : List (Event σ ι ο) → Bool
  | [] => true
  | e :: h =>
    match d.call e.input with
    | .membership => forgotten p h
    | .prune => !d.isMember e.pre p || forgotten p h
    | .write q => decide (q ≠ p) && forgotten p h

theorem entry_next_eq_none_iff {w : World σ ι ο} {p : α} (i : ι)
    (h : d.entry w.state p = none ↔ d.forgotten p w.history = true) :
    d.entry (d.toMachine.next w i).state p = none ↔ d.forgotten p (d.toMachine.next w i).history = true := by
  rw [Machine.next_state, Machine.next_history]
  unfold forgotten
  rw [Machine.event_input, Machine.event_pre]
  split
  · next hcall => rw [d.entry_membership _ _ hcall, h]
  · next hcall =>
    rw [d.entry_prune _ _ hcall]
    split_ifs with hmember
    · rw [h, hmember, Bool.not_true, Bool.false_or]
    · rw [Bool.eq_false_iff.mpr hmember]
      simp
  · next q hcall =>
    by_cases hq : q = p
    · subst hq
      have hsome := d.entry_write w.state i q hcall
      simp [Option.ne_none_iff_isSome.mpr hsome]
    · rw [d.entry_write_of_ne _ _ _ hcall p (Ne.symm hq), h]
      simp [hq]

/-- **The peers without an entry** are those that are forgotten. -/
theorem along_entry_eq_none_iff {s : σ} (hs : ∀ p, d.entry s p = none) (is : List ι) :
    Along (fun e h => ∀ p, d.entry e.pre p = none ↔ d.forgotten p h = true) (d.toMachine.run s is).history := by
  refine (d.toMachine.along_of_invariant (fun w => ∀ p, d.entry w.state p = none ↔ d.forgotten p w.history = true)
    (fun _ _ => True) _ (fun p => ⟨fun _ => rfl, fun _ => hs p⟩) ?_ is (along_true _)).2
  intro w i h _
  exact ⟨fun p => d.entry_next_eq_none_iff i (h p), h⟩

end Forgotten

/-- A call that neither writes for a peer nor prunes leaves its entry alone. -/
theorem entry_unchanged {s : σ} {i : ι} {p : α} (hwrite : d.call i ≠ .write p) (hprune : d.call i ≠ .prune) :
    d.entry (d.step s i).1 p = d.entry s p := by
  cases hcall : d.call i with
  | membership => exact d.entry_membership s i hcall p
  | prune => exact absurd hcall hprune
  | write q => exact d.entry_write_of_ne s i q hcall p (fun hpq => hwrite (hpq ▸ hcall))

/-- Calls that neither write for a peer nor prune. -/
def Quiet (p : α) (since : List (Event σ ι ο)) : Prop :=
  ∀ x ∈ since, d.call x.input ≠ .write p ∧ d.call x.input ≠ .prune

/-- The entry of a peer is what it was before the quiet calls made last. -/
theorem along_entry_since (s : σ) (is : List ι) :
    Along (fun e h => ∀ p since j before, h = since ++ j :: before → d.Quiet p (since ++ [j]) →
      d.entry e.pre p = d.entry j.pre p) (d.toMachine.run s is).history := by
  refine (d.toMachine.along_of_invariant (fun w => ∀ p since j before, w.history = since ++ j :: before →
    d.Quiet p (since ++ [j]) → d.entry w.state p = d.entry j.pre p) (fun _ _ => True) _ ?_ ?_ is (along_true _)).2
  · intro p since j before hhist
    cases since <;> cases hhist
  · intro w i h _
    refine ⟨fun p since j before hhist hquiet => ?_, h⟩
    rw [Machine.next_history] at hhist
    cases since with
    | nil =>
      obtain ⟨rfl, -⟩ := List.cons.inj hhist
      obtain ⟨hwrite, hprune⟩ := hquiet _ (List.mem_singleton_self _)
      exact d.entry_unchanged hwrite hprune
    | cons x since =>
      obtain ⟨rfl, hbefore⟩ := List.cons.inj hhist
      obtain ⟨hwrite, hprune⟩ := hquiet _ (List.mem_cons_self ..)
      have hstep : d.entry (d.step w.state i).1 p = d.entry w.state p := d.entry_unchanged hwrite hprune
      exact hstep.trans (h p since j before hbefore (fun y hy => hquiet y (List.mem_cons_of_mem _ hy)))

end Directory

end Hypha.Lib
