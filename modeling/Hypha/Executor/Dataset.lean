import Hypha.Lib.Machine
import Hypha.Lib.Table

/-!
# Batches of a stream of slices

`IterableStreamDataSet` cuts slices of any size into batches of one size. What is left of a slice is the remainder, and
the next slice fills it up first. The generator is suspended while a slice is fetched and at each `yield`.

* `cut_spec`, `fill_spec`, `add_spec`, `step_spec` : what a stretch between two suspensions yields and leaves;
* `rebatching_lossless` : along every run, the batches and what is pending make the slices.
-/

namespace Hypha.Executor.Dataset

open List Lib

variable {Key α : Type} [DecidableEq Key]

/-! ## Tensors by their samples -/

/-- The tensors of a slice or of a batch. A tensor is the list of its samples, which its first dimension counts. -/
abbrev Tensors (Key α : Type) := Table Key (List α)

/-- The samples of a tensor that there may not be. -/
def rows (t : Tensors Key α) (k : Key) : List α := (t.lookup k).getD []

/-- `v[:needed]`, `v[cursor:end]` and `v[cursor:]` of every tensor `v`. -/
def Tensors.upTo (needed : Nat) (t : Tensors Key α) : Tensors Key α := t.mapValues fun _ v => v.take needed

def Tensors.between (cursor stop : Nat) (t : Tensors Key α) : Tensors Key α :=
  t.mapValues fun _ v => (v.drop cursor).take (stop - cursor)

def Tensors.from (cursor : Nat) (t : Tensors Key α) : Tensors Key α := t.mapValues fun _ v => v.drop cursor

/-- `torch.cat` of each tensor of the first and of that of the same name in the second; `KeyError` if there is none. -/
def cat (remainder t : Tensors Key α) : Option (Tensors Key α) :=
  if ∀ k ∈ remainder.keys, k ∈ t then some (remainder.mapValues fun k v => v ++ rows t k) else none

/-! ## The generator -/

/-- What `__init__` keeps. The processor raises, or returns tensors, lists of them already being unwrapped. -/
structure IterableStreamDataSet (Key α : Type) where
  batchSize : Nat
  modelInputs : List Key
  processorInputs : List Key
  processor : Option (Tensors Key α → Option (Tensors Key α))

variable (ds : IterableStreamDataSet Key α)

/-- From the data of a file to the inputs of the model. -/
def IterableStreamDataSet.processed (data : Tensors Key α) : Option (Tensors Key α) := do
  let data ← match ds.processor with
    | none => some data
    | some processor =>
      let procInputs := (ds.processorInputs.filterMap fun k => (data.lookup k).map fun v => ⟨k, v⟩).toAList
      (processor procInputs).map data.update
  return data.restrict (· ∈ ds.modelInputs)

/-- Where the generator is suspended, with the variables that are still read. -/
inductive Point (Key α : Type) where
  /-- In the `try`; `named` tells whether `file_path` was ever assigned. -/
  | fetching (named : Bool) (remainder : Option (Tensors Key α))
  /-- At the first `yield`: the batch was the remainder and `needed` samples. -/
  | filled (processed : Tensors Key α) (numNew needed : Nat)
  /-- At the second `yield`: the batch was the samples from `cursor` on. -/
  | cutting (remainder : Option (Tensors Key α)) (processed : Tensors Key α) (numNew cursor : Nat)
  /-- An exception has left the generator. -/
  | raised

/-- What resumes the generator. -/
inductive Input (Key α : Type) where
  /-- An exception of the request or of the file, and whether this iteration had assigned `file_path`. -/
  | failed (named : Bool)
  | loaded (data : Tensors Key α)
  | next

/-- The second loop and what follows it. -/
def cut (remainder : Option (Tensors Key α)) (processed : Tensors Key α) (numNew cursor : Nat) :
    Point Key α × Option (Tensors Key α) :=
  if cursor + ds.batchSize ≤ numNew then
    let stop := cursor + ds.batchSize
    (.cutting remainder processed numNew cursor, some (processed.between cursor stop))
  else if cursor < numNew then (.fetching true (some (processed.from cursor)), none)
  else (.fetching true remainder, none)

/-- From the `try` on. -/
def loaded (remainder : Option (Tensors Key α)) (data : Tensors Key α) : Point Key α × Option (Tensors Key α) :=
  match ds.processed data with
  | none => (.raised, none)
  | some processed =>
    match processed.keys with
    | [] => (.fetching true remainder, none)
    | firstKey :: _ =>
      let numNew := (rows processed firstKey).length
      match remainder with
      | none => cut ds none processed numNew 0
      | some rem =>
        match rem.lookup firstKey with
        | none => (.raised, none)
        | some first =>
          let needed := ds.batchSize - first.length
          if needed ≤ numNew then
            match cat rem (processed.upTo needed) with
            | none => (.raised, none)
            | some batch => (.filled processed numNew needed, some batch)
          else
            match cat rem processed with
            | none => (.raised, none)
            | some rem => cut ds (some rem) processed numNew numNew

/-- From one suspension to the next, and the batch that is yielded there. -/
def step : Point Key α → Input Key α → Point Key α × Option (Tensors Key α)
  -- `file_path` is read to log the exception
  | .fetching named remainder, .failed named' =>
    if named || named' then (.fetching true remainder, none) else (.raised, none)
  | .fetching _ remainder, .loaded data => loaded ds remainder data
  | .filled processed numNew needed, .next => cut ds none processed numNew needed
  | .cutting remainder processed numNew cursor, .next => cut ds remainder processed numNew (cursor + ds.batchSize)
  | p, _ => (p, none)

/-- `__iter__`. -/
def machine : Machine (Point Key α) (Input Key α) (Option (Tensors Key α)) := ⟨step ds⟩

def start : Point Key α := .fetching false none

/-! ## Tensors of as many samples -/

/-- The tensors of these names, with `n` samples each. -/
structure Uniform (names : List Key) (n : Nat) (t : Tensors Key α) : Prop where
  mem : ∀ k, k ∈ t ↔ k ∈ names
  length : ∀ k ∈ names, (rows t k).length = n

variable {names : List Key} {m n : Nat} {s t : Tensors Key α}

theorem rows_mapValues {f : Key → List α → List α} {k : Key} (h : f k [] = []) :
    rows (t.mapValues f) k = f k (rows t k) := by
  unfold rows
  rw [Table.lookup_mapValues]
  cases t.lookup k with
  | none => exact h.symm
  | some v => rfl

@[simp] theorem rows_upTo (k : Key) : rows (t.upTo n) k = (rows t k).take n := rows_mapValues take_nil

@[simp] theorem rows_between (k : Key) : rows (t.between m n) k = ((rows t k).drop m).take (n - m) := by
  refine rows_mapValues ?_
  rw [drop_nil, take_nil]

@[simp] theorem rows_from (k : Key) : rows (t.from n) k = (rows t k).drop n := rows_mapValues drop_nil

namespace Uniform

theorem rows_of_not_mem (h : Uniform names n t) {k : Key} (hk : k ∉ names) : rows t k = [] := by
  have hnone : t.lookup k = none := AList.lookup_eq_none.mpr fun hmem => hk ((h.mem k).mp hmem)
  unfold rows
  rw [hnone]
  rfl

theorem upTo (h : Uniform names n t) (hm : m ≤ n) : Uniform names m (t.upTo m) where
  mem k := Table.mem_mapValues.trans (h.mem k)
  length k hk := by rw [rows_upTo, length_take, h.length k hk, Nat.min_eq_left hm]

theorem between (h : Uniform names n t) {cursor size : Nat} (hn : cursor + size ≤ n) :
    Uniform names size (t.between cursor (cursor + size)) where
  mem k := Table.mem_mapValues.trans (h.mem k)
  length k hk := by
    rw [rows_between, length_take, length_drop, h.length k hk]
    omega

theorem drop (h : Uniform names n t) : Uniform names (n - m) (t.from m) where
  mem k := Table.mem_mapValues.trans (h.mem k)
  length k hk := by rw [rows_from, length_drop, h.length k hk]

/-- Nothing is left behind the last sample. -/
theorem drop_rows (h : Uniform names n t) (k : Key) : (rows t k).drop n = [] := by
  by_cases hk : k ∈ names
  · exact drop_eq_nil_of_le (h.length k hk).le
  · rw [h.rows_of_not_mem hk, drop_nil]

/-- Tensors of the same names can be put together. -/
theorem cat (hs : Uniform names m s) (ht : Uniform names n t) :
    ∃ u, Dataset.cat s t = some u ∧ Uniform names (m + n) u ∧ ∀ k, rows u k = rows s k ++ rows t k := by
  have hsame : ∀ k ∈ s.keys, k ∈ t := fun k hk => (ht.mem k).mpr ((hs.mem k).mp (AList.mem_keys.mpr hk))
  have hrows : ∀ k, rows (s.mapValues fun k v => v ++ rows t k) k = rows s k ++ rows t k := fun k => by
    by_cases hk : k ∈ names
    · obtain ⟨v, hv⟩ := Table.exists_lookup ((hs.mem k).mpr hk)
      unfold rows
      rw [Table.lookup_mapValues, hv]
      rfl
    · have hnone : s.lookup k = none := AList.lookup_eq_none.mpr fun hmem => hk ((hs.mem k).mp hmem)
      rw [hs.rows_of_not_mem hk, ht.rows_of_not_mem hk]
      unfold rows
      rw [Table.lookup_mapValues, hnone]
      rfl
  refine ⟨_, if_pos hsame, ⟨fun k => Table.mem_mapValues.trans (hs.mem k), fun k hk => ?_⟩, hrows⟩
  rw [hrows, length_append, hs.length k hk, ht.length k hk]

end Uniform

/-! ## What a stretch yields and leaves -/

/-- The samples that are loaded and not in a batch: the remainder, which at the first `yield` is in the batch already, and
what is not read of the slice. -/
def pending (k : Key) : Point Key α → List α
  | .fetching _ remainder => remainder.elim [] (rows · k)
  | .filled processed _ needed => (rows processed k).drop needed
  | .cutting _ processed _ cursor => (rows processed k).drop (cursor + ds.batchSize)
  | .raised => []

/-- A remainder is smaller than a batch. -/
def Left (names : List Key) (remainder : Option (Tensors Key α)) : Prop :=
  ∀ t ∈ remainder, ∃ n, n < ds.batchSize ∧ Uniform names n t

theorem left_none (names : List Key) : Left ds names none := by
  rintro _ ⟨⟩

/-- The variables at a suspension. -/
def Good (names : List Key) : Point Key α → Prop
  | .fetching named remainder => Left ds names remainder ∧ (named = false → remainder = none)
  | .filled processed numNew needed => Uniform names numNew processed ∧ needed ≤ numNew
  | .cutting remainder processed numNew cursor =>
    remainder = none ∧ Uniform names numNew processed ∧ cursor + ds.batchSize ≤ numNew
  | .raised => True

/-- `file_path` is assigned, and no exception has left the generator. -/
def Point.named : Point Key α → Bool
  | .fetching named _ => named
  | .filled _ _ _ | .cutting _ _ _ _ => true
  | .raised => false

/-- A stretch from `before` samples that are in no batch: it stops well, a batch has its size, and nothing is lost. It
stops before a first slice only if it is `idle`. -/
structure Conserves (names : List Key) (before : Key → List α) (idle : Prop)
    (out : Point Key α × Option (Tensors Key α)) : Prop where
  good : Good ds names out.1
  batch : ∀ t ∈ out.2, Uniform names ds.batchSize t
  rows : ∀ k, out.2.elim [] (rows · k) ++ pending ds k out.1 = before k
  named : out.1.named = false → idle

variable {ds} {remainder : Option (Tensors Key α)} {processed : Tensors Key α} {numNew cursor : Nat}

theorem Conserves.of_eq {before before' : Key → List α} {idle : Prop} {out : Point Key α × Option (Tensors Key α)}
    (h : Conserves ds names before False out) (hbefore : ∀ k, before k = before' k) :
    Conserves ds names before' idle out :=
  ⟨h.good, h.batch, fun k => (h.rows k).trans (hbefore k), fun hnamed => (h.named hnamed).elim⟩

/-- The loop from a cursor, when there is no remainder or nothing left to read. -/
theorem cut_spec (hsize : 1 ≤ ds.batchSize) (hprocessed : Uniform names numNew processed) (hcursor : cursor ≤ numNew)
    (hleft : Left ds names remainder) (hread : remainder = none ∨ cursor = numNew) :
    Conserves ds names (fun k => remainder.elim [] (rows · k) ++ (rows processed k).drop cursor) False
      (cut ds remainder processed numNew cursor) := by
  unfold cut
  by_cases hfull : cursor + ds.batchSize ≤ numNew
  · -- a batch is not empty, so there is something left to read
    obtain rfl : remainder = none := hread.resolve_right (by omega)
    rw [if_pos hfull]
    refine ⟨⟨rfl, hprocessed, hfull⟩, ?_, fun k => ?_, nofun⟩
    · rintro _ ⟨⟩
      exact hprocessed.between hfull
    · show rows (processed.between cursor (cursor + ds.batchSize)) k ++ (rows processed k).drop (cursor + ds.batchSize) =
        [] ++ (rows processed k).drop cursor
      rw [rows_between, Nat.add_sub_cancel_left, ← drop_drop, take_append_drop, nil_append]
  · rw [if_neg hfull]
    by_cases hrest : cursor < numNew
    · obtain rfl : remainder = none := hread.resolve_right (by omega)
      rw [if_pos hrest]
      refine ⟨⟨?_, nofun⟩, nofun, fun k => ?_, nofun⟩
      · rintro _ ⟨⟩
        exact ⟨numNew - cursor, by omega, hprocessed.drop⟩
      · show [] ++ rows (processed.from cursor) k = [] ++ (rows processed k).drop cursor
        rw [rows_from]
    · rw [if_neg hrest]
      obtain rfl : cursor = numNew := by omega
      refine ⟨⟨hleft, nofun⟩, nofun, fun k => ?_, nofun⟩
      show [] ++ remainder.elim [] (rows · k) = remainder.elim [] (rows · k) ++ (rows processed k).drop cursor
      rw [hprocessed.drop_rows, nil_append, append_nil]

section Remainder
variable {rem : Tensors Key α} (hn : n < ds.batchSize) (hrem : Uniform names n rem)
  (hprocessed : Uniform names numNew processed)
include hn hrem hprocessed

/-- A slice that fills up the remainder. -/
theorem fill_spec (hneeded : ds.batchSize - n ≤ numNew) :
    ∃ batch, cat rem (processed.upTo (ds.batchSize - n)) = some batch ∧
      Conserves ds names (fun k => rows rem k ++ rows processed k) False
        (.filled processed numNew (ds.batchSize - n), some batch) := by
  obtain ⟨batch, hbatch, huniform, hrows⟩ := hrem.cat (hprocessed.upTo hneeded)
  rw [Nat.add_sub_cancel' hn.le] at huniform
  refine ⟨batch, hbatch, ⟨hprocessed, hneeded⟩, ?_, fun k => ?_, nofun⟩
  · rintro _ ⟨⟩
    exact huniform
  · show rows batch k ++ (rows processed k).drop (ds.batchSize - n) = rows rem k ++ rows processed k
    rw [hrows, rows_upTo, List.append_assoc, take_append_drop]

/-- A slice that does not. -/
theorem add_spec (hsize : 1 ≤ ds.batchSize) (hneeded : ¬ ds.batchSize - n ≤ numNew) :
    ∃ joined, cat rem processed = some joined ∧
      Conserves ds names (fun k => rows rem k ++ rows processed k) False
        (cut ds (some joined) processed numNew numNew) := by
  obtain ⟨joined, hjoined, huniform, hrows⟩ := hrem.cat hprocessed
  have hleft : Left ds names (some joined) := by
    rintro _ ⟨⟩
    exact ⟨n + numNew, by omega, huniform⟩
  refine ⟨joined, hjoined, (cut_spec hsize hprocessed le_rfl hleft (.inr rfl)).of_eq fun k => ?_⟩
  show rows joined k ++ (rows processed k).drop numNew = rows rem k ++ rows processed k
  rw [hprocessed.drop_rows, append_nil, hrows]

end Remainder

theorem lookup_of_keys_eq_nil (h : t.keys = []) (k : Key) : t.lookup k = none := by
  refine AList.lookup_eq_none.mpr fun hmem => ?_
  rw [AList.mem_keys, h] at hmem
  cases hmem

/-- A slice fills up the remainder, or is added to it, or there was none. -/
theorem loaded_spec (hsize : 1 ≤ ds.batchSize) {data : Tensors Key α} (hdata : ds.processed data = some processed)
    (hprocessed : Uniform names numNew processed) (hleft : Left ds names remainder) :
    Conserves ds names (fun k => remainder.elim [] (rows · k) ++ rows processed k) False (loaded ds remainder data) := by
  unfold loaded
  rw [hdata]
  dsimp only
  cases hkeys : processed.keys with
  | nil =>
    refine ⟨⟨hleft, nofun⟩, nofun, fun k => ?_, nofun⟩
    show [] ++ remainder.elim [] (rows · k) = remainder.elim [] (rows · k) ++ (processed.lookup k).getD []
    rw [lookup_of_keys_eq_nil hkeys]
    exact (append_nil _).symm
  | cons firstKey others =>
    have hfirst : firstKey ∈ names := (hprocessed.mem firstKey).mp (AList.mem_keys.mpr (hkeys ▸ mem_cons_self))
    dsimp only
    rw [hprocessed.length firstKey hfirst]
    cases remainder with
    | none => exact (cut_spec hsize hprocessed (Nat.zero_le numNew) hleft (.inl rfl)).of_eq fun k => rfl
    | some rem =>
      obtain ⟨n, hn, hrem⟩ := hleft rem rfl
      obtain ⟨first, hlookup⟩ := Table.exists_lookup ((hrem.mem firstKey).mpr hfirst)
      have hlength : first.length = n := by
        have hrows := hrem.length firstKey hfirst
        unfold rows at hrows
        rwa [hlookup] at hrows
      dsimp only
      rw [hlookup]
      dsimp only
      rw [hlength]
      split_ifs with hneeded
      · obtain ⟨batch, hbatch, hspec⟩ := fill_spec hn hrem hprocessed hneeded
        rw [hbatch]
        exact hspec
      · obtain ⟨joined, hjoined, hspec⟩ := add_spec hn hrem hprocessed hsize hneeded
        rw [hjoined]
        exact hspec

/-! ## Runs -/

variable (ds) in
/-- The slice that a step reads. -/
def slice (p : Point Key α) (i : Input Key α) : Option (Tensors Key α) :=
  match p, i with
  | .fetching _ _, .loaded data => ds.processed data
  | _, _ => none

variable (ds) in
/-- A slice that is loaded has these names, and as many samples under each. -/
def Input.Uniform (names : List Key) (i : Input Key α) : Prop :=
  ∀ data, i = .loaded data → ∃ processed n, ds.processed data = some processed ∧ Dataset.Uniform names n processed

theorem step_spec (hsize : 1 ≤ ds.batchSize) {p : Point Key α} {i : Input Key α} (hgood : Good ds names p)
    (hinput : i.Uniform ds names) :
    Conserves ds names (fun k => pending ds k p ++ (slice ds p i).elim [] (rows · k))
      (p.named = false ∧ slice ds p i = none) (step ds p i) := by
  -- what does not resume the generator
  have hidle : Conserves ds names (fun k => pending ds k p ++ [])
      (p.named = false ∧ (none : Option (Tensors Key α)) = none) (p, none) :=
    ⟨hgood, nofun, fun k => by rw [append_nil]; rfl, fun hnamed => ⟨hnamed, rfl⟩⟩
  cases p with
  | fetching named remainder =>
    obtain ⟨hleft, hnone⟩ := hgood
    cases i with
    | failed named' =>
      show Conserves ds names _ _ (if named || named' then (.fetching true remainder, none) else (.raised, none))
      split_ifs with hbound
      · exact ⟨⟨hleft, nofun⟩, nofun, fun k => (append_nil _).symm, nofun⟩
      · obtain ⟨hnamed, -⟩ := Bool.or_eq_false_iff.mp (eq_false_of_ne_true hbound)
        rw [hnone hnamed]
        exact ⟨trivial, nofun, fun k => rfl, fun _ => ⟨hnamed, rfl⟩⟩
    | loaded data =>
      obtain ⟨processed, n, hdata, hprocessed⟩ := hinput data rfl
      refine (loaded_spec hsize hdata hprocessed hleft).of_eq fun k => ?_
      show _ = remainder.elim [] (rows · k) ++ (ds.processed data).elim [] (rows · k)
      rw [hdata]
      rfl
    | next => exact hidle
  | filled processed numNew needed =>
    obtain ⟨hprocessed, hneeded⟩ := hgood
    cases i with
    | next =>
      refine (cut_spec hsize hprocessed hneeded (left_none ds names) (.inl rfl)).of_eq fun k => ?_
      exact (append_nil _).symm
    | failed named => exact hidle
    | loaded data => exact hidle
  | cutting remainder processed numNew cursor =>
    obtain ⟨rfl, hprocessed, hcursor⟩ := hgood
    cases i with
    | next =>
      refine (cut_spec hsize hprocessed hcursor (left_none ds names) (.inl rfl)).of_eq fun k => ?_
      exact (append_nil _).symm
    | failed named => exact hidle
    | loaded data => exact hidle
  | raised => exact hidle

/-- The batches so far. -/
def yielded (h : List (Event (Point Key α) (Input Key α) (Option (Tensors Key α)))) : List (Tensors Key α) :=
  h.reverse.filterMap (·.output)

variable (ds) in
/-- The slices so far. -/
def slices (h : List (Event (Point Key α) (Input Key α) (Option (Tensors Key α)))) : List (Tensors Key α) :=
  h.reverse.filterMap fun e => slice ds e.pre e.input

variable (ds) in
/-- What holds after every run. -/
structure Rebatched (names : List Key) (w : World (Point Key α) (Input Key α) (Option (Tensors Key α))) : Prop where
  good : Good ds names w.state
  batch : ∀ t ∈ yielded w.history, Uniform names ds.batchSize t
  rows : ∀ k, (yielded w.history).flatMap (rows · k) ++ pending ds k w.state = (slices ds w.history).flatMap (rows · k)
  named : w.state.named = false → slices ds w.history = []

theorem flatMap_toList {β γ : Type} (g : β → List γ) (b : Option β) : b.toList.flatMap g = b.elim [] g := by
  cases b with
  | none => rfl
  | some b => exact append_nil (g b)

theorem Rebatched.next (hsize : 1 ≤ ds.batchSize) {w : World (Point Key α) (Input Key α) (Option (Tensors Key α))}
    (hw : Rebatched ds names w) {i : Input Key α} (hinput : i.Uniform ds names) :
    Rebatched ds names ((machine ds).next w i) := by
  have hstep := step_spec hsize hw.good hinput
  refine ⟨hstep.good, fun t ht => ?_, fun k => ?_, fun hnamed => ?_⟩
  · obtain ⟨e, he, houtput⟩ := mem_filterMap.mp ht
    rcases mem_cons.mp (mem_reverse.mp he) with rfl | he
    · exact hstep.batch t houtput
    · exact hw.batch t (mem_filterMap.mpr ⟨e, mem_reverse.mpr he, houtput⟩)
  · have hbefore := hw.rows k
    have hthis := hstep.rows k
    unfold yielded slices at hbefore ⊢
    rw [Machine.next_history, filterMap_reverse_cons, filterMap_reverse_cons, flatMap_append, flatMap_append,
      flatMap_toList, flatMap_toList, ← hbefore, List.append_assoc, List.append_assoc]
    exact congrArg _ hthis
  · obtain ⟨hbefore, hslice⟩ := hstep.named hnamed
    have hpast := hw.named hbefore
    unfold slices at hpast ⊢
    rw [Machine.next_history, filterMap_reverse_cons, hpast]
    exact congrArg Option.toList hslice

/-- Along every run on slices of the same names, with as many samples under each name: every batch has its size, the
batches and what is pending are the slices, a remainder is smaller than a batch, and only a failure before the first
slice ends the generator. -/
theorem rebatching_lossless (ds : IterableStreamDataSet Key α) (names : List Key) (is : List (Input Key α))
    (hsize : 1 ≤ ds.batchSize) (hslices : ∀ i ∈ is, i.Uniform ds names) :
    let w := (machine ds).run start is
    (∀ t ∈ yielded w.history, Uniform names ds.batchSize t) ∧
    (∀ k, (yielded w.history).flatMap (rows · k) ++ pending ds k w.state = (slices ds w.history).flatMap (rows · k)) ∧
    (∀ named t, w.state = .fetching named (some t) → ∃ n, n < ds.batchSize ∧ Uniform names n t) ∧
    (w.state = .raised → slices ds w.history = []) := by
  intro w
  have hstart : Rebatched ds names ⟨start, []⟩ :=
    ⟨⟨left_none ds names, fun _ => rfl⟩, fun _ ht => absurd ht not_mem_nil, fun _ => rfl, fun _ => rfl⟩
  have hw : Rebatched ds names w :=
    ((machine ds).along_of_invariant (Rebatched ds names) (fun e _ => e.input.Uniform ds names) (fun _ _ => True) hstart
      (fun _ _ hw hinput => ⟨hw.next hsize hinput, trivial⟩) is ((machine ds).along_input hslices)).1
  refine ⟨hw.batch, hw.rows, fun named t hstate => ?_, fun hstate => ?_⟩
  · have hgood := hw.good
    rw [hstate] at hgood
    exact hgood.1 t rfl
  · have hnamed := hw.named
    rw [hstate] at hnamed
    exact hnamed rfl

/-- A slice of one sample, and one of five, in batches of two. -/
theorem rebatching_lossless_six :
    let ds : IterableStreamDataSet String Nat := ⟨2, ["x"], [], none⟩
    let is : List (Input String Nat) :=
      [.loaded (AList.singleton "x" [1]), .loaded (AList.singleton "x" [2, 3, 4, 5, 6]), .next, .next]
    let w := (machine ds).run start is
    (yielded w.history).map (rows · "x") = [[1, 2], [3, 4], [5, 6]] ∧
      (yielded w.history).flatMap (rows · "x") ++ pending ds "x" w.state =
        (slices ds w.history).flatMap (rows · "x") := by
  intro ds is w
  have huniform : ∀ v : List Nat, Input.Uniform ds ["x"] (.loaded (AList.singleton "x" v)) := by
    rintro v _ ⟨⟩
    refine ⟨AList.singleton "x" v, v.length, rfl, ⟨fun k => Iff.rfl, fun k hk => ?_⟩⟩
    rw [mem_singleton.mp hk]
    rfl
  have hslices : ∀ i ∈ is, i.Uniform ds ["x"] :=
    forall_mem_cons.mpr ⟨huniform [1], forall_mem_cons.mpr ⟨huniform [2, 3, 4, 5, 6],
      forall_mem_cons.mpr ⟨nofun, forall_mem_cons.mpr ⟨nofun, forall_mem_nil _⟩⟩⟩⟩
  exact ⟨by decide, (rebatching_lossless ds ["x"] is (by decide) hslices).2.1 "x"⟩

end Hypha.Executor.Dataset
