import Mathlib.Algebra.BigOperators.Group.List.Basic
import Mathlib.Algebra.Ring.Defs
import Hypha.Lib.Table

/-!
# Named tensors in exact arithmetic

A tensor is its shape with as many elements; a `TensorMap` is what a file of tensors contains. Elementwise operations
fail between different shapes.

* `Tensor.add`, `Tensor.scale` : the operations, by their elements;
* `Combined`, `Combined.element` : an operation on the names that two maps have in common;
* `SumOf` : what is common to several maps, summed; `SumOf.cons` adds one more, `SumOf.perm` forgets the order;
* `Fitting`, `Fitting.concat_iff` : when several maps can be summed one after the other.
-/

namespace Hypha.Lib

structure Tensor (R : Type) where
  shape : List Nat
  data : List R
  length_eq : data.length = shape.prod
  deriving DecidableEq, Repr

abbrev TensorMap (R : Type) := Table String (Tensor R)

section Maps
variable {R : Type}

/-- The operation, for the names that both have. -/
def Combined (op : Tensor R → Tensor R → Option (Tensor R)) (a b c : TensorMap R) : Prop :=
  ∀ name, c.lookup name = (a.lookup name).bind fun x => (b.lookup name).bind (op x)

/-- Where both have a name, the shapes are the same. -/
def SameShapes (a b : TensorMap R) : Prop :=
  ∀ name x y, a.lookup name = some x → b.lookup name = some y → x.shape = y.shape

theorem SameShapes.refl (m : TensorMap R) : SameShapes m m := fun n x y hx hy => by
  rw [Option.some.inj (hx.symm.trans hy)]

/-- The same names with the same shapes. -/
def SameLayout (a b : TensorMap R) : Prop :=
  ∀ name, (a.lookup name).map Tensor.shape = (b.lookup name).map Tensor.shape

/-- There is a name that both have. -/
def Meets (a b : TensorMap R) : Prop := ∃ name, name ∈ a ∧ name ∈ b

variable {op : Tensor R → Tensor R → Option (Tensor R)} {a b c : TensorMap R}

theorem Combined.exists_of_lookup (h : Combined op a b c) {name : String} {t : Tensor R} (ht : c.lookup name = some t) :
    ∃ x y, a.lookup name = some x ∧ b.lookup name = some y ∧ op x y = some t := by
  obtain ⟨x, hx, hop⟩ := Option.bind_eq_some_iff.mp ((h name).symm.trans ht)
  obtain ⟨y, hy, ht⟩ := Option.bind_eq_some_iff.mp hop
  exact ⟨x, y, hx, hy, ht⟩

theorem Combined.lookup (h : Combined op a b c) {name : String} {x y : Tensor R} (hx : a.lookup name = some x)
    (hy : b.lookup name = some y) : c.lookup name = op x y := by
  rw [h name, hx, hy]
  rfl

theorem SameLayout.sameShapes (h : SameLayout a b) : SameShapes a b := fun name x y hx hy => by
  have hname := h name
  rw [hx, hy] at hname
  exact Option.some.inj hname

theorem SameLayout.symm (h : SameLayout a b) : SameLayout b a := fun name => (h name).symm

theorem SameLayout.trans {d : TensorMap R} (h : SameLayout a b) (h' : SameLayout b d) : SameLayout a d :=
  fun name => (h name).trans (h' name)

theorem SameLayout.mem_iff (h : SameLayout a b) (name : String) : name ∈ a ↔ name ∈ b := by
  have hsome := congrArg Option.isSome (h name)
  rw [Option.isSome_map, Option.isSome_map] at hsome
  rw [← AList.lookup_isSome, ← AList.lookup_isSome, hsome]

theorem SameLayout.exists_lookup (h : SameLayout b a) {name : String} {x : Tensor R} (hx : a.lookup name = some x) :
    ∃ y, b.lookup name = some y ∧ x.shape = y.shape := by
  have hname := h name
  rw [hx] at hname
  obtain ⟨y, hy, hshape⟩ := Option.map_eq_some_iff.mp hname
  exact ⟨y, hy, hshape.symm⟩

theorem SameShapes.of_sameLayout (h : SameShapes a c) (hlayout : SameLayout a b) : SameShapes b c :=
  fun name y z hy hz => by
    obtain ⟨x, hx, hshape⟩ := hlayout.exists_lookup hy
    rw [hshape, h name x z hx hz]

theorem Meets.of_sameLayout (h : Meets a c) (hlayout : SameLayout a b) : Meets b c := by
  obtain ⟨name, ha, hc⟩ := h
  exact ⟨name, (hlayout.mem_iff name).mp ha, hc⟩

end Maps

section Elements
variable {R : Type} [CommRing R]

namespace Tensor

/-- An element, by its place in the flattened tensor. -/
def get (t : Tensor R) (i : Nat) : R := t.data.getD i 0

def add (a b : Tensor R) : Option (Tensor R) :=
  if h : a.shape = b.shape then
    some ⟨a.shape, List.zipWith (· + ·) a.data b.data, by
      rw [List.length_zipWith, a.length_eq, b.length_eq, h, min_self]⟩
  else none

def scale (c : R) (t : Tensor R) : Tensor R := ⟨t.shape, t.data.map (c * ·), by rw [List.length_map, t.length_eq]⟩

variable {a b c : Tensor R}

theorem add_eq_none_iff : add a b = none ↔ a.shape ≠ b.shape := by
  unfold add
  split_ifs with h
  · exact iff_of_false nofun fun hne => hne h
  · exact iff_of_true rfl h

theorem exists_add (h : a.shape = b.shape) : ∃ c, add a b = some c :=
  Option.ne_none_iff_exists'.mp fun hnone => add_eq_none_iff.mp hnone h

theorem add_shape (h : add a b = some c) : a.shape = b.shape ∧ c.shape = a.shape := by
  unfold add at h
  split_ifs at h with hshape
  obtain rfl := Option.some.inj h
  exact ⟨hshape, rfl⟩

theorem add_get (h : add a b = some c) (i : Nat) : c.get i = a.get i + b.get i := by
  unfold add at h
  split_ifs at h with hshape
  obtain rfl := Option.some.inj h
  have hlength : a.data.length = b.data.length := by rw [a.length_eq, b.length_eq, hshape]
  unfold get
  simp only [List.getD_eq_getElem?_getD, List.getElem?_zipWith]
  rcases Nat.lt_or_ge i a.data.length with hi | hi
  · rw [List.getElem?_eq_getElem hi, List.getElem?_eq_getElem (hlength ▸ hi)]
    rfl
  · rw [List.getElem?_eq_none hi, List.getElem?_eq_none (hlength ▸ hi)]
    exact (add_zero 0).symm

@[simp] theorem scale_shape (x : R) (t : Tensor R) : (scale x t).shape = t.shape := rfl

theorem scale_get (x : R) (t : Tensor R) (i : Nat) : (scale x t).get i = x * t.get i := by
  unfold get scale
  simp only [List.getD_eq_getElem?_getD, List.getElem?_map]
  cases t.data[i]? with
  | none => exact (mul_zero x).symm
  | some y => rfl

end Tensor

/-- An operation that works element by element, between tensors of the same shape. -/
def Elementwise (op : Tensor R → Tensor R → Option (Tensor R)) (f : R → R → R) : Prop :=
  ∀ x y, x.shape = y.shape → ∃ t, op x y = some t ∧ t.shape = x.shape ∧ ∀ i, t.get i = f (x.get i) (y.get i)

/-! ## Sums -/

/-- An element of a named tensor. -/
def element (m : TensorMap R) (name : String) (i : Nat) : R := (m.lookup name).elim 0 (·.get i)

theorem element_of_lookup {m : TensorMap R} {name : String} {t : Tensor R} (h : m.lookup name = some t) (i : Nat) :
    element m name i = t.get i := by
  unfold element
  rw [h]
  rfl

section Layout
variable {op : Tensor R → Tensor R → Option (Tensor R)} {f : R → R → R} {a b c : TensorMap R}

theorem Elementwise.isSome (h : Elementwise op f) {x y : Tensor R} (hshape : x.shape = y.shape) : (op x y).isSome := by
  obtain ⟨t, ht, -⟩ := h x y hshape
  exact Option.isSome_iff_exists.mpr ⟨t, ht⟩

/-- What one operation gives for maps of the same layout. -/
theorem Combined.elementwise (h : Combined op a b c) (hop : Elementwise op f) (hlayout : SameLayout b a) {name : String}
    {x : Tensor R} (hx : a.lookup name = some x) :
    ∃ t, c.lookup name = some t ∧ t.shape = x.shape ∧ ∀ i, t.get i = f (element a name i) (element b name i) := by
  obtain ⟨y, hy, hshape⟩ := hlayout.exists_lookup hx
  obtain ⟨t, ht, htx, hget⟩ := hop x y hshape
  refine ⟨t, (h.lookup hx hy).trans ht, htx, fun i => ?_⟩
  rw [hget, element_of_lookup hx, element_of_lookup hy]

theorem Combined.sameLayout (h : Combined op a b c) (hop : Elementwise op f) (hlayout : SameLayout b a) :
    SameLayout c a := by
  intro name
  cases hx : a.lookup name with
  | none => rw [h name, hx]; rfl
  | some x =>
    obtain ⟨t, ht, htx, -⟩ := h.elementwise hop hlayout hx
    rw [ht, Option.map_some, Option.map_some, htx]

theorem Combined.element (h : Combined op a b c) (hop : Elementwise op f) (hlayout : SameLayout b a) {name : String}
    (hname : name ∈ a) (i : Nat) : Lib.element c name i = f (Lib.element a name i) (Lib.element b name i) := by
  obtain ⟨x, hx⟩ := Table.exists_lookup hname
  obtain ⟨t, ht, -, hget⟩ := h.elementwise hop hlayout hx
  rw [element_of_lookup ht, hget]

end Layout

/-- What is common to the maps, summed. -/
structure SumOf (maps : List (TensorMap R)) (total : TensorMap R) : Prop where
  mem_iff : ∀ name, name ∈ total ↔ ∀ m ∈ maps, name ∈ m
  shape : ∀ name t, total.lookup name = some t → ∀ m ∈ maps, ∀ x, m.lookup name = some x → x.shape = t.shape
  element : ∀ name ∈ total, ∀ i, element total name i = (maps.map fun m => Lib.element m name i).sum

variable {maps maps' : List (TensorMap R)} {m total next : TensorMap R}

theorem SumOf.singleton (m : TensorMap R) : SumOf [m] m where
  mem_iff name := by rw [List.forall_mem_singleton]
  shape name t ht := by
    refine List.forall_mem_singleton.mpr fun x hx => ?_
    rw [Option.some.inj (hx.symm.trans ht)]
  element name _ i := by rw [List.map_singleton, List.sum_singleton]

/-- One more map. -/
theorem SumOf.cons (h : SumOf maps total) (hshapes : SameShapes m total) (hnext : Combined Tensor.add m total next) :
    SumOf (m :: maps) next where
  mem_iff name := by
    rw [List.forall_mem_cons, ← h.mem_iff]
    constructor
    · intro hmem
      obtain ⟨t, ht⟩ := Table.exists_lookup hmem
      obtain ⟨x, y, hx, hy, -⟩ := hnext.exists_of_lookup ht
      exact ⟨Table.mem_of_lookup hx, Table.mem_of_lookup hy⟩
    · rintro ⟨hm, htotal⟩
      obtain ⟨x, hx⟩ := Table.exists_lookup hm
      obtain ⟨y, hy⟩ := Table.exists_lookup htotal
      obtain ⟨t, ht⟩ := Tensor.exists_add (hshapes name x y hx hy)
      exact Table.mem_of_lookup ((hnext.lookup hx hy).trans ht)
  shape name t ht := by
    obtain ⟨x, y, hx, hy, hadd⟩ := hnext.exists_of_lookup ht
    obtain ⟨hxy, htx⟩ := Tensor.add_shape hadd
    refine List.forall_mem_cons.mpr ⟨fun z hz => ?_, fun m' hm' z hz => ?_⟩
    · rw [Option.some.inj (hz.symm.trans hx), htx]
    · rw [h.shape name y hy m' hm' z hz, htx, hxy]
  element name hname i := by
    obtain ⟨t, ht⟩ := Table.exists_lookup hname
    obtain ⟨x, y, hx, hy, hadd⟩ := hnext.exists_of_lookup ht
    rw [element_of_lookup ht, Tensor.add_get hadd, List.map_cons, List.sum_cons, element_of_lookup hx,
      ← h.element name (Table.mem_of_lookup hy), element_of_lookup hy]

/-- The order does not matter. -/
theorem SumOf.perm (h : SumOf maps total) (hperm : maps.Perm maps') : SumOf maps' total where
  mem_iff name := by simp only [h.mem_iff, hperm.mem_iff]
  shape name t ht m' hm' := h.shape name t ht m' (hperm.mem_iff.mpr hm')
  element name hname i := by rw [h.element name hname, (hperm.map _).sum_eq]

/-- Sums of the same maps have the same layout. -/
theorem SumOf.sameLayout {total' : TensorMap R} (h : SumOf maps total) (h' : SumOf maps total') (hne : maps ≠ []) :
    SameLayout total total' := by
  obtain ⟨m, hm⟩ := List.exists_mem_of_ne_nil maps hne
  intro name
  by_cases hname : ∀ m ∈ maps, name ∈ m
  · obtain ⟨t, ht⟩ := Table.exists_lookup ((h.mem_iff name).mpr hname)
    obtain ⟨t', ht'⟩ := Table.exists_lookup ((h'.mem_iff name).mpr hname)
    obtain ⟨x, hx⟩ := Table.exists_lookup (hname m hm)
    rw [ht, ht', Option.map_some, Option.map_some, ← h.shape name t ht m hm x hx, ← h'.shape name t' ht' m hm x hx]
  · rw [AList.lookup_eq_none.mpr ((h.mem_iff name).not.mpr hname),
      AList.lookup_eq_none.mpr ((h'.mem_iff name).not.mpr hname)]

/-- Maps that can be summed one after the other: a name is common to them, and where a map has a name that is common to
those before it, it has it with their shape. -/
structure Fitting (maps : List (TensorMap R)) : Prop where
  common : 2 ≤ maps.length → ∃ name, ∀ m ∈ maps, name ∈ m
  shapes : ∀ earlier m later, maps = earlier ++ m :: later → ∀ name, (∀ e ∈ earlier, name ∈ e) →
    ∀ x, m.lookup name = some x → ∀ e ∈ earlier, ∀ y, e.lookup name = some y → x.shape = y.shape

omit [CommRing R] in
/-- Equal shapes throughout. -/
theorem Fitting.of_sameShapes (hcommon : 2 ≤ maps.length → ∃ name, ∀ m ∈ maps, name ∈ m)
    (hshapes : ∀ a ∈ maps, ∀ b ∈ maps, SameShapes a b) : Fitting maps where
  common := hcommon
  shapes earlier m later heq name _ x hx e he y hy := by
    have hm : m ∈ maps := heq ▸ List.mem_append_right _ List.mem_cons_self
    have hearlier : e ∈ maps := heq ▸ List.mem_append_left _ he
    exact hshapes m hm e hearlier name x y hx hy

omit [CommRing R] in
theorem Fitting.singleton (m : TensorMap R) : Fitting [m] where
  common h := absurd h (Nat.not_succ_le_self 1)
  shapes earlier m' later heq := by
    have hlength := congrArg List.length heq
    simp only [List.length_append, List.length_cons, List.length_nil] at hlength
    obtain rfl : earlier = [] := List.length_eq_zero_iff.mp (by omega)
    exact fun _ _ _ _ _ he => nomatch he

omit [CommRing R] in
theorem Fitting.of_concat (h : Fitting (maps ++ [m])) : Fitting maps where
  common hlength := by
    obtain ⟨name, hname⟩ := h.common (by rw [List.length_append]; omega)
    exact ⟨name, fun e he => hname e (List.mem_append_left _ he)⟩
  shapes earlier m' later heq := h.shapes earlier m' (later ++ [m]) (by rw [heq, List.append_assoc, List.cons_append])

/-- One more map fits if it has a name in common with the sum, and the same shapes. -/
theorem Fitting.concat_iff (hsum : SumOf maps total) (hne : maps ≠ []) :
    Fitting (maps ++ [m]) ↔ Fitting maps ∧ SameShapes m total ∧ Meets m total := by
  have hlength := List.length_pos_of_ne_nil hne
  constructor
  · intro h
    refine ⟨h.of_concat, fun name x t hx ht => ?_, ?_⟩
    · have hmem := (hsum.mem_iff name).mp (Table.mem_of_lookup ht)
      obtain ⟨e, he⟩ := List.exists_mem_of_ne_nil maps hne
      obtain ⟨y, hy⟩ := Table.exists_lookup (hmem e he)
      rw [h.shapes maps m [] rfl name hmem x hx e he y hy, hsum.shape name t ht e he y hy]
    · obtain ⟨name, hname⟩ := h.common (by rw [List.length_append, List.length_singleton]; omega)
      exact ⟨name, hname m List.mem_concat_self, (hsum.mem_iff name).mpr fun e he => hname e (List.mem_append_left _ he)⟩
  · rintro ⟨hfitting, hshapes, name, hm, htotal⟩
    refine ⟨fun _ => ⟨name, fun e he => ?_⟩, fun earlier m' later heq => ?_⟩
    · rcases List.mem_append.mp he with he | he
      · exact (hsum.mem_iff name).mp htotal e he
      · rwa [List.mem_singleton.mp he]
    · rcases List.eq_nil_or_concat' later with rfl | ⟨later', m'', rfl⟩
      · obtain ⟨rfl, hm'⟩ := List.append_inj' heq rfl
        obtain rfl := (List.cons.inj hm').1
        intro name hmem x hx e he y hy
        obtain ⟨t, ht⟩ := Table.exists_lookup ((hsum.mem_iff name).mpr hmem)
        rw [hshapes name x t hx ht, hsum.shape name t ht e he y hy]
      · have hinit : maps ++ [m] = (earlier ++ m' :: later') ++ [m''] :=
          heq.trans (by rw [List.append_assoc, List.cons_append])
        exact hfitting.shapes earlier m' later' (List.append_inj_left' hinit rfl)

end Elements

end Hypha.Lib
