import Hypha.Lib.Text

/-!
# Resource attributes

`Attributes` are printed as `key=value,` one after the other. `tryFrom` reads such a text leniently: blank entries are
skipped, an entry without `=` has an empty value, and white space around keys and values does not count.

* `KeyValue.Canonical` : what a parsed pair looks like (`canonical_of_tryFrom`);
* `tryFrom_display` : pairs that look like that are read as they were printed;
* `attributes_canonicalised` : printing what was read, and reading it again.
-/

namespace Hypha.Telemetry

open List Lib

/-- A pair of `opentelemetry::KeyValue`, all values being strings. -/
structure KeyValue where
  key : List Char
  value : List Char
  deriving DecidableEq, Repr

abbrev Attributes := List KeyValue

def KeyValue.entry (kv : KeyValue) : List Char := kv.key ++ '=' :: kv.value

/-- `Display::fmt`. -/
def display (attrs : Attributes) : List Char := attrs.flatMap fun kv => kv.entry ++ [',']

/-- The body of the loop of `try_from`. -/
def parsePair (pair : List Char) : Except (List Char) KeyValue :=
  let parts := splitn2 '=' pair
  let key := trim parts.1
  if key = [] then .error ("invalid resource attribute entry: ".toList ++ pair)
  else .ok ⟨key, trim (parts.2.getD [])⟩

def tryFrom (s : List Char) : Except (List Char) Attributes :=
  ((s.splitOn ',').filter fun p => trim p ≠ []).mapM parsePair

/-- Reading and printing. -/
def canonicalise (s : List Char) : Except (List Char) (List Char) := (tryFrom s).map display

/-! ## Pairs -/

/-- A pair that its entry determines. -/
structure KeyValue.Canonical (kv : KeyValue) : Prop where
  key_ne : kv.key ≠ []
  key_free : ',' ∉ kv.key ∧ '=' ∉ kv.key
  value_free : ',' ∉ kv.value
  key_trimmed : Trimmed kv.key
  value_trimmed : Trimmed kv.value

theorem KeyValue.Canonical.entry_free {kv : KeyValue} (h : kv.Canonical) : ',' ∉ kv.entry := by
  intro hmem
  rcases mem_append.mp hmem with hkey | hvalue
  · exact h.key_free.1 hkey
  · rcases mem_cons.mp hvalue with heq | hvalue
    · cases heq
    · exact h.value_free hvalue

/-- An entry has a `=`, so it is not blank. -/
theorem KeyValue.trim_entry_ne (kv : KeyValue) : trim kv.entry ≠ [] := fun hnil =>
  absurd (trim_eq_nil_iff.mp hnil '=' (mem_append_right kv.key mem_cons_self)) (by decide)

theorem parsePair_entry {kv : KeyValue} (h : kv.Canonical) : parsePair kv.entry = .ok kv := by
  unfold parsePair KeyValue.entry
  rw [splitn2_append kv.value h.key_free.2]
  show (if trim kv.key = [] then _ else Except.ok ⟨trim kv.key, trim kv.value⟩) = Except.ok kv
  rw [trim_eq_self h.key_trimmed, trim_eq_self h.value_trimmed, if_neg h.key_ne]

/-- What an entry without commas is read as. -/
theorem canonical_of_parsePair {pair : List Char} {kv : KeyValue} (hpair : ',' ∉ pair)
    (h : parsePair pair = .ok kv) : kv.Canonical := by
  obtain ⟨hsep, hfirst, hsecond⟩ := splitn2_parts '=' pair
  unfold parsePair at h
  dsimp only at h
  split_ifs at h with hkey
  cases h
  have hvalue : (splitn2 '=' pair).2.getD [] ⊆ pair := by
    cases hparts : (splitn2 '=' pair).2 with
    | none => exact nil_subset pair
    | some second => exact hsecond second hparts
  exact {
    key_ne := hkey
    key_free := ⟨fun hmem => hpair (hfirst ((trim_sublist _).subset hmem)),
      fun hmem => hsep ((trim_sublist _).subset hmem)⟩
    value_free := fun hmem => hpair (hvalue ((trim_sublist _).subset hmem))
    key_trimmed := trim_trimmed _
    value_trimmed := trim_trimmed _ }

/-! ## Lists of pairs -/

/-- Results of a loop that did not fail. -/
theorem mem_of_mapM_ok {α β ε : Type} {f : α → Except ε β} :
    ∀ {xs : List α} {ys : List β}, xs.mapM f = .ok ys → ∀ y ∈ ys, ∃ x ∈ xs, f x = .ok y
  | [], ys, h, y, hy => by
    cases h
    cases hy
  | x :: xs, ys, h, y, hy => by
    rw [mapM_cons] at h
    cases hx : f x with
    | error e =>
      rw [hx] at h
      cases h
    | ok y' =>
      cases hxs : xs.mapM f with
      | error e =>
        rw [hx, hxs] at h
        cases h
      | ok ys' =>
        rw [hx, hxs] at h
        cases h
        rcases mem_cons.mp hy with rfl | hy
        · exact ⟨x, mem_cons_self, hx⟩
        · obtain ⟨x', hx', hy'⟩ := mem_of_mapM_ok hxs y hy
          exact ⟨x', mem_cons_of_mem x hx', hy'⟩

theorem canonical_of_tryFrom {s : List Char} {attrs : Attributes} (h : tryFrom s = .ok attrs) :
    ∀ kv ∈ attrs, kv.Canonical := by
  intro kv hkv
  obtain ⟨pair, hpair, hparse⟩ := mem_of_mapM_ok h kv hkv
  exact canonical_of_parsePair (not_mem_of_mem_splitOn (mem_filter.mp hpair).1) hparse

theorem tryFrom_display {attrs : Attributes} (h : ∀ kv ∈ attrs, kv.Canonical) : tryFrom (display attrs) = .ok attrs := by
  have hfilter : ((display attrs).splitOn ',').filter (fun p => trim p ≠ []) = attrs.map KeyValue.entry := by
    unfold display
    rw [splitOn_ended KeyValue.entry fun kv hkv => (h kv hkv).entry_free, filter_append, filter_eq_self.mpr,
      filter_cons_of_neg (by decide), filter_nil, append_nil]
    intro entry hentry
    obtain ⟨kv, -, rfl⟩ := mem_map.mp hentry
    exact decide_eq_true kv.trim_entry_ne
  unfold tryFrom
  rw [hfilter]
  clear hfilter
  induction attrs with
  | nil => rfl
  | cons kv attrs ih =>
    rw [map_cons, mapM_cons, parsePair_entry (h kv mem_cons_self), ih fun p hp => h p (mem_cons_of_mem kv hp)]
    rfl

/-- Printing what was read and reading it again gives the same pairs, and from then on the same text; and canonical
pairs are read as they were printed. -/
theorem attributes_canonicalised :
    (∀ s attrs, tryFrom s = .ok attrs →
      tryFrom (display attrs) = .ok attrs ∧ canonicalise (display attrs) = .ok (display attrs)) ∧
    ∀ attrs : Attributes, (∀ kv ∈ attrs, kv.Canonical) → tryFrom (display attrs) = .ok attrs := by
  refine ⟨fun s attrs h => ?_, fun attrs h => tryFrom_display h⟩
  have hround := tryFrom_display (canonical_of_tryFrom h)
  refine ⟨hround, ?_⟩
  unfold canonicalise
  rw [hround]
  rfl

/-- The text of the repository's own test. -/
theorem attributes_canonicalised_dangling :
    ∃ attrs : Attributes, tryFrom "service.name=hypha, env=prod, dangling".toList = .ok attrs ∧
      display attrs = "service.name=hypha,env=prod,dangling=,".toList ∧ tryFrom (display attrs) = .ok attrs := by
  have hparse : tryFrom "service.name=hypha, env=prod, dangling".toList =
      .ok [⟨"service.name".toList, "hypha".toList⟩, ⟨"env".toList, "prod".toList⟩, ⟨"dangling".toList, []⟩] := by
    rfl
  exact ⟨_, hparse, by decide, (attributes_canonicalised.1 _ _ hparse).1⟩

end Hypha.Telemetry
