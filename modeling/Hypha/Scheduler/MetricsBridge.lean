import Hypha.Lib.Table
import Hypha.Lib.Text
import Mathlib.Data.List.Lex
import Mathlib.Data.List.Forall2

/-!
# Metrics as rows of a CSV file

The first message that `CsvConnector` forwards to an empty file also writes the header, from its own metric names; every
message writes a row, from its own names again.

* `records_forwarded` : the file, as the cells of its lines;
* `aligned_iff` : a row fits the header if and only if its message has the names of the first one;
* `wellFormed_iff` : the file is well formed if and only if all messages have the same names;
* `wellFormed_fails` : the update of a worker with a loss, then the broadcast of its round.
-/

namespace Hypha.Scheduler.MetricsBridge

open List Lib

/-! ## Numbers as texts -/

/-- An `f32`, given by the decimal number that stands for it: the shortest one that is read as the same `f32`. -/
inductive F32 where
  | nan
  | inf (negative : Bool)
  | finite (negative : Bool) (whole : Nat) (fraction : List (Fin 10))
  deriving DecidableEq, Repr

def sign (negative : Bool) : List Char := if negative then ['-'] else []

/-- `u32::to_string` and `u128::to_string`. -/
def digits (n : Nat) : List Char := Nat.toDigits 10 n

/-- `f32::to_string`, which never writes an exponent. -/
def F32.toText : F32 → List Char
  | nan => "NaN".toList
  | inf negative => sign negative ++ "inf".toList
  | finite negative whole [] => sign negative ++ digits whole
  | finite negative whole fraction => sign negative ++ (digits whole ++ '.' :: fraction.flatMap fun d => digits d)

/-- `f32::default`. -/
instance : Inhabited F32 := ⟨.finite false 0 []⟩

/-! ## The connector -/

structure Metrics where
  round : Nat
  metrics : Table (List Char) F32

/-- What is forwarded, and when. -/
structure PeerMetrics (PeerId : Type) where
  peerId : PeerId
  metrics : Metrics
  timestampMs : Nat

namespace Metrics

/-- `keys.sort()`. -/
def sortedKeys (metrics : Metrics) : List (List Char) := metrics.metrics.keys.insertionSort (· ≤ ·)

/-- `metrics.metrics.get(key).copied().unwrap_or_default().to_string()`. -/
def valueText (metrics : Metrics) (key : List Char) : List Char := ((metrics.metrics.lookup key).getD default).toText

/-- The header without its line end. -/
def header (metrics : Metrics) : List Char :=
  metrics.sortedKeys.foldl (fun header key => header ++ ',' :: key) "step,timestamp,peer_id".toList

end Metrics

variable {PeerId : Type} (peerText : PeerId → List Char)

/-- A row without its line end. -/
def PeerMetrics.row (m : PeerMetrics PeerId) : List Char :=
  m.metrics.sortedKeys.foldl (fun row key => row ++ ',' :: m.metrics.valueText key)
    (digits m.metrics.round ++ ',' :: (digits m.timestampMs ++ ',' :: peerText m.peerId))

/-- `CsvConnector::forward_metrics`, on the contents of the file. -/
def forwardMetrics (file : List Char) (m : PeerMetrics PeerId) : List Char :=
  let file := if String.utf8Len file = 0 then file ++ (m.metrics.header ++ ['\n']) else file
  file ++ (m.row peerText ++ ['\n'])

/-- The file after some messages. -/
def forwarded (sent : List (PeerMetrics PeerId)) : List Char := sent.foldl (forwardMetrics peerText) []

/-! ## Texts without separators -/

/-- Free of commas and of line ends. -/
def Plain (text : List Char) : Prop := ',' ∉ text ∧ '\n' ∉ text

instance (text : List Char) : Decidable (Plain text) := inferInstanceAs (Decidable (_ ∧ _))

theorem Plain.append {s t : List Char} (hs : Plain s) (ht : Plain t) : Plain (s ++ t) :=
  ⟨fun h => (mem_append.mp h).elim hs.1 ht.1, fun h => (mem_append.mp h).elim hs.2 ht.2⟩

theorem plain_of_forall {text : List Char} (p : Char → Bool) (h : ∀ c ∈ text, p c = true) (hcomma : p ',' = false)
    (hnewline : p '\n' = false) : Plain text :=
  ⟨fun hmem => ne_true_of_eq_false hcomma (h _ hmem), fun hmem => ne_true_of_eq_false hnewline (h _ hmem)⟩

theorem plain_digits (n : Nat) : Plain (digits n) :=
  plain_of_forall Char.isDigit (fun _ hc => Nat.isDigit_of_mem_toDigits (by decide) (by decide) hc) rfl rfl

theorem plain_sign (negative : Bool) : Plain (sign negative) := by
  cases negative <;> exact ⟨by decide, by decide⟩

theorem plain_toText : ∀ v : F32, Plain v.toText
  | .nan => ⟨by decide, by decide⟩
  | .inf negative => (plain_sign negative).append ⟨by decide, by decide⟩
  | .finite negative whole [] => (plain_sign negative).append (plain_digits whole)
  | .finite negative whole (d :: fraction) => by
    have hfraction : ∀ fraction : List (Fin 10), Plain (fraction.flatMap fun d => digits d) := fun fraction => by
      induction fraction with
      | nil => exact ⟨not_mem_nil, not_mem_nil⟩
      | cons d fraction ih => exact (plain_digits d).append ih
    have hpoint : Plain ['.'] := ⟨by decide, by decide⟩
    exact (plain_sign negative).append ((plain_digits whole).append (hpoint.append (hfraction (d :: fraction))))

theorem toText_ne_nil : ∀ v : F32, v.toText ≠ []
  | .nan => by decide
  | .inf negative => append_ne_nil_of_right_ne_nil _ (by decide)
  | .finite negative whole [] => append_ne_nil_of_right_ne_nil _ Nat.toDigits_ne_nil
  | .finite negative whole (d :: fraction) =>
    append_ne_nil_of_right_ne_nil _ (append_ne_nil_of_left_ne_nil Nat.toDigits_ne_nil _)

theorem Metrics.plain_valueText (metrics : Metrics) (key : List Char) : Plain (metrics.valueText key) := plain_toText _

/-- The names are what a row is about. -/
theorem Metrics.mem_sortedKeys {metrics : Metrics} {key : List Char} :
    key ∈ metrics.sortedKeys ↔ key ∈ metrics.metrics :=
  mem_insertionSort _

theorem Metrics.nodup_sortedKeys (metrics : Metrics) : metrics.sortedKeys.Nodup :=
  (perm_insertionSort _ _).nodup_iff.mpr metrics.metrics.keys_nodup

/-- The same names are listed in the same order. -/
theorem Metrics.sortedKeys_eq {metrics metrics' : Metrics}
    (h : ∀ key, key ∈ metrics.metrics ↔ key ∈ metrics'.metrics) : metrics.sortedKeys = metrics'.sortedKeys :=
  Perm.eq_of_sortedLE sortedLE_insertionSort sortedLE_insertionSort
    ((perm_ext_iff_of_nodup metrics.nodup_sortedKeys metrics'.nodup_sortedKeys).mpr fun key => by
      rw [mem_sortedKeys, mem_sortedKeys, h])

/-! ## The file by its cells -/

/-- The cells of every line that is ended. -/
def records (file : List Char) : List (List (List Char)) := (file.splitOn '\n').dropLast.map (·.splitOn ',')

def Metrics.headerCells (metrics : Metrics) : List (List Char) :=
  "step".toList :: (["timestamp".toList, "peer_id".toList] ++ metrics.sortedKeys)

/-- The cells before those of the metrics. -/
def PeerMetrics.leading (m : PeerMetrics PeerId) : List (List Char) :=
  [digits m.metrics.round, digits m.timestampMs, peerText m.peerId]

def PeerMetrics.rowCells (m : PeerMetrics PeerId) : List (List Char) :=
  m.leading peerText ++ m.metrics.sortedKeys.map m.metrics.valueText

/-- Names that a cell can hold. -/
def Metrics.PlainNames (metrics : Metrics) : Prop := ∀ key ∈ metrics.metrics, Plain key

theorem Metrics.header_eq (metrics : Metrics) :
    metrics.header =
      "step".toList ++
        (["timestamp".toList, "peer_id".toList] ++ metrics.sortedKeys).flatMap fun cell => ',' :: cell := by
  unfold header
  rw [foldl_append_eq_append, flatMap_append, ← flatMap_def]
  rfl

theorem PeerMetrics.row_eq (m : PeerMetrics PeerId) :
    m.row peerText = digits m.metrics.round ++
      (digits m.timestampMs :: peerText m.peerId :: m.metrics.sortedKeys.map m.metrics.valueText).flatMap
        fun cell => ',' :: cell := by
  unfold row
  rw [foldl_append_eq_append, ← flatMap_def, flatMap_cons, flatMap_cons, flatMap_map]
  simp only [List.append_assoc, cons_append]

/-- A line of plain cells is read as these cells. -/
theorem splitOn_line {first : List Char} {cells : List (List Char)} (hfirst : Plain first)
    (hcells : ∀ cell ∈ cells, Plain cell) :
    (first ++ cells.flatMap fun cell => ',' :: cell).splitOn ',' = first :: cells ∧
      '\n' ∉ first ++ cells.flatMap fun cell => ',' :: cell := by
  constructor
  · rw [splitOn_pushed (fun cell => cell) hfirst.1 fun cell hcell => (hcells cell hcell).1, map_id']
  · intro hmem
    rcases mem_append.mp hmem with hmem | hmem
    · exact hfirst.2 hmem
    · obtain ⟨cell, hcell, hmem⟩ := mem_flatMap.mp hmem
      rcases mem_cons.mp hmem with heq | hmem
      · cases heq
      · exact (hcells cell hcell).2 hmem

theorem Metrics.splitOn_header {metrics : Metrics} (h : metrics.PlainNames) :
    metrics.header.splitOn ',' = metrics.headerCells ∧ '\n' ∉ metrics.header := by
  rw [header_eq]
  refine splitOn_line ⟨by decide, by decide⟩ fun cell hcell => ?_
  rcases mem_append.mp hcell with hcell | hcell
  · rcases mem_cons.mp hcell with rfl | hcell
    · exact ⟨by decide, by decide⟩
    · rw [mem_singleton.mp hcell]
      exact ⟨by decide, by decide⟩
  · exact h cell (mem_sortedKeys.mp hcell)

/-- `PeerId::to_string` is a number in base 58, which letters and digits write. -/
def Base58 (peerText : PeerId → List Char) : Prop := ∀ peer, ∀ c ∈ peerText peer, c.isAlphanum = true

variable {peerText}

theorem Base58.plain (h : Base58 peerText) (peer : PeerId) : Plain (peerText peer) :=
  plain_of_forall Char.isAlphanum (h peer) rfl rfl

theorem PeerMetrics.splitOn_row (hpeers : Base58 peerText) (m : PeerMetrics PeerId) :
    (m.row peerText).splitOn ',' = m.rowCells peerText ∧ '\n' ∉ m.row peerText := by
  rw [row_eq]
  refine splitOn_line (plain_digits _) fun cell hcell => ?_
  rcases mem_cons.mp hcell with rfl | hcell
  · exact plain_digits _
  rcases mem_cons.mp hcell with rfl | hcell
  · exact hpeers.plain m.peerId
  · obtain ⟨key, -, rfl⟩ := mem_map.mp hcell
    exact m.metrics.plain_valueText key

/-- A file that is not empty gets rows only. -/
theorem foldl_forwardMetrics (sent : List (PeerMetrics PeerId)) :
    ∀ {file : List Char}, file ≠ [] →
      sent.foldl (forwardMetrics peerText) file = file ++ sent.flatMap fun m => m.row peerText ++ ['\n'] := by
  induction sent with
  | nil => exact fun _ => (append_nil _).symm
  | cons m sent ih =>
    intro file hfile
    have hstep : forwardMetrics peerText file m = file ++ (m.row peerText ++ ['\n']) := by
      unfold forwardMetrics
      rw [if_neg fun hlen => hfile (String.utf8Len_eq_zero.mp hlen)]
    rw [foldl_cons, hstep, ih (append_ne_nil_of_left_ne_nil hfile _), flatMap_cons, List.append_assoc]

/-- The lines of the file: the header of the first message, and the rows. -/
theorem forwarded_cons (m : PeerMetrics PeerId) (sent : List (PeerMetrics PeerId)) :
    forwarded peerText (m :: sent) =
      (m.metrics.header :: (m :: sent).map fun m => m.row peerText).flatMap fun line => line ++ ['\n'] := by
  unfold forwarded
  have hfirst : forwardMetrics peerText [] m = m.metrics.header ++ ['\n'] ++ (m.row peerText ++ ['\n']) := rfl
  rw [foldl_cons, hfirst, foldl_forwardMetrics sent (append_ne_nil_of_left_ne_nil (concat_ne_nil _ _) _), flatMap_cons,
    map_cons, flatMap_cons, flatMap_map, List.append_assoc, List.append_assoc]

theorem records_forwarded (hpeers : Base58 peerText) {m : PeerMetrics PeerId} {sent : List (PeerMetrics PeerId)}
    (hnames : m.metrics.PlainNames) :
    records (forwarded peerText (m :: sent)) = m.metrics.headerCells :: (m :: sent).map (·.rowCells peerText) := by
  have hlines : ∀ line ∈ m.metrics.header :: (m :: sent).map fun m => m.row peerText, '\n' ∉ line := fun line hline => by
    rcases mem_cons.mp hline with rfl | hline
    · exact (Metrics.splitOn_header hnames).2
    · obtain ⟨m', -, rfl⟩ := mem_map.mp hline
      exact (m'.splitOn_row hpeers).2
  unfold records
  rw [forwarded_cons, splitOn_ended (fun line => line) hlines, map_id', dropLast_concat, map_cons,
    (Metrics.splitOn_header hnames).1, map_map]
  exact congrArg _ (map_congr_left fun m' _ => (m'.splitOn_row hpeers).1)

/-! ## When the rows fit -/

/-- The text of a cell that has a value or none. -/
def cellText : Option F32 → List Char
  | none => []
  | some v => v.toText

variable (peerText) in
/-- A row has the cells that the header announces: of the name of a column, the value in the message. -/
structure Aligned (header : List (List Char)) (m : PeerMetrics PeerId) (row : List (List Char)) : Prop where
  length : row.length = header.length
  leading : row.take 3 = m.leading peerText
  cell : ∀ j name, 3 ≤ j → header[j]? = some name → row[j]? = some (cellText (m.metrics.metrics.lookup name))

variable (peerText) in
/-- Every row is aligned. -/
def WellFormed (sent : List (PeerMetrics PeerId)) : Prop :=
  match records (forwarded peerText sent) with
  | [] => sent = []
  | header :: rows => Forall₂ (Aligned peerText header) sent rows

/-- All messages have the same metric names. -/
def SameNames (sent : List (PeerMetrics PeerId)) : Prop :=
  ∀ m ∈ sent, ∀ m' ∈ sent, ∀ key, key ∈ m.metrics.metrics ↔ key ∈ m'.metrics.metrics

theorem cellText_ne_nil {v : Option F32} (h : cellText v ≠ []) : v.isSome = true := by
  cases v with
  | none => exact absurd rfl h
  | some v => rfl

/-- The value of a name that the message has. -/
theorem Metrics.valueText_eq {metrics : Metrics} {key : List Char} (h : key ∈ metrics.metrics) :
    metrics.valueText key = cellText (metrics.metrics.lookup key) := by
  obtain ⟨v, hv⟩ := Table.exists_lookup h
  unfold valueText
  rw [hv]
  rfl

/-- Under each name of the header there is a cell, which is not empty. -/
theorem Aligned.mem {metrics : Metrics} {m : PeerMetrics PeerId}
    (h : Aligned peerText metrics.headerCells m (m.rowCells peerText)) {key : List Char}
    (hkey : key ∈ metrics.sortedKeys) : key ∈ m.metrics.sortedKeys := by
  obtain ⟨i, hi⟩ := mem_iff_getElem?.mp hkey
  have hcell : (m.metrics.sortedKeys.map m.metrics.valueText)[i]? = some (cellText (m.metrics.metrics.lookup key)) :=
    h.cell (i + 3) key (Nat.le_add_left 3 i) hi
  rw [getElem?_map, Option.map_eq_some_iff] at hcell
  obtain ⟨key', -, hvalue⟩ := hcell
  have hsome : (m.metrics.metrics.lookup key).isSome = true := by
    refine cellText_ne_nil ?_
    rw [← hvalue]
    exact toText_ne_nil _
  exact Metrics.mem_sortedKeys.mpr (AList.lookup_isSome.mp hsome)

/-- A row fits the header of a message if and only if it has its names. -/
theorem aligned_iff (metrics : Metrics) (m : PeerMetrics PeerId) :
    Aligned peerText metrics.headerCells m (m.rowCells peerText) ↔
      ∀ key, key ∈ m.metrics.metrics ↔ key ∈ metrics.metrics := by
  constructor
  · intro h key
    have hlength : m.metrics.sortedKeys.length ≤ metrics.sortedKeys.length := by
      have := h.length
      simp only [PeerMetrics.rowCells, PeerMetrics.leading, Metrics.headerCells, length_append, length_map, length_cons,
        length_nil] at this
      omega
    have hperm : metrics.sortedKeys.Perm m.metrics.sortedKeys :=
      (subperm_of_subset metrics.nodup_sortedKeys fun key hkey => h.mem hkey).perm_of_length_le hlength
    rw [← Metrics.mem_sortedKeys, ← Metrics.mem_sortedKeys, hperm.mem_iff]
  · intro h
    have hkeys := Metrics.sortedKeys_eq h
    refine ⟨?_, rfl, ?_⟩
    · unfold PeerMetrics.rowCells Metrics.headerCells
      rw [hkeys, length_append, length_map]
      exact Nat.add_comm 3 _
    · intro j name hj hname
      obtain ⟨i, rfl⟩ := Nat.exists_eq_add_of_le' hj
      have hi : metrics.sortedKeys[i]? = some name := hname
      have hmem : name ∈ m.metrics.metrics := (h name).mpr (Metrics.mem_sortedKeys.mp (mem_of_getElem? hi))
      show (m.metrics.sortedKeys.map m.metrics.valueText)[i]? = _
      rw [hkeys, getElem?_map, hi, ← Metrics.valueText_eq hmem]
      rfl

/-- **The exact condition.** The file is well formed if and only if all messages have the same metric names. -/
theorem wellFormed_iff (hpeers : Base58 peerText) {sent : List (PeerMetrics PeerId)}
    (hnames : ∀ m ∈ sent, m.metrics.PlainNames) : WellFormed peerText sent ↔ SameNames sent := by
  cases sent with
  | nil => exact iff_of_true rfl fun m hm => absurd hm not_mem_nil
  | cons first rest =>
    unfold WellFormed
    rw [records_forwarded hpeers (hnames first mem_cons_self)]
    show Forall₂ (Aligned peerText first.metrics.headerCells) (first :: rest)
      ((first :: rest).map (·.rowCells peerText)) ↔ _
    rw [forall₂_map_right_iff, forall₂_same]
    constructor
    · intro h m hm m' hm' key
      rw [(aligned_iff _ m).mp (h m hm), (aligned_iff _ m').mp (h m' hm')]
    · exact fun h m hm => (aligned_iff _ m).mpr (h m hm first mem_cons_self)

/-- A message of a worker at the end of a round: the four numbers of the scheduler, after those of the worker. -/
def ofRound (round timestampMs : Nat) (names : List (List Char)) : PeerMetrics Unit where
  peerId := ()
  metrics := {
    round
    metrics := ((names ++ ["round".toList, "data_points".toList, "steps".toList, "duration".toList]).map
      fun name => ⟨name, .finite false round [5]⟩).toAList }
  timestampMs

theorem wellFormed_losses :
    WellFormed (fun _ => "12D3KooW".toList) [ofRound 0 1000 ["loss".toList], ofRound 1 2000 ["loss".toList]] := by
  refine (wellFormed_iff (fun _ => all_eq_true.mp rfl) fun m hm => ?_).mpr fun m hm m' hm' key => ?_
  · have hplain : ∀ round timestampMs, (ofRound round timestampMs ["loss".toList]).metrics.PlainNames :=
      fun _ _ => (by decide : ∀ key ∈ (ofRound 0 0 ["loss".toList]).metrics.metrics.keys, Plain key)
    simp only [mem_cons, not_mem_nil, or_false] at hm
    rcases hm with rfl | rfl <;> exact hplain _ _
  · simp only [mem_cons, not_mem_nil, or_false] at hm hm'
    rcases hm with rfl | rfl <;> rcases hm' with rfl | rfl <;> exact Iff.rfl

/-- The update of a worker with a loss, then the broadcast of the round: the second row has a cell less. -/
theorem wellFormed_fails :
    ¬ WellFormed (fun _ => "12D3KooW".toList) [ofRound 0 1000 ["loss".toList], ofRound 0 2000 []] := by
  intro h
  have hrecords : (records (forwarded (fun _ : Unit => "12D3KooW".toList)
      [ofRound 0 1000 ["loss".toList], ofRound 0 2000 []])).map length = [8, 8, 7] := by decide
  unfold WellFormed at h
  split at h
  case h_1 => cases h
  case h_2 header rows hsplit =>
    rw [hsplit] at hrecords
    obtain _ | ⟨-, _ | ⟨hsecond, _⟩⟩ := h
    have hcells := hsecond.length
    simp only [map_cons, cons.injEq] at hrecords
    omega

end Hypha.Scheduler.MetricsBridge
