import Mathlib.Data.List.TakeWhile
import Trader.Fix

set_option autoImplicit false

/-!
# Tailing a log file

The log box follows a file by reading lines off it each time it is said to
have been modified. `std::getline` ends a line at a newline or at the end of
what has been written so far, and gives the line in both cases; the watcher
clears the end-of-file state and takes up from there at the next event. A
line of which only a part has been written is thus handed on in parts.

So the lines handed on are those of the file exactly when every write ends
with a newline (`tail_eq_lines_iff`).
-/

/-! ## Lines of a text -/

namespace Lines

/-- The lines of a text that a newline ends. -/
def complete (t : Text) : List Text := (t.splitOn '\n').dropLast

/-- What follows the last newline of a text. -/
def rest (t : Text) : Text := (t.splitOn '\n').getLast (List.splitOn_ne_nil _ _)

/-- A text that is empty or ends with a newline: it breaks off in no line. -/
def Whole (t : Text) : Prop := t = [] ∨ t.getLast? = some '\n'

instance : DecidablePred Whole := fun _ => inferInstanceAs (Decidable (_ ∨ _))

theorem splitOn_eq (t : Text) : t.splitOn '\n' = complete t ++ [rest t] :=
  (List.dropLast_append_getLast _).symm

theorem complete_of_not_mem {t : Text} (h : '\n' ∉ t) : complete t = [] ∧ rest t = t := by
  have hsplit := splitOn_eq t
  rw [List.splitOn_eq_singleton h] at hsplit
  obtain ⟨hnil, hrest⟩ := List.append_inj' (show [] ++ [t] = complete t ++ [rest t] from hsplit)
    rfl
  exact ⟨hnil.symm, (List.singleton_inj.mp hrest).symm⟩

/-- Past a newline a text goes on with lines of its own. -/
theorem complete_append_newline (a b : Text) :
    complete (a ++ '\n' :: b) = a.splitOn '\n' ++ complete b
      ∧ rest (a ++ '\n' :: b) = rest b := by
  have hsplit := splitOn_eq (a ++ '\n' :: b)
  rw [List.splitOn_append_cons_self, splitOn_eq b, ← List.append_assoc] at hsplit
  obtain ⟨hlines, hrest⟩ := List.append_inj' hsplit rfl
  exact ⟨hlines.symm, (List.singleton_inj.mp hrest).symm⟩

/-- A newline splits a text, or there is none. -/
theorem exists_line (t : Text) :
    '\n' ∉ t ∨ ∃ a b, t = a ++ '\n' :: b ∧ '\n' ∉ a := by
  by_cases h : '\n' ∈ t
  · obtain ⟨a, b, rfl, ha⟩ := List.eq_append_cons_of_mem h
    exact Or.inr ⟨a, b, rfl, ha⟩
  · exact Or.inl h

/-- **A text is whole** when nothing follows its last newline. -/
theorem rest_eq_nil_iff (t : Text) : rest t = [] ↔ Whole t := by
  induction hlen : t.length using Nat.strongRecOn generalizing t with
  | ind n ih =>
    rcases exists_line t with hno | ⟨a, b, rfl, ha⟩
    · rw [(complete_of_not_mem hno).2]
      constructor
      · exact Or.inl
      · rintro (h | h)
        · exact h
        · exact absurd (List.mem_of_getLast? h) hno
    · rw [(complete_append_newline a b).2, ih b.length (by
        rw [← hlen, List.length_append, List.length_cons]
        omega) b rfl]
      cases b with
      | nil => exact iff_of_true (Or.inl rfl) (Or.inr List.getLast?_concat)
      | cons c b =>
        have hlast : (a ++ '\n' :: c :: b).getLast? = (c :: b).getLast? := by
          rw [List.append_cons, List.getLast?_append_of_ne_nil _ (List.cons_ne_nil c b)]
        unfold Whole
        rw [hlast, or_iff_right (List.cons_ne_nil _ _), or_iff_right (by simp)]

/-- Whole texts have the lines of their parts. -/
theorem complete_append {a : Text} (ha : Whole a) (b : Text) :
    complete (a ++ b) = complete a ++ complete b := by
  rcases ha with rfl | h
  · rfl
  · obtain ⟨a', rfl⟩ := List.getLast?_eq_some_iff.mp h
    rw [List.append_assoc]
    show complete (a' ++ '\n' :: b) = complete (a' ++ '\n' :: []) ++ complete b
    rw [(complete_append_newline a' b).1, (complete_append_newline a' []).1]
    simp [complete]

/-- There is a complete line for each newline. -/
theorem length_complete (t : Text) : (complete t).length = t.count '\n' := by
  have hsplit : (t.splitOn '\n').length = t.count '\n' + 1 := by
    induction t with
    | nil => rfl
    | cons c t ih =>
      rw [List.splitOn_cons_eq_if_modifyHead, List.count_cons]
      split
      · rw [List.length_cons, ih]
      · rw [List.length_modifyHead, ih, Nat.add_zero]
  rw [splitOn_eq, List.length_append] at hsplit
  exact Nat.succ.inj hsplit

end Lines

/-! ## The stream and the watcher -/

namespace Ui

/-- A `std::ifstream`: what is left to read of the file as it stands, and
the two state bits that reading sets. -/
structure Ifstream where
  rest : Text
  eofbit : Bool
  failbit : Bool
  deriving DecidableEq

namespace Ifstream

/-- `clear()`. -/
def clear (s : Ifstream) : Ifstream := { s with eofbit := false, failbit := false }

/-- `std::getline(stream, line)`, with the line when the stream converts to
true after it. A stream that is not good fails at once; one that meets the
end of the file gives the characters before it, and fails if there are
none. -/
def getline (s : Ifstream) : Option Text × Ifstream :=
  if s.eofbit ∨ s.failbit then (none, { s with failbit := true })
  else
    match s.rest.dropWhile (· ≠ '\n') with
    | _ :: rest => (some (s.rest.takeWhile (· ≠ '\n')), { s with rest := rest })
    | [] =>
      if s.rest = [] then (none, ⟨[], true, true⟩) else (some s.rest, ⟨[], true, false⟩)

/-- A line that was read was there. -/
theorem getline_length {s s' : Ifstream} {line : Text} (h : getline s = (some line, s')) :
    s'.rest.length < s.rest.length := by
  unfold getline at h
  split at h
  · cases h
  · split at h
    · next c rest hdrop =>
      obtain ⟨-, rfl⟩ := Prod.mk.inj h
      have hsuffix := (List.dropWhile_suffix (· ≠ '\n') (l := s.rest)).length_le
      rw [hdrop] at hsuffix
      exact hsuffix
    · split at h
      · cases h
      · next hne =>
        obtain ⟨-, rfl⟩ := Prod.mk.inj h
        exact List.length_pos_iff.mpr hne

/-- `while (std::getline(file_, line)) lines.emplace_back(std::move(line))`. -/
def readLines (s : Ifstream) : List Text × Ifstream :=
  match _h : getline s with
  | (none, s') => ([], s')
  | (some line, s') =>
    let (lines, s'') := readLines s'
    (line :: lines, s'')
termination_by s.rest.length
decreasing_by exact getline_length ‹_›

/-- A stream that is ready to read a text. -/
def ready (t : Text) : Ifstream := ⟨t, false, false⟩

theorem getline_line {a : Text} (ha : '\n' ∉ a) (b : Text) :
    getline (ready (a ++ '\n' :: b)) = (some a, ready b) := by
  have hpos : ∀ c ∈ a, decide (c ≠ '\n') = true :=
    fun c hc => decide_eq_true (fun h => ha (h ▸ hc))
  have hdrop : (a ++ '\n' :: b).dropWhile (· ≠ '\n') = '\n' :: b := by
    rw [List.dropWhile_append_of_pos hpos, List.dropWhile_cons_of_neg (by decide)]
  have htake : (a ++ '\n' :: b).takeWhile (· ≠ '\n') = a := by
    rw [List.takeWhile_append_of_pos hpos, List.takeWhile_cons_of_neg (by decide),
      List.append_nil]
  simp only [getline, ready, hdrop, htake]
  rfl

theorem getline_end {t : Text} (h : '\n' ∉ t) :
    getline (ready t)
      = if t = [] then (none, ⟨[], true, true⟩) else (some t, ⟨[], true, false⟩) := by
  have hdrop : t.dropWhile (· ≠ '\n') = [] :=
    List.dropWhile_eq_nil_iff.mpr (fun c hc => decide_eq_true (fun heq => h (heq ▸ hc)))
  simp only [getline, ready, hdrop]
  rfl

/-- What an event hands on of a text: its lines, and the part of a line it
breaks off in. -/
def handedOn (t : Text) : List Text :=
  Lines.complete t ++ if Lines.rest t = [] then [] else [Lines.rest t]

/-- **A loop of `getline`** reads to the end of the file, handing on the part
of a line it meets there as a line. -/
theorem readLines_ready (t : Text) :
    readLines (ready t) = (handedOn t, ⟨[], true, true⟩) := by
  induction hlen : t.length using Nat.strongRecOn generalizing t with
  | ind n ih =>
    rcases Lines.exists_line t with hno | ⟨a, b, rfl, ha⟩
    · obtain ⟨hcomplete, hrest⟩ := Lines.complete_of_not_mem hno
      have hdone : readLines ⟨[], true, false⟩ = ([], ⟨[], true, true⟩) := by
        rw [readLines]
        rfl
      rw [readLines, getline_end hno, handedOn, hcomplete, hrest]
      by_cases ht : t = []
      · rw [if_pos ht, if_pos ht]
        rfl
      · rw [if_neg ht, if_neg ht]
        simp only [hdone]
        rfl
    · obtain ⟨hcomplete, hrest⟩ := Lines.complete_append_newline a b
      have hb := ih b.length (by
        rw [← hlen, List.length_append, List.length_cons]
        omega) b rfl
      rw [readLines, getline_line ha, handedOn, hcomplete, hrest, List.splitOn_eq_singleton ha]
      simp only [hb]
      rfl

end Ifstream

/-- `efsw::Action`. -/
inductive Action where
  | add
  | delete
  | modified
  | moved
  deriving DecidableEq

/-- `ui::LogFileWatcher`: the name of the file it watches, its stream, and
what its callback has been given so far. -/
structure LogFileWatcher where
  filename : Text
  file : Ifstream
  callbacks : List (List Text)

namespace LogFileWatcher

/-- `LogFileWatcher::handleFileAction`. -/
def handleFileAction (filename : Text) (action : Action) (w : LogFileWatcher) :
    LogFileWatcher :=
  if filename ≠ w.filename then w
  else
    match action with
    | .modified =>
      let (lines, file) := w.file.readLines
      { w with
        file := if file.eofbit then file.clear else file
        callbacks := w.callbacks ++ [lines] }
    | _ => w

/-- Bytes are appended to the file. -/
def append (chunk : Text) (w : LogFileWatcher) : LogFileWatcher :=
  { w with file := { w.file with rest := w.file.rest ++ chunk } }

/-- A chunk is appended, and the event for it handled. -/
def onChunk (w : LogFileWatcher) (chunk : Text) : LogFileWatcher :=
  (w.append chunk).handleFileAction w.filename .modified

/-- A watcher of an empty file. -/
def start (filename : Text) : LogFileWatcher := ⟨filename, .ready [], []⟩

/-- **One chunk**: the watcher hands on what is in it, and is ready for the
next. -/
theorem onChunk_ready (filename chunk : Text) (callbacks : List (List Text)) :
    onChunk ⟨filename, .ready [], callbacks⟩ chunk
      = ⟨filename, .ready [], callbacks ++ [Ifstream.handedOn chunk]⟩ := by
  unfold onChunk
  rw [handleFileAction, if_neg (fun h => h rfl)]
  simp only [append, show ({ Ifstream.ready [] with rest := (Ifstream.ready []).rest ++ chunk }
    : Ifstream) = Ifstream.ready chunk from rfl, Ifstream.readLines_ready]
  rfl

/-- What is handed on, chunk after chunk. -/
theorem foldl_onChunk (filename : Text) (chunks : List Text) (callbacks : List (List Text)) :
    chunks.foldl onChunk ⟨filename, .ready [], callbacks⟩
      = ⟨filename, .ready [], callbacks ++ chunks.map Ifstream.handedOn⟩ := by
  induction chunks generalizing callbacks with
  | nil =>
    rw [List.map_nil, List.append_nil]
    rfl
  | cons chunk chunks ih =>
    rw [List.foldl_cons, onChunk_ready, ih, List.append_assoc]
    rfl

/-- The lines of whole chunks are those of the file they make. -/
theorem flatten_handedOn_of_whole {chunks : List Text} (h : ∀ c ∈ chunks, Lines.Whole c) :
    (chunks.map Ifstream.handedOn).flatten = Lines.complete chunks.flatten := by
  induction chunks with
  | nil => rfl
  | cons c chunks ih =>
    obtain ⟨hc, hrest⟩ := List.forall_mem_cons.mp h
    rw [List.map_cons, List.flatten_cons, List.flatten_cons, ih hrest,
      Lines.complete_append hc, Ifstream.handedOn, if_pos ((Lines.rest_eq_nil_iff c).mpr hc),
      List.append_nil]

/-- Chunks hand on as many lines as the file has, and one more for each that
breaks off in one. -/
theorem length_flatten_handedOn (chunks : List Text) :
    (chunks.map Ifstream.handedOn).flatten.length
      = (Lines.complete chunks.flatten).length
        + (chunks.filter (fun c => ¬ Lines.Whole c)).length := by
  rw [Lines.length_complete]
  induction chunks with
  | nil => rfl
  | cons c chunks ih =>
    rw [List.map_cons, List.flatten_cons, List.flatten_cons, List.length_append, ih,
      List.count_append, Ifstream.handedOn, List.length_append, Lines.length_complete,
      List.filter_cons]
    by_cases hc : Lines.Whole c
    · rw [if_pos ((Lines.rest_eq_nil_iff c).mpr hc), if_neg (by simpa using hc),
        List.length_nil]
      omega
    · rw [if_neg (fun h => hc ((Lines.rest_eq_nil_iff c).mp h)), if_pos (by simpa using hc),
        List.length_singleton, List.length_cons]
      omega

/-- **Tailing depends on how writes are chunked**: for a file that ends with
a newline, what the callback is given is the lines of the file exactly when
every chunk that is not empty ends with a newline too. -/
theorem tail_eq_lines_iff (filename : Text) (chunks : List Text) :
    ((chunks.foldl onChunk (start filename)).callbacks.flatten
        = (chunks.flatten.splitOn '\n').dropLast)
      ↔ ∀ c ∈ chunks, c = [] ∨ c.getLast? = some '\n' := by
  rw [start, foldl_onChunk, List.nil_append]
  constructor
  · intro heq c hc
    have hlen := length_flatten_handedOn chunks
    rw [heq] at hlen
    have hnone : (chunks.filter (fun c => ¬ Lines.Whole c)).length = 0 := by
      unfold Lines.complete at hlen
      omega
    rw [List.length_eq_zero_iff, List.filter_eq_nil_iff] at hnone
    have hwhole := hnone c hc
    rw [decide_eq_true_iff, not_not] at hwhole
    exact hwhole
  · exact fun h => flatten_handedOn_of_whole h

/-- A line written in two goes is handed on as two. -/
theorem tail_of_split_line :
    ((["ab".toList, "c\n".toList].foldl onChunk (start "log".toList)).callbacks.flatten
        = ["ab".toList, "c".toList])
      ∧ (["ab".toList, "c\n".toList].flatten.splitOn '\n').dropLast = ["abc".toList] := by
  constructor
  · rw [start, foldl_onChunk]
    decide
  · decide

end LogFileWatcher

end Ui
