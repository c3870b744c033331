import Mathlib.Data.List.Infix
import Trader.LogFileWatcher
import Trader.LogBox
import Trader.Box

set_option autoImplicit false

/-!
# The log on the screen

Three threads meet at the log box: whoever writes the log file, the watcher
thread, which reads it line by line when it is said to have been modified and
hands the lines to `on_log_lines`, and the UI thread, which copies the ring.
The file may grow between any two lines that are read, the watcher may be told
of a change late, twice or not at all, and of changes to other files.

To the ring the watcher is what a worker is to its box, with the lines it
hands on for messages, so a run of the log box is one of a box
(`run_asBox`), and what is drawn is known from there. To the file it is
a reader that takes it in pieces: whatever the interleaving, the batches
handed on are the lines of consecutive pieces of the file, from its start on,
so that no character is lost and none handed on twice (`log_tail`). When the
file is only ever extended by whole lines, what is drawn is its last hundred
lines up to some point (`log_tail_whole`).
-/

/-! ## Pieces of a text -/

namespace Lines

theorem Whole.append {a b : Text} (ha : Whole a) (hb : Whole b) : Whole (a ++ b) := by
  rcases hb with rfl | hb
  · rw [List.append_nil]
    exact ha
  · refine Or.inr ?_
    rw [List.getLast?_append, hb]
    rfl

/-- What follows in a whole text is whole. -/
theorem Whole.of_append {a b : Text} (h : Whole (a ++ b)) : Whole b := by
  by_cases hb : b = []
  · exact Or.inl hb
  · rcases h with h | h
    · exact absurd (List.append_eq_nil_iff.mp h).2 hb
    · rw [List.getLast?_append_of_ne_nil _ hb] at h
      exact Or.inr h

theorem whole_flatten {pieces : List Text} (h : ∀ piece ∈ pieces, Whole piece) :
    Whole pieces.flatten := by
  induction pieces with
  | nil => exact Or.inl rfl
  | cons piece pieces ih =>
    obtain ⟨hpiece, hpieces⟩ := List.forall_mem_cons.mp h
    exact hpiece.append (ih hpieces)

theorem whole_newline (a : Text) : Whole (a ++ ['\n']) := Or.inr List.getLast?_concat

/-- A whole text breaks off in what the rest of it breaks off in. -/
theorem rest_append {a : Text} (ha : Whole a) (b : Text) : rest (a ++ b) = rest b := by
  rcases ha with rfl | h
  · rfl
  · obtain ⟨a', rfl⟩ := List.getLast?_eq_some_iff.mp h
    rw [List.append_assoc]
    exact (complete_append_newline a' b).2

end Lines

namespace Ui

open Fix EarlyExit Transition

namespace Ifstream

/-- What is handed on of a whole text and of what follows it. -/
theorem handedOn_append {a : Text} (ha : Lines.Whole a) (b : Text) :
    handedOn (a ++ b) = handedOn a ++ handedOn b := by
  unfold handedOn
  rw [Lines.complete_append ha, Lines.rest_append ha, if_pos ((Lines.rest_eq_nil_iff a).mpr ha),
    List.append_nil, List.append_assoc]

theorem handedOn_line {a : Text} (ha : '\n' ∉ a) : handedOn (a ++ ['\n']) = [a] := by
  obtain ⟨hcomplete, hrest⟩ := Lines.complete_append_newline a []
  rw [handedOn, hcomplete, hrest, List.splitOn_eq_singleton ha]
  rfl

theorem handedOn_part {a : Text} (ha : '\n' ∉ a) (hne : a ≠ []) : handedOn a = [a] := by
  obtain ⟨hcomplete, hrest⟩ := Lines.complete_of_not_mem ha
  rw [handedOn, hcomplete, hrest, if_neg hne]
  rfl

/-- **A line that was read** is up to a newline, or up to the end of the file. -/
theorem getline_some {s s' : Ifstream} {line : Text} (h : getline s = (some line, s')) :
    s.eofbit = false ∧ s'.failbit = false ∧ '\n' ∉ line
      ∧ ((s.rest = line ++ '\n' :: s'.rest ∧ s'.eofbit = false)
        ∨ s.rest = line ∧ line ≠ [] ∧ s'.rest = [] ∧ s'.eofbit = true) := by
  have hno : '\n' ∉ s.rest.takeWhile (· ≠ '\n') := by
    intro hmem
    have hne := List.mem_takeWhile_imp hmem
    exact absurd rfl (of_decide_eq_true hne)
  have hsplit := List.takeWhile_append_dropWhile (p := (· ≠ '\n')) (l := s.rest)
  unfold getline at h
  split at h
  · cases h
  · next hgood =>
    rw [not_or, Bool.not_eq_true, Bool.not_eq_true] at hgood
    split at h
    · next c rest hdrop =>
      obtain ⟨hline, rfl⟩ := Prod.mk.inj h
      obtain rfl := Option.some.inj hline
      have hc : c = '\n' := by
        have hhead := List.head?_dropWhile_not (· ≠ '\n') s.rest
        rw [hdrop] at hhead
        simpa using hhead
      refine ⟨hgood.1, hgood.2, hno, Or.inl ⟨?_, hgood.1⟩⟩
      rw [hdrop, hc] at hsplit
      exact hsplit.symm
    · next hdrop =>
      split at h
      · cases h
      · next hne =>
        obtain ⟨hline, rfl⟩ := Prod.mk.inj h
        obtain rfl := Option.some.inj hline
        rw [hdrop, List.append_nil] at hsplit
        rw [hsplit] at hno
        exact ⟨hgood.1, rfl, hno, Or.inr ⟨rfl, hne, rfl, rfl⟩⟩

/-- **No line is read** at the end of the file, or past it. -/
theorem getline_none {s s' : Ifstream} (h : getline s = (none, s')) (hs : s.failbit = false) :
    s'.rest = s.rest ∧ s'.eofbit = true := by
  unfold getline at h
  split at h
  · next hbad =>
    obtain ⟨-, rfl⟩ := Prod.mk.inj h
    rw [hs, or_iff_left Bool.false_ne_true] at hbad
    exact ⟨rfl, hbad⟩
  · split at h
    · cases h
    · split at h
      · next hnil =>
        obtain ⟨-, rfl⟩ := Prod.mk.inj h
        exact ⟨hnil.symm, rfl⟩
      · cases h

end Ifstream

/-! ## The threads -/

/-- Where the watcher thread stands in `handleFileAction`. -/
inductive WatchPlace where
  /-- In the file watcher, waiting for an action. -/
  | waiting
  /-- At `while (std::getline(file_, line))`, with the lines read so far. -/
  | reading (lines : List Text)
  /-- At `cb_(std::move(lines))`. -/
  | read (lines : List Text)
  /-- At the lock in `on_log_lines`. -/
  | calling (lines : List Text)
  /-- In `on_log_lines`. -/
  | delivering
  /-- Past it. -/
  | delivered

/-- The threads at a log box. -/
structure LogClient where
  filename : Text
  file : Ifstream
  watcher : WatchPlace
  ui : DrawPlace (List Text)

/-- What can be seen of a log box. -/
inductive LogEvent where
  /-- Bytes are appended to the log file. -/
  | appended (chunk : Text)
  /-- The file watcher reports an action. -/
  | fileAction (filename : Text) (action : Action)
  /-- The callback is called with lines, -/
  | handedOn (lines : List Text)
  /-- asks for a redraw, holding the lock, -/
  | asked
  /-- and returns. -/
  | delivered
  | drawing
  | drawn (ring : List Text)

/-- A log box as it is constructed, with what the file holds by then. -/
def LogClient.init (filename existing : Text) : LogClient :=
  ⟨filename, .ready existing, .waiting, .elsewhere⟩

/-- **The steps of the threads at a log box.** -/
inductive LogStep : LogClient →
    Option (LogEvent ⊕ Monitor.Call BoxThread (BoxOp (List Text))
      (BoxReply Exception (List Text))) → LogClient → Prop
  | append {k : LogClient} (chunk : Text) :
    LogStep k (some (.inl (.appended chunk)))
      { k with file := { k.file with rest := k.file.rest ++ chunk } }
  | ignored {k : LogClient} {filename : Text} {action : Action} : k.watcher = .waiting →
    filename ≠ k.filename ∨ action ≠ .modified →
    LogStep k (some (.inl (.fileAction filename action))) k
  | modified {k : LogClient} : k.watcher = .waiting →
    LogStep k (some (.inl (.fileAction k.filename .modified))) { k with watcher := .reading [] }
  | line {k : LogClient} {lines : List Text} {line : Text} {file : Ifstream} :
    k.watcher = .reading lines → k.file.getline = (some line, file) →
    LogStep k none { k with file := file, watcher := .reading (lines ++ [line]) }
  | noLine {k : LogClient} {lines : List Text} {file : Ifstream} :
    k.watcher = .reading lines → k.file.getline = (none, file) →
    LogStep k none
      { k with file := if file.eofbit then file.clear else file, watcher := .read lines }
  | handOn {k : LogClient} {lines : List Text} : k.watcher = .read lines →
    LogStep k (some (.inl (.handedOn lines))) { k with watcher := .calling lines }
  | call {k : LogClient} {lines : List Text} : k.watcher = .calling lines →
    LogStep k (some (.inr (.call .worker (.handle lines)))) { k with watcher := .delivering }
  | told {k : LogClient} : k.watcher = .delivering → LogStep k (some (.inr (.told .worker))) k
  | ret {k : LogClient} : k.watcher = .delivering →
    LogStep k (some (.inr (.ret .worker (.handled (.ok ()))))) { k with watcher := .delivered }
  | deliver {k : LogClient} : k.watcher = .delivered →
    LogStep k (some (.inl .delivered)) { k with watcher := .waiting }
  | draw {k : LogClient} : k.ui = .elsewhere →
    LogStep k (some (.inl .drawing)) { k with ui := .drawing }
  | copy {k : LogClient} : k.ui = .drawing →
    LogStep k (some (.inr (.call .ui .copy))) { k with ui := .copying }
  | copied {k : LogClient} {ring : List Text} : k.ui = .copying →
    LogStep k (some (.inr (.ret .ui (.copied ring)))) { k with ui := .copied ring }
  | drawn {k : LogClient} {ring : List Text} : k.ui = .copied ring →
    LogStep k (some (.inl (.drawn ring))) { k with ui := .elsewhere }

/-- `on_log_lines`, with the two operations of a turn of its loop apart, and
the redraw it asks for at the end. -/
def onLogLinesSteps : List Text → Resumption (List Text) (Except Exception Unit)
  | [] => .tell (.ret (.ok ()))
  | line :: lines => .act LogBox.popFront fun _ =>
      .act (fun ring => ring ++ [line]) fun _ => onLogLinesSteps lines

/-- What the loop does. -/
def pushLines (lines : List Text) : EStateM Exception (List Text) Unit :=
  modify (lines.foldl LogBox.pushLine)

/-- `buffer_copy = log_ring_`, line by line. -/
def copyLogRingSteps : Resumption (List Text) (List Text) :=
  Resumption.copy List.length fun ring i => ring[i]?

/-- One redraw a call. -/
def AsksOnce : ℕ → List Text → List Text → Prop := fun n _ _ => n = 1

theorem logCodes : Codes onLogLinesSteps copyLogRingSteps pushLines AsksOnce id := by
  refine ⟨Resumption.told_copy _ _, fun lines => ?_,
    fun ring => Resumption.run_copy rfl (fun _ => rfl)⟩
  intro ring
  induction lines generalizing ring with
  | nil => exact ⟨rfl, rfl⟩
  | cons line lines ih => exact ih (LogBox.pushLine ring line)

/-- The threads of a log box, as a client of its ring. -/
def logClient (filename existing : Text) : Machine LogClient
    (LogEvent ⊕ Monitor.Call BoxThread (BoxOp (List Text)) (BoxReply Exception (List Text))) where
  init k := k = .init filename existing
  step := LogStep

/-- What can be seen of the calls: the redraw. -/
def logSee : Monitor.Call BoxThread (BoxOp (List Text)) (BoxReply Exception (List Text)) →
    Option LogEvent
  | .told _ => some .asked
  | _ => none

/-- **The log box**: its threads, on the ring behind its lock. -/
def logBox (filename existing : Text) :
    Machine (LogClient × Monitor.Locked BoxThread (List Text) (BoxOp (List Text))
      (BoxReply Exception (List Text))) LogEvent :=
  (logClient filename existing).attach
    (Monitor.locked BoxThread (boxCode onLogLinesSteps copyLogRingSteps) []) logSee

/-! ## A log box is a box -/

/-- Where the worker of a box would stand. -/
def WatchPlace.asBox : WatchPlace → PollPlace (List Text) Exception
  | .waiting => .loop
  | .reading _ => .loop
  | .read _ => .loop
  | .calling lines => .taken lines
  | .delivering => .handling
  | .delivered => .handled

/-- The threads of a log box, as those of a box. -/
def LogClient.asBox (k : LogClient) : BoxClient (List Text) Exception (List Text) :=
  ⟨fun _ => [], false, k.watcher.asBox, .initial, k.ui⟩

/-- What is seen of it then: lines handed on are a message put on the queue
and taken off it. -/
def LogEvent.asBox : LogEvent → List (BoxEvent (List Text) Exception (List Text))
  | .handedOn lines => [.enqueued 0 lines, .own (.dequeued 0 lines)]
  | .asked => [.own .postedInside]
  | .delivered => [.own .posted]
  | .drawing => [.own .drawing]
  | .drawn ring => [.own (.drawn ring)]
  | .appended _ => []
  | .fileAction _ _ => []

section AsBox

variable {k k' : LogClient}
  {c : Monitor.Locked BoxThread (List Text) (BoxOp (List Text)) (BoxReply Exception (List Text))}

/-- What no one sees the watcher do, the worker need not do. -/
theorem asBox_silent (h : LogStep k none k') : k'.asBox = k.asBox := by
  cases h with
  | line hw _ =>
    unfold LogClient.asBox
    rw [hw]
    rfl
  | noLine hw _ =>
    unfold LogClient.asBox
    rw [hw]
    rfl

/-- What they do at the lock is the same. -/
theorem asBox_joint
    {x : Monitor.Call BoxThread (BoxOp (List Text)) (BoxReply Exception (List Text))}
    (h : LogStep k (some (.inr x)) k') : BoxStep k.asBox (some (.inr x)) k'.asBox := by
  obtain ⟨filename, file, watcher, ui⟩ := k
  cases h with
  | call hw =>
    obtain rfl : watcher = _ := hw
    exact BoxStep.handle (k := ⟨_, _, _, _, _⟩) rfl
  | told hw =>
    obtain rfl : watcher = _ := hw
    exact BoxStep.told rfl
  | ret hw =>
    obtain rfl : watcher = _ := hw
    exact BoxStep.handled (k := ⟨_, _, _, _, _⟩) rfl
  | copy hui =>
    obtain rfl : ui = _ := hui
    exact BoxStep.copy (k := ⟨_, _, _, _, _⟩) rfl
  | copied hui =>
    obtain rfl : ui = _ := hui
    exact BoxStep.copied (k := ⟨_, _, _, _, _⟩) rfl

/-- And so is what is seen of that. -/
theorem asBox_see
    (x : Monitor.Call BoxThread (BoxOp (List Text)) (BoxReply Exception (List Text))) :
    (logSee x).toList.flatMap LogEvent.asBox = (boxSee x).toList := by
  cases x <;> rfl

/-- Lines handed on are put on the queue and taken off it. -/
theorem run_handedOn (lines : List Text) (ui : DrawPlace (List Text)) :
    (box onLogLinesSteps copyLogRingSteps []).Run
      ((⟨fun _ => [], false, .loop, .initial, ui⟩, c) : BoxClient _ _ _ × _)
      [.enqueued 0 lines, .own (.dequeued 0 lines)]
      (⟨fun _ => [], false, .taken lines, .initial, ui⟩, c) := by
  have hput := BoxStep.enqueue
    (k := (⟨fun _ => [], false, .loop, .initial, ui⟩ : BoxClient (List Text) Exception _)) 0 lines
  have hback : Function.update (fun _ : ℕ => ([] : List (List Text))) 0 [lines] 0 = [lines] := by
    rw [Function.update_self]
  have htake : BoxStep (⟨Function.update (fun _ => []) 0 [lines], false, .dequeue, .initial, ui⟩ :
      BoxClient (List Text) Exception _) (some (.inl (.own (.dequeued 0 lines))))
      ⟨Function.update (Function.update (fun _ => []) 0 [lines]) 0 [], false, .taken lines,
        .initial, ui⟩ := BoxStep.dequeue rfl hback
  rw [Function.update_idem, Function.update_eq_self] at htake
  exact ((Machine.Run.refl.tail (l := some _) (AttachStep.visible hput)).tail (l := none)
    (AttachStep.silent (BoxStep.loop rfl rfl))).tail (l := some _) (AttachStep.visible htake)

theorem asBox_visible {e : LogEvent} (h : LogStep k (some (.inl e)) k') :
    (box onLogLinesSteps copyLogRingSteps []).Run (k.asBox, c) e.asBox (k'.asBox, c) := by
  obtain ⟨filename, file, watcher, ui⟩ := k
  cases h with
  | append chunk => exact Machine.Run.refl
  | ignored hw _ => exact Machine.Run.refl
  | modified hw =>
    obtain rfl : watcher = _ := hw
    exact Machine.Run.refl
  | handOn hw =>
    obtain rfl : watcher = _ := hw
    exact run_handedOn _ ui
  | deliver hw =>
    obtain rfl : watcher = _ := hw
    exact Machine.Run.refl.tail (l := some _)
      (AttachStep.visible (BoxStep.post (k := ⟨_, _, _, _, _⟩) rfl))
  | draw hui =>
    obtain rfl : ui = _ := hui
    exact Machine.Run.refl.tail (l := some _)
      (AttachStep.visible (BoxStep.draw (k := ⟨_, _, _, _, _⟩) rfl))
  | drawn hui =>
    obtain rfl : ui = _ := hui
    exact Machine.Run.refl.tail (l := some _)
      (AttachStep.visible (BoxStep.drawn (k := ⟨_, _, _, _, _⟩) rfl))

/-- **A run of a log box is one of a box.** -/
theorem run_asBox {filename existing : Text}
    {p p' : LogClient × Monitor.Locked BoxThread (List Text) (BoxOp (List Text))
      (BoxReply Exception (List Text))} {t : List LogEvent}
    (h : (logBox filename existing).Run p t p') :
    (box onLogLinesSteps copyLogRingSteps []).Run (p.1.asBox, p.2) (t.flatMap LogEvent.asBox)
      (p'.1.asBox, p'.2) := by
  refine h.read (f := fun p => (p.1.asBox, p.2)) ?_
  intro s l s' hstep
  cases hstep with
  | silent hk =>
    rw [asBox_silent hk]
    exact Machine.Run.refl
  | visible hk =>
    rw [Option.toList_some, List.flatMap_singleton]
    exact asBox_visible hk
  | object hc => exact Machine.Run.refl.tail (l := none) (AttachStep.object hc)
  | joint hsee hk hc =>
    rw [← hsee, asBox_see]
    exact Machine.Run.single (AttachStep.joint rfl (asBox_joint hk) hc)

end AsBox

/-! ## A file is read in pieces -/

/-- The bytes an event appends to the file, if it does. -/
def LogEvent.written : LogEvent → Option Text
  | .appended chunk => some chunk
  | _ => none

/-- The batch an event hands on, if it does. -/
def LogEvent.batch : LogEvent → Option (List Text)
  | .handedOn lines => some lines
  | _ => none

/-- What has been written to the file, chunk by chunk. -/
def writtenTo (existing : Text) (t : List LogEvent) : List Text :=
  existing :: t.filterMap LogEvent.written

/-- The batches handed on, in order. -/
def batchesOf (t : List LogEvent) : List (List Text) := t.filterMap LogEvent.batch

theorem writtenTo_concat (existing : Text) (t : List LogEvent) (e : LogEvent) :
    writtenTo existing (t ++ [e]) = writtenTo existing t ++ e.written.toList := by
  rw [writtenTo, List.filterMap_append, writtenTo, List.cons_append]
  cases h : e.written with
  | none => rw [List.filterMap_cons_none h]; rfl
  | some chunk => rw [List.filterMap_cons_some h]; rfl

theorem batchesOf_concat (t : List LogEvent) (e : LogEvent) :
    batchesOf (t ++ [e]) = batchesOf t ++ e.batch.toList := by
  rw [batchesOf, List.filterMap_append, batchesOf]
  cases h : e.batch with
  | none => rw [List.filterMap_cons_none h]; rfl
  | some lines => rw [List.filterMap_cons_some h]; rfl

/-! ## The invariant of the watcher -/

/-- The batches of lines read of a piece of the file, by where the watcher
stands: the piece is over when a line was broken off in, and while it reads
on it has broken off in none. -/
def ReadSoFar (cur : Text) (file : Ifstream) : WatchPlace → Prop
  | .reading lines => lines = Ifstream.handedOn cur ∧ file.failbit = false
    ∧ (file.eofbit = false → Lines.Whole cur)
  | .read lines => lines = Ifstream.handedOn cur ∧ file.failbit = false ∧ file.eofbit = false
  | _ => cur = [] ∧ file.failbit = false ∧ file.eofbit = false

/-- **The file is what has been read of it and what has not**: the pieces
handed on, the piece in hand, and the rest. -/
structure InPieces (existing : Text) (t : List LogEvent) (k : LogClient) (pieces : List Text)
    (cur : Text) : Prop where
  file : (writtenTo existing t).flatten = pieces.flatten ++ cur ++ k.file.rest
  batches : batchesOf t = pieces.map Ifstream.handedOn
  place : ReadSoFar cur k.file k.watcher
  whole : (∀ chunk ∈ writtenTo existing t, Lines.Whole chunk) →
    Lines.Whole k.file.rest ∧ Lines.Whole cur ∧ ∀ piece ∈ pieces, Lines.Whole piece

section InPieces

variable {existing : Text} {t : List LogEvent} {k k' : LogClient} {pieces : List Text} {cur : Text}

/-- A step that neither writes the file nor reads it nor hands lines on. -/
theorem InPieces.move (h : InPieces existing t k pieces cur) (hfile : k'.file = k.file)
    (hplace : ReadSoFar cur k.file k'.watcher) : InPieces existing t k' pieces cur := by
  refine ⟨?_, h.batches, ?_, ?_⟩
  · rw [hfile]
    exact h.file
  · rw [hfile]
    exact hplace
  · rw [hfile]
    exact h.whole

/-- The same, when it is seen. -/
theorem InPieces.event (h : InPieces existing t k pieces cur) {e : LogEvent}
    (hwritten : e.written = none) (hbatch : e.batch = none) :
    InPieces existing (t ++ [e]) k pieces cur := by
  have ht : writtenTo existing (t ++ [e]) = writtenTo existing t := by
    rw [writtenTo_concat, hwritten]
    exact List.append_nil _
  have hb : batchesOf (t ++ [e]) = batchesOf t := by
    rw [batchesOf_concat, hbatch]
    exact List.append_nil _
  exact ⟨ht ▸ h.file, hb ▸ h.batches, h.place, ht ▸ h.whole⟩

/-- The file grows: what has been read of it stays the same. -/
theorem InPieces.append (h : InPieces existing t k pieces cur) (chunk : Text) :
    InPieces existing (t ++ [.appended chunk])
      { k with file := { k.file with rest := k.file.rest ++ chunk } } pieces cur := by
  refine ⟨?_, ?_, ?_, fun hall => ?_⟩
  · rw [writtenTo_concat, List.flatten_append, h.file]
    simp [LogEvent.written]
  · rw [batchesOf_concat]
    exact (List.append_nil _).trans h.batches
  · have hplace := h.place
    show ReadSoFar cur _ k.watcher
    cases hw : k.watcher with
    | _ =>
      rw [hw] at hplace
      exact hplace
  · rw [writtenTo_concat] at hall
    obtain ⟨hold, hnew⟩ := List.forall_mem_append.mp hall
    obtain ⟨hrest, hcur, hpieces⟩ := h.whole hold
    exact ⟨hrest.append (List.forall_mem_singleton.mp hnew), hcur, hpieces⟩

/-- **The piece in hand is handed on.** -/
theorem InPieces.handOn (h : InPieces existing t k pieces cur) {lines : List Text}
    (hw : k.watcher = .read lines) :
    InPieces existing (t ++ [.handedOn lines]) { k with watcher := .calling lines }
      (pieces ++ [cur]) [] := by
  have hplace := h.place
  rw [hw] at hplace
  obtain ⟨hlines, hfail, heof⟩ := hplace
  have ht : writtenTo existing (t ++ [.handedOn lines]) = writtenTo existing t := by
    rw [writtenTo_concat]
    exact List.append_nil _
  refine ⟨?_, ?_, ⟨rfl, hfail, heof⟩, fun hall => ?_⟩
  · rw [ht, h.file]
    simp
  · rw [batchesOf_concat, h.batches, List.map_append, hlines]
    rfl
  · rw [ht] at hall
    obtain ⟨hrest, hcur, hpieces⟩ := h.whole hall
    exact ⟨hrest, Or.inl rfl,
      List.forall_mem_append.mpr ⟨hpieces, List.forall_mem_singleton.mpr hcur⟩⟩

/-- **A line more of the piece in hand.** -/
theorem InPieces.line (h : InPieces existing t k pieces cur) {lines : List Text} {line : Text}
    {file : Ifstream} (hw : k.watcher = .reading lines)
    (hline : k.file.getline = (some line, file)) :
    ∃ cur', InPieces existing t { k with file := file, watcher := .reading (lines ++ [line]) }
      pieces cur' := by
  have hplace := h.place
  rw [hw] at hplace
  obtain ⟨hlines, hfail, hcur⟩ := hplace
  obtain ⟨heof, hfail', hno, ⟨hrest, -⟩ | ⟨hrest, hne, hend, heof'⟩⟩ := Ifstream.getline_some hline
  · have hadded : Ifstream.handedOn (cur ++ (line ++ ['\n'])) = lines ++ [line] := by
      rw [Ifstream.handedOn_append (hcur heof), Ifstream.handedOn_line hno, hlines]
    have hwhole := (hcur heof).append (Lines.whole_newline line)
    refine ⟨cur ++ (line ++ ['\n']), ?_, h.batches, ⟨hadded.symm, hfail', fun _ => hwhole⟩,
      fun hall => ?_⟩
    · rw [h.file, hrest]
      simp
    · obtain ⟨hr, -, hpieces⟩ := h.whole hall
      rw [hrest, List.append_cons] at hr
      exact ⟨hr.of_append, hwhole, hpieces⟩
  · have hadded : Ifstream.handedOn (cur ++ line) = lines ++ [line] := by
      rw [Ifstream.handedOn_append (hcur heof), Ifstream.handedOn_part hno hne, hlines]
    have hnot : ¬ Lines.Whole k.file.rest := by
      rw [hrest]
      rintro (hnil | hlast)
      · exact hne hnil
      · exact hno (List.mem_of_getLast? hlast)
    refine ⟨cur ++ line, ?_, h.batches,
      ⟨hadded.symm, hfail', fun h' => absurd (heof'.symm.trans h') nofun⟩,
      fun hall => absurd (h.whole hall).1 hnot⟩
    rw [h.file, hrest, hend]
    simp

/-- **The end of the piece in hand.** -/
theorem InPieces.noLine (h : InPieces existing t k pieces cur) {lines : List Text}
    {file : Ifstream} (hw : k.watcher = .reading lines)
    (hline : k.file.getline = (none, file)) :
    InPieces existing t
      { k with file := if file.eofbit then file.clear else file, watcher := .read lines }
      pieces cur := by
  have hplace := h.place
  rw [hw] at hplace
  obtain ⟨hlines, hfail, -⟩ := hplace
  obtain ⟨hrest, heof⟩ := Ifstream.getline_none hline hfail
  have hclear : (if file.eofbit then file.clear else file) = .ready k.file.rest := by
    rw [if_pos heof, Ifstream.clear, hrest]
    rfl
  rw [hclear]
  exact ⟨h.file, h.batches, ⟨hlines, rfl, rfl⟩, h.whole⟩

theorem InPieces.note {e : LogEvent} (h : InPieces existing t k pieces cur)
    (hstep : LogStep k (some (.inl e)) k') :
    ∃ pieces' cur', InPieces existing (t ++ [e]) k' pieces' cur' := by
  have hplace := h.place
  cases hstep with
  | append chunk => exact ⟨pieces, cur, h.append chunk⟩
  | ignored _ _ => exact ⟨pieces, cur, h.event rfl rfl⟩
  | modified hw =>
    rw [hw] at hplace
    obtain ⟨rfl, hfail, heof⟩ := hplace
    have hread : InPieces existing t { k with watcher := .reading [] } pieces [] :=
      h.move rfl ⟨rfl, hfail, fun _ => Or.inl rfl⟩
    exact ⟨pieces, [], hread.event rfl rfl⟩
  | @handOn lines hw => exact ⟨pieces ++ [cur], [], h.handOn hw⟩
  | deliver hw =>
    rw [hw] at hplace
    have hwait : InPieces existing t { k with watcher := .waiting } pieces cur :=
      h.move rfl hplace
    exact ⟨pieces, cur, hwait.event rfl rfl⟩
  | draw _ =>
    have hui : InPieces existing t { k with ui := .drawing } pieces cur := h.move rfl hplace
    exact ⟨pieces, cur, hui.event rfl rfl⟩
  | drawn _ =>
    have hui : InPieces existing t { k with ui := .elsewhere } pieces cur := h.move rfl hplace
    exact ⟨pieces, cur, hui.event rfl rfl⟩

/-- **In every run the file is read in pieces.** -/
theorem inPieces_of_reaches {filename : Text}
    {p : LogClient × Monitor.Locked BoxThread (List Text) (BoxOp (List Text))
      (BoxReply Exception (List Text))}
    (h : (logBox filename existing).Reaches t p) :
    ∃ pieces cur, InPieces existing t p.1 pieces cur := by
  refine h.induction (I := fun t p => ∃ pieces cur, InPieces existing t p.1 pieces cur) ?_ ?_ ?_
  · rintro ⟨k, c⟩ ⟨rfl, -⟩
    refine ⟨[], [], ?_, rfl, ⟨rfl, rfl, rfl⟩, fun hall => ?_⟩
    · exact List.append_nil _
    · exact ⟨hall _ (List.mem_singleton.mpr rfl), Or.inl rfl, nofun⟩
  · rintro t p p' ⟨pieces, cur, hinv⟩ hstep
    have hplace := hinv.place
    cases hstep with
    | silent hk =>
      cases hk with
      | line hw hline =>
        obtain ⟨cur', hinv'⟩ := hinv.line hw hline
        exact ⟨pieces, cur', hinv'⟩
      | noLine hw hline => exact ⟨pieces, cur, hinv.noLine hw hline⟩
    | object _ => exact ⟨pieces, cur, hinv⟩
    | joint hsee hk _ =>
      cases hk with
      | told _ => cases hsee
      | call hw =>
        rw [hw] at hplace
        exact ⟨pieces, cur, hinv.move rfl hplace⟩
      | ret hw =>
        rw [hw] at hplace
        exact ⟨pieces, cur, hinv.move rfl hplace⟩
      | copy _ => exact ⟨pieces, cur, hinv.move rfl hplace⟩
      | copied _ => exact ⟨pieces, cur, hinv.move rfl hplace⟩
  · rintro t p e p' ⟨pieces, cur, hinv⟩ hstep
    cases hstep with
    | visible hk => exact hinv.note hk
    | joint hsee hk _ =>
      cases hk with
      | told _ =>
        obtain rfl := Option.some.inj hsee
        exact ⟨pieces, cur, hinv.event rfl rfl⟩
      | _ => cases hsee

end InPieces

/-! ## What is drawn -/

/-- What has been seen of the log box as a box. -/
def logSeen (t : List LogEvent) : Seen (List Text) Exception (List Text) :=
  seen (t.flatMap LogEvent.asBox)

/-- The messages taken are the batches handed on. -/
theorem taken_logSeen (t : List LogEvent) : (logSeen t).taken = batchesOf t := by
  induction t using List.reverseRecOn with
  | nil => rfl
  | append_singleton t e ih =>
    have hseen : logSeen (t ++ [e]) = e.asBox.foldl Seen.note (logSeen t) := by
      rw [logSeen, List.flatMap_append, List.flatMap_singleton, seen, List.foldl_append]
      rfl
    rw [hseen, batchesOf_concat, ← ih]
    cases e with
    | handedOn lines =>
      show ((logSeen t).dequeued ++ [(0, lines)]).map Prod.snd = _
      rw [List.map_append]
      rfl
    | _ => exact (List.append_nil _).symm

/-- The ring after some batches. -/
theorem stateAfter_pushLines (batches : List (List Text)) :
    stateAfter pushLines [] batches = batches.flatten.rtake LogBox.maxLines := by
  have hall : ∀ ring, Resumption.outcome (handleAll pushLines batches) ring
      = (.ok (), batches.flatten.foldl LogBox.pushLine ring) := by
    induction batches with
    | nil => exact fun _ => rfl
    | cons lines batches ih =>
      intro ring
      rw [List.flatten_cons, List.foldl_append, ← ih]
      rfl
  rw [stateAfter, hall]
  show batches.flatten.foldl LogBox.pushLine (RingBuffer.empty : LogBox.LogRing).items = _
  rw [LogBox.foldl_pushLine_items, RingBuffer.foldl_pushBack_items]
  rfl

theorem logSeen_works {filename existing : Text} {t : List LogEvent}
    (h : (logBox filename existing).Trace t) : Works pushLines id [] (logSeen t) := by
  obtain ⟨p, ⟨k, c⟩, ⟨rfl, rfl⟩, hrun⟩ := h
  have hstart : (box onLogLinesSteps copyLogRingSteps []).init
      ((LogClient.init filename existing).asBox, ⟨[], none, fun _ => .idle⟩) := ⟨rfl, rfl⟩
  exact logCodes.works ⟨_, _, hstart, run_asBox hrun⟩

/-- A line that is written, read, handed on and drawn. -/
def lineShown : List LogEvent :=
  [.appended "ab\n".toList, .fileAction "log".toList .modified, .handedOn ["ab".toList], .asked,
    .delivered, .drawing, .drawn ["ab".toList]]

theorem trace_lineShown : (logBox "log".toList []).Trace lineShown := by
  have hline : LogStep ⟨"log".toList, .ready "ab\n".toList, .reading [], .elsewhere⟩ none
      ⟨"log".toList, .ready [], .reading ["ab".toList], .elsewhere⟩ :=
    LogStep.line (k := ⟨_, _, _, _⟩) rfl rfl
  have hend : Ifstream.getline (.ready []) = (none, ⟨[], true, true⟩) := rfl
  have hnoLine : LogStep ⟨"log".toList, .ready [], .reading ["ab".toList], .elsewhere⟩ none
      ⟨"log".toList, .ready [], .read ["ab".toList], .elsewhere⟩ :=
    LogStep.noLine (k := ⟨_, _, _, _⟩) rfl hend
  have hread : (logBox "log".toList []).Run (.init "log".toList [], Monitor.unattended [])
      [.appended "ab\n".toList, .fileAction "log".toList .modified, .handedOn ["ab".toList]]
      (⟨"log".toList, .ready [], .calling ["ab".toList], .elsewhere⟩, Monitor.unattended []) :=
    ((((Machine.Run.refl.tail (l := some _) (AttachStep.visible
      (LogStep.append (k := ⟨_, _, _, _⟩) _))).tail
      (l := some _) (AttachStep.visible (LogStep.modified (k := ⟨_, _, _, _⟩) rfl))).tail
      (l := none) (AttachStep.silent hline)).tail (l := none) (AttachStep.silent hnoLine)).tail
      (l := some _) (AttachStep.visible (LogStep.handOn (k := ⟨_, _, _, _⟩) rfl))
  have hpush : (logBox "log".toList []).Run
      (⟨"log".toList, .ready [], .calling ["ab".toList], .elsewhere⟩, Monitor.unattended [])
      [.asked]
      (⟨"log".toList, .ready [], .delivered, .elsewhere⟩, Monitor.unattended ["ab".toList]) :=
    Monitor.run_of_operation (boxCode onLogLinesSteps copyLogRingSteps) [] (logClient _ _)
      (LogStep.call (k := ⟨_, _, _, _⟩) rfl) (fun _ => LogStep.told (k := ⟨_, _, _, _⟩) rfl)
      (LogStep.ret (k := ⟨_, _, _, _⟩) rfl) ⟨rfl, rfl⟩ rfl
  have hcopy : (logBox "log".toList []).Run
      (⟨"log".toList, .ready [], .waiting, .drawing⟩, Monitor.unattended ["ab".toList]) []
      (⟨"log".toList, .ready [], .waiting, .copied ["ab".toList]⟩,
        Monitor.unattended ["ab".toList]) :=
    Monitor.run_of_operation (boxCode onLogLinesSteps copyLogRingSteps) [] (logClient _ _)
      (LogStep.copy (k := ⟨_, _, _, _⟩) rfl) (absurd rfl)
      (LogStep.copied (k := ⟨_, _, _, _⟩) rfl) ⟨rfl, rfl⟩ rfl
  have hstart : (logBox "log".toList []).init
      (.init "log".toList [], Monitor.unattended []) := ⟨rfl, rfl⟩
  exact ⟨_, _, hstart, ((((hread.trans hpush).tail (l := some _)
    (AttachStep.visible (LogStep.deliver (k := ⟨_, _, _, _⟩) rfl))).tail (l := some _)
    (AttachStep.visible (LogStep.draw (k := ⟨_, _, _, _⟩) rfl))).trans hcopy).tail (l := some _)
    (AttachStep.visible (LogStep.drawn (k := ⟨_, _, _, _⟩) rfl))⟩

/-- **The log box follows the file.** Whatever the interleaving, the batches
handed on are the lines of consecutive pieces of the file, and what is drawn
is the last hundred lines of the first `k` pieces: of all that were delivered
before the drawing began, and of none that was not yet handed on. -/
theorem log_tail {filename existing : Text} {t : List LogEvent}
    (h : (logBox filename existing).Trace t) :
    ∃ (pieces : List Text) (unread : Text),
      (writtenTo existing t).flatten = pieces.flatten ++ unread
      ∧ batchesOf t = pieces.map Ifstream.handedOn
      ∧ ∃ ks : List ℕ, ks.Pairwise (· ≤ ·)
        ∧ List.Forall₂ (fun v k => v.postedBefore ≤ k ∧ k ≤ v.takenBefore
            ∧ v.takenBefore ≤ pieces.length
            ∧ v.drawn = ((pieces.take k).flatMap Ifstream.handedOn).rtake 100)
          (logSeen t).drawings ks := by
  obtain ⟨ks, hks, hshows⟩ := (logSeen_works h).drawings
  obtain ⟨p, hreach⟩ := h
  obtain ⟨pieces, cur, hinv⟩ := inPieces_of_reaches hreach
  refine ⟨pieces, cur ++ p.1.file.rest, ?_, hinv.batches, ks, hks, hshows.imp fun v k hv => ?_⟩
  · rw [hinv.file, List.append_assoc]
  · have htaken := hv.taken_le
    have hdrawn := hv.drawn
    rw [taken_logSeen, hinv.batches] at htaken hdrawn
    rw [List.length_map] at htaken
    refine ⟨hv.postedBefore_le, hv.known, htaken, ?_⟩
    rw [hdrawn, stateAfter_pushLines, ← List.map_take, List.flatMap_def]
    rfl

/-- One line, drawn. -/
theorem log_tail_line :
    (logSeen lineShown).drawings = [⟨1, 1, 1, ["ab".toList]⟩]
      ∧ ∃ (pieces : List Text) (unread : Text),
        (writtenTo [] lineShown).flatten = pieces.flatten ++ unread
          ∧ batchesOf lineShown = pieces.map Ifstream.handedOn
          ∧ ∃ ks : List ℕ, ks.Pairwise (· ≤ ·)
            ∧ List.Forall₂ (fun v k => v.postedBefore ≤ k ∧ k ≤ v.takenBefore
                ∧ v.takenBefore ≤ pieces.length
                ∧ v.drawn = ((pieces.take k).flatMap Ifstream.handedOn).rtake 100)
              (logSeen lineShown).drawings ks :=
  ⟨rfl, log_tail trace_lineShown⟩

/-- **Lines written whole are shown whole.** When the file only ever grows by
whole lines, what is drawn is the last hundred lines of the file up to some
line, all those delivered before the drawing began among them. -/
theorem log_tail_whole {filename existing : Text} {t : List LogEvent}
    (h : (logBox filename existing).Trace t)
    (hwhole : ∀ chunk ∈ writtenTo existing t, Lines.Whole chunk)
    {v : Drawing (List Text)} (hv : v ∈ (logSeen t).drawings) :
    ∃ lines, lines <+: Lines.complete (writtenTo existing t).flatten
      ∧ ((batchesOf t).take v.postedBefore).flatten <+: lines
      ∧ v.drawn = lines.rtake 100 := by
  obtain ⟨k, hshows⟩ := (logSeen_works h).shows hv
  have hdrawn := hshows.drawn
  rw [taken_logSeen] at hdrawn
  obtain ⟨p, hreach⟩ := h
  obtain ⟨pieces, cur, hinv⟩ := inPieces_of_reaches hreach
  obtain ⟨-, -, hpieces⟩ := hinv.whole hwhole
  have hall : (batchesOf t).flatten = Lines.complete pieces.flatten := by
    rw [hinv.batches]
    exact LogFileWatcher.flatten_handedOn_of_whole hpieces
  refine ⟨((batchesOf t).take k).flatten, ?_, ?_, hdrawn.trans (stateAfter_pushLines _)⟩
  · rw [hinv.file, List.append_assoc, Lines.complete_append (Lines.whole_flatten hpieces), ← hall]
    exact (List.IsPrefix.flatten (List.take_prefix k _)).trans (List.prefix_append _ _)
  · exact List.IsPrefix.flatten (List.take_prefix_take_left hshows.postedBefore_le)

/-- The line is one of the file. -/
theorem log_tail_whole_line :
    ∃ lines, lines <+: Lines.complete (writtenTo [] lineShown).flatten
      ∧ ((batchesOf lineShown).take 1).flatten <+: lines ∧ ["ab".toList] = lines.rtake 100 := by
  have hmem : (⟨1, 1, 1, ["ab".toList]⟩ : Drawing _) ∈ (logSeen lineShown).drawings :=
    List.mem_singleton.mpr rfl
  exact log_tail_whole trace_lineShown (by decide) hmem

end Ui
