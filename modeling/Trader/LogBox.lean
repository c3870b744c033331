import Trader.RingBuffer
import Trader.Fix

set_option autoImplicit false

/-!
# The log ring

`LogBox` keeps the last hundred lines of the log in a deque, to which the log
watcher delivers lines in batches. The deque is bounded by nothing but the test
in the loop of `on_log_lines`, which drops the oldest line before it appends
one. Each turn of that loop is a push to a ring buffer (`pushLine_items`), so
the ring holds the tail of all lines delivered, however they were batched
(`log_ring_tail`).
-/

namespace Ui

/-- `LogBox::MAX_LINES_`. -/
def LogBox.maxLines : ℕ := 100

/-- `ui::LogBox`, as the ring its renderer copies and the number of events it
has posted to the screen. Its mutex is held for the whole of every call. -/
structure LogBox where
  /-- `log_ring_`, oldest line first. -/
  logRing : List Text
  posted : ℕ

namespace LogBox

/-- A `LogBox` as it is constructed. -/
def empty : LogBox := ⟨[], 0⟩

/-- `if (log_ring_.size() >= MAX_LINES_) log_ring_.pop_front()`. -/
def popFront (ring : List Text) : List Text :=
  if maxLines ≤ ring.length then ring.tail else ring

/-- The body of the loop in `LogBox::on_log_lines`. -/
def pushLine (ring : List Text) (line : Text) : List Text := popFront ring ++ [line]

/-- `LogBox::on_log_lines`. -/
def onLogLines (box : LogBox) (lines : List Text) : LogBox where
  logRing := lines.foldl pushLine box.logRing
  posted := box.posted + 1

/-- Calls in the order they are made. -/
def run (box : LogBox) (batches : List (List Text)) : LogBox := batches.foldl onLogLines box

/-- The rings that a call goes through: before every turn of its loop, between
the two operations of the turn, and at the end. -/
def loopRings (ring : List Text) : List Text → List (List Text)
  | [] => [ring]
  | line :: lines => ring :: popFront ring :: loopRings (pushLine ring line) lines

/-- The rings that calls go through. -/
def runRings (box : LogBox) : List (List Text) → List (List Text)
  | [] => [box.logRing]
  | lines :: batches => loopRings box.logRing lines ++ runRings (box.onLogLines lines) batches

/-! ## The deque as a ring buffer -/

/-- The ring the deque stands for. -/
abbrev LogRing : Type := RingBuffer Text maxLines

/-- **A turn of the loop is a push.** -/
theorem pushLine_items (r : LogRing) (line : Text) :
    pushLine r.items line = (r.pushBack line).items := by
  unfold pushLine popFront RingBuffer.pushBack
  by_cases hroom : r.items.length < maxLines
  · rw [if_neg (not_le.mpr hroom), dif_pos hroom]
  · have hne : r.items ≠ [] := by
      intro hnil
      rw [hnil] at hroom
      exact hroom (by decide)
    rw [if_pos (not_lt.mp hroom), dif_neg hroom]
    exact (List.tail_append_of_ne_nil hne).symm

/-- **A call pushes its lines.** -/
theorem foldl_pushLine_items (r : LogRing) (lines : List Text) :
    lines.foldl pushLine r.items = (lines.foldl RingBuffer.pushBack r).items := by
  induction lines generalizing r with
  | nil => rfl
  | cons line lines ih => rw [List.foldl_cons, pushLine_items, ih, List.foldl_cons]

/-- **A run pushes all lines** delivered. -/
theorem run_logRing (r : LogRing) (posted : ℕ) (batches : List (List Text)) :
    (run ⟨r.items, posted⟩ batches).logRing
      = (batches.flatten.foldl RingBuffer.pushBack r).items := by
  induction batches generalizing r posted with
  | nil => rfl
  | cons lines batches ih =>
    have hcall : onLogLines ⟨r.items, posted⟩ lines
        = ⟨(lines.foldl RingBuffer.pushBack r).items, posted + 1⟩ := by
      rw [onLogLines, foldl_pushLine_items]
    show (run (onLogLines ⟨r.items, posted⟩ lines) batches).logRing = _
    rw [hcall, ih, List.flatten_cons, List.foldl_append]

/-! ## The bound -/

theorem length_popFront_le {ring : List Text} (h : ring.length ≤ maxLines) :
    (popFront ring).length ≤ maxLines := by
  unfold popFront
  split_ifs
  · rw [List.length_tail]
    omega
  · exact h

/-- **The ring never exceeds its bound**, at any point of a call, -/
theorem length_le_of_mem_loopRings (r : LogRing) (lines : List Text) :
    ∀ ring ∈ loopRings r.items lines, ring.length ≤ maxLines := by
  induction lines generalizing r with
  | nil => exact List.forall_mem_singleton.mpr r.bound
  | cons line lines ih =>
    rw [loopRings, pushLine_items]
    exact List.forall_mem_cons.mpr ⟨r.bound,
      List.forall_mem_cons.mpr ⟨length_popFront_le r.bound, ih (r.pushBack line)⟩⟩

/-- or of a run. -/
theorem length_le_of_mem_runRings (r : LogRing) (posted : ℕ) (batches : List (List Text)) :
    ∀ ring ∈ runRings ⟨r.items, posted⟩ batches, ring.length ≤ maxLines := by
  induction batches generalizing r posted with
  | nil => exact List.forall_mem_singleton.mpr r.bound
  | cons lines batches ih =>
    rw [runRings, onLogLines, foldl_pushLine_items]
    exact List.forall_mem_append.mpr ⟨length_le_of_mem_loopRings r lines, ih _ _⟩

/-- **The log ring is the tail of everything delivered.** -/
theorem log_ring_tail (batches : List (List Text)) :
    (∀ ring ∈ runRings empty batches, ring.length ≤ maxLines)
    ∧ (run empty batches).logRing
      = batches.flatten.drop (batches.flatten.length - maxLines)
    ∧ (run empty batches).logRing.length = min maxLines batches.flatten.length
    ∧ ∀ batches', batches'.flatten = batches.flatten →
      (run empty batches').logRing = (run empty batches).logRing := by
  have htail : ∀ batches, (run empty batches).logRing
      = batches.flatten.drop (batches.flatten.length - maxLines) := by
    intro batches
    refine (run_logRing RingBuffer.empty 0 batches).trans ?_
    rw [RingBuffer.foldl_pushBack_items]
    rfl
  refine ⟨length_le_of_mem_runRings RingBuffer.empty 0 batches, htail batches, ?_, ?_⟩
  · rw [htail, List.length_drop]
    omega
  · intro batches' heq
    rw [htail, htail, heq]

example : (run empty [[], List.replicate 150 ['a'], [['b']]]).logRing
    = List.replicate 99 ['a'] ++ [['b']] := by decide +kernel

end LogBox

end Ui
