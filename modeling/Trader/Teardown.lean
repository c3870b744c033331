import Trader.Lifetime

set_option autoImplicit false

/-!
# The end of the program

When the UI loop has returned, `main` stops the FIX initiator, and with it the
session threads, and leaves its block: the `App` is destroyed, and then the
`Worker` that owns `FixApp` and its queues. Four threads are still there. The
workers of the two boxes are stopped and waited for by the destructor of their
`std::jthread`, and so is the thread that starts the log watcher; the thread that
`efsw` calls `handleFileAction` on is waited for by the destructor of the
`FileWatcher`.

The boxes declare their `std::jthread` after what their worker uses, or hold a
reference to something that is destroyed later. `LogFileWatcher` declares one
before the `FileWatcher` that its thread uses, and its callback after the
`FileWatcher` that calls it (`dangles_iff_logFileWatcher`).
-/

namespace Ui

open Lifetime

/-- The objects that the four threads use or are waited for by. -/
inductive Member where
  /-- `FixApp::order_queue_`. -/
  | orderQueue
  /-- `FixApp::trade_queue_`. -/
  | tradeQueue
  /-- `App::screen_`. -/
  | screen
  /-- `OrderBookBox::thread_exception`. -/
  | bookException
  /-- `OrderBookBox::IS_BOOK_CLEAR_NEEDED_`. -/
  | isBookClearNeeded
  /-- `OrderBookBox::core_book_`. -/
  | coreBook
  /-- `OrderBookBox::worker_`. -/
  | bookWorker
  /-- `LogBox::log_ring_`. -/
  | logRing
  /-- `LogBox::log_ring_mutex_`. -/
  | logRingMutex
  /-- `LogFileWatcher::worker_`. -/
  | logWorker
  /-- `LogFileWatcher::filename_`. -/
  | filename
  /-- `LogFileWatcher::file_`. -/
  | file
  /-- `LogFileWatcher::watcher_`. -/
  | watcher
  /-- `LogFileWatcher::cb_`. -/
  | cb
  /-- `TradeBox::thread_exception`. -/
  | tradeException
  /-- `TradeBox::trade_ring_`. -/
  | tradeRing
  /-- `TradeBox::trade_ring_mutex_`. -/
  | tradeRingMutex
  /-- `TradeBox::worker_`. -/
  | tradeWorker
  deriving DecidableEq

/-- The threads that are left. -/
inductive UiThread where
  /-- `OrderBookBox::THREAD_NAME_`, on `poll_queue`. -/
  | orderBook
  /-- `TradeBox::THREAD_NAME_`, on `poll_queue`. -/
  | tradeBox
  /-- `LogFileWatcher::THREAD_NAME_`, on the body that `start` gives it. -/
  | logWatcher
  /-- The thread that calls `handleFileAction`. -/
  | fileWatcher
  deriving DecidableEq

/-- **The order of declaration**: `b_worker` before `ui` in `main`; `screen_`,
`book_box_`, `log_box_` and `trade_box_` in `App`; `log_watcher_` last in `LogBox`. -/
def members : List Member :=
  [.orderQueue, .tradeQueue,
    .screen,
    .bookException, .isBookClearNeeded, .coreBook, .bookWorker,
    .logRing, .logRingMutex,
    .logWorker, .filename, .file, .watcher, .cb,
    .tradeException, .tradeRing, .tradeRingMutex, .tradeWorker]

/-- What a thread is waited for by. -/
def UiThread.handle : UiThread → Member
  | .orderBook => .bookWorker
  | .tradeBox => .tradeWorker
  | .logWatcher => .logWorker
  | .fileWatcher => .watcher

/-- What the code of a thread uses, with references followed to what they are of. -/
def UiThread.uses : UiThread → List Member
  | .orderBook => [.orderQueue, .isBookClearNeeded, .coreBook, .screen, .bookException]
  | .tradeBox => [.tradeQueue, .tradeRingMutex, .tradeRing, .screen, .tradeException]
  | .logWatcher => [.watcher]
  -- the callback goes on to `LogBox::on_log_lines`
  | .fileWatcher => [.filename, .file, .cb, .logRingMutex, .logRing, .screen]

/-- **The program as it is taken down.** -/
def layout : Layout Member UiThread where
  declared := members
  nodup := by decide
  handle := UiThread.handle
  handle_injective := by
    intro t t' h
    cases t <;> cases t' <;> first | rfl | cases h
  handle_mem := by
    intro t
    cases t <;> decide
  uses := UiThread.uses
  uses_mem := by
    intro t
    cases t <;> decide

/-- **What is used after it has been destroyed**, in whatever order things happen
at the end of the program: the `FileWatcher` by the thread that is to start it,
and the callback by the thread that calls it. The workers of the boxes use
nothing of the kind, and no other object is used so. -/
theorem dangles_iff_logFileWatcher (t : UiThread) (m : Member) :
    layout.Dangles t m ↔ t = .logWatcher ∧ m = .watcher ∨ t = .fileWatcher ∧ m = .cb := by
  rw [Layout.dangles_iff]
  constructor
  · rintro ⟨hm, hafter⟩
    -- what is declared after the handle, of all that the thread uses
    have huses : ∀ m ∈ t.uses, [t.handle, m].Sublist members →
        t = .logWatcher ∧ m = .watcher ∨ t = .fileWatcher ∧ m = .cb := by
      cases t <;> decide
    exact huses m hm hafter
  · rintro (⟨rfl, rfl⟩ | ⟨rfl, rfl⟩)
    · exact ⟨List.mem_singleton_self _, show [Member.logWorker, .watcher].Sublist members by decide⟩
    · exact ⟨show Member.cb ∈ UiThread.uses .fileWatcher by decide,
        show [Member.watcher, .cb].Sublist members by decide⟩

end Ui
