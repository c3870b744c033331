import Mathlib.Data.List.Forall2
import Mathlib.Logic.Relation
import Trader.BookVector

set_option autoImplicit false

/-!
# The book between its threads

Three threads meet at the book: the FIX session receives messages and queues
them, the order-book worker takes them off the queue and applies them, and
the UI reads the book through `to_vector`. Applying a message and reading a
vector both take many steps, each on the book as it is at that moment; both
hold `mutex_` meanwhile.

What a reader gets is nevertheless always a book between two messages
(`views_at_message_boundaries`): the fold of the first `k` messages
received, for a `k` that never decreases from one reading to the next, and
that is all of them when the queue is empty and the worker idle. The
invariant that carries this says that what the worker has still to run of
the message at hand gives, from the book as it is, what the whole message
gives from the book it started on (`finish_eq`).

The stop and the redraws are left out here. They are part of a box, which
does whatever these threads do (`System.exists_reaches`).
-/

namespace Core

open Fix Binance EarlyExit OrderBook

/-! ## Reading a vector, row by row -/

/-- Reading one more row keeps a reader on the vector. -/
theorem prefix_concat {rows : List BidAsk} {b : OrderBook} {r : BidAsk}
    (h : rows <+: b.toVector) (hr : rowAt b rows.length = some r) :
    rows ++ [r] <+: b.toVector := by
  obtain ⟨rest, hrest⟩ := h
  rw [← toVector_getElem?, ← hrest, List.getElem?_append_right (Nat.le_refl _),
    Nat.sub_self] at hr
  obtain ⟨r', rest', rfl⟩ : ∃ r' rest', rest = r' :: rest' := by
    cases rest with
    | nil => cases hr
    | cons r' rest' => exact ⟨r', rest', rfl⟩
  obtain rfl : r' = r := Option.some.inj hr
  exact ⟨rest', by rw [← hrest, List.append_assoc]; rfl⟩

/-- A reader at the end of both maps has read the vector. -/
theorem eq_of_rowAt_none {rows : List BidAsk} {b : OrderBook}
    (h : rows <+: b.toVector) (hr : rowAt b rows.length = none) : rows = b.toVector := by
  obtain ⟨rest, hrest⟩ := h
  rw [← toVector_getElem?, ← hrest, List.getElem?_append_right (Nat.le_refl _),
    Nat.sub_self, List.getElem?_eq_none_iff, Nat.le_zero, List.length_eq_zero_iff] at hr
  rw [← hrest, hr, List.append_nil]

/-! ## Applying a message, step by step -/

variable {δ : Type}

/-- Where `apply_snapshot` or `apply_increment` stands. -/
inductive Pc (δ : Type) where
  /-- At the start of the function for this message. -/
  | started (msg : MarketMessageVariant δ)
  /-- At `bid_map_.clear()`. -/
  | clearingBids (sym : SymbolEnum) (msg : MarketDataSnapshotFullRefresh δ)
  /-- At `ask_map_.clear()`. -/
  | clearingAsks (sym : SymbolEnum) (msg : MarketDataSnapshotFullRefresh δ)
  /-- At the reading of `NoMDEntries` of a snapshot. -/
  | counting (sym : SymbolEnum) (msg : MarketDataSnapshotFullRefresh δ)
  /-- In the loop of `apply_snapshot`, with `num` entries to go. -/
  | inSnapshot (sym : SymbolEnum) (num i : ℕ) (groups : List (SnapshotEntry δ))
  /-- In the loop of `apply_increment`, with `num` entries to go. -/
  | inIncrement (num i : ℕ) (groups : List (IncrementEntry δ)) (symbol : Option SymbolEnum)
  /-- At the end of the function. -/
  | finished

variable (toUint64 : δ → UInt64 → UInt64) (clear : Bool)

/-- One step of the function, on the book as it is. -/
def advance : Pc δ → EStateM Exception OrderBook (Pc δ)
  | .started (.snapshot msg) => do
    let symbol ← get Tag.symbol msg.symbol
    let sym ← lift (Symbol.fromStr symbol)
    pure (if sym ≠ .btcusdt then .finished else .clearingBids sym msg)
  | .started (.increment msg) => do
    let num ← numEntries msg.noMDEntries
    pure (.inIncrement num 1 msg.groups none)
  | .clearingBids sym msg => do
    onBidMap (modify (fun _ => ∅))
    pure (.clearingAsks sym msg)
  | .clearingAsks sym msg => do
    onAskMap (modify (fun _ => ∅))
    pure (.counting sym msg)
  | .counting sym msg => do
    let num ← numEntries msg.noMDEntries
    pure (.inSnapshot sym num 1 msg.groups)
  | .inSnapshot _ 0 _ _ => pure .finished
  | .inSnapshot _ (_ + 1) _ [] => throw (.fieldNotFound Tag.noMDEntries)
  | .inSnapshot sym (n + 1) i (g :: gs) => do
    applySnapshotEntry toUint64 sym i g ()
    pure (.inSnapshot sym n (i + 1) gs)
  | .inIncrement 0 _ _ _ => pure .finished
  | .inIncrement (_ + 1) _ [] _ => throw (.fieldNotFound Tag.noMDEntries)
  | .inIncrement (n + 1) i (g :: gs) symbol => do
    let symbol ← incrementBody (applyIncrementEntry toUint64 clear) i g symbol
    pure (.inIncrement n (i + 1) gs symbol)
  | .finished => pure .finished

/-- What is left of the function. -/
def finish : Pc δ → EStateM Exception OrderBook Unit
  | .started msg => applyMessage toUint64 clear msg
  | .clearingBids sym msg => replaceBook toUint64 sym msg
  | .clearingAsks sym msg => do
    onAskMap (modify (fun _ => ∅))
    let num ← numEntries msg.noMDEntries
    forEntries (applySnapshotEntry toUint64 sym) num msg.groups ()
  | .counting sym msg => do
    let num ← numEntries msg.noMDEntries
    forEntries (applySnapshotEntry toUint64 sym) num msg.groups ()
  | .inSnapshot sym num i groups =>
    forGroups (.fieldNotFound Tag.noMDEntries) (applySnapshotEntry toUint64 sym) num i groups ()
  | .inIncrement num i groups symbol => do
    let _ ← forGroups (.fieldNotFound Tag.noMDEntries)
      (incrementBody (applyIncrementEntry toUint64 clear)) num i groups symbol
    pure ()
  | .finished => pure ()

/-- **A function is its first step and then what is left of it.** -/
theorem finish_eq (pc : Pc δ) :
    finish toUint64 clear pc = advance toUint64 clear pc >>= finish toUint64 clear := by
  cases pc with
  | started msg =>
    cases msg with
    | snapshot msg =>
      simp only [finish, advance, applyMessage, applySnapshot, bind_assoc, pure_bind]
      refine bind_congr (fun symbol => bind_congr (fun sym => ?_))
      split <;> rfl
    | increment msg =>
      simp only [finish, advance, applyMessage, applyIncrement, incrementLoop, bind_assoc,
        pure_bind]
  | clearingBids sym msg => simp only [finish, advance, replaceBook, bind_assoc, pure_bind]
  | clearingAsks sym msg => simp only [finish, advance, bind_assoc, pure_bind]
  | counting sym msg => simp only [finish, advance, bind_assoc, pure_bind]
  | inSnapshot sym num i groups =>
    cases num with
    | zero => rfl
    | succ num =>
      cases groups with
      | nil => rfl
      | cons g gs => simp only [finish, advance, forGroups, bind_assoc, pure_bind]
  | inIncrement num i groups symbol =>
    cases num with
    | zero => rfl
    | succ num =>
      cases groups with
      | nil => rfl
      | cons g gs => simp only [finish, advance, forGroups, bind_assoc, pure_bind]
  | finished => rfl

/-! ## The threads -/

/-- The threads that take `mutex_`. -/
inductive Thread where
  | worker
  | ui
  deriving DecidableEq

/-- Where the order-book worker stands. -/
inductive WorkerState (δ : Type) where
  /-- Polling the queue. -/
  | idle
  /-- With a message off the queue, waiting for `mutex_`. -/
  | dequeued (msg : MarketMessageVariant δ)
  /-- Applying a message, holding `mutex_`. -/
  | running (msg : MarketMessageVariant δ) (pc : Pc δ)
  /-- Ended by an exception, which released `mutex_`. -/
  | failed (e : Exception)

/-- Where the UI thread stands. -/
inductive ReaderState where
  | idle
  /-- In `to_vector`, holding `mutex_`, with the rows read so far. It
  remembers how many messages had been received when it took the lock, and
  whether everything was quiet. -/
  | reading (rows : List BidAsk) (receivedAtLock : ℕ) (quietAtLock : Bool)

/-- A call of `to_vector` that has returned, with what had been received when
it took the lock and when it returned. -/
structure View where
  rows : List BidAsk
  receivedAtLock : ℕ
  quietAtLock : Bool
  receivedAtReturn : ℕ
  quietAtReturn : Bool

/-- The whole system. `received` and `views` only record what has happened. -/
structure System (δ : Type) where
  received : List (MarketMessageVariant δ)
  queue : List (MarketMessageVariant δ)
  worker : WorkerState δ
  book : OrderBook
  holder : Option Thread
  reader : ReaderState
  views : List View

namespace System

/-- The queue is empty and the worker idle. -/
def quiet (s : System δ) : Bool :=
  match s.queue, s.worker with
  | [], .idle => true
  | _, _ => false

/-- A system that has just been started on a book. -/
def init (b : OrderBook) : System δ := ⟨[], [], .idle, b, none, .idle, []⟩

/-- **The steps of the three threads.** -/
inductive Step : System δ → System δ → Prop
  /-- `FixApp::onMessage` of a message of the `PX` session. -/
  | onMessage (s : System δ) (msg : MarketMessageVariant δ) :
    Step s { s with received := s.received ++ [msg], queue := s.queue ++ [msg] }
  /-- `try_dequeue` of the worker. -/
  | dequeue (s : System δ) {msg : MarketMessageVariant δ} {rest : List (MarketMessageVariant δ)} :
    s.worker = .idle → s.queue = msg :: rest →
    Step s { s with queue := rest, worker := .dequeued msg }
  /-- The worker enters the function and takes the lock. -/
  | lockWorker (s : System δ) {msg : MarketMessageVariant δ} :
    s.worker = .dequeued msg → s.holder = none →
    Step s { s with worker := .running msg (.started msg), holder := some .worker }
  /-- A step of the function that ends normally. -/
  | advance (s : System δ) {msg : MarketMessageVariant δ} {pc pc' : Pc δ} {b' : OrderBook} :
    s.worker = .running msg pc →
    (Core.advance toUint64 clear pc).run s.book = .ok pc' b' →
    Step s { s with worker := .running msg pc', book := b' }
  /-- A step of the function that throws. -/
  | throw (s : System δ) {msg : MarketMessageVariant δ} {pc : Pc δ} {e : Exception}
      {b' : OrderBook} :
    s.worker = .running msg pc →
    (Core.advance toUint64 clear pc).run s.book = .error e b' →
    Step s { s with worker := .failed e, book := b', holder := none }
  /-- The function returns and the worker polls again. -/
  | unlockWorker (s : System δ) {msg : MarketMessageVariant δ} :
    s.worker = .running msg .finished →
    Step s { s with worker := .idle, holder := none }
  /-- The UI calls `to_vector` and takes the lock. -/
  | lockReader (s : System δ) :
    s.reader = .idle → s.holder = none →
    Step s { s with
      reader := .reading [] s.received.length s.quiet, holder := some .ui }
  /-- `to_vector` pushes a row. -/
  | readRow (s : System δ) {rows : List BidAsk} {n : ℕ} {q : Bool} {r : BidAsk} :
    s.reader = .reading rows n q → rowAt s.book rows.length = some r →
    Step s { s with reader := .reading (rows ++ [r]) n q }
  /-- `to_vector` has reached the end of both maps and returns. -/
  | unlockReader (s : System δ) {rows : List BidAsk} {n : ℕ} {q : Bool} :
    s.reader = .reading rows n q → rowAt s.book rows.length = none →
    Step s { s with
      reader := .idle, holder := none
      views := s.views ++ [⟨rows, n, q, s.received.length, s.quiet⟩] }

/-! ## The invariant -/

/-- The message a worker has taken off the queue and not yet applied. -/
def current : WorkerState δ → List (MarketMessageVariant δ)
  | .idle => []
  | .dequeued msg => [msg]
  | .running msg _ => [msg]
  | .failed _ => []

/-- **A view is the book after `k` messages.** -/
structure ViewOf (b₀ : OrderBook) (received : List (MarketMessageVariant δ)) (v : View)
    (k : ℕ) : Prop where
  known : k ≤ received.length
  folded : ∃ b, (applyMessages toUint64 clear (received.take k)).run b₀ = .ok () b
    ∧ v.rows = b.toVector
  atLock : k ≤ v.receivedAtLock
  atReturn : k ≤ v.receivedAtReturn
  quietAtLock : v.quietAtLock = true → k = v.receivedAtLock
  quietAtReturn : v.quietAtReturn = true → k = v.receivedAtReturn

/-- **The invariant**: `done` are the messages applied in full, `b` is the
book they make, and `ks` are the boundaries the views so far were taken
at. -/
structure Inv (b₀ : OrderBook) (s : System δ) (done : List (MarketMessageVariant δ))
    (b : OrderBook) (ks : List ℕ) : Prop where
  alive : ∀ e, s.worker ≠ .failed e
  split : s.received = done ++ current s.worker ++ s.queue
  folded : (applyMessages toUint64 clear done).run b₀ = .ok () b
  running : ∀ msg pc, s.worker = .running msg pc → s.holder = some .worker
    ∧ (finish toUint64 clear pc).run s.book = (applyMessage toUint64 clear msg).run b
  resting : (∀ msg pc, s.worker ≠ .running msg pc) → s.book = b ∧ s.holder ≠ some .worker
  reading : ∀ rows n q, s.reader = .reading rows n q → s.holder = some .ui
    ∧ rows <+: b.toVector ∧ done.length ≤ n ∧ n ≤ s.received.length
    ∧ (q = true → done.length = n)
  views : List.Forall₂ (ViewOf toUint64 clear b₀ s.received) s.views ks
  sorted : ks.Pairwise (· ≤ ·)
  bounded : ∀ k ∈ ks, k ≤ done.length

theorem inv_init (b₀ : OrderBook) :
    Inv toUint64 clear b₀ (init b₀) ([] : List (MarketMessageVariant δ)) b₀ [] where
  alive := nofun
  split := rfl
  folded := rfl
  running := by rintro _ _ ⟨⟩
  resting := fun _ => ⟨rfl, nofun⟩
  reading := nofun
  views := List.Forall₂.nil
  sorted := List.Pairwise.nil
  bounded := nofun

section Step

variable {toUint64 clear}
variable {b₀ b : OrderBook} {s s' : System δ} {done : List (MarketMessageVariant δ)}
  {ks : List ℕ}

/-- More messages received do not change what the first ones make. -/
theorem ViewOf.append {received : List (MarketMessageVariant δ)} {v : View} {k : ℕ}
    (h : ViewOf toUint64 clear b₀ received v k) (more : List (MarketMessageVariant δ)) :
    ViewOf toUint64 clear b₀ (received ++ more) v k :=
  { h with
    known := by
      rw [List.length_append]
      exact Nat.le_trans h.known (Nat.le_add_right _ _)
    folded := by
      rw [List.take_append_of_le_length h.known]
      exact h.folded }

theorem Inv.done_le (h : Inv toUint64 clear b₀ s done b ks) :
    done.length ≤ s.received.length := by
  rw [h.split, List.length_append, List.length_append, Nat.add_assoc]
  exact Nat.le_add_right _ _

/-- What has been applied in full is the first of what has been received. -/
theorem Inv.take_done (h : Inv toUint64 clear b₀ s done b ks) :
    s.received.take done.length = done := by
  rw [h.split, List.append_assoc, List.take_left]

/-- When everything is quiet, everything received has been applied. -/
theorem Inv.done_of_quiet (h : Inv toUint64 clear b₀ s done b ks) (hq : s.quiet = true) :
    done.length = s.received.length := by
  have hsplit := h.split
  unfold quiet at hq
  split at hq
  · next hqueue hworker =>
    rw [hqueue, hworker, List.append_nil] at hsplit
    rw [hsplit]
    exact (congrArg List.length (List.append_nil _)).symm
  · cases hq

/-- While the UI holds the lock, or no one does, the worker is not at the
book. -/
theorem Inv.not_running (h : Inv toUint64 clear b₀ s done b ks)
    (hholder : s.holder ≠ some .worker) (msg : MarketMessageVariant δ) (pc : Pc δ) :
    s.worker ≠ .running msg pc :=
  fun hrun => hholder (h.running msg pc hrun).1

/-! ### What each step keeps -/

/-- A message that is received joins the end of the queue. -/
theorem Inv.onMessage (h : Inv toUint64 clear b₀ s done b ks) (msg : MarketMessageVariant δ) :
    Inv toUint64 clear b₀
      { s with received := s.received ++ [msg], queue := s.queue ++ [msg] } done b ks := by
  refine { h with split := ?_, reading := fun rows n q hr => ?_, views := ?_ }
  · show s.received ++ [msg] = done ++ current s.worker ++ (s.queue ++ [msg])
    rw [h.split, List.append_assoc]
  · obtain ⟨hholder, hrows, hn, hlen, hq⟩ := h.reading rows n q hr
    refine ⟨hholder, hrows, hn, Nat.le_trans hlen ?_, hq⟩
    show s.received.length ≤ (s.received ++ [msg]).length
    rw [List.length_append]
    exact Nat.le_add_right _ _
  · exact h.views.imp (fun v k hv => hv.append [msg])

/-- A message taken off the queue is the worker's, in the same place. -/
theorem Inv.dequeue (h : Inv toUint64 clear b₀ s done b ks) (hidle : s.worker = .idle)
    {msg : MarketMessageVariant δ} {rest : List (MarketMessageVariant δ)}
    (hqueue : s.queue = msg :: rest) :
    Inv toUint64 clear b₀ { s with queue := rest, worker := .dequeued msg } done b ks := by
  refine { h with alive := nofun, split := ?_, running := by rintro _ _ ⟨⟩, resting := fun _ => ?_ }
  · rw [h.split, hidle, hqueue]
    simp only [current, List.append_nil, List.append_assoc, List.cons_append, List.nil_append]
  · exact h.resting (fun msg pc hrun => by rw [hidle] at hrun; cases hrun)

/-- A reader at the book has the lock. -/
theorem Inv.not_reading (h : Inv toUint64 clear b₀ s done b ks) (hholder : s.holder ≠ some .ui)
    (rows : List BidAsk) (n : ℕ) (q : Bool) : s.reader ≠ .reading rows n q :=
  fun hread => hholder (h.reading rows n q hread).1

/-- The whole function is left to run when the worker takes the lock. -/
theorem Inv.lockWorker (h : Inv toUint64 clear b₀ s done b ks) {msg : MarketMessageVariant δ}
    (hdeq : s.worker = .dequeued msg) (hfree : s.holder = none) :
    Inv toUint64 clear b₀
      { s with worker := .running msg (.started msg), holder := some .worker } done b ks := by
  have hrest := h.resting (h.not_running (by rw [hfree]; nofun))
  refine { h with alive := nofun, split := ?_, running := ?_, resting := ?_, reading := ?_ }
  · rw [h.split, hdeq]
    rfl
  · intro msg' pc hrun
    obtain ⟨rfl, rfl⟩ := WorkerState.running.inj hrun
    refine ⟨rfl, ?_⟩
    rw [hrest.1]
    rfl
  · intro hno
    exact absurd rfl (hno _ _)
  · intro rows n q hr
    exact absurd hr (h.not_reading (by rw [hfree]; nofun) rows n q)

/-- **A step of the function leaves less of it to run**, to the same end. -/
theorem Inv.advance (h : Inv toUint64 clear b₀ s done b ks) {msg : MarketMessageVariant δ}
    {pc pc' : Pc δ} {b' : OrderBook} (hrun : s.worker = .running msg pc)
    (hadv : (Core.advance toUint64 clear pc).run s.book = .ok pc' b') :
    Inv toUint64 clear b₀ { s with worker := .running msg pc', book := b' } done b ks := by
  obtain ⟨hholder, hfin⟩ := h.running _ _ hrun
  refine { h with alive := nofun, split := ?_, running := ?_, resting := ?_, reading := ?_ }
  · rw [h.split, hrun]
    rfl
  · intro msg' pc₁ hrun'
    obtain ⟨rfl, rfl⟩ := WorkerState.running.inj hrun'
    refine ⟨hholder, ?_⟩
    rw [← hfin, finish_eq toUint64 clear pc, EStateM.run_bind, hadv]
  · intro hno
    exact absurd rfl (hno _ _)
  · intro rows n q hr
    exact absurd hr (h.not_reading (by rw [hholder]; nofun) rows n q)

/-- **A function that has returned has applied its message.** -/
theorem Inv.unlockWorker (h : Inv toUint64 clear b₀ s done b ks)
    {msg : MarketMessageVariant δ} (hrun : s.worker = .running msg .finished) :
    Inv toUint64 clear b₀ { s with worker := .idle, holder := none } (done ++ [msg]) s.book
      ks := by
  obtain ⟨hholder, hfin⟩ := h.running _ _ hrun
  refine { h with
    alive := nofun, split := ?_, folded := applyMessages_concat toUint64 h.folded hfin.symm
    running := by rintro _ _ ⟨⟩, resting := fun _ => ⟨rfl, nofun⟩, reading := ?_, bounded := ?_ }
  · rw [h.split, hrun]
    simp only [current, List.append_nil]
  · intro rows n q hr
    exact absurd hr (h.not_reading (by rw [hholder]; nofun) rows n q)
  · intro k hk
    rw [List.length_append]
    exact Nat.le_trans (h.bounded k hk) (Nat.le_add_right _ _)

/-- A reader that takes the lock finds the book of what has been applied. -/
theorem Inv.lockReader (h : Inv toUint64 clear b₀ s done b ks) (hfree : s.holder = none) :
    Inv toUint64 clear b₀
      { s with reader := .reading [] s.received.length s.quiet, holder := some .ui }
      done b ks := by
  have hnot := h.not_running (by rw [hfree]; nofun)
  refine { h with running := ?_, resting := ?_, reading := ?_ }
  · intro msg pc hrun
    exact absurd hrun (hnot msg pc)
  · intro hno
    exact ⟨(h.resting hno).1, nofun⟩
  · intro rows n q hr
    obtain ⟨rfl, rfl, rfl⟩ := ReaderState.reading.inj hr
    exact ⟨rfl, List.nil_prefix, h.done_le, Nat.le_refl _, h.done_of_quiet⟩

/-- While a reader reads, the book is the one between two messages. -/
theorem Inv.book_of_reading (h : Inv toUint64 clear b₀ s done b ks) {rows : List BidAsk}
    {n : ℕ} {q : Bool} (hread : s.reader = .reading rows n q) : s.book = b := by
  have hholder := (h.reading rows n q hread).1
  exact (h.resting (h.not_running (by rw [hholder]; nofun))).1

theorem Inv.readRow (h : Inv toUint64 clear b₀ s done b ks) {rows : List BidAsk} {n : ℕ}
    {q : Bool} {r : BidAsk} (hread : s.reader = .reading rows n q)
    (hrow : rowAt s.book rows.length = some r) :
    Inv toUint64 clear b₀ { s with reader := .reading (rows ++ [r]) n q } done b ks := by
  obtain ⟨hholder, hrows, hrest⟩ := h.reading _ _ _ hread
  rw [h.book_of_reading hread] at hrow
  refine { h with reading := fun rows' n' q' hr => ?_ }
  obtain ⟨rfl, rfl, rfl⟩ := ReaderState.reading.inj hr
  exact ⟨hholder, prefix_concat hrows hrow, hrest⟩

/-- **A reading that returns is a view** of the book after what has been
applied. -/
theorem Inv.unlockReader (h : Inv toUint64 clear b₀ s done b ks) {rows : List BidAsk} {n : ℕ}
    {q : Bool} (hread : s.reader = .reading rows n q)
    (hrow : rowAt s.book rows.length = none) :
    Inv toUint64 clear b₀
      { s with
        reader := .idle, holder := none
        views := s.views ++ [⟨rows, n, q, s.received.length, s.quiet⟩] }
      done b (ks ++ [done.length]) := by
  obtain ⟨hholder, hrows, hn, hlen, hq⟩ := h.reading _ _ _ hread
  have hnot := h.not_running (by rw [hholder]; nofun)
  have hbook := h.book_of_reading hread
  rw [hbook] at hrow
  have hview : ViewOf toUint64 clear b₀ s.received ⟨rows, n, q, s.received.length, s.quiet⟩
      done.length :=
    { known := h.done_le
      folded := ⟨b, h.take_done.symm ▸ h.folded, eq_of_rowAt_none hrows hrow⟩
      atLock := hn
      atReturn := h.done_le
      quietAtLock := hq
      quietAtReturn := h.done_of_quiet }
  refine { h with
    running := fun msg pc hrun => absurd hrun (hnot msg pc)
    resting := fun _ => ⟨hbook, nofun⟩, reading := nofun
    views := List.rel_append h.views (List.Forall₂.cons hview List.Forall₂.nil)
    sorted := ?_, bounded := fun k hk => ?_ }
  · refine List.pairwise_append.mpr ⟨h.sorted, List.pairwise_singleton _ _, ?_⟩
    intro k hk k' hk'
    rw [List.mem_singleton.mp hk']
    exact h.bounded k hk
  · rcases List.mem_append.mp hk with hk | hk
    · exact h.bounded k hk
    · exact Nat.le_of_eq (List.mem_singleton.mp hk)

/-- **One step keeps the invariant**, unless it is the one that throws. -/
theorem Inv.step (h : Inv toUint64 clear b₀ s done b ks) (hstep : Step toUint64 clear s s') :
    (∃ e, s'.worker = .failed e)
      ∨ ∃ done' b' ks', Inv toUint64 clear b₀ s' done' b' ks' := by
  cases hstep with
  | onMessage msg => exact Or.inr ⟨_, _, _, h.onMessage msg⟩
  | dequeue hidle hqueue => exact Or.inr ⟨_, _, _, h.dequeue hidle hqueue⟩
  | lockWorker hdeq hfree => exact Or.inr ⟨_, _, _, h.lockWorker hdeq hfree⟩
  | advance hrun hadv => exact Or.inr ⟨_, _, _, h.advance hrun hadv⟩
  | throw hrun hthrow => exact Or.inl ⟨_, rfl⟩
  | unlockWorker hrun => exact Or.inr ⟨_, _, _, h.unlockWorker hrun⟩
  | lockReader hidle hfree => exact Or.inr ⟨_, _, _, h.lockReader hfree⟩
  | readRow hread hrow => exact Or.inr ⟨_, _, _, h.readRow hread hrow⟩
  | unlockReader hread hrow => exact Or.inr ⟨_, _, _, h.unlockReader hread hrow⟩

/-- A worker that has ended stays so. -/
theorem Step.failed {e : Exception} (hstep : Step toUint64 clear s s')
    (he : s.worker = .failed e) : s'.worker = .failed e := by
  cases hstep with
  | onMessage msg => exact he
  | dequeue hidle _ => rw [hidle] at he; cases he
  | lockWorker hdeq _ => rw [hdeq] at he; cases he
  | advance hrun _ => rw [hrun] at he; cases he
  | throw hrun _ => rw [hrun] at he; cases he
  | unlockWorker hrun => rw [hrun] at he; cases he
  | lockReader _ _ => exact he
  | readRow _ _ => exact he
  | unlockReader _ _ => exact he

/-- Every reachable state is one the invariant describes, or one in which an
application has thrown. -/
theorem reachable_inv (h : Relation.ReflTransGen (Step toUint64 clear) (init b₀) s) :
    (∃ e, s.worker = .failed e) ∨ ∃ done b ks, Inv toUint64 clear b₀ s done b ks := by
  induction h with
  | refl => exact Or.inr ⟨[], b₀, [], inv_init toUint64 clear b₀⟩
  | tail _ hstep ih =>
    rcases ih with ⟨e, he⟩ | ⟨done, b, ks, hinv⟩
    · exact Or.inl ⟨e, hstep.failed he⟩
    · exact hinv.step hstep

end Step

/-- **Readers see the book at message boundaries, in order.** In every run
in which no application throws, each result of `to_vector` is that of the
book after the first `k` messages received, the `k` never decrease from one
call to the next, and `k` is the number received whenever the queue was
empty and the worker idle. -/
theorem views_at_message_boundaries {b₀ : OrderBook} {s : System δ}
    (hreach : Relation.ReflTransGen (Step toUint64 clear) (init b₀) s)
    (halive : ∀ e, s.worker ≠ .failed e) :
    ∃ ks : List ℕ, ks.Pairwise (· ≤ ·)
      ∧ List.Forall₂ (ViewOf toUint64 clear b₀ s.received) s.views ks := by
  rcases reachable_inv hreach with ⟨e, he⟩ | ⟨done, b, ks, hinv⟩
  · exact absurd he (halive e)
  · exact ⟨ks, hinv.sorted, hinv.views⟩

/-- A run in which a snapshot is received, applied and read. -/
theorem views_at_message_boundaries_snapshot :
    ∃ s : System ℕ,
      Relation.ReflTransGen (Step (fun px ticks => UInt64.ofNat px * ticks) false)
          (init empty) s
      ∧ s.views.map View.rows = [[⟨100000, 900, BidAsk.sentinel, BidAsk.sentinel⟩]]
      ∧ ∃ ks : List ℕ, ks.Pairwise (· ≤ ·)
        ∧ List.Forall₂ (ViewOf (fun px ticks => UInt64.ofNat px * ticks) false empty s.received)
            s.views ks := by
  let msg : MarketMessageVariant ℕ := .snapshot (.ofGroups "BTCUSDT".toList
    [{ mdEntryType := some (.ok '0'), mdEntryPx := some (.ok 9),
       mdEntrySize := some (.ok 1) }])
  have hrun : ∃ s : System ℕ,
      Relation.ReflTransGen (Step (fun px ticks => UInt64.ofNat px * ticks) false)
          (init empty) s
      ∧ s.views.map View.rows = [[⟨100000, 900, BidAsk.sentinel, BidAsk.sentinel⟩]]
      ∧ s.worker = .idle := by
    refine ⟨_, ((((((((((((Relation.ReflTransGen.single (Step.onMessage (init empty) msg)).tail
      (.dequeue _ rfl rfl)).tail (.lockWorker _ rfl rfl)).tail
      (.advance _ rfl rfl)).tail (.advance _ rfl rfl)).tail (.advance _ rfl rfl)).tail
      (.advance _ rfl rfl)).tail (.advance _ rfl rfl)).tail (.advance _ rfl rfl)).tail
      (.unlockWorker _ rfl)).tail (.lockReader _ rfl rfl)).tail (.readRow _ rfl rfl)).tail
      (.unlockReader _ rfl rfl), rfl, rfl⟩
  obtain ⟨s, hreach, hrows, hidle⟩ := hrun
  exact ⟨s, hreach, hrows, views_at_message_boundaries _ _ hreach
    (fun e he => by rw [hidle] at he; cases he)⟩

end System

end Core
