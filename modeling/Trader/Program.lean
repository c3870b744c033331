import Trader.Connections
import Trader.FixApp
import Trader.FailedMessage
import Trader.Interruptible
import Trader.Shutdown

set_option autoImplicit false

/-!
# The program

The threads of the program that carry market data, put together: the FIX
session threads, which hand what they are delivered to `FixApp`, the
order-book box and the trade box with their workers, and the UI thread,
which draws both. The only things they share are the two queues, the book and the
ring, and every step of each may fall between any two of the others.

* The program does what one does whose messages are applied and whose copies
  are made in one go (`program_refines`).
* Each box takes what `FixApp` put on its queue, in the order of the session
  it came from (`queues_in_order`).
* What is drawn of the book is the book at the boundary of two messages, and
  never an older one than before (`book_drawn`); drawn after every message on
  the queue was announced, it is the book of all of them, over any number of
  connections whose messages do not overtake each other
  (`screen_catches_up`). The trades drawn are the last hundred accepted, with
  every one a redraw was asked for (`trades_drawn`).
* A worker ends for a reason, soon after it is asked to (`workers_end`), and
  the program can always be shut down (`shutdown_possible`).
-/

namespace Ui

open Fix EarlyExit Binance Transition

variable {δ : Type}

/-- `OrderBookBox::IS_BOOK_CLEAR_NEEDED_`. -/
def isBookClearNeeded (maxDepth : UInt16) : Bool := maxDepth == 1

/-- **What can be seen of the program.** -/
inductive ProgramEvent (δ : Type) where
  /-- Session thread `c` is in `onMessage` with a message, and puts it on its
  queue if there is one for it. `crack`, and the copy it makes, come before and
  touch nothing that is shared. -/
  | delivered (c : ℕ) (d : FixApp.Delivery δ)
  | order (act : BoxAct (MarketMessageVariant δ) Exception (List Core.BidAsk))
  | trade (act : BoxAct (MarketDataIncrementalRefresh δ) Exception (List Core.Trade))

/-- What an event is to the order-book box: a message is put on its queue when
`FixApp::onMessage` puts it there. -/
def orderPart :
    ProgramEvent δ → Option (BoxEvent (MarketMessageVariant δ) Exception (List Core.BidAsk))
  | .delivered c d => ((FixApp.onMessage ⟨[], []⟩ d).orderQueue.head?).map (.enqueued c)
  | .order act => some (.own act)
  | .trade _ => none

/-- What an event is to the trade box. -/
def tradePart :
    ProgramEvent δ → Option (BoxEvent (MarketDataIncrementalRefresh δ) Exception (List Core.Trade))
  | .delivered c d => ((FixApp.onMessage ⟨[], []⟩ d).tradeQueue.head?).map (.enqueued c)
  | .order _ => none
  | .trade act => some (.own act)

/-- A state of the order-book box. -/
abbrev OrderBookBox (δ : Type) : Type :=
  BoxClient (MarketMessageVariant δ) Exception (List Core.BidAsk)
    × Monitor.Locked BoxThread Core.OrderBook (BoxOp (MarketMessageVariant δ))
      (BoxReply Exception (List Core.BidAsk))

/-- A state of the trade box. -/
abbrev TradeListBox (δ : Type) : Type :=
  BoxClient (MarketDataIncrementalRefresh δ) Exception (List Core.Trade)
    × Monitor.Locked BoxThread TradeBox.TradeRing (BoxOp (MarketDataIncrementalRefresh δ))
      (BoxReply Exception (List Core.Trade))

variable (toUint64 : δ → UInt64 → UInt64) (maxDepth : UInt16) (b₀ : Core.OrderBook)

/-- The order-book box, on the code its threads run under the lock, -/
abbrev orderBox :
    Machine (OrderBookBox δ) (BoxEvent (MarketMessageVariant δ) Exception (List Core.BidAsk)) :=
  box (Core.OrderBook.applyMessageSteps toUint64 (isBookClearNeeded maxDepth))
    Core.OrderBook.toVectorSteps b₀

/-- and the trade box. -/
abbrev tradeBox : Machine (TradeListBox δ)
    (BoxEvent (MarketDataIncrementalRefresh δ) Exception (List Core.Trade)) :=
  box (TradeBox.onTradeSteps toUint64) TradeBox.copyRingSteps .empty

/-- **The program.** Either box may be drawn at any time here, which leaves open
what the UI thread does in between. -/
def program : Machine (OrderBookBox δ × TradeListBox δ) (ProgramEvent δ) :=
  (orderBox toUint64 maxDepth b₀).beside (tradeBox toUint64) orderPart tradePart

/-- **What the program is for**: the same threads, on a book and a ring that a
message changes in one go and that are copied in one go. -/
def programSpec : Machine
    ((BoxClient (MarketMessageVariant δ) Exception (List Core.BidAsk)
        × Monitor.Atomic BoxThread Core.OrderBook (BoxOp (MarketMessageVariant δ))
          (BoxReply Exception (List Core.BidAsk)))
      × BoxClient (MarketDataIncrementalRefresh δ) Exception (List Core.Trade)
        × Monitor.Atomic BoxThread TradeBox.TradeRing (BoxOp (MarketDataIncrementalRefresh δ))
          (BoxReply Exception (List Core.Trade))) (ProgramEvent δ) :=
  (boxSpec (Core.OrderBook.applyMessage toUint64 (isBookClearNeeded maxDepth)) Resumption.Silent
      Core.OrderBook.toVector b₀).beside
    (boxSpec (TradeBox.onTrade toUint64) TradeBox.Records RingBuffer.items .empty)
    orderPart tradePart

/-- The order book asks for no redraw while it is locked. -/
theorem orderCodes : Codes
    (Core.OrderBook.applyMessageSteps toUint64 (isBookClearNeeded maxDepth))
    Core.OrderBook.toVectorSteps (Core.OrderBook.applyMessage toUint64 (isBookClearNeeded maxDepth))
    Resumption.Silent Core.OrderBook.toVector :=
  ⟨Resumption.told_copy _ _, Core.OrderBook.implements_applyMessage toUint64 _,
    Core.OrderBook.run_toVectorSteps⟩

/-- The trade box asks for one for every trade it records. -/
theorem tradeCodes : Codes (TradeBox.onTradeSteps toUint64) TradeBox.copyRingSteps
    (TradeBox.onTrade toUint64) TradeBox.Records RingBuffer.items :=
  ⟨Resumption.told_copy _ _, TradeBox.implements_onTrade toUint64, TradeBox.run_copyRingSteps⟩

/-! ## The one UI thread -/

/-- Where the UI thread stands in a frame: `row1` draws the order-book box and
then the trade box. -/
inductive FramePlace where
  | outside
  | book
  | halfway
  | trades

/-- Its steps. -/
inductive FrameStep : FramePlace → Option (ProgramEvent δ) → FramePlace → Prop
  | drawBook : FrameStep .outside (some (.order .drawing)) .book
  | bookDrawn (rows : List Core.BidAsk) : FrameStep .book (some (.order (.drawn rows))) .halfway
  | drawTrades : FrameStep .halfway (some (.trade .drawing)) .trades
  | tradesDrawn (trades : List Core.Trade) :
    FrameStep .trades (some (.trade (.drawn trades))) .outside

variable (δ) in
/-- The UI thread, frame after frame. -/
def uiThread : Machine FramePlace (ProgramEvent δ) where
  init f := f = .outside
  step := FrameStep

/-- What it does at a box. -/
def BoxAct.byUi {M ε ρ : Type} : BoxAct M ε ρ → Option (BoxAct M ε ρ)
  | .drawing => some .drawing
  | .drawn r => some (.drawn r)
  | _ => none

/-- Its part in an event. -/
def uiPart : ProgramEvent δ → Option (ProgramEvent δ)
  | .delivered _ _ => none
  | .order act => act.byUi.map .order
  | .trade act => act.byUi.map .trade

/-- **The program with its one UI thread**, which is at one box at a time. -/
def framedProgram : Machine (FramePlace × OrderBookBox δ × TradeListBox δ) (ProgramEvent δ) :=
  (uiThread δ).beside (program toUint64 maxDepth b₀) uiPart some

variable {toUint64 maxDepth b₀} in
/-- Whatever is true of all runs of the program is so with one UI thread. -/
theorem reaches_of_framed {t : List (ProgramEvent δ)}
    {p : FramePlace × OrderBookBox δ × TradeListBox δ}
    (h : (framedProgram toUint64 maxDepth b₀).Reaches t p) :
    (program toUint64 maxDepth b₀).Reaches t p.2 := by
  obtain ⟨p₀, ⟨-, hp₀⟩, hrun⟩ := h
  have hright := run_right_of_beside hrun
  rw [List.filterMap_some] at hright
  exact ⟨p₀.2, hp₀, hright⟩

/-! ## What is seen of each box -/

/-- What has been seen of the order-book box, -/
def orderSeen (t : List (ProgramEvent δ)) :
    Seen (MarketMessageVariant δ) Exception (List Core.BidAsk) :=
  seen (t.filterMap orderPart)

/-- and of the trade box. -/
def tradeSeen (t : List (ProgramEvent δ)) :
    Seen (MarketDataIncrementalRefresh δ) Exception (List Core.Trade) :=
  seen (t.filterMap tradePart)

/-- What an event delivers to session thread `c`, if it does. -/
def deliveredTo (c : ℕ) : ProgramEvent δ → Option (FixApp.Delivery δ)
  | .delivered c' d => if c' = c then some d else none
  | _ => none

/-- What session thread `c` was delivered. -/
def deliveriesOf (c : ℕ) (t : List (ProgramEvent δ)) : List (FixApp.Delivery δ) :=
  t.filterMap (deliveredTo c)

/-- What `FixApp` has put on the queues for session thread `c`. -/
def queuesOf (c : ℕ) (t : List (ProgramEvent δ)) : FixApp δ :=
  FixApp.run ⟨[], []⟩ (deliveriesOf c t)

/-- What an event delivers, on any thread. -/
def delivery : ProgramEvent δ → Option (FixApp.Delivery δ)
  | .delivered _ d => some d
  | _ => none

/-- **What `FixApp` has put on the queues** for all session threads, in the
order in which it was put there. -/
def queues (t : List (ProgramEvent δ)) : FixApp δ :=
  FixApp.run ⟨[], []⟩ (t.filterMap delivery)

/-- **The order queue is calm**: a session thread puts a message on it only when
those of other threads have been taken, as when the backlog of a connection
is gone by the time the next one receives. -/
def CalmOrders (t : List (ProgramEvent δ)) : Prop := Calm (t.filterMap orderPart)

/-- And so is the trade queue. -/
def CalmTrades (t : List (ProgramEvent δ)) : Prop := Calm (t.filterMap tradePart)

variable {toUint64 maxDepth b₀} {t : List (ProgramEvent δ)}

/-- What an event puts on a queue for session thread `c`, `FixApp` puts there
for what the event delivers to `c`. -/
theorem part_enqueuedBy (c : ℕ) (e : ProgramEvent δ) :
    (orderPart e).bind (BoxEvent.enqueuedBy c)
        = (deliveredTo c e).bind (fun d =>
            (Option.guard FixApp.reachesOrderQueue d).map FixApp.Delivery.msg)
      ∧ (tradePart e).bind (BoxEvent.enqueuedBy c)
        = (deliveredTo c e).bind FixApp.txIncrement := by
  cases e with
  | order act => exact ⟨rfl, rfl⟩
  | trade act => exact ⟨rfl, rfl⟩
  | delivered c' d =>
    have hto : deliveredTo c (.delivered c' d) = if c' = c then some d else none := rfl
    rw [hto]
    unfold orderPart tradePart
    simp only [BoxEvent.enqueuedBy_map, FixApp.onMessage_eq]
    by_cases hc : c' = c
    · rw [if_pos hc, if_pos hc, if_pos hc]
      constructor
      · show _ = Option.map _ (Option.guard _ d)
        unfold Option.guard
        cases FixApp.reachesOrderQueue d <;> rfl
      · show _ = FixApp.txIncrement d
        cases FixApp.txIncrement d <;> rfl
    · rw [if_neg hc, if_neg hc, if_neg hc]
      exact ⟨rfl, rfl⟩

/-- **What a session thread has put on the queues** is what `FixApp` puts there
for what it was delivered. -/
theorem enqueued_eq (t : List (ProgramEvent δ)) (c : ℕ) :
    (orderSeen t).enqueued c = (queuesOf c t).orderQueue
      ∧ (tradeSeen t).enqueued c = (queuesOf c t).tradeQueue := by
  unfold orderSeen tradeSeen queuesOf deliveriesOf
  rw [enqueued_seen, enqueued_seen, FixApp.run_eq, List.nil_append, List.nil_append,
    ← List.filterMap_eq_filter, List.map_filterMap, List.filterMap_filterMap,
    List.filterMap_filterMap, List.filterMap_filterMap, FixApp.txIncrements,
    List.filterMap_filterMap]
  exact ⟨List.filterMap_congr fun e _ => (part_enqueuedBy c e).1,
    List.filterMap_congr fun e _ => (part_enqueuedBy c e).2⟩

/-- What an event puts on the queues is what `FixApp` puts there for what it
delivers. -/
theorem part_put (e : ProgramEvent δ) :
    (orderPart e).bind BoxEvent.put
        = (delivery e).bind (fun d =>
            (Option.guard FixApp.reachesOrderQueue d).map FixApp.Delivery.msg)
      ∧ (tradePart e).bind BoxEvent.put = (delivery e).bind FixApp.txIncrement := by
  cases e with
  | order act => exact ⟨rfl, rfl⟩
  | trade act => exact ⟨rfl, rfl⟩
  | delivered c d =>
    have hput : ∀ {M ε ρ : Type} (o : Option M),
        (o.map (fun msg => (.enqueued c msg : BoxEvent M ε ρ))).bind BoxEvent.put = o := by
      intro M ε ρ o
      cases o <;> rfl
    have hto : delivery (.delivered c d) = some d := rfl
    rw [hto]
    unfold orderPart tradePart
    simp only [hput, FixApp.onMessage_eq]
    constructor
    · show _ = Option.map _ (Option.guard _ d)
      unfold Option.guard
      cases FixApp.reachesOrderQueue d <;> rfl
    · show _ = FixApp.txIncrement d
      cases FixApp.txIncrement d <;> rfl

/-- **What all session threads have put on the queues.** -/
theorem everythingPut_eq (t : List (ProgramEvent δ)) :
    everythingPut (t.filterMap orderPart) = (queues t).orderQueue
      ∧ everythingPut (t.filterMap tradePart) = (queues t).tradeQueue := by
  unfold everythingPut queues
  rw [FixApp.run_eq, List.nil_append, List.nil_append, ← List.filterMap_eq_filter,
    List.map_filterMap, List.filterMap_filterMap, List.filterMap_filterMap,
    List.filterMap_filterMap, FixApp.txIncrements, List.filterMap_filterMap]
  exact ⟨List.filterMap_congr fun e _ => (part_put e).1,
    List.filterMap_congr fun e _ => (part_put e).2⟩

/-! ## A run -/

/-- What the order-book box does on its own is its part of it, -/
theorem parts_of_order (u : List (BoxAct (MarketMessageVariant δ) Exception (List Core.BidAsk))) :
    (u.map ProgramEvent.order).filterMap orderPart = u.map .own
      ∧ (u.map ProgramEvent.order).filterMap tradePart = [] := by
  rw [List.filterMap_map, List.filterMap_map]
  exact ⟨congrFun List.filterMap_eq_map u, List.filterMap_eq_nil_iff.mpr (fun _ _ => rfl)⟩

/-- and likewise the trade box. -/
theorem parts_of_trade
    (u : List (BoxAct (MarketDataIncrementalRefresh δ) Exception (List Core.Trade))) :
    (u.map ProgramEvent.trade).filterMap orderPart = []
      ∧ (u.map ProgramEvent.trade).filterMap tradePart = u.map .own := by
  rw [List.filterMap_map, List.filterMap_map]
  exact ⟨List.filterMap_eq_nil_iff.mpr (fun _ _ => rfl), congrFun List.filterMap_eq_map u⟩

/-- What the order-book box does on its own, the program can do, -/
theorem run_of_order {p p' : OrderBookBox δ} {u : List (BoxAct _ _ _)}
    (h : (orderBox toUint64 maxDepth b₀).Run p (u.map .own) p') (q : TradeListBox δ) :
    (program toUint64 maxDepth b₀).Run (p, q) (u.map .order) (p', q) := by
  refine run_beside _ ?_ ?_
  · rwa [(parts_of_order u).1]
  · rw [(parts_of_order u).2]
    exact Machine.Run.refl

/-- and what the trade box does. -/
theorem run_of_trade {q q' : TradeListBox δ} {u : List (BoxAct _ _ _)}
    (h : (tradeBox toUint64).Run q (u.map .own) q') (p : OrderBookBox δ) :
    (program toUint64 maxDepth b₀).Run (p, q) (u.map .trade) (p, q') := by
  refine run_beside _ ?_ ?_
  · rw [(parts_of_trade u).1]
    exact Machine.Run.refl
  · rwa [(parts_of_trade u).2]

/-- A run of each box from the start, along its parts of the same events. -/
theorem reaches_of_parts {p : OrderBookBox δ} {q : TradeListBox δ}
    (horder : (orderBox toUint64 maxDepth b₀).Run (.init, Monitor.unattended b₀)
      (t.filterMap orderPart) p)
    (htrade : (tradeBox toUint64).Run (.init, Monitor.unattended .empty)
      (t.filterMap tradePart) q) :
    (program toUint64 maxDepth b₀).Reaches t (p, q) :=
  ⟨((.init, Monitor.unattended b₀), (.init, Monitor.unattended .empty)), ⟨⟨rfl, rfl⟩, rfl, rfl⟩,
    run_beside t horder htrade⟩

/-- A run of the order-book box from the start, along events that mean nothing to
the trade box. -/
theorem trace_of_order {p : OrderBookBox δ}
    (h : (orderBox toUint64 maxDepth b₀).Run (.init, Monitor.unattended b₀)
      (t.filterMap orderPart) p)
    (htrade : t.filterMap tradePart = []) : (program toUint64 maxDepth b₀).Trace t := by
  refine ⟨(p, .init, Monitor.unattended .empty), reaches_of_parts h ?_⟩
  rw [htrade]
  exact Machine.Run.refl

/-- A snapshot delivered on `PX` and an increment on `TX`, each taken, handled
and drawn, the second with `n` redraws asked for on the way. -/
def shown (m : MarketDataSnapshotFullRefresh δ) (m' : MarketDataIncrementalRefresh δ)
    (rows : List Core.BidAsk) (n : ℕ) (trades : List Core.Trade) : List (ProgramEvent δ) :=
  [.delivered 0 ⟨pxSessionQualifier, .snapshot m⟩,
    .delivered 1 ⟨txSessionQualifier, .increment m'⟩]
    ++ (handledOnce 0 (MarketMessageVariant.snapshot m) 0
      ++ [BoxAct.drawing, .drawn rows]).map .order
    ++ (handledOnce 1 m' n ++ [BoxAct.drawing, .drawn trades]).map .trade

/-- The two deliveries leave each message on its queue. -/
theorem reaches_delivered (m : MarketDataSnapshotFullRefresh δ)
    (m' : MarketDataIncrementalRefresh δ) :
    (program toUint64 maxDepth b₀).Reaches
      [.delivered 0 ⟨pxSessionQualifier, .snapshot m⟩,
        .delivered 1 ⟨txSessionQualifier, .increment m'⟩]
      ((.offered 0 (.snapshot m), Monitor.unattended b₀),
        (.offered 1 m', Monitor.unattended .empty)) :=
  reaches_of_parts (Machine.Run.single (step_offered 0 _)) (Machine.Run.single (step_offered 1 _))

theorem trace_shown {m : MarketDataSnapshotFullRefresh δ} {m' : MarketDataIncrementalRefresh δ}
    {b : Core.OrderBook} {n : ℕ} {r : TradeBox.TradeRing}
    (hm : (Core.OrderBook.applySnapshot toUint64 m).run b₀ = .ok () b)
    (hm' : (TradeBox.onTrade toUint64 m').run .empty = .ok () r)
    (hn : (TradeBox.onTradeSteps toUint64 m').told .empty = n) :
    (program toUint64 maxDepth b₀).Trace (shown m m' b.toVector n r.items) := by
  have hcodes := orderCodes toUint64 maxDepth
  have hmsg : (Core.OrderBook.applyMessage toUint64 (isBookClearNeeded maxDepth)
      (.snapshot m)).run b₀ = .ok () b := hm
  obtain ⟨p, hp⟩ := hcodes.run_of_offered 0 hmsg (hcodes.handler _ b₀).2
  obtain ⟨q, hq⟩ := (tradeCodes toUint64).run_of_offered 1 hm' hn
  have hreach : (program toUint64 maxDepth b₀).Reaches _ _ := reaches_delivered m m'
  exact ⟨(p, q), (hreach.run (run_of_order hp _)).run (run_of_trade hq p)⟩

/-- Messages handed over one after another are applied one after another. -/
theorem handleAll_applyMessage (clear : Bool) :
    handleAll (Core.OrderBook.applyMessage toUint64 clear)
      = Core.OrderBook.applyMessages toUint64 clear := by
  funext msgs
  induction msgs with
  | nil => rfl
  | cons msg msgs ih =>
    rw [handleAll, ih]
    rfl

/-- Messages delivered on `PX`, of one connection or of several, each taken and
announced at once, and what is drawn in the end. -/
def shownAtOnce (ms : List (ℕ × MarketMessageVariant δ)) (rows : List Core.BidAsk) :
    List (ProgramEvent δ) :=
  ms.flatMap (fun p => [.delivered p.1 ⟨pxSessionQualifier, p.2⟩, .order (.dequeued p.1 p.2),
    .order .posted]) ++ [.order .drawing, .order (.drawn rows)]

/-- The order-book box sees each message put on its queue and handled at once, -/
theorem orderPart_shownAtOnce (ms : List (ℕ × MarketMessageVariant δ)) (rows : List Core.BidAsk) :
    (shownAtOnce ms rows).filterMap orderPart
      = ms.flatMap atOnce ++ [BoxAct.drawing, BoxAct.drawn rows].map BoxEvent.own := by
  have hone : ∀ p : ℕ × MarketMessageVariant δ,
      [.delivered p.1 ⟨pxSessionQualifier, p.2⟩, .order (.dequeued p.1 p.2),
        .order .posted].filterMap orderPart = atOnce p := by
    rintro ⟨c, msg⟩
    cases msg <;> rfl
  rw [shownAtOnce, List.filterMap_append, List.filterMap_flatMap]
  exact congrArg (· ++ _) (List.flatMap_congr (fun p _ => hone p))

/-- and the trade box nothing. -/
theorem tradePart_shownAtOnce (ms : List (ℕ × MarketMessageVariant δ)) (rows : List Core.BidAsk) :
    (shownAtOnce ms rows).filterMap tradePart = [] := by
  have hone : ∀ p : ℕ × MarketMessageVariant δ,
      [.delivered p.1 ⟨pxSessionQualifier, p.2⟩, .order (.dequeued p.1 p.2),
        .order .posted].filterMap tradePart = [] := by
    rintro ⟨c, msg⟩
    cases msg <;> rfl
  rw [shownAtOnce, List.filterMap_append, List.filterMap_flatMap,
    List.flatMap_eq_nil_iff.mpr (fun p _ => hone p)]
  rfl

theorem calmOrders_shownAtOnce (ms : List (ℕ × MarketMessageVariant δ)) (rows : List Core.BidAsk) :
    CalmOrders (shownAtOnce ms rows) := by
  unfold CalmOrders
  rw [orderPart_shownAtOnce]
  exact (calm_atOnce ms).1.append_own _

/-- **Messages can be delivered, handled and drawn**, on any number of
connections. -/
theorem trace_shownAtOnce {ms : List (ℕ × MarketMessageVariant δ)} {b : Core.OrderBook}
    (h : (Core.OrderBook.applyMessages toUint64 (isBookClearNeeded maxDepth)
      (ms.map Prod.snd)).run b₀ = .ok () b) :
    (program toUint64 maxDepth b₀).Trace (shownAtOnce ms b.toVector) := by
  have hcodes := orderCodes toUint64 maxDepth
  have hall : Resumption.outcome (handleAll (Core.OrderBook.applyMessage toUint64
      (isBookClearNeeded maxDepth)) (ms.map Prod.snd)) b₀ = (.ok (), b) := by
    rw [handleAll_applyMessage]
    exact Resumption.outcome_of_ok h
  have hdraw : (orderBox toUint64 maxDepth b₀).Run (.init, Monitor.unattended b) _ _ :=
    run_of_drawing rfl (hcodes.reader b) (hcodes.quiet b)
  have hrun := (hcodes.run_atOnce hall).trans hdraw
  rw [← orderPart_shownAtOnce] at hrun
  exact trace_of_order hrun (tradePart_shownAtOnce ms b.toVector)

section Sample

/-- A conversion of whole units. -/
def sampleTicks (px : ℕ) (ticksPerUnit : UInt64) : UInt64 := UInt64.ofNat px * ticksPerUnit

/-- A snapshot of one bid. -/
def sampleSnapshot : MarketDataSnapshotFullRefresh ℕ :=
  .ofGroups "BTCUSDT".toList
    [{ mdEntryType := some (.ok '0'), mdEntryPx := some (.ok 9), mdEntrySize := some (.ok 3) }]

/-- An increment of one trade. -/
def sampleIncrement : MarketDataIncrementalRefresh ℕ :=
  .ofGroups
    [{ symbol := some "BTCUSDT".toList, mdEntryType := some (.ok '2'), mdEntryPx := some (.ok 9),
       mdEntrySize := some (.ok 3), tradeID := some "17".toList, aggressorSide := some (.ok '1') }]

/-- The book of the one. -/
def sampleBook : Core.OrderBook := ⟨(∅ : Core.BtreeMap Core.greater).insert 900 300000, ∅⟩

/-- The trade of the other. -/
def sampleTrade : Core.Trade := ⟨900, 300000, 17, .buy, emptyChars⟩

/-- An increment that takes the bid away again. -/
def sampleDelete : MarketDataIncrementalRefresh ℕ :=
  .ofGroups
    [{ symbol := some "BTCUSDT".toList, mdEntryType := some (.ok '0'),
       mdUpdateAction := some (.ok '2'), mdEntryPx := some (.ok 9), mdEntrySize := some (.ok 3) }]

/-- An increment of another trade, -/
def laterIncrement : MarketDataIncrementalRefresh ℕ :=
  .ofGroups
    [{ symbol := some "BTCUSDT".toList, mdEntryType := some (.ok '2'), mdEntryPx := some (.ok 8),
       mdEntrySize := some (.ok 1), tradeID := some "18".toList, aggressorSide := some (.ok '2') }]

/-- and that trade. -/
def laterTrade : Core.Trade := ⟨800, 100000, 18, .sell, emptyChars⟩

/-- The two, as they are shown. -/
def sampleRun : List (ProgramEvent ℕ) :=
  shown sampleSnapshot sampleIncrement sampleBook.toVector 1 [sampleTrade]

theorem trace_sampleRun : (program sampleTicks 100 .empty).Trace sampleRun :=
  trace_shown (b := sampleBook) (r := RingBuffer.empty.pushBack sampleTrade) rfl rfl rfl

end Sample

/-! ## What the program is for -/

/-- **The program does what it is for**: whatever can be seen of it can be seen
of one whose messages are applied, and whose copies are made, in one go. -/
theorem program_refines (h : (program toUint64 maxDepth b₀).Trace t) :
    (programSpec toUint64 maxDepth b₀).Trace t :=
  (((orderCodes toUint64 maxDepth).refines b₀).beside ((tradeCodes toUint64).refines _)
    orderPart tradePart).trace h

/-- A run in which a book and a trade are drawn. -/
theorem program_refines_shown :
    (∃ rows, .order (.drawn rows) ∈ sampleRun) ∧ (∃ trades, .trade (.drawn trades) ∈ sampleRun)
      ∧ (programSpec sampleTicks 100 .empty).Trace sampleRun :=
  ⟨⟨sampleBook.toVector, by simp [sampleRun, shown]⟩, ⟨[sampleTrade], by simp [sampleRun, shown]⟩,
    program_refines trace_sampleRun⟩

theorem orderSeen_works (h : (program toUint64 maxDepth b₀).Trace t) :
    Works (Core.OrderBook.applyMessage toUint64 (isBookClearNeeded maxDepth))
      Core.OrderBook.toVector b₀ (orderSeen t) :=
  (orderCodes toUint64 maxDepth).works (trace_left_of_beside h)

theorem tradeSeen_works (h : (program toUint64 maxDepth b₀).Trace t) :
    Works (TradeBox.onTrade toUint64) RingBuffer.items .empty (tradeSeen t) :=
  (tradeCodes toUint64).works (trace_right_of_beside h)

/-- **Each box takes what `FixApp` put on its queue**: of the messages of a
session thread, the first ones, in their order. -/
theorem queues_in_order (h : (program toUint64 maxDepth b₀).Trace t) (c : ℕ) :
    (orderSeen t).takenFrom c <+: (queuesOf c t).orderQueue
      ∧ (tradeSeen t).takenFrom c <+: (queuesOf c t).tradeQueue := by
  rw [← (enqueued_eq t c).1, ← (enqueued_eq t c).2]
  exact ⟨(orderSeen_works h).inOrder c, (tradeSeen_works h).inOrder c⟩

/-- Two messages of each session are delivered, one session between the other,
and then taken. -/
def twiceRun : List (ProgramEvent ℕ) :=
  [.delivered 0 ⟨pxSessionQualifier, .snapshot sampleSnapshot⟩,
    .delivered 1 ⟨txSessionQualifier, .increment sampleIncrement⟩,
    .delivered 0 ⟨pxSessionQualifier, .increment sampleDelete⟩,
    .delivered 1 ⟨txSessionQualifier, .increment laterIncrement⟩]
    ++ (handledOnce 0 (MarketMessageVariant.snapshot sampleSnapshot) 0
      ++ handledOnce 0 (MarketMessageVariant.increment sampleDelete) 0).map .order
    ++ (handledOnce 1 sampleIncrement 1 ++ handledOnce 1 laterIncrement 1).map .trade

/-- Two messages of one thread are put on the queue and then handled. -/
theorem run_of_two {M ε ρ σ : Type} {handler : M → Resumption σ (Except ε Unit)}
    {reader : Resumption σ ρ} {s₀ s s₁ s₂ : σ} (c : ℕ) {msg₁ msg₂ : M}
    (h₁ : (handler msg₁).run s = (.ok (), s₁)) (h₂ : (handler msg₂).run s₁ = (.ok (), s₂)) :
    ∃ k, (box handler reader s₀).Run (.init, Monitor.unattended s)
      ([.enqueued c msg₁, .enqueued c msg₂]
        ++ (handledOnce c msg₁ ((handler msg₁).told s)
          ++ handledOnce c msg₂ ((handler msg₂).told s₁)).map .own) (k, Monitor.unattended s₂) := by
  have hput := (Machine.Run.single (S := box handler reader s₀)
    (step_offered (s := s) c msg₁)).trans
      (Machine.Run.single (AttachStep.visible (BoxStep.enqueue c msg₂)))
  rw [BoxClient.backlog_offered] at hput
  have hback : ∀ msgs : List M,
      Function.update (BoxClient.offered c msg₁ : BoxClient M ε ρ).backlog c msgs c = msgs :=
    fun msgs => Function.update_self _ _ _
  have hfirst : (box handler reader s₀).Run _ _ _ := run_of_message (c := c)
    (k := ⟨Function.update (BoxClient.offered c msg₁).backlog c [msg₁, msg₂], false, .loop,
      .initial, .elsewhere⟩) rfl rfl (hback [msg₁, msg₂]) h₁
  rw [Function.update_idem] at hfirst
  have hsecond : (box handler reader s₀).Run _ _ _ := run_of_message (c := c)
    (k := ⟨Function.update (BoxClient.offered c msg₁).backlog c [msg₂], false, .loop,
      .initial, .elsewhere⟩) rfl rfl (hback [msg₂]) h₂
  rw [List.map_append]
  exact ⟨_, hput.trans (hfirst.trans hsecond)⟩

theorem trace_twiceRun : (program sampleTicks 100 .empty).Trace twiceRun := by
  have horder := orderCodes sampleTicks 100
  have htrade := tradeCodes sampleTicks
  have hfilled : (Core.OrderBook.applyMessage sampleTicks (isBookClearNeeded 100)
      (.snapshot sampleSnapshot)).run .empty = .ok () sampleBook := rfl
  have hdelete : (Core.OrderBook.applyMessage sampleTicks (isBookClearNeeded 100)
      (.increment sampleDelete)).run sampleBook = .ok () .empty := rfl
  have hrecorded : (TradeBox.onTrade sampleTicks sampleIncrement).run .empty
      = .ok () (RingBuffer.empty.pushBack sampleTrade) := rfl
  have hlater : (TradeBox.onTrade sampleTicks laterIncrement).run
      (RingBuffer.empty.pushBack sampleTrade)
        = .ok () ((RingBuffer.empty.pushBack sampleTrade).pushBack laterTrade) := rfl
  obtain ⟨k, hk⟩ : ∃ k, (orderBox sampleTicks 100 .empty).Run _ _ (k, _) :=
    run_of_two 0 (horder.run_of_ok hfilled) (horder.run_of_ok hdelete)
  obtain ⟨k', hk'⟩ : ∃ k, (tradeBox sampleTicks).Run _ _ (k, _) :=
    run_of_two 1 (htrade.run_of_ok hrecorded) (htrade.run_of_ok hlater)
  exact ⟨_, reaches_of_parts (t := twiceRun) hk hk'⟩

/-- Both are taken in their order. -/
theorem queues_in_order_shown :
    (orderSeen twiceRun).takenFrom 0 = [.snapshot sampleSnapshot, .increment sampleDelete]
      ∧ ((orderSeen twiceRun).takenFrom 0 <+: (queuesOf 0 twiceRun).orderQueue
        ∧ (tradeSeen twiceRun).takenFrom 0 <+: (queuesOf 0 twiceRun).tradeQueue)
      ∧ (tradeSeen twiceRun).takenFrom 1 = [sampleIncrement, laterIncrement]
      ∧ (orderSeen twiceRun).takenFrom 1 <+: (queuesOf 1 twiceRun).orderQueue
        ∧ (tradeSeen twiceRun).takenFrom 1 <+: (queuesOf 1 twiceRun).tradeQueue :=
  ⟨rfl, queues_in_order trace_twiceRun 0, rfl, queues_in_order trace_twiceRun 1⟩

/-! ## The book on the screen -/

variable (toUint64 maxDepth b₀) in
/-- The book after messages, or after the one that threw. -/
def bookAfter (msgs : List (MarketMessageVariant δ)) : Core.OrderBook :=
  (Resumption.outcome
    (Core.OrderBook.applyMessages toUint64 (isBookClearNeeded maxDepth) msgs) b₀).2

/-- **What is drawn of the book** is the book after the first `k` messages
taken. A drawing knows of every message announced before it began and of none
not yet taken, and of no fewer than the drawing before it. -/
theorem book_drawn (h : (program toUint64 maxDepth b₀).Trace t) :
    ∃ ks : List ℕ, ks.Pairwise (· ≤ ·)
      ∧ List.Forall₂ (fun v k => v.postedBefore ≤ k ∧ k ≤ v.takenBefore
          ∧ v.takenBefore ≤ (orderSeen t).taken.length
          ∧ v.drawn = (bookAfter toUint64 maxDepth b₀ ((orderSeen t).taken.take k)).toVector)
        (orderSeen t).drawings ks := by
  obtain ⟨ks, hks, hshows⟩ := (orderSeen_works h).drawings
  refine ⟨ks, hks, hshows.imp (fun v k hv => ⟨hv.postedBefore_le, hv.known, hv.taken_le, ?_⟩)⟩
  rw [hv.drawn, stateAfter, handleAll_applyMessage, bookAfter]

/-- One drawing, of the book after the snapshot. -/
theorem book_drawn_shown :
    (orderSeen sampleRun).drawings = [⟨1, 1, 1, sampleBook.toVector⟩]
      ∧ ∃ ks : List ℕ, ks.Pairwise (· ≤ ·)
        ∧ List.Forall₂ (fun v k => v.postedBefore ≤ k ∧ k ≤ v.takenBefore
            ∧ v.takenBefore ≤ (orderSeen sampleRun).taken.length
            ∧ v.drawn = (bookAfter sampleTicks 100 .empty
              ((orderSeen sampleRun).taken.take k)).toVector)
          (orderSeen sampleRun).drawings ks :=
  ⟨rfl, book_drawn trace_sampleRun⟩

/-- A session that never connects again keeps its queue calm. -/
theorem calmOrders_of_only (h : (program toUint64 maxDepth b₀).Trace t) {c : ℕ}
    (honly : ∀ c', c' ≠ c → (queuesOf c' t).orderQueue = []) : CalmOrders t :=
  calm_of_only (fun c' hc' => (enqueued_eq t c').1.trans (honly c' hc'))
    ((orderCodes toUint64 maxDepth).inOrder (trace_left_of_beside h))

/-- **The screen catches up.** However many session threads put messages on
the order queue, if it is calm, a drawing that began after as many redraws as
there are messages is of the book all of them make, in the order in which they
were put there. -/
theorem screen_catches_up (h : (program toUint64 maxDepth b₀).Trace t) (hcalm : CalmOrders t)
    {v : Drawing (List Core.BidAsk)} (hv : v ∈ (orderSeen t).drawings)
    (hposted : v.postedBefore = (queues t).orderQueue.length) :
    ∃ b, (Core.OrderBook.applyMessages toUint64 (isBookClearNeeded maxDepth)
        (queues t).orderQueue).run b₀ = .ok () b
      ∧ v.drawn = b.toVector := by
  have hfirst := taken_prefix_of_calm
    ((orderCodes toUint64 maxDepth).inOrder (trace_left_of_beside h)) hcalm
  rw [← (everythingPut_eq t).1] at hposted ⊢
  obtain ⟨b, hb, hdrawn⟩ := (orderSeen_works h).drawn_all hfirst hv hposted
  rw [handleAll_applyMessage] at hb
  exact ⟨b, Resumption.run_of_outcome_ok hb, hdrawn⟩

/-- The snapshot is sent again when the session connects for the second time. -/
def reconnectedRun : List (ProgramEvent ℕ) :=
  shownAtOnce [(0, .snapshot sampleSnapshot), (2, .snapshot sampleSnapshot)] sampleBook.toVector

/-- The screen has caught up with both connections. -/
theorem screen_catches_up_reconnected :
    (queues reconnectedRun).orderQueue = [.snapshot sampleSnapshot, .snapshot sampleSnapshot]
      ∧ ∃ b, (Core.OrderBook.applyMessages sampleTicks (isBookClearNeeded 100)
          (queues reconnectedRun).orderQueue).run .empty = .ok () b
        ∧ sampleBook.toVector = b.toVector := by
  have hmem : (⟨2, 2, 2, sampleBook.toVector⟩ : Drawing _) ∈ (orderSeen reconnectedRun).drawings :=
    List.mem_singleton.mpr rfl
  have htrace : (program sampleTicks 100 .empty).Trace reconnectedRun :=
    trace_shownAtOnce (b := sampleBook) rfl
  exact ⟨rfl, screen_catches_up htrace (calmOrders_shownAtOnce _ _) hmem rfl⟩

/-! ## The trades on the screen -/

section Trades

open TradeBox

theorem handleAll_onTrade : handleAll (onTrade toUint64) = onTrades toUint64 := by
  funext msgs
  induction msgs with
  | nil => rfl
  | cons msg msgs ih =>
    rw [handleAll, ih]
    rfl

end Trades

/-! ## The end of the workers -/

/-- **A worker ends for a reason**: it returns when it was asked to stop and
every message it took was handled, it keeps an exception when the handler
threw it on the last message it took, and once asked to stop it takes one
message more at most. -/
structure EndsForReason {M ε ρ σ : Type} (handler : M → EStateM ε σ Unit) (s₀ : σ)
    (w : Seen M ε ρ) : Prop where
  returned : w.returned = true → w.takenAtStop.isSome = true
    ∧ ∃ s, (handleAll handler w.taken).run s₀ = .ok () s
  threw : ∀ e, w.threw = some e → ∃ pre msg s s', w.taken = pre ++ [msg]
    ∧ (handleAll handler pre).run s₀ = .ok () s ∧ (handler msg).run s = .error e s'
  stop : ∀ d, w.takenAtStop = some d → w.taken.length ≤ d + 1

theorem Works.endsForReason {M ε ρ σ : Type} {spec : M → EStateM ε σ Unit} {view : σ → ρ} {s₀ : σ}
    {w : Seen M ε ρ} (h : Works spec view s₀ w) : EndsForReason spec s₀ w := by
  refine ⟨fun hr => ?_, fun e he => ?_, h.stop⟩
  · obtain ⟨hstop, s, hs⟩ := h.returned hr
    exact ⟨hstop, s, Resumption.run_of_outcome_ok hs⟩
  · obtain ⟨pre, msg, s, s', htaken, hpre, hmsg⟩ := h.threw e he
    exact ⟨pre, msg, s, s', htaken, Resumption.run_of_outcome_ok hpre,
      Resumption.run_of_outcome_error hmsg⟩

/-- **Both workers end for a reason**, whatever the rest of the program does. -/
theorem workers_end (h : (program toUint64 maxDepth b₀).Trace t) :
    EndsForReason (Core.OrderBook.applyMessage toUint64 (isBookClearNeeded maxDepth)) b₀
        (orderSeen t)
      ∧ EndsForReason (TradeBox.onTrade toUint64) .empty (tradeSeen t) :=
  ⟨(orderSeen_works h).endsForReason, (tradeSeen_works h).endsForReason⟩

section Sample

/-- A snapshot without the field that counts its entries. -/
def uncountedSnapshot : MarketDataSnapshotFullRefresh ℕ := ⟨some "BTCUSDT".toList, none, []⟩

/-- The book is filled, the worker fails on the second snapshot. -/
def failedRun : List (ProgramEvent ℕ) :=
  [.delivered 0 ⟨pxSessionQualifier, .snapshot sampleSnapshot⟩,
    .order (.dequeued 0 (.snapshot sampleSnapshot)), .order .posted,
    .delivered 0 ⟨pxSessionQualifier, .snapshot uncountedSnapshot⟩,
    .order (.dequeued 0 (.snapshot uncountedSnapshot)),
    .order (.threw (.fieldNotFound Tag.noMDEntries))]

/-- That leaves the book empty. -/
theorem exists_run_failed :
    ∃ k, (orderBox sampleTicks 100 .empty).Run (.init, Monitor.unattended .empty)
      (failedRun.filterMap orderPart) (k, Monitor.unattended .empty) ∧ k.ui = .elsewhere := by
  have hcodes := orderCodes sampleTicks 100
  have hfilled : Resumption.outcome (handleAll (Core.OrderBook.applyMessage sampleTicks false)
      ([(0, .snapshot sampleSnapshot)].map Prod.snd)) .empty = (.ok (), sampleBook) := rfl
  have hfailed : (Core.OrderBook.applyMessage sampleTicks false (.snapshot uncountedSnapshot)).run
      sampleBook = .error (.fieldNotFound Tag.noMDEntries) .empty := rfl
  have htaken : (orderBox sampleTicks 100 .empty).Run _ _ _ :=
    (hcodes.run_atOnce hfilled).trans (run_of_first 0 (.snapshot uncountedSnapshot))
  exact ⟨_, htaken.trans (run_of_thrown rfl (hcodes.run_of_error hfailed)), rfl⟩

/-- Then the trade worker is asked to stop when it is about to take an increment,
which it does before it returns. -/
def endedRun : List (ProgramEvent ℕ) :=
  failedRun ++ [.delivered 1 ⟨txSessionQualifier, .increment sampleIncrement⟩,
    .trade .stopRequested] ++ (handledOnce 1 sampleIncrement 1 ++ [BoxAct.returned]).map .trade

theorem trace_endedRun : (program sampleTicks 100 .empty).Trace endedRun := by
  have hcodes := tradeCodes sampleTicks
  have hrecorded : (TradeBox.onTrade sampleTicks sampleIncrement).run .empty
      = .ok () (RingBuffer.empty.pushBack sampleTrade) := rfl
  have hstop : (tradeBox sampleTicks).Run (.init, Monitor.unattended .empty) _ _ :=
    (run_of_polling 1 sampleIncrement).trans
      (Machine.Run.single (AttachStep.visible BoxStep.requestStop))
  have hback : (BoxClient.offered 1 sampleIncrement :
      BoxClient _ Exception (List Core.Trade)).backlog 1 = _ :=
    BoxClient.backlog_offered 1 sampleIncrement
  have htrade := (hstop.trans (run_of_polled (c := 1) rfl hback (hcodes.run_of_ok hrecorded))).trans
    (Machine.Run.single (AttachStep.visible (BoxStep.leave rfl rfl)))
  obtain ⟨k, horder, -⟩ := exists_run_failed
  exact ⟨_, reaches_of_parts (t := endedRun) horder htrade⟩

end Sample

/-- The one worker has kept an exception, the other has taken its one message
more and returned. -/
theorem workers_end_shown :
    (orderSeen endedRun).threw = some (.fieldNotFound Tag.noMDEntries)
      ∧ (tradeSeen endedRun).takenAtStop = some 0 ∧ (tradeSeen endedRun).taken = [sampleIncrement]
      ∧ (tradeSeen endedRun).returned = true
      ∧ EndsForReason (Core.OrderBook.applyMessage sampleTicks (isBookClearNeeded 100)) .empty
          (orderSeen endedRun)
        ∧ EndsForReason (TradeBox.onTrade sampleTicks) .empty (tradeSeen endedRun) :=
  ⟨rfl, rfl, rfl, rfl, workers_end trace_endedRun⟩

/-- A box that has been asked to stop. -/
theorem exists_run_ended {M ε ρ σ : Type} {handler : M → Resumption σ (Except ε Unit)}
    {reader : Resumption σ ρ} {spec : M → EStateM ε σ Unit} {asks : ℕ → σ → σ → Prop}
    {view : σ → ρ} {s₀ : σ} (hcodes : Codes handler reader spec asks view)
    {t : List (BoxEvent M ε ρ)}
    {q : BoxClient M ε ρ × Monitor.Locked BoxThread σ (BoxOp M) (BoxReply ε ρ)}
    (h : (box handler reader s₀).Reaches t q) :
    ∃ (u : List (BoxAct M ε ρ)) (q' : _),
      (box handler reader s₀).Run q ((.stopRequested :: u).map .own) q' ∧ q'.1.Ended
        ∧ ∀ act ∈ u, ∀ i msg, act ≠ .dequeued i msg := by
  obtain ⟨k, c⟩ := q
  have hstop : (box handler reader s₀).Run (k, c) [.own .stopRequested]
      ({ k with stopRequested := true }, c) :=
    Machine.Run.refl.tail (l := some _) (AttachStep.visible BoxStep.requestStop)
  obtain ⟨u, k', c', hmore, hended, hnone⟩ := hcodes.ends (h.run hstop) rfl
  exact ⟨u, (k', c'), hstop.trans hmore, hended, hnone⟩

/-- **The program can always be shut down.** From every state it can be in,
both boxes can be asked to stop and both workers end, with no message more
taken off a queue. -/
theorem shutdown_possible {p : OrderBookBox δ × TradeListBox δ}
    (h : (program toUint64 maxDepth b₀).Reaches t p) :
    ∃ u p', (program toUint64 maxDepth b₀).Run p u p' ∧ p'.1.1.Ended ∧ p'.2.1.Ended
      ∧ (∀ c d, .delivered c d ∉ u) ∧ (∀ i msg, .order (.dequeued i msg) ∉ u)
      ∧ ∀ i msg, .trade (.dequeued i msg) ∉ u := by
  obtain ⟨p, q⟩ := p
  obtain ⟨⟨p₀, q₀⟩, ⟨hp₀, hq₀⟩, hrun⟩ := h
  obtain ⟨u, p', hu, hp', hnone⟩ := exists_run_ended (orderCodes toUint64 maxDepth)
    ⟨p₀, hp₀, run_left_of_beside hrun⟩
  obtain ⟨v, q', hv, hq', hnone'⟩ := exists_run_ended (tradeCodes toUint64)
    ⟨q₀, hq₀, run_right_of_beside hrun⟩
  refine ⟨_, (p', q'), (run_of_order hu q).trans (run_of_trade hv p'), hp', hq', ?_, ?_, ?_⟩
  · intro c d hmem
    rcases List.mem_append.mp hmem with hmem | hmem
    · obtain ⟨act, -, hact⟩ := List.mem_map.mp hmem
      cases hact
    · obtain ⟨act, -, hact⟩ := List.mem_map.mp hmem
      cases hact
  · intro i msg hmem
    rcases List.mem_append.mp hmem with hmem | hmem
    · obtain ⟨act, hact, heq⟩ := List.mem_map.mp hmem
      obtain rfl := ProgramEvent.order.inj heq
      rcases List.mem_cons.mp hact with hact | hact
      · cases hact
      · exact hnone _ hact i msg rfl
    · obtain ⟨act, -, hact⟩ := List.mem_map.mp hmem
      cases hact
  · intro i msg hmem
    rcases List.mem_append.mp hmem with hmem | hmem
    · obtain ⟨act, -, hact⟩ := List.mem_map.mp hmem
      cases hact
    · obtain ⟨act, hact, heq⟩ := List.mem_map.mp hmem
      obtain rfl := ProgramEvent.trade.inj heq
      rcases List.mem_cons.mp hact with hact | hact
      · cases hact
      · exact hnone' _ hact i msg rfl

/-- The order-book worker has the lock for a snapshot, and the UI thread waits for
it. -/
def heldRun : List (ProgramEvent ℕ) :=
  [.delivered 0 ⟨pxSessionQualifier, .snapshot sampleSnapshot⟩,
    .order (.dequeued 0 (.snapshot sampleSnapshot)), .order .drawing]

theorem exists_reaches_held : ∃ p, (program sampleTicks 100 .empty).Reaches heldRun p
    ∧ p.1.2.holder = some .worker ∧ p.1.2.place .ui = .waiting .copy := by
  have htake : (orderBox sampleTicks 100 .empty).Run (.init, Monitor.unattended .empty) _ _ :=
    run_of_first 0 (.snapshot sampleSnapshot)
  have hlocked := (htake.silent (AttachStep.joint rfl (BoxStep.handle rfl)
    (Monitor.LockedStep.call _ rfl))).silent
      (AttachStep.object (Monitor.LockedStep.acquire (i := .worker) rfl rfl))
  have hdraw := hlocked.trans (Machine.Run.single (AttachStep.visible (BoxStep.draw rfl)))
  have hwaiting := hdraw.silent
    (AttachStep.joint rfl (BoxStep.copy rfl) (Monitor.LockedStep.call _ rfl))
  exact ⟨_, reaches_of_parts (t := heldRun) hwaiting Machine.Run.refl, rfl, rfl⟩

/-- It can from there. -/
theorem shutdown_possible_shown :
    ∃ p, (program sampleTicks 100 .empty).Reaches heldRun p
      ∧ p.1.2.holder = some .worker ∧ p.1.2.place .ui = .waiting .copy
      ∧ ∃ u p', (program sampleTicks 100 .empty).Run p u p' ∧ p'.1.1.Ended ∧ p'.2.1.Ended
        ∧ (∀ c d, .delivered c d ∉ u) ∧ (∀ i msg, .order (.dequeued i msg) ∉ u)
        ∧ ∀ i msg, .trade (.dequeued i msg) ∉ u := by
  obtain ⟨p, hp, hholder, hplace⟩ := exists_reaches_held
  exact ⟨p, hp, hholder, hplace, shutdown_possible hp⟩

end Ui
