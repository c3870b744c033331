import Trader.FailedMessage
import Trader.BookVector
import Trader.Resumption

set_option autoImplicit false

/-!
# What the workers run, step by step

`apply_snapshot`, `apply_increment` and `on_trade` again, this time as the
steps they take on the book and on the ring: a map is cleared in a step of
its own, an entry is read and a level set in another, and other threads may
come between any two. The same is done for the two copies the UI thread
makes, `to_vector`, which fetches row after row, and that of the ring.
`on_trade` asks for a redraw of its own for every trade it records, while it
holds the lock and before it goes on to the next entry.

Run without interruption each does what the function it stands for does
(`Resumption.Implements`), whether it ends or throws, and a copy is whole. The
book asks for no redraws meanwhile, the ring for one for every trade it has
been given (`TradeBox.Records`).
-/

open Fix Binance EarlyExit Resumption

variable {δ σ : Type}

/-- A program on `σ` that may throw, as steps. -/
abbrev Steps (σ α : Type) : Type := Resumption σ (Except Exception α)

namespace Binance

/-- The counted loop over the entries of a message. -/
abbrev forEntriesSteps {β γ : Type} (body : ℕ → γ → β → Steps σ β) (num : ℕ) (groups : List γ)
    (acc : β) : Steps σ β :=
  Resumption.forGroups (.fieldNotFound Tag.noMDEntries) body num 1 groups acc

/-- `skipOthers`, when what is done with a kept entry takes steps. -/
def skipOthersSteps (act : SymbolEnum → IncrementEntry δ → Steps σ Unit)
    (symbol : Option SymbolEnum) (group : IncrementEntry δ) : Steps σ Unit :=
  match symbol with
  | none => ret (.ok ())
  | some sym => if sym ≠ .btcusdt then ret (.ok ()) else act sym group

/-- `incrementBody`. -/
def incrementBodySteps (act : SymbolEnum → IncrementEntry δ → Steps σ Unit) (i : ℕ)
    (group : IncrementEntry δ) (symbol : Option SymbolEnum) : Steps σ (Option SymbolEnum) :=
  (atom (updateSymbol i group.symbol symbol)).seq fun symbol =>
    (skipOthersSteps act symbol group).seq fun _ => ret (.ok symbol)

/-- `incrementLoop`. -/
def incrementLoopSteps (act : SymbolEnum → IncrementEntry δ → Steps σ Unit)
    (msg : MarketDataIncrementalRefresh δ) : Steps σ Unit :=
  (atom (numEntries msg.noMDEntries)).seq fun num =>
    (forEntriesSteps (incrementBodySteps act) num msg.groups none).seq fun _ => ret (.ok ())

/-- **The entry loop takes the steps of its entries**, and tells what they
tell. -/
theorem implements_incrementLoop {R : ℕ → σ → σ → Prop} (hR : Additive R)
    {act : SymbolEnum → IncrementEntry δ → Steps σ Unit}
    {act' : SymbolEnum → IncrementEntry δ → EStateM Exception σ Unit}
    (h : ∀ g, Implements R (act .btcusdt g) (act' .btcusdt g))
    (msg : MarketDataIncrementalRefresh δ) :
    Implements R (incrementLoopSteps act msg) (incrementLoop act' msg) := by
  have hskip : ∀ symbol g,
      Implements R (skipOthersSteps act symbol g) (skipOthers act' symbol g) := by
    intro symbol g
    cases symbol with
    | none => exact implements_ret hR ()
    | some sym =>
      unfold skipOthersSteps skipOthers
      by_cases hsym : sym ≠ .btcusdt
      · simp only [if_pos hsym]
        exact implements_ret hR ()
      · simp only [if_neg hsym]
        obtain rfl := not_not.mp hsym
        exact h g
  have hbody : ∀ i g symbol,
      Implements R (incrementBodySteps act i g symbol) (incrementBody act' i g symbol) :=
    fun i g symbol => (implements_readOnly hR (readOnly_updateSymbol i g.symbol symbol)).seq hR
      fun symbol => (hskip symbol g).seq hR fun _ => implements_ret hR symbol
  exact (implements_readOnly hR (readOnly_numEntries _)).seq hR fun num =>
    (Implements.forGroups hR hbody num 1 msg.groups none).seq hR fun _ => implements_ret hR ()

end Binance

namespace Core.OrderBook

variable (toUint64 : δ → UInt64 → UInt64)

/-! ## The book -/

/-- `replaceBook`: the maps are cleared one after the other, and the entries
inserted one by one. -/
def replaceBookSteps (sym : SymbolEnum) (msg : MarketDataSnapshotFullRefresh δ) :
    Steps OrderBook Unit :=
  (atom (onBidMap (modify (fun _ => ∅)))).seq fun _ =>
    (atom (onAskMap (modify (fun _ => ∅)))).seq fun _ =>
      (atom (numEntries msg.noMDEntries)).seq fun num =>
        forEntriesSteps (fun i g u => atom (applySnapshotEntry toUint64 sym i g u)) num msg.groups
          ()

/-- `applySnapshot`. -/
def applySnapshotSteps (msg : MarketDataSnapshotFullRefresh δ) : Steps OrderBook Unit :=
  (atom (get Tag.symbol msg.symbol)).seq fun symbol =>
    (atom (lift (Symbol.fromStr symbol))).seq fun sym =>
      if sym ≠ .btcusdt then ret (.ok ()) else replaceBookSteps toUint64 sym msg

theorem implements_applySnapshot (msg : MarketDataSnapshotFullRefresh δ) :
    Implements Silent (applySnapshotSteps toUint64 msg) (applySnapshot toUint64 msg) := by
  refine (silent_atom _).seq additive_silent fun symbol =>
    (silent_atom _).seq additive_silent fun sym => ?_
  by_cases hsym : sym ≠ .btcusdt
  · rw [if_pos hsym, if_pos hsym]
    exact implements_ret additive_silent ()
  · rw [if_neg hsym, if_neg hsym]
    exact (silent_atom _).seq additive_silent fun _ =>
      (silent_atom _).seq additive_silent fun _ =>
        (silent_atom _).seq additive_silent fun num =>
          Implements.forGroups additive_silent (fun _ _ _ => silent_atom _) num 1 msg.groups ()

section Side

variable {cmp : UInt64 → UInt64 → Ordering} [Std.TransCmp cmp]

/-- `updateLevel`: a clear for the top of the book is a step before the
level is set. -/
def updateLevelSteps (symbol : SymbolEnum) (group : IncrementEntry δ) (isBookClearNeeded : Bool)
    (px : UInt64) (act : Char) : Steps (BtreeMap cmp) Unit :=
  if act = mdUpdateActionDelete then
    atom (modify (·.erase px))
  else if act = mdUpdateActionChange then
    (atom (clearLevels isBookClearNeeded)).seq fun _ => atom (setLevel toUint64 symbol group px)
  else if act = mdUpdateActionNew then
    atom (setLevel toUint64 symbol group px)
  else
    ret (.ok ())

/-- `handlePriceLevelUpdate`. -/
def handlePriceLevelUpdateSteps (symbol : SymbolEnum) (action : FieldBase Char)
    (group : IncrementEntry δ) (isBookClearNeeded : Bool) : Steps (BtreeMap cmp) Unit :=
  (atom (get Tag.mdEntryPx group.mdEntryPx)).seq fun ePx =>
    (atom (getValue Tag.mdEntryPx ePx)).seq fun pxValue =>
      (atom (getValue Tag.mdUpdateAction action)).seq fun act =>
        updateLevelSteps toUint64 symbol group isBookClearNeeded
          (toUint64 pxValue (Config.getPriceTicksPerUnit symbol)) act

theorem implements_updateLevel (symbol : SymbolEnum) (group : IncrementEntry δ)
    (isBookClearNeeded : Bool) (px : UInt64) (act : Char) :
    Implements Silent (updateLevelSteps toUint64 symbol group isBookClearNeeded px act)
      (updateLevel toUint64 symbol group isBookClearNeeded px act :
        EStateM Exception (BtreeMap cmp) Unit) := by
  unfold updateLevelSteps updateLevel
  split
  · exact silent_atom _
  · split
    · exact (silent_atom _).seq additive_silent fun _ => silent_atom _
    · split
      · exact silent_atom _
      · exact implements_ret additive_silent ()

theorem implements_handlePriceLevelUpdate (symbol : SymbolEnum) (action : FieldBase Char)
    (group : IncrementEntry δ) (isBookClearNeeded : Bool) :
    Implements Silent
      (handlePriceLevelUpdateSteps toUint64 symbol action group isBookClearNeeded)
      (handlePriceLevelUpdate toUint64 symbol action group isBookClearNeeded :
        EStateM Exception (BtreeMap cmp) Unit) :=
  (silent_atom _).seq additive_silent fun _ => (silent_atom _).seq additive_silent fun _ =>
    (silent_atom _).seq additive_silent fun _ => implements_updateLevel toUint64 symbol group _ _ _

end Side

/-- `updateSide`. -/
def updateSideSteps (symbol : SymbolEnum) (action : FieldBase Char) (group : IncrementEntry δ)
    (isBookClearNeeded : Bool) (tp : Char) : Steps OrderBook Unit :=
  if tp = mdEntryTypeBid then
    (handlePriceLevelUpdateSteps toUint64 symbol action group isBookClearNeeded).zoom bidMap
      (fun m b => { b with bidMap := m })
  else if tp = mdEntryTypeOffer then
    (handlePriceLevelUpdateSteps toUint64 symbol action group isBookClearNeeded).zoom askMap
      (fun m b => { b with askMap := m })
  else
    ret (.ok ())

/-- `applyIncrementEntry`. -/
def applyIncrementEntrySteps (isBookClearNeeded : Bool) (symbol : SymbolEnum)
    (group : IncrementEntry δ) : Steps OrderBook Unit :=
  (atom (get Tag.mdEntryType group.mdEntryType)).seq fun eTp =>
    (atom (get Tag.mdUpdateAction group.mdUpdateAction)).seq fun action =>
      (atom (getValue Tag.mdEntryType eTp)).seq fun tp =>
        updateSideSteps toUint64 symbol action group isBookClearNeeded tp

theorem implements_updateSide (symbol : SymbolEnum) (action : FieldBase Char)
    (group : IncrementEntry δ) (isBookClearNeeded : Bool) (tp : Char) :
    Implements Silent (updateSideSteps toUint64 symbol action group isBookClearNeeded tp)
      (updateSide toUint64 symbol action group isBookClearNeeded tp) := by
  unfold updateSideSteps updateSide
  split
  · exact (implements_handlePriceLevelUpdate toUint64 symbol action group _).zoom
      (fun _ => rfl) (fun _ _ => rfl) (fun _ _ _ => rfl)
  · split
    · exact (implements_handlePriceLevelUpdate toUint64 symbol action group _).zoom
        (fun _ => rfl) (fun _ _ => rfl) (fun _ _ _ => rfl)
    · exact implements_ret additive_silent ()

/-- `applyMessage`. -/
def applyMessageSteps (isBookClearNeeded : Bool) : MarketMessageVariant δ → Steps OrderBook Unit
  | .snapshot msg => applySnapshotSteps toUint64 msg
  | .increment msg => incrementLoopSteps (applyIncrementEntrySteps toUint64 isBookClearNeeded) msg

/-- **Uninterrupted, the steps of a message are its application.** -/
theorem implements_applyMessage (isBookClearNeeded : Bool) (msg : MarketMessageVariant δ) :
    Implements Silent (applyMessageSteps toUint64 isBookClearNeeded msg)
      (applyMessage toUint64 isBookClearNeeded msg) := by
  cases msg with
  | snapshot msg => exact implements_applySnapshot toUint64 msg
  | increment msg =>
    refine implements_incrementLoop additive_silent (fun g => ?_) msg
    exact (silent_atom _).seq additive_silent fun _ => (silent_atom _).seq additive_silent fun _ =>
      (silent_atom _).seq additive_silent fun _ => implements_updateSide toUint64 _ _ g _ _

/-- `to_vector`, row by row: there are `row_count` of them, and each is
fetched from the maps as they are then. -/
def toVectorSteps : Resumption OrderBook (List BidAsk) :=
  copy (fun b => max b.bidMap.size b.askMap.size) rowAt

/-- **Uninterrupted, the rows fetched are the vector of the book.** -/
theorem run_toVectorSteps (b : OrderBook) : toVectorSteps.run b = (b.toVector, b) :=
  run_copy (toVector_laidOut b).length.symm (fun i => (toVector_getElem? b i).symm)

end Core.OrderBook

namespace Ui.TradeBox

variable (toUint64 : δ → UInt64 → UInt64)

/-! ## The ring -/

/-- `recordTrade`: the trade is put in the ring, and
`screen_.post_event(ftxui::Event::Custom)` follows. -/
def recordTradeSteps (symbol : SymbolEnum) (group : IncrementEntry δ) : Steps TradeRing Unit :=
  (atom (recordTrade toUint64 symbol group)).seq fun u => tell (ret (.ok u))

/-- `onEntryType`. -/
def onEntryTypeSteps (symbol : SymbolEnum) (group : IncrementEntry δ) (tp : Char) :
    Steps TradeRing Unit :=
  if tp = mdEntryTypeTrade then
    if group.aggressorSide.isSome then recordTradeSteps toUint64 symbol group
    else ret (.ok ())
  else
    ret (.ok ())

/-- `onTradeEntry`. -/
def onTradeEntrySteps (symbol : SymbolEnum) (group : IncrementEntry δ) : Steps TradeRing Unit :=
  (atom (get Tag.mdEntryType group.mdEntryType)).seq fun eType =>
    (atom (getValue Tag.mdEntryType eType)).seq fun tp =>
      onEntryTypeSteps toUint64 symbol group tp

/-- `onTrade`, entry by entry. -/
def onTradeSteps (msg : MarketDataIncrementalRefresh δ) : Steps TradeRing Unit :=
  incrementLoopSteps (onTradeEntrySteps toUint64) msg

/-- **A redraw for every trade**: as many are asked for as trades have been put
in the ring. -/
def Records (n : ℕ) (r r' : TradeRing) : Prop :=
  ∃ trades : List Core.Trade, trades.length = n ∧ r' = trades.foldl RingBuffer.pushBack r

theorem additive_records : Additive Records where
  zero r := ⟨[], rfl, rfl⟩
  add m n r r' r'' hm hn := by
    obtain ⟨trades, rfl, rfl⟩ := hm
    obtain ⟨more, rfl, rfl⟩ := hn
    exact ⟨trades ++ more, List.length_append, List.foldl_append.symm⟩

theorem implements_recordTrade (g : IncrementEntry δ) :
    Implements Records (recordTradeSteps toUint64 .btcusdt g)
      (recordTrade toUint64 .btcusdt g) := by
  refine implements_tell (fun r u r' h => ?_) (fun r e r' h => ?_)
  · obtain ⟨t, -, rfl⟩ := (recordTrade_ok_iff toUint64).mp h
    exact ⟨[t], rfl, rfl⟩
  · rw [atomic_recordTrade toUint64 .btcusdt g r e r' h]
    exact additive_records.zero r

/-- **Uninterrupted, the steps of an increment are `on_trade`**, with a redraw
for every trade it records. -/
theorem implements_onTrade (msg : MarketDataIncrementalRefresh δ) :
    Implements Records (onTradeSteps toUint64 msg) (onTrade toUint64 msg) := by
  refine implements_incrementLoop additive_records (fun g => ?_) msg
  refine (implements_readOnly additive_records (readOnly_get _ _)).seq additive_records fun eType =>
    (implements_readOnly additive_records (readOnly_getValue _ _)).seq additive_records fun tp => ?_
  unfold onEntryTypeSteps onEntryType
  split
  · split
    · exact implements_recordTrade toUint64 g
    · exact implements_ret additive_records ()
  · exact implements_ret additive_records ()

/-- `buffer_copy = trade_ring_`, trade by trade. -/
def copyRingSteps : Resumption TradeRing (List Core.Trade) :=
  copy (fun r => r.items.length) (fun r i => r.items[i]?)

theorem run_copyRingSteps (r : TradeRing) : copyRingSteps.run r = (r.items, r) :=
  run_copy rfl (fun _ => rfl)

end Ui.TradeBox
