import Std.Data.ExtTreeMap
import Trader.LastWrite
import Trader.EntryLoop

set_option autoImplicit false

/-!
# The order book

Two price-to-size maps, bids from the highest price down and asks from the
lowest up, fed by snapshots, which replace both, and by increments, which
edit them level by level. Each is translated from the member function of
`core::OrderBook` it is named after, in the monad of programs that keep
their state when they throw.

How a wire price becomes a tick count is a parameter here (`toUint64`):
everything in this module holds whatever the conversion computes.

The second half says what each function does to the levels a reader can
look up: which `KeyOp` an entry is (`levelOp`), and that a function that
ends normally has run the operations of its entries and nothing else.
-/

namespace Core

open Fix Binance EarlyExit

/-- The comparison of a map sorted by `std::less`. -/
def less (a b : UInt64) : Ordering := compare a b

/-- The comparison of a map sorted by `std::greater`. -/
def greater (a b : UInt64) : Ordering := compare b a

instance : Std.TransCmp less :=
  inferInstanceAs (Std.TransCmp (compare : UInt64 → UInt64 → Ordering))

instance : Std.LawfulEqCmp less :=
  inferInstanceAs (Std.LawfulEqCmp (compare : UInt64 → UInt64 → Ordering))

instance : Std.TransCmp greater :=
  inferInstanceAs (Std.TransCmp fun a b : UInt64 => compare b a)

instance : Std.LawfulEqCmp greater :=
  inferInstanceAs (Std.LawfulEqCmp fun a b : UInt64 => compare b a)

/-- `absl::btree_map<uint64_t, uint64_t, Compare>`, from price to size. -/
abbrev BtreeMap (cmp : UInt64 → UInt64 → Ordering) : Type :=
  Std.ExtTreeMap UInt64 UInt64 cmp

/-- `core::BidAsk`, a row of the book. -/
structure BidAsk where
  bidSz : UInt64
  bidPx : UInt64
  askPx : UInt64
  askSz : UInt64
  deriving DecidableEq

/-- `BidAsk::SENTINEL_`, `UINT64_MAX`. -/
def BidAsk.sentinel : UInt64 := 0xFFFFFFFFFFFFFFFF

/-- `core::OrderBook`. Its `temp_vars_` are written before they are read in
every call, and its mutex belongs to the threads that share a book. -/
structure OrderBook where
  /-- Bids, descending. -/
  bidMap : BtreeMap greater
  /-- Offers, ascending. -/
  askMap : BtreeMap less

namespace OrderBook

/-- A default-constructed book. -/
def empty : OrderBook := ⟨∅, ∅⟩

/-- The row for what the two iterators of `to_vector` point at. -/
def row (bid ask : Option (UInt64 × UInt64)) : BidAsk where
  bidSz := (bid.map Prod.snd).getD BidAsk.sentinel
  bidPx := (bid.map Prod.fst).getD BidAsk.sentinel
  askPx := (ask.map Prod.fst).getD BidAsk.sentinel
  askSz := (ask.map Prod.snd).getD BidAsk.sentinel

/-- The loop of `OrderBook::to_vector`, which runs until both iterators have
reached the end of their maps. -/
def toVectorLoop : List (UInt64 × UInt64) → List (UInt64 × UInt64) → List BidAsk
  | [], [] => []
  | bid :: bids, [] => row (some bid) none :: toVectorLoop bids []
  | [], ask :: asks => row none (some ask) :: toVectorLoop [] asks
  | bid :: bids, ask :: asks => row (some bid) (some ask) :: toVectorLoop bids asks

/-- `OrderBook::to_vector`. -/
def toVector (b : OrderBook) : List BidAsk :=
  toVectorLoop b.bidMap.toList b.askMap.toList

/-- The program of one side, run on the book. -/
def onBidMap {α : Type} : EStateM Exception (BtreeMap greater) α →
    EStateM Exception OrderBook α :=
  zoom bidMap (fun m b => { b with bidMap := m })

@[inherit_doc onBidMap]
def onAskMap {α : Type} : EStateM Exception (BtreeMap less) α →
    EStateM Exception OrderBook α :=
  zoom askMap (fun m b => { b with askMap := m })

variable {δ : Type} (toUint64 : δ → UInt64 → UInt64)

/-- The dispatch on the entry type in `OrderBook::apply_snapshot`. -/
def insertLevel (tp : Char) (px sz : UInt64) : EStateM Exception OrderBook Unit :=
  if tp = mdEntryTypeBid then
    onBidMap (modify (·.insert px sz))
  else if tp = mdEntryTypeOffer then
    onAskMap (modify (·.insert px sz))
  else
    pure ()  -- "unknown bid/offer type"

/-- The body of the loop in `OrderBook::apply_snapshot`. -/
def applySnapshotEntry (sym : SymbolEnum) (_i : ℕ) (group : SnapshotEntry δ)
    (_ : Unit) : EStateM Exception OrderBook Unit := do
  let eTp ← get Tag.mdEntryType group.mdEntryType
  let ePx ← get Tag.mdEntryPx group.mdEntryPx
  let eSz ← get Tag.mdEntrySize group.mdEntrySize
  let pxValue ← getValue Tag.mdEntryPx ePx
  let szValue ← getValue Tag.mdEntrySize eSz
  let tp ← getValue Tag.mdEntryType eTp
  insertLevel tp (toUint64 pxValue (Config.getPriceTicksPerUnit sym))
    (toUint64 szValue (Config.getSizeTicksPerUnit sym))

/-- `OrderBook::apply_snapshot` once the symbol is known to be `BTCUSDT`. -/
def replaceBook (sym : SymbolEnum) (msg : MarketDataSnapshotFullRefresh δ) :
    EStateM Exception OrderBook Unit := do
  onBidMap (modify (fun _ => ∅))
  onAskMap (modify (fun _ => ∅))
  let num ← numEntries msg.noMDEntries
  forEntries (applySnapshotEntry toUint64 sym) num msg.groups ()

/-- `OrderBook::apply_snapshot`. -/
def applySnapshot (msg : MarketDataSnapshotFullRefresh δ) :
    EStateM Exception OrderBook Unit := do
  let symbol ← get Tag.symbol msg.symbol
  let sym ← lift (Symbol.fromStr symbol)
  if sym ≠ .btcusdt then
    pure ()  -- "wrong symbol, skipping snapshot"
  else
    replaceBook toUint64 sym msg

/-- `if (is_book_clear_needed) bid_ask_map.clear()`. -/
def clearLevels {cmp : UInt64 → UInt64 → Ordering} (isBookClearNeeded : Bool) :
    EStateM Exception (BtreeMap cmp) Unit :=
  if isBookClearNeeded then modify (fun _ => ∅) else pure ()

/-- The case `MDUpdateAction_NEW` of `handle_price_level_update`, into which
the case `MDUpdateAction_CHANGE` falls through. -/
def setLevel {cmp : UInt64 → UInt64 → Ordering} [Std.TransCmp cmp]
    (symbol : SymbolEnum) (group : IncrementEntry δ) (px : UInt64) :
    EStateM Exception (BtreeMap cmp) Unit := do
  let eSz ← get Tag.mdEntrySize group.mdEntrySize
  let szValue ← getValue Tag.mdEntrySize eSz
  modify (·.insert px (toUint64 szValue (Config.getSizeTicksPerUnit symbol)))

/-- The switch on the action in `handle_price_level_update`. -/
def updateLevel {cmp : UInt64 → UInt64 → Ordering} [Std.TransCmp cmp]
    (symbol : SymbolEnum) (group : IncrementEntry δ) (isBookClearNeeded : Bool)
    (px : UInt64) (act : Char) : EStateM Exception (BtreeMap cmp) Unit :=
  if act = mdUpdateActionDelete then
    modify (·.erase px)
  else if act = mdUpdateActionChange then do
    clearLevels isBookClearNeeded
    setLevel toUint64 symbol group px
  else if act = mdUpdateActionNew then
    setLevel toUint64 symbol group px
  else
    pure ()

/-- `OrderBook::handle_price_level_update`, on the map of either side. -/
def handlePriceLevelUpdate {cmp : UInt64 → UInt64 → Ordering} [Std.TransCmp cmp]
    (symbol : SymbolEnum) (action : FieldBase Char) (group : IncrementEntry δ)
    (isBookClearNeeded : Bool) : EStateM Exception (BtreeMap cmp) Unit := do
  let ePx ← get Tag.mdEntryPx group.mdEntryPx
  let pxValue ← getValue Tag.mdEntryPx ePx
  let act ← getValue Tag.mdUpdateAction action
  updateLevel toUint64 symbol group isBookClearNeeded
    (toUint64 pxValue (Config.getPriceTicksPerUnit symbol)) act

/-- The dispatch on the entry type in `OrderBook::apply_increment`. -/
def updateSide (symbol : SymbolEnum) (action : FieldBase Char) (group : IncrementEntry δ)
    (isBookClearNeeded : Bool) (tp : Char) : EStateM Exception OrderBook Unit :=
  if tp = mdEntryTypeBid then
    onBidMap (handlePriceLevelUpdate toUint64 symbol action group isBookClearNeeded)
  else if tp = mdEntryTypeOffer then
    onAskMap (handlePriceLevelUpdate toUint64 symbol action group isBookClearNeeded)
  else
    pure ()  -- "unknown bid/offer FIX::MDEntryType"

/-- What the loop in `OrderBook::apply_increment` does with an entry whose
symbol is `BTCUSDT`. -/
def applyIncrementEntry (isBookClearNeeded : Bool) (symbol : SymbolEnum)
    (group : IncrementEntry δ) : EStateM Exception OrderBook Unit := do
  let eTp ← get Tag.mdEntryType group.mdEntryType
  let action ← get Tag.mdUpdateAction group.mdUpdateAction
  let tp ← getValue Tag.mdEntryType eTp
  updateSide toUint64 symbol action group isBookClearNeeded tp

/-- `OrderBook::apply_increment`. -/
def applyIncrement (isBookClearNeeded : Bool) (msg : MarketDataIncrementalRefresh δ) :
    EStateM Exception OrderBook Unit :=
  incrementLoop (applyIncrementEntry toUint64 isBookClearNeeded) msg

/-- What the order-book worker does with a message of its queue. -/
def applyMessage (isBookClearNeeded : Bool) :
    MarketMessageVariant δ → EStateM Exception OrderBook Unit
  | .snapshot msg => applySnapshot toUint64 msg
  | .increment msg => applyIncrement toUint64 isBookClearNeeded msg

/-- A sequence of messages, applied in order. -/
def applyMessages (isBookClearNeeded : Bool) :
    List (MarketMessageVariant δ) → EStateM Exception OrderBook Unit
  | [] => pure ()
  | msg :: msgs => do
    applyMessage toUint64 isBookClearNeeded msg
    applyMessages isBookClearNeeded msgs

/-! ## Levels, and the operations entries are -/

/-- The two sides of a book. -/
inductive BookSide where
  | bid
  | offer
  deriving DecidableEq

/-- The entry type that addresses a side. -/
def BookSide.entryType : BookSide → Char
  | .bid => mdEntryTypeBid
  | .offer => mdEntryTypeOffer

/-- The size at a price of a side, if there is a level. -/
def level (b : OrderBook) : BookSide → UInt64 → Option UInt64
  | .bid => fun px => b.bidMap[px]?
  | .offer => fun px => b.askMap[px]?

/-- The levels of a side in the order of its map. -/
def levels (b : OrderBook) : BookSide → List (UInt64 × UInt64)
  | .bid => b.bidMap.toList
  | .offer => b.askMap.toList

/-- **A book is its levels.** -/
theorem ext_level {b b' : OrderBook} (h : ∀ side, b.level side = b'.level side) :
    b = b' := by
  obtain ⟨bidMap, askMap⟩ := b
  obtain ⟨bidMap', askMap'⟩ := b'
  have hbid : bidMap = bidMap' :=
    Std.ExtTreeMap.ext_getElem? (fun px => congrFun (h .bid) px)
  have hask : askMap = askMap' :=
    Std.ExtTreeMap.ext_getElem? (fun px => congrFun (h .offer) px)
  rw [hbid, hask]

/-- The map of a side, as the function its readers see. -/
abbrev lookup {cmp : UInt64 → UInt64 → Ordering} [Std.TransCmp cmp]
    (m : BtreeMap cmp) : UInt64 → Option UInt64 := fun px => m[px]?

section Lookup

variable {cmp : UInt64 → UInt64 → Ordering} [Std.TransCmp cmp] [Std.LawfulEqCmp cmp]

/-- `bid_ask_map[px] = sz` sets a key. -/
theorem lookup_insert (m : BtreeMap cmp) (px sz : UInt64) :
    lookup (m.insert px sz) = (KeyOp.set px sz).apply (lookup m) := by
  funext px'
  rw [KeyOp.apply_eq]
  show (m.insert px sz)[px']? = if px = px' then some sz else m[px']?
  rw [Std.ExtTreeMap.getElem?_insert]
  exact if_congr Std.LawfulEqCmp.compare_eq_iff_eq rfl rfl

/-- `bid_ask_map.erase(px)` removes a key. -/
theorem lookup_erase (m : BtreeMap cmp) (px : UInt64) :
    lookup (m.erase px) = (KeyOp.remove px).apply (lookup m) := by
  funext px'
  rw [KeyOp.apply_eq]
  show (m.erase px)[px']? = if px = px' then none else m[px']?
  rw [Std.ExtTreeMap.getElem?_erase]
  exact if_congr Std.LawfulEqCmp.compare_eq_iff_eq rfl rfl

omit [Std.LawfulEqCmp cmp] in
/-- `bid_ask_map.clear()` removes every key. -/
theorem lookup_empty (m : BtreeMap cmp) :
    lookup (∅ : BtreeMap cmp) = KeyOp.clear.apply (lookup m) := by
  funext px'
  exact Std.ExtTreeMap.getElem?_empty

/-- An operation on a map. -/
def mapOp (m : BtreeMap cmp) : KeyOp UInt64 UInt64 → BtreeMap cmp
  | .set px sz => m.insert px sz
  | .remove px => m.erase px
  | .clear => ∅

/-- Operations on a map, run in order. -/
def mapRun (ops : List (KeyOp UInt64 UInt64)) (m : BtreeMap cmp) : BtreeMap cmp :=
  ops.foldl mapOp m

/-- **A map runs operations as its lookup does.** -/
theorem lookup_mapRun (ops : List (KeyOp UInt64 UInt64)) (m : BtreeMap cmp) :
    lookup (mapRun ops m) = KeyOp.run ops (lookup m) := by
  induction ops generalizing m with
  | nil => rfl
  | cons o ops ih =>
    rw [KeyOp.run_cons]
    show lookup (mapRun ops (mapOp m o)) = _
    rw [ih]
    cases o with
    | set px sz => rw [← lookup_insert]; rfl
    | remove px => rw [← lookup_erase]; rfl
    | clear => rw [← lookup_empty]; rfl

end Lookup

/-- Operations on the sides of a book. -/
def runOps (b : OrderBook) (ops : BookSide → List (KeyOp UInt64 UInt64)) : OrderBook :=
  ⟨mapRun (ops .bid) b.bidMap, mapRun (ops .offer) b.askMap⟩

/-- **Each side runs its own operations.** -/
theorem level_runOps (b : OrderBook) (ops : BookSide → List (KeyOp UInt64 UInt64))
    (side : BookSide) :
    (b.runOps ops).level side = KeyOp.run (ops side) (b.level side) := by
  cases side with
  | bid => exact lookup_mapRun (ops .bid) b.bidMap
  | offer => exact lookup_mapRun (ops .offer) b.askMap

/-- Running operations on a side and then more is running their
concatenation. -/
theorem runOps_runOps (b : OrderBook) (ops ops' : BookSide → List (KeyOp UInt64 UInt64)) :
    (b.runOps ops).runOps ops' = b.runOps (fun side => ops side ++ ops' side) := by
  refine ext_level (fun side => ?_)
  rw [level_runOps, level_runOps, level_runOps, KeyOp.run_append]

/-- No operation changes nothing. -/
theorem runOps_nil (b : OrderBook) : b.runOps (fun _ => []) = b := rfl

/-! ### The operations of an entry

Which operations an entry of `BTCUSDT` is on a side, read off the entry:
none for an entry of another type, or with an action that is none of the
three. -/

/-- The ticks of a `BTCUSDT` price. -/
def priceTicks (px : δ) : UInt64 := toUint64 px (Config.getPriceTicksPerUnit .btcusdt)

/-- The ticks of a `BTCUSDT` size. -/
def sizeTicks (sz : δ) : UInt64 := toUint64 sz (Config.getSizeTicksPerUnit .btcusdt)

/-- The operation of a snapshot entry. -/
def snapshotOps (side : BookSide) (g : SnapshotEntry δ) : List (KeyOp UInt64 UInt64) :=
  match g.mdEntryType, g.mdEntryPx, g.mdEntrySize with
  | some (.ok tp), some (.ok px), some (.ok sz) =>
    if tp = side.entryType then [.set (priceTicks toUint64 px) (sizeTicks toUint64 sz)]
    else []
  | _, _, _ => []

/-- The set of an increment entry, when it has a size. -/
def setOps (g : IncrementEntry δ) (px : δ) : List (KeyOp UInt64 UInt64) :=
  match g.mdEntrySize with
  | some (.ok sz) => [.set (priceTicks toUint64 px) (sizeTicks toUint64 sz)]
  | _ => []

/-- The operations an action stands for. -/
def actionOps (isBookClearNeeded : Bool) (g : IncrementEntry δ) (act : Char) (px : δ) :
    List (KeyOp UInt64 UInt64) :=
  if act = mdUpdateActionDelete then [.remove (priceTicks toUint64 px)]
  else if act = mdUpdateActionChange then
    (if isBookClearNeeded then [.clear] else []) ++ setOps toUint64 g px
  else if act = mdUpdateActionNew then setOps toUint64 g px
  else []

/-- The operations of an increment entry. -/
def incrementOps (isBookClearNeeded : Bool) (side : BookSide) (g : IncrementEntry δ) :
    List (KeyOp UInt64 UInt64) :=
  match g.mdEntryType, g.mdUpdateAction, g.mdEntryPx with
  | some (.ok tp), some (.ok act), some (.ok px) =>
    if tp = side.entryType then actionOps toUint64 isBookClearNeeded g act px else []
  | _, _, _ => []

/-! What an entry sets: the ticks of its price, to the ticks of its size. -/

section Sets

variable {toUint64} {side : BookSide} {key sz : UInt64}

theorem set_mem_snapshotOps_iff {g : SnapshotEntry δ} :
    .set key sz ∈ snapshotOps toUint64 side g
      ↔ ∃ px size, g.mdEntryType = some (.ok side.entryType) ∧ g.mdEntryPx = some (.ok px)
        ∧ g.mdEntrySize = some (.ok size) ∧ key = priceTicks toUint64 px
        ∧ sz = sizeTicks toUint64 size := by
  unfold snapshotOps
  constructor
  · intro h
    split at h
    · next tp px size htp hpx hsize =>
      split at h
      · next hside =>
        obtain ⟨rfl, rfl⟩ := KeyOp.set.inj (List.mem_singleton.mp h)
        exact ⟨px, size, hside ▸ htp, hpx, hsize, rfl, rfl⟩
      · exact absurd h List.not_mem_nil
    · exact absurd h List.not_mem_nil
  · rintro ⟨px, size, htp, hpx, hsize, rfl, rfl⟩
    rw [htp, hpx, hsize]
    show _ ∈ if side.entryType = side.entryType then _ else _
    rw [if_pos rfl]
    exact List.mem_singleton_self _

theorem set_mem_setOps_iff {g : IncrementEntry δ} {px : δ} :
    .set key sz ∈ setOps toUint64 g px
      ↔ ∃ size, g.mdEntrySize = some (.ok size) ∧ key = priceTicks toUint64 px
        ∧ sz = sizeTicks toUint64 size := by
  unfold setOps
  constructor
  · intro h
    split at h
    · next size hsize =>
      obtain ⟨rfl, rfl⟩ := KeyOp.set.inj (List.mem_singleton.mp h)
      exact ⟨size, hsize, rfl, rfl⟩
    · exact absurd h List.not_mem_nil
  · rintro ⟨size, hsize, rfl, rfl⟩
    rw [hsize]
    exact List.mem_singleton_self _

/-- Only a `CHANGE` and a `NEW` set anything. -/
theorem set_mem_actionOps_iff {isBookClearNeeded : Bool} {g : IncrementEntry δ} {act : Char}
    {px : δ} :
    .set key sz ∈ actionOps toUint64 isBookClearNeeded g act px
      ↔ (act = mdUpdateActionChange ∨ act = mdUpdateActionNew)
        ∧ .set key sz ∈ setOps toUint64 g px := by
  unfold actionOps
  split_ifs with hdelete hchange hclear hnew
  · rw [List.mem_singleton]
    refine iff_of_false (by simp) (fun h => ?_)
    rw [hdelete] at h
    exact absurd h.1 (by decide)
  · simp [hchange]
  · simp [hchange]
  · simp [hnew]
  · simp [hchange, hnew]

theorem set_mem_incrementOps_iff {isBookClearNeeded : Bool} {g : IncrementEntry δ} :
    .set key sz ∈ incrementOps toUint64 isBookClearNeeded side g
      ↔ ∃ act px size, g.mdEntryType = some (.ok side.entryType)
        ∧ g.mdUpdateAction = some (.ok act)
        ∧ (act = mdUpdateActionChange ∨ act = mdUpdateActionNew)
        ∧ g.mdEntryPx = some (.ok px) ∧ g.mdEntrySize = some (.ok size)
        ∧ key = priceTicks toUint64 px ∧ sz = sizeTicks toUint64 size := by
  unfold incrementOps
  constructor
  · intro h
    split at h
    · next tp act px htp hact hpx =>
      split at h
      · next hside =>
        obtain ⟨hsets, hset⟩ := set_mem_actionOps_iff.mp h
        obtain ⟨size, hsize, hkey, hsz⟩ := set_mem_setOps_iff.mp hset
        exact ⟨act, px, size, hside ▸ htp, hact, hsets, hpx, hsize, hkey, hsz⟩
      · exact absurd h List.not_mem_nil
    · exact absurd h List.not_mem_nil
  · rintro ⟨act, px, size, htp, hact, hsets, hpx, hsize, hkey, hsz⟩
    rw [htp, hact, hpx]
    show _ ∈ if side.entryType = side.entryType then _ else _
    rw [if_pos rfl]
    exact set_mem_actionOps_iff.mpr ⟨hsets, set_mem_setOps_iff.mpr ⟨size, hsize, hkey, hsz⟩⟩

end Sets

end OrderBook

end Core
