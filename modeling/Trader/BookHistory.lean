import Trader.OrderBook

set_option autoImplicit false

/-!
# The book as the last write of its history

What `apply_snapshot` and `apply_increment` do when they end normally,
said once for each: under which condition on the message they end so, and
which operations on the two sides they have then run. The condition does
not mention the book – the functions never read what they write – so a
message that is processed once is processed again on any book.

From this the reference semantics follows
(`level_eq_some_iff_lastSet`): after any history of messages the book
holds at a price what the last operation on that price set there.
-/

namespace Core.OrderBook

open Fix Binance EarlyExit

variable {δ : Type} (toUint64 : δ → UInt64 → UInt64)

/-! ## Levels of one side -/

section Level

variable {cmp : UInt64 → UInt64 → Ordering} [Std.TransCmp cmp]
  {m m' : BtreeMap cmp} {u : Unit}

omit [Std.TransCmp cmp] in
theorem clearLevels_ok_iff {clear : Bool} :
    (clearLevels clear).run m = .ok u m' ↔ m' = if clear then ∅ else m := by
  cases clear with
  | true => exact modify_ok_iff
  | false => exact pure_ok_iff.trans (and_iff_right rfl)

theorem setLevel_ok_iff {g : IncrementEntry δ} {px : UInt64} :
    (setLevel toUint64 .btcusdt g px).run m = .ok u m'
      ↔ ∃ sz, g.mdEntrySize = some (.ok sz)
        ∧ m' = m.insert px (sizeTicks toUint64 sz) := by
  unfold setLevel
  simp only [bind_ok_iff, get_ok_iff, getValue_ok_iff, modify_ok_iff]
  constructor
  · rintro ⟨eSz, m₁, ⟨hsz, rfl⟩, sz, m₂, ⟨rfl, rfl⟩, rfl⟩
    exact ⟨sz, hsz, rfl⟩
  · rintro ⟨sz, hsz, rfl⟩
    exact ⟨.ok sz, m, ⟨hsz, rfl⟩, sz, m, ⟨rfl, rfl⟩, rfl⟩

/-- Whether an action sets a level, and so needs a size. -/
def SetsLevel (act : Char) : Prop :=
  act = mdUpdateActionChange ∨ act = mdUpdateActionNew

/-- **The switch on the action** runs the operations the action stands for,
and needs a size only for those that set a level. -/
theorem updateLevel_ok_iff {clear : Bool} {g : IncrementEntry δ} {act : Char} {px : δ} :
    (updateLevel toUint64 .btcusdt g clear (priceTicks toUint64 px) act).run m = .ok u m'
      ↔ (SetsLevel act → ∃ sz, g.mdEntrySize = some (.ok sz))
        ∧ m' = mapRun (actionOps toUint64 clear g act px) m := by
  unfold updateLevel actionOps SetsLevel
  by_cases hdel : act = mdUpdateActionDelete
  · subst hdel
    rw [if_pos rfl, if_pos rfl, modify_ok_iff]
    exact (and_iff_right (fun h => absurd h (by decide))).symm
  rw [if_neg hdel, if_neg hdel]
  by_cases hch : act = mdUpdateActionChange
  · rw [if_pos hch, if_pos hch]
    simp only [bind_ok_iff, clearLevels_ok_iff, setLevel_ok_iff]
    constructor
    · rintro ⟨u', m₁, rfl, sz, hsz, rfl⟩
      refine ⟨fun _ => ⟨sz, hsz⟩, ?_⟩
      rw [setOps, hsz]
      cases clear <;> rfl
    · rintro ⟨hsz, rfl⟩
      obtain ⟨sz, hsz⟩ := hsz (Or.inl hch)
      refine ⟨(), _, rfl, sz, hsz, ?_⟩
      rw [setOps, hsz]
      cases clear <;> rfl
  rw [if_neg hch, if_neg hch]
  by_cases hnew : act = mdUpdateActionNew
  · rw [if_pos hnew, if_pos hnew, setLevel_ok_iff]
    constructor
    · rintro ⟨sz, hsz, rfl⟩
      refine ⟨fun _ => ⟨sz, hsz⟩, ?_⟩
      rw [setOps, hsz]
      rfl
    · rintro ⟨hsz, rfl⟩
      obtain ⟨sz, hsz⟩ := hsz (Or.inr hnew)
      refine ⟨sz, hsz, ?_⟩
      rw [setOps, hsz]
      rfl
  rw [if_neg hnew, if_neg hnew, pure_ok_iff]
  exact and_congr_left' (iff_of_true rfl (fun h => absurd h (not_or.mpr ⟨hch, hnew⟩)))

/-- The fields `handle_price_level_update` reads: a price, an action, and a
size unless the action asks for none. -/
def LevelReadable (action : FieldBase Char) (g : IncrementEntry δ) : Prop :=
  (∃ px, g.mdEntryPx = some (.ok px)) ∧ ∃ act, action = .ok act
    ∧ (SetsLevel act → ∃ sz, g.mdEntrySize = some (.ok sz))

/-- The operations `handle_price_level_update` runs. -/
def handleOps (clear : Bool) (action : FieldBase Char) (g : IncrementEntry δ) :
    List (KeyOp UInt64 UInt64) :=
  match action, g.mdEntryPx with
  | .ok act, some (.ok px) => actionOps toUint64 clear g act px
  | _, _ => []

/-- **`handle_price_level_update` ends normally** when the fields it reads
are there, having run the operations of its action on the map. -/
theorem handlePriceLevelUpdate_ok_iff {clear : Bool} {action : FieldBase Char}
    {g : IncrementEntry δ} :
    (handlePriceLevelUpdate toUint64 .btcusdt action g clear).run m = .ok u m'
      ↔ LevelReadable action g ∧ m' = mapRun (handleOps toUint64 clear action g) m := by
  unfold handlePriceLevelUpdate
  simp only [bind_ok_iff, get_ok_iff, getValue_ok_iff]
  constructor
  · rintro ⟨ePx, m₁, ⟨hpx, rfl⟩, px, m₂, ⟨rfl, rfl⟩, act, m₃, ⟨rfl, rfl⟩, h⟩
    obtain ⟨hsz, rfl⟩ := (updateLevel_ok_iff toUint64).mp h
    refine ⟨⟨⟨px, hpx⟩, act, rfl, hsz⟩, ?_⟩
    unfold handleOps
    rw [hpx]
  · rintro ⟨⟨⟨px, hpx⟩, act, rfl, hsz⟩, rfl⟩
    refine ⟨.ok px, m, ⟨hpx, rfl⟩, px, m, ⟨rfl, rfl⟩, act, m, ⟨rfl, rfl⟩, ?_⟩
    unfold handleOps
    rw [hpx]
    exact (updateLevel_ok_iff toUint64).mpr ⟨hsz, rfl⟩

end Level

/-! ## Entries -/

section Entry

variable {b b' : OrderBook} {u : Unit}

theorem onBidMap_ok_iff {α : Type} {x : EStateM Exception (BtreeMap greater) α} {a : α} :
    (onBidMap x).run b = .ok a b'
      ↔ ∃ m, x.run b.bidMap = .ok a m ∧ b' = { b with bidMap := m } :=
  zoom_ok_iff

theorem onAskMap_ok_iff {α : Type} {x : EStateM Exception (BtreeMap less) α} {a : α} :
    (onAskMap x).run b = .ok a b'
      ↔ ∃ m, x.run b.askMap = .ok a m ∧ b' = { b with askMap := m } :=
  zoom_ok_iff

/-- The fields the loop of `apply_snapshot` reads of every entry. -/
def SnapshotReadable (g : SnapshotEntry δ) : Prop :=
  (∃ tp, g.mdEntryType = some (.ok tp)) ∧ (∃ px, g.mdEntryPx = some (.ok px))
    ∧ ∃ sz, g.mdEntrySize = some (.ok sz)

/-- The dispatch on the type inserts on the side the type addresses. -/
theorem insertLevel_ok_iff {tp : Char} {px sz : UInt64} :
    (insertLevel tp px sz).run b = .ok u b'
      ↔ b' = b.runOps (fun side => if tp = side.entryType then [.set px sz] else []) := by
  unfold insertLevel
  by_cases hbid : tp = mdEntryTypeBid
  · subst hbid
    rw [if_pos rfl]
    simp only [onBidMap_ok_iff, modify_ok_iff, exists_eq_left]
    rfl
  rw [if_neg hbid]
  by_cases hask : tp = mdEntryTypeOffer
  · subst hask
    rw [if_pos rfl]
    simp only [onAskMap_ok_iff, modify_ok_iff, exists_eq_left]
    rfl
  rw [if_neg hask, pure_ok_iff, and_iff_right rfl]
  have hside : ∀ side : BookSide, tp ≠ side.entryType := by
    intro side
    cases side with
    | bid => exact hbid
    | offer => exact hask
  rw [show (fun side : BookSide => if tp = side.entryType then
      [(KeyOp.set px sz : KeyOp UInt64 UInt64)] else []) = fun _ => [] from
    funext fun side => if_neg (hside side), runOps_nil]

/-- **An entry of a snapshot** is one set, on the side of its type. -/
theorem applySnapshotEntry_ok_iff {i : ℕ} {g : SnapshotEntry δ} :
    (applySnapshotEntry toUint64 .btcusdt i g ()).run b = .ok u b'
      ↔ SnapshotReadable g ∧ b' = b.runOps (fun side => snapshotOps toUint64 side g) := by
  unfold applySnapshotEntry
  simp only [bind_ok_iff, get_ok_iff, getValue_ok_iff, insertLevel_ok_iff]
  constructor
  · rintro ⟨eTp, b₁, ⟨htp, rfl⟩, ePx, b₂, ⟨hpx, rfl⟩, eSz, b₃, ⟨hsz, rfl⟩, px, b₄, ⟨rfl, rfl⟩,
      sz, b₅, ⟨rfl, rfl⟩, tp, b₆, ⟨rfl, rfl⟩, rfl⟩
    refine ⟨⟨⟨tp, htp⟩, ⟨px, hpx⟩, sz, hsz⟩, ?_⟩
    unfold snapshotOps
    rw [htp, hpx, hsz]
    rfl
  · rintro ⟨⟨⟨tp, htp⟩, ⟨px, hpx⟩, sz, hsz⟩, rfl⟩
    refine ⟨.ok tp, b, ⟨htp, rfl⟩, .ok px, b, ⟨hpx, rfl⟩, .ok sz, b, ⟨hsz, rfl⟩, px, b,
      ⟨rfl, rfl⟩, sz, b, ⟨rfl, rfl⟩, tp, b, ⟨rfl, rfl⟩, ?_⟩
    unfold snapshotOps
    rw [htp, hpx, hsz]
    rfl

/-- The fields the loop of `apply_increment` reads of an entry it keeps. -/
def IncrementReadable (g : IncrementEntry δ) : Prop :=
  ∃ tp action, g.mdEntryType = some (.ok tp) ∧ g.mdUpdateAction = some action
    ∧ (tp = mdEntryTypeBid ∨ tp = mdEntryTypeOffer → LevelReadable action g)

/-- The dispatch on the type updates the side the type addresses. -/
theorem updateSide_ok_iff {clear : Bool} {action : FieldBase Char} {g : IncrementEntry δ}
    {tp : Char} :
    (updateSide toUint64 .btcusdt action g clear tp).run b = .ok u b'
      ↔ (tp = mdEntryTypeBid ∨ tp = mdEntryTypeOffer → LevelReadable action g)
        ∧ b' = b.runOps (fun side =>
            if tp = side.entryType then handleOps toUint64 clear action g else []) := by
  unfold updateSide
  by_cases hbid : tp = mdEntryTypeBid
  · subst hbid
    rw [if_pos rfl, onBidMap_ok_iff]
    simp only [handlePriceLevelUpdate_ok_iff]
    constructor
    · rintro ⟨m, ⟨hread, rfl⟩, rfl⟩
      exact ⟨fun _ => hread, rfl⟩
    · rintro ⟨hread, rfl⟩
      exact ⟨_, ⟨hread (Or.inl trivial), rfl⟩, rfl⟩
  rw [if_neg hbid]
  by_cases hask : tp = mdEntryTypeOffer
  · subst hask
    rw [if_pos rfl, onAskMap_ok_iff]
    simp only [handlePriceLevelUpdate_ok_iff]
    constructor
    · rintro ⟨m, ⟨hread, rfl⟩, rfl⟩
      exact ⟨fun _ => hread, rfl⟩
    · rintro ⟨hread, rfl⟩
      exact ⟨_, ⟨hread (Or.inr trivial), rfl⟩, rfl⟩
  have hside : ∀ side : BookSide, tp ≠ side.entryType := by
    intro side
    cases side with
    | bid => exact hbid
    | offer => exact hask
  rw [if_neg hask, pure_ok_iff, show (fun side : BookSide => if tp = side.entryType then
      handleOps toUint64 clear action g else []) = fun _ => [] from
    funext fun side => if_neg (hside side), runOps_nil]
  exact and_congr_left' (iff_of_true rfl (fun h => absurd h (not_or.mpr ⟨hbid, hask⟩)))

/-- **An entry of an increment** runs, on the side of its type, the
operations its action stands for. -/
theorem applyIncrementEntry_ok_iff {clear : Bool} {g : IncrementEntry δ} :
    (applyIncrementEntry toUint64 clear .btcusdt g).run b = .ok u b'
      ↔ IncrementReadable g
        ∧ b' = b.runOps (fun side => incrementOps toUint64 clear side g) := by
  have hops : ∀ {tp : Char} {action : FieldBase Char}, g.mdEntryType = some (.ok tp) →
      g.mdUpdateAction = some action →
      (fun side => incrementOps toUint64 clear side g)
        = fun side : BookSide =>
          if tp = side.entryType then handleOps toUint64 clear action g else [] := by
    intro tp action htp haction
    funext side
    unfold incrementOps handleOps
    rw [htp, haction]
    rcases action with text | act
    · exact (ite_self []).symm
    · rcases g.mdEntryPx with _ | _ | px
      · exact (ite_self []).symm
      · exact (ite_self []).symm
      · rfl
  unfold applyIncrementEntry
  simp only [bind_ok_iff, get_ok_iff, getValue_ok_iff, updateSide_ok_iff]
  constructor
  · rintro ⟨eTp, b₁, ⟨htp, rfl⟩, action, b₂, ⟨haction, rfl⟩, tp, b₃, ⟨rfl, rfl⟩, hread, rfl⟩
    exact ⟨⟨tp, action, htp, haction, hread⟩, by rw [hops htp haction]⟩
  · rintro ⟨⟨tp, action, htp, haction, hread⟩, rfl⟩
    exact ⟨.ok tp, b, ⟨htp, rfl⟩, action, b, ⟨haction, rfl⟩, tp, b, ⟨rfl, rfl⟩, hread,
      by rw [hops htp haction]⟩

end Entry

/-! ## Messages -/

/-- The condition under which a snapshot is processed without an exception:
one of another instrument is not read beyond its symbol. -/
def SnapshotProcessable (msg : MarketDataSnapshotFullRefresh δ) : Prop :=
  Accepted msg.symbol ∧ (isBtc msg.symbol = true →
    CountFits msg.noMDEntries msg.groups
      ∧ ∀ g ∈ counted msg.noMDEntries msg.groups, SnapshotReadable g)

/-- The condition under which an increment is processed without an
exception: an entry of another instrument is not read beyond its symbol. -/
def IncrementProcessable (msg : MarketDataIncrementalRefresh δ) : Prop :=
  CountFits msg.noMDEntries msg.groups
    ∧ ∀ p ∈ entriesOf msg, Accepted p.1 ∧ (isBtc p.1 = true → IncrementReadable p.2)

/-- The condition under which a message is processed without an exception. -/
def Processable : MarketMessageVariant δ → Prop
  | .snapshot msg => SnapshotProcessable msg
  | .increment msg => IncrementProcessable msg

/-- A snapshot of `BTCUSDT` removes everything and then sets its entries. -/
def snapshotMessageOps (side : BookSide) (msg : MarketDataSnapshotFullRefresh δ) :
    List (KeyOp UInt64 UInt64) :=
  if isBtc msg.symbol then
    .clear :: (counted msg.noMDEntries msg.groups).flatMap (snapshotOps toUint64 side)
  else []

/-- An increment runs the operations of its `BTCUSDT` entries. -/
def incrementMessageOps (clear : Bool) (side : BookSide)
    (msg : MarketDataIncrementalRefresh δ) : List (KeyOp UInt64 UInt64) :=
  (btcEntries (entriesOf msg)).flatMap (incrementOps toUint64 clear side)

/-- **The operations of a message on a side.** -/
def messageOps (clear : Bool) (side : BookSide) :
    MarketMessageVariant δ → List (KeyOp UInt64 UInt64)
  | .snapshot msg => snapshotMessageOps toUint64 side msg
  | .increment msg => incrementMessageOps toUint64 clear side msg

section Message

variable {b b' : OrderBook} {u : Unit}

/-- Running the operations of one entry after another is running all of
them. -/
theorem foldl_runOps {γ : Type} (ops : BookSide → γ → List (KeyOp UInt64 UInt64))
    (gs : List γ) (b : OrderBook) :
    gs.foldl (fun b g => b.runOps (fun side => ops side g)) b
      = b.runOps (fun side => gs.flatMap (ops side)) := by
  induction gs generalizing b with
  | nil => rfl
  | cons g gs ih =>
    rw [List.foldl_cons, ih, runOps_runOps]
    rfl

theorem replaceBook_ok_iff {msg : MarketDataSnapshotFullRefresh δ} :
    (replaceBook toUint64 .btcusdt msg).run b = .ok u b'
      ↔ (CountFits msg.noMDEntries msg.groups
          ∧ ∀ g ∈ counted msg.noMDEntries msg.groups, SnapshotReadable g)
        ∧ b' = b.runOps (fun side => .clear
            :: (counted msg.noMDEntries msg.groups).flatMap (snapshotOps toUint64 side)) := by
  have hentry : ∀ (i : ℕ) (g : SnapshotEntry δ) (u : Unit) (b b' : OrderBook),
      (applySnapshotEntry toUint64 .btcusdt i g ()).run b = .ok u b'
        ↔ SnapshotReadable g ∧ b' = b.runOps (fun side => snapshotOps toUint64 side g) :=
    fun i g u b b' => applySnapshotEntry_ok_iff toUint64
  -- clearing both sides first is starting from the empty book
  have hclear : b.runOps (fun side => .clear
      :: (counted msg.noMDEntries msg.groups).flatMap (snapshotOps toUint64 side))
      = empty.runOps (fun side =>
        (counted msg.noMDEntries msg.groups).flatMap (snapshotOps toUint64 side)) := rfl
  rw [hclear, ← foldl_runOps]
  unfold replaceBook
  constructor
  · intro h
    obtain ⟨u₁, b₁, hbid, h⟩ := bind_ok_iff.mp h
    obtain ⟨m₁, hm₁, rfl⟩ := onBidMap_ok_iff.mp hbid
    obtain ⟨u₂, b₂, hask, h⟩ := bind_ok_iff.mp h
    obtain ⟨m₂, hm₂, rfl⟩ := onAskMap_ok_iff.mp hask
    obtain rfl := modify_ok_iff.mp hm₁
    obtain rfl := modify_ok_iff.mp hm₂
    obtain ⟨hnum, hrun⟩ := forEntries_ok.mp h
    obtain ⟨hread, rfl⟩ := (forEach_ok_iff hentry).mp hrun
    exact ⟨⟨hnum, hread⟩, rfl⟩
  · rintro ⟨⟨hnum, hread⟩, rfl⟩
    refine bind_ok_iff.mpr ⟨(), _, onBidMap_ok_iff.mpr ⟨∅, rfl, rfl⟩, ?_⟩
    refine bind_ok_iff.mpr ⟨(), _, onAskMap_ok_iff.mpr ⟨∅, rfl, rfl⟩, ?_⟩
    exact forEntries_ok.mpr ⟨hnum, (forEach_ok_iff hentry).mpr ⟨hread, rfl⟩⟩

/-- A snapshot with an accepted symbol skips or replaces the book. -/
theorem run_applySnapshot {msg : MarketDataSnapshotFullRefresh δ} {sym : SymbolEnum}
    (hc : Carries msg.symbol (some sym)) :
    (applySnapshot toUint64 msg).run b
      = (if sym ≠ .btcusdt then pure () else replaceBook toUint64 sym msg).run b := by
  cases hs : msg.symbol with
  | none =>
    rw [hs] at hc
    cases hc
  | some text =>
    rw [hs] at hc
    obtain ⟨sym', hsym, heq⟩ := hc
    obtain rfl := Option.some.inj heq
    unfold applySnapshot
    rw [hs, EStateM.run_bind]
    show EStateM.run (lift (Symbol.fromStr text) >>= _) b = _
    rw [hsym]
    rfl

/-- A snapshot that ends normally has a symbol the conversion accepts. -/
theorem accepted_of_applySnapshot_ok {msg : MarketDataSnapshotFullRefresh δ}
    (h : (applySnapshot toUint64 msg).run b = .ok u b') : Accepted msg.symbol := by
  obtain ⟨text, b₁, hget, h⟩ := bind_ok_iff.mp h
  obtain ⟨sym, b₂, hlift, -⟩ := bind_ok_iff.mp h
  rw [(get_ok_iff.mp hget).1]
  exact ⟨sym, sym, (lift_ok_iff.mp hlift).1, rfl⟩

/-- **`apply_snapshot` ends normally** on a symbol the conversion accepts
and, if that is `BTCUSDT`, on entries that are all readable. -/
theorem applySnapshot_ok_iff {msg : MarketDataSnapshotFullRefresh δ} :
    (applySnapshot toUint64 msg).run b = .ok u b'
      ↔ SnapshotProcessable msg
        ∧ b' = b.runOps (fun side => snapshotMessageOps toUint64 side msg) := by
  rw [iff_and_self.mpr (accepted_of_applySnapshot_ok toUint64), SnapshotProcessable, and_assoc]
  refine and_congr_right (fun hacc => ?_)
  obtain ⟨sym, hc⟩ := hacc
  rw [run_applySnapshot toUint64 hc]
  unfold snapshotMessageOps
  by_cases hbtc : isBtc msg.symbol = true
  · obtain rfl : sym = .btcusdt := Option.some.inj (hc.eq_btcusdt_iff.mpr hbtc)
    rw [if_neg (not_not_intro rfl), replaceBook_ok_iff]
    simp only [if_pos hbtc]
    exact and_congr_left' ⟨fun h _ => h, fun h => h hbtc⟩
  · rw [if_pos (fun heq => hbtc (hc.eq_btcusdt_iff.mp (congrArg some heq))), pure_ok_iff]
    simp only [if_neg hbtc]
    exact and_congr_left' (iff_of_true trivial (fun h => absurd h hbtc))

/-- **`apply_increment` ends normally** on entries whose effective symbols
are all accepted and which, where that is `BTCUSDT`, are readable. -/
theorem applyIncrement_ok_iff {msg : MarketDataIncrementalRefresh δ} {clear : Bool} :
    (applyIncrement toUint64 clear msg).run b = .ok u b'
      ↔ IncrementProcessable msg
        ∧ b' = b.runOps (fun side => incrementMessageOps toUint64 clear side msg) := by
  unfold applyIncrement IncrementProcessable incrementMessageOps
  rw [incrementLoop_ok_iff (fun g u s s' => applyIncrementEntry_ok_iff toUint64),
    foldl_runOps, and_assoc]

/-- A message ends normally under its own condition alone, having run its
operations. -/
theorem applyMessage_ok_iff {msg : MarketMessageVariant δ} {clear : Bool} :
    (applyMessage toUint64 clear msg).run b = .ok u b'
      ↔ Processable msg
        ∧ b' = b.runOps (fun side => messageOps toUint64 clear side msg) := by
  cases msg with
  | snapshot msg => exact applySnapshot_ok_iff toUint64
  | increment msg => exact applyIncrement_ok_iff toUint64

/-- **A history of messages** runs the operations of all of them, in
order. -/
theorem applyMessages_ok_iff {msgs : List (MarketMessageVariant δ)} {clear : Bool} :
    (applyMessages toUint64 clear msgs).run b = .ok u b'
      ↔ (∀ msg ∈ msgs, Processable msg)
        ∧ b' = b.runOps (fun side => msgs.flatMap (messageOps toUint64 clear side)) := by
  induction msgs generalizing b with
  | nil =>
    rw [applyMessages, pure_ok_iff, and_iff_right rfl]
    exact (and_iff_right (fun msg hmsg => absurd hmsg List.not_mem_nil)).symm
  | cons msg msgs ih =>
    rw [applyMessages, bind_ok_iff, List.forall_mem_cons]
    constructor
    · rintro ⟨u₁, b₁, h₁, h⟩
      obtain ⟨hmsg, rfl⟩ := (applyMessage_ok_iff toUint64).mp h₁
      obtain ⟨hall, rfl⟩ := ih.mp h
      exact ⟨⟨hmsg, hall⟩, runOps_runOps _ _ _⟩
    · rintro ⟨⟨hmsg, hall⟩, rfl⟩
      refine ⟨(), _, (applyMessage_ok_iff toUint64).mpr ⟨hmsg, rfl⟩, ih.mpr ⟨hall, ?_⟩⟩
      exact (runOps_runOps _ _ _).symm

/-- Applying one more message. -/
theorem applyMessages_concat {msgs : List (MarketMessageVariant δ)}
    {msg : MarketMessageVariant δ} {clear : Bool} {b₀ : OrderBook}
    (hmsgs : (applyMessages toUint64 clear msgs).run b₀ = .ok () b)
    (hmsg : (applyMessage toUint64 clear msg).run b = .ok () b') :
    (applyMessages toUint64 clear (msgs ++ [msg])).run b₀ = .ok () b' := by
  induction msgs generalizing b₀ with
  | nil =>
    obtain ⟨-, rfl⟩ := pure_ok_iff.mp hmsgs
    exact bind_ok_iff.mpr ⟨(), b', hmsg, rfl⟩
  | cons m msgs ih =>
    obtain ⟨u, b₁, h₁, hrest⟩ := bind_ok_iff.mp hmsgs
    exact bind_ok_iff.mpr ⟨u, b₁, h₁, ih hrest⟩

/-! ## The reference semantics -/

/-- The levels a book starts with, as sets. -/
def initialOps (b : OrderBook) (side : BookSide) : List (KeyOp UInt64 UInt64) :=
  (b.levels side).map (fun e => .set e.1 e.2)

/-- The keys of a map are distinct. -/
theorem nodup_keys {cmp : UInt64 → UInt64 → Ordering} [Std.TransCmp cmp]
    (m : BtreeMap cmp) : (m.toList.map Prod.fst).Nodup := by
  refine List.pairwise_map.mpr (m.ordered_keys_toList.imp ?_)
  intro e e' h heq
  have hrefl : cmp e'.1 e'.1 = .eq := Std.ReflCmp.compare_self
  rw [heq, hrefl] at h
  cases h

/-- **A book is the run of its own levels.** -/
theorem run_initialOps (b : OrderBook) (side : BookSide) :
    KeyOp.run (b.initialOps side) (fun _ => none) = b.level side := by
  cases side with
  | bid =>
    exact KeyOp.run_map_set (nodup_keys b.bidMap)
      (fun px sz => Std.ExtTreeMap.mem_toList_iff_getElem?_eq_some.symm)
  | offer =>
    exact KeyOp.run_map_set (nodup_keys b.askMap)
      (fun px sz => Std.ExtTreeMap.mem_toList_iff_getElem?_eq_some.symm)

/-- **The last write wins.** After a history of snapshots and increments
processed without an exception, a side holds size `sz` at price `px`
exactly when the last operation affecting `px`, among the sets of the
starting levels and then the operations of the messages, sets it to
`sz`. -/
theorem level_eq_some_iff_lastSet {msgs : List (MarketMessageVariant δ)}
    (h : (applyMessages toUint64 false msgs).run b = .ok u b') (side : BookSide)
    (px sz : UInt64) :
    b'.level side px = some sz
      ↔ KeyOp.LastSet
          (b.initialOps side ++ msgs.flatMap (messageOps toUint64 false side)) px sz := by
  obtain ⟨-, rfl⟩ := (applyMessages_ok_iff toUint64).mp h
  rw [level_runOps, ← run_initialOps, ← KeyOp.run_append, KeyOp.run_empty_eq_some_iff]

/-- A snapshot sets a level that an increment then changes, and the change
is the last write. -/
theorem level_eq_some_iff_lastSet_changed :
    ∃ (msgs : List (MarketMessageVariant ℕ)) (b' : OrderBook),
      (applyMessages (fun px ticks => UInt64.ofNat px * ticks) false msgs).run empty
        = .ok () b'
      ∧ msgs.flatMap (messageOps (fun px ticks => UInt64.ofNat px * ticks) false .bid)
        = [.clear, .set 900 100000, .set 900 200000]
      ∧ (b'.level .bid 900 = some 200000
        ↔ KeyOp.LastSet (empty.initialOps .bid ++ msgs.flatMap
            (messageOps (fun px ticks => UInt64.ofNat px * ticks) false .bid)) 900 200000) :=
  ⟨[.snapshot (.ofGroups "BTCUSDT".toList
      [{ mdEntryType := some (.ok '0'), mdEntryPx := some (.ok 9),
         mdEntrySize := some (.ok 1) }]),
    .increment (.ofGroups
      [{ symbol := some "BTCUSDT".toList, mdEntryType := some (.ok '0'),
         mdUpdateAction := some (.ok '1'), mdEntryPx := some (.ok 9),
         mdEntrySize := some (.ok 2) }])],
    _, rfl, rfl, level_eq_some_iff_lastSet _ rfl .bid 900 200000⟩

end Message

end Core.OrderBook
