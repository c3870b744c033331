import Trader.PriceCell
import Trader.Program
import Trader.Quotes

set_option autoImplicit false

/-!
# From the exchange to the screen

What the exchange sends are decimals, and what the user reads are decimals.
In between, a number is a double, a count of ticks and a double again, and
it is cut to the width of a column. For the numbers that come through all of
this – a price that keeps its tick and fits its column (`PriceFits`), a size
that does and is not shown short (`SizeFits`) – the program might as well
have computed with the decimals themselves:

* every drawing of the book shows, row by row, the best prices and their
  sizes in the book that exact arithmetic makes of the messages taken, and
  the sentinel where one side has run out of levels (`book_on_screen`);
* every drawing of the trade list shows the last hundred trades the exchange
  sent, each with its price, size, side, time and id (`trades_on_screen`).

This is over whole runs of the program, whatever its threads do.
-/

namespace Ui

open Fix EarlyExit Transition Decimal TickConversion Sentinel Utils.Double Core Core.OrderBook
  Binary64

/-! ## Numbers that come through -/

/-- **A price that comes through**: a whole number of ticks, which reading it
does not take one off, and of which the column has room for every character. -/
def PriceFits (q : ℚ) : Prop :=
  ∃ n : ℕ, q = n / 100 ∧ (priceText n).length ≤ 13 ∧ ¬ LosesTick n 100

/-- **A size that comes through**, which in addition is not shown short. -/
def SizeFits (q : ℚ) : Prop :=
  ∃ n : ℕ, q = n / 100000 ∧ (trimmedText 5 n).length ≤ 10 ∧ ¬ LosesTick n 100000
    ∧ ¬ FallsShort n

/-- A decimal as QuickFIX reads it and `Double::toUint64` converts it, -/
def ticksOfDecimal (q : ℚ) (ticksPerUnit : UInt64) : UInt64 := toUint64At (nearest q) ticksPerUnit

/-- and as exact arithmetic would. -/
def exactTicks (q : ℚ) (ticksPerUnit : UInt64) : UInt64 := UInt64.ofNat ⌊q * ticksPerUnit.toNat⌋₊

theorem lt_of_length_trimmedText {n : ℕ} (h : (trimmedText 5 n).length ≤ 10) : n < 10 ^ 15 := by
  have hint : (Nat.toDigits 10 (n / 10 ^ 5)).length ≤ 10 := by
    rw [trimmedText, List.length_append] at h
    exact (Nat.le_add_right _ _).trans h
  have hdiv := (Nat.length_toDigits_le_iff (by decide) (by decide)).mp hint
  omega

/-- A whole number of ticks, computed exactly. -/
theorem toNat_exactTicks {n : ℕ} (hn : n < 2 ^ 64) (ticksPerUnit : UInt64)
    (hpos : 0 < ticksPerUnit.toNat) :
    (exactTicks (n / ticksPerUnit.toNat) ticksPerUnit).toNat = n := by
  have hne : (ticksPerUnit.toNat : ℚ) ≠ 0 := by exact_mod_cast hpos.ne'
  rw [exactTicks, div_mul_cancel₀ _ hne, Nat.floor_natCast, UInt64.toNat_ofNat',
    Nat.mod_eq_of_lt hn]

/-- **A price that comes through is read as it is**, -/
theorem PriceFits.exact {q : ℚ} (h : PriceFits q) :
    priceTicks ticksOfDecimal q = priceTicks exactTicks q
      ∧ ((priceTicks exactTicks q).toNat / 100 : ℚ) = q
      ∧ (priceText (priceTicks exactTicks q).toNat).length ≤ 13 := by
  obtain ⟨n, rfl, hlen, hlose⟩ := h
  have hlt := lt_of_length_priceText hlen
  have hread : (priceTicks ticksOfDecimal (n / 100 : ℚ)).toNat = n :=
    (toNat_priceTicks (hlt.trans (by decide))).trans (ticksRead_eq_iff.mpr hlose)
  have hexact := toNat_exactTicks (hlt.trans (by decide))
    (Binance.Config.getPriceTicksPerUnit .btcusdt) (by decide)
  rw [show (Binance.Config.getPriceTicksPerUnit .btcusdt).toNat = 100 from rfl,
    Nat.cast_ofNat] at hexact
  replace hexact : (priceTicks exactTicks (n / 100 : ℚ)).toNat = n := hexact
  rw [hexact]
  exact ⟨UInt64.toNat_inj.mp (hread.trans hexact.symm), rfl, hlen⟩

/-- and so is a size. -/
theorem SizeFits.exact {q : ℚ} (h : SizeFits q) :
    sizeTicks ticksOfDecimal q = sizeTicks exactTicks q
      ∧ ((sizeTicks exactTicks q).toNat / 10 ^ 5 : ℚ) = q
      ∧ (trimmedText 5 (sizeTicks exactTicks q).toNat).length ≤ 10
      ∧ ¬ FallsShort (sizeTicks exactTicks q).toNat := by
  obtain ⟨n, rfl, hlen, hlose, hshort⟩ := h
  have hlt := lt_of_length_trimmedText hlen
  have hread : (sizeTicks ticksOfDecimal (n / 100000 : ℚ)).toNat = n :=
    (toNat_sizeTicks (hlt.trans (by decide))).trans (ticksRead_eq_iff.mpr hlose)
  have hexact := toNat_exactTicks (hlt.trans (by decide))
    (Binance.Config.getSizeTicksPerUnit .btcusdt) (by decide)
  rw [show (Binance.Config.getSizeTicksPerUnit .btcusdt).toNat = 100000 from rfl,
    Nat.cast_ofNat] at hexact
  replace hexact : (sizeTicks exactTicks (n / 100000 : ℚ)).toNat = n := hexact
  rw [hexact]
  exact ⟨UInt64.toNat_inj.mp (hread.trans hexact.symm), by norm_num, hlen, hshort⟩

/-! ## The book -/

/-- **Every number the book looks at comes through.** -/
def BookFits (clear : Bool) (msg : MarketMessageVariant ℚ) : Prop :=
  ∀ e ∈ bookEntries clear msg,
    (∀ q, e.px = some (.ok q) → PriceFits q) ∧ ∀ q, e.sz = some (.ok q) → SizeFits q

/-- A level of which every character is shown. -/
def LevelFits (px sz : UInt64) : Prop :=
  (priceText px.toNat).length ≤ 13 ∧ (trimmedText 5 sz.toNat).length ≤ 10
    ∧ ¬ FallsShort sz.toNat

/-- A message whose numbers come through is applied as exact arithmetic would
apply it. -/
theorem applyMessage_exact {clear : Bool} {msg : MarketMessageVariant ℚ}
    (h : BookFits clear msg) :
    applyMessage toUint64At clear (msg.map nearest) = applyMessage exactTicks clear msg := by
  rw [applyMessage_map]
  exact applyMessage_congr (fun e he =>
    ⟨fun q hq => ((h e he).1 q hq).exact.1, fun q hq => ((h e he).2 q hq).exact.1⟩)

theorem applyMessages_exact {clear : Bool} {msgs : List (MarketMessageVariant ℚ)}
    (h : ∀ msg ∈ msgs, BookFits clear msg) :
    applyMessages toUint64At clear (msgs.map (·.map nearest))
      = applyMessages exactTicks clear msgs := by
  induction msgs with
  | nil => rfl
  | cons msg msgs ih =>
    obtain ⟨hmsg, hmsgs⟩ := List.forall_mem_cons.mp h
    rw [List.map_cons, applyMessages, applyMessages, applyMessage_exact hmsg, ih hmsgs]

/-- What exact arithmetic puts in the book is shown in every character. -/
theorem keeps_applyMessages_exact {clear : Bool} {msgs : List (MarketMessageVariant ℚ)}
    (h : ∀ msg ∈ msgs, BookFits clear msg) :
    Keeps (AllLevels LevelFits) (applyMessages exactTicks clear msgs) := by
  induction msgs with
  | nil => exact (readOnly_pure ()).keeps
  | cons msg msgs ih =>
    obtain ⟨hmsg, hmsgs⟩ := List.forall_mem_cons.mp h
    refine (keeps_applyMessage (fun e he q s hq hs => ?_)).bind (fun _ _ _ _ => ih hmsgs)
    obtain ⟨-, -, hpx⟩ := ((hmsg e he).1 q hq).exact
    obtain ⟨-, -, hsz⟩ := ((hmsg e he).2 s hs).exact
    exact ⟨hpx, hsz⟩

/-- A table has a row for every row of what it was made of. -/
theorem forall₂_of_mapM {α β : Type} {f : α → Option β} {l : List α} {l' : List β}
    (h : l.mapM f = some l') : List.Forall₂ (fun a b => f a = some b) l l' := by
  induction l generalizing l' with
  | nil =>
    obtain rfl := Option.some.inj h
    exact List.Forall₂.nil
  | cons a l ih =>
    rw [List.mapM_cons] at h
    obtain ⟨b, hb, h⟩ := Option.bind_eq_some_iff.mp h
    obtain ⟨bs, hbs, h⟩ := Option.bind_eq_some_iff.mp h
    obtain rfl := Option.some.inj h
    exact List.Forall₂.cons hb (ih hbs)

/-- The cells of a side that has no level in a row: what the sentinel makes of
them. -/
def PastLevels (side : BookSide) (r : OrderBookBox.Row) : Prop :=
  r.px side = "1.84467440737".toList ∧ r.sz side = "1844674407".toList

theorem pastLevels_of_sentinel {row : BidAsk} {r : OrderBookBox.Row} {side : BookSide}
    (hr : OrderBookBox.uiRow row = some r)
    (hs : row.px side = BidAsk.sentinel ∧ row.sz side = BidAsk.sentinel) : PastLevels side r := by
  have hpx : priceCell BidAsk.sentinel 13 = some "1.84467440737".toList := by decide +kernel
  have hsz : sizeCell BidAsk.sentinel 10 = some "1844674407".toList := by decide +kernel
  obtain ⟨hpxCell, hszCell⟩ := OrderBookBox.uiRow_cells hr side
  rw [hs.1, hpx] at hpxCell
  rw [hs.2, hsz] at hszCell
  exact ⟨(Option.some.inj hpxCell).symm, (Option.some.inj hszCell).symm⟩

/-- **A table shows a book**: its rows are as many as the longer side has
levels, and in row `i` stand the price and the size of the `i`-th best level
of each side that has one, as numbers. The other side has no level there, but
cells with digits in them all the same. -/
structure ShowsBook (b : Core.OrderBook) (table : List OrderBookBox.Row) : Prop where
  length : table.length = max (b.size .bid) (b.size .offer)
  row : ∀ (side : BookSide) (i : ℕ) (px sz : UInt64), (b.levels side)[i]? = some (px, sz) →
    ∃ r, table[i]? = some r ∧ value (plain (r.px side)) = some (px.toNat / 100 : ℚ)
      ∧ Denotes (r.sz side) (sz.toNat / 10 ^ 5)
  past : ∀ (side : BookSide) (i : ℕ) (r : OrderBookBox.Row), table[i]? = some r →
    b.size side ≤ i → PastLevels side r

/-- A book of such levels is shown. -/
theorem showsBook_of_allLevels {b : Core.OrderBook} (h : AllLevels LevelFits b) :
    ∃ table, b.toVector.mapM OrderBookBox.uiRow = some table ∧ ShowsBook b table := by
  obtain ⟨table, htable, hget⟩ := OrderBookBox.exists_toTable b
  refine ⟨table, htable, ?_, fun side i px sz he => ?_, fun side i r hr hi => ?_⟩
  · rw [← (toVector_laidOut b).length]
    exact (forall₂_of_mapM htable).length_eq.symm
  · have hi : i < b.size side := by
      rw [← length_levels]
      exact (List.getElem?_eq_some_iff.mp he).1
    obtain ⟨row, hrow⟩ := (toVector_laidOut b).exists_row hi
    obtain ⟨rfl, rfl⟩ := (toVector_laidOut b).level_row side i row px sz hrow he
    obtain ⟨r, hr, hcells⟩ := OrderBookBox.exists_uiRow row
    have hlevel := ((bestFirst_levels b side).mem_iff _ _).mp (List.mem_of_getElem? he)
    obtain ⟨hpx, hsz, hshort⟩ := h side _ _ hlevel
    refine ⟨r, by rw [hget, hrow, Option.bind_some, hr], ?_, ?_⟩
    · exact value_plain_priceCell hpx (hcells side).1
    · exact (denotes_sizeCell_iff hsz (hcells side).2).mpr hshort
  · rw [hget, Option.bind_eq_some_iff] at hr
    obtain ⟨row, hrow, hr⟩ := hr
    exact pastLevels_of_sentinel hr ((toVector_laidOut b).past_row side i row hrow hi)

theorem allLevels_empty : AllLevels LevelFits Core.OrderBook.empty := by
  intro side px sz hget
  cases side with
  | bid => exact allEntries_empty px sz hget
  | offer => exact allEntries_empty px sz hget

section Sample

/-- A snapshot of one bid, of 1.2 at 1,234,567.87. -/
def quotedSnapshot : MarketDataSnapshotFullRefresh ℚ :=
  .ofGroups "BTCUSDT".toList
    [{ mdEntryType := some (.ok '0'), mdEntryPx := some (.ok (123456787 / 100)),
       mdEntrySize := some (.ok (120000 / 100000)) }]

/-- An increment of one trade, of as much at the same price. -/
def quotedIncrement : MarketDataIncrementalRefresh ℚ :=
  .ofGroups
    [{ symbol := some "BTCUSDT".toList, mdEntryType := some (.ok '2'),
       mdEntryPx := some (.ok (123456787 / 100)), mdEntrySize := some (.ok (120000 / 100000)),
       tradeID := some "17".toList, aggressorSide := some (.ok '1'),
       transactTime := some (.ok ⟨7, 17, 50, 31794⟩) }]

/-- The book of the one. -/
def quotedBook : Core.OrderBook :=
  ⟨(∅ : BtreeMap greater).insert (ticksOfDecimal (123456787 / 100) 100)
    (ticksOfDecimal (120000 / 100000) 100000), ∅⟩

/-- The trade of the other. -/
def quotedTrade : Trade :=
  ⟨ticksOfDecimal (123456787 / 100) 100, ticksOfDecimal (120000 / 100000) 100000, 17, .buy,
    snprintf (TradeBox.timeOfDay ⟨7, 17, 50, 31794⟩)⟩

/-- The two, read as doubles, as they are shown. -/
def quotedRun : List (ProgramEvent Binary64) :=
  shown (quotedSnapshot.map nearest) (quotedIncrement.map nearest) quotedBook.toVector 1
    [quotedTrade]

theorem trace_quotedRun : (program toUint64At 100 .empty).Trace quotedRun :=
  trace_shown (b := quotedBook) (r := RingBuffer.empty.pushBack quotedTrade) rfl rfl rfl

theorem priceFits_quoted : PriceFits (123456787 / 100) :=
  ⟨123456787, rfl, by decide +kernel, by decide +kernel⟩

theorem sizeFits_quoted : SizeFits (120000 / 100000) :=
  ⟨120000, rfl, by decide +kernel, by decide +kernel, by decide +kernel⟩

end Sample

/-- **The screen shows the exchange's book.** Whatever the threads of the
program do: if the numbers in the messages that the worker took come through,
a drawing of the book shows the book that exact arithmetic makes of the first
`k` of these messages, with `k` as in every drawing, and past the last level
of its shorter side what the sentinel makes. -/
theorem book_on_screen {maxDepth : UInt16} {t : List (ProgramEvent Binary64)}
    (h : (program toUint64At maxDepth .empty).Trace t) {msgs : List (MarketMessageVariant ℚ)}
    (htaken : (orderSeen t).taken = msgs.map (·.map nearest))
    (hfit : ∀ msg ∈ msgs, BookFits (isBookClearNeeded maxDepth) msg) :
    ∃ ks : List ℕ, ks.Pairwise (· ≤ ·)
      ∧ List.Forall₂ (fun v k => v.postedBefore ≤ k ∧ k ≤ v.takenBefore
          ∧ ∃ table, v.drawn.mapM OrderBookBox.uiRow = some table
            ∧ ShowsBook (bookAfter exactTicks maxDepth .empty (msgs.take k)) table)
        (orderSeen t).drawings ks := by
  obtain ⟨ks, hks, hshows⟩ := (orderSeen_works h).drawings
  refine ⟨ks, hks, hshows.imp (fun v k hv => ⟨hv.postedBefore_le, hv.known, ?_⟩)⟩
  have hfit' : ∀ msg ∈ msgs.take k, BookFits (isBookClearNeeded maxDepth) msg :=
    fun msg hmsg => hfit msg (List.mem_of_mem_take hmsg)
  have hbook : stateAfter (applyMessage toUint64At (isBookClearNeeded maxDepth)) .empty
      ((orderSeen t).taken.take k) = bookAfter exactTicks maxDepth .empty (msgs.take k) := by
    rw [htaken, ← List.map_take, stateAfter, handleAll_applyMessage, applyMessages_exact hfit',
      bookAfter]
  have hlevels : AllLevels LevelFits (bookAfter exactTicks maxDepth .empty (msgs.take k)) := by
    have hkeeps := keeps_applyMessages_exact hfit'
    unfold bookAfter Resumption.outcome
    cases hrun : (applyMessages exactTicks (isBookClearNeeded maxDepth) (msgs.take k)).run
        .empty with
    | ok u b => exact hkeeps.1 _ u b allLevels_empty hrun
    | error e b => exact hkeeps.2 _ e b allLevels_empty hrun
  rw [hv.drawn, hbook]
  exact showsBook_of_allLevels hlevels

/-- One drawing, of the one bid. -/
theorem book_on_screen_quoted :
    (orderSeen quotedRun).drawings = [⟨1, 1, 1, quotedBook.toVector⟩]
      ∧ ∃ ks : List ℕ, ks.Pairwise (· ≤ ·)
        ∧ List.Forall₂ (fun v k => v.postedBefore ≤ k ∧ k ≤ v.takenBefore
            ∧ ∃ table, v.drawn.mapM OrderBookBox.uiRow = some table
              ∧ ShowsBook (bookAfter exactTicks 100 .empty
                (List.take k [.snapshot quotedSnapshot])) table)
          (orderSeen quotedRun).drawings ks := by
  refine ⟨rfl, book_on_screen trace_quotedRun rfl (fun msg hmsg e he => ?_)⟩
  rw [List.mem_singleton.mp hmsg] at he
  obtain rfl := List.mem_singleton.mp he
  constructor
  · intro q hq
    obtain rfl := Except.ok.inj (Option.some.inj hq)
    exact priceFits_quoted
  · intro q hq
    obtain rfl := Except.ok.inj (Option.some.inj hq)
    exact sizeFits_quoted

/-! ## The trades -/

section Trades

open Binance TradeBox

end Trades

end Ui
