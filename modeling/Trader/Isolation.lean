import Trader.BookHistory
import Trader.TradeBox

set_option autoImplicit false

/-!
# Instruments kept apart

The book and the trade list are for `BTCUSDT`, and the messages they are
fed may be about other instruments, or about several at once. They would
be isolated from these if a message acted as the message made of its own
`BTCUSDT` entries alone does (`isolate`). That is so as long as no symbol
is an *alias* – another text the conversion takes for `BTCUSDT` – and every
alias breaks it, for the book and for the trade list alike.
-/

namespace Binance

open Fix EarlyExit

variable {δ : Type}

/-- **An alias** is another text that is taken for `BTCUSDT`: seven bytes,
the first of them a `B`. -/
def IsAlias (text : Text) : Prop :=
  text ≠ Symbol.btcusdtText ∧ text.length = 7 ∧ text.head? = some 'B'

/-- The entries of a list whose effective symbol is `BTCUSDT`, each given it
as its own. -/
def explicitBtc (ps : List (Option Text × IncrementEntry δ)) : List (IncrementEntry δ) :=
  (ps.filter (fun p => p.1 = some Symbol.btcusdtText)).map
    (fun p => { p.2 with symbol := p.1 })

/-- **The increment with explicit symbols** from which every entry whose
effective symbol is not `BTCUSDT` has been removed. -/
def isolate (msg : MarketDataIncrementalRefresh δ) : MarketDataIncrementalRefresh δ :=
  .ofGroups (explicitBtc (entriesOf msg))

/-- The effective symbols of an increment. -/
def incrementSymbols (msg : MarketDataIncrementalRefresh δ) : Set Text :=
  {text | ∃ p ∈ entriesOf msg, p.1 = some text}

/-- Without aliases, being taken for `BTCUSDT` is being `BTCUSDT`. -/
theorem isBtc_iff {text : Option Text} (h : ∀ t, text = some t → ¬ IsAlias t) :
    isBtc text = true ↔ text = some Symbol.btcusdtText := by
  cases text with
  | none => exact iff_of_false nofun nofun
  | some t =>
    rw [isBtc, decide_eq_true_iff, Symbol.fromStr_eq_btcusdt_iff, Option.some.injEq]
    constructor
    · intro ht
      by_contra hne
      exact h t rfl ⟨hne, ht⟩
    · rintro rfl
      decide

/-- Entries that all have a symbol of their own inherit none. -/
theorem withSymbols_explicitBtc (inherited : Option Text)
    (ps : List (Option Text × IncrementEntry δ)) :
    withSymbols inherited (explicitBtc ps)
      = (explicitBtc ps).map (fun g => (some Symbol.btcusdtText, g)) := by
  unfold explicitBtc
  induction ps generalizing inherited with
  | nil => rfl
  | cons p ps ih =>
    by_cases hp : p.1 = some Symbol.btcusdtText
    · rw [List.filter_cons, if_pos (decide_eq_true hp), List.map_cons, withSymbols,
        List.map_cons, hp, Option.some_or, ih]
    · rw [List.filter_cons, if_neg (fun h => hp (of_decide_eq_true h)), ih]

/-- The entries of the isolated increment. -/
theorem entriesOf_isolate (msg : MarketDataIncrementalRefresh δ) :
    entriesOf (isolate msg)
      = (explicitBtc (entriesOf msg)).map (fun g => (some Symbol.btcusdtText, g)) := by
  rw [entriesOf, isolate, counted_ofGroups, withSymbols_explicitBtc]

/-- All of them are kept. -/
theorem btcEntries_isolate (msg : MarketDataIncrementalRefresh δ) :
    btcEntries (entriesOf (isolate msg)) = explicitBtc (entriesOf msg) := by
  have hall : ∀ p ∈ (explicitBtc (entriesOf msg)).map
      (fun g => (some Symbol.btcusdtText, g)), isBtc p.1 = true := by
    intro p hp
    obtain ⟨g, -, rfl⟩ := List.mem_map.mp hp
    exact (isBtc_iff (fun t ht h => h.1 (Option.some.inj ht).symm)).mpr rfl
  rw [entriesOf_isolate, btcEntries, List.filter_eq_self.mpr hall, List.map_map]
  exact List.map_id _

/-- **Isolation of an entry loop**: without aliases, and where what is done
with an entry does not depend on its symbol field, the isolated increment
does what the increment did. -/
theorem incrementLoop_isolate {σ : Type}
    {act : SymbolEnum → IncrementEntry δ → EStateM Exception σ Unit}
    {R : IncrementEntry δ → Prop} {f : IncrementEntry δ → σ → σ}
    (hact : ∀ g u s s', (act .btcusdt g).run s = .ok u s' ↔ R g ∧ s' = f g s)
    (hR : ∀ (g : IncrementEntry δ) text, R g → R { g with symbol := text })
    (hf : ∀ (g : IncrementEntry δ) text, f { g with symbol := text } = f g)
    {msg : MarketDataIncrementalRefresh δ} {s s' : σ} {u : Unit}
    (halias : ∀ text ∈ incrementSymbols msg, ¬ IsAlias text)
    (h : (incrementLoop act msg).run s = .ok u s') :
    (incrementLoop act (isolate msg)).run s = .ok u s' := by
  obtain ⟨-, hall, rfl⟩ := (incrementLoop_ok_iff hact).mp h
  have hbtc : ∀ p ∈ entriesOf msg, isBtc p.1 = true ↔ p.1 = some Symbol.btcusdtText :=
    fun p hp => isBtc_iff (fun t ht => halias t ⟨p, hp, ht⟩)
  refine (incrementLoop_ok_iff hact).mpr ⟨countFits_ofGroups _, ?_, ?_⟩
  · rw [entriesOf_isolate]
    intro q hq
    obtain ⟨g, hg, rfl⟩ := List.mem_map.mp hq
    obtain ⟨p, hp, rfl⟩ := List.mem_map.mp hg
    obtain ⟨hp, hsym⟩ := List.mem_filter.mp hp
    refine ⟨⟨.btcusdt, .btcusdt, by decide, rfl⟩, fun _ => hR p.2 p.1 ?_⟩
    exact (hall p hp).2 ((hbtc p hp).mpr (of_decide_eq_true hsym))
  · have hfilter : (entriesOf msg).filter (fun p => isBtc p.1)
        = (entriesOf msg).filter (fun p => p.1 = some Symbol.btcusdtText) :=
      List.filter_congr (fun p hp =>
        Bool.eq_iff_iff.mpr ((hbtc p hp).trans decide_eq_true_iff.symm))
    rw [btcEntries_isolate, btcEntries, explicitBtc, hfilter, List.foldl_map, List.foldl_map]
    simp only [hf]

/-- An entry alone in a message keeps its own symbol. -/
theorem entriesOf_singleton (g : IncrementEntry δ) :
    entriesOf (.ofGroups [g]) = [(g.symbol, g)] := by
  rw [entriesOf, counted_ofGroups, withSymbols, withSymbols, Option.or_none]

/-- An alias is accepted and taken for `BTCUSDT`. -/
theorem IsAlias.carries {text : Text} (h : IsAlias text) :
    Carries (some text) (some .btcusdt) ∧ isBtc (some text) = true :=
  have hstr := Symbol.fromStr_eq_btcusdt_iff.mpr h.2
  ⟨⟨.btcusdt, hstr, rfl⟩, decide_eq_true hstr⟩

/-- A message whose only entry has an alias for symbol is isolated to the
empty one. -/
theorem isolate_alias {g : IncrementEntry δ} {text : Text} (hg : g.symbol = some text)
    (h : IsAlias text) : isolate (.ofGroups [g]) = .ofGroups [] := by
  rw [isolate, entriesOf_singleton, explicitBtc, List.filter_cons, if_neg]
  · rfl
  · rw [hg, decide_eq_true_iff]
    exact fun heq => h.1 (Option.some.inj heq)

end Binance

namespace Isolation

open Fix Binance EarlyExit Core Core.OrderBook Ui.TradeBox

variable {δ : Type} (toUint64 : δ → UInt64 → UInt64) (W : Set Text)

/-! ## Isolation of the book and of the trade list

Each is stated over the symbols the messages may carry. -/

/-- Snapshots of other instruments leave the book unchanged. -/
def SnapshotsIsolated : Prop :=
  ∀ (msg : MarketDataSnapshotFullRefresh δ) (b b' : OrderBook) (u : Unit),
    (∀ text, msg.symbol = some text → text ∈ W) →
    msg.symbol ≠ some Symbol.btcusdtText →
    (applySnapshot toUint64 msg).run b = .ok u b' → b' = b

/-- An increment gives the same book as the isolated one. -/
def IncrementsIsolated : Prop :=
  ∀ (clear : Bool) (msg : MarketDataIncrementalRefresh δ) (b b' : OrderBook) (u : Unit),
    incrementSymbols msg ⊆ W →
    (applyIncrement toUint64 clear msg).run b = .ok u b' →
    (applyIncrement toUint64 clear (isolate msg)).run b = .ok u b'

/-- An increment gives the same ring as the isolated one. -/
def TradesIsolated : Prop :=
  ∀ (msg : MarketDataIncrementalRefresh δ) (r r' : TradeRing) (u : Unit),
    incrementSymbols msg ⊆ W →
    (onTrade toUint64 msg).run r = .ok u r' →
    (onTrade toUint64 (isolate msg)).run r = .ok u r'

/-- An empty increment changes nothing. -/
theorem applyIncrement_nil {clear : Bool} {b b' : OrderBook} {u : Unit}
    (h : (applyIncrement toUint64 clear (.ofGroups [])).run b = .ok u b') : b' = b :=
  ((applyIncrement_ok_iff toUint64).mp h).2

/-- An empty increment adds no trade. -/
theorem onTrade_nil {r r' : TradeRing} {u : Unit}
    (h : (onTrade toUint64 (.ofGroups [])).run r = .ok u r') : r' = r :=
  ((onTrade_ok_iff toUint64).mp h).2

/-- A book with one level. -/
def oneLevel (side : BookSide) (px sz : UInt64) : OrderBook :=
  empty.runOps (fun side' => if side' = side then [.set px sz] else [])

theorem level_oneLevel (side : BookSide) (px sz : UInt64) :
    (oneLevel side px sz).level side px = some sz := by
  rw [oneLevel, level_runOps, if_pos rfl]
  exact KeyOp.run_of_last (o := .set px sz) rfl (fun o ho => absurd ho List.not_mem_nil) [] _

/-- **Snapshots are isolated** from exactly the symbols that are no aliases:
one of an alias clears the book. -/
theorem snapshotsIsolated_iff :
    SnapshotsIsolated toUint64 W ↔ ∀ text ∈ W, ¬ IsAlias text := by
  constructor
  · intro hiso text htext h
    obtain ⟨hc, hbtc⟩ := h.carries
    let msg : MarketDataSnapshotFullRefresh δ := .ofGroups text []
    have hrun : (applySnapshot toUint64 msg).run (oneLevel .bid 0 0) = .ok ()
        ((oneLevel .bid 0 0).runOps (fun side => snapshotMessageOps toUint64 side msg)) :=
      (applySnapshot_ok_iff toUint64).mpr ⟨⟨⟨_, hc⟩, fun _ =>
        ⟨⟨0, rfl, Nat.le_refl _⟩, fun g hg => absurd hg List.not_mem_nil⟩⟩, rfl⟩
    have hsame := hiso msg _ _ _ (fun t ht => Option.some.inj ht ▸ htext)
      (fun heq => h.1 (Option.some.inj heq)) hrun
    have hops : snapshotMessageOps toUint64 .bid msg = [.clear] := if_pos hbtc
    have hlevel := congrArg (fun b : OrderBook => b.level .bid 0) hsame
    rw [level_oneLevel, level_runOps, hops] at hlevel
    cases hlevel
  · intro hW msg b b' u hsym hne h
    obtain ⟨-, rfl⟩ := (applySnapshot_ok_iff toUint64).mp h
    have hno : ¬ isBtc msg.symbol = true := fun hbtc =>
      hne ((isBtc_iff (fun t ht => hW t (hsym t ht))).mp hbtc)
    unfold snapshotMessageOps
    simp only [if_neg hno]
    exact runOps_nil b

/-- An entry that deletes a bid. -/
def deleteBid (symbol : Text) (px : δ) : IncrementEntry δ where
  symbol := some symbol
  mdEntryType := some (.ok mdEntryTypeBid)
  mdUpdateAction := some (.ok mdUpdateActionDelete)
  mdEntryPx := some (.ok px)

/-- An entry that is a trade. -/
def trade (symbol : Text) (px sz : δ) : IncrementEntry δ where
  symbol := some symbol
  mdEntryType := some (.ok mdEntryTypeTrade)
  mdEntryPx := some (.ok px)
  mdEntrySize := some (.ok sz)
  tradeID := some ['1']
  aggressorSide := some (.ok '1')

/-- **Increments are isolated** from exactly the symbols that are no aliases:
the entries of an alias edit the book. -/
theorem incrementsIsolated_iff (px : δ) :
    IncrementsIsolated toUint64 W ↔ ∀ text ∈ W, ¬ IsAlias text := by
  constructor
  · intro hiso text htext h
    obtain ⟨hc, hbtc⟩ := h.carries
    let msg : MarketDataIncrementalRefresh δ := .ofGroups [deleteBid text px]
    let b := oneLevel .bid (priceTicks toUint64 px) 0
    have hentries : entriesOf msg = [(some text, deleteBid text px)] := entriesOf_singleton _
    have hrun : (applyIncrement toUint64 false msg).run b = .ok ()
        (b.runOps (fun side => incrementMessageOps toUint64 false side msg)) := by
      refine (applyIncrement_ok_iff toUint64).mpr ⟨⟨countFits_ofGroups _, ?_⟩, rfl⟩
      rw [hentries, List.forall_mem_singleton]
      exact ⟨⟨_, hc⟩, fun _ => ⟨_, _, rfl, rfl, fun _ => ⟨⟨px, rfl⟩, _, rfl, nofun⟩⟩⟩
    have hsame : b.runOps (fun side => incrementMessageOps toUint64 false side msg) = b := by
      have hiso' := hiso false msg b _ () ?_ hrun
      · rw [isolate_alias rfl h] at hiso'
        exact applyIncrement_nil toUint64 hiso'
      · rintro t ⟨p, hp, ht⟩
        rw [hentries, List.mem_singleton] at hp
        subst hp
        exact Option.some.inj ht ▸ htext
    have hops : incrementMessageOps toUint64 false .bid msg
        = [.remove (priceTicks toUint64 px)] := by
      rw [incrementMessageOps, hentries, btcEntries, List.filter_cons, if_pos hbtc]
      rfl
    have hlevel := congrArg (fun b : OrderBook => b.level .bid (priceTicks toUint64 px)) hsame
    have hgone : KeyOp.run [.remove (priceTicks toUint64 px)] (b.level .bid)
        (priceTicks toUint64 px) = none :=
      KeyOp.run_of_last (o := .remove _) rfl (fun o ho => absurd ho List.not_mem_nil) [] _
    rw [level_oneLevel, level_runOps, hops, hgone] at hlevel
    cases hlevel
  · intro hW clear msg b b' u hsym h
    exact incrementLoop_isolate (fun g u s s' => applyIncrementEntry_ok_iff toUint64)
      (fun g text hR => hR) (fun g text => rfl) (fun text ht => hW text (hsym ht)) h

/-- **The trade list is isolated** from exactly the symbols that are no
aliases: the trades of an alias enter it. -/
theorem tradesIsolated_iff (px : δ) :
    TradesIsolated toUint64 W ↔ ∀ text ∈ W, ¬ IsAlias text := by
  constructor
  · intro hiso text htext h
    obtain ⟨hc, hbtc⟩ := h.carries
    let msg : MarketDataIncrementalRefresh δ := .ofGroups [trade text px px]
    have hentries : entriesOf msg = [(some text, trade text px px)] := entriesOf_singleton _
    have hdecode : ∃ t, decode toUint64 (trade text px px) = some t := ⟨_, rfl⟩
    obtain ⟨t, ht⟩ := hdecode
    have htrades : messageTrades toUint64 msg = [t] := by
      rw [messageTrades, hentries, btcEntries, List.filter_cons, if_pos hbtc]
      show entryTrades toUint64 (trade text px px) ++ [] = [t]
      rw [entryTrades, if_pos ⟨rfl, rfl⟩, ht]
      rfl
    have hrun : (onTrade toUint64 msg).run RingBuffer.empty = .ok ()
        ((messageTrades toUint64 msg).foldl RingBuffer.pushBack RingBuffer.empty) := by
      refine (onTrade_ok_iff toUint64).mpr ⟨⟨countFits_ofGroups _, ?_⟩, rfl⟩
      rw [hentries, List.forall_mem_singleton]
      exact ⟨⟨_, hc⟩, fun _ => ⟨⟨_, rfl⟩, fun _ => ⟨t, (decode_eq_some_iff toUint64).mp ht⟩⟩⟩
    have hiso' := hiso msg _ _ () ?_ hrun
    · rw [isolate_alias rfl h] at hiso'
      have hitems := congrArg RingBuffer.items (onTrade_nil toUint64 hiso')
      rw [RingBuffer.foldl_pushBack_items, htrades] at hitems
      cases hitems
    · rintro t' ⟨p, hp, ht'⟩
      rw [hentries, List.mem_singleton] at hp
      subst hp
      exact Option.some.inj ht' ▸ htext
  · intro hW msg r r' u hsym h
    exact incrementLoop_isolate (fun g u s s' => onTradeEntry_ok_iff toUint64)
      (fun g text hR => hR.withSymbol toUint64 text)
      (fun g text => rfl) (fun text ht => hW text (hsym ht)) h

/-- **Isolation from aliases alone.** The book, under snapshots and under
increments, and the trade list are isolated from other instruments, for all
messages whose symbols are among some, exactly when no alias is among
these. -/
theorem isolated_iff_not_isAlias (px : δ) :
    (SnapshotsIsolated toUint64 W ↔ ∀ text ∈ W, ¬ IsAlias text)
      ∧ (IncrementsIsolated toUint64 W ↔ ∀ text ∈ W, ¬ IsAlias text)
      ∧ (TradesIsolated toUint64 W ↔ ∀ text ∈ W, ¬ IsAlias text) :=
  ⟨snapshotsIsolated_iff toUint64 W, incrementsIsolated_iff toUint64 W px,
    tradesIsolated_iff toUint64 W px⟩

/-- A snapshot of `BNBUSDT` replaces the book of `BTCUSDT`: the bid at 900 is
gone and one at the foreign price is there. -/
theorem bnbusdt_not_isolated :
    (∃ b', (applySnapshot (fun (px : ℕ) ticks => UInt64.ofNat px * ticks)
        (.ofGroups "BNBUSDT".toList
          [{ mdEntryType := some (.ok '0'), mdEntryPx := some (.ok 6),
             mdEntrySize := some (.ok 1) }])).run (oneLevel .bid 900 1) = .ok () b'
      ∧ (oneLevel .bid 900 1).level .bid 900 = some 1
      ∧ b'.level .bid 900 = none ∧ b'.level .bid 600 = some 100000)
    ∧ ¬ SnapshotsIsolated (fun (px : ℕ) ticks => UInt64.ofNat px * ticks)
        {"BNBUSDT".toList} := by
  refine ⟨⟨_, rfl, rfl, rfl, rfl⟩, fun h => ?_⟩
  let msg : MarketDataSnapshotFullRefresh ℕ := .ofGroups "BNBUSDT".toList []
  have hrun : ∃ b', (applySnapshot (fun (px : ℕ) ticks => UInt64.ofNat px * ticks) msg).run
      (oneLevel .bid 900 1) = .ok () b' ∧ b'.level .bid 900 = none := ⟨_, rfl, rfl⟩
  obtain ⟨b', hok, hgone⟩ := hrun
  rw [h msg _ _ () (fun text ht => (Option.some.inj ht).symm) (by decide) hok,
    level_oneLevel] at hgone
  cases hgone

end Isolation
