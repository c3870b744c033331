import Trader.Worker
import Trader.Isolation

set_option autoImplicit false

/-!
# Messages of other instruments and the workers

A message of another instrument is meant to be skipped: both boxes have a
branch that says so. But the branch comes after the conversion of the
symbol, which throws on every text it does not recognise by its length and
first byte, and it is not taken for the aliases of `BTCUSDT`. So a worker
survives, and skips what it should, exactly on the symbols that the
conversion accepts and that are no aliases – up to entries of an alias that
come to nothing anyway.
-/

namespace ForeignMessage

open Fix Binance EarlyExit Core Core.OrderBook Ui Ui.TradeBox Isolation

variable {δ : Type}

/-! ## Complete messages -/

/-- An increment in which every entry has the fields `R` asks for. -/
structure Complete (R : IncrementEntry δ → Prop) (msg : MarketDataIncrementalRefresh δ) :
    Prop where
  countFits : CountFits msg.noMDEntries msg.groups
  readable : ∀ g ∈ counted msg.noMDEntries msg.groups, R g

/-- A snapshot with every field it is read for. -/
structure CompleteSnapshot (msg : MarketDataSnapshotFullRefresh δ) : Prop where
  countFits : CountFits msg.noMDEntries msg.groups
  readable : ∀ g ∈ counted msg.noMDEntries msg.groups, SnapshotReadable g

/-- A complete message of the order queue. -/
def CompleteMessage : MarketMessageVariant δ → Prop
  | .snapshot msg => CompleteSnapshot msg
  | .increment msg => Complete IncrementReadable msg

/-- The entries of an increment, whatever their symbols, are its groups. -/
theorem map_snd_withSymbols (inherited : Option Text) (gs : List (IncrementEntry δ)) :
    (withSymbols inherited gs).map Prod.snd = gs := by
  induction gs generalizing inherited with
  | nil => rfl
  | cons g gs ih => rw [withSymbols, List.map_cons, ih]

theorem Complete.readable_entry {R : IncrementEntry δ → Prop}
    {msg : MarketDataIncrementalRefresh δ} (h : Complete R msg)
    {p : Option Text × IncrementEntry δ} (hp : p ∈ entriesOf msg) : R p.2 := by
  refine h.readable p.2 ?_
  have hmem := List.mem_map_of_mem (f := Prod.snd) hp
  rwa [entriesOf, map_snd_withSymbols] at hmem

/-! ## What a worker should do -/

/-- An entry is skipped: what the loop does with it, once the symbol is
known, leaves every state as it is. -/
def Skipped {σ : Type} (act : SymbolEnum → IncrementEntry δ → EStateM Exception σ Unit)
    (p : Option Text × IncrementEntry δ) : Prop :=
  ∀ symbol s, Carries p.1 symbol → (skipOthers act symbol p.2).run s = .ok () s

/-- A symbol of another instrument. -/
def Foreign (text : Option Text) : Prop := text ≠ some Symbol.btcusdtText

/-- The entries of other instruments are skipped. -/
def SkipsForeign {σ : Type} (act : SymbolEnum → IncrementEntry δ → EStateM Exception σ Unit)
    (msg : MarketDataIncrementalRefresh δ) : Prop :=
  ∀ p ∈ entriesOf msg, Foreign p.1 → Skipped act p

/-- The symbols under which an increment is skipped where it should be: all
of them are accepted, and the entries of an alias do nothing. -/
def SkippableSymbols (Ignored : IncrementEntry δ → Prop)
    (msg : MarketDataIncrementalRefresh δ) : Prop :=
  ∀ p ∈ entriesOf msg, ∃ text, p.1 = some text
    ∧ text.length = 7 ∧ (text.head? = some 'B' ∨ text.head? = some 'E')
    ∧ (IsAlias text → Ignored p.2)

theorem accepted_iff {text : Option Text} :
    Accepted text ↔ ∃ t, text = some t
      ∧ t.length = 7 ∧ (t.head? = some 'B' ∨ t.head? = some 'E') := by
  cases text with
  | none => exact iff_of_false (fun h => h.elim nofun) (fun h => h.elim nofun)
  | some t =>
    constructor
    · rintro ⟨sym, sym', hsym, -⟩
      exact ⟨t, rfl, Symbol.fromStr_ok_iff.mp ⟨sym', hsym⟩⟩
    · rintro ⟨t', ht, h⟩
      obtain rfl := Option.some.inj ht
      obtain ⟨sym, hsym⟩ := Symbol.fromStr_ok_iff.mpr h
      exact ⟨sym, sym, hsym, rfl⟩

/-- A foreign text is taken for `BTCUSDT` when it is an alias. -/
theorem isBtc_foreign_iff {text : Text} (h : Foreign (some text)) :
    isBtc (some text) = true ↔ IsAlias text := by
  rw [isBtc, decide_eq_true_iff, Symbol.fromStr_eq_btcusdt_iff]
  exact (and_iff_right (fun heq => h (congrArg some heq))).symm

section Skips

variable {σ : Type} {act : SymbolEnum → IncrementEntry δ → EStateM Exception σ Unit}
  {R Ignored : IncrementEntry δ → Prop} {f : IncrementEntry δ → σ → σ}

/-- **Skipping, entry by entry**: an entry of another instrument is skipped
exactly when its symbol is no alias, or when `act` ignores it. -/
theorem skipped_iff
    (hact : ∀ g u s s', (act .btcusdt g).run s = .ok u s' ↔ R g ∧ s' = f g s)
    (hignored : ∀ g, R g → ((∀ s, f g s = s) ↔ Ignored g))
    {text : Text} {g : IncrementEntry δ} (hR : R g) (hacc : Accepted (some text))
    (hforeign : Foreign (some text)) :
    Skipped act (some text, g) ↔ (IsAlias text → Ignored g) := by
  obtain ⟨sym, hcarry⟩ := hacc
  have hsym : sym = .btcusdt ↔ IsAlias text := by
    rw [← isBtc_foreign_iff hforeign, ← hcarry.eq_btcusdt_iff, Option.some.injEq]
  constructor
  · intro hskip halias
    obtain rfl := hsym.mpr halias
    refine (hignored g hR).mp (fun s => ?_)
    have hrun := hskip (some .btcusdt) s hcarry
    rw [skipOthers_eq, if_pos rfl, hact] at hrun
    exact hrun.2.symm
  · intro himp symbol s hcarry'
    obtain rfl := hcarry'.unique hcarry
    rw [skipOthers_eq]
    by_cases hbtc : some sym = some SymbolEnum.btcusdt
    · rw [if_pos hbtc, hact]
      have hid := (hignored g hR).mpr (himp (hsym.mp (Option.some.inj hbtc)))
      exact ⟨hR, (hid s).symm⟩
    · rw [if_neg hbtc]
      rfl

/-- Of a complete increment, being accepted and being skipped where it
should come to a condition on its symbols. -/
theorem skipsForeign_iff
    (hact : ∀ g u s s', (act .btcusdt g).run s = .ok u s' ↔ R g ∧ s' = f g s)
    (hignored : ∀ g, R g → ((∀ s, f g s = s) ↔ Ignored g))
    {msg : MarketDataIncrementalRefresh δ} (hmsg : Complete R msg) :
    ((∀ p ∈ entriesOf msg, Accepted p.1 ∧ (isBtc p.1 = true → R p.2))
        ∧ SkipsForeign act msg)
      ↔ SkippableSymbols Ignored msg := by
  constructor
  · rintro ⟨hacc, hskip⟩ ⟨o, g⟩ hp
    obtain ⟨text, rfl, hlen, hhead⟩ := accepted_iff.mp (hacc _ hp).1
    refine ⟨text, rfl, hlen, hhead, fun halias => ?_⟩
    have hforeign : Foreign (some text) := fun heq => halias.1 (Option.some.inj heq)
    exact (skipped_iff hact hignored (hmsg.readable_entry hp) (hacc _ hp).1 hforeign).mp
      (hskip _ hp hforeign) halias
  · intro h
    have hacc : ∀ p ∈ entriesOf msg, Accepted p.1 := by
      intro p hp
      obtain ⟨text, heq, hlen, hhead, -⟩ := h p hp
      exact accepted_iff.mpr ⟨text, heq, hlen, hhead⟩
    refine ⟨fun p hp => ⟨hacc p hp, fun _ => hmsg.readable_entry hp⟩, ?_⟩
    rintro ⟨o, g⟩ hp hforeign
    obtain ⟨text, rfl, -, -, halias⟩ := h _ hp
    exact (skipped_iff hact hignored (hmsg.readable_entry hp) (hacc _ hp) hforeign).mpr halias

end Skips

/-! ## The order-book worker -/

section Book

variable (toUint64 : δ → UInt64 → UInt64)

/-- An entry the book ignores: neither a bid nor an offer, or with an action
that is none of the three. -/
def IgnoredByBook (g : IncrementEntry δ) : Prop :=
  (∀ side : BookSide, g.mdEntryType ≠ some (.ok side.entryType))
    ∨ ∀ act, SetsLevel act ∨ act = mdUpdateActionDelete → g.mdUpdateAction ≠ some (.ok act)

/-- An entry the book ignores runs nothing on either side. -/
theorem incrementOps_of_ignored {clear : Bool} {g : IncrementEntry δ} (h : IgnoredByBook g)
    (side : BookSide) : incrementOps toUint64 clear side g = [] := by
  unfold incrementOps
  split
  · next tp act px htp haction _ =>
    rcases h with hside | hact
    · exact if_neg (fun heq : tp = side.entryType => hside side (heq ▸ htp))
    · have hother : ∀ act', SetsLevel act' ∨ act' = mdUpdateActionDelete → act ≠ act' :=
        fun act' h heq => hact act' h (heq ▸ haction)
      unfold actionOps
      rw [if_neg (hother _ (Or.inr rfl)), if_neg (hother _ (Or.inl (Or.inl rfl))),
        if_neg (hother _ (Or.inl (Or.inr rfl))), ite_self]
  · rfl

/-- Any other readable entry ends with an operation at its price, which sets a
level or removes one. -/
theorem exists_last_of_not_ignored {clear : Bool} {g : IncrementEntry δ}
    (hg : IncrementReadable g) (h : ¬ IgnoredByBook g) :
    ∃ side px pre o, incrementOps toUint64 clear side g = pre ++ [o]
      ∧ ((∃ sz, o = .set px sz) ∨ o = .remove px) := by
  obtain ⟨tp, action, htp, haction, hread⟩ := hg
  obtain ⟨hside, hact⟩ := not_or.mp h
  obtain ⟨side, hside⟩ := not_forall_not.mp hside
  obtain ⟨act, hact⟩ := not_forall.mp hact
  obtain ⟨hthree, hact⟩ := Classical.not_imp.mp hact
  replace hact := not_not.mp hact
  obtain rfl : tp = side.entryType := Except.ok.inj (Option.some.inj (htp.symm.trans hside))
  obtain rfl : action = .ok act := Option.some.inj (haction.symm.trans hact)
  have hbook : side.entryType = mdEntryTypeBid ∨ side.entryType = mdEntryTypeOffer := by
    cases side with
    | bid => exact Or.inl rfl
    | offer => exact Or.inr rfl
  obtain ⟨⟨px, hpx⟩, act', hact', hsz⟩ := hread hbook
  obtain rfl := Except.ok.inj hact'
  have hops : incrementOps toUint64 clear side g = actionOps toUint64 clear g act px := by
    unfold incrementOps
    rw [htp, hact, hpx]
    exact if_pos rfl
  refine ⟨side, priceTicks toUint64 px, ?_⟩
  rw [hops]
  rcases hthree with hset | rfl
  · obtain ⟨sz, hsz⟩ := hsz hset
    unfold actionOps setOps
    rw [hsz]
    rcases hset with rfl | rfl
    · exact ⟨if clear then [.clear] else [], _, rfl, Or.inl ⟨sizeTicks toUint64 sz, rfl⟩⟩
    · exact ⟨[], _, rfl, Or.inl ⟨sizeTicks toUint64 sz, rfl⟩⟩
  · exact ⟨[], _, rfl, Or.inr rfl⟩

/-- **What the book ignores** is what changes no book. -/
theorem ignoredByBook_iff {clear : Bool} {g : IncrementEntry δ} (hg : IncrementReadable g) :
    (∀ b : OrderBook, b.runOps (fun side => incrementOps toUint64 clear side g) = b)
      ↔ IgnoredByBook g := by
  constructor
  · intro hsame
    by_contra hno
    obtain ⟨side, px, pre, o, hops, ho⟩ := exists_last_of_not_ignored toUint64 hg hno
    -- the last operation decides the level at the price, whatever the book
    have hlast : o.Affects px → ∀ b : OrderBook, b.level side px = o.result := by
      intro haff b
      have hlevel := congrArg (fun b : OrderBook => b.level side px) (hsame b)
      rw [level_runOps, hops, KeyOp.run_of_last haff (fun o ho => absurd ho
        List.not_mem_nil)] at hlevel
      exact hlevel.symm
    rcases ho with ⟨sz, rfl⟩ | rfl
    · have hempty := hlast rfl empty
      cases side with
      | bid => cases hempty
      | offer => cases hempty
    · have hone := hlast rfl (oneLevel side px 0)
      rw [level_oneLevel] at hone
      cases hone
  · intro h b
    rw [show (fun side => incrementOps toUint64 clear side g) = fun _ => [] from
      funext (incrementOps_of_ignored toUint64 h), runOps_nil]

/-- The message is skipped, or its entries are, where they should be. -/
def SkipsMessage (clear : Bool) : MarketMessageVariant δ → Prop
  | .snapshot msg => Foreign msg.symbol → ∀ b, (applySnapshot toUint64 msg).run b = .ok () b
  | .increment msg => SkipsForeign (applyIncrementEntry toUint64 clear) msg

/-- The symbols under which a message of the order queue stops no worker and
is skipped where it should be. -/
def SkippableMessage : MarketMessageVariant δ → Prop
  | .snapshot msg => ∃ text, msg.symbol = some text
    ∧ text.length = 7 ∧ (text.head? = some 'B' ∨ text.head? = some 'E') ∧ ¬ IsAlias text
  | .increment msg => SkippableSymbols IgnoredByBook msg

/-- A snapshot of an alias clears the book, so no two books survive it. -/
theorem not_skips_alias {msg : MarketDataSnapshotFullRefresh δ}
    (hbtc : isBtc msg.symbol = true) :
    ¬ ∀ b, (applySnapshot toUint64 msg).run b = .ok () b := by
  intro hskip
  have hlevel : ∀ b : OrderBook, b.level .bid 0 = KeyOp.run
      ((counted msg.noMDEntries msg.groups).flatMap (snapshotOps toUint64 .bid))
      (fun _ => none) 0 := by
    intro b
    have hrun := ((applySnapshot_ok_iff toUint64).mp (hskip b)).2
    have h := congrArg (fun b : OrderBook => b.level .bid 0) hrun
    rw [level_runOps, snapshotMessageOps, if_pos hbtc] at h
    exact h
  have hsame := (hlevel (oneLevel .bid 0 0)).trans (hlevel empty).symm
  rw [level_oneLevel] at hsame
  cases hsame

theorem skipsSnapshot_iff {clear : Bool} {msg : MarketDataSnapshotFullRefresh δ}
    (hmsg : CompleteSnapshot msg) :
    (SnapshotProcessable msg ∧ SkipsMessage toUint64 clear (.snapshot msg))
      ↔ SkippableMessage (.snapshot msg) := by
  have hproc : SnapshotProcessable msg ↔ Accepted msg.symbol :=
    and_iff_left (fun _ => ⟨hmsg.countFits, hmsg.readable⟩)
  constructor
  · rintro ⟨hacc, hskip⟩
    obtain ⟨text, htext, hlen, hhead⟩ := accepted_iff.mp (hproc.mp hacc)
    refine ⟨text, htext, hlen, hhead, fun halias => ?_⟩
    have hforeign : Foreign msg.symbol := fun heq => halias.1
      (Option.some.inj (htext.symm.trans heq))
    exact not_skips_alias toUint64 (htext ▸ halias.carries.2) (hskip hforeign)
  · rintro ⟨text, htext, hlen, hhead, halias⟩
    have hacc := hproc.mpr (accepted_iff.mpr ⟨text, htext, hlen, hhead⟩)
    refine ⟨hacc, fun hforeign b => (applySnapshot_ok_iff toUint64).mpr ⟨hacc, ?_⟩⟩
    have hno : ¬ isBtc msg.symbol = true := by
      rw [htext] at hforeign ⊢
      exact fun hbtc => halias ((isBtc_foreign_iff hforeign).mp hbtc)
    unfold snapshotMessageOps
    simp only [if_neg hno]
    exact (runOps_nil b).symm

theorem skipsMessage_iff {clear : Bool} {msg : MarketMessageVariant δ}
    (hmsg : CompleteMessage msg) :
    (Processable msg ∧ SkipsMessage toUint64 clear msg) ↔ SkippableMessage msg := by
  cases msg with
  | snapshot msg => exact skipsSnapshot_iff toUint64 hmsg
  | increment msg =>
    have hmsg : Complete IncrementReadable msg := hmsg
    rw [SkippableMessage, ← skipsForeign_iff
      (fun g u s s' => @applyIncrementEntry_ok_iff δ toUint64 s s' u clear g)
      (fun g hg => ignoredByBook_iff toUint64 hg) hmsg]
    exact and_congr_left' (and_iff_right hmsg.countFits)

/-- **The order-book worker** gets through a queue of complete messages, and
skips in it what it should, exactly on skippable symbols. -/
theorem orderBookBox_getsThrough_iff (clear : Bool) {queue : List (MarketMessageVariant δ)}
    (hqueue : ∀ msg ∈ queue, CompleteMessage msg) (b : OrderBook) :
    (Poller.GetsThrough (applyMessage toUint64 clear) queue b
        ∧ ∀ msg ∈ queue, SkipsMessage toUint64 clear msg)
      ↔ ∀ msg ∈ queue, SkippableMessage msg := by
  rw [Poller.getsThrough_iff (fun msg s u s' => applyMessage_ok_iff toUint64)]
  constructor
  · rintro ⟨hproc, hskip⟩ msg hmem
    exact (skipsMessage_iff toUint64 (hqueue msg hmem)).mp ⟨hproc msg hmem, hskip msg hmem⟩
  · intro h
    have hboth : ∀ msg ∈ queue, Processable msg ∧ SkipsMessage toUint64 clear msg :=
      fun msg hmem => (skipsMessage_iff toUint64 (hqueue msg hmem)).mpr (h msg hmem)
    exact ⟨fun msg hmem => (hboth msg hmem).1, fun msg hmem => (hboth msg hmem).2⟩

end Book

/-! ## The trade worker -/

section Ring

variable (toUint64 : δ → UInt64 → UInt64)

/-- **What the ring ignores** is what is no trade. -/
theorem ignoredByRing_iff {g : IncrementEntry δ} (hg : TradeReadable toUint64 g) :
    (∀ r : TradeRing, (entryTrades toUint64 g).foldl RingBuffer.pushBack r = r)
      ↔ ¬ IsTrade g := by
  constructor
  · intro hsame htrade
    obtain ⟨t, ht⟩ := hg.2 htrade
    have htrades : entryTrades toUint64 g = [t] := by
      rw [entryTrades, if_pos htrade, (decode_eq_some_iff toUint64).mpr ht]
      rfl
    have hitems := congrArg RingBuffer.items (hsame RingBuffer.empty)
    rw [RingBuffer.foldl_pushBack_items, htrades] at hitems
    cases hitems
  · intro hno r
    rw [entryTrades, if_neg hno, List.foldl_nil]

/-- **The trade worker** gets through a queue of complete increments, and
skips in it what it should, exactly on skippable symbols. -/
theorem tradeBox_getsThrough_iff {queue : List (MarketDataIncrementalRefresh δ)}
    (hqueue : ∀ msg ∈ queue, Complete (TradeReadable toUint64) msg) (r : TradeRing) :
    (Poller.GetsThrough (onTrade toUint64) queue r
        ∧ ∀ msg ∈ queue, SkipsForeign (onTradeEntry toUint64) msg)
      ↔ ∀ msg ∈ queue, SkippableSymbols (fun g => ¬ IsTrade g) msg := by
  have hmsg : ∀ msg ∈ queue, (TradesProcessable toUint64 msg
      ∧ SkipsForeign (onTradeEntry toUint64) msg)
        ↔ SkippableSymbols (fun g => ¬ IsTrade g) msg := by
    intro msg hmem
    rw [← skipsForeign_iff (fun g u s s' => onTradeEntry_ok_iff toUint64)
      (fun g hg => ignoredByRing_iff toUint64 hg) (hqueue msg hmem)]
    exact and_congr_left' (and_iff_right (hqueue msg hmem).countFits)
  rw [Poller.getsThrough_iff (fun msg s u s' => onTrade_ok_iff toUint64)]
  constructor
  · rintro ⟨hproc, hskip⟩ msg hmem
    exact (hmsg msg hmem).mp ⟨hproc msg hmem, hskip msg hmem⟩
  · intro h
    exact ⟨fun msg hmem => ((hmsg msg hmem).mpr (h msg hmem)).1,
      fun msg hmem => ((hmsg msg hmem).mpr (h msg hmem)).2⟩

end Ring

/-- **The workers survive** messages of other instruments, and skip them,
exactly on skippable symbols: every one of them seven bytes that begin with
`B` or `E`, and an alias of `BTCUSDT` only on an entry that would come to
nothing anyway. -/
theorem workers_survive_iff (toUint64 : δ → UInt64 → UInt64) (clear : Bool)
    {orders : List (MarketMessageVariant δ)} {trades : List (MarketDataIncrementalRefresh δ)}
    (horders : ∀ msg ∈ orders, CompleteMessage msg)
    (htrades : ∀ msg ∈ trades, Complete (TradeReadable toUint64) msg)
    (b : OrderBook) (r : TradeRing) :
    ((Poller.GetsThrough (applyMessage toUint64 clear) orders b
          ∧ ∀ msg ∈ orders, SkipsMessage toUint64 clear msg)
        ↔ ∀ msg ∈ orders, SkippableMessage msg)
      ∧ ((Poller.GetsThrough (onTrade toUint64) trades r
          ∧ ∀ msg ∈ trades, SkipsForeign (onTradeEntry toUint64) msg)
        ↔ ∀ msg ∈ trades, SkippableSymbols (fun g => ¬ IsTrade g) msg) :=
  ⟨orderBookBox_getsThrough_iff toUint64 clear horders b,
    tradeBox_getsThrough_iff toUint64 htrades r⟩

/-- An increment whose only entry deletes a bid is complete. -/
theorem complete_deleteBid (symbol : Text) (px : δ) :
    CompleteMessage (.increment (.ofGroups [deleteBid symbol px])) := by
  refine ⟨countFits_ofGroups _, ?_⟩
  rw [counted_ofGroups, List.forall_mem_singleton]
  exact ⟨_, _, rfl, rfl, fun _ => ⟨⟨px, rfl⟩, _, rfl, nofun⟩⟩

/-- One increment of `XRPUSDT` stops the order-book worker for good: the
message behind it stays in the queue. -/
theorem xrpusdt_stops_worker :
    ∃ (foreign btc : MarketMessageVariant ℕ) (e : Exception),
      CompleteMessage foreign ∧ CompleteMessage btc
      ∧ (Poller.after (applyMessage (fun px ticks => UInt64.ofNat px * ticks) false) 2
          (Poller.start [foreign, btc] empty)).phase = .failed e
      ∧ (Poller.after (applyMessage (fun px ticks => UInt64.ofNat px * ticks) false) 2
          (Poller.start [foreign, btc] empty)).queue = [btc]
      ∧ ¬ Poller.GetsThrough (applyMessage (fun px ticks => UInt64.ofNat px * ticks) false)
          [foreign, btc] empty :=
  ⟨.increment (.ofGroups [deleteBid "XRPUSDT".toList 5]),
    .increment (.ofGroups [deleteBid "BTCUSDT".toList 5]), _,
    complete_deleteBid _ 5, complete_deleteBid _ 5, rfl, rfl, fun h => h.1 2 _ rfl⟩

/-- Increments of `ETHUSDT` stop neither worker, and are skipped by both. -/
theorem workers_survive_ethusdt :
    ∃ (orders : List (MarketMessageVariant ℕ)) (trades : List (MarketDataIncrementalRefresh ℕ)),
      orders.length = 1 ∧ trades.length = 1
      ∧ Poller.GetsThrough (applyMessage (fun px ticks => UInt64.ofNat px * ticks) false)
          orders empty
      ∧ Poller.GetsThrough (onTrade fun px ticks => UInt64.ofNat px * ticks)
          trades RingBuffer.empty := by
  have hsym : ∀ g : IncrementEntry ℕ, g.symbol = some "ETHUSDT".toList →
      ∀ Ignored, SkippableSymbols Ignored (.ofGroups [g]) := by
    intro g hg Ignored p hp
    rw [entriesOf_singleton, List.mem_singleton] at hp
    subst hp
    exact ⟨_, hg, rfl, Or.inr rfl, fun halias => absurd halias.2.2 (by decide)⟩
  have htrade : Complete (TradeReadable fun px ticks => UInt64.ofNat px * ticks)
      (.ofGroups [trade "ETHUSDT".toList 5 1]) := by
    refine ⟨countFits_ofGroups _, ?_⟩
    rw [counted_ofGroups, List.forall_mem_singleton]
    exact ⟨⟨_, rfl⟩, fun _ => ⟨_, (decode_eq_some_iff _).mp rfl⟩⟩
  obtain ⟨horders, htrades⟩ := workers_survive_iff
    (fun (px : ℕ) ticks => UInt64.ofNat px * ticks) false
    (List.forall_mem_singleton.mpr (complete_deleteBid "ETHUSDT".toList 5))
    (List.forall_mem_singleton.mpr htrade) empty RingBuffer.empty
  exact ⟨_, _, rfl, rfl,
    (horders.mpr (List.forall_mem_singleton.mpr (hsym _ rfl _))).1,
    (htrades.mpr (List.forall_mem_singleton.mpr (hsym _ rfl _))).1⟩

end ForeignMessage
