import Trader.ForeignMessage
import Trader.Frozen
import Trader.Subscription

set_option autoImplicit false

/-!
# A feed of what was asked for

An exchange that answers sends complete messages of symbols it was asked for.
What the program makes of them is decided when it starts, by the symbols that
are configured, and it is decided for every run.

* The workers survive exactly if `Symbol::from_str` has a mapping for every one of
  these symbols (`survives_subscriptions_iff`).
* They survive and show the book and the trades of `BTCUSDT`, those of its own
  messages alone, exactly if every symbol is `BTCUSDT` or is taken for `ETHUSDT`
  (`serves_subscriptions_iff`). Any other symbol with a mapping is an alias.
-/

namespace Ui

open Fix EarlyExit Binance Transition ForeignMessage Isolation Core.OrderBook

variable {δ : Type}

/-! ## An exchange that answers -/

/-- The symbols a message is about. -/
def symbolsOf : MarketMessageVariant δ → List (Option Text)
  | .snapshot msg => [msg.symbol]
  | .increment msg => (entriesOf msg).map Prod.fst

/-- A message with every field that the worker of its session reads. -/
def CompleteDelivery (toUint64 : δ → UInt64 → UInt64) (d : FixApp.Delivery δ) : Prop :=
  match d.msg with
  | .snapshot msg => CompleteSnapshot msg
  | .increment msg => (d.sessionQualifier = pxSessionQualifier → Complete IncrementReadable msg)
    ∧ (d.sessionQualifier = txSessionQualifier → Complete (TradeBox.TradeReadable toUint64) msg)

/-- **An answer** to one of the requests sent: a complete message, on the session
of the request, of symbols that it asks for. -/
structure Answers (toUint64 : δ → UInt64 → UInt64)
    (requests : List (SessionID × MarketDataRequest)) (d : FixApp.Delivery δ) : Prop where
  complete : CompleteDelivery toUint64 d
  requested : ∃ p ∈ requests, p.1.qualifier = d.sessionQualifier
    ∧ ∀ s ∈ symbolsOf d.msg, ∃ text ∈ p.2.noRelatedSym, s = some text

/-- **The program is fed answers** to what was asked for over some logons. -/
def FedAnswers (toUint64 : δ → UInt64 → UInt64) (cfg : Config) (ls : List Logon)
    (t : List (ProgramEvent δ)) : Prop :=
  ∀ d ∈ t.filterMap delivery, Answers toUint64 (FixApp.asked cfg ls) d

/-- `Symbol::from_str` has a mapping for a text. -/
def Mapped (s : Text) : Prop := s.length = 7 ∧ (s.head? = some 'B' ∨ s.head? = some 'E')

variable {toUint64 : δ → UInt64 → UInt64} {maxDepth : UInt16} {b₀ : Core.OrderBook}
  {cfg : Config} {ls : List Logon} {t : List (ProgramEvent δ)}

/-- An answer is about configured symbols. -/
theorem Answers.configured {d : FixApp.Delivery δ}
    (h : Answers toUint64 (FixApp.asked cfg ls) d) :
    ∀ s ∈ symbolsOf d.msg, ∃ text ∈ cfg.symbols, s = some text := by
  obtain ⟨p, hp, -, hsymbols⟩ := h.requested
  have hrelated : p.2.noRelatedSym = cfg.symbols := by
    rw [FixApp.asked_eq] at hp
    obtain ⟨l, -, hl⟩ := List.mem_filterMap.mp hp
    obtain ⟨request, hrequest, rfl⟩ := Option.map_eq_some_iff.mp hl
    exact FixApp.noRelatedSym_requestOf hrequest
  rwa [hrelated] at hsymbols

/-- What a session thread was delivered was delivered. -/
theorem mem_delivery_of_mem_deliveriesOf {c : ℕ} {d : FixApp.Delivery δ}
    (h : d ∈ deliveriesOf c t) : d ∈ t.filterMap delivery := by
  obtain ⟨e, he, hd⟩ := List.mem_filterMap.mp h
  refine List.mem_filterMap.mpr ⟨e, he, ?_⟩
  cases e with
  | delivered c' d' => exact (Option.ite_none_right_eq_some.mp hd).2
  | order _ => cases hd
  | trade _ => cases hd

/-- What is taken off the order queue was delivered, -/
theorem exists_delivery_of_order (h : (program toUint64 maxDepth b₀).Trace t)
    {msg : MarketMessageVariant δ} (hmsg : msg ∈ (orderSeen t).taken) :
    ∃ d ∈ t.filterMap delivery, FixApp.reachesOrderQueue d = true ∧ d.msg = msg := by
  obtain ⟨p, hp, rfl⟩ := List.mem_map.mp hmsg
  have hfrom : p.2 ∈ (orderSeen t).takenFrom p.1 :=
    List.mem_map_of_mem (List.mem_filter.mpr ⟨hp, decide_eq_true rfl⟩)
  have hqueue := ((orderSeen_works h).inOrder p.1).subset hfrom
  rw [(enqueued_eq t p.1).1, queuesOf, FixApp.run_eq, List.nil_append] at hqueue
  obtain ⟨d, hd, hdp⟩ := List.mem_map.mp hqueue
  obtain ⟨hd, hreach⟩ := List.mem_filter.mp hd
  exact ⟨d, mem_delivery_of_mem_deliveriesOf hd, hreach, hdp⟩

/-- and so was what is taken off the trade queue. -/
theorem mem_delivery_of_trade (h : (program toUint64 maxDepth b₀).Trace t)
    {msg : MarketDataIncrementalRefresh δ} (hmsg : msg ∈ (tradeSeen t).taken) :
    ⟨txSessionQualifier, .increment msg⟩ ∈ t.filterMap delivery := by
  obtain ⟨p, hp, rfl⟩ := List.mem_map.mp hmsg
  have hfrom : p.2 ∈ (tradeSeen t).takenFrom p.1 :=
    List.mem_map_of_mem (List.mem_filter.mpr ⟨hp, decide_eq_true rfl⟩)
  have hqueue := ((tradeSeen_works h).inOrder p.1).subset hfrom
  rw [(enqueued_eq t p.1).2, queuesOf, FixApp.run_eq, List.nil_append] at hqueue
  obtain ⟨⟨q, msg | msg⟩, hd, hdp⟩ := List.mem_filterMap.mp hqueue
  · cases hdp
  · obtain ⟨rfl, hmsg⟩ := Option.ite_none_right_eq_some.mp hdp
    rw [← Option.some.inj hmsg]
    exact mem_delivery_of_mem_deliveriesOf hd

/-! ## Surviving it -/

/-- A symbol that has a mapping is accepted. -/
theorem Answers.accepted {d : FixApp.Delivery δ}
    (h : Answers toUint64 (FixApp.asked cfg ls) d) (hmapped : ∀ s ∈ cfg.symbols, Mapped s)
    {s : Option Text} (hs : s ∈ symbolsOf d.msg) : Accepted s := by
  obtain ⟨text, htext, rfl⟩ := h.configured s hs
  exact accepted_iff.mpr ⟨text, rfl, hmapped text htext⟩

/-- A message of the order queue that answers, of symbols that have a mapping, is
processed, -/
theorem Answers.processable {d : FixApp.Delivery δ}
    (h : Answers toUint64 (FixApp.asked cfg ls) d) (hmapped : ∀ s ∈ cfg.symbols, Mapped s)
    (hreach : FixApp.reachesOrderQueue d = true) : Processable d.msg := by
  have haccepted : ∀ s ∈ symbolsOf d.msg, Accepted s := fun s hs => h.accepted hmapped hs
  have hcomplete := h.complete
  obtain ⟨q, msg | msg⟩ := d
  · have hcomplete : CompleteSnapshot msg := hcomplete
    exact ⟨haccepted _ (List.mem_singleton_self _),
      fun _ => ⟨hcomplete.countFits, hcomplete.readable⟩⟩
  · have hcomplete : Complete IncrementReadable msg := hcomplete.1 (of_decide_eq_true hreach)
    exact ⟨hcomplete.countFits, fun p hp => ⟨haccepted _ (List.mem_map_of_mem hp),
      fun _ => hcomplete.readable_entry hp⟩⟩

/-- and so is one of the trade queue. -/
theorem Answers.tradesProcessable {msg : MarketDataIncrementalRefresh δ}
    (h : Answers toUint64 (FixApp.asked cfg ls) ⟨txSessionQualifier, .increment msg⟩)
    (hmapped : ∀ s ∈ cfg.symbols, Mapped s) : TradeBox.TradesProcessable toUint64 msg := by
  have hcomplete : Complete (TradeBox.TradeReadable toUint64) msg := h.complete.2 rfl
  exact ⟨hcomplete.countFits, fun p hp => ⟨h.accepted hmapped (List.mem_map_of_mem hp),
    fun _ => hcomplete.readable_entry hp⟩⟩

/-- **Neither worker fails** on answers of symbols that have a mapping. -/
theorem threw_eq_none (hmapped : ∀ s ∈ cfg.symbols, Mapped s)
    (h : (program toUint64 maxDepth b₀).Trace t) (hfed : FedAnswers toUint64 cfg ls t) :
    (orderSeen t).threw = none ∧ (tradeSeen t).threw = none := by
  constructor
  · refine Option.eq_none_iff_forall_ne_some.mpr (fun e he => ?_)
    obtain ⟨pre, msg, s, s', htaken, -, hmsg⟩ := (orderSeen_works h).threw e he
    obtain ⟨d, hd, hreach, rfl⟩ := exists_delivery_of_order h
      (htaken ▸ List.mem_append_right pre (List.mem_singleton_self msg))
    have hok : (applyMessage toUint64 (isBookClearNeeded maxDepth) d.msg).run s = .ok () _ :=
      (applyMessage_ok_iff toUint64).mpr ⟨(hfed d hd).processable hmapped hreach, rfl⟩
    cases (Resumption.outcome_of_ok hok).symm.trans hmsg
  · refine Option.eq_none_iff_forall_ne_some.mpr (fun e he => ?_)
    obtain ⟨pre, msg, s, s', htaken, -, hmsg⟩ := (tradeSeen_works h).threw e he
    have hd := mem_delivery_of_trade h
      (htaken ▸ List.mem_append_right pre (List.mem_singleton_self msg))
    have hok : (TradeBox.onTrade toUint64 msg).run s = .ok () _ :=
      (TradeBox.onTrade_ok_iff toUint64).mpr ⟨(hfed _ hd).tradesProcessable hmapped, rfl⟩
    cases (Resumption.outcome_of_ok hok).symm.trans hmsg

/-- A logon on `PX` that nothing fails at, on a machine with as many cores as a
configuration can name. -/
def pxLogon : Logon :=
  ⟨⟨[], pxSessionQualifier⟩, ⟨256, 256, fun _ => 0, 0, 0, fun _ => []⟩, 0⟩

/-- Any complete snapshot of a configured symbol may be sent then. -/
theorem answers_of_snapshot {msg : MarketDataSnapshotFullRefresh δ} (hmsg : CompleteSnapshot msg)
    {s : Text} (hs : s ∈ cfg.symbols) (hsymbol : msg.symbol = some s) :
    Answers toUint64 (FixApp.asked cfg [pxLogon]) ⟨pxSessionQualifier, .snapshot msg⟩ := by
  have hbindable : FixApp.Bindable pxLogon.os cfg.pxCpu.toNat :=
    ⟨UInt8.toNat_lt cfg.pxCpu, rfl, rfl⟩
  have hrequest : FixApp.requestOf cfg pxLogon = some (FixApp.pricesRequest cfg 0) :=
    (if_pos rfl).trans (if_pos ⟨hbindable, rfl⟩)
  refine ⟨hmsg, ⟨(pxLogon.sessionId, FixApp.pricesRequest cfg 0), ?_, rfl, ?_⟩⟩
  · rw [FixApp.asked_eq, List.filterMap_cons, hrequest]
    exact List.mem_singleton_self _
  · exact List.forall_mem_singleton.mpr ⟨s, hs, hsymbol⟩

/-- A message on which the handler throws can be delivered and taken. -/
theorem trace_of_failure {msg : MarketMessageVariant δ} {e : Exception} {b : Core.OrderBook}
    (h : (applyMessage toUint64 (isBookClearNeeded maxDepth) msg).run b₀ = .error e b) :
    (program toUint64 maxDepth b₀).Trace [.delivered 0 ⟨pxSessionQualifier, msg⟩,
      .order (.dequeued 0 msg), .order (.threw e)] := by
  have hcodes := orderCodes toUint64 maxDepth
  have hquiet : (applyMessageSteps toUint64 (isBookClearNeeded maxDepth) msg).told b₀ = 0 :=
    (hcodes.handler msg b₀).2
  have hrun : (orderBox toUint64 maxDepth b₀).Run (.init, Monitor.unattended b₀) _
      (_, Monitor.unattended b) :=
    (run_of_first 0 msg).trans (run_of_thrown rfl (hcodes.run_of_error h))
  rw [hquiet] at hrun
  cases msg with
  | snapshot msg => exact trace_of_order (t := [_, _, _]) hrun rfl
  | increment msg => exact trace_of_order (t := [_, _, _]) hrun rfl

/-- **A symbol without a mapping stops the order-book worker**, at the latest
when a snapshot of it arrives. -/
theorem exists_failure {s : Text} (hs : s ∈ cfg.symbols) (h : ¬ Mapped s) :
    ∃ t, (program toUint64 maxDepth b₀).Trace t ∧ FedAnswers toUint64 cfg [pxLogon] t
      ∧ (orderSeen t).threw ≠ none := by
  have hcomplete : CompleteSnapshot (.ofGroups s [] : MarketDataSnapshotFullRefresh δ) :=
    ⟨⟨0, rfl, Nat.le_refl _⟩, nofun⟩
  cases hrun : (applyMessage toUint64 (isBookClearNeeded maxDepth)
      (.snapshot (.ofGroups s []))).run b₀ with
  | ok u b =>
    have hproc : SnapshotProcessable (.ofGroups s [] : MarketDataSnapshotFullRefresh δ) :=
      ((applyMessage_ok_iff toUint64).mp hrun).1
    obtain ⟨s', hs', hmapped⟩ := accepted_iff.mp hproc.1
    obtain rfl := Option.some.inj hs'
    exact (h hmapped).elim
  | error e b =>
    refine ⟨_, trace_of_failure hrun, ?_, nofun⟩
    exact List.forall_mem_singleton.mpr (answers_of_snapshot hcomplete hs rfl)

/-- **The workers survive** every feed of answers, whatever the threads do and in
whatever order, exactly if there is a mapping for every symbol configured. -/
theorem survives_subscriptions_iff (toUint64 : δ → UInt64 → UInt64) (maxDepth : UInt16)
    (b₀ : Core.OrderBook) (cfg : Config) :
    (∀ s ∈ cfg.symbols, Mapped s)
      ↔ ∀ ls t, (program toUint64 maxDepth b₀).Trace t → FedAnswers toUint64 cfg ls t →
        (orderSeen t).threw = none ∧ (tradeSeen t).threw = none := by
  constructor
  · intro hmapped ls t h hfed
    exact threw_eq_none hmapped h hfed
  · intro hsurvive s hs
    by_contra hno
    obtain ⟨t, ht, hfed, hthrew⟩ := exists_failure hs hno
    exact hthrew (hsurvive _ t ht hfed).1

/-! ## Showing one instrument -/

/-- What a message says of `BTCUSDT`, as a message about nothing else. -/
def ownPart : MarketMessageVariant δ → Option (MarketMessageVariant δ)
  | .snapshot msg => if msg.symbol = some Symbol.btcusdtText then some (.snapshot msg) else none
  | .increment msg => some (.increment (isolate msg))

/-- Without aliases the own parts of messages do what the messages do, -/
theorem applyMessages_ownPart {clear : Bool} {msgs : List (MarketMessageVariant δ)}
    {b b' : Core.OrderBook}
    (halias : ∀ msg ∈ msgs, ∀ text, some text ∈ symbolsOf msg → ¬ IsAlias text)
    (h : (applyMessages toUint64 clear msgs).run b = .ok () b') :
    (applyMessages toUint64 clear (msgs.filterMap ownPart)).run b = .ok () b' := by
  induction msgs generalizing b with
  | nil => exact h
  | cons msg msgs ih =>
    obtain ⟨hmsg, hmsgs⟩ := List.forall_mem_cons.mp halias
    obtain ⟨_, b₁, hone, hrest⟩ := bind_ok_iff.mp h
    cases msg with
    | snapshot msg =>
      by_cases hbtc : msg.symbol = some Symbol.btcusdtText
      · have hown : ownPart (.snapshot msg) = some (.snapshot msg) := if_pos hbtc
        rw [List.filterMap_cons_some hown]
        exact bind_ok_iff.mpr ⟨(), b₁, hone, ih hmsgs hrest⟩
      · have hsame : b₁ = b := (snapshotsIsolated_iff toUint64 {text | ¬ IsAlias text}).mpr
          (fun _ h => h) msg b b₁ () (fun text ht => hmsg text (ht ▸ List.mem_singleton_self _))
          hbtc hone
        have hown : ownPart (.snapshot msg) = none := if_neg hbtc
        rw [List.filterMap_cons_none hown, ← hsame]
        exact ih hmsgs hrest
    | increment msg =>
      have hown : ownPart (.increment msg) = some (.increment (isolate msg)) := rfl
      rw [List.filterMap_cons_some hown]
      refine bind_ok_iff.mpr ⟨(), b₁, ?_, ih hmsgs hrest⟩
      exact incrementLoop_isolate (fun g u s s' => applyIncrementEntry_ok_iff toUint64)
        (fun g text hR => hR) (fun g text => rfl)
        (fun text ⟨p, hp, htext⟩ => hmsg text (htext ▸ List.mem_map_of_mem hp)) hone

/-- and so do those of increments to the ring. -/
theorem onTrades_isolate {msgs : List (MarketDataIncrementalRefresh δ)} {r r' : TradeBox.TradeRing}
    (halias : ∀ msg ∈ msgs, ∀ text ∈ incrementSymbols msg, ¬ IsAlias text)
    (h : (TradeBox.onTrades toUint64 msgs).run r = .ok () r') :
    (TradeBox.onTrades toUint64 (msgs.map isolate)).run r = .ok () r' := by
  induction msgs generalizing r with
  | nil => exact h
  | cons msg msgs ih =>
    obtain ⟨hmsg, hmsgs⟩ := List.forall_mem_cons.mp halias
    obtain ⟨_, r₁, hone, hrest⟩ := bind_ok_iff.mp h
    refine bind_ok_iff.mpr ⟨(), r₁, ?_, ih hmsgs hrest⟩
    exact incrementLoop_isolate (fun g u s s' => TradeBox.onTradeEntry_ok_iff toUint64)
      (fun g text hR => hR.withSymbol toUint64 text) (fun g text => rfl) hmsg hone

/-- A symbol the program is served well with: `BTCUSDT`, or one that is taken for
`ETHUSDT`. -/
def Serviceable (s : Text) : Prop :=
  s = Symbol.btcusdtText ∨ s.length = 7 ∧ s.head? = some 'E'

/-- It has a mapping and is no alias. -/
theorem serviceable_iff {s : Text} : Serviceable s ↔ Mapped s ∧ ¬ IsAlias s := by
  constructor
  · rintro (rfl | ⟨hlen, hE⟩)
    · exact ⟨⟨rfl, Or.inl rfl⟩, fun halias => halias.1 rfl⟩
    · refine ⟨⟨hlen, Or.inr hE⟩, fun halias => ?_⟩
      cases hE.symm.trans halias.2.2
  · rintro ⟨⟨hlen, hB | hE⟩, halias⟩
    · exact Or.inl (not_not.mp (fun hne => halias ⟨hne, hlen, hB⟩))
    · exact Or.inr ⟨hlen, hE⟩

/-- **The program serves** someone who trades `BTCUSDT`, over a run: neither worker
fails, and what is drawn is the book and the ring of the own parts of the
first messages taken. -/
structure Serves (toUint64 : δ → UInt64 → UInt64) (maxDepth : UInt16)
    (t : List (ProgramEvent δ)) : Prop where
  survives : (orderSeen t).threw = none ∧ (tradeSeen t).threw = none
  book : ∀ v ∈ (orderSeen t).drawings, ∃ k, v.postedBefore ≤ k ∧ k ≤ v.takenBefore
    ∧ ∃ b, (applyMessages toUint64 (isBookClearNeeded maxDepth)
        (((orderSeen t).taken.take k).filterMap ownPart)).run .empty = .ok () b
      ∧ v.drawn = b.toVector
  trades : ∀ v ∈ (tradeSeen t).drawings, ∃ k, v.postedBefore ≤ k ∧ k ≤ v.takenBefore
    ∧ ∃ r, (TradeBox.onTrades toUint64 (((tradeSeen t).taken.take k).map isolate)).run .empty
        = .ok () r
      ∧ v.drawn = r.items

/-- Answers of serviceable symbols are about no alias. -/
theorem Answers.not_isAlias {d : FixApp.Delivery δ}
    (h : Answers toUint64 (FixApp.asked cfg ls) d) (hcfg : ∀ s ∈ cfg.symbols, Serviceable s)
    {text : Text} (htext : some text ∈ symbolsOf d.msg) : ¬ IsAlias text := by
  obtain ⟨text', hmem, heq⟩ := h.configured _ htext
  obtain rfl := Option.some.inj heq
  exact (serviceable_iff.mp (hcfg _ hmem)).2

/-- **The program serves on serviceable symbols.** -/
theorem serves_of_serviceable (hcfg : ∀ s ∈ cfg.symbols, Serviceable s)
    (h : (program toUint64 maxDepth .empty).Trace t) (hfed : FedAnswers toUint64 cfg ls t) :
    Serves toUint64 maxDepth t := by
  have hmapped : ∀ s ∈ cfg.symbols, Mapped s := fun s hs => (serviceable_iff.mp (hcfg s hs)).1
  refine ⟨threw_eq_none hmapped h hfed, fun v hv => ?_, fun v hv => ?_⟩
  · obtain ⟨k, hshows⟩ := (orderSeen_works h).shows hv
    have hproc : ∀ msg ∈ (orderSeen t).taken.take k, Processable msg := by
      intro msg hmsg
      obtain ⟨d, hd, hreach, rfl⟩ := exists_delivery_of_order h (List.mem_of_mem_take hmsg)
      exact (hfed d hd).processable hmapped hreach
    have halias : ∀ msg ∈ (orderSeen t).taken.take k, ∀ text, some text ∈ symbolsOf msg →
        ¬ IsAlias text := by
      intro msg hmsg text htext
      obtain ⟨d, hd, -, rfl⟩ := exists_delivery_of_order h (List.mem_of_mem_take hmsg)
      exact (hfed d hd).not_isAlias hcfg htext
    have hrun : (applyMessages toUint64 (isBookClearNeeded maxDepth)
        ((orderSeen t).taken.take k)).run .empty = .ok () _ :=
      (applyMessages_ok_iff toUint64).mpr ⟨hproc, rfl⟩
    refine ⟨k, hshows.postedBefore_le, hshows.known, _, applyMessages_ownPart halias hrun, ?_⟩
    rw [hshows.drawn, stateAfter, handleAll_applyMessage, Resumption.outcome_of_ok hrun]
  · obtain ⟨k, hshows⟩ := (tradeSeen_works h).shows hv
    have hproc : ∀ msg ∈ (tradeSeen t).taken.take k, TradeBox.TradesProcessable toUint64 msg := by
      intro msg hmsg
      exact (hfed _ (mem_delivery_of_trade h (List.mem_of_mem_take hmsg))).tradesProcessable hmapped
    have halias : ∀ msg ∈ (tradeSeen t).taken.take k, ∀ text ∈ incrementSymbols msg,
        ¬ IsAlias text := by
      rintro msg hmsg text ⟨p, hp, htext⟩
      have hd := mem_delivery_of_trade h (List.mem_of_mem_take hmsg)
      exact (hfed _ hd).not_isAlias hcfg (List.mem_map.mpr ⟨p, hp, htext⟩)
    have hrun : (TradeBox.onTrades toUint64 ((tradeSeen t).taken.take k)).run .empty = .ok () _ :=
      (TradeBox.onTrades_ok_iff toUint64).mpr ⟨hproc, rfl⟩
    refine ⟨k, hshows.postedBefore_le, hshows.known, _, onTrades_isolate halias hrun, ?_⟩
    rw [hshows.drawn, stateAfter, handleAll_onTrade, Resumption.outcome_of_ok hrun]

/-- A snapshot of one bid. -/
def oneBid (s : Text) (px : δ) : MarketDataSnapshotFullRefresh δ :=
  .ofGroups s
    [{ mdEntryType := some (.ok '0'), mdEntryPx := some (.ok px), mdEntrySize := some (.ok px) }]

/-- The book a snapshot of an alias makes is not empty. -/
theorem toVector_oneBid_ne_nil {clear : Bool} {s : Text} (halias : IsAlias s) (px : δ) :
    (empty.runOps (fun side => [.snapshot (oneBid s px)].flatMap
      (messageOps toUint64 clear side))).toVector ≠ [] := by
  have hops : ∀ side, [.snapshot (oneBid s px)].flatMap (messageOps toUint64 clear side)
      = .clear :: snapshotOps toUint64 side
          { mdEntryType := some (.ok '0'), mdEntryPx := some (.ok px),
            mdEntrySize := some (.ok px) } := by
    intro side
    rw [List.flatMap_singleton]
    exact (if_pos halias.carries.2).trans (congrArg _ (List.append_nil _))
  simp only [hops]
  show toVectorLoop [(priceTicks toUint64 px, sizeTicks toUint64 px)] [] ≠ []
  rw [toVectorLoop]
  exact List.cons_ne_nil _ _

/-- **An alias is shown** in place of `BTCUSDT`. -/
theorem exists_not_serves {s : Text} (hs : s ∈ cfg.symbols) (halias : IsAlias s) (px : δ) :
    ∃ t, (program toUint64 maxDepth .empty).Trace t ∧ FedAnswers toUint64 cfg [pxLogon] t
      ∧ ¬ Serves toUint64 maxDepth t := by
  obtain ⟨hcarries, hbtc⟩ := halias.carries
  have hcomplete : CompleteSnapshot (oneBid s px) :=
    ⟨⟨1, rfl, Nat.le_refl _⟩,
      List.forall_mem_singleton.mpr ⟨⟨_, rfl⟩, ⟨px, rfl⟩, px, rfl⟩⟩
  have hrun : (applyMessages toUint64 (isBookClearNeeded maxDepth)
      [.snapshot (oneBid s px)]).run .empty = .ok () _ :=
    (applyMessages_ok_iff toUint64).mpr ⟨List.forall_mem_singleton.mpr
      ⟨⟨_, hcarries⟩, fun _ => ⟨hcomplete.countFits, hcomplete.readable⟩⟩, rfl⟩
  have htrace : (program toUint64 maxDepth .empty).Trace
      (shownAtOnce [(0, .snapshot (oneBid s px))] _) := trace_shownAtOnce hrun
  refine ⟨_, htrace, ?_, fun hserves => ?_⟩
  · exact List.forall_mem_singleton.mpr (answers_of_snapshot hcomplete hs rfl)
  · obtain ⟨k, -, -, b, hb, hdrawn⟩ := hserves.book ⟨1, 1, 1, _⟩ (List.mem_singleton_self _)
    have hnone : ownPart (.snapshot (oneBid s px)) = none :=
      if_neg (fun heq => halias.1 (Option.some.inj heq))
    have hown : ([.snapshot (oneBid s px)].take k).filterMap ownPart = [] :=
      List.filterMap_eq_nil_iff.mpr (fun msg hmsg =>
        List.mem_singleton.mp (List.mem_of_mem_take hmsg) ▸ hnone)
    rw [show (orderSeen _).taken = [.snapshot (oneBid s px)] from rfl, hown] at hb
    obtain rfl : b = .empty := (EStateM.Result.ok.inj hb).2.symm
    have hempty : Core.OrderBook.toVector .empty = [] := by
      show toVectorLoop [] [] = []
      rw [toVectorLoop]
    exact toVector_oneBid_ne_nil halias px (hdrawn.trans hempty)

/-- **The program serves** every feed of answers, whatever the threads do and in
whatever order, exactly if every symbol configured is `BTCUSDT` or one that is
taken for `ETHUSDT`. -/
theorem serves_subscriptions_iff (toUint64 : δ → UInt64 → UInt64) (maxDepth : UInt16)
    (cfg : Config) (px : δ) :
    (∀ s ∈ cfg.symbols, Serviceable s)
      ↔ ∀ ls t, (program toUint64 maxDepth .empty).Trace t → FedAnswers toUint64 cfg ls t →
        Serves toUint64 maxDepth t := by
  constructor
  · intro hcfg ls t h hfed
    exact serves_of_serviceable hcfg h hfed
  · intro hserves s hs
    refine serviceable_iff.mpr ⟨?_, fun halias => ?_⟩
    · by_contra hno
      obtain ⟨t, ht, hfed, hthrew⟩ := exists_failure hs hno
      exact hthrew (hserves _ t ht hfed).survives.1
    · obtain ⟨t, ht, hfed, hno⟩ := exists_not_serves hs halias px
      exact hno (hserves _ t ht hfed)

end Ui
