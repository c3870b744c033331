import Mathlib.Data.List.Forall2
import Trader.BookHistory
import Trader.TradeBox

set_option autoImplicit false

/-!
# Entries regrouped on the wire

A sender is free to cut a list of entries into messages where it likes, and
to leave out the symbol of an entry that repeats the one before it in the
same message. Both loops carry the symbol from entry to entry, and start
without one in every message, so neither freedom changes what is received:
the effective symbols are those the entries had to begin with
(`Elided.effective`), and the book and the ring are what the whole list in
one message leaves (`regrouped`).
-/

namespace Binance

open Fix EarlyExit

variable {δ : Type}

/-- **A message with symbols left out.** `Elided prev gs gs'` says that `gs'`
is `gs` less the symbols of some entries, each of which has the symbol of
the entry before it, `prev` for the first. -/
inductive Elided : Option Text → List (IncrementEntry δ) → List (IncrementEntry δ) → Prop
  | nil (prev : Option Text) : Elided prev [] []
  | keep {prev : Option Text} {g : IncrementEntry δ} {gs gs' : List (IncrementEntry δ)} :
      Elided g.symbol gs gs' → Elided prev (g :: gs) (g :: gs')
  | drop {prev : Option Text} {g : IncrementEntry δ} {gs gs' : List (IncrementEntry δ)} :
      g.symbol = prev → Elided g.symbol gs gs' →
        Elided prev (g :: gs) ({ g with symbol := none } :: gs')

/-- An entry is received with a symbol, under the symbol it was sent with: only
whether that symbol is its own may have changed. -/
def ReceivedAs (g : IncrementEntry δ) (p : Option Text × IncrementEntry δ) : Prop :=
  p.1 = g.symbol ∧ p.2 = { g with symbol := p.2.symbol }

/-- **Effective symbols survive** the leaving out. -/
theorem Elided.effective {prev : Option Text} {gs gs' : List (IncrementEntry δ)}
    (h : Elided prev gs gs') (hsome : ∀ g ∈ gs, g.symbol.isSome = true) :
    List.Forall₂ ReceivedAs gs (withSymbols prev gs') := by
  induction h with
  | nil prev => exact List.Forall₂.nil
  | @keep prev g gs gs' _ ih =>
    obtain ⟨hg, hgs⟩ := List.forall_mem_cons.mp hsome
    have hown : g.symbol.or prev = g.symbol := Option.or_of_isSome hg
    rw [withSymbols, hown]
    exact List.Forall₂.cons ⟨rfl, rfl⟩ (ih hgs)
  | @drop prev g gs gs' hprev _ ih =>
    obtain ⟨-, hgs⟩ := List.forall_mem_cons.mp hsome
    rw [withSymbols, Option.none_or, ← hprev]
    exact List.Forall₂.cons ⟨rfl, rfl⟩ (ih hgs)

section Received

variable {gs gs' : List (IncrementEntry δ)} {ps : List (Option Text × IncrementEntry δ)}

/-- What is asked of the entries sent, and does not depend on their own
symbols, holds of the entries received. -/
theorem readable_of_received {R : IncrementEntry δ → Prop}
    (hR : ∀ g symbol, R g → R { g with symbol := symbol }) (h : List.Forall₂ ReceivedAs gs ps)
    (hread : ∀ g ∈ gs, Accepted g.symbol ∧ (isBtc g.symbol = true → R g)) :
    ∀ p ∈ ps, Accepted p.1 ∧ (isBtc p.1 = true → R p.2) := by
  induction h with
  | nil => exact fun p hp => absurd hp List.not_mem_nil
  | @cons g p gs ps hp _ ih =>
    obtain ⟨hg, hgs⟩ := List.forall_mem_cons.mp hread
    refine List.forall_mem_cons.mpr ⟨?_, ih hgs⟩
    rw [hp.1, hp.2]
    exact ⟨hg.1, fun hbtc => hR g _ (hg.2 hbtc)⟩

/-- What the entries received come to is what the entries sent do, for a
function that does not look at their own symbols. -/
theorem flatMap_btcEntries_of_received {β : Type} {f : IncrementEntry δ → List β}
    (hf : ∀ g symbol, f { g with symbol := symbol } = f g) (h : List.Forall₂ ReceivedAs gs ps) :
    (btcEntries ps).flatMap f = (gs.filter (fun g => isBtc g.symbol)).flatMap f := by
  induction h with
  | nil => rfl
  | @cons g p gs ps hp _ ih =>
    rw [btcEntries_cons, List.flatMap_append, ih, List.filter_cons, hp.1, hp.2]
    cases isBtc g.symbol with
    | true =>
      show (f { g with symbol := _ } ++ []) ++ _ = f g ++ _
      rw [List.append_nil, hf]
      rfl
    | false => rfl

end Received

theorem Accepted.isSome {text : Option Text} (h : Accepted text) : text.isSome = true :=
  Option.isSome_iff_ne_none.mpr h.ne_none

/-- The entries of messages, as they are received. -/
def received (sent : List (List (IncrementEntry δ))) :
    List (Option Text × IncrementEntry δ) :=
  sent.flatMap (fun gs => entriesOf (.ofGroups gs))

/-- **Cutting and leaving out** change neither the entries received nor their
order. -/
theorem receivedAs_received {parts sent : List (List (IncrementEntry δ))}
    (h : List.Forall₂ (Elided none) parts sent)
    (hacc : ∀ g ∈ parts.flatten, Accepted g.symbol) :
    List.Forall₂ ReceivedAs parts.flatten (received sent) := by
  induction h with
  | nil => exact List.Forall₂.nil
  | @cons gs gs' parts sent hgs _ ih =>
    rw [List.flatten_cons, List.forall_mem_append] at hacc
    obtain ⟨hacc₁, hacc₂⟩ := hacc
    have hfirst : List.Forall₂ ReceivedAs gs (entriesOf (.ofGroups gs')) := by
      rw [entriesOf, counted_ofGroups]
      exact hgs.effective (fun g hg => (hacc₁ g hg).isSome)
    exact List.rel_append hfirst (ih hacc₂)

/-- The entries of `BTCUSDT` received, message by message. -/
theorem btcEntries_received (sent : List (List (IncrementEntry δ))) :
    btcEntries (received sent)
      = sent.flatMap (fun gs => btcEntries (entriesOf (.ofGroups gs))) := by
  unfold btcEntries received
  rw [List.filter_flatMap, List.map_flatMap]

end Binance

namespace WireGrouping

open Fix Binance EarlyExit Core Core.OrderBook Ui.TradeBox

variable {δ : Type} (toUint64 : δ → UInt64 → UInt64)

/-- The order-queue messages of a regrouping. -/
def increments (sent : List (List (IncrementEntry δ))) : List (MarketMessageVariant δ) :=
  sent.map (fun gs => .increment (.ofGroups gs))

variable {parts sent : List (List (IncrementEntry δ))}

/-- **The book of a regrouping** is the book of its entries. -/
theorem applyMessages_received (h : List.Forall₂ (Elided none) parts sent)
    (hread : ∀ g ∈ parts.flatten,
      Accepted g.symbol ∧ (isBtc g.symbol = true → IncrementReadable g))
    (clear : Bool) (b : OrderBook) :
    (applyMessages toUint64 clear (increments sent)).run b = .ok ()
      (b.runOps (fun side => (parts.flatten.filter (fun g => isBtc g.symbol)).flatMap
        (incrementOps toUint64 clear side))) := by
  have hrec := receivedAs_received h (fun g hg => (hread g hg).1)
  refine (applyMessages_ok_iff toUint64).mpr ⟨?_, ?_⟩
  · rw [increments, List.forall_mem_map]
    intro gs hgs
    refine ⟨countFits_ofGroups gs, fun p hp => ?_⟩
    exact readable_of_received (fun _ _ hR => hR) hrec hread p (List.mem_flatMap_of_mem hgs hp)
  · have hops : ∀ side, (increments sent).flatMap (messageOps toUint64 clear side)
        = (parts.flatten.filter (fun g => isBtc g.symbol)).flatMap
          (incrementOps toUint64 clear side) := by
      intro side
      rw [← flatMap_btcEntries_of_received (fun _ _ => rfl) hrec, btcEntries_received,
        List.flatMap_assoc, increments, List.flatMap_map]
      rfl
    simp only [hops]

/-- **The ring of a regrouping** is the ring of its entries. -/
theorem onTrades_received (h : List.Forall₂ (Elided none) parts sent)
    (hread : ∀ g ∈ parts.flatten,
      Accepted g.symbol ∧ (isBtc g.symbol = true → TradeReadable toUint64 g))
    (r : TradeRing) :
    (onTrades toUint64 (sent.map .ofGroups)).run r = .ok ()
      (((parts.flatten.filter (fun g => isBtc g.symbol)).flatMap (entryTrades toUint64)).foldl
        RingBuffer.pushBack r) := by
  have hrec := receivedAs_received h (fun g hg => (hread g hg).1)
  refine (onTrades_ok_iff toUint64).mpr ⟨?_, ?_⟩
  · rw [List.forall_mem_map]
    intro gs hgs
    refine ⟨countFits_ofGroups gs, fun p hp => ?_⟩
    exact readable_of_received (fun _ symbol hR => hR.withSymbol toUint64 symbol) hrec hread p
      (List.mem_flatMap_of_mem hgs hp)
  · rw [← flatMap_btcEntries_of_received (fun _ _ => rfl) hrec, btcEntries_received,
      List.flatMap_assoc, List.flatMap_map]
    rfl

/-- **Regrouping changes nothing.** Entries with explicit symbols, cut into
messages in any way and with repeated symbols left out in any way, leave the
same book and the same ring as all of them in one message do. -/
theorem regrouped (h : List.Forall₂ (Elided none) parts sent)
    (hacc : ∀ g ∈ parts.flatten, Accepted g.symbol)
    (hbook : ∀ g ∈ parts.flatten, isBtc g.symbol = true → IncrementReadable g)
    (htrade : ∀ g ∈ parts.flatten, isBtc g.symbol = true → TradeReadable toUint64 g) :
    (∀ (clear : Bool) (b : OrderBook), ∃ b',
      (applyIncrement toUint64 clear (.ofGroups parts.flatten)).run b = .ok () b'
      ∧ (applyMessages toUint64 clear (increments sent)).run b = .ok () b')
    ∧ ∀ r : TradeRing, ∃ r',
      (onTrade toUint64 (.ofGroups parts.flatten)).run r = .ok () r'
      ∧ (onTrades toUint64 (sent.map .ofGroups)).run r = .ok () r' := by
  have hall : ∀ {R : IncrementEntry δ → Prop},
      (∀ g ∈ parts.flatten, isBtc g.symbol = true → R g) →
      ∀ g ∈ parts.flatten, Accepted g.symbol ∧ (isBtc g.symbol = true → R g) :=
    fun hR g hg => ⟨hacc g hg, hR g hg⟩
  have hwhole : ∀ {R : IncrementEntry δ → Prop},
      (∀ g ∈ parts.flatten, isBtc g.symbol = true → R g) →
      ∀ p ∈ entriesOf (.ofGroups parts.flatten), Accepted p.1 ∧ (isBtc p.1 = true → R p.2) := by
    intro R hR
    rw [entriesOf_ofGroups hacc, List.forall_mem_map]
    exact hall hR
  have hkept : btcEntries (entriesOf (.ofGroups parts.flatten))
      = parts.flatten.filter (fun g => isBtc g.symbol) := by
    rw [entriesOf_ofGroups hacc, btcEntries_map]
  refine ⟨fun clear b => ⟨_, ?_, applyMessages_received toUint64 h (hall hbook) clear b⟩,
    fun r => ⟨_, ?_, onTrades_received toUint64 h (hall htrade) r⟩⟩
  · refine (applyIncrement_ok_iff toUint64).mpr ⟨⟨countFits_ofGroups _, hwhole hbook⟩, ?_⟩
    unfold incrementMessageOps
    rw [hkept]
  · refine (onTrade_ok_iff toUint64).mpr ⟨⟨countFits_ofGroups _, hwhole htrade⟩, ?_⟩
    rw [messageTrades, hkept]

/-- A bid, an offer and a trade in two messages, the second of which leaves out a
symbol. -/
theorem regrouped_two_messages :
    ∃ (parts sent : List (List (IncrementEntry ℕ))),
      parts.map List.length = [1, 2]
      ∧ parts.flatten.map IncrementEntry.mdEntryType
        = [some (.ok '0'), some (.ok '1'), some (.ok '2')]
      ∧ (sent.flatten.map (fun g => g.symbol.isSome)) = [true, true, false]
      ∧ (∀ (clear : Bool) (b : OrderBook), ∃ b',
        (applyIncrement (fun px ticks => UInt64.ofNat px * ticks) clear
          (.ofGroups parts.flatten)).run b = .ok () b'
        ∧ (applyMessages (fun px ticks => UInt64.ofNat px * ticks) clear (increments sent)).run b
          = .ok () b')
      ∧ ∀ r : TradeRing, ∃ r',
        (onTrade (fun px ticks => UInt64.ofNat px * ticks) (.ofGroups parts.flatten)).run r
          = .ok () r'
        ∧ (onTrades (fun px ticks => UInt64.ofNat px * ticks) (sent.map .ofGroups)).run r
          = .ok () r' := by
  let entry (tp : Char) (px : ℕ) : IncrementEntry ℕ :=
    { symbol := some "BTCUSDT".toList, mdEntryType := some (.ok tp),
      mdUpdateAction := some (.ok '0'), mdEntryPx := some (.ok px), mdEntrySize := some (.ok 3),
      tradeID := some "17".toList, aggressorSide := some (.ok '1') }
  let parts : List (List (IncrementEntry ℕ)) := [[entry '0' 9], [entry '1' 10, entry '2' 10]]
  let sent : List (List (IncrementEntry ℕ)) :=
    [[entry '0' 9], [entry '1' 10, { entry '2' 10 with symbol := none }]]
  have hmem : ∀ g ∈ parts.flatten, ∃ tp px, g = entry tp px := by
    simp [parts]
  have hsent : List.Forall₂ (Elided none) parts sent :=
    .cons (.keep (.nil _)) (.cons (.keep (.drop rfl (.nil _))) .nil)
  have h := regrouped (fun (px : ℕ) ticks => UInt64.ofNat px * ticks) hsent
    (fun g hg => by
      obtain ⟨tp, px, rfl⟩ := hmem g hg
      exact ⟨.btcusdt, .btcusdt, by decide, rfl⟩)
    (fun g hg _ => by
      obtain ⟨tp, px, rfl⟩ := hmem g hg
      exact ⟨tp, .ok '0', rfl, rfl, fun _ => ⟨⟨px, rfl⟩, '0', rfl, fun _ => ⟨3, rfl⟩⟩⟩)
    (fun g hg _ => by
      obtain ⟨tp, px, rfl⟩ := hmem g hg
      exact ⟨⟨tp, rfl⟩, fun _ =>
        ⟨_, (decode_eq_some_iff _).mp (rfl : decode _ (entry tp px) = some _)⟩⟩)
  exact ⟨parts, sent, rfl, rfl, rfl, h⟩

end WireGrouping
