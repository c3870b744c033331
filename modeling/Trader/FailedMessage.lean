import Trader.BookHistory
import Trader.TradeBox

set_option autoImplicit false

/-!
# What a failed message leaves behind

A message that throws is not rolled back: nothing in the code keeps the
state it started from. What it leaves is what the message *cut* to the
entries before the failing one leaves, a message that does end normally.
So a book whose snapshot failed is the beginning of the snapshot's book and
not the old one, unless the snapshot failed on its symbol.

One thing an entry can do before it throws: the `CHANGE` of an increment
applied with `is_book_clear_needed` clears its side before it reads its
size.
-/

open Fix Binance EarlyExit

variable {δ : Type}

/-- The message cut to its first `k` entries. -/
def Fix.MarketDataSnapshotFullRefresh.cut (msg : MarketDataSnapshotFullRefresh δ) (k : ℕ) :
    MarketDataSnapshotFullRefresh δ :=
  { msg with noMDEntries := some (.ok k) }

@[inherit_doc Fix.MarketDataSnapshotFullRefresh.cut]
def Fix.MarketDataIncrementalRefresh.cut (msg : MarketDataIncrementalRefresh δ) (k : ℕ) :
    MarketDataIncrementalRefresh δ :=
  { msg with noMDEntries := some (.ok k) }

/-- The count field of a message is missing or no number. -/
def CountUnreadable (noMDEntries : Option (FieldBase ℤ)) : Prop :=
  ∀ num : ℤ, noMDEntries ≠ some (.ok num)

/-- The count field of a message counts more than `k` entries. -/
def CountsPast (noMDEntries : Option (FieldBase ℤ)) (k : ℕ) : Prop :=
  ∃ num : ℤ, noMDEntries = some (.ok num) ∧ (k : ℤ) < num

namespace Binance

variable {σ : Type} {act : SymbolEnum → IncrementEntry δ → EStateM Exception σ Unit}

theorem readOnly_updateSymbol (i : ℕ) (own : Option Text) (symbol : Option SymbolEnum) :
    ReadOnly (updateSymbol i own symbol : EStateM Exception σ (Option SymbolEnum)) := by
  unfold updateSymbol
  split
  · exact (readOnly_get _ _).bind fun _ => (readOnly_lift _).bind fun _ => readOnly_pure _
  · exact readOnly_pure _

/-- An iteration that throws has done to the state what `act` does before it
throws on the entry, if anything. -/
theorem failsBy_incrementBody {P : σ → σ → Prop} (hrefl : ∀ s, P s s)
    {g : IncrementEntry δ} (hact : FailsBy P (act .btcusdt g)) (i : ℕ)
    (symbol : Option SymbolEnum) : FailsBy P (incrementBody act i g symbol) := by
  refine (readOnly_updateSymbol i g.symbol symbol).failsBy_bind hrefl (fun s symbol' _ => ?_)
  intro s e s' h
  rcases bind_error_iff.mp h with hskip | ⟨u, s₁, -, hpure⟩
  · rw [skipOthers_eq] at hskip
    by_cases hbtc : symbol' = some .btcusdt
    · rw [if_pos hbtc] at hskip
      exact hact s e s' hskip
    · rw [if_neg hbtc] at hskip
      cases hskip
  · cases hpure

/-- A cut message that ends normally is the loop over its first entries. -/
theorem incrementLoop_cut_ok {msg : MarketDataIncrementalRefresh δ} {k : ℕ}
    {symbol : Option SymbolEnum} {s s' : σ}
    (h : (forEntries (incrementBody act) k msg.groups none).run s = .ok symbol s') :
    (incrementLoop act (msg.cut k)).run s = .ok () s' :=
  bind_ok_iff.mpr ⟨k, s, rfl, bind_ok_iff.mpr ⟨symbol, s', h, rfl⟩⟩

theorem incrementLoop_cut_error {msg : MarketDataIncrementalRefresh δ} {k : ℕ} {s s' : σ}
    {e : Exception}
    (h : (forEntries (incrementBody act) k msg.groups none).run s = .error e s') :
    (incrementLoop act (msg.cut k)).run s = .error e s' :=
  bind_error_iff.mpr (Or.inr ⟨k, s, rfl, bind_error_iff.mpr (Or.inl h)⟩)

/-- **An entry loop that throws** leaves what the message cut to the entries
before the failing one leaves, up to what `act` does to the state before it
throws on that entry. -/
theorem incrementLoop_error {P : IncrementEntry δ → σ → σ → Prop}
    (hrefl : ∀ g s, P g s s) (hact : ∀ g, FailsBy (P g) (act .btcusdt g))
    {msg : MarketDataIncrementalRefresh δ} {s s' : σ} {e : Exception}
    (h : (incrementLoop act msg).run s = .error e s') :
    (CountUnreadable msg.noMDEntries ∧ s' = s)
      ∨ ∃ k s₁, CountsPast msg.noMDEntries k
        ∧ (incrementLoop act (msg.cut k)).run s = .ok () s₁
        ∧ (incrementLoop act (msg.cut (k + 1))).run s = .error e s'
        ∧ (s' = s₁ ∨ ∃ g, msg.groups[k]? = some g ∧ P g s₁ s') := by
  have hloop : (numEntries msg.noMDEntries >>= fun num =>
      forEntries (incrementBody act) num msg.groups none).run s = .error e s' := by
    rcases bind_error_iff.mp h with hnum | ⟨n, s₁, hnum, hrest⟩
    · exact bind_error_iff.mpr (Or.inl hnum)
    · rcases bind_error_iff.mp hrest with hrun | ⟨symbol, s₂, -, hpure⟩
      · exact bind_error_iff.mpr (Or.inr ⟨n, s₁, hnum, hrun⟩)
      · cases hpure
  rcases forEntries_error hloop with ⟨hno, hs⟩ | ⟨k, symbol, s₁, hk, hok, hmore, hfail⟩
  · exact Or.inl ⟨hno, hs⟩
  · refine Or.inr ⟨k, s₁, hk, incrementLoop_cut_ok hok, incrementLoop_cut_error hmore, ?_⟩
    rcases hfail with hs | ⟨g, hg, hbody⟩
    · exact Or.inl hs
    · exact Or.inr ⟨g, hg, failsBy_incrementBody (hrefl g) (hact g) _ _ s₁ e s' hbody⟩

end Binance

namespace Core.OrderBook

variable (toUint64 : δ → UInt64 → UInt64)

/-! ## The book -/

/-- A book without the levels of a side. -/
def clearSide (b : OrderBook) (side : BookSide) : OrderBook :=
  b.runOps (fun side' => if side' = side then [.clear] else [])

theorem atomic_setLevel {cmp : UInt64 → UInt64 → Ordering} [Std.TransCmp cmp]
    (symbol : SymbolEnum) (g : IncrementEntry δ) (px : UInt64) :
    Atomic (setLevel toUint64 symbol g px : EStateM Exception (BtreeMap cmp) Unit) := by
  refine atomic_get (fun _ _ => ?_)
  refine atomic_getValue (fun _ _ => ?_)
  exact failsBy_modify _ _

/-- Only a `CHANGE` can leave a trace before it throws: its side cleared. -/
theorem failsBy_updateLevel {cmp : UInt64 → UInt64 → Ordering} [Std.TransCmp cmp]
    (symbol : SymbolEnum) (g : IncrementEntry δ) (clear : Bool) (px : UInt64) (act : Char) :
    FailsBy (fun m m' => m' = m ∨ (clear = true ∧ act = mdUpdateActionChange ∧ m' = ∅))
      (updateLevel toUint64 symbol g clear px act
        : EStateM Exception (BtreeMap cmp) Unit) := by
  unfold updateLevel
  split
  · exact failsBy_modify _ _
  split
  · next hchange =>
    intro m e m' h
    rcases bind_error_iff.mp h with hclear | ⟨u, m₁, hclear, hset⟩
    · cases clear <;> cases hclear
    · rw [atomic_setLevel toUint64 symbol g px m₁ e m' hset]
      cases clear with
      | false =>
        obtain ⟨-, rfl⟩ := pure_ok_iff.mp hclear
        exact Or.inl rfl
      | true =>
        obtain rfl := modify_ok_iff.mp hclear
        exact Or.inr ⟨rfl, hchange, rfl⟩
  split
  · exact (atomic_setLevel toUint64 symbol g px).mono (fun _ _ h => Or.inl h)
  · exact (readOnly_pure _).failsBy (fun _ => Or.inl rfl)

/-- The same, with the action as the entry has it. -/
theorem failsBy_handlePriceLevelUpdate {cmp : UInt64 → UInt64 → Ordering}
    [Std.TransCmp cmp] (symbol : SymbolEnum) (action : FieldBase Char) (g : IncrementEntry δ)
    (clear : Bool) :
    FailsBy (fun m m' => m' = m
        ∨ (clear = true ∧ action = .ok mdUpdateActionChange ∧ m' = ∅))
      (handlePriceLevelUpdate toUint64 symbol action g clear
        : EStateM Exception (BtreeMap cmp) Unit) := by
  have hrefl : ∀ m : BtreeMap cmp, m = m
      ∨ (clear = true ∧ action = .ok mdUpdateActionChange ∧ m = ∅) := fun _ => Or.inl rfl
  refine failsBy_get hrefl (fun _ _ => failsBy_getValue hrefl (fun _ _ => ?_))
  refine failsBy_getValue hrefl (fun act hact => ?_)
  subst hact
  refine (failsBy_updateLevel toUint64 symbol g clear _ act).mono (fun m m' h => ?_)
  exact h.imp_right (fun ⟨hclear, hchange, hm⟩ => ⟨hclear, by rw [hchange], hm⟩)

/-- **What an entry of an increment can leave before it throws**: nothing,
or, for a `CHANGE` under `is_book_clear_needed`, its own side cleared. -/
def LeftByEntry (clear : Bool) (g : IncrementEntry δ) (b b' : OrderBook) : Prop :=
  b' = b ∨ (clear = true ∧ g.mdUpdateAction = some (.ok mdUpdateActionChange)
    ∧ ∃ side : BookSide, g.mdEntryType = some (.ok side.entryType) ∧ b' = b.clearSide side)

theorem failsBy_updateSide (symbol : SymbolEnum) {action : FieldBase Char}
    {g : IncrementEntry δ} {tp : Char} (clear : Bool)
    (htp : g.mdEntryType = some (.ok tp)) (haction : g.mdUpdateAction = some action) :
    FailsBy (LeftByEntry clear g) (updateSide toUint64 symbol action g clear tp) := by
  unfold updateSide
  split
  · next hbid =>
    refine (failsBy_handlePriceLevelUpdate toUint64 symbol action g clear).zoom.mono
      (fun b b' h => ?_)
    obtain ⟨m, rfl | ⟨hclear, rfl, rfl⟩, rfl⟩ := h
    · exact Or.inl rfl
    · exact Or.inr ⟨hclear, haction, .bid, htp.trans (by rw [hbid]; rfl), rfl⟩
  split
  · next hask =>
    refine (failsBy_handlePriceLevelUpdate toUint64 symbol action g clear).zoom.mono
      (fun b b' h => ?_)
    obtain ⟨m, rfl | ⟨hclear, rfl, rfl⟩, rfl⟩ := h
    · exact Or.inl rfl
    · exact Or.inr ⟨hclear, haction, .offer, htp.trans (by rw [hask]; rfl), rfl⟩
  · exact (readOnly_pure _).failsBy (fun _ => Or.inl rfl)

theorem failsBy_applyIncrementEntry (clear : Bool) (g : IncrementEntry δ) :
    FailsBy (LeftByEntry clear g) (applyIncrementEntry toUint64 clear .btcusdt g) := by
  have hrefl : ∀ b, LeftByEntry clear g b b := fun _ => Or.inl rfl
  refine failsBy_get hrefl (fun eTp heTp => failsBy_get hrefl (fun action haction => ?_))
  refine failsBy_getValue hrefl (fun tp htp => ?_)
  subst htp
  exact failsBy_updateSide toUint64 .btcusdt clear heTp haction

/-- An entry of a snapshot that throws has done nothing. -/
theorem atomic_applySnapshotEntry (sym : SymbolEnum) (i : ℕ) (g : SnapshotEntry δ) (u : Unit) :
    Atomic (applySnapshotEntry toUint64 sym i g u) := by
  have hinsert : ∀ (tp : Char) (px sz : UInt64), Atomic (insertLevel tp px sz) := by
    intro tp px sz b e b' h
    unfold insertLevel at h
    split at h
    · cases h
    split at h
    · cases h
    · cases h
  refine atomic_get (fun _ _ => ?_)
  refine atomic_get (fun _ _ => ?_)
  refine atomic_get (fun _ _ => ?_)
  refine atomic_getValue (fun _ _ => ?_)
  refine atomic_getValue (fun _ _ => ?_)
  refine atomic_getValue (fun _ _ => ?_)
  exact hinsert _ _ _

/-- What a failed snapshot leaves: the book as it was when it failed on its
symbol, an empty book when it failed on its count, and otherwise the book
that the snapshot cut to the entries before the failing one leaves. -/
def LeftBySnapshot (msg : MarketDataSnapshotFullRefresh δ) (e : Exception)
    (b b' : OrderBook) : Prop :=
  (¬ Accepted msg.symbol ∧ b' = b)
    ∨ (isBtc msg.symbol = true ∧ CountUnreadable msg.noMDEntries ∧ b' = empty)
    ∨ ∃ k, CountsPast msg.noMDEntries k
      ∧ (applySnapshot toUint64 (msg.cut k)).run b = .ok () b'
      ∧ (applySnapshot toUint64 (msg.cut (k + 1))).run b = .error e b'

/-- What a failed increment leaves: what the increment cut to the entries
before the failing one leaves, up to what that one did before it threw. -/
def LeftByIncrement (clear : Bool) (msg : MarketDataIncrementalRefresh δ) (e : Exception)
    (b b' : OrderBook) : Prop :=
  (CountUnreadable msg.noMDEntries ∧ b' = b)
    ∨ ∃ k b₁, CountsPast msg.noMDEntries k
      ∧ (applyIncrement toUint64 clear (msg.cut k)).run b = .ok () b₁
      ∧ (applyIncrement toUint64 clear (msg.cut (k + 1))).run b = .error e b'
      ∧ (b' = b₁ ∨ ∃ g, msg.groups[k]? = some g ∧ LeftByEntry clear g b₁ b')

theorem applyIncrement_error {clear : Bool} {msg : MarketDataIncrementalRefresh δ}
    {e : Exception} {b b' : OrderBook}
    (h : (applyIncrement toUint64 clear msg).run b = .error e b') :
    LeftByIncrement toUint64 clear msg e b b' :=
  incrementLoop_error (P := LeftByEntry clear) (fun _ _ => Or.inl rfl)
    (fun g => failsBy_applyIncrementEntry toUint64 clear g) h

/-- Once a snapshot is known to be of `BTCUSDT`, it is the replacement of the
book. -/
theorem run_applySnapshot_of_isBtc {msg : MarketDataSnapshotFullRefresh δ} {b : OrderBook}
    (h : isBtc msg.symbol = true) :
    (applySnapshot toUint64 msg).run b = (replaceBook toUint64 .btcusdt msg).run b :=
  run_applySnapshot toUint64 (carries_of_isBtc h)

theorem applySnapshot_error {msg : MarketDataSnapshotFullRefresh δ} {e : Exception}
    {b b' : OrderBook} (h : (applySnapshot toUint64 msg).run b = .error e b') :
    LeftBySnapshot toUint64 msg e b b' := by
  by_cases hbtc : isBtc msg.symbol = true
  · rw [run_applySnapshot_of_isBtc toUint64 hbtc] at h
    have hloop : (numEntries msg.noMDEntries >>= fun num =>
        forEntries (applySnapshotEntry toUint64 .btcusdt) num msg.groups ()).run empty
          = .error e b' := h
    rcases forEntries_error hloop with ⟨hno, hb⟩ | ⟨k, u, b₁, hk, hok, hmore, hfail⟩
    · exact Or.inr (Or.inl ⟨hbtc, hno, hb⟩)
    · have hb : b' = b₁ := by
        rcases hfail with hb | ⟨g, -, hthrow⟩
        · exact hb
        · exact atomic_applySnapshotEntry toUint64 _ _ g u b₁ e b' hthrow
      subst hb
      refine Or.inr (Or.inr ⟨k, hk, ?_, ?_⟩)
      · rw [run_applySnapshot_of_isBtc toUint64 (show isBtc (msg.cut k).symbol = true from hbtc)]
        exact hok
      · rw [run_applySnapshot_of_isBtc toUint64
          (show isBtc (msg.cut (k + 1)).symbol = true from hbtc)]
        exact hmore
  · -- a snapshot of another instrument only reads
    have hread : Atomic (applySnapshot toUint64 msg) := by
      refine atomic_get (fun text htext => ?_)
      refine (readOnly_lift _).failsBy_bind (fun _ => rfl) (fun _ sym hsym => ?_)
      split
      · exact (readOnly_pure _).failsBy (fun _ => rfl)
      · next hne =>
        obtain rfl : sym = .btcusdt := not_not.mp hne
        rw [htext] at hbtc
        exact absurd (decide_eq_true (lift_ok_iff.mp hsym).1) hbtc
    refine Or.inl ⟨fun hacc => ?_, hread b e b' h⟩
    have hproc : SnapshotProcessable msg := ⟨hacc, fun h' => absurd h' hbtc⟩
    have hok : (applySnapshot toUint64 msg).run b = .ok () _ :=
      (applySnapshot_ok_iff toUint64).mpr ⟨hproc, rfl⟩
    rw [hok] at h
    cases h

end Core.OrderBook

namespace Ui.TradeBox

variable (toUint64 : δ → UInt64 → UInt64)

/-! ## The trade list -/

theorem readOnly_readTime (o : Option (FieldBase UtcTimeStamp)) : ReadOnly (readTime o) := by
  cases o with
  | none => exact readOnly_pure _
  | some eTime => exact (readOnly_getValue _ _).bind fun _ => readOnly_pure _

/-- A trade that throws has not reached the ring. -/
theorem atomic_recordTrade (symbol : SymbolEnum) (g : IncrementEntry δ) :
    Atomic (recordTrade toUint64 symbol g) := by
  refine atomic_get (fun _ _ => ?_)
  refine atomic_getValue (fun _ _ => ?_)
  refine atomic_get (fun _ _ => ?_)
  refine atomic_getValue (fun _ _ => ?_)
  refine atomic_get (fun _ _ => ?_)
  refine atomic_get (fun _ _ => ?_)
  refine atomic_getValue (fun _ _ => ?_)
  refine (readOnly_lift _).failsBy_bind (fun _ => rfl) (fun _ _ _ => ?_)
  refine (readOnly_readTime _).failsBy_bind (fun _ => rfl) (fun _ _ _ => ?_)
  exact failsBy_modify _ _

theorem atomic_onTradeEntry (symbol : SymbolEnum) (g : IncrementEntry δ) :
    Atomic (onTradeEntry toUint64 symbol g) := by
  refine atomic_get (fun _ _ => ?_)
  refine atomic_getValue (fun tp _ => ?_)
  unfold onEntryType
  split
  · split
    · exact atomic_recordTrade toUint64 symbol g
    · exact (readOnly_pure _).failsBy (fun _ => rfl)
  · exact (readOnly_pure _).failsBy (fun _ => rfl)

/-- What a failed increment leaves of the ring: what the increment cut to
the entries before the failing one leaves. -/
def LeftByTrades (msg : MarketDataIncrementalRefresh δ) (e : Exception)
    (r r' : TradeRing) : Prop :=
  (CountUnreadable msg.noMDEntries ∧ r' = r)
    ∨ ∃ k, CountsPast msg.noMDEntries k
      ∧ (onTrade toUint64 (msg.cut k)).run r = .ok () r'
      ∧ (onTrade toUint64 (msg.cut (k + 1))).run r = .error e r'

theorem onTrade_error {msg : MarketDataIncrementalRefresh δ} {e : Exception}
    {r r' : TradeRing} (h : (onTrade toUint64 msg).run r = .error e r') :
    LeftByTrades toUint64 msg e r r' := by
  rcases incrementLoop_error (P := fun _ r r' => r' = r) (fun _ _ => rfl)
    (fun g => atomic_onTradeEntry toUint64 .btcusdt g) h
    with ⟨hno, hr⟩ | ⟨k, r₁, hk, hok, hmore, hr | ⟨g, -, hr⟩⟩
  · exact Or.inl ⟨hno, hr⟩
  · exact Or.inr ⟨k, hk, hr ▸ hok, hmore⟩
  · exact Or.inr ⟨k, hk, hr ▸ hok, hmore⟩

end Ui.TradeBox

namespace FailedMessage

open Core Core.OrderBook Ui.TradeBox

variable (toUint64 : δ → UInt64 → UInt64)

/-- **A failed message is not rolled back.** Whatever the exception, the book
or the ring is what the entries before the failing one left. -/
theorem left_by_failed_message (e : Exception) :
    (∀ (msg : MarketDataSnapshotFullRefresh δ) (b b' : OrderBook),
        (applySnapshot toUint64 msg).run b = .error e b' →
        LeftBySnapshot toUint64 msg e b b')
      ∧ (∀ (clear : Bool) (msg : MarketDataIncrementalRefresh δ) (b b' : OrderBook),
        (applyIncrement toUint64 clear msg).run b = .error e b' →
        LeftByIncrement toUint64 clear msg e b b')
      ∧ (∀ (msg : MarketDataIncrementalRefresh δ) (r r' : TradeRing),
        (onTrade toUint64 msg).run r = .error e r' →
        LeftByTrades toUint64 msg e r r') :=
  ⟨fun _ _ _ h => applySnapshot_error toUint64 h,
    fun _ _ _ _ h => applyIncrement_error toUint64 h,
    fun _ _ _ h => onTrade_error toUint64 h⟩

/-- A snapshot that counts an entry more than it has throws, with the book
it replaced gone. -/
theorem short_snapshot_not_rolled_back :
    ∃ (msg : MarketDataSnapshotFullRefresh ℕ) (b b' : OrderBook),
      (applySnapshot (fun px ticks => UInt64.ofNat px * ticks) msg).run b
        = .error (.fieldNotFound Tag.noMDEntries) b'
      ∧ b.level .bid 900 = some 1
      ∧ b'.level .bid 900 = none ∧ b'.level .bid 600 = some 100000 :=
  ⟨⟨some "BTCUSDT".toList, some (.ok 2),
      [{ mdEntryType := some (.ok '0'), mdEntryPx := some (.ok 6),
         mdEntrySize := some (.ok 1) }]⟩,
    ⟨(∅ : BtreeMap greater).insert 900 1, ∅⟩, _, rfl, rfl, rfl, rfl⟩

/-- What the failed snapshot leaves is what its one entry leaves. -/
theorem left_by_short_snapshot :
    ∃ (msg : MarketDataSnapshotFullRefresh ℕ) (b b' : OrderBook),
      (applySnapshot (fun px ticks => UInt64.ofNat px * ticks) msg).run b
        = .error (.fieldNotFound Tag.noMDEntries) b'
      ∧ LeftBySnapshot (fun px ticks => UInt64.ofNat px * ticks) msg
          (.fieldNotFound Tag.noMDEntries) b b' :=
  ⟨⟨some "BTCUSDT".toList, some (.ok 2),
      [{ mdEntryType := some (.ok '0'), mdEntryPx := some (.ok 6),
         mdEntrySize := some (.ok 1) }]⟩,
    ⟨(∅ : BtreeMap greater).insert 900 1, ∅⟩, _, rfl,
    (left_by_failed_message _ _).1 _ _ _ rfl⟩

end FailedMessage
