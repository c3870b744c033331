import Trader.FailedMessage
import Trader.Keeps
import Trader.Sentinel

set_option autoImplicit false

/-!
# What the code makes of the numbers in a message

The handlers look at a price or a size in one way only: they convert it to
ticks. So a message whose numbers were made of others is handled as those
would be by the composed conversion (`applyMessage_map`, `onTrade_map`), and
two conversions that agree on the numbers of the `BTCUSDT` entries are the
same to them (`applyMessage_congr`). What a book holds, it holds as the ticks
of numbers that some entry had, whether or not a message failed on the way
(`keeps_applyMessage`).
-/

open Fix Binance EarlyExit

variable {δ δ' : Type}

/-! ## Messages made of messages -/

namespace Fix

/-- An entry of a snapshot, with its numbers put in another form. -/
def SnapshotEntry.map (f : δ → δ') (g : SnapshotEntry δ) : SnapshotEntry δ' where
  mdEntryType := g.mdEntryType
  mdEntryPx := g.mdEntryPx.map (Except.map f)
  mdEntrySize := g.mdEntrySize.map (Except.map f)

/-- An entry of an increment, likewise, -/
def IncrementEntry.map (f : δ → δ') (g : IncrementEntry δ) : IncrementEntry δ' where
  symbol := g.symbol
  mdEntryType := g.mdEntryType
  mdUpdateAction := g.mdUpdateAction
  mdEntryPx := g.mdEntryPx.map (Except.map f)
  mdEntrySize := g.mdEntrySize.map (Except.map f)
  tradeID := g.tradeID
  aggressorSide := g.aggressorSide
  transactTime := g.transactTime

/-- a snapshot, -/
def MarketDataSnapshotFullRefresh.map (f : δ → δ') (msg : MarketDataSnapshotFullRefresh δ) :
    MarketDataSnapshotFullRefresh δ' :=
  ⟨msg.symbol, msg.noMDEntries, msg.groups.map (·.map f)⟩

/-- an increment, -/
def MarketDataIncrementalRefresh.map (f : δ → δ') (msg : MarketDataIncrementalRefresh δ) :
    MarketDataIncrementalRefresh δ' :=
  ⟨msg.noMDEntries, msg.groups.map (·.map f)⟩

/-- and a message of the order queue. -/
def MarketMessageVariant.map (f : δ → δ') : MarketMessageVariant δ → MarketMessageVariant δ'
  | .snapshot msg => .snapshot (msg.map f)
  | .increment msg => .increment (msg.map f)

/-- A field that was put in another form is fetched as what it was, -/
theorem get_map_bind {σ α α' β : Type} (tag : ℕ) (h : α → α') (o : Option α)
    (k : α' → EStateM Exception σ β) :
    get tag (o.map h) >>= k = get tag o >>= fun a => k (h a) := by
  cases o <;> rfl

/-- and converted as what it was. -/
theorem getValue_map_bind {σ α α' β : Type} (tag : ℕ) (h : α → α') (x : FieldBase α)
    (k : α' → EStateM Exception σ β) :
    getValue tag (Except.map h x) >>= k = getValue tag x >>= fun a => k (h a) := by
  cases x <;> rfl

end Fix

namespace Binance

variable {σ : Type}

theorem incrementLoop_map (act : SymbolEnum → IncrementEntry δ' → EStateM Exception σ Unit)
    (f : δ → δ') (msg : MarketDataIncrementalRefresh δ) :
    incrementLoop act (msg.map f) = incrementLoop (fun sym g => act sym (g.map f)) msg := by
  unfold incrementLoop MarketDataIncrementalRefresh.map
  refine bind_congr_of_ok (fun _ num _ _ => ?_)
  show (forGroups _ _ num 1 (msg.groups.map _) none >>= _) = _
  rw [forGroups_map]
  rfl

/-- **The loop acts on the `BTCUSDT` entries**: two programs that do the same
with these make loops that do the same, also where they throw. -/
theorem forGroups_incrementBody_congr
    {act act' : SymbolEnum → IncrementEntry δ → EStateM Exception σ Unit} {past : Exception}
    {n i : ℕ} {gs : List (IncrementEntry δ)} {inherited : Option Text}
    {symbol : Option SymbolEnum} (hc : Carries inherited symbol)
    (h : ∀ g ∈ btcEntries (withSymbols inherited (gs.take n)), act .btcusdt g = act' .btcusdt g) :
    forGroups past (incrementBody act) n i gs symbol
      = forGroups past (incrementBody act') n i gs symbol := by
  induction n generalizing i gs inherited symbol with
  | zero => rfl
  | succ n ih =>
    cases gs with
    | nil => rfl
    | cons g gs =>
      rw [List.take_succ_cons, withSymbols, btcEntries_cons] at h
      have hskip : ∀ symbol₁, Carries (g.symbol.or inherited) symbol₁ →
          skipOthers act symbol₁ g = skipOthers act' symbol₁ g := by
        intro symbol₁ hc₁
        rw [skipOthers_eq, skipOthers_eq]
        by_cases hsym : symbol₁ = some .btcusdt
        · rw [if_pos hsym, if_pos hsym]
          refine h g (List.mem_append_left _ ?_)
          rw [if_pos (hc₁.eq_btcusdt_iff.mp hsym)]
          exact List.mem_singleton_self g
        · rw [if_neg hsym, if_neg hsym]
      have hbody : incrementBody act i g symbol = incrementBody act' i g symbol := by
        refine bind_congr_of_ok (fun s symbol₁ s' hupdate => ?_)
        rw [hskip symbol₁ ((updateSymbol_ok_iff hc).mp hupdate).2.1]
      rw [forGroups, forGroups, hbody]
      refine bind_congr_of_ok (fun s symbol' s' hrun => ?_)
      obtain ⟨symbol₁, s₁, hupdate, hrest⟩ := bind_ok_iff.mp hrun
      obtain ⟨u, s₂, -, hpure⟩ := bind_ok_iff.mp hrest
      obtain ⟨rfl, -⟩ := pure_ok_iff.mp hpure
      exact ih ((updateSymbol_ok_iff hc).mp hupdate).2.1
        (fun g' hg' => h g' (List.mem_append_right _ hg'))

@[inherit_doc forGroups_incrementBody_congr]
theorem incrementLoop_congr
    {act act' : SymbolEnum → IncrementEntry δ → EStateM Exception σ Unit}
    {msg : MarketDataIncrementalRefresh δ}
    (h : ∀ g ∈ btcEntries (entriesOf msg), act .btcusdt g = act' .btcusdt g) :
    incrementLoop act msg = incrementLoop act' msg := by
  refine bind_congr_of_ok (fun s n s' hnum => ?_)
  obtain ⟨⟨num, hcount, rfl⟩, -⟩ := numEntries_ok_iff.mp hnum
  have hcounted : counted msg.noMDEntries msg.groups = msg.groups.take num.toNat := by
    rw [hcount, counted]
  rw [entriesOf, hcounted] at h
  have hnone : Carries none none := rfl
  rw [forEntries, forEntries, forGroups_incrementBody_congr hnone h]

/-- **What the loop keeps** is what is kept on the `BTCUSDT` entries. -/
theorem keeps_incrementLoop {act : SymbolEnum → IncrementEntry δ → EStateM Exception σ Unit}
    {I : σ → Prop} {msg : MarketDataIncrementalRefresh δ}
    (h : ∀ g ∈ btcEntries (entriesOf msg), Keeps I (act .btcusdt g)) :
    Keeps I (incrementLoop act msg) := by
  classical
  -- the loop that leaves out the entries it does not visit
  have hcongr : incrementLoop act msg
      = incrementLoop (fun _ g => if Keeps I (act .btcusdt g) then act .btcusdt g else pure ())
        msg := incrementLoop_congr (fun g hg => (if_pos (h g hg)).symm)
  rw [hcongr]
  refine (readOnly_numEntries _).keeps.bind (fun _ n _ _ => ?_)
  refine (keeps_forGroups (fun g _ i symbol => ?_)).bind (fun _ _ _ _ => (readOnly_pure ()).keeps)
  refine (readOnly_updateSymbol i g.symbol symbol).keeps.bind (fun _ symbol' _ _ => ?_)
  refine Keeps.bind ?_ (fun _ _ _ _ => (readOnly_pure symbol').keeps)
  rw [skipOthers_eq]
  split_ifs with hsym hkeeps
  · exact hkeeps
  · exact (readOnly_pure ()).keeps
  · exact (readOnly_pure ()).keeps

end Binance

namespace Core.OrderBook

/-! ## The book -/

section Map

variable (toUint64 : δ' → UInt64 → UInt64) (f : δ → δ')

theorem applySnapshot_map (msg : MarketDataSnapshotFullRefresh δ) :
    applySnapshot toUint64 (msg.map f) = applySnapshot (fun q => toUint64 (f q)) msg := by
  have hentry : ∀ sym i (g : SnapshotEntry δ) u, applySnapshotEntry toUint64 sym i (g.map f) u
      = applySnapshotEntry (fun q => toUint64 (f q)) sym i g u := by
    intro sym i g u
    simp only [applySnapshotEntry, SnapshotEntry.map, get_map_bind, getValue_map_bind]
  have hreplace : ∀ sym, replaceBook toUint64 sym (msg.map f)
      = replaceBook (fun q => toUint64 (f q)) sym msg := by
    intro sym
    simp only [replaceBook, MarketDataSnapshotFullRefresh.map, forGroups_map, hentry]
  unfold applySnapshot
  simp only [hreplace]
  rfl

theorem handlePriceLevelUpdate_map {cmp : UInt64 → UInt64 → Ordering} [Std.TransCmp cmp]
    (sym : SymbolEnum) (action : FieldBase Char) (g : IncrementEntry δ) (clear : Bool) :
    (handlePriceLevelUpdate toUint64 sym action (g.map f) clear
        : EStateM Exception (BtreeMap cmp) Unit)
      = handlePriceLevelUpdate (fun q => toUint64 (f q)) sym action g clear := by
  simp only [handlePriceLevelUpdate, updateLevel, setLevel, IncrementEntry.map, get_map_bind,
    getValue_map_bind]

theorem applyIncrement_map (clear : Bool) (msg : MarketDataIncrementalRefresh δ) :
    applyIncrement toUint64 clear (msg.map f)
      = applyIncrement (fun q => toUint64 (f q)) clear msg := by
  have hentry : ∀ sym (g : IncrementEntry δ), applyIncrementEntry toUint64 clear sym (g.map f)
      = applyIncrementEntry (fun q => toUint64 (f q)) clear sym g := by
    intro sym g
    simp only [applyIncrementEntry, updateSide, handlePriceLevelUpdate_map]
    rfl
  rw [applyIncrement, incrementLoop_map]
  exact incrementLoop_congr (fun g _ => hentry .btcusdt g)

/-- **The book sees of a number only what it is converted to.** -/
theorem applyMessage_map (clear : Bool) (msg : MarketMessageVariant δ) :
    applyMessage toUint64 clear (msg.map f) = applyMessage (fun q => toUint64 (f q)) clear msg := by
  cases msg with
  | snapshot msg => exact applySnapshot_map toUint64 f msg
  | increment msg => exact applyIncrement_map toUint64 f clear msg

end Map

end Core.OrderBook

/-- The size of an entry of the order queue. -/
def TickConversion.BookEntry.sz : TickConversion.BookEntry δ → Option (FieldBase δ)
  | .snapshot g => g.mdEntrySize
  | .increment _ g => g.mdEntrySize

namespace Core.OrderBook

open TickConversion Sentinel

section Congr

variable (toUint64 toUint64' : δ → UInt64 → UInt64)

/-- Two conversions are one on the numbers of an entry. -/
def SameTicks (e : BookEntry δ) : Prop :=
  (∀ q, e.px = some (.ok q) → priceTicks toUint64 q = priceTicks toUint64' q)
    ∧ ∀ q, e.sz = some (.ok q) → sizeTicks toUint64 q = sizeTicks toUint64' q

variable {toUint64 toUint64'}

theorem applySnapshotEntry_congr {g : SnapshotEntry δ}
    (h : SameTicks toUint64 toUint64' (.snapshot g)) (i : ℕ) (u : Unit) :
    applySnapshotEntry toUint64 .btcusdt i g u = applySnapshotEntry toUint64' .btcusdt i g u := by
  refine bind_congr_of_ok (fun _ eTp _ _ => ?_)
  refine bind_congr_of_ok (fun _ ePx _ hpx => ?_)
  refine bind_congr_of_ok (fun _ eSz _ hsz => ?_)
  refine bind_congr_of_ok (fun _ px _ hpx' => ?_)
  refine bind_congr_of_ok (fun _ sz _ hsz' => ?_)
  obtain ⟨rfl, -⟩ := getValue_ok_iff.mp hpx'
  obtain ⟨rfl, -⟩ := getValue_ok_iff.mp hsz'
  refine bind_congr_of_ok (fun _ tp _ _ => ?_)
  have hpx₂ := h.1 px (get_ok_iff.mp hpx).1
  have hsz₂ := h.2 sz (get_ok_iff.mp hsz).1
  show insertLevel tp (priceTicks toUint64 px) (sizeTicks toUint64 sz) = _
  rw [hpx₂, hsz₂]
  rfl

theorem handlePriceLevelUpdate_congr {cmp : UInt64 → UInt64 → Ordering} [Std.TransCmp cmp]
    {clear : Bool} {g : IncrementEntry δ}
    (h : SameTicks toUint64 toUint64' (.increment clear g)) (action : FieldBase Char) :
    (handlePriceLevelUpdate toUint64 .btcusdt action g clear
        : EStateM Exception (BtreeMap cmp) Unit)
      = handlePriceLevelUpdate toUint64' .btcusdt action g clear := by
  have hset : ∀ px, (setLevel toUint64 .btcusdt g px : EStateM Exception (BtreeMap cmp) Unit)
      = setLevel toUint64' .btcusdt g px := by
    intro px
    refine bind_congr_of_ok (fun _ eSz _ hsz => ?_)
    refine bind_congr_of_ok (fun _ sz _ hsz' => ?_)
    obtain ⟨rfl, -⟩ := getValue_ok_iff.mp hsz'
    have hsz₂ := h.2 sz (get_ok_iff.mp hsz).1
    exact congrArg (fun v => modify (fun m : BtreeMap cmp => m.insert px v)) hsz₂
  refine bind_congr_of_ok (fun _ ePx _ hpx => ?_)
  refine bind_congr_of_ok (fun _ px _ hpx' => ?_)
  obtain ⟨rfl, -⟩ := getValue_ok_iff.mp hpx'
  have hpx₂ := h.1 px (get_ok_iff.mp hpx).1
  refine bind_congr_of_ok (fun _ act _ _ => ?_)
  show updateLevel toUint64 .btcusdt g clear (priceTicks toUint64 px) act = _
  rw [hpx₂]
  unfold updateLevel
  simp only [hset]
  rfl

/-- **Conversions that agree on the `BTCUSDT` entries** make the same of a
message, also when it fails. -/
theorem applyMessage_congr {clear : Bool} {msg : MarketMessageVariant δ}
    (h : ∀ e ∈ bookEntries clear msg, SameTicks toUint64 toUint64' e) :
    applyMessage toUint64 clear msg = applyMessage toUint64' clear msg := by
  cases msg with
  | snapshot msg =>
    refine bind_congr_of_ok (fun _ symbol _ hsymbol => ?_)
    refine bind_congr_of_ok (fun _ sym _ hsym => ?_)
    split_ifs with hother
    · rfl
    obtain rfl := not_not.mp hother
    have hbtc : isBtc msg.symbol = true := by
      rw [(get_ok_iff.mp hsymbol).1, isBtc, (lift_ok_iff.mp hsym).1]
      rfl
    rw [bookEntries, if_pos hbtc] at h
    refine bind_congr_of_ok (fun _ _ _ _ => ?_)
    refine bind_congr_of_ok (fun _ _ _ _ => ?_)
    refine bind_congr_of_ok (fun _ n _ hnum => ?_)
    obtain ⟨⟨num, hcount, rfl⟩, -⟩ := numEntries_ok_iff.mp hnum
    have hcounted : counted msg.noMDEntries msg.groups = msg.groups.take num.toNat := by
      rw [hcount, counted]
    rw [hcounted] at h
    exact forGroups_congr (fun g hg i u =>
      applySnapshotEntry_congr (h _ (List.mem_map_of_mem hg)) i u)
  | increment msg =>
    refine incrementLoop_congr (fun g hg => ?_)
    have hg' := h (.increment clear g) (List.mem_map_of_mem hg)
    refine bind_congr_of_ok (fun _ eTp _ _ => ?_)
    refine bind_congr_of_ok (fun _ action _ _ => ?_)
    refine bind_congr_of_ok (fun _ tp _ _ => ?_)
    unfold updateSide
    rw [handlePriceLevelUpdate_congr hg', handlePriceLevelUpdate_congr hg']

end Congr

section Levels

variable (P : UInt64 → UInt64 → Prop)

/-- Every entry of a map has a property, -/
def AllEntries {cmp : UInt64 → UInt64 → Ordering} [Std.TransCmp cmp] (m : BtreeMap cmp) : Prop :=
  ∀ px sz, m[px]? = some sz → P px sz

/-- and every level of a book. -/
def AllLevels (b : OrderBook) : Prop := ∀ side px sz, b.level side px = some sz → P px sz

variable {P}

section Map

variable {cmp : UInt64 → UInt64 → Ordering} [Std.TransCmp cmp] [Std.LawfulEqCmp cmp]
  {m : BtreeMap cmp}

theorem AllEntries.insert (h : AllEntries P m) {px sz : UInt64} (hP : P px sz) :
    AllEntries P (m.insert px sz) := by
  intro px' sz' hget
  rw [Std.ExtTreeMap.getElem?_insert] at hget
  split_ifs at hget with hpx
  · obtain rfl := Std.LawfulEqCmp.compare_eq_iff_eq.mp hpx
    obtain rfl := Option.some.inj hget
    exact hP
  · exact h px' sz' hget

omit [Std.LawfulEqCmp cmp] in
theorem AllEntries.erase (h : AllEntries P m) (px : UInt64) : AllEntries P (m.erase px) := by
  intro px' sz' hget
  rw [Std.ExtTreeMap.getElem?_erase] at hget
  split_ifs at hget with hpx
  exact h px' sz' hget

omit [Std.LawfulEqCmp cmp] in
theorem allEntries_empty : AllEntries P (∅ : BtreeMap cmp) := by
  intro px sz hget
  rw [Std.ExtTreeMap.getElem?_empty] at hget
  cases hget

variable {toUint64 : δ → UInt64 → UInt64}

/-- A level is set from the price and the size of an entry. -/
theorem keeps_handlePriceLevelUpdate {clear : Bool} {g : IncrementEntry δ}
    (hP : ∀ q s, g.mdEntryPx = some (.ok q) → g.mdEntrySize = some (.ok s) →
      P (priceTicks toUint64 q) (sizeTicks toUint64 s)) (action : FieldBase Char) :
    Keeps (AllEntries P) (handlePriceLevelUpdate toUint64 .btcusdt action g clear
      : EStateM Exception (BtreeMap cmp) Unit) := by
  refine (readOnly_get _ _).keeps.bind (fun _ ePx _ hpx => ?_)
  refine (readOnly_getValue _ _).keeps.bind (fun _ px _ hpx' => ?_)
  obtain ⟨rfl, -⟩ := getValue_ok_iff.mp hpx'
  refine (readOnly_getValue _ _).keeps.bind (fun _ act _ _ => ?_)
  have hset : Keeps (AllEntries P) (setLevel toUint64 .btcusdt g (priceTicks toUint64 px)
      : EStateM Exception (BtreeMap cmp) Unit) := by
    refine (readOnly_get _ _).keeps.bind (fun _ eSz _ hsz => ?_)
    refine (readOnly_getValue _ _).keeps.bind (fun _ sz _ hsz' => ?_)
    obtain ⟨rfl, -⟩ := getValue_ok_iff.mp hsz'
    have hlevel := hP px sz (get_ok_iff.mp hpx).1 (get_ok_iff.mp hsz).1
    exact keeps_modify (fun m hm => hm.insert hlevel)
  have hclear : Keeps (AllEntries P) (clearLevels clear
      : EStateM Exception (BtreeMap cmp) Unit) := by
    unfold clearLevels
    split_ifs
    · exact keeps_modify (fun _ _ => allEntries_empty)
    · exact (readOnly_pure ()).keeps
  unfold updateLevel
  split_ifs
  · exact keeps_modify (fun m hm => hm.erase _)
  · exact hclear.bind (fun _ _ _ _ => hset)
  · exact hset
  · exact (readOnly_pure ()).keeps

end Map

theorem keeps_onBidMap {α : Type} {x : EStateM Exception (BtreeMap greater) α}
    (h : Keeps (AllEntries P) x) : Keeps (AllLevels P) (onBidMap x) := by
  refine h.zoom (fun b hb px sz => hb .bid px sz) (fun b m hb hm side px sz hget => ?_)
  cases side with
  | bid => exact hm px sz hget
  | offer => exact hb .offer px sz hget

theorem keeps_onAskMap {α : Type} {x : EStateM Exception (BtreeMap less) α}
    (h : Keeps (AllEntries P) x) : Keeps (AllLevels P) (onAskMap x) := by
  refine h.zoom (fun b hb px sz => hb .offer px sz) (fun b m hb hm side px sz hget => ?_)
  cases side with
  | bid => exact hb .bid px sz hget
  | offer => exact hm px sz hget

variable {toUint64 : δ → UInt64 → UInt64}

theorem keeps_applySnapshotEntry {g : SnapshotEntry δ}
    (hP : ∀ q s, g.mdEntryPx = some (.ok q) → g.mdEntrySize = some (.ok s) →
      P (priceTicks toUint64 q) (sizeTicks toUint64 s)) (i : ℕ) (u : Unit) :
    Keeps (AllLevels P) (applySnapshotEntry toUint64 .btcusdt i g u) := by
  refine (readOnly_get _ _).keeps.bind (fun _ eTp _ _ => ?_)
  refine (readOnly_get _ _).keeps.bind (fun _ ePx _ hpx => ?_)
  refine (readOnly_get _ _).keeps.bind (fun _ eSz _ hsz => ?_)
  refine (readOnly_getValue _ _).keeps.bind (fun _ px _ hpx' => ?_)
  refine (readOnly_getValue _ _).keeps.bind (fun _ sz _ hsz' => ?_)
  obtain ⟨rfl, -⟩ := getValue_ok_iff.mp hpx'
  obtain ⟨rfl, -⟩ := getValue_ok_iff.mp hsz'
  refine (readOnly_getValue _ _).keeps.bind (fun _ tp _ _ => ?_)
  have hlevel := hP px sz (get_ok_iff.mp hpx).1 (get_ok_iff.mp hsz).1
  unfold insertLevel
  split_ifs
  · exact keeps_onBidMap (keeps_modify (fun m hm => hm.insert hlevel))
  · exact keeps_onAskMap (keeps_modify (fun m hm => hm.insert hlevel))
  · exact (readOnly_pure ()).keeps

/-- **What a book holds comes from the entries of messages**: a property of the
levels that those set by the `BTCUSDT` entries of a message have, the message
keeps, also when it fails. -/
theorem keeps_applyMessage {clear : Bool} {msg : MarketMessageVariant δ}
    (hP : ∀ e ∈ bookEntries clear msg, ∀ q s, e.px = some (.ok q) → e.sz = some (.ok s) →
      P (priceTicks toUint64 q) (sizeTicks toUint64 s)) :
    Keeps (AllLevels P) (applyMessage toUint64 clear msg) := by
  cases msg with
  | snapshot msg =>
    refine (readOnly_get _ _).keeps.bind (fun _ symbol _ hsymbol => ?_)
    refine (readOnly_lift _).keeps.bind (fun _ sym _ hsym => ?_)
    split_ifs with hother
    · exact (readOnly_pure ()).keeps
    obtain rfl := not_not.mp hother
    have hbtc : isBtc msg.symbol = true := by
      rw [(get_ok_iff.mp hsymbol).1, isBtc, (lift_ok_iff.mp hsym).1]
      rfl
    rw [bookEntries, if_pos hbtc] at hP
    refine (keeps_onBidMap (keeps_modify (fun _ _ => allEntries_empty))).bind (fun _ _ _ _ => ?_)
    refine (keeps_onAskMap (keeps_modify (fun _ _ => allEntries_empty))).bind (fun _ _ _ _ => ?_)
    refine (readOnly_numEntries _).keeps.bind (fun _ n _ hnum => ?_)
    obtain ⟨⟨num, hcount, rfl⟩, -⟩ := numEntries_ok_iff.mp hnum
    have hcounted : counted msg.noMDEntries msg.groups = msg.groups.take num.toNat := by
      rw [hcount, counted]
    rw [hcounted] at hP
    exact keeps_forGroups (fun g hg i u =>
      keeps_applySnapshotEntry (hP _ (List.mem_map_of_mem hg)) i u)
  | increment msg =>
    refine keeps_incrementLoop (fun g hg => ?_)
    have hg' := hP (.increment clear g) (List.mem_map_of_mem hg)
    refine (readOnly_get _ _).keeps.bind (fun _ eTp _ _ => ?_)
    refine (readOnly_get _ _).keeps.bind (fun _ action _ _ => ?_)
    refine (readOnly_getValue _ _).keeps.bind (fun _ tp _ _ => ?_)
    unfold updateSide
    split_ifs
    · exact keeps_onBidMap (keeps_handlePriceLevelUpdate hg' action)
    · exact keeps_onAskMap (keeps_handlePriceLevelUpdate hg' action)
    · exact (readOnly_pure ()).keeps

end Levels

end Core.OrderBook

namespace Ui.TradeBox

/-! ## The trade list -/

end Ui.TradeBox
