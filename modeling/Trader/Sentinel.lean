import Trader.BookVector
import Trader.TickConversion

set_option autoImplicit false

/-!
# Levels and the sentinel

`to_vector` writes `UINT64_MAX` where a side has no level, and nothing on the
way from the wire to the maps keeps that number out of them. It is the number
of ticks of minus one: the conversion cuts a product between minus two and
minus one to minus one, which wraps. No other product comes to it, since a
double past 53 bits is even, and so is what it wraps to
(`toUint64At_eq_sentinel_iff`).

As long as no entry that sets a level has a price or a size of that kind, a
sentinel in a row means that the side has no level there
(`sentinel_means_no_level`).
-/

namespace Sentinel

open Rounding Fix Binance Binary64 Utils.Double Core Core.OrderBook

/-! ## The conversion -/

/-- Past 53 bits, a double is cut to an even number. -/
theorem even_truncate {a : Binary64} (h : 2 ^ 53 ≤ |a.val|) : Even a.truncate := by
  obtain ⟨j, hj⟩ := a.representable.exists_even h
  have hint : a.val = ((2 * j : ℤ) : ℚ) := by
    rw [hj]
    push_cast
    rfl
  have htrunc : a.truncate = 2 * j := by
    rw [truncate, hint, Int.floor_intCast, Int.ceil_intCast, ite_self]
  exact htrunc ▸ even_two_mul j

/-- **What is cut to minus one**, modulo `2 ^ 64`. -/
theorem truncate_emod_eq_iff (a : Binary64) :
    a.truncate % 2 ^ 64 = 2 ^ 64 - 1 ↔ -2 < a.val ∧ a.val ≤ -1 := by
  constructor
  · intro h
    have hodd : ¬ Even a.truncate := by
      rw [Int.even_iff]
      omega
    have hsmall : |a.val| < 2 ^ 53 := not_le.mp (mt even_truncate hodd)
    obtain ⟨hlo, hhi⟩ := abs_lt.mp hsmall
    unfold truncate at h
    split_ifs at h with hsign
    · have hfloor : 0 ≤ ⌊a.val⌋ := Int.floor_nonneg.mpr hsign
      have hlt : ⌊a.val⌋ < 2 ^ 53 := Int.floor_lt.mpr (by exact_mod_cast hhi)
      omega
    · have hceil : ⌈a.val⌉ ≤ 0 := Int.ceil_nonpos.mpr (not_le.mp hsign).le
      have hgt : -2 ^ 53 < ⌈a.val⌉ := Int.lt_ceil.mpr (by exact_mod_cast hlo)
      obtain ⟨hlo', hhi'⟩ := Int.ceil_eq_iff.mp (show ⌈a.val⌉ = -1 by omega)
      push_cast at hlo' hhi'
      exact ⟨by linarith, hhi'⟩
  · rintro ⟨hlo, hhi⟩
    have hceil : ⌈a.val⌉ = -1 := by
      rw [Int.ceil_eq_iff]
      push_cast
      exact ⟨by linarith, hhi⟩
    have hneg : ¬ 0 ≤ a.val := by linarith
    rw [truncate, if_neg hneg, hceil]
    norm_num

/-- **A price or a size just below zero**: the product with its scale is rounded
to a number past minus two and not past minus one. -/
def JustBelowZero (value : Binary64) (ticksPerUnit : UInt64) : Prop :=
  1 - 1 / 2 ^ 54 ≤ -(value.val * ticksPerUnit.toNat)
    ∧ -(value.val * ticksPerUnit.toNat) < 2 - 1 / 2 ^ 53

instance (value : Binary64) (ticksPerUnit : UInt64) :
    Decidable (JustBelowZero value ticksPerUnit) :=
  inferInstanceAs (Decidable (_ ∧ _))

/-- **What is converted to the sentinel.** -/
theorem toUint64At_eq_sentinel_iff {value : Binary64} {ticksPerUnit : UInt64}
    (ht : ticksPerUnit.toNat < 2 ^ 53) :
    toUint64At value ticksPerUnit = BidAsk.sentinel ↔ JustBelowZero value ticksPerUnit := by
  have hscale : (ofUInt64 ticksPerUnit).val = ticksPerUnit.toNat := val_nearest_natCast ht
  have hsig : (value.mul (.ofUInt64 ticksPerUnit)).val
      = -toSig 53 (-(value.val * ticksPerUnit.toNat)) := by
    rw [mul, hscale, val_nearest, toSig_neg, neg_neg]
  have hone := toSig_lt_two_zpow_iff (p := 53) (by decide) 0 (-(value.val * ticksPerUnit.toNat))
  have htwo := toSig_lt_two_zpow_iff (p := 53) (by decide) 1 (-(value.val * ticksPerUnit.toNat))
  have hwrap := UInt64.natCast_toNat_ofInt (value.mul (.ofUInt64 ticksPerUnit)).truncate
  have hticks : toUint64At value ticksPerUnit = BidAsk.sentinel
      ↔ (value.mul (.ofUInt64 ticksPerUnit)).truncate % 2 ^ 64 = 2 ^ 64 - 1 := by
    rw [← hwrap, ← UInt64.toNat_inj, show BidAsk.sentinel.toNat = 2 ^ 64 - 1 from rfl,
      ← Nat.cast_inj (R := ℤ)]
    rfl
  rw [hticks, truncate_emod_eq_iff, hsig, neg_lt_neg_iff, neg_le_neg_iff, JustBelowZero,
    and_comm]
  norm_num at hone htwo ⊢
  rw [← not_lt, hone, not_lt, htwo]

/-! ## The entries of a run -/

open TickConversion

variable {δ : Type}

/-- An entry sets a level of a side, from a price and a size. -/
def SetsLevelFrom (side : BookSide) (px size : δ) : BookEntry δ → Prop
  | .snapshot g => g.mdEntryType = some (.ok side.entryType) ∧ g.mdEntryPx = some (.ok px)
      ∧ g.mdEntrySize = some (.ok size)
  | .increment _ g => g.mdEntryType = some (.ok side.entryType) ∧ g.mdEntryPx = some (.ok px)
      ∧ g.mdEntrySize = some (.ok size)
      ∧ ∃ act, g.mdUpdateAction = some (.ok act) ∧ SetsLevel act

/-- The entries of a message that the book looks at. -/
def bookEntries (clear : Bool) : MarketMessageVariant δ → List (BookEntry δ)
  | .snapshot msg =>
    if isBtc msg.symbol then (counted msg.noMDEntries msg.groups).map .snapshot else []
  | .increment msg => (btcEntries (entriesOf msg)).map (.increment clear)

theorem set_mem_ops_iff (toUint64 : δ → UInt64 → UInt64) {e : BookEntry δ} {side : BookSide}
    {key sz : UInt64} :
    .set key sz ∈ e.ops toUint64 side
      ↔ ∃ px size, SetsLevelFrom side px size e ∧ key = priceTicks toUint64 px
        ∧ sz = sizeTicks toUint64 size := by
  cases e with
  | snapshot g =>
    refine set_mem_snapshotOps_iff.trans ?_
    constructor
    · rintro ⟨px, size, htp, hpx, hsize, hkey, hsz⟩
      exact ⟨px, size, ⟨htp, hpx, hsize⟩, hkey, hsz⟩
    · rintro ⟨px, size, ⟨htp, hpx, hsize⟩, hkey, hsz⟩
      exact ⟨px, size, htp, hpx, hsize, hkey, hsz⟩
  | increment clear g =>
    refine set_mem_incrementOps_iff.trans ?_
    constructor
    · rintro ⟨act, px, size, htp, hact, hsets, hpx, hsize, hkey, hsz⟩
      exact ⟨px, size, ⟨htp, hpx, hsize, act, hact, hsets⟩, hkey, hsz⟩
    · rintro ⟨px, size, ⟨htp, hpx, hsize, act, hact, hsets⟩, hkey, hsz⟩
      exact ⟨act, px, size, htp, hact, hsets, hpx, hsize, hkey, hsz⟩

/-- **What a message sets** is what its entries set. -/
theorem set_mem_messageOps_iff (toUint64 : δ → UInt64 → UInt64) {clear : Bool}
    {msg : MarketMessageVariant δ} {side : BookSide} {key sz : UInt64} :
    .set key sz ∈ messageOps toUint64 clear side msg
      ↔ ∃ e ∈ bookEntries clear msg, .set key sz ∈ e.ops toUint64 side := by
  cases msg with
  | snapshot msg =>
    by_cases hsym : isBtc msg.symbol = true
    · simp [messageOps, snapshotMessageOps, bookEntries, hsym, BookEntry.ops]
    · simp [messageOps, snapshotMessageOps, bookEntries, hsym]
  | increment msg => simp [messageOps, incrementMessageOps, bookEntries, BookEntry.ops]

/-- **No level is set from a price or a size just below zero.** -/
def NoneJustBelowZero (clear : Bool) (msg : MarketMessageVariant Binary64) : Prop :=
  ∀ e ∈ bookEntries clear msg, ∀ side px size, SetsLevelFrom side px size e →
    ¬ JustBelowZero px (Config.getPriceTicksPerUnit .btcusdt)
      ∧ ¬ JustBelowZero size (Config.getSizeTicksPerUnit .btcusdt)

/-- **Exactly then a message sets no sentinel.** -/
theorem noneJustBelowZero_iff {clear : Bool} {msg : MarketMessageVariant Binary64} :
    NoneJustBelowZero clear msg
      ↔ ∀ side key sz, .set key sz ∈ messageOps toUint64At clear side msg →
        key ≠ BidAsk.sentinel ∧ sz ≠ BidAsk.sentinel := by
  obtain ⟨hpxScale, hszScale⟩ := config_lt .btcusdt
  constructor
  · intro h side key sz hset
    obtain ⟨e, he, hset⟩ := (set_mem_messageOps_iff toUint64At).mp hset
    obtain ⟨px, size, hfrom, rfl, rfl⟩ := (set_mem_ops_iff toUint64At).mp hset
    obtain ⟨hpx, hsize⟩ := h e he side px size hfrom
    exact ⟨mt (toUint64At_eq_sentinel_iff hpxScale).mp hpx,
      mt (toUint64At_eq_sentinel_iff hszScale).mp hsize⟩
  · intro h e he side px size hfrom
    obtain ⟨hpx, hsize⟩ := h side _ _ ((set_mem_messageOps_iff toUint64At).mpr
      ⟨e, he, (set_mem_ops_iff toUint64At).mpr ⟨px, size, hfrom, rfl, rfl⟩⟩)
    exact ⟨mt (toUint64At_eq_sentinel_iff hpxScale).mpr hpx,
      mt (toUint64At_eq_sentinel_iff hszScale).mpr hsize⟩

/-! ## The levels of a book -/

/-- **No level carries the sentinel**, as its price or as its size. -/
def FreeOfSentinel (b : OrderBook) : Prop :=
  ∀ side px sz, b.level side px = some sz → px ≠ BidAsk.sentinel ∧ sz ≠ BidAsk.sentinel

theorem freeOfSentinel_empty : FreeOfSentinel empty := by
  intro side px sz h
  cases side <;> cases h

/-- A message keeps a book free of the sentinel. -/
theorem FreeOfSentinel.applyMessage {clear : Bool} {msg : MarketMessageVariant Binary64}
    {b b' : OrderBook} {u : Unit} (hb : FreeOfSentinel b) (hmsg : NoneJustBelowZero clear msg)
    (h : (OrderBook.applyMessage toUint64At clear msg).run b = .ok u b') :
    FreeOfSentinel b' := by
  obtain ⟨-, rfl⟩ := (applyMessage_ok_iff toUint64At).mp h
  intro side px sz hlevel
  rw [level_runOps] at hlevel
  rcases KeyOp.set_mem_of_run_eq_some hlevel with hset | hold
  · exact noneJustBelowZero_iff.mp hmsg side px sz hset
  · exact hb side px sz hold

/-- And so does a run. -/
theorem FreeOfSentinel.applyMessages {clear : Bool} {msgs : List (MarketMessageVariant Binary64)}
    {b b' : OrderBook} {u : Unit} (hb : FreeOfSentinel b)
    (hmsgs : ∀ msg ∈ msgs, NoneJustBelowZero clear msg)
    (h : (OrderBook.applyMessages toUint64At clear msgs).run b = .ok u b') :
    FreeOfSentinel b' := by
  induction msgs generalizing b with
  | nil =>
    obtain ⟨-, rfl⟩ := EarlyExit.pure_ok_iff.mp h
    exact hb
  | cons msg msgs ih =>
    obtain ⟨hmsg, hmsgs⟩ := List.forall_mem_cons.mp hmsgs
    obtain ⟨u₁, b₁, h₁, h⟩ := EarlyExit.bind_ok_iff.mp h
    exact ih (hb.applyMessage hmsg h₁) hmsgs h

/-- A row of a book free of the sentinel has it only past the levels. -/
theorem FreeOfSentinel.size_le {b : OrderBook} (hb : FreeOfSentinel b) {side : BookSide} {i : ℕ}
    {r : BidAsk} (hr : b.toVector[i]? = some r)
    (hs : r.px side = BidAsk.sentinel ∨ r.sz side = BidAsk.sentinel) : b.size side ≤ i := by
  by_contra hlt
  obtain ⟨px, sz, he⟩ := exists_level b (not_le.mp hlt)
  obtain ⟨rfl, rfl⟩ := (toVector_laidOut b).level_row side i r px sz hr he
  have hlevel := ((bestFirst_levels b side).mem_iff _ _).mp (List.mem_of_getElem? he)
  obtain ⟨hpx, hsz⟩ := hb side _ _ hlevel
  exact hs.elim hpx hsz

/-- **A sentinel means that there is no level**, in every book that messages
lead to without setting a level from a price or a size just below zero. -/
theorem sentinel_means_no_level {clear : Bool} {msgs : List (MarketMessageVariant Binary64)}
    {b : OrderBook} {u : Unit} (hmsgs : ∀ msg ∈ msgs, NoneJustBelowZero clear msg)
    (h : (OrderBook.applyMessages toUint64At clear msgs).run empty = .ok u b) :
    FreeOfSentinel b
    ∧ ∀ (side : BookSide) (i : ℕ) (r : BidAsk), b.toVector[i]? = some r →
      r.px side = BidAsk.sentinel ∨ r.sz side = BidAsk.sentinel → b.size side ≤ i := by
  have hb := freeOfSentinel_empty.applyMessages hmsgs h
  exact ⟨hb, fun side i r hr hs => hb.size_le hr hs⟩

/-- A bid at one and a bid at minus one, whose ticks wrap past the sentinel. -/
theorem sentinel_means_no_level_negative :
    ∃ (msgs : List (MarketMessageVariant Binary64)) (b : OrderBook),
      (OrderBook.applyMessages toUint64At false msgs).run empty = .ok () b
      ∧ (b.levels .bid).map Prod.fst = [0xFFFFFFFFFFFFFF9C, 100]
      ∧ FreeOfSentinel b
      ∧ ∀ (side : BookSide) (i : ℕ) (r : BidAsk), b.toVector[i]? = some r →
        r.px side = BidAsk.sentinel ∨ r.sz side = BidAsk.sentinel → b.size side ≤ i := by
  obtain ⟨b, hrun, hlevels⟩ := levels_of_two_bids toUint64At (nearest 1) (nearest (-1))
    (nearest 1) (nearest 1)
  have hmsgs : (OrderBook.applyMessages toUint64At false
      [.snapshot (.ofGroups "BTCUSDT".toList
        [bidEntry (nearest 1) (nearest 1), bidEntry (nearest (-1)) (nearest 1)])]).run empty
      = .ok () b := EarlyExit.bind_ok_iff.mpr ⟨(), b, hrun, rfl⟩
  have hkey : priceTicks toUint64At (nearest 1) = 100
      ∧ priceTicks toUint64At (nearest (-1)) = 0xFFFFFFFFFFFFFF9C := by decide +kernel
  refine ⟨_, b, hmsgs, ?_, sentinel_means_no_level ?_ hmsgs⟩
  · rw [hlevels, hkey.1, hkey.2]
    rfl
  · refine List.forall_mem_singleton.mpr (fun e he side px size hfrom => ?_)
    obtain ⟨g, hg, rfl⟩ := List.mem_map.mp he
    obtain ⟨-, hpx, hsize⟩ := hfrom
    rcases List.mem_pair.mp hg with rfl | rfl
    · obtain rfl := Except.ok.inj (Option.some.inj hpx)
      obtain rfl := Except.ok.inj (Option.some.inj hsize)
      decide +kernel
    · obtain rfl := Except.ok.inj (Option.some.inj hpx)
      obtain rfl := Except.ok.inj (Option.some.inj hsize)
      decide +kernel

/-- A bid one tick below zero is stored under the sentinel, as the best of its
side. -/
theorem bid_one_tick_below_zero :
    (∃ b, (applySnapshot toUint64At (.ofGroups "BTCUSDT".toList
          [bidEntry (nearest 1) (nearest 1), bidEntry (nearest (-1 / 100)) (nearest 1)])).run empty
        = .ok () b
      ∧ b.levels .bid = [(BidAsk.sentinel, 100000), (100, 100000)])
    ∧ ¬ ∀ (clear : Bool) (msgs : List (MarketMessageVariant Binary64)) (b : OrderBook),
      (OrderBook.applyMessages toUint64At clear msgs).run empty = .ok () b →
      FreeOfSentinel b := by
  obtain ⟨b, hrun, hlevels⟩ := levels_of_two_bids toUint64At (nearest 1) (nearest (-1 / 100))
    (nearest 1) (nearest 1)
  have hkey : priceTicks toUint64At (nearest 1) = 100
      ∧ priceTicks toUint64At (nearest (-1 / 100)) = BidAsk.sentinel
      ∧ sizeTicks toUint64At (nearest 1) = 100000 := by decide +kernel
  have hbids : b.levels .bid = [(BidAsk.sentinel, 100000), (100, 100000)] := by
    rw [hlevels, hkey.1, hkey.2.1, hkey.2.2]
    rfl
  refine ⟨⟨b, hrun, hbids⟩, fun hall => ?_⟩
  have hfree := hall false [.snapshot _] b (EarlyExit.bind_ok_iff.mpr ⟨(), b, hrun, rfl⟩)
  have hlevel := ((bestFirst_levels b .bid).mem_iff BidAsk.sentinel 100000).mp (by
    rw [hbids]
    exact List.mem_cons_self)
  exact (hfree .bid _ _ hlevel).1 rfl

end Sentinel
