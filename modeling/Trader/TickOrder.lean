import Trader.BookVector
import Trader.TickConversion

set_option autoImplicit false

/-!
# Ticks in the order of the prices

The conversion to ticks rounds twice and cuts once, and each of the three keeps
the order of what it is given. So a lower price never becomes more ticks than
a higher one: two prices may meet at one tick, but not change places
(`toUint64_le`).

The maps of a book are sorted by ticks. What they list in that order is
therefore listed in the order of the prices themselves, strictly from level to
level (`ticks_in_order`).
-/

namespace TickOrder

open Rounding Fix Binance Binary64 Utils.Double Core Core.OrderBook TickConversion

/-! ## The conversion -/

/-- In the range of a `uint64_t` the conversion is the integer part. -/
theorem toNat_toUint64 {value t : Binary64} (hlo : 0 ≤ (value.mul t).val)
    (hhi : (value.mul t).val < 2 ^ 64) :
    ((toUint64 value t).toNat : ℤ) = ⌊(value.mul t).val⌋ := by
  have hfloor : 0 ≤ ⌊(value.mul t).val⌋ := Int.floor_nonneg.mpr hlo
  have hlt : ⌊(value.mul t).val⌋ < 2 ^ 64 := Int.floor_lt.mpr (by exact_mod_cast hhi)
  show ((UInt64.ofInt (value.mul t).truncate).toNat : ℤ) = _
  rw [UInt64.natCast_toNat_ofInt, truncate, if_pos hlo, Int.emod_eq_of_lt hfloor hlt]

/-- **The conversion keeps the order** of prices that are not negative, as long
as the greater one stays in range. -/
theorem toUint64_le {a b t : Binary64} (ha : 0 ≤ a.val) (hab : a.val ≤ b.val) (ht : 0 ≤ t.val)
    (hhi : (b.mul t).val < 2 ^ 64) : toUint64 a t ≤ toUint64 b t := by
  have hmul : (a.mul t).val ≤ (b.mul t).val := Binary64.mul_le_mul ht hab
  have hfloor : ⌊(a.mul t).val⌋ ≤ ⌊(b.mul t).val⌋ := Int.floor_le_floor hmul
  rw [← toNat_toUint64 (Binary64.mul_nonneg ha ht) (hmul.trans_lt hhi),
    ← toNat_toUint64 (Binary64.mul_nonneg (ha.trans hab) ht) hhi] at hfloor
  exact UInt64.le_iff_toNat_le.mpr (by exact_mod_cast hfloor)

/-! ## The book -/

/-- A real price of a side is better than another: a bid when it is higher, an
offer when it is lower. -/
def BetterPrice : BookSide → ℚ → ℚ → Prop
  | .bid => fun px px' => px' < px
  | .offer => fun px px' => px < px'

/-- A price that is not negative and whose ticks are in range. -/
def InRange (px : Binary64) : Prop :=
  0 ≤ px.val
    ∧ (px.mul (.ofUInt64 (Config.getPriceTicksPerUnit .btcusdt))).val < 2 ^ 64

/-- **Better ticks are a better price.** -/
theorem betterPrice_of_better {side : BookSide} {px px' : Binary64} (hpx : InRange px)
    (hpx' : InRange px')
    (h : side.Better (priceTicks toUint64At px) (priceTicks toUint64At px')) :
    BetterPrice side px.val px'.val := by
  have hticks : ∀ {p q : Binary64}, InRange p → InRange q →
      priceTicks toUint64At q < priceTicks toUint64At p → q.val < p.val := by
    intro p q hp hq hlt
    by_contra hle
    have hticks := toUint64_le hp.1 (not_lt.mp hle) (ofUInt64_nonneg _) hq.2
    exact absurd hlt (UInt64.not_lt.mpr hticks)
  cases side with
  | bid => exact hticks hpx hpx' h
  | offer => exact hticks hpx' hpx h

/-- **A price of a level**: that of an entry of the snapshot stored under the
key of the level. -/
def IsPriceAt (msg : MarketDataSnapshotFullRefresh Binary64) (side : BookSide) (key : UInt64)
    (px : Binary64) : Prop :=
  ∃ g ∈ counted msg.noMDEntries msg.groups, g.mdEntryPx = some (.ok px)
    ∧ (BookEntry.snapshot g).StoredUnder toUint64At side key

section Snapshot

variable {msg : MarketDataSnapshotFullRefresh Binary64} {b b' : OrderBook} {u : Unit}
  {side : BookSide}

/-- Every level of the book after a snapshot is there for an entry. -/
theorem exists_isPriceAt (hsym : isBtc msg.symbol = true)
    (h : (applySnapshot toUint64At msg).run b = .ok u b') {key sz : UInt64}
    (hlevel : b'.level side key = some sz) : ∃ px, IsPriceAt msg side key px := by
  obtain ⟨⟨-, hproc⟩, rfl⟩ := (applySnapshot_ok_iff toUint64At).mp h
  rw [level_runOps, snapshotMessageOps, if_pos hsym, KeyOp.run_cons] at hlevel
  rcases KeyOp.set_mem_of_run_eq_some hlevel with hset | hnone
  · obtain ⟨g, hg, hset⟩ := List.mem_flatMap.mp hset
    obtain ⟨-, ⟨px, hpx⟩, -⟩ := (hproc hsym).2 g hg
    exact ⟨px, g, hg, hpx, sz, hset⟩
  · cases hnone

/-- **The levels of a side in the order of their prices.** -/
theorem pairwise_betterPrice
    (hrange : ∀ g ∈ counted msg.noMDEntries msg.groups, ∀ px, g.mdEntryPx = some (.ok px) →
      InRange px) :
    (b'.levels side).Pairwise (fun e e' => side.Better e.1 e'.1
      ∧ ∀ px px', IsPriceAt msg side e.1 px → IsPriceAt msg side e'.1 px' →
        BetterPrice side px.val px'.val) := by
  refine (bestFirst_levels b' side).sorted.imp (fun {e e'} hbetter => ⟨hbetter, ?_⟩)
  rintro px px' ⟨g, hg, hpx, hstored⟩ ⟨g', hg', hpx', hstored'⟩
  rw [hstored.eq_priceTicks toUint64At hpx, hstored'.eq_priceTicks toUint64At hpx'] at hbetter
  exact betterPrice_of_better (hrange g hg px hpx) (hrange g' hg' px' hpx') hbetter

end Snapshot

/-- **Ticks never invert the order of prices.** -/
theorem ticks_in_order :
    (∀ (sym : SymbolEnum) (ticksPerUnit : UInt64),
      ticksPerUnit = Config.getPriceTicksPerUnit sym
        ∨ ticksPerUnit = Config.getSizeTicksPerUnit sym →
      ∀ a b : Binary64, 0 ≤ a.val → a.val ≤ b.val →
        (b.mul (.ofUInt64 ticksPerUnit)).val < 2 ^ 64 →
        toUint64At a ticksPerUnit ≤ toUint64At b ticksPerUnit)
    ∧ ∀ (msg : MarketDataSnapshotFullRefresh Binary64) (b b' : OrderBook),
      isBtc msg.symbol = true →
      (∀ g ∈ counted msg.noMDEntries msg.groups, ∀ px, g.mdEntryPx = some (.ok px) →
        InRange px) →
      (applySnapshot toUint64At msg).run b = .ok () b' →
      ∀ side,
        (∀ e ∈ b'.levels side, ∃ px, IsPriceAt msg side e.1 px)
        ∧ (b'.levels side).Pairwise (fun e e' => side.Better e.1 e'.1
          ∧ ∀ px px', IsPriceAt msg side e.1 px → IsPriceAt msg side e'.1 px' →
            BetterPrice side px.val px'.val) := by
  refine ⟨fun _ ticksPerUnit _ a b ha hab hhi =>
    toUint64_le ha hab (ofUInt64_nonneg ticksPerUnit) hhi, ?_⟩
  intro msg b b' hsym hrange h side
  refine ⟨fun e he => ?_, pairwise_betterPrice hrange⟩
  exact exists_isPriceAt hsym h (((bestFirst_levels b' side).mem_iff e.1 e.2).mp he)

/-- A bid at 1.5 and one at 2.5, in the order of the map. -/
theorem ticks_in_order_two_bids :
    toUint64At (nearest (150 / 100)) 100 ≤ toUint64At (nearest (250 / 100)) 100
    ∧ ∃ (msg : MarketDataSnapshotFullRefresh Binary64) (b' : OrderBook),
      (applySnapshot toUint64At msg).run empty = .ok () b'
      ∧ (b'.levels .bid).map Prod.fst = [250, 150]
      ∧ (∀ e ∈ b'.levels .bid, ∃ px, IsPriceAt msg .bid e.1 px)
      ∧ (b'.levels .bid).Pairwise (fun e e' => BookSide.Better .bid e.1 e'.1
        ∧ ∀ px px', IsPriceAt msg .bid e.1 px → IsPriceAt msg .bid e'.1 px' →
          BetterPrice .bid px.val px'.val) := by
  obtain ⟨hticks, hbook⟩ := ticks_in_order
  have hlow : InRange (nearest (150 / 100)) := ⟨by decide +kernel, by decide +kernel⟩
  have hhigh : InRange (nearest (250 / 100)) := ⟨by decide +kernel, by decide +kernel⟩
  refine ⟨hticks .btcusdt 100 (Or.inl rfl) _ _ hlow.1 (by decide +kernel) hhigh.2, ?_⟩
  obtain ⟨b', hrun, hlevels⟩ := levels_of_two_bids toUint64At (nearest (150 / 100))
    (nearest (250 / 100)) (nearest 1) (nearest 1)
  refine ⟨_, b', hrun, ?_, hbook _ _ b' rfl ?_ hrun .bid⟩
  · have hkey : priceTicks toUint64At (nearest (150 / 100)) = 150
        ∧ priceTicks toUint64At (nearest (250 / 100)) = 250 := by decide +kernel
    rw [hlevels, hkey.1, hkey.2]
    rfl
  · intro g hg px hpx
    rcases List.mem_pair.mp hg with rfl | rfl
    · obtain rfl := Except.ok.inj (Option.some.inj hpx)
      exact hlow
    · obtain rfl := Except.ok.inj (Option.some.inj hpx)
      exact hhigh

end TickOrder
