import Trader.BookVector
import Trader.TradeBox
import Trader.Pretty

set_option autoImplicit false

/-!
# The two tables

The rows that `OrderBookBox::to_table` and `TradeBox::to_table` lay out, cell
by cell: a tick count is divided by its scale, the quotient written as a text,
and the text padded or cut to the width of its column.

Neither looks for the sentinel that `to_vector` puts where a side has no
level, so a missing level is divided, written and padded like any other. A
table shows what is missing as missing only for a book that misses nothing
(`missingShown_iff`).
-/

namespace Ui

open Decimal Rounding Utils.Double Core Binance

/-! ## Cells -/

/-- `Helpers::Pad`. -/
def pad (input : Text) (width : ℕ) : Text :=
  if width ≤ input.length then input.take width
  else input ++ List.replicate (width - input.length) ' '

/-- `static_cast<double>(ticks) / ticks_per_unit`. -/
def ofTicks (ticks ticksPerUnit : UInt64) : Binary64 :=
  (Binary64.ofUInt64 ticks).div (.ofUInt64 ticksPerUnit)

/-- The cell of a price, `Pad(Double::pretty(px), width)`. -/
def priceCell (px : UInt64) (width : ℕ) : Option Text :=
  (pretty (ofTicks px (Config.getPriceTicksPerUnit .btcusdt))).map (pad · width)

/-- The cell of a size, `Pad(Double::trim(sz), width)`. -/
def sizeCell (sz : UInt64) (width : ℕ) : Option Text :=
  (trim (ofTicks sz (Config.getSizeTicksPerUnit .btcusdt))).map (pad · width)

namespace OrderBookBox

/-- The widths of `OrderBookBox::columns_`. -/
def columns : Vector ℕ 4 := #v[10, 13, 13, 10]

/-- The cells of a row, in the order of the columns. -/
structure Row where
  bidSz : Text
  bidPx : Text
  askPx : Text
  askSz : Text
  deriving DecidableEq

/-- The body of the loop in `OrderBookBox::to_table`. -/
def uiRow (row : BidAsk) : Option Row := do
  let bidSz ← sizeCell row.bidSz columns[0]
  let bidPx ← priceCell row.bidPx columns[1]
  let askPx ← priceCell row.askPx columns[2]
  let askSz ← sizeCell row.askSz columns[3]
  return { bidSz, bidPx, askPx, askSz }

/-- `OrderBookBox::to_table`. -/
def toTable (coreBook : OrderBook) : Option (List Row) := coreBook.toVector.mapM uiRow

end OrderBookBox

namespace TradeBox

/-- The widths of `TradeBox::columns_`. -/
def columns : Vector ℕ 5 := #v[17, 6, 13, 10, 13]

/-- The cells of a row, in the order of the columns. -/
structure Row where
  time : Text
  side : Text
  px : Text
  sz : Text
  id : Text
  deriving DecidableEq

/-- The body of the loop in `TradeBox::to_table`. -/
def uiRow (trade : Trade) : Option Row := do
  let time := pad (cString trade.time) columns[0]
  let side := pad (Side.toStr trade.side) columns[1]
  let px ← priceCell trade.px columns[2]
  let sz ← sizeCell trade.sz columns[3]
  let id := pad (Nat.toDigits 10 trade.id.toNat) columns[4]
  return { time, side, px, sz, id }

/-- `TradeBox::to_table`, of the copy it makes of the ring. -/
def toTable (bufferCopy : TradeRing) : Option (List Row) := bufferCopy.items.mapM uiRow

end TradeBox

/-! ## A cell is never blank -/

/-- A text of nothing but padding. -/
def Blank (t : Text) : Prop := ∀ c ∈ t, c = ' '

/-- A text that starts with a digit. -/
def StartsWithDigit (t : Text) : Prop := ∃ c ∈ t.head?, c.isDigit = true

theorem StartsWithDigit.not_blank {t : Text} (h : StartsWithDigit t) : ¬ Blank t := by
  obtain ⟨c, hc, hdigit⟩ := h
  intro hblank
  rw [hblank c (List.mem_of_mem_head? hc)] at hdigit
  cases hdigit

theorem StartsWithDigit.pad {t : Text} (h : StartsWithDigit t) {width : ℕ} (hw : 0 < width) :
    StartsWithDigit (pad t width) := by
  obtain ⟨c, hc, hdigit⟩ := h
  refine ⟨c, ?_, hdigit⟩
  unfold Ui.pad
  split_ifs with hlen
  · rwa [List.head?_take, if_neg hw.ne']
  · rw [List.head?_append, Option.mem_def.mp hc]
    rfl

/-- Where a number of no sign is written within the buffer, what is made of its
text starts with a digit. -/
theorem startsWithDigit_of_text {n : Numeral} (hneg : n.neg = false) {f : Text → Option Text}
    (hf : ∀ s, ∃ out, f s = some out ∧ (s.head? ≠ some '.' → out.head? = s.head?)) :
    ∃ out, f n.text = some out ∧ StartsWithDigit out := by
  obtain ⟨c, t, htext, hdigit⟩ := Numeral.exists_digit_cons hneg
  obtain ⟨out, hout, hhead⟩ := hf n.text
  have hdot : c ≠ '.' := by
    rintro rfl
    cases hdigit
  refine ⟨out, hout, c, ?_, hdigit⟩
  rw [hhead (by rw [htext]; simpa using hdot), htext]
  rfl

/-- **What is divided**, where both counts are held exactly. -/
theorem val_ofTicks {ticks ticksPerUnit : UInt64} (hticks : ticks.toNat < 2 ^ 53)
    (hscale : ticksPerUnit.toNat < 2 ^ 53) :
    (ofTicks ticks ticksPerUnit).val
      = (Binary64.nearest ((ticks.toNat : ℚ) / ticksPerUnit.toNat)).val := by
  have hnum : (Binary64.ofUInt64 ticks).val = ticks.toNat := Binary64.val_nearest_natCast hticks
  have hden : (Binary64.ofUInt64 ticksPerUnit).val = ticksPerUnit.toNat :=
    Binary64.val_nearest_natCast hscale
  rw [ofTicks, Binary64.div, hnum, hden]

section OfTicks

variable (ticks : UInt64) {ticksPerUnit : UInt64} (hpos : 0 < ticksPerUnit.toNat)
  (hle : ticksPerUnit.toNat ≤ 2 ^ 17)

include hpos hle in
/-- How large and how small the quotients are. -/
theorem ofTicks_bounds :
    0 ≤ (ofTicks ticks ticksPerUnit).val ∧ (ofTicks ticks ticksPerUnit).val ≤ 2 ^ (64 : ℤ)
      ∧ ((ofTicks ticks ticksPerUnit).val = 0
        ∨ 2 ^ (-17 : ℤ) ≤ (ofTicks ticks ticksPerUnit).val) := by
  have hscale : (Binary64.ofUInt64 ticksPerUnit).val = ticksPerUnit.toNat :=
    Binary64.val_nearest_natCast (lt_of_le_of_lt hle (by norm_num))
  have hone : (1 : ℚ) ≤ ticksPerUnit.toNat := by exact_mod_cast hpos
  have hle' : (ticksPerUnit.toNat : ℚ) ≤ 2 ^ 17 := by exact_mod_cast hle
  have hval : (ofTicks ticks ticksPerUnit).val
      = toSig 53 (toSig 53 (ticks.toNat : ℚ) / ticksPerUnit.toNat) := by
    rw [← hscale]
    rfl
  have hticks : (toSig 53 (ticks.toNat : ℚ)) ≤ 2 ^ (64 : ℤ) := by
    refine toSig_le (by decide) (representable_two_zpow (by decide) 64) ?_
    exact_mod_cast ticks.toNat_lt.le
  have hticks0 : 0 ≤ toSig 53 (ticks.toNat : ℚ) :=
    le_toSig (by decide) (representable_zero 53) (Nat.cast_nonneg _)
  rw [hval]
  refine ⟨?_, ?_, ?_⟩
  · exact le_toSig (by decide) (representable_zero 53) (by positivity)
  · refine toSig_le (by decide) (representable_two_zpow (by decide) 64) ?_
    exact (div_le_self hticks0 hone).trans hticks
  · rcases Nat.eq_zero_or_pos ticks.toNat with hzero | htpos
    · left
      rw [hzero, Nat.cast_zero, toSig_zero, zero_div, toSig_zero]
    · right
      have hticks1 : 2 ^ (0 : ℤ) ≤ toSig 53 (ticks.toNat : ℚ) := by
        refine le_toSig (by decide) (representable_two_zpow (by decide) 0) ?_
        exact_mod_cast htpos
      refine le_toSig (by decide) (representable_two_zpow (by decide) (-17)) ?_
      rw [le_div_iff₀ (by positivity)]
      calc (2 : ℚ) ^ (-17 : ℤ) * ticksPerUnit.toNat ≤ 2 ^ (-17 : ℤ) * 2 ^ 17 :=
            mul_le_mul_of_nonneg_left hle' (by positivity)
        _ = 2 ^ (0 : ℤ) := by norm_num
        _ ≤ toSig 53 (ticks.toNat : ℚ) := hticks1

include hpos hle in
/-- A price is always written within the buffer. -/
theorem pretty_ofTicks :
    pretty (ofTicks ticks ticksPerUnit)
      = prettyText (general 15 (ofTicks ticks ticksPerUnit).val).text := by
  obtain ⟨hnn, hhi, hlo⟩ := ofTicks_bounds ticks hpos hle
  refine pretty_of_fits ?_
  rcases hlo with hzero | hlo
  · rw [hzero]
    decide +kernel
  · refine (length_general_le (by decide) ?_ ?_).trans (by decide)
    · rw [abs_of_nonneg hnn]
      exact le_trans (by norm_num) hlo
    · rw [abs_of_nonneg hnn]
      exact lt_of_le_of_lt hhi (by norm_num)

include hpos hle in
/-- So is a size. -/
theorem trim_ofTicks :
    trim (ofTicks ticks ticksPerUnit)
      = trimTrailingZeros (Decimal.fixed 15 (ofTicks ticks ticksPerUnit).val).text := by
  obtain ⟨hnn, hhi, -⟩ := ofTicks_bounds ticks hpos hle
  refine trim_of_fits ((length_fixed_le (d := 20) (by decide) ?_).trans (by decide))
  rw [abs_of_nonneg hnn]
  exact lt_of_le_of_lt hhi (by norm_num)

end OfTicks

/-- The double a price is shown from. -/
abbrev priceOf (px : UInt64) : Binary64 := ofTicks px (Config.getPriceTicksPerUnit .btcusdt)

/-- The double a size is shown from. -/
abbrev sizeOf (sz : UInt64) : Binary64 := ofTicks sz (Config.getSizeTicksPerUnit .btcusdt)

/-- **What is in a price cell.** -/
theorem priceCell_eq (px : UInt64) (width : ℕ) :
    (general 15 (priceOf px).val).neg = false
      ∧ priceCell px width
        = (prettyText (general 15 (priceOf px).val).text).map (pad · width) := by
  have hpos : 0 < (Config.getPriceTicksPerUnit .btcusdt).toNat := by decide
  have hle : (Config.getPriceTicksPerUnit .btcusdt).toNat ≤ 2 ^ 17 := by decide
  obtain ⟨hnn, -, -⟩ := ofTicks_bounds px hpos hle
  refine ⟨(neg_general 15 _).trans (decide_eq_false hnn.not_gt), ?_⟩
  rw [priceCell, pretty_ofTicks px hpos hle]

/-- **What is in a size cell.** -/
theorem sizeCell_eq (sz : UInt64) (width : ℕ) :
    (Decimal.fixed 15 (sizeOf sz).val).neg = false
      ∧ sizeCell sz width
        = (trimTrailingZeros (Decimal.fixed 15 (sizeOf sz).val).text).map (pad · width) := by
  have hpos : 0 < (Config.getSizeTicksPerUnit .btcusdt).toNat := by decide
  have hle : (Config.getSizeTicksPerUnit .btcusdt).toNat ≤ 2 ^ 17 := by decide
  obtain ⟨hnn, -, -⟩ := ofTicks_bounds sz hpos hle
  refine ⟨decide_eq_false hnn.not_gt, ?_⟩
  rw [sizeCell, trim_ofTicks sz hpos hle]

/-- **A price cell starts with a digit**, whatever the tick count. -/
theorem exists_priceCell (px : UInt64) {w : ℕ} (hw : 0 < w) :
    ∃ t, priceCell px w = some t ∧ StartsWithDigit t := by
  obtain ⟨hneg, hcell⟩ := priceCell_eq px w
  obtain ⟨out, hout, hdigit⟩ := startsWithDigit_of_text hneg exists_prettyText
  exact ⟨pad out w, by rw [hcell, hout]; rfl, hdigit.pad hw⟩

/-- **So does a size cell.** -/
theorem exists_sizeCell (sz : UInt64) {w : ℕ} (hw : 0 < w) :
    ∃ t, sizeCell sz w = some t ∧ StartsWithDigit t := by
  obtain ⟨hneg, hcell⟩ := sizeCell_eq sz w
  obtain ⟨out, hout, hdigit⟩ := startsWithDigit_of_text hneg exists_trimTrailingZeros
  exact ⟨pad out w, by rw [hcell, hout]; rfl, hdigit.pad hw⟩

/-! ## Rows -/

/-- What a program that ends normally has come to. -/
theorem of_eq_some {α : Type} {o : Option α} {P : α → Prop} (h : ∃ a, o = some a ∧ P a) {a : α}
    (ha : o = some a) : P a := by
  obtain ⟨a', ha', hP⟩ := h
  rw [ha] at ha'
  exact Option.some.inj ha' ▸ hP

/-- A program that always ends normally does so on every element. -/
theorem exists_mapM {α β : Type} {f : α → Option β} (hf : ∀ a, ∃ b, f a = some b) (l : List α) :
    ∃ l' : List β, l.mapM f = some l' ∧ ∀ i : ℕ, l'[i]? = l[i]?.bind f := by
  induction l with
  | nil => exact ⟨[], rfl, fun i => rfl⟩
  | cons a l ih =>
    obtain ⟨b, hb⟩ := hf a
    obtain ⟨l', hl', hget⟩ := ih
    refine ⟨b :: l', ?_, fun i => ?_⟩
    · rw [List.mapM_cons, hb, hl']
      rfl
    · cases i with
      | zero => exact hb.symm
      | succ i => exact hget i

namespace OrderBookBox

open OrderBook

/-- The price cell of a side. -/
def Row.px (r : Row) : BookSide → Text
  | .bid => r.bidPx
  | .offer => r.askPx

/-- The size cell of a side. -/
def Row.sz (r : Row) : BookSide → Text
  | .bid => r.bidSz
  | .offer => r.askSz

/-- **The cells of a row** are those of the prices and sizes in it. -/
theorem exists_uiRow (row : BidAsk) :
    ∃ r, uiRow row = some r ∧ ∀ side, priceCell (row.px side) 13 = some (r.px side)
      ∧ sizeCell (row.sz side) 10 = some (r.sz side) := by
  obtain ⟨bidSz, hbidSz, -⟩ := exists_sizeCell row.bidSz (w := 10) (by decide)
  obtain ⟨bidPx, hbidPx, -⟩ := exists_priceCell row.bidPx (w := 13) (by decide)
  obtain ⟨askPx, haskPx, -⟩ := exists_priceCell row.askPx (w := 13) (by decide)
  obtain ⟨askSz, haskSz, -⟩ := exists_sizeCell row.askSz (w := 10) (by decide)
  refine ⟨⟨bidSz, bidPx, askPx, askSz⟩, ?_, fun side => ?_⟩
  · show (sizeCell row.bidSz 10).bind _ = _
    rw [hbidSz]
    show (priceCell row.bidPx 13).bind _ = _
    rw [hbidPx]
    show (priceCell row.askPx 13).bind _ = _
    rw [haskPx]
    show (sizeCell row.askSz 10).bind _ = _
    rw [haskSz]
    rfl
  · cases side with
    | bid => exact ⟨hbidPx, hbidSz⟩
    | offer => exact ⟨haskPx, haskSz⟩

theorem uiRow_cells {row : BidAsk} {r : Row} (h : uiRow row = some r) (side : BookSide) :
    priceCell (row.px side) 13 = some (r.px side)
      ∧ sizeCell (row.sz side) 10 = some (r.sz side) :=
  of_eq_some (exists_uiRow row) h side

/-- **The table of a book** has a row of cells for every row of its vector. -/
theorem exists_toTable (b : OrderBook) :
    ∃ rows, toTable b = some rows ∧ ∀ i : ℕ, rows[i]? = b.toVector[i]?.bind uiRow :=
  exists_mapM (fun row => (exists_uiRow row).imp (fun _ h => h.1)) b.toVector

end OrderBookBox

namespace TradeBox

/-- **The price and size cells of a row** are those of its trade. -/
theorem exists_uiRow (trade : Trade) :
    ∃ r, uiRow trade = some r ∧ priceCell trade.px 13 = some r.px
      ∧ sizeCell trade.sz 10 = some r.sz := by
  obtain ⟨px, hpx, -⟩ := exists_priceCell trade.px (w := 13) (by decide)
  obtain ⟨sz, hsz, -⟩ := exists_sizeCell trade.sz (w := 10) (by decide)
  refine ⟨{
    time := pad (cString trade.time) 17
    side := pad (Side.toStr trade.side) 6
    px := px
    sz := sz
    id := pad (Nat.toDigits 10 trade.id.toNat) 13 }, ?_, hpx, hsz⟩
  show (priceCell trade.px 13).bind _ = _
  rw [hpx]
  show (sizeCell trade.sz 10).bind _ = _
  rw [hsz]
  rfl

theorem uiRow_cells {trade : Trade} {r : Row} (h : uiRow trade = some r) :
    priceCell trade.px 13 = some r.px ∧ sizeCell trade.sz 10 = some r.sz :=
  of_eq_some (exists_uiRow trade) h

/-- **The table of a ring** has a row of cells for every trade in it. -/
theorem exists_toTable (ring : TradeRing) :
    ∃ rows, toTable ring = some rows ∧ ∀ i : ℕ, rows[i]? = ring.items[i]?.bind uiRow :=
  exists_mapM (fun trade => (exists_uiRow trade).imp (fun _ h => h.1)) ring.items

end TradeBox

namespace OrderBookBox

open OrderBook

/-! ## A side without a level -/

/-- **A row shows a level**: its price cell, its size cell, or both, as far as
they have digits in them, are those of a level of the side. -/
structure ShowsLevels (b : OrderBook) (side : BookSide) (r : Row) : Prop where
  px : (∃ c ∈ r.px side, c.isDigit = true) →
    ∃ px sz, b.level side px = some sz ∧ priceCell px 13 = some (r.px side)
  sz : (∃ c ∈ r.sz side, c.isDigit = true) →
    ∃ px sz, b.level side px = some sz ∧ sizeCell sz 10 = some (r.sz side)

/-- **What is missing is shown as missing**: every cell with a digit is that of
a level, and past the last level of a side its cells are blank. -/
def MissingShown (b : OrderBook) : Prop :=
  ∃ rows, toTable b = some rows ∧ ∀ (side : BookSide) (i : ℕ) (r : Row), rows[i]? = some r →
    ShowsLevels b side r ∧ (b.size side ≤ i → Blank (r.px side) ∧ Blank (r.sz side))

/-- A row that holds a level shows it. -/
theorem showsLevels_of_level {b : OrderBook} {side : BookSide} {i : ℕ} {row : BidAsk} {r : Row}
    (hi : i < b.size side) (hrow : b.toVector[i]? = some row) (hr : uiRow row = some r) :
    ShowsLevels b side r := by
  obtain ⟨px, sz, he⟩ := exists_level b hi
  have hlevel := ((bestFirst_levels b side).mem_iff px sz).mp (List.mem_of_getElem? he)
  obtain ⟨rfl, rfl⟩ := (toVector_laidOut b).level_row side i row px sz hrow he
  obtain ⟨hpx, hsz⟩ := uiRow_cells hr side
  exact ⟨fun _ => ⟨_, _, hlevel, hpx⟩, fun _ => ⟨_, _, hlevel, hsz⟩⟩

/-- A price cell of a row is not blank. -/
theorem not_blank_px {row : BidAsk} {r : Row} (hr : uiRow row = some r) (side : BookSide) :
    ¬ Blank (r.px side) := by
  have hdigit : StartsWithDigit (r.px side) :=
    of_eq_some (exists_priceCell (row.px side) (by decide)) (uiRow_cells hr side).1
  exact hdigit.not_blank

/-- A book that shows what is missing has no side with fewer levels than
another. -/
theorem MissingShown.size_le {b : OrderBook} (h : MissingShown b) (side side' : BookSide) :
    b.size side' ≤ b.size side := by
  obtain ⟨rows, hrows, hshown⟩ := h
  by_contra hlt
  rw [not_le] at hlt
  have hget := of_eq_some (exists_toTable b) hrows
  obtain ⟨row, hrow⟩ := (toVector_laidOut b).exists_row hlt
  obtain ⟨r, hr, -⟩ := exists_uiRow row
  have hr' : rows[b.size side]? = some r := by rw [hget, hrow, Option.bind_some, hr]
  exact not_blank_px hr side ((hshown side _ r hr').2 (Nat.le_refl _)).1

/-- **When a table shows what is missing**: when nothing is. -/
theorem missingShown_iff (b : OrderBook) : MissingShown b ↔ b.size .bid = b.size .offer := by
  refine ⟨fun h => Nat.le_antisymm (h.size_le .offer .bid) (h.size_le .bid .offer), fun h => ?_⟩
  obtain ⟨rows, hrows, hget⟩ := exists_toTable b
  refine ⟨rows, hrows, fun side i r hr => ?_⟩
  rw [hget, Option.bind_eq_some_iff] at hr
  obtain ⟨row, hrow, huiRow⟩ := hr
  have hlt : i < b.size side := by
    have hlen := (toVector_laidOut b).length
    rw [h, Nat.max_self] at hlen
    obtain ⟨hi, -⟩ := List.getElem?_eq_some_iff.mp hrow
    cases side with
    | bid => omega
    | offer => omega
  exact ⟨showsLevels_of_level hlt hrow huiRow, fun hle => absurd hlt (not_lt.mpr hle)⟩

/-- The vector of a book of one offer. -/
theorem toVector_one_offer (px sz : UInt64) :
    toVector ⟨∅, ({} : BtreeMap less).insert px sz⟩
      = [⟨BidAsk.sentinel, BidAsk.sentinel, px, sz⟩] := by
  show toVectorLoop [] [(px, sz)] = _
  simp [toVectorLoop, row]

/-- A book of one offer shows a bid that nobody made. -/
theorem missing_bid_shown :
    toTable ⟨∅, ({} : BtreeMap less).insert 100 100000⟩
      = some [⟨"1844674407".toList, "1.84467440737".toList, "1            ".toList,
          "1         ".toList⟩]
    ∧ ¬ MissingShown ⟨∅, ({} : BtreeMap less).insert 100 100000⟩ := by
  refine ⟨?_, fun h => absurd (h.size_le .bid .offer) (by decide)⟩
  rw [toTable, toVector_one_offer]
  decide +kernel

end OrderBookBox

end Ui
