import Trader.TickConversion
import Trader.Tables

set_option autoImplicit false

/-!
# The text of a size

A size of `m` ticks is shown as the double nearest to `m / 100000`, rounded to
fifteen decimals, without the zeros at its end and cut to the ten characters of
its column. Fifteen decimals are more than the double has, so the error of the
quotient is among them. Where it is upwards the cut takes it off again. Where
it is downwards and more than half of the fifteenth decimal, what is left of
the text is below the size, nines at its end.

`FallsShort` says for which `m` that is, in terms of the remainder the division
leaves (`size_shown_iff`). Of the texts that fit a cell whole, those are the
ones shown as another number.
-/

namespace Ui

open Decimal Rounding TickConversion Utils.Double Core Binance Binary64

/-! ## The quotient -/

/-- The power of two that scales `n / t` to 53 bits. -/
def fullShift (n t : ℕ) : ℕ :=
  if t * 2 ^ 52 ≤ n * 2 ^ shift n t then shift n t else shift n t + 1

theorem fullShift_bounds {n t : ℕ} (h : IsScale t) (hn0 : n ≠ 0) (hn : n < 2 ^ 50) :
    t * 2 ^ 52 ≤ n * 2 ^ fullShift n t ∧ n * 2 ^ fullShift n t < t * 2 ^ 53 := by
  obtain ⟨hhi, hlo⟩ := quotient_bounds h hn0 hn
  unfold fullShift
  split_ifs with hbits
  · exact ⟨hbits, hhi⟩
  · refine ⟨hlo, ?_⟩
    rw [pow_succ 2 (shift n t), ← Nat.mul_assoc, pow_succ 2 52, ← Nat.mul_assoc]
    exact Nat.mul_lt_mul_of_pos_right (not_le.mp hbits) two_pos

/-- The scale of the sizes. -/
theorem isScale_size : IsScale 100000 := (isScale_config .btcusdt).2

theorem lt_two_pow_fullShift (n : ℕ) : 100000 < 2 ^ (fullShift n 100000 + 1) := by
  have hle : 16 ≤ fullShift n 100000 := by
    have hlog : Nat.log2 100000 = 16 := by decide +kernel
    unfold fullShift shift
    rw [hlog]
    split_ifs <;> omega
  calc 100000 < 2 ^ (16 + 1) := by decide
    _ ≤ 2 ^ (fullShift n 100000 + 1) := Nat.pow_le_pow_right two_pos (Nat.succ_le_succ hle)

/-- **The sizes that fall short.** The quotient is rounded down, by a remainder
that makes more than half a unit of the fifteenth decimal. -/
def FallsShort (m : ℕ) : Prop :=
  2 * (m * 2 ^ fullShift m 100000 % 100000) < 100000
    ∧ 2 ^ fullShift m 100000 < 2 * (m * 2 ^ fullShift m 100000 % 100000) * 10 ^ 10

instance : DecidablePred FallsShort := fun _ => inferInstanceAs (Decidable (_ ∧ _))

/-- What is divided. -/
theorem val_sizeOf {sz : UInt64} (hsz : sz.toNat < 2 ^ 53) :
    (sizeOf sz).val = (nearest ((sz.toNat : ℚ) / (100000 : ℕ))).val :=
  val_ofTicks hsz (by decide)

section Scaled

variable {m : ℕ}

/-- The double nearest to the size, in units of the fifteenth decimal, off by
the error of the quotient. -/
theorem val_mul_eq (hm0 : m ≠ 0) (hm : m < 2 ^ 50) :
    (nearest ((m : ℚ) / (100000 : ℕ))).val * 10 ^ 15
      = ((m * 10 ^ 10 : ℕ) : ℤ)
        + (quotientError m 100000 (fullShift m 100000) : ℚ) * 10 ^ 10 / 2 ^ fullShift m 100000 := by
  obtain ⟨hlo, hhi⟩ := fullShift_bounds isScale_size hm0 hm
  have hmul := val_nearest_mul (by decide) (lt_two_pow_fullShift m) hlo hhi
  calc (nearest ((m : ℚ) / (100000 : ℕ))).val * 10 ^ 15
      = (nearest ((m : ℚ) / (100000 : ℕ))).val * (100000 : ℕ) * 10 ^ 10 := by
        push_cast
        ring
    _ = _ := by
        rw [hmul]
        push_cast
        ring

/-- The digits `to_chars` writes. -/
theorem natCast_scaled_size (hm0 : m ≠ 0) (hm : m < 2 ^ 50) :
    (scaled 15 (nearest ((m : ℚ) / (100000 : ℕ))).val : ℤ)
      = halfEven (((m * 10 ^ 10 : ℕ) : ℤ)
        + (quotientError m 100000 (fullShift m 100000) : ℚ) * 10 ^ 10
          / 2 ^ fullShift m 100000) := by
  have hnn : 0 ≤ (nearest ((m : ℚ) / (100000 : ℕ))).val :=
    le_toSig (by decide) (representable_zero 53) (by positivity)
  rw [natCast_scaled, abs_of_nonneg hnn, ← val_mul_eq hm0 hm]
  rfl

theorem scaled_size_zero : scaled 15 (nearest (((0 : ℕ) : ℚ) / (100000 : ℕ))).val = 0 := by
  decide +kernel

/-- **Which sizes are written too small.** -/
theorem scaled_size_lt_iff (hm : m < 2 ^ 50) :
    scaled 15 (nearest ((m : ℚ) / (100000 : ℕ))).val < m * 10 ^ 10 ↔ FallsShort m := by
  rcases eq_or_ne m 0 with rfl | hm0
  · rw [scaled_size_zero]
    decide +kernel
  have heven : Even ((m * 10 ^ 10 : ℕ) : ℤ) := by
    rw [Int.even_coe_nat]
    exact Even.mul_left (by decide) m
  have hpos : (0 : ℚ) < 2 ^ fullShift m 100000 := by positivity
  rw [← Nat.cast_lt (α := ℤ), natCast_scaled_size hm0 hm, halfEven_lt_iff_of_even heven,
    div_lt_iff₀ hpos]
  have hint : (quotientError m 100000 (fullShift m 100000) : ℚ) * 10 ^ 10
        < -(1 / 2) * 2 ^ fullShift m 100000
      ↔ 2 * quotientError m 100000 (fullShift m 100000) * 10 ^ 10
        < -(2 ^ fullShift m 100000 : ℕ) := by
    rw [← Int.cast_lt (R := ℚ)]
    push_cast
    constructor <;> intro h <;> linarith
  rw [hint]
  have hmod := Nat.mod_lt (m * 2 ^ fullShift m 100000) (show 0 < 100000 by decide)
  have hscale := Nat.two_pow_pos (fullShift m 100000)
  unfold FallsShort quotientError
  split_ifs <;> omega

/-- A size that is a whole number of units is written exactly. -/
theorem scaled_size_of_dvd (hm : m < 2 ^ 50) (hdvd : 100000 ∣ m) :
    scaled 15 (nearest ((m : ℚ) / (100000 : ℕ))).val = m * 10 ^ 10 := by
  rcases eq_or_ne m 0 with rfl | hm0
  · rw [scaled_size_zero, Nat.zero_mul]
  have hmod : m * 2 ^ fullShift m 100000 % 100000 = 0 :=
    Nat.mod_eq_zero_of_dvd (hdvd.mul_right _)
  have herr : quotientError m 100000 (fullShift m 100000) = 0 := by
    rw [quotientError, hmod]
    rfl
  have h := natCast_scaled_size hm0 hm
  rw [herr, Int.cast_zero, zero_mul, zero_div, add_zero, halfEven_intCast] at h
  exact_mod_cast h

/-- **How far off** the digits are, for a size below `10 ^ d`. -/
theorem abs_scaled_size_sub_lt {d : ℕ} (hm : m < 2 ^ 50) (hd : m < 100000 * 10 ^ d) :
    |(scaled 15 (nearest ((m : ℚ) / (100000 : ℕ))).val : ℤ) - (m * 10 ^ 10 : ℕ)|
      < 10 ^ (6 + d) := by
  rcases eq_or_ne m 0 with rfl | hm0
  · rw [scaled_size_zero]
    simp
  obtain ⟨hlo, -⟩ := fullShift_bounds isScale_size hm0 hm
  have herr := abs_quotientError_lt (n := m) (by decide) (lt_two_pow_fullShift m)
  rw [natCast_scaled_size hm0 hm]
  generalize quotientError m 100000 (fullShift m 100000) = q at herr ⊢
  generalize fullShift m 100000 = s at hlo ⊢
  -- the scale is large enough for the error to be small
  have hscale : (2 : ℚ) ^ 52 < 10 ^ d * 2 ^ s := by
    have hlt : 100000 * 2 ^ 52 < 100000 * (10 ^ d * 2 ^ s) := by
      rw [← Nat.mul_assoc]
      exact hlo.trans_lt (Nat.mul_lt_mul_of_pos_right hd (by positivity))
    exact_mod_cast Nat.lt_of_mul_lt_mul_left hlt
  have hpos : (0 : ℚ) < 2 ^ s := by positivity
  have herr' : 2 * |(q : ℚ)| < 100000 := by exact_mod_cast herr
  have hsmall : |(q : ℚ) * 10 ^ 10 / 2 ^ s| < 10 ^ d := by
    rw [abs_div, abs_of_pos hpos, div_lt_iff₀ hpos, abs_mul,
      abs_of_pos (show (0 : ℚ) < 10 ^ 10 by positivity)]
    linarith
  have hnear := abs_halfEven_sub_le (((m * 10 ^ 10 : ℕ) : ℤ) + (q : ℚ) * 10 ^ 10 / 2 ^ s)
  have hone : (1 : ℚ) ≤ 10 ^ d := one_le_pow₀ (by norm_num)
  have hsum := abs_sub_le
    ((halfEven (((m * 10 ^ 10 : ℕ) : ℤ) + (q : ℚ) * 10 ^ 10 / 2 ^ s) : ℤ) : ℚ)
    (((m * 10 ^ 10 : ℕ) : ℤ) + (q : ℚ) * 10 ^ 10 / 2 ^ s) ((m * 10 ^ 10 : ℕ) : ℤ)
  rw [add_sub_cancel_left] at hsum
  rw [← Int.cast_lt (R := ℚ), Int.cast_abs, Int.cast_sub, pow_add]
  push_cast at hsum hnear ⊢
  linarith

end Scaled

/-! ## The cut -/

/-- A number close to a multiple has the same leading digits from the multiple
on, -/
theorem div_eq_div_iff_le {N M b : ℕ} (hb : 0 < b) (hdvd : b ∣ M) (h : |(N : ℤ) - M| < b) :
    N / b = M / b ↔ M ≤ N := by
  obtain ⟨hlo, hhi⟩ := abs_lt.mp h
  obtain ⟨q, rfl⟩ := hdvd
  rw [Nat.mul_div_cancel_left q hb, Nat.div_eq_iff hb, Nat.mul_comm b q] at *
  constructor
  · intro hN
    exact hN.1
  · intro hN
    exact ⟨hN, by omega⟩

/-- and the same integer part on either side, unless the multiple is an
integer. -/
theorem div_eq_div_of_near {N M b c : ℕ} (hc : 0 < c) (hbc : b ∣ c) (hdvd : b ∣ M)
    (hM : ¬ c ∣ M) (h : |(N : ℤ) - M| < b) : N / c = M / c := by
  have hpos : 0 < M % c := Nat.pos_of_ne_zero (mt Nat.dvd_of_mod_eq_zero hM)
  have hlt := Nat.mod_lt M hc
  have hmod : b ∣ M % c := (Nat.dvd_mod_iff hbc).mpr hdvd
  have hlow : b ≤ M % c := Nat.le_of_dvd hpos hmod
  have hhigh : b ≤ c - M % c := Nat.le_of_dvd (Nat.sub_pos_of_lt hlt) (Nat.dvd_sub hbc hmod)
  have hdiv := Nat.div_add_mod M c
  obtain ⟨hlo, hhi⟩ := abs_lt.mp h
  rw [Nat.mul_comm] at hdiv
  refine Nat.div_eq_of_lt_le ?_ ?_
  · omega
  · rw [Nat.add_mul, Nat.one_mul]
    omega

section Cut

variable {m N : ℕ} (hm : (trimmedText 5 m).length ≤ 10)

include hm in
/-- **What a cell shows** of digits that are close to those of the size. -/
theorem value_take_trimmedText_iff (hdvd : 100000 ∣ m → N = m * 10 ^ 10)
    (hnear : |(N : ℤ) - (m * 10 ^ 10 : ℕ)| < 10 ^ (6 + (Nat.toDigits 10 (m / 10 ^ 5)).length)) :
    value ((trimmedText 15 N).take 10) = some ((m : ℚ) / 10 ^ 5) ↔ m * 10 ^ 10 ≤ N := by
  by_cases heq : N = m * 10 ^ 10
  · rw [heq, trimmedText_mul_pow 5 10 m, List.take_of_length_le hm, value_trimmedText]
    exact iff_of_true rfl (Nat.le_refl _)
  have hnd : ¬ 10 ^ 5 ∣ m := mt hdvd heq
  have hdec : ¬ (dropZeros (lowDigits (0 + 5) m)).length ≤ 0 :=
    mt (length_dropZeros_lowDigits_le_iff 0 5 m).mp hnd
  have hdpos : 0 < (Nat.toDigits 10 (m / 10 ^ 5)).length := Nat.length_toDigits_pos
  have hlen : (Nat.toDigits 10 (m / 10 ^ 5)).length
      + ((dropZeros (lowDigits 5 m)).length + 1) ≤ 10 := by
    rw [trimmedText, dotted_of_ne_nil (List.length_pos_iff.mp (not_le.mp hdec)),
      List.length_append, List.length_cons] at hm
    exact hm
  rw [Nat.zero_add] at hdec
  generalize hd : (Nat.toDigits 10 (m / 10 ^ 5)).length = d at hnear hdpos hlen
  -- the cell has room for `k` decimals
  obtain ⟨k, j, hkj, hj, hk⟩ : ∃ k j, k + j = 15 ∧ j = 6 + d ∧ d + (k + 1) = 10 :=
    ⟨9 - d, 6 + d, by omega, rfl, by omega⟩
  rw [← hj] at hnear
  have hM : 10 ^ j ∣ m * 10 ^ 10 := by
    rw [← length_dropZeros_lowDigits_le_iff k j, hkj, lowDigits_mul_pow 5 10 m,
      dropZeros_append_replicate]
    omega
  have hnear' : |(N : ℤ) - (m * 10 ^ 10 : ℕ)| < (10 ^ j : ℕ) := by exact_mod_cast hnear
  have hN : ¬ 10 ^ j ∣ N := by
    intro h
    have hsub : ((10 ^ j : ℕ) : ℤ) ∣ (N : ℤ) - (m * 10 ^ 10 : ℕ) :=
      Int.dvd_sub (Int.natCast_dvd_natCast.mpr h) (Int.natCast_dvd_natCast.mpr hM)
    have hzero := Int.eq_zero_of_abs_lt_dvd hsub hnear'
    exact heq (by exact_mod_cast sub_eq_zero.mp hzero)
  have hint : N / 10 ^ 15 = m / 10 ^ 5 := by
    have hnd' : ¬ 10 ^ 15 ∣ m * 10 ^ 10 := by
      rw [show 10 ^ 15 = 10 ^ 5 * 10 ^ 10 by norm_num]
      exact mt (Nat.dvd_of_mul_dvd_mul_right (by norm_num)) hnd
    rw [div_eq_div_of_near (by norm_num) (pow_dvd_pow 10 (by omega)) hM hnd' hnear',
      show 10 ^ 15 = 10 ^ 5 * 10 ^ 10 by norm_num, Nat.mul_div_mul_right _ _ (by norm_num)]
  have hcut := take_trimmedText (k := k) (by omega) hN
  rw [hkj, hint, hd, hk] at hcut
  -- the size itself in as many decimals
  have hsize : (m : ℚ) / 10 ^ 5 = ((m * 10 ^ 10 / 10 ^ j : ℕ) : ℚ) / 10 ^ k := by
    have hmul : ((m * 10 ^ 10 / 10 ^ j : ℕ) : ℚ) * 10 ^ j = m * 10 ^ 10 := by
      exact_mod_cast Nat.div_mul_cancel hM
    rw [div_eq_div_iff (by positivity) (by positivity)]
    refine mul_right_cancel₀ (show (10 : ℚ) ^ j ≠ 0 by positivity) ?_
    rw [mul_assoc, ← pow_add, hkj, mul_right_comm, hmul]
    ring
  rw [hcut, value_fixedText, hsize, Option.some.injEq, div_left_inj' (by positivity), Nat.cast_inj]
  exact div_eq_div_iff_le (by positivity) hM hnear'

end Cut

/-! ## The cell -/

/-- A cell without its padding. -/
def unpad (t : Text) : Text := t.rdropWhile (· = ' ')

/-- A text without blanks comes back from its cell, cut to the width. -/
theorem unpad_pad {t : Text} (ht : ' ' ∉ t) (width : ℕ) : unpad (pad t width) = t.take width := by
  have hself : ∀ s : Text, ' ' ∉ s → unpad s = s := by
    intro s hs
    refine List.rdropWhile_eq_self_iff.mpr (fun hne hlast => hs ?_)
    rw [← of_decide_eq_true hlast]
    exact List.getLast_mem hne
  unfold pad
  split_ifs with hlen
  · exact hself _ (fun h => ht (List.mem_of_mem_take h))
  · rw [List.take_of_length_le (not_le.mp hlen).le]
    exact (rdropWhile_append_replicate rfl t _).trans (hself t ht)

/-- No text of a number has a blank. -/
theorem blank_notMem_trimmedText (k n : ℕ) : ' ' ∉ trimmedText k n := by
  intro h
  rcases mem_trimmedText h with h | h
  · cases h
  · exact absurd h (by decide)

/-- The digits in a size cell. -/
theorem sizeCell_eq_pad (sz : UInt64) (width : ℕ) :
    sizeCell sz width = some (pad (trimmedText 15 (scaled 15 (sizeOf sz).val)) width) := by
  obtain ⟨hneg, hcell⟩ := sizeCell_eq sz width
  have hfixed : Decimal.fixed 15 (sizeOf sz).val
      = .ofFixed false 15 (scaled 15 (sizeOf sz).val) := by
    rw [Decimal.fixed, show decide ((sizeOf sz).val < 0) = false from hneg]
    rfl
  rw [hcell, hfixed, trimTrailingZeros_text_of_exp_none _ rfl, Numeral.text_trimmed_ofFixed]
  rfl

/-- A cell shows a number. -/
def Denotes (cell : Text) (q : ℚ) : Prop := value (unpad cell) = some q

instance (cell : Text) (q : ℚ) : Decidable (Denotes cell q) :=
  inferInstanceAs (Decidable (_ = _))

/-- **Which sizes are shown as themselves.** -/
theorem denotes_sizeCell_iff {sz : UInt64} (h : (trimmedText 5 sz.toNat).length ≤ 10) {t : Text}
    (ht : sizeCell sz 10 = some t) : Denotes t (sz.toNat / 10 ^ 5) ↔ ¬ FallsShort sz.toNat := by
  have hint : (Nat.toDigits 10 (sz.toNat / 10 ^ 5)).length ≤ 10 := by
    rw [trimmedText, List.length_append] at h
    exact (Nat.le_add_right _ _).trans h
  have hlt : sz.toNat < 2 ^ 50 := by
    have hdiv := (Nat.length_toDigits_le_iff (by decide) (by decide)).mp hint
    omega
  have hd : sz.toNat < 100000 * 10 ^ (Nat.toDigits 10 (sz.toNat / 10 ^ 5)).length := by
    have hdiv := (Nat.length_toDigits_le_iff (b := 10) (n := sz.toNat / 10 ^ 5) (by decide)
      Nat.length_toDigits_pos).mp (Nat.le_refl _)
    rw [Nat.mul_comm]
    exact Nat.lt_mul_of_div_lt hdiv (by decide)
  rw [sizeCell_eq_pad, val_sizeOf (hlt.trans (by decide))] at ht
  obtain rfl := Option.some.inj ht
  rw [Denotes, unpad_pad (blank_notMem_trimmedText _ _),
    value_take_trimmedText_iff h (scaled_size_of_dvd hlt) (abs_scaled_size_sub_lt hlt hd),
    ← scaled_size_lt_iff hlt, not_lt]

/-- **When a size cell of either table denotes the size**, for a size whose text
fits the cell. -/
theorem size_shown_iff (sz : UInt64) (h : (trimmedText 5 sz.toNat).length ≤ 10) :
    (∀ (b : OrderBook) (rows : List OrderBookBox.Row) (i : ℕ) (row : BidAsk)
        (r : OrderBookBox.Row) (side : OrderBook.BookSide),
      OrderBookBox.toTable b = some rows → b.toVector[i]? = some row → rows[i]? = some r →
      row.sz side = sz →
      (Denotes (r.sz side) (sz.toNat / 10 ^ 5) ↔ ¬ FallsShort sz.toNat))
    ∧ ∀ (ring : TradeBox.TradeRing) (rows : List TradeBox.Row) (i : ℕ) (trade : Trade)
        (r : TradeBox.Row),
      TradeBox.toTable ring = some rows → ring.items[i]? = some trade → rows[i]? = some r →
      trade.sz = sz →
      (Denotes r.sz (sz.toNat / 10 ^ 5) ↔ ¬ FallsShort sz.toNat) := by
  constructor
  · rintro b rows i row r side hrows hrow hr rfl
    rw [of_eq_some (OrderBookBox.exists_toTable b) hrows, hrow, Option.bind_some] at hr
    exact denotes_sizeCell_iff h (OrderBookBox.uiRow_cells hr side).2
  · rintro ring rows i trade r hrows htrade hr rfl
    rw [of_eq_some (TradeBox.exists_toTable ring) hrows, htrade, Option.bind_some] at hr
    exact denotes_sizeCell_iff h (TradeBox.uiRow_cells hr).2

/-- The table of a book of one offer. -/
theorem toTable_one_offer (px sz : UInt64) :
    ∃ r, OrderBookBox.toTable ⟨∅, ({} : BtreeMap less).insert px sz⟩ = some [r]
      ∧ sizeCell sz 10 = some (r.sz .offer) := by
  obtain ⟨r, hr, hcells⟩ := OrderBookBox.exists_uiRow ⟨BidAsk.sentinel, BidAsk.sentinel, px, sz⟩
  refine ⟨r, ?_, (hcells .offer).2⟩
  rw [OrderBookBox.toTable, OrderBookBox.toVector_one_offer, List.mapM_cons, hr]
  rfl

/-- The table of a ring of one trade. -/
theorem toTable_one_trade (trade : Trade) :
    ∃ r, TradeBox.toTable ⟨[trade], List.length_singleton.trans_le (by decide)⟩ = some [r]
      ∧ sizeCell trade.sz 10 = some r.sz := by
  obtain ⟨r, hr, -, hsz⟩ := TradeBox.exists_uiRow trade
  refine ⟨r, ?_, hsz⟩
  rw [TradeBox.toTable, List.mapM_cons, hr]
  rfl

/-- A size of 8.0003 fits, and falls short in the table of a book and in that
of a ring. -/
theorem size_shown_iff_800030 :
    (∃ (b : OrderBook) (rows : List OrderBookBox.Row) (row : BidAsk) (r : OrderBookBox.Row),
      OrderBookBox.toTable b = some rows ∧ b.toVector[0]? = some row ∧ rows[0]? = some r
      ∧ row.sz .offer = 800030
      ∧ (Denotes (r.sz .offer) ((800030 : UInt64).toNat / 10 ^ 5)
        ↔ ¬ FallsShort (800030 : UInt64).toNat))
    ∧ ∃ (ring : TradeBox.TradeRing) (rows : List TradeBox.Row) (trade : Trade) (r : TradeBox.Row),
      TradeBox.toTable ring = some rows ∧ ring.items[0]? = some trade ∧ rows[0]? = some r
      ∧ trade.sz = 800030
      ∧ (Denotes r.sz ((800030 : UInt64).toNat / 10 ^ 5)
        ↔ ¬ FallsShort (800030 : UInt64).toNat) := by
  obtain ⟨hbook, hring⟩ := size_shown_iff 800030 (by decide +kernel)
  constructor
  · obtain ⟨r, htable, -⟩ := toTable_one_offer 100 800030
    have hrow : OrderBook.toVector ⟨∅, ({} : BtreeMap less).insert 100 800030⟩
        = [⟨BidAsk.sentinel, BidAsk.sentinel, 100, 800030⟩] :=
      OrderBookBox.toVector_one_offer 100 800030
    have hrow' := congrArg (·[0]?) hrow
    exact ⟨_, _, _, r, htable, hrow', rfl, rfl, hbook _ _ 0 _ r .offer htable hrow' rfl rfl⟩
  · obtain ⟨r, htable, -⟩ := toTable_one_trade ⟨100, 800030, 1, .buy, emptyChars⟩
    exact ⟨_, _, _, r, htable, rfl, rfl, rfl, hring _ _ 0 _ r htable rfl rfl rfl⟩

/-- It is shown as 8.00029999, in both tables. -/
theorem size_800030_falls_short :
    (trimmedText 5 800030).length ≤ 10
    ∧ (∃ b r, OrderBookBox.toTable b = some [r] ∧ b.level .offer 100 = some 800030
      ∧ r.sz .offer = "8.00029999".toList ∧ ¬ Denotes (r.sz .offer) (800030 / 10 ^ 5))
    ∧ ∃ ring trade r, TradeBox.toTable ring = some [r] ∧ ring.items = [trade]
      ∧ trade.sz = 800030 ∧ r.sz = "8.00029999".toList ∧ ¬ Denotes r.sz (800030 / 10 ^ 5) := by
  have hcell : sizeCell 800030 10 = some "8.00029999".toList := by decide +kernel
  have hshort : ¬ Denotes "8.00029999".toList (800030 / 10 ^ 5) := by decide +kernel
  refine ⟨by decide +kernel, ?_, ?_⟩
  · obtain ⟨r, htable, hsz⟩ := toTable_one_offer 100 800030
    have hsz' : r.sz .offer = "8.00029999".toList := Option.some.inj (hsz.symm.trans hcell)
    exact ⟨_, r, htable, by decide, hsz', hsz' ▸ hshort⟩
  · obtain ⟨r, htable, hsz⟩ := toTable_one_trade ⟨100, 800030, 1, .buy, emptyChars⟩
    have hsz' : r.sz = "8.00029999".toList := Option.some.inj (hsz.symm.trans hcell)
    exact ⟨_, _, r, htable, rfl, rfl, hsz', hsz' ▸ hshort⟩

end Ui
