import Trader.SizeCell

set_option autoImplicit false

/-!
# The text of a price

A price of `n` ticks is shown as the double nearest to `n / 100`, rounded to
fifteen significant digits, in groups of three digits. A price has far fewer
digits than that, so the error of the quotient is less than half a unit of the
last of them, and the digits are those of `n / 100` again.

Where these and the commas fit into the column nothing is cut off, and the cell
holds the price itself (`price_shown`). What a size of as many characters loses
to the cut (`size_shown_iff`), no price does.
-/

namespace Ui

open Decimal Rounding TickConversion Utils.Double Core Binance Binary64

/-! ## Groups of three digits -/

/-- Digits from the last on, with a comma after every third that another one
follows. -/
def groupFromEnd : Text → Text
  | a :: b :: c :: d :: ds => a :: b :: c :: ',' :: groupFromEnd (d :: ds)
  | ds => ds

/-- Digits with thousands separators. -/
def grouped (ds : Text) : Text := (groupFromEnd ds.reverse).reverse

theorem groupFromEnd_of_length_le {ds : Text} (h : ds.length ≤ 3) : groupFromEnd ds = ds := by
  match ds, h with
  | [], _ | [_], _ | [_, _], _ | [_, _, _], _ => rfl

theorem grouped_of_length_le {ds : Text} (h : ds.length ≤ 3) : grouped ds = ds := by
  rw [grouped, groupFromEnd_of_length_le (by rwa [List.length_reverse]), List.reverse_reverse]

/-- Three more digits are one more group. -/
theorem grouped_append {ds g : Text} (hds : ds ≠ []) (hg : g.length = 3) :
    grouped (ds ++ g) = grouped ds ++ ',' :: g := by
  obtain ⟨a, b, c, rfl⟩ := List.length_eq_three.mp hg
  obtain ⟨d, ds', hrev⟩ := List.exists_cons_of_ne_nil (mt List.reverse_eq_nil_iff.mp hds)
  rw [grouped, grouped, List.reverse_append, hrev]
  simp [groupFromEnd]

/-- Groups that are put together are the groups again. -/
theorem grouped_flatten {first : Text} {groups : List Text}
    (hfirst : 1 ≤ first.length ∧ first.length ≤ 3) (hgroups : ∀ g ∈ groups, g.length = 3) :
    grouped (first ++ groups.flatten) = [','].intercalate (first :: groups) := by
  induction groups using List.reverseRecOn with
  | nil =>
    rw [List.flatten_nil, List.append_nil, grouped_of_length_le hfirst.2,
      List.intercalate_singleton]
  | append_singleton groups g ih =>
    have hne : first ++ groups.flatten ≠ [] :=
      List.append_ne_nil_of_left_ne_nil (List.length_pos_iff.mp hfirst.1) _
    rw [List.flatten_append, List.flatten_singleton, ← List.append_assoc,
      grouped_append hne (hgroups g (by simp)),
      ih (fun g' hg' => hgroups g' (List.mem_append_left _ hg')), intercalate_concat]

/-- How many characters the digits and the commas are. -/
theorem length_grouped (ds : Text) : (grouped ds).length = ds.length + (ds.length - 1) / 3 := by
  have h : ∀ ds : Text, (groupFromEnd ds).length = ds.length + (ds.length - 1) / 3 := by
    intro ds
    fun_induction groupFromEnd ds with
    | case1 a b c d ds ih =>
      simp only [List.length_cons] at ih ⊢
      omega
    | case2 ds hshort =>
      rcases ds with _ | ⟨a, _ | ⟨b, _ | ⟨c, _ | ⟨d, ds⟩⟩⟩⟩
      case cons.cons.cons.cons => exact (hshort a b c d ds rfl).elim
      all_goals simp
  rw [grouped, List.length_reverse, h ds.reverse, List.length_reverse]

/-- **What the commas are inserted for.** -/
theorem insertCommas_eq_grouped (pre : Text) {ds : Text} (post : Text) (hds : ds ≠ []) :
    insertCommas pre.length (pre.length + ds.length) (pre ++ ds ++ post)
      = some (pre ++ grouped ds ++ post) := by
  obtain ⟨first, groups, hflat, hfirst, hgroups, hloop⟩ := insertCommas_groups pre ds post hds
  rw [hloop, hflat, grouped_flatten hfirst hgroups]

/-- A price of `n` ticks as a decimal, in groups of three digits. -/
def priceText (n : ℕ) : Text :=
  grouped (Nat.toDigits 10 (n / 10 ^ 2)) ++ dotted (dropZeros (lowDigits 2 n))

/-- A price that fits its cell has ten digits before the point at most. -/
theorem lt_of_length_priceText {n : ℕ} (h : (priceText n).length ≤ 13) : n < 10 ^ 12 := by
  rw [priceText, List.length_append, length_grouped] at h
  have hlen : (Nat.toDigits 10 (n / 10 ^ 2)).length ≤ 10 := by omega
  have hdiv := (Nat.length_toDigits_le_iff (by decide) (by decide)).mp hlen
  omega

/-! ## The digits -/

/-- What is divided. -/
theorem val_priceOf {px : UInt64} (hpx : px.toNat < 2 ^ 53) :
    (priceOf px).val = (nearest ((px.toNat : ℚ) / (100 : ℕ))).val :=
  val_ofTicks hpx (by decide)

/-- **The error of a double**, in units of the fifteenth digit of it. -/
theorem error_lt_half {v x : ℚ} {j : ℕ} (hx : x ≤ 2 * v) (herr : |v - x| ≤ x / 2 ^ 53)
    (hunit : v * 10 ^ j < 10 ^ 13) : |v - x| * (100 * 10 ^ j) < 1 / 2 := by
  have hten : (0 : ℚ) < 100 * 10 ^ j := by positivity
  have hrel : |v - x| ≤ 2 * v / 2 ^ 53 := by linarith
  calc |v - x| * (100 * 10 ^ j) ≤ 2 * v / 2 ^ 53 * (100 * 10 ^ j) :=
        mul_le_mul_of_nonneg_right hrel hten.le
    _ = 200 / 2 ^ 53 * (v * 10 ^ j) := by ring
    _ < 200 / 2 ^ 53 * 10 ^ 13 := mul_lt_mul_of_pos_left hunit (by norm_num)
    _ < 1 / 2 := by norm_num

/-- **The digits of a price** are the price. -/
theorem text_general_price {n : ℕ} (hn : n < 10 ^ 12) :
    (general 15 (nearest ((n : ℚ) / (100 : ℕ))).val).text = trimmedText 2 n := by
  rcases Nat.eq_zero_or_pos n with rfl | hpos
  · decide +kernel
  have hlo : (1 : ℚ) ≤ n := by exact_mod_cast hpos
  have hhi : (n : ℚ) < 10 ^ 12 := by exact_mod_cast hn
  have herr : |(nearest ((n : ℚ) / (100 : ℕ))).val - (n : ℚ) / (100 : ℕ)|
      ≤ |(n : ℚ) / (100 : ℕ)| / 2 ^ 53 := abs_toSig_sub_le 53 _
  generalize (nearest ((n : ℚ) / (100 : ℕ))).val = v at herr ⊢
  rw [Nat.cast_ofNat, abs_of_pos (show (0 : ℚ) < n / 100 by positivity)] at herr
  obtain ⟨hbelow, habove⟩ := abs_le.mp herr
  have hv : (1 : ℚ) / 200 ≤ v := by linarith
  have hvn : (n : ℚ) / 200 ≤ v := by linarith
  have hv' : v < 10 ^ 11 := by linarith
  have hvpos : 0 < v := lt_of_lt_of_le (by norm_num) hv
  -- the exponent of the first digit
  have hlog : -4 ≤ Int.log 10 v := by
    refine (Int.zpow_le_iff_le_log (by decide) hvpos).mp (le_trans ?_ hv)
    norm_num
  have hlog' : Int.log 10 v < 11 :=
    (Int.lt_zpow_iff_log_lt (by decide) hvpos).mp (by exact_mod_cast hv')
  obtain ⟨j, hj⟩ : ∃ j : ℕ, Int.log 10 v = 12 - (j : ℤ) := ⟨(12 - Int.log 10 v).toNat, by omega⟩
  refine text_general_of_near (j := j) (by decide) hvpos.le (by omega) (by push_cast; omega) hlog ?_
  -- the error, in units of the last digit
  have hunit : v * 10 ^ j < 10 ^ 13 := by
    have hlt : v < 10 ^ (Int.log 10 v + 1) := by
      exact_mod_cast Int.lt_zpow_succ_log_self (by decide) v
    have hten : (0 : ℚ) < 10 ^ j := by positivity
    calc v * 10 ^ j < 10 ^ (Int.log 10 v + 1) * 10 ^ j := mul_lt_mul_of_pos_right hlt hten
      _ = 10 ^ 13 := by
        rw [← zpow_natCast 10 j, ← zpow_add₀ (by norm_num), ← zpow_natCast 10 13, hj]
        congr 1
        push_cast
        ring
  have hscaled : v * 10 ^ (2 + j) - n * 10 ^ j = (v - n / 100) * (100 * 10 ^ j) := by
    rw [pow_add]
    ring
  rw [hscaled, abs_mul, abs_of_pos (show (0 : ℚ) < 100 * 10 ^ j by positivity)]
  exact error_lt_half (by linarith) herr hunit

/-! ## The cell -/

/-- The text of a number without an exponent, in groups. -/
theorem prettyText_eq_grouped (m : Numeral) (h : m.exp = none) :
    prettyText m.text = some (signText m.neg ++ grouped m.int ++ dotted (dropZeros m.frac)) := by
  rw [prettyText_of_exp_none m h, insertCommas_eq_grouped _ _ m.int_digits.1]

/-- **What `pretty` makes of a price.** -/
theorem prettyText_price (n : ℕ) :
    prettyText (trimmedText 2 n) = some (priceText n)
      ∧ (priceText n).filter (· ≠ ',') = trimmedText 2 n := by
  have hshown : prettyText (trimmedText 2 n) = some (priceText n) := by
    rw [← Numeral.text_ofTrimmed_none, prettyText_eq_grouped _ rfl]
    show some (grouped _ ++ dotted (dropZeros (dropZeros (lowDigits 2 n)))) = _
    rw [dropZeros_dropZeros]
    rfl
  have htrim : trimTrailingZeros (trimmedText 2 n) = some (trimmedText 2 n) := by
    rw [← Numeral.text_ofTrimmed_none, trimTrailingZeros_text_of_exp_none _ rfl,
      Numeral.trimmed_ofTrimmed]
  refine ⟨hshown, ?_⟩
  obtain ⟨out, hout, hfilter, -⟩ := prettyText_filter htrim
  obtain rfl := Option.some.inj (hshown.symm.trans hout)
  have hcomma := comma_notMem_text (Numeral.ofTrimmed false 2 n none)
  rw [Numeral.text_ofTrimmed_none] at hcomma
  rw [hfilter, filter_comma_of_notMem hcomma]

/-- A price cell without its padding and commas. -/
def plain (cell : Text) : Text := (unpad cell).filter (· ≠ ',')

/-- **A price that fits is in its cell.** -/
theorem value_plain_priceCell {px : UInt64} (h : (priceText px.toNat).length ≤ 13) {cell : Text}
    (hcell : priceCell px 13 = some cell) : value (plain cell) = some (px.toNat / 100 : ℚ) := by
  have hlt := lt_of_length_priceText h
  obtain ⟨hshown, hplain⟩ := prettyText_price px.toNat
  rw [(priceCell_eq px 13).2, val_priceOf (hlt.trans (by norm_num)), text_general_price hlt,
    hshown] at hcell
  obtain rfl := Option.some.inj hcell
  have hblank : ' ' ∉ priceText px.toNat := by
    intro hmem
    refine blank_notMem_trimmedText 2 px.toNat ?_
    rw [← hplain]
    exact List.mem_filter.mpr ⟨hmem, rfl⟩
  rw [plain, unpad_pad hblank, List.take_of_length_le h, hplain, value_trimmedText]
  norm_num

/-- **Where a price is shown**: in the price cell of a level, on either side of
a row of `OrderBookBox::to_table`, and in that of a trade, in a row of
`TradeBox::to_table`. -/
inductive PriceShown : UInt64 → Text → Prop
  | level {b : OrderBook} {rows : List OrderBookBox.Row} {i : ℕ} {row : BidAsk}
      {r : OrderBookBox.Row} (side : OrderBook.BookSide)
      (htable : OrderBookBox.toTable b = some rows) (hrow : b.toVector[i]? = some row)
      (hr : rows[i]? = some r) : PriceShown (row.px side) (r.px side)
  | trade {ring : TradeBox.TradeRing} {rows : List TradeBox.Row} {i : ℕ} {trade : Trade}
      {r : TradeBox.Row} (htable : TradeBox.toTable ring = some rows)
      (htrade : ring.items[i]? = some trade) (hr : rows[i]? = some r) : PriceShown trade.px r.px

/-- The tables write all prices alike. -/
theorem PriceShown.priceCell {px : UInt64} {cell : Text} (h : PriceShown px cell) :
    priceCell px 13 = some cell := by
  cases h with
  | level side htable hrow hr =>
    rw [of_eq_some (OrderBookBox.exists_toTable _) htable, hrow, Option.bind_some] at hr
    exact (OrderBookBox.uiRow_cells hr side).1
  | trade htable htrade hr =>
    rw [of_eq_some (TradeBox.exists_toTable _) htable, htrade, Option.bind_some] at hr
    exact (TradeBox.uiRow_cells hr).1

/-- **A stored price is shown as that price.** Both tables have a row for
everything stored, the cell of every price that fits denotes the price, and the
cells of two such prices denote different numbers. -/
theorem price_shown :
    (∀ b : OrderBook, ∃ rows, OrderBookBox.toTable b = some rows
      ∧ ∀ (i : ℕ) (row : BidAsk), b.toVector[i]? = some row → ∃ r, rows[i]? = some r
        ∧ ∀ side, (priceText (row.px side).toNat).length ≤ 13 →
          value (plain (r.px side)) = some ((row.px side).toNat / 100 : ℚ))
    ∧ (∀ ring : TradeBox.TradeRing, ∃ rows, TradeBox.toTable ring = some rows
      ∧ ∀ (i : ℕ) (trade : Trade), ring.items[i]? = some trade → ∃ r, rows[i]? = some r
        ∧ ((priceText trade.px.toNat).length ≤ 13 →
          value (plain r.px) = some (trade.px.toNat / 100 : ℚ)))
    ∧ ∀ (px px' : UInt64) (cell cell' : Text), (priceText px.toNat).length ≤ 13 →
      (priceText px'.toNat).length ≤ 13 → PriceShown px cell → PriceShown px' cell' → px ≠ px' →
      value (plain cell) ≠ value (plain cell') := by
  refine ⟨fun b => ?_, fun ring => ?_, ?_⟩
  · obtain ⟨rows, htable, hget⟩ := OrderBookBox.exists_toTable b
    refine ⟨rows, htable, fun i row hrow => ?_⟩
    obtain ⟨r, hr, hcells⟩ := OrderBookBox.exists_uiRow row
    exact ⟨r, by rw [hget, hrow, Option.bind_some, hr],
      fun side h => value_plain_priceCell h (hcells side).1⟩
  · obtain ⟨rows, htable, hget⟩ := TradeBox.exists_toTable ring
    refine ⟨rows, htable, fun i trade htrade => ?_⟩
    obtain ⟨r, hr, hpx, -⟩ := TradeBox.exists_uiRow trade
    exact ⟨r, by rw [hget, htrade, Option.bind_some, hr], fun h => value_plain_priceCell h hpx⟩
  · intro px px' cell cell' h h' hcell hcell' hne heq
    rw [value_plain_priceCell h hcell.priceCell, value_plain_priceCell h' hcell'.priceCell,
      Option.some.injEq, div_left_inj' (by norm_num), Nat.cast_inj] at heq
    exact hne (UInt64.toNat_inj.mp heq)

/-- 1,234,567.89 in a book and 1,234,567.9 in a ring. -/
theorem price_shown_millions :
    (∃ rows r, OrderBookBox.toTable ⟨∅, ({} : BtreeMap less).insert 123456789 100000⟩ = some rows
      ∧ rows[0]? = some r ∧ value (plain (r.px .offer)) = some (123456789 / 100 : ℚ))
    ∧ (∃ rows r, TradeBox.toTable ⟨[⟨123456790, 100000, 1, .buy, emptyChars⟩], by decide⟩
        = some rows
      ∧ rows[0]? = some r ∧ value (plain r.px) = some (123456790 / 100 : ℚ))
    ∧ ∃ cell cell', PriceShown 123456789 cell ∧ PriceShown 123456790 cell'
      ∧ value (plain cell) ≠ value (plain cell') := by
  obtain ⟨hbook, hring, hdiff⟩ := price_shown
  have hfits : (priceText (123456789 : UInt64).toNat).length ≤ 13 := by decide +kernel
  have hfits' : (priceText (123456790 : UInt64).toNat).length ≤ 13 := by decide +kernel
  have hrow := OrderBookBox.toVector_one_offer 123456789 100000
  obtain ⟨rows, htable, hrows⟩ := hbook ⟨∅, ({} : BtreeMap less).insert 123456789 100000⟩
  obtain ⟨r, hr, hshown⟩ := hrows 0 _ (congrArg (·[0]?) hrow)
  obtain ⟨rows', htable', hrows'⟩ :=
    hring ⟨[⟨123456790, 100000, 1, .buy, emptyChars⟩], by decide⟩
  obtain ⟨r', hr', hshown'⟩ := hrows' 0 _ rfl
  refine ⟨⟨rows, r, htable, hr, hshown .offer hfits⟩, ⟨rows', r', htable', hr', hshown' hfits'⟩,
    r.px .offer, r'.px, ?_⟩
  have hlevel : PriceShown 123456789 (r.px .offer) :=
    .level .offer htable (congrArg (·[0]?) hrow) hr
  have htrade : PriceShown 123456790 r'.px := .trade htable' rfl hr'
  exact ⟨hlevel, htrade, hdiff _ _ _ _ hfits hfits' hlevel htrade (by decide)⟩

example : priceCell 123456789 13 = some "1,234,567.89 ".toList := by decide +kernel

end Ui
