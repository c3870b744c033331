import Mathlib.Data.Rat.Floor
import Trader.Numeral
import Trader.Rounding

set_option autoImplicit false

/-!
# The decimal text of a number

What `std::to_chars` writes for a number at a given precision, in its two
formats: `fixed` rounds to a number of decimals and writes all of them,
`general` rounds to a number of significant digits, chooses between a text
with and without an exponent by the size of the number, and leaves the zeros
at the end of the fraction out. Either way the number is rounded exactly, ties
to even, and what is written is a `Numeral`.
-/

namespace Decimal

open Rounding

/-! ## Numerals of a number of decimals -/

/-- The digits of an exponent, two at least. -/
def exponentDigits (e : ℕ) : List Char :=
  if e < 10 then '0' :: Nat.toDigits 10 e else Nat.toDigits 10 e

theorem exponentDigits_digits (e : ℕ) :
    IsDigits (exponentDigits e) ∧ 2 ≤ (exponentDigits e).length := by
  unfold exponentDigits
  split_ifs with he
  · refine ⟨⟨List.cons_ne_nil _ _, ?_⟩, Nat.succ_le_succ Nat.length_toDigits_pos⟩
    intro c hc
    rcases List.mem_cons.mp hc with rfl | hc
    · rfl
    · exact (isDigits_toDigits e).2 c hc
  · refine ⟨isDigits_toDigits e, ?_⟩
    rw [Nat.toDigits_of_base_le (by decide) (not_lt.mp he), List.length_append]
    exact Nat.add_le_add_right Nat.length_toDigits_pos 1

/-- An exponent below 100 has two digits. -/
theorem length_exponentDigits {e : ℕ} (he : e < 100) : (exponentDigits e).length ≤ 2 := by
  unfold exponentDigits
  split_ifs with hlt
  · rw [Nat.toDigits_of_lt_base hlt]
    rfl
  · exact (Nat.length_toDigits_le_iff (by decide) (by decide)).mpr he

namespace Numeral

/-- The numeral of `n / 10 ^ k`, with all `k` decimals. -/
def ofFixed (neg : Bool) (k n : ℕ) : Numeral where
  neg := neg
  int := Nat.toDigits 10 (n / 10 ^ k)
  frac := lowDigits k n
  exp := none
  int_digits := isDigits_toDigits _
  frac_digits := fun _ hc => isDigit_of_mem_lowDigits hc
  exp_digits := fun _ he => nomatch he

/-- The numeral of `n / 10 ^ k` without zeros at its end, and an exponent if
there is one to write. -/
def ofTrimmed (neg : Bool) (k n : ℕ) (e : Option ℤ) : Numeral where
  neg := neg
  int := Nat.toDigits 10 (n / 10 ^ k)
  frac := dropZeros (lowDigits k n)
  exp := e.map (fun e => (decide (e < 0), exponentDigits e.natAbs))
  int_digits := isDigits_toDigits _
  frac_digits := fun _ hc => isDigit_of_mem_lowDigits (mem_of_mem_dropZeros hc)
  exp_digits := by
    intro e' he'
    obtain ⟨e, -, rfl⟩ := Option.map_eq_some_iff.mp he'
    exact exponentDigits_digits e.natAbs

/-- A text with all decimals, without its zeros. -/
theorem text_trimmed_ofFixed (k n : ℕ) : (ofFixed false k n).trimmed.text = trimmedText k n := by
  show Nat.toDigits 10 (n / 10 ^ k) ++ (dotted (dropZeros (lowDigits k n)) ++ []) = _
  rw [List.append_nil]
  rfl

/-- A text without an exponent. -/
theorem text_ofTrimmed_none (k n : ℕ) : (ofTrimmed false k n none).text = trimmedText k n := by
  show Nat.toDigits 10 (n / 10 ^ k) ++ (dotted (dropZeros (lowDigits k n)) ++ []) = _
  rw [List.append_nil]
  rfl

/-- It is without zeros at its end already. -/
theorem trimmed_ofTrimmed (neg : Bool) (k n : ℕ) (e : Option ℤ) :
    (ofTrimmed neg k n e).trimmed = ofTrimmed neg k n e := by
  simp only [trimmed, ofTrimmed, dropZeros_dropZeros]

/-- A numeral without a sign starts with a digit. -/
theorem exists_digit_cons {n : Numeral} (hn : n.neg = false) :
    ∃ c t, n.text = c :: t ∧ c.isDigit = true := by
  obtain ⟨c, int, hint⟩ := List.exists_cons_of_ne_nil n.int_digits.1
  refine ⟨c, int ++ (dotted n.frac ++ expText n.exp), ?_, n.int_digits.2 c (by simp [hint])⟩
  simp [text, hn, hint, signText]

theorem length_dotted_le (ds : List Char) : (dotted ds).length ≤ ds.length + 1 := by
  cases ds with
  | nil => exact Nat.zero_le _
  | cons c ds => exact Nat.le_refl _

/-- The length of a text, from those of its parts. -/
theorem length_text_le (n : Numeral) :
    n.text.length ≤ n.int.length + n.frac.length + (expText n.exp).length + 2 := by
  have hsign : (signText n.neg).length ≤ 1 := by
    cases n.neg with
    | true => exact Nat.le_refl 1
    | false => exact Nat.zero_le 1
  have hdot := length_dotted_le n.frac
  simp only [text, List.length_append]
  omega

/-- The length of a text of so many digits and decimals. -/
theorem length_ofTrimmed_le (neg : Bool) (k : ℕ) {n p : ℕ} {e : Option ℤ} (hp : 0 < p)
    (hn : n < 10 ^ p) (he : ∀ e' ∈ e, e'.natAbs < 100) :
    (ofTrimmed neg k n e).text.length ≤ p + k + 6 := by
  have hlen := (ofTrimmed neg k n e).length_text_le
  have hint : (ofTrimmed neg k n e).int.length ≤ p :=
    (Nat.length_toDigits_le_iff (by decide) hp).mpr ((Nat.div_le_self _ _).trans_lt hn)
  have hfrac : (ofTrimmed neg k n e).frac.length ≤ k :=
    (List.rdropWhile_prefix _ _).length_le.trans (length_lowDigits k n).le
  have hexp : (expText (ofTrimmed neg k n e).exp).length ≤ 4 := by
    cases e with
    | none => exact Nat.zero_le 4
    | some e => exact Nat.add_le_add_right (length_exponentDigits (he e rfl)) 2
  omega

end Numeral

/-! ## The two formats -/

/-- `|v| * 10 ^ k` rounded to an integer. -/
def scaled (k : ℤ) (v : ℚ) : ℕ := (halfEven (|v| * 10 ^ k)).toNat

theorem natCast_scaled (k : ℤ) (v : ℚ) : (scaled k v : ℤ) = halfEven (|v| * 10 ^ k) := by
  have hnear := (abs_le.mp (abs_halfEven_sub_le (|v| * (10 : ℚ) ^ k))).1
  have hnn : 0 ≤ |v| * (10 : ℚ) ^ k := by positivity
  have hlt : ((-1 : ℤ) : ℚ) < (halfEven (|v| * (10 : ℚ) ^ k) : ℤ) := by
    push_cast
    linarith
  exact Int.toNat_of_nonneg (Int.lt_iff_add_one_le.mp (Int.cast_lt.mp hlt))

/-- `std::chars_format::fixed`. -/
def fixed (precision : ℕ) (v : ℚ) : Numeral :=
  .ofFixed (decide (v < 0)) precision (scaled precision v)

/-- A number rounded to significant digits, as the integer they make and the
exponent of the first of them. -/
def significant (precision : ℕ) (v : ℚ) : ℕ × ℤ :=
  let e := Int.log 10 |v|
  let n := scaled (precision - 1 - e) v
  -- a number just below a power of ten is rounded to it
  if n = 10 ^ precision then (10 ^ (precision - 1), e + 1) else (n, e)

/-- `std::chars_format::general`, for a precision of one at least. -/
def general (precision : ℕ) (v : ℚ) : Numeral :=
  let e := (significant precision v).2
  let n := (significant precision v).1
  if -4 ≤ e ∧ e < precision then
    .ofTrimmed (decide (v < 0)) (precision - 1 - e).toNat n none
  else .ofTrimmed (decide (v < 0)) (precision - 1) n (some e)

theorem neg_general (precision : ℕ) (v : ℚ) : (general precision v).neg = decide (v < 0) := by
  simp only [general]
  split_ifs <;> rfl

/-- A number close enough to an integer is rounded to it. -/
theorem scaled_eq_of_near {k : ℤ} {v : ℚ} {m : ℕ} (h : |(|v| * 10 ^ k) - m| < 1 / 2) :
    scaled k v = m := by
  have hround : halfEven (|v| * 10 ^ k) = (m : ℤ) :=
    halfEven_eq_of_abs_lt (by rwa [Int.cast_natCast])
  rw [scaled, hround, Int.toNat_natCast]

/-- **The text of a number close to a decimal** is that of the decimal, when it
is closer than half a unit of the last significant digit. -/
theorem text_general_of_near {precision k j n : ℕ} {v : ℚ} (hp : 0 < precision) (hv : 0 ≤ v)
    (hkj : 0 < k + j)
    (he : Int.log 10 v = (precision : ℤ) - 1 - (k + j : ℕ)) (hlo : -4 ≤ Int.log 10 v)
    (h : |v * 10 ^ (k + j) - n * 10 ^ j| < 1 / 2) :
    (general precision v).text = trimmedText k n := by
  have hneg : decide (v < 0) = false := decide_eq_false hv.not_gt
  have hexp : (precision : ℤ) - 1 - Int.log 10 v = (k + j : ℕ) := by omega
  have hscaled : scaled (precision - 1 - Int.log 10 v) v = n * 10 ^ j := by
    refine scaled_eq_of_near ?_
    rw [abs_of_nonneg hv, hexp, zpow_natCast]
    exact_mod_cast h
  have hsig : significant precision v = if n * 10 ^ j = 10 ^ precision
      then (10 ^ (precision - 1), Int.log 10 v + 1) else (n * 10 ^ j, Int.log 10 v) := by
    rw [significant, abs_of_nonneg hv, hscaled]
  rw [general, hsig, hneg]
  split_ifs with hcarry hrange hrange
  · -- one digit more, and one decimal less
    obtain ⟨i, hi⟩ : ∃ i, k + j = i + 1 := ⟨k + j - 1, by omega⟩
    have hdec : ((precision : ℤ) - 1 - (Int.log 10 v + 1)).toNat = i := by omega
    have hten : n * 10 ^ j = 10 ^ (precision - 1) * 10 ^ 1 := by
      rw [hcarry, ← pow_add, Nat.sub_add_cancel hp]
    rw [hdec, Numeral.text_ofTrimmed_none, ← trimmedText_mul_pow i 1, ← hten, ← hi,
      trimmedText_mul_pow]
  · exact absurd hrange (by simp only; omega)
  · have hdec : ((precision : ℤ) - 1 - Int.log 10 v).toNat = k + j := by omega
    rw [hdec, Numeral.text_ofTrimmed_none, trimmedText_mul_pow]
  · exact absurd hrange (by simp only; omega)

/-! ## Lengths -/

theorem scaled_le {k : ℤ} {v : ℚ} {m : ℕ} (h : |v| * 10 ^ k ≤ m) : scaled k v ≤ m := by
  have hnear := (abs_le.mp (abs_halfEven_sub_le (|v| * (10 : ℚ) ^ k))).2
  have hlt : ((halfEven (|v| * (10 : ℚ) ^ k) : ℤ) : ℚ) < ((m + 1 : ℤ) : ℚ) := by
    push_cast
    linarith
  exact Int.toNat_le.mpr (Int.lt_add_one_iff.mp (Int.cast_lt.mp hlt))

/-- A fixed text has as many digits before the point as the number. -/
theorem length_fixed_le {precision d : ℕ} {v : ℚ} (hd : 0 < d) (hv : |v| < 10 ^ d - 1) :
    (fixed precision v).text.length ≤ d + precision + 2 := by
  have hle : scaled precision v ≤ (10 ^ d - 1) * 10 ^ precision := by
    refine scaled_le ?_
    push_cast [Nat.one_le_pow d 10 (by decide)]
    rw [zpow_natCast]
    exact mul_le_mul_of_nonneg_right hv.le (by positivity)
  have hint : (fixed precision v).int.length ≤ d := by
    refine (Nat.length_toDigits_le_iff (by decide) hd).mpr ?_
    refine Nat.div_lt_of_lt_mul (hle.trans_lt ?_)
    rw [Nat.mul_comm]
    exact Nat.mul_lt_mul_of_pos_left (Nat.sub_one_lt (by positivity)) (by positivity)
  have hfrac : (fixed precision v).frac.length = precision := length_lowDigits _ _
  have hlen := (fixed precision v).length_text_le
  have hexp : (Numeral.expText (fixed precision v).exp).length = 0 := rfl
  omega

/-- The significant digits of a number are no more than asked for. -/
theorem significant_lt {precision : ℕ} (hp : 0 < precision) (v : ℚ) :
    (significant precision v).1 < 10 ^ precision := by
  simp only [significant]
  split_ifs with hcarry
  · exact Nat.pow_lt_pow_right (by decide) (Nat.sub_one_lt hp.ne')
  · refine lt_of_le_of_ne (scaled_le ?_) hcarry
    have hlt : |v| < (10 : ℚ) ^ (Int.log 10 |v| + 1) := by
      exact_mod_cast Int.lt_zpow_succ_log_self (by decide) |v|
    calc |v| * (10 : ℚ) ^ ((precision : ℤ) - 1 - Int.log 10 |v|)
        ≤ 10 ^ (Int.log 10 |v| + 1) * 10 ^ ((precision : ℤ) - 1 - Int.log 10 |v|) :=
          mul_le_mul_of_nonneg_right hlt.le (by positivity)
      _ = ((10 ^ precision : ℕ) : ℚ) := by
          rw [← zpow_add₀ (by norm_num)]
          push_cast
          rw [← zpow_natCast]
          congr 1
          ring

/-- The exponent of a number between two powers of ten. -/
theorem significant_exponent (precision : ℕ) {v : ℚ} {lo hi : ℤ} (hlo : 10 ^ lo ≤ |v|)
    (hhi : |v| < 10 ^ hi) :
    lo ≤ (significant precision v).2 ∧ (significant precision v).2 ≤ hi := by
  have hpos : 0 < |v| := lt_of_lt_of_le (by positivity) hlo
  have hle : lo ≤ Int.log 10 |v| :=
    (Int.zpow_le_iff_le_log (by decide) hpos).mp (by exact_mod_cast hlo)
  have hlt : Int.log 10 |v| < hi :=
    (Int.lt_zpow_iff_log_lt (by decide) hpos).mp (by exact_mod_cast hhi)
  simp only [significant]
  split_ifs <;> constructor <;> simp only <;> omega

/-- **A general text is short**, unless its exponent has three digits. -/
theorem length_general_le {precision : ℕ} (hp : 0 < precision) {v : ℚ}
    (hlo : 10 ^ (-99 : ℤ) ≤ |v|) (hhi : |v| < 10 ^ (99 : ℤ)) :
    (general precision v).text.length ≤ 2 * precision + 9 := by
  have hdigits := significant_lt hp v
  obtain ⟨helo, hehi⟩ := significant_exponent precision hlo hhi
  simp only [general]
  split_ifs with hrange
  · refine (Numeral.length_ofTrimmed_le _ _ hp hdigits ?_).trans (by omega)
    rintro e ⟨⟩
  · refine (Numeral.length_ofTrimmed_le _ _ hp hdigits ?_).trans (by omega)
    rintro e ⟨rfl⟩
    omega

end Decimal
