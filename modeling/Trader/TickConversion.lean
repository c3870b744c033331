import Mathlib.Data.Nat.GCD.Basic
import Mathlib.Tactic.Zify
import Trader.Double
import Trader.BookHistory

set_option autoImplicit false

/-!
# Tick-aligned prices and the ticks they become

A price of `n` ticks is read as the double nearest to `n / t` and multiplied
by `t`. The product is off by `t` times the error of that first rounding, at
most half of `t` in units of its last place, and is rounded again. Most of
the time the second rounding undoes the first. When the error is downwards
and more than half a unit of the last place of `n`, it does not: the product
is rounded to the double just below `n`, and the truncation takes a whole
tick off.

`LosesTick` says for which `n` that is, in terms of the remainder the
division leaves (`toUint64_nearest`). At a hundred ticks a unit 29 is one of
them. A price that loses its tick is stored under the key of the price below
it, unless that one loses its own.
-/

namespace TickConversion

open Rounding Utils.Double Binance Binary64

/-- The power of two that scales `n / t` to 53 bits, or to one short of them. -/
def shift (n t : ℕ) : ℕ := 52 - n.log2 + t.log2

/-- **The numbers of ticks that lose one.** The quotient has its 53 bits at the
lesser of the two scales, and is rounded down there, by a remainder that makes
more than half a unit in the last place of `n`. -/
def LosesTick (n t : ℕ) : Prop :=
  t * 2 ^ 52 ≤ n * 2 ^ shift n t
    ∧ 2 ^ t.log2 < 2 * (n * 2 ^ shift n t % t) ∧ 2 * (n * 2 ^ shift n t % t) < t

instance (n t : ℕ) : Decidable (LosesTick n t) := inferInstanceAs (Decidable (_ ∧ _ ∧ _))

/-- What is asked of a number of ticks per unit: it is no power of two, and
divides into powers of two with a rounding up. -/
structure IsScale (t : ℕ) : Prop where
  log_lt : 2 ^ t.log2 < t
  pow_mod : t < 2 * (2 ^ (53 + t.log2) % t)

theorem IsScale.pos {t : ℕ} (h : IsScale t) : 0 < t := (Nat.zero_le _).trans_lt h.log_lt

/-- Every scale of `Config` is one. -/
theorem isScale_config (sym : SymbolEnum) :
    IsScale (Config.getPriceTicksPerUnit sym).toNat
      ∧ IsScale (Config.getSizeTicksPerUnit sym).toNat := by
  cases sym <;> exact ⟨⟨by decide +kernel, by decide +kernel⟩, by decide +kernel, by decide +kernel⟩

/-! ## The first rounding -/

section Quotient

variable {n t s : ℕ}

/-- The scaled quotient has 53 bits, or one less. -/
theorem quotient_bounds (h : IsScale t) (hn0 : n ≠ 0) (hn : n < 2 ^ 50) :
    n * 2 ^ shift n t < t * 2 ^ 53 ∧ t * 2 ^ 52 ≤ n * 2 ^ (shift n t + 1) := by
  have hlog : n.log2 < 50 := (Nat.log2_lt hn0).mpr hn
  constructor
  · calc n * 2 ^ shift n t < 2 ^ (n.log2 + 1) * 2 ^ shift n t :=
          Nat.mul_lt_mul_of_pos_right Nat.lt_log2_self (by positivity)
      _ = 2 ^ t.log2 * 2 ^ 53 := by
          rw [← pow_add, ← pow_add, shift]
          congr 1
          omega
      _ ≤ t * 2 ^ 53 := Nat.mul_le_mul_right _ h.log_lt.le
  · calc t * 2 ^ 52 ≤ 2 ^ (t.log2 + 1) * 2 ^ 52 :=
          Nat.mul_le_mul_right _ Nat.lt_log2_self.le
      _ = 2 ^ n.log2 * 2 ^ (shift n t + 1) := by
          rw [← pow_add, ← pow_add, shift]
          congr 1
          omega
      _ ≤ n * 2 ^ (shift n t + 1) := Nat.mul_le_mul_right _ (Nat.log2_self_le hn0)

/-- **The quotient is never midway** between two doubles: a scale has too few
factors of two for that. -/
theorem two_mul_mod_ne (ht : 0 < t) (hs : t < 2 ^ (s + 1)) : 2 * (n * 2 ^ s % t) ≠ t := by
  intro htie
  have hdvd : 2 ^ (s + 1) ∣ t * (2 * (n * 2 ^ s / t) + 1) := by
    refine ⟨n, ?_⟩
    have hdiv := Nat.div_add_mod (n * 2 ^ s) t
    calc t * (2 * (n * 2 ^ s / t) + 1) = 2 * (t * (n * 2 ^ s / t) + n * 2 ^ s % t) := by
          rw [mul_add 2, htie]
          ring
      _ = 2 ^ (s + 1) * n := by
          rw [hdiv]
          ring
  have hcop : Nat.Coprime (2 ^ (s + 1)) (2 * (n * 2 ^ s / t) + 1) :=
    Nat.Coprime.pow_left _
      ((Nat.coprime_mul_left_add_right 2 1 _).mpr (Nat.coprime_one_right 2))
  exact absurd (Nat.le_of_dvd ht (hcop.dvd_of_dvd_mul_right hdvd)) hs.not_ge

/-- The error of the quotient, in units of its last place and times the
scale. -/
def quotientError (n t s : ℕ) : ℤ :=
  if 2 * (n * 2 ^ s % t) < t then -(n * 2 ^ s % t : ℕ) else t - (n * 2 ^ s % t : ℕ)

/-- It is less than half the scale. -/
theorem abs_quotientError_lt (ht : 0 < t) (hs : t < 2 ^ (s + 1)) :
    2 * |quotientError n t s| < t := by
  have htie := two_mul_mod_ne (n := n) ht hs
  have hmod := Nat.mod_lt (n * 2 ^ s) ht
  unfold quotientError
  split_ifs with h
  · rw [abs_neg, Nat.abs_cast]
    exact_mod_cast h
  · rw [abs_of_nonneg (by omega)]
    omega

/-- **The exact product with the scale**, off by the error of the quotient. -/
theorem val_nearest_mul (ht : 0 < t) (hs : t < 2 ^ (s + 1)) (hlo : t * 2 ^ 52 ≤ n * 2 ^ s)
    (hhi : n * 2 ^ s < t * 2 ^ 53) :
    (nearest (n / t)).val * t = n + quotientError n t s / 2 ^ s := by
  have htQ : (0 : ℚ) < t := Nat.cast_pos.mpr ht
  have hscaled : (n : ℚ) / t * 2 ^ s = ((n * 2 ^ s : ℕ) : ℚ) / t := by
    push_cast
    ring
  have hsig : toSig 53 ((n : ℚ) / t) = halfEven (((n * 2 ^ s : ℕ) : ℚ) / t) / 2 ^ s := by
    rw [← hscaled]
    refine toSig_eq ?_ ?_
    · rw [hscaled, le_div_iff₀ htQ]
      exact_mod_cast mul_comm t _ ▸ hlo
    · rw [hscaled, div_lt_iff₀ htQ]
      exact_mod_cast mul_comm t _ ▸ hhi
  have hround : ((halfEven (((n * 2 ^ s : ℕ) : ℚ) / t) : ℤ) : ℚ) * t
      = ((n * 2 ^ s : ℕ) : ℚ) + quotientError n t s := by
    have h : halfEven (((n * 2 ^ s : ℕ) : ℚ) / t) * (t : ℤ)
        = (n * 2 ^ s : ℕ) + quotientError n t s :=
      halfEven_div (n * 2 ^ s) ht (two_mul_mod_ne ht hs)
    exact_mod_cast h
  rw [val_nearest, hsig, div_mul_eq_mul_div, hround, add_div]
  push_cast
  rw [mul_div_cancel_right₀ _ (by positivity)]

end Quotient

/-! ## The second rounding -/

section Product

variable {n : ℕ}

/-- The scale of a number within a unit in the last place of `n`, on its side
of a power of two, is that of `n`. -/
theorem toSig_add (hn0 : n ≠ 0) (hn : n < 2 ^ 50) {ε : ℚ}
    (hε : |ε * 2 ^ (52 - n.log2)| < 1) (hneg : ε < 0 → 2 ^ n.log2 < n) :
    toSig 53 (n + ε)
      = halfEven (((n * 2 ^ (52 - n.log2) : ℕ) : ℤ) + ε * 2 ^ (52 - n.log2) : ℚ)
        / 2 ^ (52 - n.log2) := by
  have hlog : n.log2 < 50 := (Nat.log2_lt hn0).mpr hn
  obtain ⟨hεlo, hεhi⟩ := abs_lt.mp hε
  have hcpos : (0 : ℚ) < 2 ^ (52 - n.log2) := by positivity
  have hone : (1 : ℚ) ≤ 2 ^ (52 - n.log2) := one_le_pow₀ one_le_two
  have hbin : (2 : ℚ) ^ n.log2 * 2 ^ (52 - n.log2) = 2 ^ 52 := by
    rw [← pow_add]
    congr 1
    omega
  have hlo : (2 : ℚ) ^ 52 ≤ (n + ε) * 2 ^ (52 - n.log2) := by
    rw [add_mul, ← hbin]
    rcases le_or_gt 0 ε with hsign | hsign
    · have hself : (2 : ℚ) ^ n.log2 ≤ n := by exact_mod_cast Nat.log2_self_le hn0
      have hmul := mul_le_mul_of_nonneg_right hself hcpos.le
      have hnn := mul_nonneg hsign hcpos.le
      linarith
    · have hself : (2 : ℚ) ^ n.log2 + 1 ≤ n := by exact_mod_cast hneg hsign
      have hmul := mul_le_mul_of_nonneg_right hself hcpos.le
      rw [add_mul, one_mul] at hmul
      linarith
  have hhi : (n + ε) * 2 ^ (52 - n.log2) < (2 : ℚ) ^ 53 := by
    have hself : (n : ℚ) + 1 ≤ 2 * 2 ^ n.log2 := by
      rw [← pow_succ']
      exact_mod_cast Nat.lt_log2_self
    have hmul := mul_le_mul_of_nonneg_right hself hcpos.le
    rw [mul_assoc, hbin, add_mul, one_mul] at hmul
    rw [add_mul]
    linarith
  rw [toSig_eq hlo hhi]
  push_cast
  rw [add_mul]

/-- **Rounding near `n`, and truncating.** A number within a unit in the last
place of `n` is truncated to `n` once rounded, unless it is more than half a
unit below. -/
theorem floor_toSig_add (hn0 : n ≠ 0) (hn : n < 2 ^ 50) {ε : ℚ}
    (hε : |ε * 2 ^ (52 - n.log2)| < 1) (hneg : ε < 0 → 2 ^ n.log2 < n) :
    ⌊toSig 53 (n + ε)⌋
      = if ε * 2 ^ (52 - n.log2) < -(1 / 2) then (n : ℤ) - 1 else n := by
  have hlog : n.log2 < 50 := (Nat.log2_lt hn0).mpr hn
  have hcpos : (0 : ℚ) < 2 ^ (52 - n.log2) := by positivity
  have hulp : (1 : ℚ) / 2 ^ (52 - n.log2) < 1 := by
    rw [div_lt_one hcpos]
    exact one_lt_pow₀ one_lt_two (by omega)
  have hulp0 : (0 : ℚ) < 1 / 2 ^ (52 - n.log2) := by positivity
  -- in units of its last place `n` is even
  have heven : Even ((n * 2 ^ (52 - n.log2) : ℕ) : ℤ) := by
    rw [show 52 - n.log2 = (51 - n.log2) + 1 by omega, Int.even_coe_nat]
    exact Even.mul_left (even_two.mul_left _) _
  have hval : ∀ i : ℤ, ((((n * 2 ^ (52 - n.log2) : ℕ) : ℤ) + i : ℤ) : ℚ) / 2 ^ (52 - n.log2)
      = n + i / 2 ^ (52 - n.log2) := by
    intro i
    push_cast
    rw [add_div, mul_div_cancel_right₀ _ hcpos.ne']
  rw [toSig_add hn0 hn hε hneg, halfEven_even_add heven hε, hval]
  split_ifs
  · rw [Int.floor_eq_iff]
    push_cast
    rw [neg_div]
    constructor <;> linarith
  · rw [Int.floor_eq_iff]
    push_cast
    constructor <;> linarith
  · rw [Int.cast_zero, zero_div, add_zero, Int.floor_natCast]

variable {t : ℕ}

/-- The error of the product in units of the last place of `n`. -/
theorem error_mul_eq (n t j : ℕ) (e : ℤ) :
    (e : ℚ) / 2 ^ (shift n t + j) * 2 ^ (52 - n.log2) = e / 2 ^ (t.log2 + j) := by
  rw [shift, add_assoc, pow_add, mul_comm (2 ^ (52 - n.log2)), ← div_div,
    div_mul_cancel₀ _ (by positivity)]

/-- The scaled quotient of a power of two. -/
theorem two_pow_log2_mul (t : ℕ) (hn0 : n ≠ 0) (hn : n < 2 ^ 50) (j : ℕ) :
    2 ^ n.log2 * 2 ^ (shift n t + j) = 2 ^ (52 + j + t.log2) := by
  have hlog : n.log2 < 50 := (Nat.log2_lt hn0).mpr hn
  rw [← pow_add, shift]
  congr 1
  omega

/-- Which errors a tick is lost to. -/
theorem losesTick_iff (ht : 0 < t) (hlo : t * 2 ^ 52 ≤ n * 2 ^ shift n t) :
    LosesTick n t ↔ 2 * quotientError n t (shift n t) < -2 ^ t.log2 := by
  have hmod := Nat.mod_lt (n * 2 ^ shift n t) ht
  have hpos : 0 < 2 ^ t.log2 := Nat.two_pow_pos _
  unfold LosesTick quotientError
  rw [and_iff_right hlo]
  zify at hmod hpos ⊢
  split_ifs <;> omega

/-- **At the lesser scale** the tick is lost to a rounding down of the quotient
that is more than half a unit of the last place of `n`. -/
theorem floor_product_lesser (h : IsScale t) (hn0 : n ≠ 0) (hn : n < 2 ^ 50)
    (hlo : t * 2 ^ 52 ≤ n * 2 ^ shift n t) :
    ⌊toSig 53 ((nearest (n / t)).val * t)⌋ = if LosesTick n t then (n : ℤ) - 1 else n := by
  have hs : t < 2 ^ (shift n t + 1) :=
    Nat.lt_log2_self.trans_le (Nat.pow_le_pow_right two_pos (by unfold shift; omega))
  have hpos : (0 : ℚ) < 2 ^ t.log2 := by positivity
  have hsmall : |quotientError n t (shift n t)| < 2 ^ t.log2 := by
    have herr := abs_quotientError_lt (n := n) h.pos hs
    have hpow : (t : ℤ) < 2 ^ (t.log2 + 1) := by exact_mod_cast Nat.lt_log2_self
    omega
  have hunit := error_mul_eq n t 0 (quotientError n t (shift n t))
  rw [add_zero, add_zero] at hunit
  rw [val_nearest_mul h.pos hs hlo (quotient_bounds h hn0 hn).1,
    floor_toSig_add hn0 hn, hunit]
  · refine if_congr ?_ rfl rfl
    rw [losesTick_iff h.pos hlo, div_lt_iff₀ hpos, ← Int.cast_lt (R := ℚ)]
    push_cast
    constructor <;> intro hlt <;> linarith
  · rw [hunit, abs_div, abs_of_pos hpos, div_lt_one hpos]
    exact_mod_cast hsmall
  -- a power of two has the greater scale
  · intro _
    by_contra hle
    have hmul := Nat.mul_le_mul_right (2 ^ shift n t) (not_lt.mp hle)
    have hpow := two_pow_log2_mul t hn0 hn 0
    rw [add_zero, add_zero, pow_add] at hpow
    have hlog := h.log_lt
    omega

/-- **At the greater scale** no tick is lost. -/
theorem floor_product_greater (h : IsScale t) (hn0 : n ≠ 0) (hn : n < 2 ^ 50)
    (hhi : n * 2 ^ shift n t < t * 2 ^ 52) :
    ⌊toSig 53 ((nearest (n / t)).val * t)⌋ = (n : ℤ) := by
  have hs : t < 2 ^ (shift n t + 1 + 1) :=
    Nat.lt_log2_self.trans_le (Nat.pow_le_pow_right two_pos (by unfold shift; omega))
  have hpos : (0 : ℚ) < 2 ^ (t.log2 + 1) := by positivity
  have hsmall : |(quotientError n t (shift n t + 1) : ℚ) / 2 ^ (t.log2 + 1)| < 1 / 2 := by
    have herr := abs_quotientError_lt (n := n) h.pos hs
    have hpow : (t : ℤ) < 2 ^ (t.log2 + 1) := by exact_mod_cast Nat.lt_log2_self
    rw [abs_div, abs_of_pos hpos, div_lt_div_iff₀ hpos two_pos]
    exact_mod_cast (by omega : |quotientError n t (shift n t + 1)| * 2 < 1 * 2 ^ (t.log2 + 1))
  have hunit := error_mul_eq n t 1 (quotientError n t (shift n t + 1))
  rw [val_nearest_mul h.pos hs (quotient_bounds h hn0 hn).2 (by rw [pow_succ, ← mul_assoc]; omega),
    floor_toSig_add hn0 hn, hunit]
  · exact if_neg (abs_lt.mp hsmall).1.not_gt
  · rw [hunit]
    exact hsmall.trans (by norm_num)
  -- the quotient of a power of two is rounded up
  · intro hneg
    by_contra hle
    have hself : n = 2 ^ n.log2 := le_antisymm (not_lt.mp hle) (Nat.log2_self_le hn0)
    have hnn : 0 ≤ quotientError n t (shift n t + 1) := by
      have hmod := Nat.mod_lt (n * 2 ^ (shift n t + 1)) h.pos
      have hup := h.pow_mod
      rw [← two_pow_log2_mul t hn0 hn 1, ← hself] at hup
      unfold quotientError
      rw [if_neg hup.not_gt]
      omega
    have hnonneg : (0 : ℚ) ≤ quotientError n t (shift n t + 1) / 2 ^ (shift n t + 1) :=
      div_nonneg (by exact_mod_cast hnn) (by positivity)
    exact hneg.not_ge hnonneg

end Product

/-! ## The conversion -/

/-- Nothing is lost of no ticks. -/
theorem LosesTick.ne_zero {n t : ℕ} (h : LosesTick n t) : n ≠ 0 := by
  rintro rfl
  obtain ⟨hlo, -, hlt⟩ := h
  rw [zero_mul] at hlo
  omega

/-- The ticks that `n` of them are converted to. -/
def ticksRead (n t : ℕ) : ℕ := if LosesTick n t then n - 1 else n

/-- **What the conversion of a tick-aligned number computes.** -/
theorem toUint64_nearest {n t : ℕ} (h : IsScale t) (ht : t < 2 ^ 53) (hn : n < 2 ^ 50) :
    (toUint64 (nearest (n / t)) (nearest t)).toNat = ticksRead n t := by
  have htrunc : ((nearest (n / t)).mul (nearest t)).truncate = ticksRead n t := by
    refine truncate_of_floor ?_
    rw [mul, val_nearest_natCast ht, val_nearest]
    rcases eq_or_ne n 0 with rfl | hn0
    · rw [Nat.cast_zero, zero_div, val_nearest, toSig_zero, zero_mul, toSig_zero, Int.floor_zero,
        ticksRead, if_neg (fun hl => hl.ne_zero rfl), Nat.cast_zero]
    rcases le_or_gt (t * 2 ^ 52) (n * 2 ^ shift n t) with hlo | hhi
    · rw [floor_product_lesser h hn0 hn hlo, ticksRead]
      split_ifs <;> omega
    · rw [floor_product_greater h hn0 hn hhi, ticksRead, if_neg (fun hl => hhi.not_ge hl.1)]
  have hle : ticksRead n t ≤ n := by
    unfold ticksRead
    split_ifs <;> omega
  have hwrap := UInt64.natCast_toNat_ofInt ((nearest (n / t)).mul (nearest t)).truncate
  rw [htrunc] at hwrap
  show (UInt64.ofInt ((nearest (n / t)).mul (nearest t)).truncate).toNat = ticksRead n t
  rw [htrunc]
  omega

/-- **The conversion is exact** on the numbers that do not lose a tick. -/
theorem ticksRead_eq_iff {n t : ℕ} : ticksRead n t = n ↔ ¬ LosesTick n t := by
  unfold ticksRead
  split_ifs with hlose
  · have hne := hlose.ne_zero
    exact iff_of_false (by omega) (not_not_intro hlose)
  · exact iff_of_true rfl hlose

/-- **Two numbers of ticks are read as one** when the greater is the next one,
and loses its tick while the other does not. -/
theorem ticksRead_eq_ticksRead_iff {n m t : ℕ} (hnm : n < m) :
    ticksRead n t = ticksRead m t ↔ m = n + 1 ∧ ¬ LosesTick n t ∧ LosesTick m t := by
  unfold ticksRead
  constructor
  · intro heq
    by_cases hn : LosesTick n t <;> by_cases hm : LosesTick m t
    · have hne := hn.ne_zero
      rw [if_pos hn, if_pos hm] at heq
      omega
    · rw [if_pos hn, if_neg hm] at heq
      omega
    · rw [if_neg hn, if_pos hm] at heq
      exact ⟨by omega, hn, hm⟩
    · rw [if_neg hn, if_neg hm] at heq
      omega
  · rintro ⟨rfl, hn, hm⟩
    rw [if_neg hn, if_pos hm, Nat.add_sub_cancel]

/-- What a call with a scale of `Config` computes. -/
theorem toUint64At_nearest {n : ℕ} {ticksPerUnit : UInt64} (h : IsScale ticksPerUnit.toNat)
    (ht : ticksPerUnit.toNat < 2 ^ 53) (hn : n < 2 ^ 50) :
    (toUint64At (nearest (n / ticksPerUnit.toNat)) ticksPerUnit).toNat
      = ticksRead n ticksPerUnit.toNat :=
  toUint64_nearest h ht hn

/-! ## The keys entries are stored under -/

section Book

open Fix Core Core.OrderBook

/-- An entry of a message of the order queue, an increment's with the flag the
book is updated under. -/
inductive BookEntry (δ : Type) where
  | snapshot (g : SnapshotEntry δ)
  | increment (isBookClearNeeded : Bool) (g : IncrementEntry δ)

namespace BookEntry

variable {δ : Type} (toUint64 : δ → UInt64 → UInt64)

/-- The price of an entry. -/
def px : BookEntry δ → Option (FieldBase δ)
  | snapshot g => g.mdEntryPx
  | increment _ g => g.mdEntryPx

/-- The operations of an entry on a side. -/
def ops (side : BookSide) : BookEntry δ → List (KeyOp UInt64 UInt64)
  | snapshot g => snapshotOps toUint64 side g
  | increment clear g => incrementOps toUint64 clear side g

/-- **An entry is stored under a key** of the map of a side. -/
def StoredUnder (side : BookSide) (key : UInt64) (e : BookEntry δ) : Prop :=
  ∃ sz, KeyOp.set key sz ∈ e.ops toUint64 side

/-- An entry is stored under the ticks of its price. -/
theorem StoredUnder.eq_priceTicks {side : BookSide} {key : UInt64} {e : BookEntry δ} {px : δ}
    (h : e.StoredUnder toUint64 side key) (hpx : e.px = some (.ok px)) :
    key = priceTicks toUint64 px := by
  obtain ⟨sz, hmem⟩ := h
  cases e with
  | snapshot g =>
    obtain ⟨px', size, -, hpx', -, hkey, -⟩ := set_mem_snapshotOps_iff.mp hmem
    obtain rfl := Except.ok.inj (Option.some.inj (hpx.symm.trans hpx'))
    exact hkey
  | increment clear g =>
    obtain ⟨act, px', size, -, -, -, hpx', -, hkey, -⟩ := set_mem_incrementOps_iff.mp hmem
    obtain rfl := Except.ok.inj (Option.some.inj (hpx.symm.trans hpx'))
    exact hkey

end BookEntry

/-- Every scale of `Config` is below what a double holds exactly. -/
theorem config_lt (sym : SymbolEnum) :
    (Config.getPriceTicksPerUnit sym).toNat < 2 ^ 53
      ∧ (Config.getSizeTicksPerUnit sym).toNat < 2 ^ 53 := by
  cases sym <;> decide

/-- The ticks that are read of a price of `BTCUSDT`. -/
theorem toNat_priceTicks {n : ℕ} (hn : n < 2 ^ 50) :
    (priceTicks toUint64At (nearest (n / 100))).toNat = ticksRead n 100 := by
  have h := toUint64At_nearest (isScale_config .btcusdt).1 (config_lt .btcusdt).1 hn
  rw [show (Config.getPriceTicksPerUnit .btcusdt).toNat = 100 from rfl, Nat.cast_ofNat] at h
  exact h

/-- The ticks that are read of a size of `BTCUSDT`. -/
theorem toNat_sizeTicks {n : ℕ} (hn : n < 2 ^ 50) :
    (sizeTicks toUint64At (nearest (n / 100000))).toNat = ticksRead n 100000 := by
  have h := toUint64At_nearest (isScale_config .btcusdt).2 (config_lt .btcusdt).2 hn
  rw [show (Config.getSizeTicksPerUnit .btcusdt).toNat = 100000 from rfl, Nat.cast_ofNat] at h
  exact h

/-- **Exactly the ticks that are not lost are exact.** A tick-aligned price or
size is converted to its number of ticks unless it loses one, and entries of
two such prices are stored under one key exactly when the greater price is
the next and loses its tick to the other. -/
theorem ticks_exact_iff {n : ℕ} (hn : n < 2 ^ 50) :
    (∀ sym : SymbolEnum,
      ((Config.priceToTicks (nearest (n / (Config.getPriceTicksPerUnit sym).toNat)) sym).toNat = n
        ↔ ¬ LosesTick n (Config.getPriceTicksPerUnit sym).toNat)
      ∧ ((toUint64At (nearest (n / (Config.getSizeTicksPerUnit sym).toNat))
          (Config.getSizeTicksPerUnit sym)).toNat = n
        ↔ ¬ LosesTick n (Config.getSizeTicksPerUnit sym).toNat))
    ∧ ∀ (m : ℕ) (side : BookSide) (key key' : UInt64) (e e' : BookEntry Binary64),
      n < m → m < 2 ^ 50 →
      e.px = some (.ok (nearest (n / 100))) → e'.px = some (.ok (nearest (m / 100))) →
      e.StoredUnder toUint64At side key → e'.StoredUnder toUint64At side key' →
      (key ≠ key' ↔ ¬ (m = n + 1 ∧ ¬ LosesTick n 100 ∧ LosesTick m 100)) := by
  refine ⟨fun sym => ⟨?_, ?_⟩, fun m side key key' e e' hnm hm hpx hpx' h h' => ?_⟩
  · rw [Config.priceToTicks, toUint64At_nearest (isScale_config sym).1 (config_lt sym).1 hn]
    exact ticksRead_eq_iff
  · rw [toUint64At_nearest (isScale_config sym).2 (config_lt sym).2 hn]
    exact ticksRead_eq_iff
  · rw [h.eq_priceTicks toUint64At hpx, h'.eq_priceTicks toUint64At hpx', ne_eq,
      ← UInt64.toNat_inj, toNat_priceTicks hn, toNat_priceTicks hm,
      ticksRead_eq_ticksRead_iff hnm]

/-- 0.28 keeps its ticks, and a bid at it in a snapshot shares its key with an
added bid at 0.29. -/
theorem ticks_exact_iff_028 :
    (Config.priceToTicks (nearest (28 / 100)) .btcusdt).toNat = 28
      ∧ ∀ (key key' : UInt64) (sz : Binary64),
        (BookEntry.snapshot { mdEntryType := some (.ok '0')
                              mdEntryPx := some (.ok (nearest (28 / 100)))
                              mdEntrySize := some (.ok sz) }).StoredUnder toUint64At .bid key →
        (BookEntry.increment false { mdEntryType := some (.ok '0')
                                     mdUpdateAction := some (.ok '0')
                                     mdEntryPx := some (.ok (nearest (29 / 100)))
                                     mdEntrySize := some (.ok sz) }).StoredUnder toUint64At
          .bid key' →
        key = key' := by
  obtain ⟨hexact, hkeys⟩ := ticks_exact_iff (n := 28) (by norm_num)
  have hprice := (hexact .btcusdt).1.mpr (by decide +kernel)
  have hscale : (Config.getPriceTicksPerUnit .btcusdt).toNat = 100 := rfl
  rw [hscale, Nat.cast_ofNat, Nat.cast_ofNat] at hprice
  refine ⟨hprice, fun key key' sz h h' => ?_⟩
  by_contra hne
  refine (hkeys 29 .bid key key' _ _ (by norm_num) (by norm_num) ?_ ?_ h h').mp hne
    (by decide +kernel)
  · rw [Nat.cast_ofNat]
    rfl
  · rw [Nat.cast_ofNat]
    rfl

/-- A bid of a snapshot. -/
def bidEntry {δ : Type} (px sz : δ) : SnapshotEntry δ where
  mdEntryType := some (.ok mdEntryTypeBid)
  mdEntryPx := some (.ok px)
  mdEntrySize := some (.ok sz)

/-- The bids that a snapshot of two of them leaves. -/
theorem levels_of_two_bids {δ : Type} (toUint64 : δ → UInt64 → UInt64) (px px' sz sz' : δ) :
    ∃ b', (applySnapshot toUint64 (.ofGroups "BTCUSDT".toList
        [bidEntry px sz, bidEntry px' sz'])).run empty = .ok () b'
      ∧ b'.levels .bid
        = (mapRun [.set (priceTicks toUint64 px) (sizeTicks toUint64 sz),
            .set (priceTicks toUint64 px') (sizeTicks toUint64 sz')]
          (∅ : BtreeMap greater)).toList :=
  ⟨_, rfl, rfl⟩

/-- A price of 0.29 is read as 28 ticks, and its bid overwrites the bid at 0.28
of the same snapshot. -/
theorem price_029_loses_tick :
    (Config.priceToTicks (nearest (29 / 100)) .btcusdt).toNat = 28
    ∧ (∃ b', (applySnapshot toUint64At (.ofGroups "BTCUSDT".toList
          [bidEntry (nearest (28 / 100)) (nearest (1 / 100000)),
            bidEntry (nearest (29 / 100)) (nearest (2 / 100000))])).run empty = .ok () b'
      ∧ b'.levels .bid = [(28, 2)])
    ∧ ¬ ∀ n : ℕ, n < 2 ^ 50 → (toUint64At (nearest (n / 100)) 100).toNat = n := by
  have hpx : ∀ n : ℕ, n < 2 ^ 50 → ∀ k : UInt64, ticksRead n 100 = k.toNat →
      priceTicks toUint64At (nearest (n / 100)) = k :=
    fun n hn k hk => UInt64.toNat.inj ((toNat_priceTicks hn).trans hk)
  have hsz : ∀ n : ℕ, n < 2 ^ 50 → ∀ k : UInt64, ticksRead n 100000 = k.toNat →
      sizeTicks toUint64At (nearest (n / 100000)) = k :=
    fun n hn k hk => UInt64.toNat.inj ((toNat_sizeTicks hn).trans hk)
  have h28 := hpx 28 (by norm_num) 28 (by decide +kernel)
  have h29 := hpx 29 (by norm_num) 28 (by decide +kernel)
  have h2 := hsz 2 (by norm_num) 2 (by decide +kernel)
  have h1 := hsz 1 (by norm_num) 1 (by decide +kernel)
  obtain ⟨b', hrun, hlevels⟩ := levels_of_two_bids toUint64At (nearest (28 / 100))
    (nearest (29 / 100)) (nearest (1 / 100000)) (nearest (2 / 100000))
  rw [Nat.cast_ofNat] at h28 h29 h2
  rw [Nat.cast_one] at h1
  refine ⟨congrArg UInt64.toNat h29, ⟨b', hrun, ?_⟩, fun hall => ?_⟩
  · rw [hlevels, h28, h29, h1, h2]
    rfl
  · have hcontra := (toNat_priceTicks (n := 29) (by norm_num)).symm.trans
      (hall 29 (by norm_num))
    exact absurd hcontra (by decide +kernel)

end Book

end TickConversion
