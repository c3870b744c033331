import Mathlib.Data.Int.Log
import Mathlib.Algebra.Order.Floor.Ring
import Mathlib.Algebra.Order.Field.Power
import Mathlib.Algebra.Ring.Int.Parity
import Mathlib.Tactic.Positivity
import Mathlib.Tactic.Linarith
import Mathlib.Tactic.Ring

set_option autoImplicit false

/-!
# Rounding to a number of significant bits

Rounding to the nearest integer, ties to the even one (`halfEven`), and the
rounding of a number to `p` significant bits that comes of it (`toSig`): the
number is scaled by the power of two that leaves it `p` bits in front of the
point, rounded there, and scaled back.

Nothing bounds the exponent, so there is neither overflow nor gradual
underflow here. What one rounds to is representable in `p` bits
(`representable_toSig`), and nothing representable in `p` bits is nearer
(`toSig_nearest`).
-/

namespace Rounding

variable {K : Type*} [Field K] [LinearOrder K] [IsStrictOrderedRing K] [FloorRing K]

/-! ## To the nearest integer -/

/-- The nearest integer, the even one of two equally near. -/
def halfEven (x : K) : ℤ :=
  if Int.fract x < 1 / 2 then ⌊x⌋
  else if 1 / 2 < Int.fract x then ⌊x⌋ + 1
  else if Even ⌊x⌋ then ⌊x⌋ else ⌊x⌋ + 1

/-- An integer nearer than a half is the one rounded to. -/
theorem halfEven_eq_of_abs_lt {x : K} {m : ℤ} (h : |x - m| < 1 / 2) : halfEven x = m := by
  obtain ⟨hlo, hhi⟩ := abs_lt.mp h
  unfold halfEven
  rcases le_or_gt (m : K) x with hm | hm
  · have hfloor : ⌊x⌋ = m := Int.floor_eq_iff.mpr ⟨hm, by linarith⟩
    rw [← Int.self_sub_floor, hfloor, if_pos hhi]
  · have hfloor : ⌊x⌋ = m - 1 :=
      Int.floor_eq_iff.mpr ⟨by push_cast; linarith, by push_cast; linarith⟩
    have hfract : 1 / 2 < Int.fract x := by
      rw [← Int.self_sub_floor, hfloor]
      push_cast
      linarith
    rw [if_neg hfract.not_gt, if_pos hfract, hfloor, sub_add_cancel]

/-- An even integer no farther than a half is the one rounded to. -/
theorem halfEven_eq_of_even {x : K} {m : ℤ} (hm : Even m) (h : |x - m| ≤ 1 / 2) :
    halfEven x = m := by
  rcases h.lt_or_eq with hlt | htie
  · exact halfEven_eq_of_abs_lt hlt
  -- at a midpoint, on either side of `m`
  unfold halfEven
  rcases (abs_eq (by norm_num)).mp htie with hx | hx
  · have hfloor : ⌊x⌋ = m := Int.floor_eq_iff.mpr ⟨by linarith, by linarith⟩
    rw [← Int.self_sub_floor, hfloor, hx, if_neg (lt_irrefl _), if_neg (lt_irrefl _),
      if_pos hm]
  · have hfloor : ⌊x⌋ = m - 1 :=
      Int.floor_eq_iff.mpr ⟨by push_cast; linarith, by push_cast; linarith⟩
    have hfract : Int.fract x = 1 / 2 := by
      rw [← Int.self_sub_floor, hfloor]
      push_cast
      linarith
    rw [hfract, if_neg (lt_irrefl _), if_neg (lt_irrefl _), hfloor,
      if_neg (Int.not_even_iff_odd.mpr (hm.sub_odd odd_one)), sub_add_cancel]

/-- Rounding moves a number by a half at most. -/
theorem abs_halfEven_sub_le (x : K) : |(halfEven x : K) - x| ≤ 1 / 2 := by
  have hx := Int.self_sub_floor x
  have hlo := Int.fract_nonneg x
  have hhi := Int.fract_lt_one x
  unfold halfEven
  split_ifs <;> push_cast <;> rw [abs_le] <;> constructor <;> linarith

/-- A number midway between two integers is rounded to the even one. -/
theorem even_halfEven_of_tie {x : K} (h : |(halfEven x : K) - x| = 1 / 2) :
    Even (halfEven x) := by
  have hx := Int.self_sub_floor x
  have hlo := Int.fract_nonneg x
  have hhi := Int.fract_lt_one x
  unfold halfEven at h ⊢
  split_ifs at h ⊢ with hbelow habove heven
  · have hlt : |(⌊x⌋ : K) - x| < 1 / 2 := abs_lt.mpr ⟨by linarith, by linarith⟩
    exact absurd h hlt.ne
  · have hlt : |((⌊x⌋ + 1 : ℤ) : K) - x| < 1 / 2 := by
      rw [abs_lt]
      push_cast
      constructor <;> linarith
    exact absurd h hlt.ne
  · exact heven
  · exact Int.even_add_one.mpr heven

/-- **Rounding is symmetric** about zero. -/
theorem halfEven_neg (x : K) : halfEven (-x) = -halfEven x := by
  have hdist : |-x - ((-halfEven x : ℤ) : K)| = |(halfEven x : K) - x| := by
    rw [Int.cast_neg, sub_neg_eq_add, neg_add_eq_sub]
  rcases (abs_halfEven_sub_le x).lt_or_eq with hlt | htie
  · exact halfEven_eq_of_abs_lt (hdist ▸ hlt)
  · exact halfEven_eq_of_even (even_halfEven_of_tie htie).neg (hdist ▸ htie.le)

/-- Below an even integer is where a number farther than a half is rounded to. -/
theorem halfEven_lt_iff_of_even {m : ℤ} (hm : Even m) (x : K) :
    halfEven (m + x) < m ↔ x < -(1 / 2) := by
  obtain ⟨hlo, hhi⟩ := abs_le.mp (abs_halfEven_sub_le (m + x))
  constructor
  · intro h
    by_contra hx
    rw [not_lt] at hx
    rcases le_or_gt x (1 / 2) with hle | hgt
    · have heq : halfEven (m + x) = m :=
        halfEven_eq_of_even hm (by rw [add_sub_cancel_left, abs_le]; exact ⟨hx, hle⟩)
      exact h.ne heq
    · have hlt : (halfEven (m + x) : K) < m := Int.cast_lt.mpr h
      linarith
  · intro h
    have hlt : (halfEven (m + x) : K) < m := by linarith
    exact Int.cast_lt.mp hlt

/-- **Rounding near an even integer**: away from it only past a half. -/
theorem halfEven_even_add {m : ℤ} (hm : Even m) {x : K} (hx : |x| < 1) :
    halfEven (m + x) = m + if x < -(1 / 2) then -1 else if 1 / 2 < x then 1 else 0 := by
  obtain ⟨hlo, hhi⟩ := abs_lt.mp hx
  split_ifs with hbelow habove
  · refine halfEven_eq_of_abs_lt ?_
    push_cast
    rw [add_sub_add_left_eq_sub, abs_lt]
    constructor <;> linarith
  · refine halfEven_eq_of_abs_lt ?_
    push_cast
    rw [add_sub_add_left_eq_sub, abs_lt]
    constructor <;> linarith
  · rw [add_zero]
    refine halfEven_eq_of_even hm ?_
    rw [add_sub_cancel_left, abs_le]
    constructor <;> linarith

@[simp] theorem halfEven_intCast (m : ℤ) : halfEven (m : K) = m :=
  halfEven_eq_of_abs_lt (by rw [sub_self, abs_zero]; norm_num)

/-- **No integer is nearer** than the one rounded to. -/
theorem halfEven_nearest (x : K) (m : ℤ) : |(halfEven x : K) - x| ≤ |(m : K) - x| := by
  rcases lt_or_ge |(m : K) - x| (1 / 2) with h | h
  · rw [halfEven_eq_of_abs_lt (m := m) (by rwa [abs_sub_comm])]
  · exact (abs_halfEven_sub_le x).trans h

/-- An integer between a number and zero bounds the error of rounding. -/
theorem abs_halfEven_sub_le_of_le {x : K} {m : ℤ} (h : (m : K) ≤ |x|) :
    |(halfEven x : K) - x| ≤ |x| - m := by
  rcases le_total 0 x with hx | hx
  · rw [abs_of_nonneg hx] at h ⊢
    have hnear := halfEven_nearest x m
    rwa [abs_sub_comm (m : K), abs_of_nonneg (sub_nonneg.mpr h)] at hnear
  · rw [abs_of_nonpos hx] at h ⊢
    have hnear := halfEven_nearest x (-m)
    have hdist : |((-m : ℤ) : K) - x| = -x - m := by
      rw [Int.cast_neg, neg_sub_comm]
      exact abs_of_nonneg (sub_nonneg.mpr h)
    rwa [hdist] at hnear

/-- **Rounding a quotient goes by the remainder**, away from midpoints. -/
theorem halfEven_div (a : ℕ) {b : ℕ} (hb : 0 < b) (htie : 2 * (a % b) ≠ b) :
    halfEven ((a : K) / b) * b
      = a + if 2 * (a % b) < b then -((a % b : ℕ) : ℤ) else b - (a % b : ℕ) := by
  have hbK : (0 : K) < b := Nat.cast_pos.mpr hb
  have hmod : a % b < b := Nat.mod_lt a hb
  have hdiv : (a : K) = b * (a / b : ℕ) + (a % b : ℕ) := by
    exact_mod_cast (Nat.div_add_mod a b).symm
  have hquot : (a : K) / b - (a / b : ℕ) = (a % b : ℕ) / b := by
    rw [hdiv, add_div, mul_div_cancel_left₀ _ hbK.ne', add_sub_cancel_left]
  have hint : (a : ℤ) = b * (a / b : ℕ) + (a % b : ℕ) := by
    exact_mod_cast (Nat.div_add_mod a b).symm
  split_ifs with h
  · have hround : halfEven ((a : K) / b) = (a / b : ℕ) := by
      refine halfEven_eq_of_abs_lt ?_
      rw [Int.cast_natCast, hquot, abs_of_nonneg (by positivity), div_lt_div_iff₀ hbK two_pos]
      exact_mod_cast (by omega : a % b * 2 < 1 * b)
    rw [hround, hint]
    ring
  · have hround : halfEven ((a : K) / b) = (a / b : ℕ) + 1 := by
      refine halfEven_eq_of_abs_lt ?_
      have hgt : 1 / 2 < ((a % b : ℕ) : K) / b := by
        rw [div_lt_div_iff₀ two_pos hbK]
        exact_mod_cast (by omega : 1 * b < a % b * 2)
      have hlt : ((a % b : ℕ) : K) / b < 1 := by
        rw [div_lt_one hbK]
        exact_mod_cast hmod
      rw [Int.cast_add, Int.cast_one, Int.cast_natCast, ← sub_sub, hquot, abs_lt]
      constructor <;> linarith
    rw [hround, hint]
    ring

/-! ## To `p` significant bits -/

/-- The power of two that leaves a number `p` bits in front of the point. -/
def sigShift (p : ℕ) (x : K) : ℤ := p - 1 - Int.log 2 |x|

/-- The nearest number of `p` significant bits, ties to an even last bit. -/
def toSig (p : ℕ) (x : K) : K := halfEven (x * 2 ^ sigShift p x) / 2 ^ sigShift p x

/-- A number of at most `p` significant bits. -/
def Representable (p : ℕ) (v : K) : Prop := ∃ m e : ℤ, |m| < 2 ^ p ∧ v = m * 2 ^ e

omit [LinearOrder K] [IsStrictOrderedRing K] [FloorRing K] in
theorem representable_zero (p : ℕ) : Representable p (0 : K) :=
  ⟨0, 0, by rw [abs_zero]; positivity, by rw [Int.cast_zero, zero_mul]⟩

omit [LinearOrder K] [IsStrictOrderedRing K] [FloorRing K] in
/-- So is a power of two. -/
theorem representable_two_zpow {p : ℕ} (hp : 0 < p) (e : ℤ) : Representable p ((2 : K) ^ e) :=
  ⟨1, e, by rw [abs_one]; exact one_lt_pow₀ one_lt_two hp.ne', by rw [Int.cast_one, one_mul]⟩

/-- A scaled number has its `p` bits in front of the point. -/
theorem abs_mul_sigShift_bounds (p : ℕ) {x : K} (hx : x ≠ 0) :
    2 ^ ((p : ℤ) - 1) ≤ |x| * 2 ^ sigShift p x ∧ |x| * 2 ^ sigShift p x < 2 ^ (p : ℤ) := by
  have hpos : (0 : K) < 2 ^ sigShift p x := by positivity
  have hlo : (2 : K) ^ Int.log 2 |x| ≤ |x| := by
    exact_mod_cast Int.zpow_log_le_self one_lt_two (abs_pos.mpr hx)
  have hhi : |x| < (2 : K) ^ (Int.log 2 |x| + 1) := by
    exact_mod_cast Int.lt_zpow_succ_log_self one_lt_two |x|
  constructor
  · calc (2 : K) ^ ((p : ℤ) - 1) = 2 ^ Int.log 2 |x| * 2 ^ sigShift p x := by
          rw [← zpow_add₀ two_ne_zero, sigShift]
          congr 1
          ring
      _ ≤ |x| * 2 ^ sigShift p x := mul_le_mul_of_nonneg_right hlo hpos.le
  · calc |x| * 2 ^ sigShift p x < 2 ^ (Int.log 2 |x| + 1) * 2 ^ sigShift p x :=
          mul_lt_mul_of_pos_right hhi hpos
      _ = 2 ^ (p : ℤ) := by
          rw [← zpow_add₀ two_ne_zero, sigShift]
          congr 1
          ring

/-- Only one power of two leaves `p` bits in front of the point. -/
theorem sigShift_eq {p : ℕ} {x : K} {s : ℤ} (hlo : 2 ^ ((p : ℤ) - 1) ≤ |x| * 2 ^ s)
    (hhi : |x| * 2 ^ s < 2 ^ (p : ℤ)) : sigShift p x = s := by
  have hpos : (0 : K) < 2 ^ s := by positivity
  have hx : 0 < |x| :=
    (mul_pos_iff_of_pos_right hpos).mp (lt_of_lt_of_le (by positivity) hlo)
  have hle : ((2 : ℕ) : K) ^ ((p : ℤ) - 1 - s) ≤ |x| := by
    rw [Nat.cast_ofNat, zpow_sub₀ two_ne_zero]
    exact (div_le_iff₀ hpos).mpr hlo
  have hlt : |x| < ((2 : ℕ) : K) ^ ((p : ℤ) - s) := by
    rw [Nat.cast_ofNat, zpow_sub₀ two_ne_zero]
    exact (lt_div_iff₀ hpos).mpr hhi
  rw [Int.zpow_le_iff_le_log one_lt_two hx] at hle
  rw [Int.lt_zpow_iff_log_lt one_lt_two hx] at hlt
  unfold sigShift
  omega

/-- **What a number with `p + 1` bits in front of the point after scaling is
rounded to.** -/
theorem toSig_eq {p : ℕ} {x : K} {s : ℕ} (hlo : 2 ^ p ≤ x * 2 ^ s)
    (hhi : x * 2 ^ s < 2 ^ (p + 1)) : toSig (p + 1) x = halfEven (x * 2 ^ s) / 2 ^ s := by
  have hpos : (0 : K) < 2 ^ s := by positivity
  have hx : 0 < x :=
    (mul_pos_iff_of_pos_right hpos).mp (lt_of_lt_of_le (by positivity) hlo)
  have hs : sigShift (p + 1) x = s := by
    refine sigShift_eq ?_ ?_
    · rw [abs_of_pos hx, Nat.cast_succ, add_sub_cancel_right, zpow_natCast, zpow_natCast]
      exact hlo
    · rw [abs_of_pos hx, zpow_natCast, zpow_natCast]
      exact hhi
  rw [toSig, hs, zpow_natCast]

@[simp] theorem toSig_zero (p : ℕ) : toSig p (0 : K) = 0 := by
  have h : halfEven (0 : K) = 0 := by exact_mod_cast halfEven_intCast (K := K) 0
  rw [toSig, zero_mul, h, Int.cast_zero, zero_div]

/-- **A rounded number is representable.** -/
theorem representable_toSig {p : ℕ} (hp : 0 < p) (x : K) : Representable p (toSig p x) := by
  rcases eq_or_ne x 0 with rfl | hx
  · rw [toSig_zero]
    exact representable_zero p
  obtain ⟨-, hhi⟩ := abs_mul_sigShift_bounds p hx
  have hpos : (0 : K) < 2 ^ sigShift p x := by positivity
  -- the scaled number is below `2 ^ p`, so what it is rounded to is at most that
  have hle : |halfEven (x * 2 ^ sigShift p x)| ≤ 2 ^ p := by
    have hnear := abs_halfEven_sub_le (x * 2 ^ sigShift p x)
    have habs : |x * 2 ^ sigShift p x| < 2 ^ p := by
      rw [abs_mul, abs_of_pos hpos, ← zpow_natCast]
      exact hhi
    have hsum := abs_sub_abs_le_abs_sub ((halfEven (x * 2 ^ sigShift p x) : ℤ) : K)
      (x * 2 ^ sigShift p x)
    have hlt : ((|halfEven (x * 2 ^ sigShift p x)| : ℤ) : K) < ((2 ^ p + 1 : ℤ) : K) := by
      push_cast
      linarith
    exact Int.lt_add_one_iff.mp (Int.cast_lt.mp hlt)
  rcases hle.lt_or_eq with hlt | heq
  · exact ⟨_, -sigShift p x, hlt, by rw [toSig, zpow_neg, div_eq_mul_inv]⟩
  -- at `2 ^ p` itself, one bit and a greater exponent
  · have hone : |(1 : ℤ)| < 2 ^ p := by
      rw [abs_one]
      exact one_lt_pow₀ one_lt_two hp.ne'
    rcases (abs_eq (by positivity)).mp heq with h | h
    · refine ⟨1, p - sigShift p x, hone, ?_⟩
      rw [toSig, h, zpow_sub₀ two_ne_zero]
      push_cast
      rw [zpow_natCast, one_mul]
    · refine ⟨-1, p - sigShift p x, by rwa [abs_neg], ?_⟩
      rw [toSig, h, zpow_sub₀ two_ne_zero]
      push_cast
      rw [zpow_natCast, neg_one_mul, neg_div]

/-- A representable number of the magnitude of a scaled number, or greater,
is an integer at that scale. -/
theorem Representable.exists_int {p : ℕ} {v : K} (hv : Representable p v) {s : ℤ}
    (h : 2 ^ ((p : ℤ) - 1) ≤ |v| * 2 ^ s) : ∃ j : ℤ, v * 2 ^ s = j := by
  obtain ⟨m, e, hm, rfl⟩ := hv
  have hpos : (0 : K) < 2 ^ e := by positivity
  have hmK : |(m : K)| < 2 ^ (p : ℤ) := by
    rw [zpow_natCast]
    exact_mod_cast hm
  rw [abs_mul, abs_of_pos hpos, mul_assoc, ← zpow_add₀ two_ne_zero] at h
  have hes : (2 : K) ^ ((p : ℤ) - 1) < 2 ^ ((p : ℤ) + (e + s)) := by
    rw [zpow_add₀ two_ne_zero (p : ℤ)]
    exact h.trans_lt (mul_lt_mul_of_pos_right hmK (by positivity))
  have hnn : 0 ≤ e + s := by
    have := (zpow_lt_zpow_iff_right₀ (one_lt_two (α := K))).mp hes
    omega
  refine ⟨m * 2 ^ (e + s).toNat, ?_⟩
  rw [mul_assoc, ← zpow_add₀ two_ne_zero]
  push_cast
  rw [← zpow_natCast, Int.toNat_of_nonneg hnn]

/-- A representable number too large for its last bit to count ones is an even
integer. -/
theorem Representable.exists_even {p : ℕ} {v : K} (hv : Representable p v)
    (h : 2 ^ p ≤ |v|) : ∃ j : ℤ, v = 2 * j := by
  have hbig : (2 : K) ^ ((p : ℤ) - 1) ≤ |v| * 2 ^ (-1 : ℤ) := by
    rw [zpow_sub_one₀ two_ne_zero, zpow_natCast, zpow_neg_one]
    exact mul_le_mul_of_nonneg_right h (by positivity)
  obtain ⟨j, hj⟩ := hv.exists_int hbig
  refine ⟨j, ?_⟩
  rw [← hj, zpow_neg_one, mul_comm v, mul_inv_cancel_left₀ two_ne_zero]

/-- **Nothing representable is nearer** than what a number is rounded to. -/
theorem toSig_nearest {p : ℕ} {v : K} (hp : 0 < p) (hv : Representable p v) (x : K) :
    |toSig p x - x| ≤ |v - x| := by
  rcases eq_or_ne x 0 with rfl | hx
  · rw [toSig_zero, sub_zero, abs_zero]
    exact abs_nonneg _
  obtain ⟨hlo, -⟩ := abs_mul_sigShift_bounds p hx
  have hpos : (0 : K) < 2 ^ sigShift p x := by positivity
  have hscale : ∀ w : K, |w - x| * 2 ^ sigShift p x
      = |w * 2 ^ sigShift p x - x * 2 ^ sigShift p x| := by
    intro w
    rw [← sub_mul, abs_mul, abs_of_pos hpos]
  refine le_of_mul_le_mul_right ?_ hpos
  rw [hscale, hscale, toSig, div_mul_cancel₀ _ hpos.ne']
  rcases le_or_gt (2 ^ ((p : ℤ) - 1)) (|v| * 2 ^ sigShift p x) with hbig | hsmall
  · obtain ⟨j, hj⟩ := hv.exists_int hbig
    rw [hj]
    exact halfEven_nearest _ j
  -- a number of a smaller magnitude is beyond the least of this one
  · obtain ⟨k, rfl⟩ : ∃ k, p = k + 1 := ⟨p - 1, by omega⟩
    have hpow : (2 : K) ^ (((k + 1 : ℕ) : ℤ) - 1) = ((2 ^ k : ℤ) : K) := by
      rw [Nat.cast_succ, add_sub_cancel_right, zpow_natCast]
      push_cast
      rfl
    have habs : ∀ w : K, |w * 2 ^ sigShift (k + 1) x| = |w| * 2 ^ sigShift (k + 1) x := by
      intro w
      rw [abs_mul, abs_of_pos hpos]
    rw [hpow, ← habs] at hlo hsmall
    calc |(halfEven (x * 2 ^ sigShift (k + 1) x) : K) - x * 2 ^ sigShift (k + 1) x|
        ≤ |x * 2 ^ sigShift (k + 1) x| - ((2 ^ k : ℤ) : K) := abs_halfEven_sub_le_of_le hlo
      _ ≤ |x * 2 ^ sigShift (k + 1) x| - |v * 2 ^ sigShift (k + 1) x| :=
          sub_le_sub_left hsmall.le _
      _ ≤ |v * 2 ^ sigShift (k + 1) x - x * 2 ^ sigShift (k + 1) x| := by
          rw [abs_sub_comm]
          exact abs_sub_abs_le_abs_sub _ _

/-- Rounding does not cross a representable number below, -/
theorem le_toSig {p : ℕ} {v x : K} (hp : 0 < p) (hv : Representable p v) (h : v ≤ x) :
    v ≤ toSig p x := by
  have hnear := toSig_nearest hp hv x
  rw [abs_sub_comm v x, abs_of_nonneg (sub_nonneg.mpr h)] at hnear
  have hlo := neg_le_of_abs_le hnear
  linarith

/-- nor one above. -/
theorem toSig_le {p : ℕ} {v x : K} (hp : 0 < p) (hv : Representable p v) (h : x ≤ v) :
    toSig p x ≤ v := by
  have hnear := toSig_nearest hp hv x
  rw [abs_of_nonneg (sub_nonneg.mpr h)] at hnear
  have hhi := le_of_abs_le hnear
  linarith

/-- A representable number is left as it is. -/
theorem toSig_of_representable {p : ℕ} {v : K} (hp : 0 < p) (hv : Representable p v) :
    toSig p v = v := by
  have h := toSig_nearest hp hv v
  rw [sub_self, abs_zero] at h
  exact sub_eq_zero.mp (abs_nonpos_iff.mp h)

omit [FloorRing K] in
/-- A number nearer to `u` than to a smaller one is past the middle of the two, -/
theorem add_le_two_mul_of_nearer {u w x : K} (hwu : w < u) (h : |u - x| ≤ |w - x|) :
    u + w ≤ 2 * x := by
  by_contra hmid
  rw [not_le] at hmid
  have hsum : |w - x| < u - x := abs_lt.mpr ⟨by linarith, by linarith⟩
  exact absurd (h.trans_lt hsum) (le_abs_self _).not_gt

omit [FloorRing K] in
/-- and one nearer to `w` than to a greater one is before it. -/
theorem two_mul_le_add_of_nearer {u w x : K} (hwu : w < u) (h : |w - x| ≤ |u - x|) :
    2 * x ≤ u + w := by
  by_contra hmid
  rw [not_le] at hmid
  have hsum : |u - x| < x - w := abs_lt.mpr ⟨by linarith, by linarith⟩
  have hle := neg_abs_le (w - x)
  linarith

/-- **Rounding is monotone.** Were the lesser number rounded to the greater
one, it would be past the middle of the two and the greater number before it,
so the two would be one number, with one rounding. -/
theorem toSig_mono {p : ℕ} (hp : 0 < p) {x y : K} (h : x ≤ y) : toSig p x ≤ toSig p y := by
  by_contra hlt
  rw [not_le] at hlt
  have hx := add_le_two_mul_of_nearer hlt (toSig_nearest hp (representable_toSig hp y) x)
  have hy := two_mul_le_add_of_nearer hlt (toSig_nearest hp (representable_toSig hp x) y)
  obtain rfl : x = y := by linarith
  exact lt_irrefl _ hlt

/-- Rounding to significant bits is symmetric about zero, too. -/
theorem toSig_neg (p : ℕ) (x : K) : toSig p (-x) = -toSig p x := by
  have hshift : sigShift p (-x) = sigShift p x := by rw [sigShift, abs_neg, sigShift]
  rw [toSig, hshift, neg_mul, halfEven_neg, Int.cast_neg, neg_div, toSig]

/-- The last half of the gap below a power of two is rounded to it. -/
theorem toSig_eq_two_zpow {p : ℕ} (hp : 0 < p) {e : ℤ} {x : K}
    (hlo : 2 ^ e - 2 ^ (e - p - 1) ≤ x) (hhi : x < 2 ^ e) : toSig p x = 2 ^ e := by
  have hscale : (0 : K) < 2 ^ ((p : ℤ) - e) := by positivity
  have htop : (2 : K) ^ e * 2 ^ ((p : ℤ) - e) = 2 ^ p := by
    rw [← zpow_add₀ two_ne_zero, add_sub_cancel, zpow_natCast]
  have hhalf : (2 : K) ^ (e - p - 1) * 2 ^ ((p : ℤ) - e) = 1 / 2 := by
    rw [← zpow_add₀ two_ne_zero, show e - p - 1 + ((p : ℤ) - e) = -1 by ring, zpow_neg_one]
    norm_num
  -- scaled, the number is less than a half below `2 ^ p`
  have hlo' : 2 ^ p - 1 / 2 ≤ x * 2 ^ ((p : ℤ) - e) := by
    rw [← htop, ← hhalf, ← sub_mul]
    exact mul_le_mul_of_nonneg_right hlo hscale.le
  have hhi' : x * 2 ^ ((p : ℤ) - e) < 2 ^ p := by
    rw [← htop]
    exact mul_lt_mul_of_pos_right hhi hscale
  have hone : (1 : K) ≤ 2 ^ ((p : ℤ) - 1) := one_le_zpow₀ one_le_two (by omega)
  have htwo : (2 : K) ^ p = 2 * 2 ^ ((p : ℤ) - 1) := by
    rw [← zpow_one_add₀ two_ne_zero, add_sub_cancel, zpow_natCast]
  have hx : 0 < x := (mul_pos_iff_of_pos_right hscale).mp (by linarith)
  have hshift : sigShift p x = p - e := by
    refine sigShift_eq ?_ ?_
    · rw [abs_of_pos hx]
      linarith
    · rw [abs_of_pos hx, zpow_natCast]
      exact hhi'
  have hround : halfEven (x * 2 ^ ((p : ℤ) - e)) = 2 ^ p := by
    refine halfEven_eq_of_even (even_two.pow_of_ne_zero hp.ne') ?_
    rw [abs_le]
    push_cast
    constructor <;> linarith
  rw [toSig, hshift, hround, div_eq_iff hscale.ne', htop]
  push_cast
  rfl

/-- **What is rounded below a power of two**: the numbers before the middle of
the last gap below it. -/
theorem toSig_lt_two_zpow_iff {p : ℕ} (hp : 0 < p) (e : ℤ) (x : K) :
    toSig p x < 2 ^ e ↔ x < 2 ^ e - 2 ^ (e - p - 1) := by
  have hgap : (2 : K) ^ (e - p) = 2 * 2 ^ (e - p - 1) := by
    rw [← zpow_one_add₀ two_ne_zero]
    congr 1
    ring
  have hpos : (0 : K) < 2 ^ (e - p - 1) := by positivity
  constructor
  · intro hlt
    by_contra hge
    rw [not_lt] at hge
    rcases le_or_gt (2 ^ e) x with hx | hx
    · exact hlt.not_ge (le_toSig hp (representable_two_zpow hp e) hx)
    · exact hlt.ne (toSig_eq_two_zpow hp hge hx)
  · intro hlt
    -- the number of `p` bits just below the power
    have hbelow : Representable p ((2 : K) ^ e - 2 ^ (e - p)) := by
      refine ⟨2 ^ p - 1, e - p, ?_, ?_⟩
      · rw [abs_of_nonneg (sub_nonneg.mpr (one_le_pow₀ one_le_two))]
        exact sub_one_lt _
      · push_cast
        rw [sub_mul, one_mul, ← zpow_natCast, ← zpow_add₀ two_ne_zero, add_sub_cancel]
    rcases le_or_gt x (2 ^ e - 2 ^ (e - p)) with hx | hx
    · have hle := toSig_le hp hbelow hx
      linarith
    · have hnear := toSig_nearest hp hbelow x
      rw [abs_of_neg (sub_neg.mpr hx)] at hnear
      have hhi := le_of_abs_le hnear
      linarith

/-- **The error of rounding**, relative to the number. -/
theorem abs_toSig_sub_le (p : ℕ) (x : K) : |toSig p x - x| ≤ |x| / 2 ^ p := by
  rcases eq_or_ne x 0 with rfl | hx
  · rw [toSig_zero, sub_self, abs_zero, zero_div]
  obtain ⟨hlo, -⟩ := abs_mul_sigShift_bounds p hx
  have hpos : (0 : K) < 2 ^ sigShift p x := by positivity
  have hhalf : (1 : K) / 2 ≤ |x| * 2 ^ sigShift p x / 2 ^ p := by
    rw [le_div_iff₀ (by positivity)]
    refine le_trans (le_of_eq ?_) hlo
    rw [zpow_sub_one₀ two_ne_zero, zpow_natCast]
    ring
  have hnear := abs_halfEven_sub_le (x * 2 ^ sigShift p x)
  refine le_of_mul_le_mul_right ?_ hpos
  calc |toSig p x - x| * 2 ^ sigShift p x
      = |(halfEven (x * 2 ^ sigShift p x) : K) - x * 2 ^ sigShift p x| := by
        rw [← abs_of_pos hpos, ← abs_mul, sub_mul, abs_of_pos hpos, toSig,
          div_mul_cancel₀ _ hpos.ne']
    _ ≤ 1 / 2 := hnear
    _ ≤ |x| * 2 ^ sigShift p x / 2 ^ p := hhalf
    _ = |x| / 2 ^ p * 2 ^ sigShift p x := by ring

end Rounding
