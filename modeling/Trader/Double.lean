import Mathlib.Data.Rat.Floor
import Trader.Rounding
import Trader.Symbol

set_option autoImplicit false

/-!
# Doubles and ticks

A double is the dyadic rational it denotes, a sum or a product is the exact
one rounded to 53 significant bits, ties to even, and a decimal text is read
as the double nearest to it. The exponent is unbounded: prices and sizes are
nowhere near where a double overflows or loses bits to a small exponent. The
conversion to ticks is translated from `utils::Double::toUint64` on top of
that.
-/

open Rounding

/-- What an integer wraps to. -/
theorem UInt64.natCast_toNat_ofInt (m : ℤ) : ((UInt64.ofInt m).toNat : ℤ) = m % 2 ^ 64 := by
  rw [UInt64.ofInt, UInt64.toNat_ofNat']
  omega

/-- **A `double`**: a rational number of at most 53 significant bits. -/
structure Binary64 where
  /-- The number it denotes. -/
  val : ℚ
  /-- It has a 53-bit significand. -/
  representable : Representable 53 val

namespace Binary64

/-- The double nearest to a number, what a literal or a decimal text is read
as. -/
def nearest (x : ℚ) : Binary64 := ⟨toSig 53 x, representable_toSig (by decide) x⟩

@[simp] theorem val_nearest (x : ℚ) : (nearest x).val = toSig 53 x := rfl

/-- The product of two doubles. -/
def mul (a b : Binary64) : Binary64 := nearest (a.val * b.val)

/-- The quotient of two doubles. -/
def div (a b : Binary64) : Binary64 := nearest (a.val / b.val)

/-- The conversion of a `uint64_t` to a double that a call makes. -/
def ofUInt64 (t : UInt64) : Binary64 := nearest t.toNat

/-- A double holds every number below `2 ^ 53` exactly. -/
theorem val_nearest_natCast {t : ℕ} (ht : t < 2 ^ 53) : (nearest t).val = t := by
  refine toSig_of_representable (by decide) ⟨t, 0, ?_, ?_⟩
  · rw [Nat.abs_cast]
    exact_mod_cast ht
  · rw [zpow_zero, mul_one, Int.cast_natCast]

/-- The integer part of a double, towards zero. -/
def truncate (a : Binary64) : ℤ := if 0 ≤ a.val then ⌊a.val⌋ else ⌈a.val⌉

/-- A double with a non-negative integer part is truncated to it. -/
theorem truncate_of_floor {a : Binary64} {m : ℕ} (h : ⌊a.val⌋ = m) : a.truncate = m := by
  have hnn : 0 ≤ a.val := Int.floor_nonneg.mp (h ▸ Int.natCast_nonneg m)
  rw [truncate, if_pos hnn, h]

/-- Doubles with the same scale keep their order. -/
theorem mul_le_mul {a b t : Binary64} (ht : 0 ≤ t.val) (h : a.val ≤ b.val) :
    (a.mul t).val ≤ (b.mul t).val :=
  toSig_mono (by decide) (mul_le_mul_of_nonneg_right h ht)

/-- A product of non-negative doubles is one. -/
theorem mul_nonneg {a t : Binary64} (ha : 0 ≤ a.val) (ht : 0 ≤ t.val) : 0 ≤ (a.mul t).val :=
  le_toSig (by decide) (representable_zero 53) (by positivity)

/-- A scale is not negative. -/
theorem ofUInt64_nonneg (t : UInt64) : 0 ≤ (ofUInt64 t).val :=
  le_toSig (by decide) (representable_zero 53) (Nat.cast_nonneg _)

end Binary64

namespace Utils.Double

/-- `Double::toUint64`. The conversion of a number out of the range of a
`uint64_t`, which C++ leaves undefined, wraps here. -/
def toUint64 (value ticksPerUnit : Binary64) : UInt64 :=
  let scaled := value.mul ticksPerUnit
  UInt64.ofInt scaled.truncate

/-- The calls of `Double::toUint64` with a scale of `Config`, an integer that
the call converts. -/
def toUint64At (value : Binary64) (ticksPerUnit : UInt64) : UInt64 :=
  toUint64 value (.ofUInt64 ticksPerUnit)

end Utils.Double

/-- `Config::price_to_ticks`. -/
def Binance.Config.priceToTicks (price : Binary64) (symbol : Binance.SymbolEnum) : UInt64 :=
  Utils.Double.toUint64At price (getPriceTicksPerUnit symbol)
