import Mathlib.Algebra.Order.Field.Rat
import Mathlib.Tactic.FieldSimp

/-! The 32-bit floating-point format, from its three fields. -/
namespace Library

structure Binary32 where
  negative : Bool
  exponent : Nat
  fraction : Nat
  exponent_lt : exponent < 256
  fraction_lt : fraction < 8388608
  deriving DecidableEq

namespace Binary32

def sign (f : Binary32) : Nat := if f.negative then 1 else 0

def bits (f : Binary32) : Nat := f.sign * 2147483648 + f.exponent * 8388608 + f.fraction

/-- The last exponent is that of the infinities and of what is no number, the first that of
the numbers without a leading one. -/
def value (f : Binary32) : Option ℚ :=
  if f.exponent = 255 then none
  else
    let magnitude : ℚ :=
      if f.exponent = 0 then f.fraction / 2 ^ 23 * 2 ^ (-126 : ℤ)
      else (1 + f.fraction / 2 ^ 23) * 2 ^ ((f.exponent : ℤ) - 127)
    some (if f.negative then -magnitude else magnitude)

variable (f : Binary32)

theorem sign_le : f.sign ≤ 1 := by
  unfold sign
  split <;> decide

theorem bits_lt : f.bits < 4294967296 := by
  have hsign := f.sign_le
  have hexponent := f.exponent_lt
  have hfraction := f.fraction_lt
  unfold bits
  omega

theorem fraction_bits : f.bits % 8388608 = f.fraction := by
  have hfraction := f.fraction_lt
  unfold bits
  omega

theorem exponent_bits : f.bits / 8388608 % 256 = f.exponent := by
  have hexponent := f.exponent_lt
  have hfraction := f.fraction_lt
  unfold bits
  omega

theorem sign_bits : f.bits / 2147483648 = f.sign := by
  have hexponent := f.exponent_lt
  have hfraction := f.fraction_lt
  unfold bits
  omega

def ofBits (word : Nat) : Binary32 where
  negative := word / 2147483648 % 2 = 1
  exponent := word / 8388608 % 256
  fraction := word % 8388608
  exponent_lt := Nat.mod_lt _ (by decide)
  fraction_lt := Nat.mod_lt _ (by decide)

theorem bits_ofBits {word : Nat} (h : word < 4294967296) : (ofBits word).bits = word := by
  have hsign : (ofBits word).sign = word / 2147483648 := by
    unfold sign ofBits
    dsimp only
    by_cases hnegative : word / 2147483648 % 2 = 1
    · rw [if_pos (decide_eq_true hnegative)]
      omega
    · rw [if_neg (by simpa using hnegative)]
      omega
  rw [bits, hsign]
  change word / 2147483648 * 2147483648 + word / 8388608 % 256 * 8388608 + word % 8388608 = word
  omega

theorem ofBits_bits : ofBits f.bits = f := by
  have hsign : decide (f.bits / 2147483648 % 2 = 1) = f.negative := by
    rw [f.sign_bits, sign]
    cases f.negative <;> rfl
  have hofBits : ofBits f.bits = ⟨decide (f.bits / 2147483648 % 2 = 1),
      f.bits / 8388608 % 256, f.bits % 8388608, Nat.mod_lt _ (by decide), Nat.mod_lt _ (by decide)⟩ :=
    rfl
  rw [hofBits]
  obtain ⟨negative, exponent, fraction, hexponent, hfraction⟩ := f
  simp only [hsign, exponent_bits, fraction_bits]

theorem scaled (exponent fraction : Nat) :
    ((2 ^ 23 + fraction) * 2 ^ exponent / 2 ^ 150 : ℚ) =
      (1 + fraction / 2 ^ 23) * 2 ^ ((exponent : ℤ) - 127) := by
  rw [zpow_sub₀ two_ne_zero, zpow_natCast]
  field_simp

theorem scaled_first (fraction : Nat) :
    (fraction / 2 ^ 149 : ℚ) = fraction / 2 ^ 23 * 2 ^ (-126 : ℤ) := by
  rw [zpow_neg]
  field_simp

end Binary32
end Library
