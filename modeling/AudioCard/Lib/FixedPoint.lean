import Mathlib.Algebra.Order.Field.Basic
import Mathlib.Algebra.Order.Ring.Rat
import Mathlib.Data.Rat.Cast.Order
import Mathlib.Tactic.FieldSimp
import Mathlib.Tactic.Linarith
import Mathlib.Tactic.Positivity

/-! Fixed-point numbers, and the bytes they are sent as.

    A natural number `v` stands for the rational `v / scale`. `Encodes` says that it is as close to
    a given number as a format asks for. Between two fractions with a denominator below that
    precision there is no middle ground: they are equal, or too far apart. -/

namespace FixedPoint

/-! ### Bytes -/

/-- The number with the bytes `l`, the least significant one first. -/
def ofBytes : List UInt8 → ℕ
  | [] => 0
  | c :: l => c.toNat + 256 * ofBytes l

/-- The `n` low bytes of `v`, the least significant one first. -/
def toBytes : ℕ → ℕ → List UInt8
  | 0, _ => []
  | n + 1, v => v.toUInt8 :: toBytes n (v / 256)

@[simp] theorem length_toBytes : ∀ n v, (toBytes n v).length = n
  | 0, _ => rfl
  | n + 1, v => by rw [toBytes, List.length_cons, length_toBytes n (v / 256)]

/-- Decoding gives the number back, less the bytes that were dropped. -/
theorem ofBytes_toBytes : ∀ n v, ofBytes (toBytes n v) = v % 256 ^ n
  | 0, v => by rw [pow_zero, Nat.mod_one]; rfl
  | n + 1, v => by
    have hlow : v.toUInt8.toNat = v % 256 := rfl
    rw [toBytes, ofBytes, ofBytes_toBytes n (v / 256), hlow, pow_succ, Nat.mul_comm (256 ^ n),
      Nat.mod_mul]

/-! ### Precision -/

/-- `v`, with `scale` units to one, is `x` up to less than one part in `p`. -/
def Encodes (scale p v : ℕ) (x : ℚ) : Prop := |(v : ℚ) / scale - x| < 1 / p

/-- Two fractions with denominator `D` that differ by less than `1 / p`, where `D ≤ p`, are equal.
    -/
theorem abs_sub_div_lt_iff {m n D p : ℕ} (hD : 0 < D) (hp : D ≤ p) :
    |(m : ℚ) / D - n / D| < 1 / p ↔ m = n := by
  have hD' : (0 : ℚ) < D := Nat.cast_pos.mpr hD
  have hp' : (0 : ℚ) < p := Nat.cast_pos.mpr (lt_of_lt_of_le hD hp)
  rw [← sub_div, abs_div, abs_of_pos hD', div_lt_div_iff₀ hD' hp', one_mul]
  constructor
  · intro h
    by_contra hne
    -- the numerators differ by one at least
    have hone : (1 : ℚ) ≤ |(m : ℚ) - n| := by
      have hint : (1 : ℤ) ≤ |(m : ℤ) - n| :=
        Int.one_le_abs (sub_ne_zero.mpr (by exact_mod_cast hne))
      exact_mod_cast hint
    have hle : (D : ℚ) ≤ p := Nat.cast_le.mpr hp
    have := mul_le_mul_of_nonneg_right hone (le_of_lt hp')
    linarith
  · rintro rfl
    rw [sub_self, abs_zero, zero_mul]
    exact hD'

/-- A number that stands for `m / D` encodes `n / D` to that precision only if it is exact. -/
theorem encodes_iff {scale v m n D p : ℕ} (hscale : 0 < scale) (hD : 0 < D) (hp : D ≤ p)
    (h : v * D = m * scale) : Encodes scale p v ((n : ℚ) / D) ↔ m = n := by
  have hscale' : (scale : ℚ) ≠ 0 := Nat.cast_ne_zero.mpr hscale.ne'
  have hD' : (D : ℚ) ≠ 0 := Nat.cast_ne_zero.mpr hD.ne'
  have hvalue : (v : ℚ) / scale = m / D := by
    rw [div_eq_div_iff hscale' hD']
    exact_mod_cast h
  rw [Encodes, hvalue, abs_sub_div_lt_iff hD hp]

end FixedPoint
