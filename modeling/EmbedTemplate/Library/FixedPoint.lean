import Mathlib.Algebra.Order.Ring.Nat
import Mathlib.Tactic.Ring

/-! # Rates in fixed-point arithmetic

A count in units of `1 / f` is converted to units of `1 / a` by a multiplication with the rate
`a / f`, which is held with `k` binary places. In a register of `w` bits the product wraps.
-/
namespace EmbedTemplate.FixedPoint

/-- The rate `a / f` with `k` binary places, rounded down. -/
def rate (k a f : ℕ) : ℕ := a * 2 ^ k / f

/-- A count times a rate with `k` binary places. -/
def scale (k r count : ℕ) : ℕ := count * r / 2 ^ k

/-- The same in a register of `w` bits. -/
def scaleWrapped (w k r count : ℕ) : ℕ := count * r % 2 ^ w / 2 ^ k

/-- A result with no error but that of a rounded rate: it is not above `count * a / f`, and below by less than one
and a `2 ^ k`th of the count. -/
def Rounded (k a f count result : ℕ) : Prop :=
  result * f ≤ count * a ∧ count * a * 2 ^ k < (result + 1) * 2 ^ k * f + count * f

variable {w k a f r count count' : ℕ}

theorem scale_mono (h : count ≤ count') : scale k r count ≤ scale k r count' :=
  Nat.div_le_div_right (Nat.mul_le_mul_right r h)

theorem scale_lt_iff {b : ℕ} : scale k r count < b ↔ count * r < b * 2 ^ k := Nat.div_lt_iff_lt_mul (Nat.two_pow_pos k)

theorem scaleWrapped_of_lt (h : count * r < 2 ^ w) : scaleWrapped w k r count = scale k r count := by
  unfold scaleWrapped scale
  rw [Nat.mod_eq_of_lt h]

theorem mul_rate_le (k a f : ℕ) : rate k a f * f ≤ a * 2 ^ k := Nat.div_mul_le_self _ _

theorem lt_succ_rate_mul (hf : 0 < f) : a * 2 ^ k < (rate k a f + 1) * f := by
  rw [Nat.mul_comm (_ + 1)]
  exact Nat.lt_mul_div_succ _ hf

/-- Without a wrap, the rounding is the only error. -/
theorem rounded_scale (hf : 0 < f) (count : ℕ) : Rounded k a f count (scale k (rate k a f) count) := by
  have hlow : scale k (rate k a f) count * 2 ^ k ≤ count * rate k a f := Nat.div_mul_le_self _ _
  have hhigh : count * rate k a f < (scale k (rate k a f) count + 1) * 2 ^ k := by
    rw [Nat.mul_comm (_ + 1)]
    exact Nat.lt_mul_div_succ _ (Nat.two_pow_pos k)
  constructor
  · apply Nat.le_of_mul_le_mul_right _ (Nat.two_pow_pos k)
    calc scale k (rate k a f) count * f * 2 ^ k
        = scale k (rate k a f) count * 2 ^ k * f := by ring
      _ ≤ count * rate k a f * f := Nat.mul_le_mul_right f hlow
      _ = count * (rate k a f * f) := Nat.mul_assoc ..
      _ ≤ count * (a * 2 ^ k) := Nat.mul_le_mul_left count (mul_rate_le k a f)
      _ = count * a * 2 ^ k := (Nat.mul_assoc ..).symm
  · calc count * a * 2 ^ k
        = count * (a * 2 ^ k) := Nat.mul_assoc ..
      _ ≤ count * ((rate k a f + 1) * f) := Nat.mul_le_mul_left count (lt_succ_rate_mul hf).le
      _ = count * rate k a f * f + count * f := by ring
      _ < (scale k (rate k a f) count + 1) * 2 ^ k * f + count * f :=
        Nat.add_lt_add_right (Nat.mul_lt_mul_of_pos_right hhigh hf) _

/-- A wrap is a larger error, when the count is small against what is lost. -/
theorem not_rounded_of_wrap (hlost : count + 2 ^ k ≤ 2 ^ w * (count * rate k a f / 2 ^ w)) :
    ¬Rounded k a f count (scaleWrapped w k (rate k a f) count) := by
  rintro ⟨-,hnear⟩
  apply absurd hnear
  apply Nat.not_lt_of_le
  have hsplit : 2 ^ w * (count * rate k a f / 2 ^ w) + count * rate k a f % 2 ^ w = count * rate k a f :=
    Nat.div_add_mod _ _
  have hlow : scaleWrapped w k (rate k a f) count * 2 ^ k ≤ count * rate k a f % 2 ^ w := Nat.div_mul_le_self _ _
  have hfar : (scaleWrapped w k (rate k a f) count + 1) * 2 ^ k + count ≤ count * rate k a f := by
    rw [Nat.succ_mul]
    omega
  calc (scaleWrapped w k (rate k a f) count + 1) * 2 ^ k * f + count * f
      = ((scaleWrapped w k (rate k a f) count + 1) * 2 ^ k + count) * f := (Nat.add_mul ..).symm
    _ ≤ count * rate k a f * f := Nat.mul_le_mul_right f hfar
    _ = count * (rate k a f * f) := Nat.mul_assoc ..
    _ ≤ count * (a * 2 ^ k) := Nat.mul_le_mul_left count (mul_rate_le k a f)
    _ = count * a * 2 ^ k := (Nat.mul_assoc ..).symm

end EmbedTemplate.FixedPoint
