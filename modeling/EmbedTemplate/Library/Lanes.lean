import Mathlib.Data.BitVec
import Mathlib.Tactic.Common

/-! # Lanes of a word

A word is divided into lanes of bits, which are read and replaced one by one. A lane that has been
replaced reads as what was put there, and the lanes apart from it read as before.
-/
namespace EmbedTemplate.Lanes
variable {w len len' : ℕ}

/-- The lane of `len` bits from `start` on. -/
def get (x : BitVec w) (start len : ℕ) : BitVec len := x.extractLsb' start len

/-- The word with another lane from `start` on. -/
def put (x : BitVec w) (start : ℕ) (v : BitVec len) : BitVec w :=
  (x &&& ~~~((BitVec.allOnes len).setWidth w <<< start)) ||| (v.setWidth w <<< start)

theorem getLsbD_put (x : BitVec w) (start : ℕ) (v : BitVec len) {i : ℕ} (hi : i < w) :
    (put x start v).getLsbD i = if start ≤ i ∧ i < start + len then v.getLsbD (i - start) else x.getLsbD i := by
  have hshift : i - start < w := by omega
  unfold put
  rw [BitVec.getLsbD_or,BitVec.getLsbD_and,BitVec.getLsbD_not,BitVec.getLsbD_shiftLeft,BitVec.getLsbD_shiftLeft,
    BitVec.getLsbD_setWidth,BitVec.getLsbD_setWidth,BitVec.getLsbD_allOnes]
  by_cases hstart : start ≤ i
  · by_cases hend : i < start + len
    · rw [if_pos ⟨hstart,hend⟩]
      simp [hi,hshift,Nat.not_lt.mpr hstart,show i - start < len by omega]
    · rw [if_neg fun h => hend h.2,BitVec.getLsbD_of_ge v _ (by omega)]
      simp [hi,hshift,Nat.not_lt.mpr hstart,show ¬i - start < len by omega]
  · rw [if_neg fun h => hstart h.1]
    simp [hi,Nat.lt_of_not_le hstart]

theorem get_put (x : BitVec w) {start : ℕ} (v : BitVec len) (h : start + len ≤ w) :
    get (put x start v) start len = v := by
  apply BitVec.eq_of_getLsbD_eq
  intro i hi
  unfold get
  rw [BitVec.getLsbD_extractLsb',getLsbD_put x start v (by omega),if_pos (by omega),Nat.add_sub_cancel_left,
    decide_eq_true hi,Bool.true_and]

theorem get_put_apart (x : BitVec w) {start start' : ℕ} (v : BitVec len)
    (h : start' + len' ≤ start ∨ start + len ≤ start') : get (put x start v) start' len' = get x start' len' := by
  apply BitVec.eq_of_getLsbD_eq
  intro i hi
  unfold get
  rw [BitVec.getLsbD_extractLsb',BitVec.getLsbD_extractLsb']
  by_cases hw : start' + i < w
  · rw [getLsbD_put x start v hw,if_neg (by omega)]
  · rw [BitVec.getLsbD_of_ge _ _ (by omega),BitVec.getLsbD_of_ge _ _ (by omega)]

theorem toNat_get (x : BitVec w) (start len : ℕ) : (get x start len).toNat = x.toNat / 2 ^ start % 2 ^ len := by
  unfold get
  rw [BitVec.extractLsb'_toNat,Nat.shiftRight_eq_div_pow]

end EmbedTemplate.Lanes
