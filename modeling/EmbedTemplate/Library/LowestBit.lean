import Mathlib.Data.Nat.Notation

/-! # The lowest bit of a word

A loop that takes the lowest set bit of a word and clears it with `m & (m - 1)` visits the bits
in ascending order. The lowest bit is `BitVec.ctz`; the lemma gives the word that is left.
-/
namespace EmbedTemplate.LowestBit
variable {w : ℕ}

private theorem testBit_and_pred {m t : ℕ} (hbit : m.testBit t = true) (hlow : ∀ j < t, m.testBit j = false) (i : ℕ) :
    (m &&& (m - 1)).testBit i = (m.testBit i && decide (i ≠ t)) := by
  induction t generalizing m i with
  | zero =>
    have hodd : m % 2 = 1 := by simpa using hbit
    rw [Nat.testBit_and]
    cases i with
    | zero =>
      have hpred : (m - 1) % 2 = 0 := by omega
      simp [hpred]
    | succ i =>
      have hhalf : (m - 1) / 2 = m / 2 := by omega
      rw [Nat.testBit_succ,Nat.testBit_succ,hhalf]
      simp
  | succ t ih =>
    have heven : m % 2 = 0 := by simpa using hlow 0 (Nat.succ_pos t)
    rw [Nat.testBit_succ] at hbit
    have hpos : m / 2 ≠ 0 := by
      intro hzero
      rw [hzero,Nat.zero_testBit] at hbit
      cases hbit
    cases i with
    | zero => simp [heven]
    | succ i =>
      have hhalf : (m - 1) / 2 = m / 2 - 1 := by omega
      have hnext := ih hbit (fun j hj => by rw [← Nat.testBit_succ]; exact hlow (j + 1) (Nat.succ_lt_succ hj)) i
      rw [Nat.testBit_and,Nat.testBit_succ,Nat.testBit_succ,hhalf,← Nat.testBit_and,hnext]
      simp

/-- Clearing the lowest bit leaves the others. -/
theorem getLsbD_and_pred {m : BitVec w} (hm : m ≠ 0#w) (i : ℕ) :
    (m &&& (m - 1#w)).getLsbD i = (m.getLsbD i && decide (i ≠ m.ctz.toNat)) := by
  have hpos : 0 < m.toNat := by
    rw [Nat.pos_iff_ne_zero]
    exact fun hzero => hm (BitVec.eq_of_toNat_eq (by simpa using hzero))
  have hw : 1 < 2 ^ w := Nat.lt_of_le_of_lt hpos m.isLt
  have hpred : (m - 1#w).toNat = m.toNat - 1 := by
    rw [BitVec.toNat_sub_of_le]
    · rw [BitVec.toNat_ofNat,Nat.mod_eq_of_lt hw]
    · rw [BitVec.le_def,BitVec.toNat_ofNat,Nat.mod_eq_of_lt hw]
      exact hpos
  rw [BitVec.getLsbD,BitVec.toNat_and,hpred]
  exact testBit_and_pred (BitVec.getLsbD_true_ctz_of_ne_zero hm) (fun j hj => BitVec.getLsbD_false_of_lt_ctz hj) i

end EmbedTemplate.LowestBit
