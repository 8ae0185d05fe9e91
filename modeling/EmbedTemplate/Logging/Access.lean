import EmbedTemplate.Logging.Ring
import Mathlib.Tactic.IntervalCases

/-! # What the byte-level accesses of the log ring do

Every copy, wrapped or not, is a store or a load at consecutive positions, and the
padding writers clear exactly the padding of an 8-aligned record end.
-/
namespace EmbedTemplate.Logging
open Circular Bytes
variable {n : BufSize}

theorem BufSize.le_val (n : BufSize) : 512 ≤ n.val := by
  obtain ⟨k,hk,_,hv⟩ := n.pow
  rw [hv]
  exact (by norm_num : 512 = 2 ^ 9).le.trans (Nat.pow_le_pow_right (by norm_num) hk)

theorem BufSize.val_le (n : BufSize) : n.val ≤ 2 ^ 31 := by
  obtain ⟨k,_,hk,hv⟩ := n.pow
  rw [hv]
  exact Nat.pow_le_pow_right (by norm_num) hk

theorem BufSize.eight_dvd (n : BufSize) : 8 ∣ n.val := by
  obtain ⟨k,hk,_,hv⟩ := n.pow
  rw [hv]
  exact pow_dvd_pow 2 (by omega : 3 ≤ k)

theorem BufSize.dvd_word (n : BufSize) : n.val ∣ 2 ^ 32 := by
  obtain ⟨k,_,hk,hv⟩ := n.pow
  rw [hv]
  exact pow_dvd_pow 2 (by omega)

theorem index_eq (n : BufSize) (pos : ℕ) : index n pos = pos % n.val := by
  obtain ⟨k,_,hk,hv⟩ := n.pow
  rw [index,BufSize.mask,hv,Nat.and_two_pow_sub_one_eq_mod,u32]
  exact Nat.mod_mod_of_dvd pos (pow_dvd_pow 2 (by omega))

theorem put_index (n : BufSize) (data : ℕ → UInt8) (pos : ℕ) (b : UInt8) :
    put data (index n pos) [b] = store n.val data pos [b] := by
  rw [index_eq]
  rfl

theorem index_lt (n : BufSize) (pos : ℕ) : index n pos < n.val := by
  rw [index_eq]
  exact Nat.mod_lt _ (by have := n.le_val; omega)

theorem index_mod_eight (n : BufSize) (pos : ℕ) : index n pos % 8 = pos % 8 := by
  rw [index_eq,Nat.mod_mod_of_dvd pos n.eight_dvd]

@[simp] theorem index_u32 (n : BufSize) (pos : ℕ) : index n (u32 pos) = index n pos := by
  rw [index,index,u32,u32,Nat.mod_mod]

/-- Clearing the three low bits of a word rounds it down to a multiple of eight. -/
theorem and_clear_low {x : ℕ} (h : x < 2 ^ 32) : x &&& (2 ^ 32 - 1 - 7) = x / 8 * 8 := by
  have hx : x = 8 * (x / 8) + x % 8 := (Nat.div_add_mod x 8).symm
  have hm : x % 8 < 2 ^ 3 := Nat.mod_lt _ (by norm_num)
  apply Nat.eq_of_testBit_eq
  intro i
  have hc : (2 ^ 32 - 1 - 7 : ℕ) = 2 ^ 3 * (2 ^ 29 - 1) := by norm_num
  rw [Nat.testBit_and,hc,Nat.testBit_two_pow_mul,Nat.mul_comm,show (8 : ℕ) = 2 ^ 3 by norm_num,
    Nat.testBit_two_pow_mul,Nat.testBit_two_pow_sub_one]
  by_cases hi : 3 ≤ i
  · have hd : (x / 2 ^ 3).testBit (i - 3) = x.testBit i := by
      rw [Nat.testBit_div_two_pow,Nat.sub_add_cancel hi]
    rw [hd]
    by_cases h32 : i < 32
    · simp [hi,show i - 3 < 29 by omega]
    · have hb : x.testBit i = false := Nat.testBit_lt_two_pow (h.trans_le
        (Nat.pow_le_pow_right (by norm_num) (by omega)))
      simp [hb]
  · simp [hi]

theorem alignUp_eight (x : ℕ) : alignUp x 8 = u32 (x + 7) / 8 * 8 := by
  rw [alignUp,and_clear_low (u32_lt _)]
  rfl

theorem u32_modEq (n : BufSize) (pos : ℕ) : u32 pos ≡ pos [MOD n.val] :=
  Nat.mod_mod_of_dvd pos n.dvd_word

theorem copyRemainder_eq (m : ℕ → UInt8) (d : ℕ) {src : List UInt8} (h : src.length < 8) :
    copyRemainder m d src = put m d src := by
  match src, h with
  | [], _ | [_], _ | [_,_], _ | [_,_,_], _ | [_,_,_,_], _ | [_,_,_,_,_], _ | [_,_,_,_,_,_], _
  | [_,_,_,_,_,_,_], _ => rfl

theorem copyU64_eq (m : ℕ → UInt8) (d : ℕ) (src : List UInt8) : copyU64 m d src = put m d src := by
  fun_induction copyU64 m d src with
  | case1 m d b0 b1 b2 b3 b4 b5 b6 b7 rest ih => rw [ih]; rfl
  | case2 m d src hshort =>
    apply copyRemainder_eq
    match src, hshort with
    | [], _ | [_], _ | [_,_], _ | [_,_,_], _ | [_,_,_,_], _ | [_,_,_,_,_], _ | [_,_,_,_,_,_], _
    | [_,_,_,_,_,_,_], _ => simp
    | b0 :: b1 :: b2 :: b3 :: b4 :: b5 :: b6 :: b7 :: rest, h =>
      exact (h b0 b1 b2 b3 b4 b5 b6 b7 rest rfl).elim

/-- A copy into the ring, split at the physical end or not, stores at positions. -/
theorem copyToRing_eq (m : ℕ → UInt8) (p : ℕ) (src : List UInt8) (h : src.length ≤ n.val) :
    copyToRing n m p src = store n.val m p src := by
  have hlt := index_lt n p
  simp only [copyToRing,copyU64_eq]
  rw [index_eq] at hlt ⊢
  split
  · rename_i hfit
    exact put_eq_store n.val m p src (by omega)
  · rename_i hsplit
    rw [put_eq_store n.val m p _ (by rw [List.length_take]; omega)]
    have hend : (p + (src.take (n.val - p % n.val)).length) % n.val = 0 := by
      rw [List.length_take,Nat.min_eq_left (by omega)]
      exact position_end (by omega) p
    rw [← hend,put_eq_store,← store_append,List.take_append_drop]
    rw [hend,List.length_drop]
    omega

/-- Reading a laid-out string across the physical end yields the string. -/
theorem copyFromRing_eq {m : ℕ → UInt8} {p : ℕ} {bs : List UInt8} (h : Holds n.val m p bs)
    (hn : bs.length ≤ n.val) : copyFromRing n m p bs.length = bs := by
  have hlt := index_lt n p
  simp only [copyFromRing]
  rw [index_eq] at hlt ⊢
  split
  · rename_i hfit
    exact h.get_linear (by omega)
  · rename_i hsplit
    exact h.get_wrapped hn (by omega)

/-- The padding writer clears the padding of a record that ends 8-aligned. -/
theorem alignedZeroPadding_eq (m : ℕ → UInt8) (p : ℕ) {padLen : ℕ} (hpad : padLen < 8)
    (hend : (p + padLen) % 8 = 0) :
    alignedZeroPadding n m p padLen = store n.val m p (List.replicate padLen 0) := by
  have hmod := index_mod_eight n p
  have hlt := index_lt n p
  have hfit : index n p + padLen ≤ n.val := by
    obtain ⟨k,hk⟩ := n.eight_dvd
    omega
  rw [← put_eq_store n.val m p _ (by rw [List.length_replicate,← index_eq]; exact hfit),← index_eq]
  have hand : index n p &&& 3 = index n p % 4 := Nat.and_two_pow_sub_one_eq_mod _ 2
  have h4 : index n p % 4 = (8 - padLen) % 4 := by omega
  simp only [alignedZeroPadding,if_neg (Nat.not_lt.mpr hfit),hand,h4]
  -- after the boundary is reached at most one word is left, so the switch does nothing
  interval_cases padLen <;> simp [put,List.replicate]

end EmbedTemplate.Logging
