import Mathlib.Data.BitVec
import Mathlib.Logic.Function.Basic

/-! # Sets of numbers in words

A number is in the set when its bit is set: the words are of one width, the quotient by the
width names the word, and the remainder the bit.
-/
namespace EmbedTemplate.WordSet
variable {w : ℕ} (words : ℕ → BitVec w) (i j n : ℕ)

def has : Bool := (words (i / w)).getLsbD (i % w)

/-- Sets the bit of a number. -/
def add : ℕ → BitVec w := Function.update words (i / w) (words (i / w) ||| 1#w <<< (i % w))

/-- Clears the bit of a number. -/
def remove : ℕ → BitVec w := Function.update words (i / w) (words (i / w) &&& ~~~(1#w <<< (i % w)))

theorem same_bit : j = i ↔ j / w = i / w ∧ i % w = j % w :=
  (Nat.ext_div_mod_iff w j i).trans (and_congr_right' eq_comm)

/-- The mask of a bit selects it. -/
theorem and_mask_ne_zero {k : ℕ} (hk : k < w) (word : BitVec w) :
    (word &&& 1#w <<< k != 0#w) = word.getLsbD k := by
  rw [← BitVec.twoPow_eq,BitVec.and_twoPow]
  have hmask : BitVec.twoPow w k ≠ 0#w := by
    rw [ne_eq,← BitVec.toNat_inj,BitVec.toNat_twoPow_of_lt hk,BitVec.toNat_zero]
    exact (Nat.two_pow_pos k).ne'
  cases word.getLsbD k with
  | true => exact bne_iff_ne.mpr hmask
  | false => exact bne_self_eq_false _

theorem getLsbD_or_twoPow (word : BitVec w) {k : ℕ} (hk : k < w) :
    (word ||| BitVec.twoPow w i).getLsbD k = (word.getLsbD k || decide (i = k)) := by
  rw [BitVec.getLsbD_or,BitVec.getLsbD_twoPow]
  by_cases hik : i = k
  · rw [hik,decide_eq_true hk,Bool.true_and]
  · rw [decide_eq_false hik,Bool.and_false]

theorem has_add (hw : 0 < w) : has (add words i) j = (has words j || decide (j = i)) := by
  simp only [same_bit (w := w) i j]
  unfold has add
  rw [Function.update_apply,← BitVec.twoPow_eq]
  by_cases hword : j / w = i / w
  · rw [if_pos hword,getLsbD_or_twoPow _ _ (Nat.mod_lt j hw),hword]
    simp only [true_and]
  · rw [if_neg hword]
    simp only [hword,false_and,decide_false,Bool.or_false]

theorem has_remove (hw : 0 < w) : has (remove words i) j = (has words j && decide (j ≠ i)) := by
  have hbit := Nat.mod_lt i hw
  have hbit' := Nat.mod_lt j hw
  simp only [ne_eq,same_bit (w := w) i j]
  unfold has remove
  rw [Function.update_apply,← BitVec.twoPow_eq]
  by_cases hword : j / w = i / w
  · rw [if_pos hword,BitVec.getLsbD_and,BitVec.getLsbD_not,BitVec.getLsbD_twoPow,hword]
    simp only [hbit,hbit',decide_true,Bool.true_and,true_and,decide_not]
  · rw [if_neg hword]
    simp only [hword,false_and,not_false_eq_true,decide_true,Bool.and_true]

/-- A loop that stores zero in the words below `n`. -/
theorem foldl_zero (k : ℕ) : (List.range n).foldl (fun words k => Function.update words k 0#w) words k =
    if k < n then 0#w else words k := by
  induction n with
  | zero => rfl
  | succ n ih =>
    rw [List.range_succ,List.foldl_append,List.foldl_cons,List.foldl_nil,Function.update_apply,ih]
    rcases Nat.lt_trichotomy k n with hk | rfl | hk
    · rw [if_neg hk.ne,if_pos hk,if_pos (Nat.lt_succ_of_lt hk)]
    · rw [if_pos rfl,if_pos (Nat.lt_succ_self k)]
    · rw [if_neg hk.ne',if_neg (Nat.not_lt_of_lt hk),if_neg (Nat.not_lt_of_le hk)]

theorem has_foldl_zero {i n : ℕ} (h : i / w < n) :
    has ((List.range n).foldl (fun words k => Function.update words k 0#w) words) i = false := by
  unfold has
  rw [foldl_zero,if_pos h]
  exact BitVec.getLsbD_zero

end EmbedTemplate.WordSet
