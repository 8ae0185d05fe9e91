import Mathlib.Data.List.Basic

/-! # A line editor

A line of a bounded length and a cursor in it. A symbol is inserted at the cursor and deleted in
front of it; the cursor goes one place left or right within the line.
-/
namespace EmbedTemplate.LineEditor

/-- A line of at most `n` symbols and a cursor that is inside of it or at its end. -/
@[ext] structure Editor (α : Type*) (n : ℕ) where
  line : List α
  cursor : ℕ
  inside : cursor ≤ line.length
  fits : line.length ≤ n

namespace Editor
variable {α : Type*} {n : ℕ} (e : Editor α n) (a : α)

/-- The empty line. -/
def empty : Editor α n := ⟨[],0,Nat.le_refl 0,Nat.zero_le n⟩

theorem insert_length : (e.line.take e.cursor ++ a :: e.line.drop e.cursor).length = e.line.length + 1 := by
  have hinside := e.inside
  rw [List.length_append,List.length_take,List.length_cons,List.length_drop,Nat.min_eq_left hinside]
  omega

theorem backspace_length : (e.line.take (e.cursor - 1) ++ e.line.drop e.cursor).length =
    e.line.length - (e.cursor - (e.cursor - 1)) := by
  have hinside := e.inside
  rw [List.length_append,List.length_take,List.length_drop,Nat.min_eq_left (by omega)]
  omega

/-- A symbol at the cursor, unless the line is full. -/
def insert : Editor α n :=
  if h : e.line.length < n then
    { line := e.line.take e.cursor ++ a :: e.line.drop e.cursor
      cursor := e.cursor + 1
      inside := by
        rw [insert_length]
        exact Nat.succ_le_succ e.inside
      fits := by
        rw [insert_length]
        exact h }
  else e

/-- The line without the symbol in front of the cursor. -/
def backspace : Editor α n where
  line := e.line.take (e.cursor - 1) ++ e.line.drop e.cursor
  cursor := e.cursor - 1
  inside := by
    have hinside := e.inside
    rw [backspace_length]
    omega
  fits := by
    rw [backspace_length]
    exact Nat.le_trans (Nat.sub_le _ _) e.fits

def left : Editor α n := { e with cursor := e.cursor - 1, inside := Nat.le_trans (Nat.sub_le _ _) e.inside }

def right : Editor α n := { e with cursor := min (e.cursor + 1) e.line.length, inside := Nat.min_le_right _ _ }

variable {e a}

theorem insert_full (h : n ≤ e.line.length) : e.insert a = e := dif_neg (Nat.not_lt.mpr h)

/-- A symbol at the end of the line. -/
theorem insert_end (hend : e.cursor = e.line.length) (h : e.line.length < n) :
    (e.insert a).line = e.line ++ [a] ∧ (e.insert a).cursor = e.line.length + 1 := by
  unfold insert
  rw [dif_pos h]
  dsimp only
  rw [hend,List.take_length,List.drop_length]
  exact ⟨rfl,rfl⟩

/-- A backspace at the end of the line. -/
theorem backspace_end (hend : e.cursor = e.line.length) :
    e.backspace.line = e.line.take (e.line.length - 1) ∧ e.backspace.cursor = e.line.length - 1 := by
  unfold backspace
  dsimp only
  rw [hend,List.drop_length,List.append_nil]
  exact ⟨rfl,rfl⟩

theorem backspace_empty (h : e.line = []) : e.backspace = e := by
  have hinside := e.inside
  rw [h,List.length_nil] at hinside
  apply Editor.ext
  · unfold backspace
    dsimp only
    rw [h,List.take_nil,List.drop_nil,List.append_nil]
  · exact Nat.le_antisymm (Nat.sub_le _ _) (Nat.le_trans hinside (Nat.zero_le _))

/-- The end of a line is as far right as the cursor goes, -/
theorem right_end (hend : e.cursor = e.line.length) : e.right = e := by
  apply Editor.ext
  · rfl
  · unfold right
    dsimp only
    rw [hend,Nat.min_eq_right (Nat.le_succ _)]

/-- and from there it goes left unless the line is empty. -/
theorem left_empty (h : e.line = []) : e.left = e := by
  have hinside := e.inside
  rw [h,List.length_nil] at hinside
  apply Editor.ext
  · rfl
  · exact (Nat.sub_eq_zero_of_le (by omega)).trans (Nat.le_zero.mp hinside).symm

theorem left_cursor (hend : e.cursor = e.line.length) (h : e.line ≠ []) : e.left.cursor < e.line.length := by
  have hpos := List.length_pos_iff.mpr h
  unfold left
  dsimp only
  omega

end Editor

end EmbedTemplate.LineEditor
