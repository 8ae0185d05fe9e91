import Mathlib.Algebra.GroupWithZero.Nat
import Mathlib.Data.List.Flatten
import Mathlib.Data.List.Induction

/-! # Consecutive pieces of a stream

Items of known sizes laid one behind the other, and where a front part of their
concatenation ends among them.
-/
namespace EmbedTemplate.Layout
variable {α β : Type*} {size : α → ℕ}

/-- An item and the position where it starts. -/
structure Piece (α : Type*) where
  start : ℕ
  item : α

def Piece.stop (size : α → ℕ) (x : Piece α) : ℕ := x.start + size x.item

/-- The items from a position on. -/
def lay (size : α → ℕ) : ℕ → List α → List (Piece α)
  | _, [] => []
  | p, x :: xs => ⟨p,x⟩ :: lay size (p + size x) xs

/-- The size of all items together. -/
def extent (size : α → ℕ) (xs : List α) : ℕ := (xs.map size).sum

@[simp] theorem extent_nil : extent size [] = 0 := rfl
@[simp] theorem extent_cons (x : α) (xs : List α) : extent size (x :: xs) = size x + extent size xs := by
  simp [extent]
@[simp] theorem extent_append (xs ys : List α) : extent size (xs ++ ys) = extent size xs + extent size ys := by
  simp [extent]

theorem lay_append (p : ℕ) (xs ys : List α) :
    lay size p (xs ++ ys) = lay size p xs ++ lay size (p + extent size xs) ys := by
  induction xs generalizing p with
  | nil => rfl
  | cons x xs ih => simp [lay,ih,Nat.add_assoc]

theorem lay_start_le {p : ℕ} {xs : List α} {x : Piece α} (h : x ∈ lay size p xs) : p ≤ x.start := by
  induction xs generalizing p with
  | nil => cases h
  | cons y ys ih =>
    rcases List.mem_cons.mp h with rfl | h
    · exact Nat.le_refl _
    · exact Nat.le_trans (Nat.le_add_right p (size y)) (ih h)

theorem lay_stop_le {p : ℕ} {xs : List α} {x : Piece α} (h : x ∈ lay size p xs) :
    x.stop size ≤ p + extent size xs := by
  induction xs generalizing p with
  | nil => cases h
  | cons y ys ih =>
    rw [extent_cons]
    rcases List.mem_cons.mp h with rfl | h
    · exact Nat.add_le_add_left (Nat.le_add_right _ _) p
    · rw [← Nat.add_assoc]
      exact ih h

theorem mem_of_lay {p : ℕ} {xs : List α} {x : Piece α} (h : x ∈ lay size p xs) : x.item ∈ xs := by
  induction xs generalizing p with
  | nil => cases h
  | cons y ys ih =>
    rcases List.mem_cons.mp h with rfl | h
    · exact List.mem_cons_self ..
    · exact List.mem_cons_of_mem _ (ih h)

theorem exists_lay {p : ℕ} {xs : List α} {x : α} (h : x ∈ xs) : ∃ piece ∈ lay size p xs, piece.item = x := by
  induction xs generalizing p with
  | nil => cases h
  | cons y ys ih =>
    rcases List.mem_cons.mp h with rfl | h
    · exact ⟨_,List.mem_cons_self ..,rfl⟩
    · obtain ⟨piece,hpiece,hitem⟩ := ih (p := p + size y) h
      exact ⟨piece,List.mem_cons_of_mem _ hpiece,hitem⟩

theorem length_flatMap_eq (f : α → List β) (xs : List α) :
    (xs.flatMap f).length = extent (fun x => (f x).length) xs := by
  rw [List.length_flatMap]
  rfl

/-- A front part of a concatenation covers some whole items and a proper part of the next. -/
theorem split_flatMap (f : α → List β) {xs : List α} {front rest : List β} (h : front ++ rest = xs.flatMap f) :
    ∃ done later tail, xs = done ++ later ∧ front = done.flatMap f ++ tail ∧ tail ++ rest = later.flatMap f ∧
      ∀ x ∈ later.head?, tail.length < (f x).length := by
  induction xs generalizing front with
  | nil => exact ⟨[],[],front,rfl,rfl,h,fun x hx => (by cases hx)⟩
  | cons x xs ih =>
    by_cases hlt : front.length < (f x).length
    · exact ⟨[],x :: xs,front,rfl,rfl,h,fun y hy => (by cases hy; exact hlt)⟩
    · rw [List.flatMap_cons] at h
      obtain ⟨more,rfl⟩ : f x <+: front :=
        List.prefix_of_prefix_length_le ⟨_,h.symm⟩ ⟨_,rfl⟩ (Nat.le_of_not_lt hlt)
      rw [List.append_assoc,List.append_cancel_left_eq] at h
      obtain ⟨done,later,tail,rfl,rfl,hrest,hhead⟩ := ih h
      exact ⟨x :: done,later,tail,rfl,by rw [List.flatMap_cons,List.append_assoc],hrest,hhead⟩

end EmbedTemplate.Layout
