import EmbedTemplate.Library.Circular
import Mathlib.Data.List.Basic

/-! # Words in a doubly terminated string

A sequence of characters and separators has words, the maximal runs of characters. They are stored one behind the
other, each with a terminator, and a terminator more stands behind the last one. A word is found by its number from
the terminators alone.
-/
namespace EmbedTemplate.MultiString
open Circular
variable {β : Type*}

section Words

/-- The words of what has been read, the last one perhaps not at its end. -/
@[ext] structure Words (β : Type*) where
  done : List (List β)
  current : List β

/-- A separator ends a word, unless there is none. -/
def Words.push [DecidableEq β] (w : Words β) : Option β → Words β
  | some c => { w with current := w.current ++ [c] }
  | none => if w.current = [] then w else ⟨w.done ++ [w.current],[]⟩

def Words.all [DecidableEq β] (w : Words β) : List (List β) := if w.current = [] then w.done else w.done ++ [w.current]

variable [DecidableEq β]

/-- The words of a sequence of characters and separators. -/
def wordsOf (items : List (Option β)) : List (List β) := (items.foldl Words.push ⟨[],[]⟩).all

theorem foldl_push_characters (w : Words β) (cs : List β) :
    (cs.map some).foldl Words.push w = { w with current := w.current ++ cs } := by
  induction cs generalizing w with
  | nil => simp
  | cons c cs ih =>
    rw [List.map_cons,List.foldl_cons,ih]
    simp [Words.push]

theorem foldl_push_separators (w : Words β) (n : ℕ) (hn : 0 < n) :
    (List.replicate n none).foldl Words.push w = ⟨w.all,[]⟩ := by
  have hone : Words.push w none = ⟨w.all,[]⟩ := by
    unfold Words.push Words.all
    dsimp only
    split
    · rename_i h
      exact Words.ext rfl h
    · rfl
  have hstay : ∀ k, (List.replicate k none).foldl Words.push (⟨w.all,[]⟩ : Words β) = ⟨w.all,[]⟩ := by
    intro k
    induction k with
    | zero => rfl
    | succ k ih =>
      rw [List.replicate_succ,List.foldl_cons]
      exact ih
  obtain ⟨k,rfl⟩ := Nat.exists_eq_add_of_lt hn
  rw [Nat.zero_add,List.replicate_succ,List.foldl_cons,hone,hstay]

end Words

section Layout

/-- The words, each with a terminator behind it. -/
def terminated (z : β) (words : List (List β)) : List β := words.flatMap fun word => word ++ [z]

/-- The words one behind the other, with two terminators at the end. -/
def multiString (z : β) (words : List (List β)) : List β := if words = [] then [z,z] else terminated z words ++ [z]

/-- What has been stored of the words read so far. -/
def Words.stored (z : β) (w : Words β) : List β := terminated z w.done ++ w.current

/-- The words are not empty where they are done, and have no terminator in them. -/
structure Words.Proper (z : β) (w : Words β) : Prop where
  done : ∀ word ∈ w.done, word ≠ [] ∧ z ∉ word
  current : z ∉ w.current

variable {z : β} {w : Words β} {word : List β} {words words' : List (List β)}

theorem terminated_append : terminated z (words ++ words') = terminated z words ++ terminated z words' :=
  List.flatMap_append

theorem terminated_cons : terminated z (word :: words) = word ++ z :: terminated z words := by
  simp [terminated]

theorem length_le_terminated (z : β) (words : List (List β)) : words.length ≤ (terminated z words).length := by
  induction words with
  | nil => exact Nat.zero_le _
  | cons word words ih =>
    rw [terminated_cons,List.length_cons,List.length_append,List.length_cons]
    omega

theorem length_lt_terminated (z : β) (h : word ∈ words) : word.length < (terminated z words).length := by
  induction words with
  | nil => exact absurd h List.not_mem_nil
  | cons first words ih =>
    rw [terminated_cons,List.length_append,List.length_cons]
    rcases List.mem_cons.mp h with rfl | hmem
    · omega
    · have hrest := ih hmem
      omega

theorem Words.proper_nil : Words.Proper z ⟨[],[]⟩ := ⟨fun _ h => absurd h List.not_mem_nil,List.not_mem_nil⟩

theorem terminated_getLast (hne : words ≠ []) : (terminated z words).getLast? = some z := by
  obtain ⟨front,last,rfl⟩ := List.eq_nil_or_concat words |>.resolve_left hne
  rw [List.concat_eq_append,terminated_append]
  simp [terminated]

variable [DecidableEq β]

/-- A character that is not the terminator is stored behind the others. -/
theorem Words.Proper.character (hw : w.Proper z) {c : β} (hc : c ≠ z) :
    (w.push (some c)).Proper z ∧ (w.push (some c)).stored z = w.stored z ++ [c] := by
  refine ⟨⟨hw.done,?_⟩,?_⟩
  · unfold Words.push
    rw [List.mem_append,List.mem_singleton,not_or]
    exact ⟨hw.current,Ne.symm hc⟩
  · unfold Words.push Words.stored
    rw [List.append_assoc]

/-- A separator is stored as a terminator, except at the beginning and behind another one. -/
theorem Words.Proper.separator (hw : w.Proper z) :
    (w.push none).Proper z ∧
      (w.push none).stored z =
        if w.stored z = [] ∨ (w.stored z).getLast? = some z then w.stored z else w.stored z ++ [z] := by
  by_cases hempty : w.current = []
  · have hpush : w.push none = w := if_pos hempty
    have hstored : w.stored z = terminated z w.done := by
      unfold Words.stored
      rw [hempty,List.append_nil]
    refine ⟨by rw [hpush]; exact hw,?_⟩
    rw [hpush,hstored]
    by_cases hdone : w.done = []
    · rw [hdone]
      rfl
    · rw [if_pos (.inr (terminated_getLast hdone))]
  · have hpush : w.push none = ⟨w.done ++ [w.current],[]⟩ := if_neg hempty
    have hlast : (w.stored z).getLast? = w.current.getLast? := List.getLast?_append_of_ne_nil _ hempty
    have hne : ¬(w.stored z = [] ∨ (w.stored z).getLast? = some z) := by
      rintro (hnil | hend)
      · exact hempty (List.append_eq_nil_iff.mp hnil).2
      · rw [hlast] at hend
        exact hw.current (List.mem_of_getLast? hend)
    rw [hpush,if_neg hne]
    refine ⟨⟨?_,List.not_mem_nil⟩,?_⟩
    · intro word hmem
      rcases List.mem_append.mp hmem with hmem | hmem
      · exact hw.done word hmem
      · rw [List.mem_singleton.mp hmem]
        exact ⟨hempty,hw.current⟩
    · unfold Words.stored
      rw [terminated_append]
      simp [terminated]

theorem Words.Proper.all (hw : w.Proper z) : ∀ word ∈ w.all, word ≠ [] ∧ z ∉ word := by
  unfold Words.all
  split
  · exact hw.done
  · rename_i hne
    intro word hmem
    rcases List.mem_append.mp hmem with hmem | hmem
    · exact hw.done word hmem
    · rw [List.mem_singleton.mp hmem]
      exact ⟨hne,hw.current⟩

/-- With two terminators behind it, what has been stored begins with all words. -/
theorem Words.stored_multiString (w : Words β) : ∃ rest, w.stored z ++ [z,z] = multiString z w.all ++ rest := by
  unfold Words.stored Words.all multiString
  by_cases hempty : w.current = []
  · rw [if_pos hempty,hempty,List.append_nil]
    by_cases hdone : w.done = []
    · rw [hdone]
      exact ⟨[],rfl⟩
    · rw [if_neg hdone]
      exact ⟨[z],by simp⟩
  · rw [if_neg hempty,if_neg (by simp),terminated_append]
    exact ⟨[],by simp [terminated]⟩

end Layout

end EmbedTemplate.MultiString
