import Mathlib.Data.List.Basic

/-! # Chains through the equal entries of a list

Every entry of a list points to the next one that is equal to it. An entry at the end of the list changes the pointer
of the last one that was equal to it, and nothing else.
-/
namespace EmbedTemplate.Occurrences
variable {κ : Type*} [DecidableEq κ] {keys : List κ} {k : κ} {i j : ℕ}

/-- The next entry that is equal. -/
def next (keys : List κ) (i : ℕ) : Option ℕ := (List.range keys.length).find? fun j => i < j ∧ keys[j]? = keys[i]?

theorem next_eq_some : next keys i = some j ↔
    j < keys.length ∧ (i < j ∧ keys[j]? = keys[i]?) ∧ ∀ l < j, ¬(i < l ∧ keys[l]? = keys[i]?) := by
  unfold next
  rw [List.find?_range_eq_some]
  simp only [decide_eq_true_eq,List.mem_range,Bool.not_eq_true',decide_eq_false_iff_not]
  tauto

theorem next_eq_none : next keys i = none ↔ ∀ l < keys.length, ¬(i < l ∧ keys[l]? = keys[i]?) := by
  unfold next
  rw [List.find?_eq_none]
  simp only [List.mem_range,decide_eq_true_eq]

/-- On the way to an equal entry there is a next one. -/
theorem exists_next (hij : i < j) (hj : j < keys.length) (hsame : keys[j]? = keys[i]?) :
    ∃ l, next keys i = some l ∧ i < l ∧ l ≤ j ∧ keys[l]? = keys[i]? := by
  cases hnext : next keys i with
  | none => exact absurd ⟨hij,hsame⟩ (next_eq_none.mp hnext j hj)
  | some l =>
    obtain ⟨-,⟨hlt,heq⟩,hfirst⟩ := next_eq_some.mp hnext
    exact ⟨l,rfl,hlt,Nat.le_of_not_lt fun hlate => hfirst j hlate ⟨hij,hsame⟩,heq⟩

theorem next_of_le (h : keys.length ≤ i + 1) : next keys i = none :=
  next_eq_none.mpr fun l hl hcase => by omega

/-- Only one of the equal entries has no next one. -/
theorem last_unique (hi : next keys i = none) (hj : next keys j = none) (hilt : i < keys.length)
    (hjlt : j < keys.length) (hsame : keys[i]? = keys[j]?) : i = j := by
  rcases Nat.lt_trichotomy i j with hlt | heq | hgt
  · exact absurd ⟨hlt,hsame.symm⟩ (next_eq_none.mp hi j hjlt)
  · exact heq
  · exact absurd ⟨hgt,hsame⟩ (next_eq_none.mp hj i hilt)

/-- An entry at the end is the next one of the last one that is equal to it. -/
theorem next_snoc (hi : i < keys.length) : next (keys ++ [k]) i =
    if next keys i = none ∧ keys[i]? = some k then some keys.length else next keys i := by
  have hold : ∀ l < keys.length, (keys ++ [k])[l]? = keys[l]? := fun l hl => List.getElem?_append_left hl
  have hlast : (keys ++ [k])[keys.length]? = some k := by simp
  split
  case isTrue h =>
    obtain ⟨hnone,hkey⟩ := h
    rw [next_eq_some,hold i hi,hlast,hkey]
    refine ⟨by simp,⟨hi,rfl⟩,fun l hl => ?_⟩
    rw [hold l hl,← hkey]
    exact next_eq_none.mp hnone l hl
  case isFalse h =>
    cases hnext : next keys i with
    | some j =>
      obtain ⟨hj,hsame,hfirst⟩ := next_eq_some.mp hnext
      rw [next_eq_some,hold i hi,hold j hj]
      refine ⟨by rw [List.length_append]; omega,hsame,fun l hl => ?_⟩
      rw [hold l (by omega)]
      exact hfirst l hl
    | none =>
      rw [next_eq_none,hold i hi]
      intro l hl
      rw [List.length_append,List.length_singleton] at hl
      rcases Nat.lt_succ_iff_lt_or_eq.mp hl with hlt | rfl
      · rw [hold l hlt]
        exact next_eq_none.mp hnext l hlt
      · rw [hlast]
        exact fun hcase => h ⟨hnext,hcase.2.symm⟩

end EmbedTemplate.Occurrences
