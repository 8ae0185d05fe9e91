import Mathlib.Data.List.Nodup

/-! # Searches through linked lists

A list that is threaded through memory: every node holds the address of its successor, and
one address stands for the end. A search that gives up after a number of nodes finds what
there is among the first ones.
-/
namespace EmbedTemplate.PointerList
variable {α : Type*} (nil : α) (next : α → α) (stop : α → Bool)

/-- The nodes from an address on, up to the end. -/
def Follows : α → List α → Prop
  | p, [] => p = nil
  | p, q :: qs => p = q ∧ q ≠ nil ∧ Follows (next q) qs

variable {nil next} {p : α} {qs qs' : List α}

theorem Follows.ne_nil (h : Follows nil next p qs) : nil ∉ qs := by
  induction qs generalizing p with
  | nil => exact List.not_mem_nil
  | cons q qs ih =>
    rw [List.mem_cons,not_or]
    exact ⟨h.2.1.symm,ih h.2.2⟩

/-- There is only one list from an address on. -/
theorem Follows.unique (h : Follows nil next p qs) (h' : Follows nil next p qs') : qs = qs' := by
  induction qs generalizing p qs' with
  | nil =>
    cases qs' with
    | nil => rfl
    | cons q qs' => exact absurd (h'.1.symm.trans h) h'.2.1
  | cons q qs ih =>
    cases qs' with
    | nil => exact absurd (h.1.symm.trans h') h.2.1
    | cons q' qs' =>
      obtain rfl : q = q' := h.1.symm.trans h'.1
      rw [ih h.2.2 h'.2.2]

/-- The list goes on behind each of its nodes. -/
theorem Follows.from_mem (h : Follows nil next p qs) {q : α} (hq : q ∈ qs) :
    ∃ rest, Follows nil next q rest ∧ rest.length ≤ qs.length := by
  induction qs generalizing p with
  | nil => cases hq
  | cons q' qs ih =>
    obtain rfl | hmem := List.mem_cons.mp hq
    · exact ⟨q :: qs,⟨rfl,h.2⟩,Nat.le_refl _⟩
    · obtain ⟨rest,hrest,hlength⟩ := ih h.2.2 hmem
      exact ⟨rest,hrest,Nat.le_succ_of_le hlength⟩

/-- A list that ends does not come back to a node. -/
theorem Follows.nodup (h : Follows nil next p qs) : qs.Nodup := by
  induction qs generalizing p with
  | nil => exact List.nodup_nil
  | cons q qs ih =>
    refine List.nodup_cons.mpr ⟨fun hq => ?_,ih h.2.2⟩
    obtain ⟨rest,hrest,hlength⟩ := h.2.2.from_mem hq
    have hwhole : Follows nil next q (q :: qs) := ⟨rfl,h.2⟩
    rw [hrest.unique hwhole,List.length_cons] at hlength
    exact Nat.not_succ_le_self _ hlength

section Search
variable [DecidableEq α] (nil next)

instance decidableFollows : ∀ p qs, Decidable (Follows nil next p qs)
  | p, [] => inferInstanceAs (Decidable (p = nil))
  | p, q :: qs =>
    have := decidableFollows (next q) qs
    inferInstanceAs (Decidable (p = q ∧ q ≠ nil ∧ Follows nil next (next q) qs))

/-- The search, and how many nodes it looks at. -/
def search : ℕ → α → α × ℕ
  | 0, _ => (nil,0)
  | limit + 1, p =>
    if p = nil then (nil,0)
    else if stop p then (p,1)
    else ((search limit (next p)).1,(search limit (next p)).2 + 1)

variable {nil next stop} {limit : ℕ}

/-- The limit bounds the search through any memory. -/
theorem search_count_le (p : α) : (search nil next stop limit p).2 ≤ limit := by
  induction limit generalizing p with
  | zero => exact Nat.le_refl _
  | succ limit ih =>
    rw [search]
    split
    · exact Nat.zero_le _
    · split
      · exact Nat.succ_le_succ (Nat.zero_le _)
      · exact Nat.succ_le_succ (ih _)

/-- Through a list that ends, the search finds the first hit among as many nodes as its limit. -/
theorem Follows.search_eq (h : Follows nil next p qs) :
    (search nil next stop limit p).1 = ((qs.take limit).find? stop).getD nil := by
  induction limit generalizing p qs with
  | zero => rfl
  | succ limit ih =>
    rw [search]
    cases qs with
    | nil =>
      have hend : p = nil := h
      rw [if_pos hend]
      rfl
    | cons q qs =>
      obtain ⟨rfl,hne,hrest⟩ := h
      rw [if_neg hne,List.take_succ_cons]
      cases hstop : stop p with
      | true =>
        rw [if_pos rfl,List.find?_cons_of_pos hstop]
        rfl
      | false =>
        rw [if_neg Bool.false_ne_true,List.find?_cons_of_neg (by rw [hstop]; exact Bool.false_ne_true)]
        exact ih hrest

/-- The search finds the first hit of the whole list exactly when there is none, or one within
the limit. -/
theorem Follows.search_eq_iff (h : Follows nil next p qs) :
    (search nil next stop limit p).1 = (qs.find? stop).getD nil ↔
      ((∃ q ∈ qs, stop q = true) → ∃ q ∈ qs.take limit, stop q = true) := by
  have hsplit : qs.find? stop = ((qs.take limit).find? stop).or ((qs.drop limit).find? stop) := by
    rw [← List.find?_append,List.take_append_drop]
  rw [h.search_eq,hsplit]
  cases hfront : (qs.take limit).find? stop with
  | some q =>
    refine iff_of_true ?_ fun _ => ⟨q,List.mem_of_find?_eq_some hfront,List.find?_some hfront⟩
    rw [Option.some_or]
  | none =>
    have hnone : ¬∃ q ∈ qs.take limit, stop q = true := by
      rintro ⟨q,hq,hstop⟩
      exact List.find?_eq_none.mp hfront q hq hstop
    rw [Option.none_or,imp_iff_not hnone]
    cases hback : (qs.drop limit).find? stop with
    | none =>
      refine iff_of_true rfl ?_
      rintro ⟨q,hq,hstop⟩
      have hall : qs.find? stop = none := by rw [hsplit,hfront,hback,Option.none_or]
      exact List.find?_eq_none.mp hall q hq hstop
    | some q =>
      have hq : q ∈ qs := List.mem_of_mem_drop (List.mem_of_find?_eq_some hback)
      refine iff_of_false (fun heq => h.ne_nil ?_) fun hno => hno ⟨q,hq,List.find?_some hback⟩
      rw [show nil = q from heq]
      exact hq

end Search

end EmbedTemplate.PointerList
