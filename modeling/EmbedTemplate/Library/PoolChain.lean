import Mathlib.Data.List.Basic

/-! # Chains through a pool

A list threaded through the links of a pool: every element leads to its successor and the
newest leads nowhere. The elements are kept newest first, so that an element is appended to
the chain by putting it in front of the list.
-/
namespace EmbedTemplate.PoolChain
variable {β : Type*} {next next' : ℕ → Option ℕ} {after : Option ℕ} {k : ℕ} {ks : List ℕ}

/-- Every element leads to the one in front of it, and the first to `after`. -/
def Links (next : ℕ → Option ℕ) : Option ℕ → List ℕ → Prop
  | _, [] => True
  | after, k :: ks => next k = after ∧ Links next (some k) ks

theorem Links.congr (h : Links next after ks) (hnext : ∀ k ∈ ks, next' k = next k) : Links next' after ks := by
  induction ks generalizing after with
  | nil => trivial
  | cons k ks ih =>
    constructor
    · rw [hnext k (List.mem_cons_self ..)]
      exact h.1
    · exact ih h.2 fun j hj => hnext j (List.mem_cons_of_mem _ hj)

/-- A new element behind the newest one. -/
theorem Links.push (h : Links next none ks) (hk : next' k = none) (htail : ∀ t ∈ ks.head?, next' t = some k)
    (hrest : ∀ j ∈ ks.tail, next' j = next j) : Links next' none (k :: ks) := by
  refine ⟨hk,?_⟩
  cases ks with
  | nil => trivial
  | cons t ks => exact ⟨htail t rfl,h.2.congr hrest⟩

/-- Visits a chain from its oldest element on, while the elements are inside; nothing when the
fuel runs out first. -/
def walk (next : ℕ → Option ℕ) (inside : ℕ → Bool) (visit : β → ℕ → β) : ℕ → Option ℕ → β → Option β
  | _, none, b => some b
  | 0, some _, _ => none
  | fuel + 1, some k, b => if inside k then walk next inside visit fuel (next k) (visit b k) else some b

theorem walk_links {inside : ℕ → Bool} {visit : β → ℕ → β} (h : Links next after ks)
    (hinside : ∀ k ∈ ks, inside k = true) (fuel : ℕ) (b : β) :
    walk next inside visit (ks.length + fuel) (ks.getLast?.or after) b =
      walk next inside visit fuel after (ks.reverse.foldl visit b) := by
  induction ks generalizing after fuel with
  | nil => simp
  | cons k ks ih =>
    have hlast : (k :: ks).getLast?.or after = ks.getLast?.or (some k) := by
      rw [List.getLast?_cons]
      cases ks.getLast? <;> rfl
    have hrest := ih h.2 (fun j hj => hinside j (List.mem_cons_of_mem _ hj)) (fuel + 1)
    rw [hlast,List.length_cons,Nat.add_assoc,Nat.add_comm 1 fuel,hrest,walk,if_pos (hinside k (List.mem_cons_self ..)),
      h.1,List.reverse_cons,List.foldl_append]
    rfl

/-- The walk of a whole chain. -/
theorem walk_chain {inside : ℕ → Bool} {visit : β → ℕ → β} (h : Links next none ks)
    (hinside : ∀ k ∈ ks, inside k = true) {fuel : ℕ} (hfuel : ks.length ≤ fuel) (b : β) :
    walk next inside visit fuel ks.getLast? b = some (ks.reverse.foldl visit b) := by
  have hwalk : walk next inside visit (ks.length + (fuel - ks.length)) _ b = _ := walk_links h hinside _ b
  rw [Nat.add_sub_cancel' hfuel,Option.or_none] at hwalk
  rw [hwalk]
  unfold walk
  rfl

end EmbedTemplate.PoolChain
