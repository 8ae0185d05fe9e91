import Mathlib.Data.List.Induction

/-! # The last accepted update

A state component that every update either sets or leaves alone holds what the last
update that set it had to say. Updates come in chronological order.
-/
namespace EmbedTemplate.LastWrite
variable {σ γ β : Type*}

/-- What the last update that sets the component sets it to. -/
def last (sets : γ → Option β) (updates : List γ) : Option β := (updates.filterMap sets).getLast?

section Last
variable {sets : γ → Option β}

@[simp] theorem last_nil : last sets [] = none := rfl

theorem last_snoc (updates : List γ) (u : γ) : last sets (updates ++ [u]) = (sets u).or (last sets updates) := by
  rw [last,List.filterMap_append]
  cases hu : sets u with
  | none => simp [hu,last]
  | some v => simp [hu]

@[simp] theorem last_singleton (u : γ) : last sets [u] = sets u := by
  rw [← List.nil_append [u],last_snoc,last_nil,Option.or_none]

theorem last_append (updates later : List γ) :
    last sets (updates ++ later) = (last sets later).or (last sets updates) := by
  induction later using List.reverseRecOn with
  | nil => simp
  | append_singleton later u ih => rw [← List.append_assoc,last_snoc,last_snoc,ih,Option.or_assoc]

theorem last_isSome {updates : List γ} : (last sets updates).isSome ↔ ∃ u ∈ updates, (sets u).isSome := by
  induction updates using List.reverseRecOn with
  | nil => simp
  | append_singleton updates u ih =>
    rw [last_snoc,Option.isSome_or,Bool.or_eq_true,ih]
    constructor
    · rintro (hu | ⟨v,hv,hs⟩)
      · exact ⟨u,by simp,hu⟩
      · exact ⟨v,by simp [hv],hs⟩
    · rintro ⟨v,hv,hs⟩
      rcases List.mem_append.mp hv with hv | hv
      · exact .inr ⟨v,hv,hs⟩
      · rw [List.mem_singleton.mp hv] at hs
        exact .inl hs

/-- Updates that set nothing do not count. -/
theorem last_append_of_none {updates later : List γ} (h : ∀ u ∈ later, sets u = none) :
    last sets (updates ++ later) = last sets updates := by
  have hnil : last sets later = none := by
    rw [last,List.filterMap_eq_nil_iff.mpr h]
    rfl
  rw [last_append,hnil,Option.none_or]

theorem getElem?_snoc {updates : List γ} {u w : γ} {j : ℕ} :
    (updates ++ [u])[j]? = some w ↔ updates[j]? = some w ∨ j = updates.length ∧ u = w := by
  rcases Nat.lt_trichotomy j updates.length with hj | hj | hj
  · rw [List.getElem?_append_left hj]
    exact ⟨.inl,fun h => h.resolve_right fun ⟨he,_⟩ => absurd he (Nat.ne_of_lt hj)⟩
  · subst hj
    simp
  · rw [List.getElem?_eq_none (by simp; omega),List.getElem?_eq_none (by omega)]
    exact ⟨fun h => (by cases h),fun h => (by rcases h with h | ⟨he,_⟩; cases h; omega)⟩

/-- The last update that sets the component stands at some place, and none after it sets it. -/
theorem last_eq_some_iff {updates : List γ} {v : β} : last sets updates = some v ↔
    ∃ (i : ℕ) (u : γ), updates[i]? = some u ∧ sets u = some v ∧
      ∀ (j : ℕ) (w : γ), i < j → updates[j]? = some w → sets w = none := by
  induction updates using List.reverseRecOn generalizing v with
  | nil => simp
  | append_singleton updates u ih =>
    rw [last_snoc]
    have hlength {i : ℕ} {w : γ} (h : updates[i]? = some w) : i < updates.length :=
      (List.getElem?_eq_some_iff.mp h).1
    constructor
    · intro h
      cases hu : sets u with
      | some x =>
        rw [hu,Option.some_or] at h
        refine ⟨updates.length,u,getElem?_snoc.mpr (.inr ⟨rfl,rfl⟩),hu.trans h,?_⟩
        intro j w hj hw
        rcases getElem?_snoc.mp hw with hw | ⟨rfl,_⟩
        · exact absurd (hlength hw) (Nat.not_lt_of_gt hj)
        · exact absurd hj (Nat.lt_irrefl _)
      | none =>
        rw [hu,Option.none_or,ih] at h
        obtain ⟨i,x,hx,hv,hafter⟩ := h
        refine ⟨i,x,getElem?_snoc.mpr (.inl hx),hv,?_⟩
        intro j w hj hw
        rcases getElem?_snoc.mp hw with hw | ⟨_,rfl⟩
        · exact hafter j w hj hw
        · exact hu
    · rintro ⟨i,x,hx,hv,hafter⟩
      rcases getElem?_snoc.mp hx with hx | ⟨_,rfl⟩
      · rw [hafter _ u (hlength hx) (getElem?_snoc.mpr (.inr ⟨rfl,rfl⟩)),Option.none_or,ih]
        refine ⟨i,x,hx,hv,?_⟩
        intro j w hj hw
        exact hafter j w hj (getElem?_snoc.mpr (.inl hw))
      · rw [hv,Option.some_or]

end Last

section Fold
variable {step : σ → γ → σ} {f : σ → β} {I : σ → Prop}

theorem foldl_invariant (hI : ∀ s u, I s → I (step s u)) {s : σ} (hs : I s) (updates : List γ) :
    I (updates.foldl step s) := by
  induction updates generalizing s with
  | nil => exact hs
  | cons u updates ih => exact ih (hI s u hs)

/-- A component with the same rule for every update. -/
theorem foldl_last (hI : ∀ s u, I s → I (step s u)) {sets : γ → Option β}
    (h : ∀ s u, I s → f (step s u) = (sets u).getD (f s)) {s : σ} (hs : I s) (updates : List γ) :
    f (updates.foldl step s) = (last sets updates).getD (f s) := by
  induction updates using List.reverseRecOn with
  | nil => rfl
  | append_singleton updates u ih =>
    rw [List.foldl_append,List.foldl_cons,List.foldl_nil,h _ _ (foldl_invariant hI hs updates),ih,last_snoc]
    cases sets u <;> rfl

/-- A presence bit. -/
theorem foldl_present (hI : ∀ s u, I s → I (step s u)) {p : σ → Bool} {sets : γ → Option β}
    (h : ∀ s u, I s → p (step s u) = (p s || (sets u).isSome)) {s : σ} (hs : I s) (updates : List γ) :
    p (updates.foldl step s) = (p s || (last sets updates).isSome) := by
  induction updates using List.reverseRecOn with
  | nil => simp
  | append_singleton updates u ih =>
    rw [List.foldl_append,List.foldl_cons,List.foldl_nil,h _ _ (foldl_invariant hI hs updates),ih,last_snoc,
      Option.isSome_or,Bool.or_assoc,Bool.or_comm (last sets updates).isSome]

/-- A component whose updates may depend on the state keeps the outcome of the last one that
writes it. -/
theorem foldl_written (hI : ∀ s u, I s → I (step s u)) {writes : γ → Prop}
    (h : ∀ s u, I s → ¬writes u → f (step s u) = f s) {s : σ} (hs : I s) (updates : List γ) :
    (∀ u ∈ updates, ¬writes u) ∧ f (updates.foldl step s) = f s ∨
      ∃ before u later, updates = before ++ u :: later ∧ writes u ∧ (∀ v ∈ later, ¬writes v) ∧
        f (updates.foldl step s) = f (step (before.foldl step s) u) := by
  induction updates using List.reverseRecOn with
  | nil => exact .inl ⟨fun u hu => (by cases hu),rfl⟩
  | append_singleton updates u ih =>
    rw [List.foldl_append,List.foldl_cons,List.foldl_nil]
    by_cases hu : writes u
    · exact .inr ⟨updates,u,[],rfl,hu,fun v hv => (by cases hv),rfl⟩
    rw [h _ _ (foldl_invariant hI hs updates) hu]
    rcases ih with ⟨hnone,hf⟩ | ⟨before,w,later,rfl,hw,hlater,hf⟩
    · refine .inl ⟨fun v hv => ?_,hf⟩
      rcases List.mem_append.mp hv with hv | hv
      · exact hnone v hv
      · rw [List.mem_singleton.mp hv]
        exact hu
    · refine .inr ⟨before,w,later ++ [u],by simp,hw,fun v hv => ?_,hf⟩
      rcases List.mem_append.mp hv with hv | hv
      · exact hlater v hv
      · rw [List.mem_singleton.mp hv]
        exact hu

/-- Updates of a memory that all store the same value. -/
theorem foldl_stores {ι κ : Type*} {g : (κ → β) → ι → κ → β} {stores : ι → κ → Bool} {v : β} {items : List ι}
    (hg : ∀ i ∈ items, ∀ m x, g m i x = if stores i x then v else m x) (m : κ → β) (x : κ) :
    items.foldl g m x = if items.any (stores · x) then v else m x := by
  induction items generalizing m with
  | nil => rfl
  | cons i items ih =>
    rw [List.foldl_cons,ih fun j hj => hg j (List.mem_cons_of_mem i hj),hg i List.mem_cons_self,List.any_cons]
    cases items.any (stores · x) with
    | true => rw [Bool.or_true,if_pos rfl,if_pos rfl]
    | false => rw [Bool.or_false,if_neg Bool.false_ne_true]

end Fold

end EmbedTemplate.LastWrite
