import Mathlib.Data.List.Basic

/-! # Labelled partial machines and guarded runs

A machine is a partial step function on states and labels. `exec` runs a list of
labels, `Meets` says that every step of a run is taken in a state that satisfies a
guard. An invariant that every guarded step preserves holds in every state that a
guarded run reaches.
-/
namespace EmbedTemplate.Machine
variable {σ α : Type*} (step : σ → α → Option σ)

/-- The state after a list of labels, when every step is enabled. -/
def exec : σ → List α → Option σ
  | s, [] => some s
  | s, a :: as => (step s a).bind fun t => exec t as

/-- Every step of the run satisfies the guard in the state it is taken in. -/
def Meets (G : σ → α → Prop) : σ → List α → Prop
  | _, [] => True
  | s, a :: as => G s a ∧ ∀ t, step s a = some t → Meets G t as

@[simp] theorem exec_nil (s : σ) : exec step s [] = some s := rfl
@[simp] theorem exec_cons (s : σ) (a : α) (as : List α) :
    exec step s (a :: as) = (step s a).bind fun t => exec step t as := rfl

theorem exec_append (s : σ) (as bs : List α) :
    exec step s (as ++ bs) = (exec step s as).bind fun t => exec step t bs := by
  induction as generalizing s with
  | nil => rfl
  | cons a as ih =>
    rw [List.cons_append,exec_cons,exec_cons]
    cases step s a with
    | none => rfl
    | some t => exact ih t

theorem exec_append_cons {s t : σ} {as bs : List α} {a : α} (h : exec step s (as ++ a :: bs) = some t) :
    ∃ u v, exec step s as = some u ∧ step u a = some v ∧ exec step v bs = some t := by
  rw [exec_append] at h
  obtain ⟨u,hu,h⟩ := Option.bind_eq_some_iff.mp h
  obtain ⟨v,hv,h⟩ := Option.bind_eq_some_iff.mp h
  exact ⟨u,v,hu,hv,h⟩

theorem meets_append {G : σ → α → Prop} {s : σ} {as bs : List α} :
    Meets step G s (as ++ bs) ↔
      Meets step G s as ∧ ∀ t, exec step s as = some t → Meets step G t bs := by
  induction as generalizing s with
  | nil => simp [Meets]
  | cons a as ih =>
    simp only [List.cons_append,Meets,exec_cons,Option.bind_eq_some_iff,ih]
    constructor
    · rintro ⟨hg,h⟩
      exact ⟨⟨hg,fun t ht => (h t ht).1⟩,fun u ⟨t,ht,hu⟩ => (h t ht).2 u hu⟩
    · rintro ⟨⟨hg,h⟩,hb⟩
      exact ⟨hg,fun t ht => ⟨h t ht,fun u hu => hb u ⟨t,ht,hu⟩⟩⟩

/-- Checks a guard along a run. -/
def check (G : σ → α → Prop) [∀ s a, Decidable (G s a)] : σ → List α → Bool
  | _, [] => true
  | s, a :: as => decide (G s a) && (step s a).all fun t => check G t as

theorem check_eq_true {G : σ → α → Prop} [∀ s a, Decidable (G s a)] {s : σ} {as : List α} :
    check step G s as = true ↔ Meets step G s as := by
  induction as generalizing s with
  | nil => simp [check,Meets]
  | cons a as ih =>
    rw [check,Meets,Bool.and_eq_true,decide_eq_true_iff,Option.all_eq_true]
    exact and_congr_right fun _ => forall₂_congr fun t _ => ih

instance (G : σ → α → Prop) [∀ s a, Decidable (G s a)] (s : σ) (as : List α) :
    Decidable (Meets step G s as) := decidable_of_iff _ (check_eq_true step)

theorem Meets.mono {G G' : σ → α → Prop} (hG : ∀ s a, G s a → G' s a) {s : σ} {as : List α}
    (h : Meets step G s as) : Meets step G' s as := by
  induction as generalizing s with
  | nil => trivial
  | cons a as ih => exact ⟨hG s a h.1,fun t ht => ih (h.2 t ht)⟩

/-- What all labels of a run satisfy may be added to the guard. -/
theorem Meets.and_labels {G : σ → α → Prop} {P : α → Prop} {s : σ} {as : List α} (h : Meets step G s as)
    (hP : ∀ a ∈ as, P a) : Meets step (fun s a => G s a ∧ P a) s as := by
  induction as generalizing s with
  | nil => trivial
  | cons a as ih =>
    rw [List.forall_mem_cons] at hP
    exact ⟨⟨h.1,hP.1⟩,fun t ht => ih (h.2 t ht) hP.2⟩

/-- An invariant of the guarded steps holds wherever a guarded run leads. -/
theorem invariant {G : σ → α → Prop} {I : σ → Prop}
    (hstep : ∀ s a t, I s → G s a → step s a = some t → I t) {s t : σ} {as : List α}
    (hs : I s) (hG : Meets step G s as) (he : exec step s as = some t) : I t := by
  induction as generalizing s with
  | nil => cases he; exact hs
  | cons a as ih =>
    obtain ⟨u,hu,ht⟩ := Option.bind_eq_some_iff.mp he
    exact ih (hstep s a u hs hG.1 hu) (hG.2 u hu) ht

/-- Unguarded form: an invariant of all steps holds in every reachable state. -/
theorem reachable {I : σ → Prop} (hstep : ∀ s a t, I s → step s a = some t → I t)
    {s t : σ} {as : List α} (hs : I s) (he : exec step s as = some t) : I t := by
  induction as generalizing s with
  | nil => cases he; exact hs
  | cons a as ih =>
    obtain ⟨u,hu,ht⟩ := Option.bind_eq_some_iff.mp he
    exact ih (hstep s a u hs hu) ht

/-- Guards that agree wherever an invariant holds are met by the same runs, when the guarded
steps keep the invariant. -/
theorem meets_congr_guarded {G G' : σ → α → Prop} {I : σ → Prop}
    (hstep : ∀ s a t, I s → G s a → step s a = some t → I t) (hG : ∀ s a, I s → (G s a ↔ G' s a)) {s : σ} (hs : I s)
    (as : List α) : Meets step G s as ↔ Meets step G' s as := by
  induction as generalizing s with
  | nil => exact Iff.rfl
  | cons a as ih =>
    constructor
    · rintro ⟨hg,h⟩
      exact ⟨(hG s a hs).mp hg,fun t ht => (ih (hstep s a t hs hg ht)).mp (h t ht)⟩
    · rintro ⟨hg',h⟩
      have hg := (hG s a hs).mpr hg'
      exact ⟨hg,fun t ht => (ih (hstep s a t hs hg ht)).mpr (h t ht)⟩

/-- Guards that agree wherever an invariant holds are met by the same runs. -/
theorem meets_congr {G G' : σ → α → Prop} {I : σ → Prop} (hstep : ∀ s a t, I s → step s a = some t → I t)
    (hG : ∀ s a, I s → (G s a ↔ G' s a)) {s : σ} (hs : I s) (as : List α) :
    Meets step G s as ↔ Meets step G' s as :=
  meets_congr_guarded step (fun s a t h _ ht => hstep s a t h ht) hG hs as

/-- A machine that is not stuck where an invariant holds runs every list of labels. -/
theorem exec_total {I : σ → Prop} (hstep : ∀ s a, I s → ∃ t, step s a = some t ∧ I t) {s : σ} (hs : I s)
    (as : List α) : ∃ t, exec step s as = some t ∧ I t := by
  induction as generalizing s with
  | nil => exact ⟨s,rfl,hs⟩
  | cons a as ih =>
    obtain ⟨u,hu,hI⟩ := hstep s a hs
    obtain ⟨t,ht,hI⟩ := ih hI
    exact ⟨t,by rw [exec_cons,hu]; exact ht,hI⟩

/-- Where the guard says when a step is enabled, the runs that go through are those that meet it. -/
theorem exec_iff_meets {G : σ → α → Prop} {I : σ → Prop} (hG : ∀ s a, I s → ((∃ t, step s a = some t) ↔ G s a))
    (hstep : ∀ s a t, I s → step s a = some t → I t) {s : σ} (hs : I s) (as : List α) :
    (∃ t, exec step s as = some t) ↔ Meets step G s as := by
  induction as generalizing s with
  | nil => exact ⟨fun _ => trivial,fun _ => ⟨s,rfl⟩⟩
  | cons a as ih =>
    rw [Meets,← hG s a hs]
    constructor
    · rintro ⟨t,ht⟩
      obtain ⟨u,hu,htail⟩ := Option.bind_eq_some_iff.mp ht
      refine ⟨⟨u,hu⟩,fun v hv => ?_⟩
      rw [hu] at hv
      cases hv
      exact (ih (hstep s a u hs hu)).mp ⟨t,htail⟩
    · rintro ⟨⟨u,hu⟩,htail⟩
      obtain ⟨t,ht⟩ := (ih (hstep s a u hs hu)).mpr (htail u hu)
      exact ⟨t,by rw [exec_cons,hu]; exact ht⟩

/-- Steps with one and the same label lead from a state to another. -/
def Repeats (a : α) (s t : σ) : Prop := ∃ k, exec step s (List.replicate k a) = some t

theorem Repeats.refl (a : α) (s : σ) : Repeats step a s s := ⟨0,rfl⟩

variable {step}

theorem Repeats.head {a : α} {s t u : σ} (h : step s a = some t) (ht : Repeats step a t u) :
    Repeats step a s u := by
  obtain ⟨k,hk⟩ := ht
  exact ⟨k + 1,by rw [List.replicate_succ,exec_cons,h]; exact hk⟩

theorem Repeats.trans {a : α} {s t u : σ} (h : Repeats step a s t) (h' : Repeats step a t u) :
    Repeats step a s u := by
  obtain ⟨k,hk⟩ := h
  obtain ⟨k',hk'⟩ := h'
  exact ⟨k + k',by rw [List.replicate_add,exec_append,hk]; exact hk'⟩

/-- A numbered chain of steps. -/
theorem Repeats.chain {a : α} (P : ℕ → σ) {j k : ℕ} (hjk : j ≤ k)
    (h : ∀ i, j ≤ i → i < k → step (P i) a = some (P (i + 1))) : Repeats step a (P j) (P k) := by
  induction hjk with
  | refl => exact Repeats.refl step a _
  | @step k hjk ih =>
    refine (ih fun i hi hk => h i hi (Nat.lt_succ_of_lt hk)).trans ?_
    exact Repeats.head (h k hjk (Nat.lt_succ_self k)) (Repeats.refl step a _)

/-- A repetition that is still on its way goes through the next state. -/
theorem Repeats.next {a : α} {s t u : σ} (h : Repeats step a s u) (hs : step s a = some t)
    (hu : step u a = none) : Repeats step a t u := by
  obtain ⟨k,hk⟩ := h
  cases k with
  | zero =>
    obtain rfl : s = u := Option.some.inj hk
    rw [hs] at hu
    cases hu
  | succ k =>
    rw [List.replicate_succ,exec_cons,hs] at hk
    exact ⟨k,hk⟩

/-- A repetition from a state without a step has ended there. -/
theorem Repeats.eq_of_stopped {a : α} {s u : σ} (h : Repeats step a s u) (hs : step s a = none) :
    s = u := by
  obtain ⟨k,hk⟩ := h
  cases k with
  | zero => exact Option.some.inj hk
  | succ k =>
    rw [List.replicate_succ,exec_cons,hs] at hk
    cases hk

end EmbedTemplate.Machine
