import Mathlib.Data.List.Basic

/-! # Programs that end without a fault

A program with fuel is a function from its fuel to an optional result: nothing when the fuel
runs out, or when an access leaves its table. The rules below bound the fuel that a program
needs, and carry a postcondition with the bound.
-/
namespace EmbedTemplate.FuelBound
universe u
variable {α β σ : Type u} {ι : Type*} {n m k : ℕ}

/-- With fuel `n` or more the program has a result, always the same, and it satisfies `Q`. -/
def Settles (n : ℕ) (p : ℕ → Option α) (Q : α → Prop) : Prop := ∃ a, Q a ∧ ∀ fuel, n ≤ fuel → p fuel = some a

/-- A checked access to a row of a table, which the access may change. -/
def atRow (t : Vector α k) (i : ℕ) (f : α → Option α) : Option (Vector α k) :=
  if h : i < k then (f t[i]).map fun a => t.set i a else none

/-- An access to a row inside the table succeeds. -/
theorem exists_atRow {t : Vector α k} {i : ℕ} {f : α → Option α} (hi : i < k) (hf : ∀ a, ∃ b, f a = some b) :
    ∃ t', atRow t i f = some t' := by
  obtain ⟨b,hb⟩ := hf t[i]
  refine ⟨t.set i b,?_⟩
  rw [atRow,dif_pos hi,hb]
  rfl

/-- A loop over a list whose body may return from the surrounding function. -/
def loop (body : ι → σ → Option (σ × Bool)) : List ι → σ → Option (σ × Bool)
  | [], s => some (s,false)
  | a :: as, s => do
    let r ← body a s
    if r.2 then some (r.1,true) else loop body as r.1

namespace Settles
variable {p : ℕ → Option α} {P Q : α → Prop}

theorem pure {a : α} (h : Q a) : Settles n (fun _ => some a) Q := ⟨a,h,fun _ _ => rfl⟩

theorem mono (h : Settles n p P) (hPQ : ∀ a, P a → Q a) : Settles n p Q := by
  obtain ⟨a,ha,hp⟩ := h
  exact ⟨a,hPQ a ha,hp⟩

theorem later (h : Settles n p Q) (hnm : n ≤ m) : Settles m p Q := by
  obtain ⟨a,ha,hp⟩ := h
  exact ⟨a,ha,fun fuel hfuel => hp fuel (Nat.le_trans hnm hfuel)⟩

theorem bind {q : α → ℕ → Option β} {R : β → Prop} (h : Settles n p P) (hq : ∀ a, P a → Settles n (q a) R) :
    Settles n (fun fuel => p fuel >>= fun a => q a fuel) R := by
  obtain ⟨a,ha,hp⟩ := h
  obtain ⟨b,hb,hqb⟩ := hq a ha
  refine ⟨b,hb,fun fuel hfuel => ?_⟩
  simp only [hp fuel hfuel]
  exact hqb fuel hfuel

/-- A step of the recursion costs one unit of fuel. -/
theorem succ (h : Settles n (fun fuel => p (fuel + 1)) Q) : Settles (n + 1) p Q := by
  obtain ⟨a,ha,hp⟩ := h
  refine ⟨a,ha,fun fuel hfuel => ?_⟩
  obtain ⟨fuel,rfl⟩ : ∃ f, fuel = f + 1 := ⟨fuel - 1,by omega⟩
  exact hp fuel (by omega)

/-- A loop whose rounds settle and keep an invariant. -/
theorem loop {body : ℕ → ι → σ → Option (σ × Bool)} {I : σ → Prop} {bs : List ι}
    (hbody : ∀ b ∈ bs, ∀ s, I s → Settles n (fun fuel => body fuel b s) fun r => I r.1) {s : σ} (hs : I s) :
    Settles n (fun fuel => loop (body fuel) bs s) fun r => I r.1 := by
  induction bs generalizing s with
  | nil => exact .pure hs
  | cons b bs ih =>
    unfold FuelBound.loop
    refine (hbody b (List.mem_cons_self ..) s hs).bind fun r hr => ?_
    by_cases hreturn : r.2
    · simp only [hreturn,if_true]
      exact .pure hr
    · simp only [hreturn]
      exact ih (fun b' hb' => hbody b' (List.mem_cons_of_mem _ hb')) hr

end Settles

end EmbedTemplate.FuelBound
