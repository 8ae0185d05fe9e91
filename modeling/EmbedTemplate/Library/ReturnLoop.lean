import Mathlib.Data.List.Basic

/-! # Loops with early return

A `for` loop over a list whose body says whether it leaves the surrounding function. The
rules lift what one round of the body does to the whole loop.
-/
namespace EmbedTemplate.ReturnLoop
variable {α β σ : Type*}

/-- Runs the body for the elements of a list, until it returns; the result says whether it did. -/
def loop (body : α → σ → σ × Bool) : List α → σ → σ × Bool
  | [], s => (s,false)
  | a :: as, s => if (body a s).2 then ((body a s).1,true) else loop body as (body a s).1

variable {body body' : α → σ → σ × Bool}

@[simp] theorem loop_nil (s : σ) : loop body [] s = (s,false) := rfl

/-- A relation that every round keeps, whether it returns or not. -/
theorem loop_relates {R : σ → σ → Prop} (hrefl : ∀ s, R s s) (htrans : ∀ {s t u}, R s t → R t u → R s u)
    {as : List α} (hbody : ∀ a ∈ as, ∀ s, R s (body a s).1) (s : σ) : R s (loop body as s).1 := by
  induction as generalizing s with
  | nil => exact hrefl s
  | cons a as ih =>
    have hhead := hbody a (List.mem_cons_self ..) s
    rw [loop]
    split
    · exact hhead
    · exact htrans hhead (ih (fun b hb => hbody b (List.mem_cons_of_mem _ hb)) _)

/-- An invariant of the rounds. -/
theorem loop_invariant {I : σ → Prop} {as : List α} (hbody : ∀ a ∈ as, ∀ s, I s → I (body a s).1) {s : σ} (hs : I s) :
    I (loop body as s).1 :=
  loop_relates (R := fun s t => I s → I t) (fun _ h => h) (fun h h' hs => h' (h hs)) hbody s hs

/-- Bodies that agree on the elements make equal loops. -/
theorem loop_congr {as : List α} (hbody : ∀ a ∈ as, ∀ s, body a s = body' a s) (s : σ) :
    loop body as s = loop body' as s := by
  induction as generalizing s with
  | nil => rfl
  | cons a as ih =>
    have hhead := hbody a (List.mem_cons_self ..) s
    rw [loop,loop,hhead]
    split
    · rfl
    · exact ih (fun b hb => hbody b (List.mem_cons_of_mem _ hb)) _

/-- As long as what the rounds produce together fits, the loop runs to its end and produces
it all, in order. -/
theorem loop_produces {Fits : List β → Prop} (hfits : ∀ v w, Fits (v ++ w) → Fits v) {out : α → List β}
    {I : List β → σ → Prop} {as : List α}
    (hbody : ∀ a ∈ as, ∀ w s, I w s → Fits (w ++ out a) → (body a s).2 = false ∧ I (w ++ out a) (body a s).1)
    {w : List β} {s : σ} (hs : I w s) (hw : Fits (w ++ as.flatMap out)) :
    (loop body as s).2 = false ∧ I (w ++ as.flatMap out) (loop body as s).1 := by
  induction as generalizing w s with
  | nil => exact ⟨rfl,by simpa using hs⟩
  | cons a as ih =>
    rw [List.flatMap_cons,← List.append_assoc] at hw ⊢
    obtain ⟨hgoes,hnext⟩ := hbody a (List.mem_cons_self ..) w s hs (hfits _ _ hw)
    rw [loop,hgoes]
    exact ih (fun b hb => hbody b (List.mem_cons_of_mem _ hb)) hnext hw

end EmbedTemplate.ReturnLoop
