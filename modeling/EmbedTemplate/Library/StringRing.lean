import EmbedTemplate.Library.Circular

/-! # Terminated strings back to back in a circular buffer

Every string is stored behind the newest one, with its terminator, and may be found again by
going backwards from terminator to terminator. The strings are kept newest first. As long as
some newest strings fit in the buffer together, they lie in one window, and the byte in front
of them is a terminator.
-/
namespace EmbedTemplate.StringRing
open Circular
variable {β : Type*} {n : ℕ} {z : β} {m : ℕ → β} {s t : List β} {strs newer older : List (List β)}

/-- The bytes of the strings, the oldest one first. -/
def encode (z : β) : List (List β) → List β
  | [] => []
  | s :: older => encode z older ++ (s ++ [z])

/-- The number of bytes of the strings with their terminators. -/
def widths : List (List β) → ℕ
  | [] => 0
  | s :: older => widths older + (s.length + 1)

@[simp] theorem widths_cons (s : List β) (older : List (List β)) :
    widths (s :: older) = widths older + (s.length + 1) := rfl

@[simp] theorem encode_length (z : β) (strs : List (List β)) : (encode z strs).length = widths strs := by
  induction strs with
  | nil => rfl
  | cons s older ih => rw [encode,List.length_append,ih,List.length_append,List.length_singleton,widths]

theorem widths_append (newer older : List (List β)) : widths (newer ++ older) = widths newer + widths older := by
  induction newer with
  | nil => exact (Nat.zero_add _).symm
  | cons s newer ih =>
    rw [List.cons_append,widths_cons,widths_cons,ih]
    omega

/-- The newest strings that fit in the buffer together lie in one window behind a terminator. -/
def Laid (n : ℕ) (z : β) (m : ℕ → β) (strs : List (List β)) : Prop :=
  ∀ newer older, strs = newer ++ older → widths newer ≤ n →
    Holds n m (n + widths older) (encode z newer) ∧ m ((n + widths older - 1) % n) = z

theorem laid_nil (hm : ∀ k < n, m k = z) (hn : 0 < n) : Laid n z m [] := by
  intro newer older hsplit _
  obtain ⟨rfl,rfl⟩ := List.append_eq_nil_iff.mp hsplit.symm
  exact ⟨holds_nil _ _ _,hm _ (Nat.mod_lt _ hn)⟩

/-- A string that is stored behind the newest one, and does not reach the physical end. -/
theorem Laid.push (h : Laid n z m strs) (hend : widths strs % n + (s.length + 1) ≤ n) :
    Laid n z (put m (widths strs % n) (s ++ [z])) (s :: strs) := by
  have hlength : (s ++ [z]).length = s.length + 1 := by simp
  have hput : put m (widths strs % n) (s ++ [z]) = store n m (n + widths strs) (s ++ [z]) := by
    rw [put_eq_store n m _ _ (by rw [hlength]; exact hend)]
    exact store_shift m _ (Nat.ModEq.symm (Nat.add_mod_left ..))
  have hterminator : store n m (n + widths strs) (s ++ [z]) ((n + widths strs + s.length) % n) = z := by
    apply store_inside n m _ _ (by rw [hlength]; omega)
    simp
  rw [hput]
  intro newer older hsplit hfits
  cases newer with
  | nil =>
    obtain rfl : s :: strs = older := hsplit
    refine ⟨holds_nil _ _ _,?_⟩
    have hlast : n + widths (s :: strs) - 1 = n + widths strs + s.length := by
      rw [widths_cons]
      omega
    rw [hlast]
    exact hterminator
  | cons s' newer =>
    obtain ⟨rfl,htail⟩ := List.cons.inj hsplit
    obtain rfl : strs = newer ++ older := htail
    rw [widths_cons] at hfits
    rw [widths_append] at hterminator ⊢
    obtain ⟨hheld,hbefore⟩ := h newer older rfl (by omega)
    constructor
    · rw [encode,holds_append,encode_length]
      constructor
      · apply hheld.store_after
        · rw [encode_length]
          omega
        · rw [hlength]
          omega
      · have hpos : n + (widths newer + widths older) = n + widths older + widths newer := by omega
        rw [hpos]
        exact holds_store n m _ _ (by rw [hlength]; omega)
    · rcases Nat.lt_or_ge (widths newer + (s.length + 1)) n with hroom | hfull
      · have hahead : n + widths older - 1 + 0 < n + (widths newer + widths older) := by omega
        refine (store_ahead m (s ++ [z]) hahead ?_).trans hbefore
        rw [hlength]
        omega
      · have hlast : n + (widths newer + widths older) + s.length = n + widths older - 1 + n := by omega
        rw [hlast,Nat.add_mod_right] at hterminator
        exact hterminator

/-- A string that fits with the newer ones, behind a terminator. -/
theorem Laid.item (h : Laid n z m (newer ++ t :: older)) (hfits : widths newer + (t.length + 1) ≤ n) :
    Holds n m (n + widths older) (t ++ [z]) ∧ m ((n + widths older - 1) % n) = z := by
  have hwidth : widths (newer ++ [t]) ≤ n := by
    rw [widths_append]
    simpa [widths] using hfits
  obtain ⟨hheld,hbefore⟩ := h (newer ++ [t]) older (by simp) hwidth
  refine ⟨?_,hbefore⟩
  have hencode : ∀ newer : List (List β), ∃ bs, encode z (newer ++ [t]) = t ++ [z] ++ bs := by
    intro newer
    induction newer with
    | nil => exact ⟨[],by simp [encode]⟩
    | cons s newer ih =>
      obtain ⟨bs,hbs⟩ := ih
      exact ⟨bs ++ (s ++ [z]),by rw [List.cons_append,encode,hbs,List.append_assoc]⟩
  obtain ⟨bs,hbs⟩ := hencode newer
  rw [hbs] at hheld
  exact (holds_append.mp hheld).1

theorem terminator_le {p : ℕ} (hs : Circular.get m p (s.length + 1) = s ++ [z])
    (ht : Circular.get m p (t.length + 1) = t ++ [z]) (hzt : z ∉ t) : t.length ≤ s.length := by
  by_contra hle
  have hlt : s.length < t.length := Nat.lt_of_not_le hle
  have hz : (Circular.get m p (s.length + 1))[s.length]? = some z := by
    rw [hs]
    simp
  have hmem : (Circular.get m p (t.length + 1))[s.length]? = some t[s.length] := by
    rw [ht,List.getElem?_append_left hlt]
    exact List.getElem?_eq_getElem hlt
  rw [get_getElem?,if_pos (Nat.lt_succ_self _)] at hz
  rw [get_getElem?,if_pos (by omega),hz] at hmem
  rw [Option.some.inj hmem] at hzt
  exact hzt (List.getElem_mem hlt)

/-- Two strings without terminator that are read at one address are the same. -/
theorem terminated_inj {p : ℕ} (hs : Circular.get m p (s.length + 1) = s ++ [z])
    (ht : Circular.get m p (t.length + 1) = t ++ [z]) (hzs : z ∉ s) (hzt : z ∉ t) : s = t := by
  have hlength : s.length = t.length := le_antisymm (terminator_le ht hs hzs) (terminator_le hs ht hzt)
  rw [hlength,ht] at hs
  exact (List.append_cancel_right hs).symm

end EmbedTemplate.StringRing
