import Mathlib.Algebra.BigOperators.Group.List.Basic
import Mathlib.Algebra.GroupWithZero.Nat
import Mathlib.Data.List.Infix

/-! # Bounded queues that evict their oldest entries

Entries have a weight and the queue a capacity. `push` evicts oldest entries until
the new one fits and appends it, `flush` hands out everything that is pending. The
history of a run splits what was pushed into dropped, delivered, skipped and pending
entries, each pushed entry exactly once and the surviving ones in their order.
-/
namespace EmbedTemplate.EvictingQueue
variable {α : Type*} (w : α → ℕ) (cap : ℕ)

def total (xs : List α) : ℕ := (xs.map w).sum

@[simp] theorem total_nil : total w ([] : List α) = 0 := rfl
@[simp] theorem total_cons (x : α) (xs : List α) : total w (x :: xs) = w x + total w xs := by
  simp [total]
@[simp] theorem total_append (xs ys : List α) : total w (xs ++ ys) = total w xs + total w ys := by
  simp [total]

/-- The longest suffix that leaves room for an entry of weight `need`. -/
def evict (need : ℕ) : List α → List α
  | [] => []
  | x :: xs => if total w (x :: xs) + need ≤ cap then x :: xs else evict need xs

theorem evict_suffix (need : ℕ) (xs : List α) : evict w cap need xs <:+ xs := by
  induction xs with
  | nil => exact List.suffix_rfl
  | cons x xs ih =>
    unfold evict
    split
    · exact List.suffix_rfl
    · exact ih.trans (List.suffix_cons x xs)

theorem evict_eq_self {need : ℕ} {xs : List α} (h : total w xs + need ≤ cap) :
    evict w cap need xs = xs := by
  cases xs with
  | nil => rfl
  | cons x xs => rw [evict,if_pos h]

/-- What room for a new entry costs: the entries in front of those that stay. -/
def evicted (need : ℕ) (xs : List α) : List α := xs.take (xs.length - (evict w cap need xs).length)

theorem evicted_append_evict (need : ℕ) (xs : List α) :
    evicted w cap need xs ++ evict w cap need xs = xs := by
  obtain ⟨pre,hpre⟩ := evict_suffix w cap need xs
  have hlen : xs.length - (evict w cap need xs).length = pre.length := by
    rw [← congrArg List.length hpre,List.length_append,Nat.add_sub_cancel]
  have htake : evicted w cap need xs = pre := by
    rw [evicted,hlen]
    nth_rewrite 1 [← hpre]
    exact List.take_left
  rw [htake,hpre]

/-- How an entry left the queue. -/
inductive Fate where
  | dropped
  | delivered
  | skipped
  deriving DecidableEq

/-- The entries still pending, and those that left, in the order in which they did. -/
structure State (α : Type*) where
  pending : List α
  history : List (α × Fate)

/-- A flush hands its entries to an observer or skips them. -/
inductive Op (α : Type*) where
  | push (x : α)
  | flush (observed : Bool)

def empty : State α := ⟨[],[]⟩

def push (s : State α) (x : α) : State α where
  pending := evict w cap (w x) s.pending ++ [x]
  history := s.history ++ (evicted w cap (w x) s.pending).map fun y => (y,.dropped)

def flush (s : State α) (observed : Bool) : State α where
  pending := []
  history := s.history ++ s.pending.map fun y => (y,if observed then .delivered else .skipped)

def step (s : State α) : Op α → State α
  | .push x => push w cap s x
  | .flush b => flush s b

def run (s : State α) (ops : List (Op α)) : State α := ops.foldl (step w cap) s

@[simp] theorem run_nil (s : State α) : run w cap s [] = s := rfl
@[simp] theorem run_cons (s : State α) (op : Op α) (ops : List (Op α)) :
    run w cap s (op :: ops) = run w cap (step w cap s op) ops := rfl

def pushed : List (Op α) → List α
  | [] => []
  | .push x :: ops => x :: pushed ops
  | .flush _ :: ops => pushed ops

/-- The entries that left in a given way. -/
def State.fated (s : State α) (f : Fate) : List α :=
  s.history.filterMap fun e => if e.2 = f then some e.1 else none

private theorem filterMap_tagged (xs : List α) (f g : Fate) :
    (xs.map fun y => (y,g)).filterMap (fun e => if e.2 = f then some e.1 else none) =
      if f = g then xs else [] := by
  rw [List.filterMap_map]
  split
  · rename_i h
    simp [h]
  · rename_i h
    simp [Ne.symm h]

theorem fated_push (s : State α) (x : α) (f : Fate) : (push w cap s x).fated f =
    s.fated f ++ if f = .dropped then evicted w cap (w x) s.pending else [] := by
  simp only [State.fated,push,List.filterMap_append,filterMap_tagged]

theorem fated_flush (s : State α) (b : Bool) (f : Fate) : (flush s b).fated f =
    s.fated f ++ if f = (if b then .delivered else .skipped) then s.pending else [] := by
  simp only [State.fated,flush,List.filterMap_append,filterMap_tagged]

theorem run_history_from (s : State α) (ops : List (Op α)) :
    (run w cap s ops).history.map Prod.fst ++ (run w cap s ops).pending =
      s.history.map Prod.fst ++ s.pending ++ pushed ops := by
  induction ops generalizing s with
  | nil => simp [pushed]
  | cons op ops ih =>
    rw [run_cons,ih]
    cases op with
    | push x =>
      have hsplit := evicted_append_evict w cap (w x) s.pending
      simp only [step,push,pushed,List.map_append,List.map_map,Function.comp_def,List.map_id']
      nth_rewrite 3 [← hsplit]
      simp
    | flush b => simp [step,flush,pushed,Function.comp_def]

/-- Every entry pushed has left or is pending: once, and in the order of the pushes. -/
theorem run_history (ops : List (Op α)) :
    (run w cap empty ops).history.map Prod.fst ++ (run w cap empty ops).pending = pushed ops :=
  run_history_from w cap empty ops

theorem fated_sublist (s : State α) (f : Fate) : (s.fated f).Sublist (s.history.map Prod.fst) := by
  rw [State.fated]
  induction s.history with
  | nil => exact List.Sublist.slnil
  | cons e es ih =>
    rw [List.filterMap_cons,List.map_cons]
    split
    · exact ih.cons _
    · rename_i y hy
      split at hy
      · cases hy
        exact ih.cons_cons _
      · cases hy

theorem fated_sublist_pushed (ops : List (Op α)) (f : Fate) :
    ((run w cap empty ops).fated f).Sublist (pushed ops) := by
  rw [← run_history w cap ops]
  exact (fated_sublist _ f).trans (List.sublist_append_left _ _)

/-- The entries that left are counted by how they did. -/
theorem history_length (s : State α) : s.history.length =
    (s.fated .dropped).length + (s.fated .delivered).length + (s.fated .skipped).length := by
  unfold State.fated
  induction s.history with
  | nil => rfl
  | cons e es ih =>
    rcases e with ⟨y,f⟩
    cases f <;> simp [ih] <;> omega

end EmbedTemplate.EvictingQueue
