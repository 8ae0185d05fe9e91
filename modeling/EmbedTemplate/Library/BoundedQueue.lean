import EmbedTemplate.Library.Machine
import Mathlib.Data.List.Infix

/-! # A bounded first-in first-out queue

The queue as a machine over its observable events: elements go in while there is room,
a push is refused exactly when there is none, elements come out in order, and a pop
finds nothing exactly when the queue is empty.
-/
namespace EmbedTemplate.BoundedQueue
open Machine
variable {α : Type*}

inductive Event (α : Type*) where
  | push (a : α)
  | refuse
  | pop (a : α)
  | empty
  deriving DecidableEq

section Step
variable [DecidableEq α]

/-- The queue behind an event, when the event can happen. -/
def step (cap : ℕ) (q : List α) : Event α → Option (List α)
  | .push a => if q.length < cap then some (q ++ [a]) else none
  | .refuse => if q.length = cap then some q else none
  | .pop a =>
    match q with
    | [] => none
    | b :: q => if a = b then some q else none
  | .empty => if q = [] then some q else none

theorem step_push {cap : ℕ} {q : List α} (a : α) (h : q.length < cap) : step cap q (.push a) = some (q ++ [a]) := by
  rw [step,if_pos h]

theorem step_refuse {cap : ℕ} {q : List α} (h : q.length = cap) : step cap q .refuse = some q := by
  rw [step,if_pos h]

@[simp] theorem step_pop (cap : ℕ) (a : α) (q : List α) : step cap (a :: q) (.pop a) = some q := by
  rw [step,if_pos rfl]

@[simp] theorem step_empty (cap : ℕ) : step cap ([] : List α) .empty = some [] := rfl

end Step

/-- The elements that went in. -/
def pushed (events : List (Event α)) : List α :=
  events.filterMap fun e => match e with
    | .push a => some a
    | _ => none

/-- The elements that came out. -/
def popped (events : List (Event α)) : List α :=
  events.filterMap fun e => match e with
    | .pop a => some a
    | _ => none

@[simp] theorem pushed_nil : pushed ([] : List (Event α)) = [] := rfl
@[simp] theorem popped_nil : popped ([] : List (Event α)) = [] := rfl
@[simp] theorem pushed_append (es fs : List (Event α)) : pushed (es ++ fs) = pushed es ++ pushed fs :=
  List.filterMap_append
@[simp] theorem popped_append (es fs : List (Event α)) : popped (es ++ fs) = popped es ++ popped fs :=
  List.filterMap_append

variable [DecidableEq α]

/-- What is in the queue is what went in and has not come out. -/
theorem pushed_eq {cap : ℕ} {q q' : List α} {events : List (Event α)} (h : exec (step cap) q events = some q') :
    q ++ pushed events = popped events ++ q' := by
  induction events generalizing q with
  | nil =>
    cases h
    exact List.append_nil _
  | cons e events ih =>
    obtain ⟨u,hu,hq⟩ := Option.bind_eq_some_iff.mp h
    have hrest := ih hq
    cases e with
    | push a =>
      rw [step] at hu
      split at hu <;> cases hu
      rw [List.append_assoc] at hrest
      exact hrest
    | refuse =>
      rw [step] at hu
      split at hu <;> cases hu
      exact hrest
    | pop a =>
      cases q with
      | nil => cases hu
      | cons b q =>
        rw [step] at hu
        split at hu <;> cases hu
        rename_i hab
        rw [hab]
        exact congrArg (List.cons b) hrest
    | empty =>
      rw [step] at hu
      split at hu <;> cases hu
      exact hrest

theorem popped_front {cap : ℕ} {q : List α} {events : List (Event α)} (h : exec (step cap) [] events = some q) :
    popped events <+: pushed events :=
  ⟨q,(pushed_eq h).symm⟩

/-- The number of elements in the queue, as far as it can be observed. -/
def queued (events : List (Event α)) : ℕ := (pushed events).length - (popped events).length

theorem queued_eq {cap : ℕ} {q : List α} {events : List (Event α)} (h : exec (step cap) [] events = some q) :
    queued events = q.length := by
  rw [queued,← List.nil_append (pushed events),pushed_eq h,List.length_append]
  omega

/-- A push was refused only while the queue was full. -/
theorem refused_full {cap : ℕ} {q : List α} {before after : List (Event α)}
    (h : exec (step cap) [] (before ++ .refuse :: after) = some q) : queued before = cap := by
  obtain ⟨u,v,hu,hv,-⟩ := exec_append_cons _ h
  rw [step] at hv
  split at hv
  · rename_i hcap
    rw [queued_eq hu,hcap]
  · cases hv

/-- A pop found nothing only while the queue was empty. -/
theorem empty_queued {cap : ℕ} {q : List α} {before after : List (Event α)}
    (h : exec (step cap) [] (before ++ .empty :: after) = some q) : queued before = 0 := by
  obtain ⟨u,v,hu,hv,-⟩ := exec_append_cons _ h
  rw [step] at hv
  split at hv
  · rename_i hnil
    rw [queued_eq hu,hnil,List.length_nil]
  · cases hv

end EmbedTemplate.BoundedQueue
