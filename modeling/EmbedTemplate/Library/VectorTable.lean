import EmbedTemplate.Library.LastWrite
import Mathlib.Logic.Function.Basic
import Mathlib.Data.List.Basic

/-! # A table of handlers with an index over keys

Requests append their handler to a table of bounded size, and the index names the newest
slot of each key. A key then leads to the last accepted request that names it.
-/
namespace EmbedTemplate.VectorTable
open LastWrite
variable {ι η : Type*} [DecidableEq ι]

structure Table (ι η : Type*) where
  handlers : List η
  slot : ι → Option ℕ

def Table.empty : Table ι η := ⟨[],fun _ => none⟩

/-- A request beyond the capacity is turned down. -/
def Table.register (capacity : ℕ) (t : Table ι η) (request : ι × η) : Table ι η :=
  if t.handlers.length < capacity then
    ⟨t.handlers ++ [request.2],Function.update t.slot request.1 (some t.handlers.length)⟩
  else t

def Table.handler (t : Table ι η) (key : ι) : Option η := (t.slot key).bind fun n => t.handlers[n]?

/-- The handler that a request puts under a key. -/
def puts (key : ι) (request : ι × η) : Option η := if request.1 = key then some request.2 else none

theorem puts_eq_some {key : ι} {request : ι × η} {h : η} : puts key request = some h ↔ request = ⟨key,h⟩ := by
  rw [puts,Option.ite_none_right_eq_some,Option.some.injEq,Prod.ext_iff]

theorem puts_eq_none {key : ι} {request : ι × η} : puts key request = none ↔ request.1 ≠ key := by
  rw [puts,ite_eq_right_iff]
  exact ⟨fun h hkey => (by cases h hkey),fun h hkey => absurd hkey h⟩

/-- Where no key comes twice, a key leads to its only request. -/
theorem last_puts_of_nodup {requests : List (ι × η)} (h : (requests.map Prod.fst).Nodup) {key : ι} {v : η}
    (hmem : (key,v) ∈ requests) : last (puts key) requests = some v := by
  induction requests using List.reverseRecOn with
  | nil => cases hmem
  | append_singleton requests request ih =>
    rw [List.map_append,List.nodup_append] at h
    obtain ⟨hnodup,_,hapart⟩ := h
    rw [last_snoc]
    rcases List.mem_append.mp hmem with hmem | hmem
    · have hne : request.1 ≠ key :=
        (hapart key (List.mem_map_of_mem (f := Prod.fst) hmem) request.1 (List.mem_singleton_self _)).symm
      rw [puts_eq_none.mpr hne,Option.none_or]
      exact ih hnodup hmem
    · rw [puts_eq_some.mpr (List.mem_singleton.mp hmem).symm]
      rfl

/-- The table after a list of requests. -/
def Table.after (capacity : ℕ) (requests : List (ι × η)) : Table ι η := requests.foldl (register capacity) empty

section After
variable {capacity : ℕ} {requests : List (ι × η)}

theorem Table.after_snoc (request : ι × η) :
    after capacity (requests ++ [request]) = (after capacity requests).register capacity request := by
  rw [after,List.foldl_append,List.foldl_cons,List.foldl_nil,after]

/-- The table holds the first requests, as many as it has room for. -/
theorem Table.handlers_after : (after capacity requests).handlers = (requests.take capacity).map Prod.snd := by
  induction requests using List.reverseRecOn with
  | nil => simp [after,empty]
  | append_singleton requests request ih =>
    have hlength : (after capacity requests).handlers.length = min capacity requests.length := by
      rw [ih,List.length_map,List.length_take]
    rw [after_snoc,register]
    by_cases hroom : requests.length < capacity
    · rw [if_pos (by omega)]
      rw [ih,List.take_of_length_le (by omega),List.take_of_length_le (by simp; omega),List.map_append]
      rfl
    · rw [if_neg (by omega),ih,List.take_append_of_le_length (by omega)]

theorem Table.slot_lt {key : ι} {n : ℕ} (h : (after capacity requests).slot key = some n) :
    n < (after capacity requests).handlers.length := by
  induction requests using List.reverseRecOn generalizing n with
  | nil => cases h
  | append_singleton requests request ih =>
    rw [after_snoc,register] at h ⊢
    split at h
    next hroom =>
      rw [if_pos hroom,List.length_append,List.length_singleton]
      dsimp only at h
      by_cases hkey : key = request.1
      · rw [hkey,Function.update_self,Option.some.injEq] at h
        omega
      · rw [Function.update_of_ne hkey] at h
        exact Nat.lt_succ_of_lt (ih h)
    next hroom =>
      rw [if_neg hroom]
      exact ih h

theorem Table.handler_register (request : ι × η) (key : ι) :
    ((after capacity requests).register capacity request).handler key =
      if (after capacity requests).handlers.length < capacity then
        (puts key request).or ((after capacity requests).handler key)
      else (after capacity requests).handler key := by
  rw [register]
  split
  next hroom =>
    rw [puts]
    by_cases hkey : request.1 = key
    · subst hkey
      simp [handler]
    · rw [if_neg hkey,Option.none_or,handler,handler]
      dsimp only
      rw [Function.update_of_ne (Ne.symm hkey)]
      refine Option.bind_congr fun n hn => ?_
      exact List.getElem?_append_left (slot_lt hn)
  next => rfl

/-- A key leads to the last accepted request that names it. -/
theorem Table.handler_after (key : ι) :
    (after capacity requests).handler key = last (puts key) (requests.take capacity) := by
  induction requests using List.reverseRecOn with
  | nil => simp [after,empty,handler]
  | append_singleton requests request ih =>
    rw [after_snoc,handler_register,handlers_after,List.length_map,List.length_take,ih]
    by_cases hroom : requests.length < capacity
    · rw [if_pos (by omega),List.take_of_length_le (l := requests) (by omega),
        List.take_of_length_le (by simp; omega),last_snoc]
    · rw [if_neg (by omega),List.take_append_of_le_length (by omega)]

end After

end EmbedTemplate.VectorTable
