import EmbedTemplate.Library.Bytes
import EmbedTemplate.Library.VectorTable

/-! # The interrupt controllers

`gic.c` and `apic.c`: handlers are appended to a table, and a lookup table over the
interrupt ids names their slots.
-/
namespace EmbedTemplate.Interrupt
open Bytes VectorTable

def maxIrqs : ℕ := 32
/-- `GIC_NULL_INDEX`, `NULL_INDEX`. -/
def nullIndex : ℕ := 0xFF
def x86IrqVectorBase : ℕ := 0x30
def msiIrqOffset : ℕ := 16
def msiIrqVectorBase : ℕ := x86IrqVectorBase + msiIrqOffset

/-- `MAX_IRQ_ID` of `gic.h` and of `apic.h`. -/
def gicMaxIrqId : ℕ := 255
def apicMaxIrqId : ℕ := msiIrqOffset + 8

/-- The handlers there are: the trampolines of the MSI vectors and those of the drivers. -/
inductive Handler where
  | pcieMsiTrampoline (index : ℕ)
  | driver (name : ℕ)
  deriving DecidableEq

structure Controller where
  irqLookupTable : List ℕ
  irqHandlerTable : List (Option Handler)
  irqCount : ℕ
  deriving DecidableEq

/-- What a call through the tables comes to: an index beyond the table and an empty slot are
undefined behaviour. -/
inductive Dispatch where
  | ran (h : Handler)
  | nothing
  | undefined
  deriving DecidableEq

/-- The tables that `init_gic` and `init_apic` leave. -/
def initController (maxIrqId : ℕ) : Controller where
  irqLookupTable := List.replicate (maxIrqId + 1) nullIndex
  irqHandlerTable := List.replicate maxIrqs none
  irqCount := 0

/-- `none` stands for the result -1. -/
def registerInterrupt (maxIrqId : ℕ) (c : Controller) (irqId : ℕ) (handler : Option Handler) : Option Controller :=
  let irqId := u16 irqId
  if irqId > maxIrqId ∨ handler = none ∨ c.irqCount ≥ maxIrqs then none
  else some
    { irqHandlerTable := c.irqHandlerTable.set c.irqCount handler
      irqLookupTable := c.irqLookupTable.set irqId (u8 c.irqCount)
      irqCount := c.irqCount + 1 }

def gicRegisterInterrupt : Controller → ℕ → Option Handler → Option Controller := registerInterrupt gicMaxIrqId
def apicRegisterInterrupt : Controller → ℕ → Option Handler → Option Controller := registerInterrupt apicMaxIrqId

/-- The call through the slot that the lookup table names, in either build. -/
def callHandler (enableSafetyCheck : Bool) (c : Controller) (irqId : ℕ) : Dispatch :=
  match c.irqLookupTable[irqId]? with
  | none => .undefined
  | some idx =>
    if enableSafetyCheck then
      if idx < c.irqCount then
        match c.irqHandlerTable[idx]? with
        | some (some h) => .ran h
        | _ => .nothing
      else .nothing
    else
      match c.irqHandlerTable[idx]? with
      | some (some h) => .ran h
      | _ => .undefined

def gicDispatchInterrupt : Bool → Controller → ℕ → Dispatch := callHandler

/-- The common handler of the GIC ports; the interrupt id is in the low ten bits. -/
def vApplicationIRQHandler (enableSafetyCheck : Bool) (c : Controller) (icciar : ℕ) : Dispatch :=
  gicDispatchInterrupt enableSafetyCheck c (icciar &&& 0x3FF)

def apicDispatchInterrupt (enableSafetyCheck : Bool) (c : Controller) (vectorId : ℕ) : Dispatch :=
  if vectorId ≥ x86IrqVectorBase then
    let irqId := vectorId - x86IrqVectorBase
    if irqId ≤ apicMaxIrqId then callHandler enableSafetyCheck c irqId else .nothing
  else .nothing

/-- The tables store a table of handlers with an index. -/
structure Stores (maxIrqId : ℕ) (c : Controller) (t : Table ℕ Handler) : Prop where
  room : t.handlers.length ≤ maxIrqs
  count : c.irqCount = t.handlers.length
  handlers : c.irqHandlerTable = t.handlers.map some ++ List.replicate (maxIrqs - t.handlers.length) none
  lookup : ∀ irqId, c.irqLookupTable[irqId]? = if irqId ≤ maxIrqId then some ((t.slot irqId).getD nullIndex) else none
  slot : ∀ irqId n, t.slot irqId = some n → n < t.handlers.length

section Stores
variable {maxIrqId : ℕ} {c : Controller} {t : Table ℕ Handler}

theorem Stores.init : Stores maxIrqId (initController maxIrqId) Table.empty where
  room := Nat.zero_le _
  count := rfl
  handlers := rfl
  lookup irqId := by
    rw [initController,List.getElem?_replicate]
    exact if_congr Nat.lt_succ_iff rfl rfl
  slot irqId n h := by cases h

theorem Stores.lookup_length (hs : Stores maxIrqId c t) {irqId : ℕ} (hid : irqId ≤ maxIrqId) :
    irqId < c.irqLookupTable.length := by
  have hsome := hs.lookup irqId
  rw [if_pos hid] at hsome
  exact (List.getElem?_eq_some_iff.mp hsome).1

theorem handlers_set {handlers : List Handler} (h : Handler) (hroom : handlers.length < maxIrqs) :
    (handlers.map some ++ List.replicate (maxIrqs - handlers.length) none).set handlers.length (some h) =
      (handlers ++ [h]).map some ++ List.replicate (maxIrqs - (handlers ++ [h]).length) none := by
  obtain ⟨k,hk⟩ : ∃ k, maxIrqs - handlers.length = k + 1 := ⟨maxIrqs - handlers.length - 1,by omega⟩
  have hrest : maxIrqs - (handlers ++ [h]).length = k := by
    rw [List.length_append,List.length_singleton]
    omega
  rw [hk,hrest,List.replicate_succ,List.set_append_right _ _ (by rw [List.length_map]),List.length_map,Nat.sub_self,
    List.set_cons_zero,List.map_append,List.append_assoc]
  rfl

/-- A valid request that finds room is appended on both sides. -/
theorem Stores.append (hs : Stores maxIrqId c t) {irqId : ℕ} (h : Handler) (hid : irqId ≤ maxIrqId)
    (hroom : t.handlers.length < maxIrqs) :
    Stores maxIrqId
      { irqHandlerTable := c.irqHandlerTable.set c.irqCount (some h)
        irqLookupTable := c.irqLookupTable.set irqId (u8 c.irqCount)
        irqCount := c.irqCount + 1 }
      ⟨t.handlers ++ [h],Function.update t.slot irqId (some t.handlers.length)⟩ where
  room := by
    rw [List.length_append,List.length_singleton]
    exact hroom
  count := by
    rw [List.length_append,List.length_singleton,hs.count]
  handlers := by
    rw [hs.handlers,hs.count]
    exact handlers_set h hroom
  lookup j := by
    have hbyte : u8 c.irqCount = t.handlers.length := by
      rw [hs.count]
      exact u8_of_lt (by unfold maxIrqs at hroom; omega)
    rw [List.getElem?_set,hs.lookup,hbyte]
    dsimp only
    by_cases hj : irqId = j
    · subst hj
      rw [if_pos rfl,if_pos (hs.lookup_length hid),if_pos hid,Function.update_self]
      rfl
    · rw [if_neg hj,Function.update_of_ne (Ne.symm hj)]
  slot j n hn := by
    rw [List.length_append,List.length_singleton]
    dsimp only at hn
    by_cases hj : j = irqId
    · subst hj
      rw [Function.update_self,Option.some.injEq] at hn
      omega
    · rw [Function.update_of_ne hj] at hn
      exact Nat.lt_succ_of_lt (hs.slot j n hn)

/-- The request that a registration makes when its arguments are valid. -/
def request (maxIrqId irqId : ℕ) (handler : Option Handler) : Option (ℕ × Handler) :=
  if u16 irqId ≤ maxIrqId then handler.map fun h => (u16 irqId,h) else none

theorem Stores.register (hs : Stores maxIrqId c t) (irqId : ℕ) (handler : Option Handler) :
    Stores maxIrqId ((registerInterrupt maxIrqId c irqId handler).getD c)
      (((request maxIrqId irqId handler).map (t.register maxIrqs)).getD t) := by
  unfold registerInterrupt request
  by_cases hid : u16 irqId ≤ maxIrqId
  · rw [if_pos hid]
    cases handler with
    | none => simpa using hs
    | some h =>
      by_cases hroom : t.handlers.length < maxIrqs
      · have hcount : ¬c.irqCount ≥ maxIrqs := by
          rw [hs.count]
          exact Nat.not_le_of_lt hroom
        rw [if_neg (by simp [hid,hcount]),Option.map_some,Option.map_some,Option.getD_some,Option.getD_some,
          Table.register,if_pos hroom]
        exact hs.append h hid hroom
      · have hcount : c.irqCount ≥ maxIrqs := by
          rw [hs.count]
          exact Nat.le_of_not_lt hroom
        rw [if_pos (.inr (.inr hcount)),Option.map_some,Option.map_some,Option.getD_some,Table.register,if_neg hroom]
        exact hs
  · rw [if_neg hid,if_pos (.inl (Nat.lt_of_not_le hid))]
    exact hs

theorem Stores.handler_eq (hs : Stores maxIrqId c t) {n : ℕ} {h : Handler} (hn : t.handlers[n]? = some h) :
    c.irqHandlerTable[n]? = some (some h) := by
  have hlt := (List.getElem?_eq_some_iff.mp hn).1
  rw [hs.handlers,List.getElem?_append_left (by rw [List.length_map]; exact hlt),List.getElem?_map,hn]
  rfl

/-- What a call to the handler of an interrupt id, if there is one, comes to. -/
def outcome (enableSafetyCheck : Bool) : Option Handler → Dispatch
  | some h => .ran h
  | none => if enableSafetyCheck then .nothing else .undefined

theorem outcome_eq_ran {enableSafetyCheck : Bool} {handler : Option Handler} {h : Handler} :
    outcome enableSafetyCheck handler = .ran h ↔ handler = some h := by
  cases handler with
  | none => cases enableSafetyCheck <;> simp [outcome]
  | some x => simp [outcome]

/-- The call runs the handler that the table has for the interrupt id. -/
theorem Stores.callHandler_eq (hs : Stores maxIrqId c t) (enableSafetyCheck : Bool) {irqId : ℕ}
    (hid : irqId ≤ maxIrqId) :
    callHandler enableSafetyCheck c irqId = outcome enableSafetyCheck (t.handler irqId) := by
  rw [callHandler,hs.lookup,if_pos hid]
  cases hslot : t.slot irqId with
  | none =>
    have hnull : c.irqHandlerTable[nullIndex]? = none := by
      rw [hs.handlers,List.getElem?_eq_none]
      have hroom := hs.room
      rw [List.length_append,List.length_map,List.length_replicate]
      unfold nullIndex maxIrqs at *
      omega
    have hcount : ¬nullIndex < c.irqCount := by
      have hroom := hs.room
      rw [hs.count]
      unfold nullIndex maxIrqs at *
      omega
    simp [Table.handler,hslot,hnull,hcount,outcome]
  | some n =>
    have hlt : n < t.handlers.length := hs.slot irqId n hslot
    have hhandler : t.handlers[n]? = some t.handlers[n] := List.getElem?_eq_getElem hlt
    have hcount : n < c.irqCount := hs.count ▸ hlt
    simp [Table.handler,hslot,hs.handler_eq hhandler,hhandler,hcount,outcome]

end Stores

end EmbedTemplate.Interrupt
