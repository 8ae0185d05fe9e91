import EmbedTemplate.Interrupt.Controller

/-! # What an interrupt is dispatched to

Registrations after the initialisation, and then one interrupt, in the build without the safety check:
the sentinel of the lookup table and the ids beyond it lead out of the tables.
-/
namespace EmbedTemplate.Interrupt
open Bytes VectorTable LastWrite

/-- A call of the registration: the interrupt id and the handler, which may be null. -/
abbrev Registration := ℕ × Option Handler

section Registered
variable (maxIrqId : ℕ)

/-- The controller after the registrations, those turned down included. -/
def registered (rs : List Registration) : Controller :=
  rs.foldl (fun c r => (registerInterrupt maxIrqId c r.1 r.2).getD c) (initController maxIrqId)

/-- The handler most recently registered successfully for an interrupt id, next to the controller that
decides which registrations succeed. -/
def trackRegistered (irqId : ℕ) (rs : List Registration) : Controller × Option Handler :=
  rs.foldl (fun s r =>
    match registerInterrupt maxIrqId s.1 r.1 r.2 with
    | some c => (c,if u16 r.1 = irqId then r.2 else s.2)
    | none => s) (initController maxIrqId,none)

def lastRegistered (irqId : ℕ) (rs : List Registration) : Option Handler := (trackRegistered maxIrqId irqId rs).2

/-- The requests of the registrations with valid arguments. -/
def validRequests (rs : List Registration) : List (ℕ × Handler) := rs.filterMap fun r => request maxIrqId r.1 r.2

/-- The interrupt ids of the first registrations with valid arguments, as many as the tables have room for. -/
def acceptedIds (rs : List Registration) : List ℕ := ((validRequests maxIrqId rs).take maxIrqs).map Prod.fst

end Registered

/-- Every registration that succeeds stores within the tables. -/
def RegistersWithin (maxIrqId : ℕ) (rs : List Registration) : Prop :=
  ∀ before irqId handler later, rs = before ++ (irqId,handler) :: later →
    (registerInterrupt maxIrqId (registered maxIrqId before) irqId handler).isSome →
      (registered maxIrqId before).irqCount < (registered maxIrqId before).irqHandlerTable.length ∧
      u16 irqId < (registered maxIrqId before).irqLookupTable.length

/-- A dispatch that looks up an interrupt id, or none: it stays within the tables, and it runs the wanted
handler, or no handler when there is none. -/
structure RightDispatch (c : Controller) (irqId : Option ℕ) (wanted : Option Handler) (result : Dispatch) : Prop where
  lookup : ∀ i ∈ irqId, i < c.irqLookupTable.length
  handler : ∀ i ∈ irqId, ∀ idx, c.irqLookupTable[i]? = some idx → idx < c.irqHandlerTable.length
  runs : result = wanted.elim .nothing .ran

/-- The registrations and an interrupt of the GIC that reads this acknowledge register. -/
def GicDispatches (rs : List Registration) (icciar : ℕ) : Prop :=
  RegistersWithin gicMaxIrqId rs ∧
    RightDispatch (registered gicMaxIrqId rs) (some (icciar &&& 0x3FF))
      (lastRegistered gicMaxIrqId (icciar &&& 0x3FF) rs)
      (vApplicationIRQHandler false (registered gicMaxIrqId rs) icciar)

/-- The interrupt id that `apic_dispatch_interrupt` looks up for a vector. -/
def apicIrqId (vectorId : ℕ) : Option ℕ :=
  if vectorId ≥ x86IrqVectorBase ∧ vectorId - x86IrqVectorBase ≤ apicMaxIrqId then some (vectorId - x86IrqVectorBase)
  else none

/-- The registrations and an interrupt of the local APIC with this vector. -/
def ApicDispatches (rs : List Registration) (vectorId : ℕ) : Prop :=
  RegistersWithin apicMaxIrqId rs ∧
    RightDispatch (registered apicMaxIrqId rs) (apicIrqId vectorId)
      (if vectorId ≥ x86IrqVectorBase then lastRegistered apicMaxIrqId (vectorId - x86IrqVectorBase) rs else none)
      (apicDispatchInterrupt false (registered apicMaxIrqId rs) vectorId)

section Run
variable {maxIrqId irqId : ℕ} {c : Controller} {t : Table ℕ Handler} {rs : List Registration} {handler : Option Handler}

theorem registered_snoc (r : Registration) : registered maxIrqId (rs ++ [r]) =
    (registerInterrupt maxIrqId (registered maxIrqId rs) r.1 r.2).getD (registered maxIrqId rs) := by
  unfold registered
  rw [List.foldl_append,List.foldl_cons,List.foldl_nil]

theorem validRequests_snoc (r : Registration) :
    validRequests maxIrqId (rs ++ [r]) = validRequests maxIrqId rs ++ (request maxIrqId r.1 r.2).toList := by
  unfold validRequests
  rw [List.filterMap_append]
  cases h : request maxIrqId r.1 r.2 <;> simp [h]

/-- The tables hold the valid requests, as far as there is room. -/
theorem registered_stores (maxIrqId : ℕ) (rs : List Registration) :
    Stores maxIrqId (registered maxIrqId rs) (Table.after maxIrqs (validRequests maxIrqId rs)) := by
  induction rs using List.reverseRecOn with
  | nil => exact Stores.init
  | append_singleton rs r ih =>
    have hstep := ih.register r.1 r.2
    rw [registered_snoc,validRequests_snoc]
    cases h : request maxIrqId r.1 r.2 with
    | none =>
      rw [h,Option.map_none,Option.getD_none] at hstep
      rwa [Option.toList_none,List.append_nil]
    | some q =>
      rw [h,Option.map_some,Option.getD_some] at hstep
      rwa [Option.toList_some,Table.after_snoc]

theorem irqCount_registered (maxIrqId : ℕ) (rs : List Registration) :
    (registered maxIrqId rs).irqCount = min maxIrqs (validRequests maxIrqId rs).length := by
  rw [(registered_stores maxIrqId rs).count,Table.handlers_after,List.length_map,List.length_take]

/-- A registration succeeds when its arguments are valid and there is room. -/
theorem registerInterrupt_isSome (maxIrqId : ℕ) (c : Controller) (irqId : ℕ) (handler : Option Handler) :
    (registerInterrupt maxIrqId c irqId handler).isSome ↔
    (request maxIrqId irqId handler).isSome ∧ c.irqCount < maxIrqs := by
  unfold registerInterrupt request
  cases handler with
  | none => simp
  | some h =>
    by_cases hid : u16 irqId ≤ maxIrqId
    · by_cases hroom : c.irqCount < maxIrqs
      · simp [hid,hroom,Nat.not_le_of_lt hroom]
      · simp [hroom,Nat.le_of_not_lt hroom]
    · simp [hid,Nat.lt_of_not_le hid]

theorem request_eq_some {q : ℕ × Handler} : request maxIrqId irqId handler = some q ↔
    u16 irqId ≤ maxIrqId ∧ q.1 = u16 irqId ∧ handler = some q.2 := by
  unfold request
  by_cases hid : u16 irqId ≤ maxIrqId
  · rw [if_pos hid,Option.map_eq_some_iff]
    constructor
    · rintro ⟨h,rfl,rfl⟩
      exact ⟨hid,rfl,rfl⟩
    · rintro ⟨_,hq,rfl⟩
      exact ⟨q.2,rfl,Prod.ext hq.symm rfl⟩
  · simp [hid]

theorem Stores.handlers_length (hs : Stores maxIrqId c t) : c.irqHandlerTable.length = maxIrqs := by
  have hroom := hs.room
  rw [hs.handlers,List.length_append,List.length_map,List.length_replicate]
  omega

theorem Stores.lookup_lt_iff (hs : Stores maxIrqId c t) {i : ℕ} : i < c.irqLookupTable.length ↔ i ≤ maxIrqId := by
  constructor
  · intro h
    have hlookup := hs.lookup i
    rw [List.getElem?_eq_getElem h] at hlookup
    by_contra hbeyond
    rw [if_neg hbeyond] at hlookup
    cases hlookup
  · exact hs.lookup_length

theorem registersWithin : RegistersWithin maxIrqId rs := by
  intro before irqId handler later _ h
  obtain ⟨hrequest,hroom⟩ := (registerInterrupt_isSome _ _ _ _).mp h
  obtain ⟨q,hq⟩ := Option.isSome_iff_exists.mp hrequest
  have hs := registered_stores maxIrqId before
  refine ⟨?_,hs.lookup_lt_iff.mpr (request_eq_some.mp hq).1⟩
  rwa [hs.handlers_length]

/-- The handler that was registered last is that of the last accepted request. -/
theorem trackRegistered_eq : trackRegistered maxIrqId irqId rs =
    (registered maxIrqId rs,last (puts irqId) ((validRequests maxIrqId rs).take maxIrqs)) := by
  induction rs using List.reverseRecOn with
  | nil => rfl
  | append_singleton rs r ih =>
    have hcount := irqCount_registered maxIrqId rs
    have hsome := registerInterrupt_isSome maxIrqId (registered maxIrqId rs) r.1 r.2
    unfold trackRegistered at ih ⊢
    rw [List.foldl_append,List.foldl_cons,List.foldl_nil,ih,registered_snoc,validRequests_snoc]
    cases hreg : registerInterrupt maxIrqId (registered maxIrqId rs) r.1 r.2 with
    | some c =>
      rw [hreg] at hsome
      obtain ⟨hrequest,hroom⟩ := hsome.mp rfl
      obtain ⟨q,hq⟩ := Option.isSome_iff_exists.mp hrequest
      obtain ⟨_,hid,hhandler⟩ := request_eq_some.mp hq
      have hlength : (validRequests maxIrqId rs).length < maxIrqs := by omega
      rw [hq,Option.toList_some,List.take_of_length_le (l := validRequests maxIrqId rs) (Nat.le_of_lt hlength),
        List.take_of_length_le (by rw [List.length_append,List.length_singleton]; exact hlength),last_snoc]
      dsimp only
      rw [puts,hid,hhandler]
      by_cases hirq : u16 r.1 = irqId
      · rw [if_pos hirq,if_pos hirq,Option.some_or,Option.getD_some]
      · rw [if_neg hirq,if_neg hirq,Option.none_or,Option.getD_some]
    | none =>
      rw [hreg] at hsome
      dsimp only
      rw [Option.getD_none]
      cases hq : request maxIrqId r.1 r.2 with
      | none => rw [Option.toList_none,List.append_nil]
      | some q =>
        have hfull : ¬(registered maxIrqId rs).irqCount < maxIrqs := by
          intro hroom
          have himpossible := hsome.mpr ⟨by rw [hq]; rfl,hroom⟩
          cases himpossible
        rw [Option.toList_some,List.take_append_of_le_length (by omega)]

theorem lastRegistered_eq : lastRegistered maxIrqId irqId rs =
    last (puts irqId) ((validRequests maxIrqId rs).take maxIrqs) := by
  rw [lastRegistered,trackRegistered_eq]

theorem lastRegistered_isSome : (lastRegistered maxIrqId irqId rs).isSome ↔ irqId ∈ acceptedIds maxIrqId rs := by
  rw [lastRegistered_eq,last_isSome,acceptedIds,List.mem_map]
  refine exists_congr fun q => and_congr_right fun _ => ?_
  rw [← Option.ne_none_iff_isSome,Ne,puts_eq_none,not_not]

/-- An id beyond the lookup table has no handler. -/
theorem le_of_mem_acceptedIds (h : irqId ∈ acceptedIds maxIrqId rs) : irqId ≤ maxIrqId := by
  obtain ⟨q,hq,rfl⟩ := List.mem_map.mp h
  obtain ⟨r,_,hr⟩ := List.mem_filterMap.mp (List.mem_of_mem_take hq)
  obtain ⟨hle,hid,_⟩ := request_eq_some.mp hr
  exact hid ▸ hle

theorem lastRegistered_of_lt (h : maxIrqId < irqId) : lastRegistered maxIrqId irqId rs = none := by
  rw [← Option.not_isSome_iff_eq_none,lastRegistered_isSome]
  exact fun hmem => Nat.not_lt_of_le (le_of_mem_acceptedIds hmem) h

/-- The call for an id that the lookup table has is right exactly when the id has a handler. -/
theorem callHandler_right_iff : RightDispatch (registered maxIrqId rs) (some irqId) (lastRegistered maxIrqId irqId rs)
    (callHandler false (registered maxIrqId rs) irqId) ↔ irqId ∈ acceptedIds maxIrqId rs := by
  have hs := registered_stores maxIrqId rs
  rw [← lastRegistered_isSome]
  constructor
  · intro h
    have hle := hs.lookup_lt_iff.mp (h.lookup irqId rfl)
    have hruns := h.runs
    rw [hs.callHandler_eq false hle,Table.handler_after,← lastRegistered_eq] at hruns
    cases hlast : lastRegistered maxIrqId irqId rs with
    | none =>
      rw [hlast] at hruns
      cases hruns
    | some h => rfl
  · intro h
    have hle := le_of_mem_acceptedIds (lastRegistered_isSome.mp h)
    obtain ⟨handler,hhandler⟩ := Option.isSome_iff_exists.mp h
    have htable : (Table.after maxIrqs (validRequests maxIrqId rs)).handler irqId = some handler := by
      rw [Table.handler_after,← lastRegistered_eq,hhandler]
    refine ⟨?_,?_,?_⟩
    · rintro i ⟨⟩
      exact hs.lookup_lt_iff.mpr hle
    · rintro i ⟨⟩ idx hidx
      obtain ⟨n,hn,_⟩ := Option.bind_eq_some_iff.mp htable
      rw [hs.lookup,if_pos hle,hn,Option.getD_some,Option.some.injEq] at hidx
      have hslot := hs.slot irqId n hn
      have hroom := hs.room
      rw [hs.handlers_length]
      omega
    · rw [hs.callHandler_eq false hle,htable,hhandler]
      rfl

end Run

/-- A dispatch is right exactly for the interrupt ids with an accepted registration, and on the APIC also for the
vectors outside of the lookup table. -/
theorem dispatches_iff (rs : List Registration) :
    (∀ icciar, GicDispatches rs icciar ↔ icciar &&& 0x3FF ∈ acceptedIds gicMaxIrqId rs) ∧
    ∀ vectorId, ApicDispatches rs vectorId ↔
      vectorId < x86IrqVectorBase ∨ x86IrqVectorBase + apicMaxIrqId < vectorId ∨
        vectorId - x86IrqVectorBase ∈ acceptedIds apicMaxIrqId rs := by
  constructor
  · intro icciar
    unfold GicDispatches vApplicationIRQHandler gicDispatchInterrupt
    rw [callHandler_right_iff,and_iff_right registersWithin]
  · intro vectorId
    unfold ApicDispatches apicIrqId apicDispatchInterrupt
    rw [and_iff_right registersWithin]
    by_cases hbase : vectorId ≥ x86IrqVectorBase
    · by_cases hid : vectorId - x86IrqVectorBase ≤ apicMaxIrqId
      · rw [if_pos ⟨hbase,hid⟩,if_pos hbase,if_pos hbase,if_pos hid,callHandler_right_iff]
        rw [or_iff_right (Nat.not_lt_of_le hbase),or_iff_right (by omega)]
      · rw [if_neg (fun h => hid h.2),if_pos hbase,if_pos hbase,if_neg hid,
          lastRegistered_of_lt (Nat.lt_of_not_le hid)]
        refine iff_of_true ⟨fun i hi => (by cases hi),fun i hi => (by cases hi),rfl⟩ (.inr (.inl ?_))
        omega
    · rw [if_neg (fun h => hbase h.1),if_neg hbase,if_neg hbase]
      exact iff_of_true ⟨fun i hi => (by cases hi),fun i hi => (by cases hi),rfl⟩ (.inl (Nat.lt_of_not_le hbase))

/-- The tick is registered, and the GIC acknowledges the spurious id 1023. -/
theorem spurious_beyond_table : ¬GicDispatches [(27,some (.driver 0))] 1023 := by
  intro h
  have hwithin := (registered_stores _ _).lookup_lt_iff.mp (h.2.lookup 1023 rfl)
  unfold gicMaxIrqId at hwithin
  omega

end EmbedTemplate.Interrupt
