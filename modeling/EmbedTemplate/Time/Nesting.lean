import EmbedTemplate.Time.Timestamp

/-! # Timestamps under nested calls

The counter is read before interrupts are disabled. As long as no handler reads a later
counter value while an interrupted call holds its own, the total is the number of cycles
elapsed up to the newest value; a handler that does lets the total run almost 2^32 cycles
ahead.
-/
namespace EmbedTemplate.Time
open Bytes Machine

/-- The counter value that a call has read and not yet accumulated. -/
def Call.held : Call → Option ℕ
  | .sampled cycles => some cycles
  | .masked cycles _ => some cycles
  | _ => none

/-- The interrupt mask that a call has to restore. -/
def Call.saved : Call → Option Bool
  | .masked _ primask => some primask
  | .updated _ primask => some primask
  | _ => none

/-- Successive counter values are less than 2^32 cycles apart. -/
def Spaced (s : Cpu) : CpuLabel → Prop
  | .read => s.now < s.newest + 2 ^ 32
  | _ => True

/-- No later counter value is read while an interrupted call holds its own, and the cycles
elapsed fit in 64 bits. -/
def Unbroken (s : Cpu) : CpuLabel → Prop
  | .elapse cycles => s.now + cycles < 2 ^ 64
  | .read => ∀ call ∈ s.calls, ∀ cycles ∈ call.held, cycles = u32 s.now
  | _ => True

instance (s : Cpu) (label : CpuLabel) : Decidable (Spaced s label) := by
  cases label <;> unfold Spaced <;> infer_instance

instance (s : Cpu) (label : CpuLabel) : Decidable (Unbroken s label) := by
  cases label <;> unfold Unbroken <;> infer_instance

/-- The interrupt mask and the calls in progress: only the innermost call may have interrupts
disabled, and it found them enabled. -/
inductive Nested : Bool → List Call → Prop where
  | enabled {calls : List Call} (h : ∀ call ∈ calls, call.saved = none) : Nested false calls
  | disabled {call : Call} {rest : List Call} (hcall : call.saved = some false) (h : ∀ call ∈ rest, call.saved = none) :
      Nested true (call :: rest)

section Nested
variable {primask old : Bool} {call : Call} {calls rest : List Call}

theorem Nested.push (h : Nested primask calls) (hcall : (calls.isEmpty || !primask) = true) :
    primask = false ∧ Nested primask (.entered :: calls) := by
  cases h with
  | enabled hw =>
    refine ⟨rfl,.enabled ?_⟩
    intro call hmem
    rcases List.mem_cons.mp hmem with rfl | hmem
    · rfl
    · exact hw call hmem
  | disabled _ _ => cases hcall

/-- A call that has nothing to restore is the innermost one with interrupts enabled. -/
theorem Nested.waiting (h : Nested primask (call :: rest)) (hcall : call.saved = none) :
    primask = false ∧ ∀ call ∈ rest, call.saved = none := by
  cases h with
  | enabled hw => exact ⟨rfl,fun call hmem => hw call (List.mem_cons_of_mem _ hmem)⟩
  | disabled hsaved _ =>
    rw [hcall] at hsaved
    cases hsaved

/-- A call that has a mask to restore restores enabled interrupts. -/
theorem Nested.masking (h : Nested primask (call :: rest)) (hcall : call.saved = some old) :
    primask = true ∧ old = false ∧ ∀ call ∈ rest, call.saved = none := by
  cases h with
  | enabled hw =>
    rw [hw call (List.mem_cons_self ..)] at hcall
    cases hcall
  | disabled hsaved hw =>
    rw [hcall] at hsaved
    exact ⟨rfl,Option.some.inj hsaved,hw⟩

end Nested

/-- The total against the cycles elapsed. While no call holds a counter value, and from the
accumulation to the end of a call, the total is up to date. -/
structure Timely (s : Cpu) : Prop where
  nested : Nested s.primask s.calls
  fits : s.now < 2 ^ 64
  newest : s.newest ≤ s.now
  total : s.timer.totalCycles ≤ s.newest
  near : s.newest < s.timer.totalCycles + 2 ^ 32
  last : s.timer.lastCycles = u32 s.timer.totalCycles
  held : ∀ call ∈ s.calls, ∀ cycles ∈ call.held, cycles = u32 s.newest
  settled : (∀ call ∈ s.calls, call.held = none) → s.timer.totalCycles = s.newest
  updated : ∀ n primask, .updated n primask ∈ s.calls → n = s.newest ∧ s.timer.totalCycles = s.newest
  sorted : s.totals.Pairwise (· ≤ ·)
  bounded : ∀ n ∈ s.totals, n ≤ s.timer.totalCycles

theorem timely_init (timerHz : ℕ) (cycles : BitVec 32) : Timely (Cpu.init timerHz cycles) := by
  have hlt : cycles.toNat < 2 ^ 32 := cycles.isLt
  constructor
  case nested => exact .enabled fun call hmem => by cases hmem
  case fits => exact hlt.trans (by decide)
  case newest => exact Nat.le_refl _
  case total => exact Nat.le_refl _
  case near => exact Nat.lt_add_of_pos_right (by decide)
  case last => exact (u32_of_lt hlt).symm
  case held => exact fun call hmem => by cases hmem
  case settled => exact fun _ => rfl
  case updated => exact fun n primask hmem => by cases hmem
  case sorted => exact .nil
  case bounded => exact fun n hmem => by cases hmem

section Steps
variable {s t : Cpu}

theorem Timely.elapse {cycles : ℕ} (h : Timely s) (hG : Unbroken s (.elapse cycles)) :
    Timely { s with now := s.now + cycles } :=
  { h with fits := hG, newest := h.newest.trans (Nat.le_add_right _ _) }

theorem Timely.call (h : Timely s) (hcall : (s.calls.isEmpty || !s.primask) = true) :
    Timely { s with calls := .entered :: s.calls } := by
  refine { h with nested := (h.nested.push hcall).2, held := ?_, settled := ?_, updated := ?_ }
  · intro call hmem cycles hheld
    rcases List.mem_cons.mp hmem with rfl | hmem
    · cases hheld
    · exact h.held call hmem cycles hheld
  · intro hnone
    exact h.settled fun call hmem => hnone call (List.mem_cons_of_mem _ hmem)
  · intro n primask hmem
    rcases List.mem_cons.mp hmem with heq | hmem
    · cases heq
    · exact h.updated n primask hmem

theorem Timely.read {rest : List Call} (h : Timely s) (hcalls : s.calls = .entered :: rest)
    (hspaced : Spaced s .read) (hG : Unbroken s .read) :
    Timely { s with calls := .sampled (u32 s.now) :: rest, newest := s.now } := by
  have hwait : s.primask = false ∧ ∀ call ∈ rest, call.saved = none := (hcalls ▸ h.nested).waiting rfl
  have hnear : s.now < s.timer.totalCycles + 2 ^ 32 := by
    by_cases hnone : ∀ call ∈ s.calls, call.held = none
    · rw [h.settled hnone]
      exact hspaced
    · push Not at hnone
      obtain ⟨call,hmem,hheld⟩ := hnone
      obtain ⟨cycles,hcycles⟩ := Option.ne_none_iff_exists'.mp hheld
      have hsame : u32 s.newest = u32 s.now := (h.held call hmem cycles hcycles).symm.trans (hG call hmem cycles hcycles)
      have hnow : s.now = s.newest := by
        have hle := h.newest
        have hlt : s.now < s.newest + 2 ^ 32 := hspaced
        rw [u32,u32] at hsame
        omega
      rw [hnow]
      exact h.near
  refine { h with nested := ?_, newest := Nat.le_refl _, total := h.total.trans h.newest, near := hnear, held := ?_,
                  settled := ?_, updated := ?_ }
  · rw [hwait.1]
    refine .enabled fun call hmem => ?_
    rcases List.mem_cons.mp hmem with rfl | hmem
    · rfl
    · exact hwait.2 call hmem
  · intro call hmem cycles hheld
    rcases List.mem_cons.mp hmem with rfl | hmem
    · exact (Option.some.inj hheld).symm
    · exact hG call (hcalls ▸ List.mem_cons_of_mem _ hmem) cycles hheld
  · intro hnone
    have hnever := hnone _ (List.mem_cons_self ..)
    cases hnever
  · intro n primask hmem
    rcases List.mem_cons.mp hmem with heq | hmem
    · cases heq
    · have hnever := hwait.2 _ hmem
      cases hnever

theorem Timely.disable {rest : List Call} {cycles : ℕ} (h : Timely s) (hcalls : s.calls = .sampled cycles :: rest) :
    Timely { s with calls := .masked cycles s.primask :: rest, primask := true } := by
  obtain ⟨hmask,hwait⟩ := (hcalls ▸ h.nested).waiting rfl
  refine { h with nested := ?_, held := ?_, settled := ?_, updated := ?_ }
  · rw [hmask]
    exact .disabled rfl hwait
  · intro call hmem cycles' hheld
    rcases List.mem_cons.mp hmem with rfl | hmem
    · exact h.held (.sampled cycles) (hcalls ▸ List.mem_cons_self ..) cycles' hheld
    · exact h.held call (hcalls ▸ List.mem_cons_of_mem _ hmem) cycles' hheld
  · intro hnone
    have hnever := hnone _ (List.mem_cons_self ..)
    cases hnever
  · intro n primask hmem
    rcases List.mem_cons.mp hmem with heq | hmem
    · cases heq
    · exact h.updated n primask (hcalls ▸ List.mem_cons_of_mem _ hmem)

theorem accumulate_newest {timer : Timer} {newest : ℕ} (hfits : newest < 2 ^ 64) (htotal : timer.totalCycles ≤ newest)
    (hnear : newest < timer.totalCycles + 2 ^ 32) (hlast : timer.lastCycles = u32 timer.totalCycles) :
    (timer.accumulate (u32 newest)).totalCycles = newest ∧ (timer.accumulate (u32 newest)).lastCycles = u32 newest := by
  refine ⟨?_,rfl⟩
  simp only [Timer.accumulate,hlast,u32,u64]
  omega

theorem Timely.update {rest : List Call} {cycles : ℕ} {primask : Bool} (h : Timely s)
    (hcalls : s.calls = .masked cycles primask :: rest) :
    Timely { s with
      calls := .updated (s.timer.accumulate cycles).totalCycles primask :: rest,
      timer := s.timer.accumulate cycles } := by
  obtain ⟨hmask,hold,hwait⟩ := (hcalls ▸ h.nested).masking rfl
  have hcycles : cycles = u32 s.newest := h.held (.masked cycles primask) (hcalls ▸ List.mem_cons_self ..) cycles rfl
  obtain ⟨htotal,hlast⟩ := accumulate_newest (h.newest.trans_lt h.fits) h.total h.near h.last
  rw [← hcycles] at htotal hlast
  refine { h with nested := ?_, total := htotal.le, near := ?_, last := ?_, held := ?_, settled := fun _ => htotal,
                  updated := ?_, bounded := ?_ }
  · rw [hmask,hold]
    exact .disabled rfl hwait
  · rw [htotal]
    exact Nat.lt_add_of_pos_right (by decide)
  · rw [htotal,hlast]
    exact hcycles
  · intro call hmem cycles' hheld
    rcases List.mem_cons.mp hmem with rfl | hmem
    · cases hheld
    · exact h.held call (hcalls ▸ List.mem_cons_of_mem _ hmem) cycles' hheld
  · intro n old hmem
    rcases List.mem_cons.mp hmem with heq | hmem
    · cases heq
      exact ⟨htotal,htotal⟩
    · have hnever := hwait _ hmem
      cases hnever
  · intro n hmem
    rw [htotal]
    exact (h.bounded n hmem).trans h.total

theorem Timely.restore {rest : List Call} {total : ℕ} {primask : Bool} (h : Timely s)
    (hcalls : s.calls = .updated total primask :: rest) :
    s.timer.totalCycles = s.newest ∧ Timely { s with
      calls := rest
      primask := primask
      totals := s.totals ++ [total]
      returned := s.returned ++ [s.timer.timestamp total] } := by
  obtain ⟨_,hold,hwait⟩ := (hcalls ▸ h.nested).masking rfl
  obtain ⟨htotal,hnewest⟩ := h.updated total primask (hcalls ▸ List.mem_cons_self ..)
  refine ⟨hnewest,{ h with nested := ?_, held := ?_, settled := fun _ => hnewest, updated := ?_, sorted := ?_, bounded := ?_ }⟩
  · rw [hold]
    exact .enabled hwait
  · exact fun call hmem => h.held call (hcalls ▸ List.mem_cons_of_mem _ hmem)
  · exact fun n old hmem => h.updated n old (hcalls ▸ List.mem_cons_of_mem _ hmem)
  · rw [List.pairwise_append]
    refine ⟨h.sorted,List.pairwise_singleton _ _,?_⟩
    intro n hmem m hm
    rw [List.mem_singleton.mp hm,htotal,← hnewest]
    exact h.bounded n hmem
  · intro n hmem
    rcases List.mem_append.mp hmem with hmem | hmem
    · exact h.bounded n hmem
    · rw [List.mem_singleton.mp hmem,htotal,hnewest]

theorem Timely.step {label : CpuLabel} (h : Timely s) (hG : Spaced s label ∧ Unbroken s label)
    (hs : cpuStep s label = some t) : Timely t := by
  cases label with
  | elapse cycles =>
    cases hs
    exact h.elapse hG.2
  | call =>
    rw [cpuStep,Option.ite_none_right_eq_some] at hs
    obtain ⟨hcall,heq⟩ := hs
    cases heq
    exact h.call hcall
  | read =>
    rw [cpuStep] at hs
    split at hs <;> cases hs
    exact h.read ‹_› hG.1 hG.2
  | disable =>
    rw [cpuStep] at hs
    split at hs <;> cases hs
    exact h.disable ‹_›
  | update =>
    rw [cpuStep] at hs
    split at hs <;> cases hs
    exact h.update ‹_›
  | restore =>
    rw [cpuStep] at hs
    split at hs <;> cases hs
    exact (h.restore ‹_›).2

end Steps

/-- In a run with spaced counter values, none of which is read later than a value that an
interrupted call still holds, the total behind every call is the number of cycles elapsed up
to the newest value, and the totals of the completed calls neither decrease nor run ahead. -/
theorem unbroken_timely (timerHz : ℕ) (cycles : BitVec 32) {labels : List CpuLabel} {s t : Cpu}
    (hG : Meets cpuStep (fun s label => Spaced s label ∧ Unbroken s label) (Cpu.init timerHz cycles) labels)
    (hs : exec cpuStep (Cpu.init timerHz cycles) labels = some s) (ht : cpuStep s .restore = some t) :
    t.timer.totalCycles = t.newest ∧ t.totals.Pairwise (· ≤ ·) ∧ ∀ n ∈ t.totals, n ≤ t.now := by
  have htimely : Timely s :=
    Machine.invariant cpuStep (fun _ _ _ h hG hs => Timely.step h hG hs) (timely_init timerHz cycles) hG hs
  have hfree : Spaced s .restore ∧ Unbroken s .restore := ⟨trivial,trivial⟩
  have hafter : Timely t := htimely.step hfree ht
  refine ⟨?_,hafter.sorted,fun n hmem => (hafter.bounded n hmem).trans (hafter.total.trans hafter.newest)⟩
  rw [cpuStep] at ht
  split at ht <;> cases ht
  exact (htimely.restore ‹_›).1

/-- A handler reads the clock before the call that it interrupts does. -/
def overtaken : List CpuLabel :=
  [.call,.elapse 100,.call,.elapse 50,.read,.disable,.update,.restore,.read,.disable,.update]

theorem unbroken_timely_overtaken : ∃ s t, exec cpuStep (Cpu.init 72000000 7) overtaken = some s ∧
    cpuStep s .restore = some t ∧ t.timer.totalCycles = t.newest :=
  ⟨_,_,rfl,rfl,(@unbroken_timely 72000000 7 overtaken _ _ (by decide) rfl rfl).1⟩

/-- A handler reads the clock between the reading and the disabling of the call that it
interrupts. -/
def interposed : List CpuLabel :=
  [.call,.elapse 100,.read,.call,.elapse 50,.read,.disable,.update,.restore,.disable,.update]

theorem interposed_not_timely : ∃ s t, exec cpuStep (Cpu.init 72000000 7) interposed = some s ∧
    Meets cpuStep Spaced (Cpu.init 72000000 7) interposed ∧ cpuStep s .restore = some t ∧
    t.timer.totalCycles ≠ t.newest ∧ ¬∀ n ∈ t.totals, n ≤ t.now :=
  ⟨_,_,rfl,by decide,rfl,by decide⟩

end EmbedTemplate.Time
