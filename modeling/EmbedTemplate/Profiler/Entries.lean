import EmbedTemplate.Library.Machine
import EmbedTemplate.Profiler.Statistics

/-! # Entries that preempt each other

`__cyg_profile_func_enter` as a machine whose steps are its accesses to the shared counter, the
pool and the table. Any number of entries are on their way, and any of them may take the next
step. An entry that nothing preempts computes `cygProfileFuncEnter`.
-/
namespace EmbedTemplate.Profiling
open Bytes Machine

/-- The access that an entry makes next. -/
inductive EntryPc where
  | probe
  | fetchAdd
  | storeStop
  | storeLink
  | storeTs
  | loadTail
  | casTail
  | publish
  deriving DecidableEq

/-- An entry on its way, with its local variables. -/
structure Entry where
  tblIdx : ℕ
  pc : EntryPc
  poolIdx : ℕ
  tail : Option ℕ
  deriving DecidableEq

/-- The globals, the entries on their way, and the samples handed out so far. -/
structure EntrySys where
  mem : Profiler
  entries : ℕ → Option Entry
  handed : List ℕ

def EntrySys.goOn (s : EntrySys) (i : ℕ) (e : Entry) : EntrySys :=
  { s with entries := Function.update s.entries i (some e) }

def EntrySys.finish (s : EntrySys) (i : ℕ) : EntrySys := { s with entries := Function.update s.entries i none }

/-- The next access of an entry; an exchange may fail spuriously. -/
def EntrySys.access (s : EntrySys) (i : ℕ) (e : Entry) (ts : ℕ) (spurious : Bool) : EntrySys :=
  let p := s.mem
  match e.pc with
  | .probe => if p.nextSample = profStopMark then s.finish i else s.goOn i { e with pc := .fetchAdd }
  | .fetchAdd =>
    let poolIdx := p.nextSample
    let s := { s with mem := { p with nextSample := u32 (p.nextSample + 1) } }
    if poolIdx ≥ maxProfSamples then
      if poolIdx = maxProfSamples then s.goOn i { e with pc := .storeStop } else s.finish i
    else { s with handed := s.handed ++ [poolIdx] }.goOn i { e with pc := .storeLink, poolIdx := poolIdx }
  | .storeStop => { s with mem := { p with nextSample := profStopMark } }.finish i
  | .storeLink =>
    { s with mem := p.atSample e.poolIdx fun sample => { sample with ll := none } }.goOn i { e with pc := .storeTs }
  | .storeTs =>
    { s with mem := p.atSample e.poolIdx fun sample => { sample with entryTs := ts } }.goOn i { e with pc := .loadTail }
  | .loadTail => s.goOn i { e with pc := .casTail, tail := (p.profTable e.tblIdx).tail }
  | .casTail =>
    if (p.profTable e.tblIdx).tail = e.tail ∧ spurious = false then
      { s with mem := p.atNode e.tblIdx fun node => { node with tail := some e.poolIdx } }.goOn i { e with pc := .publish }
    else s.goOn i { e with tail := (p.profTable e.tblIdx).tail }
  | .publish => { s with mem := linkBehind p e.tblIdx e.poolIdx e.tail }.finish i

/-- A function is entered, an entry makes its next access, or the profiling stops or starts. -/
inductive EntryLabel where
  | enter (i funcAddr : ℕ)
  | access (i ts : ℕ) (spurious : Bool)
  | stop
  | start (dirtySamples : ℕ)

def entryStep (s : EntrySys) : EntryLabel → Option EntrySys
  | .enter i funcAddr =>
    match s.entries i with
    | some _ => none
    | none =>
      match getFuncNodeIndex s.mem funcAddr with
      | none => some s
      | some tblIdx => some (s.goOn i ⟨tblIdx,.probe,0,none⟩)
  | .access i ts spurious => (s.entries i).map fun e => s.access i e ts spurious
  | .stop => some { s with mem := (profStop s.mem).1 }
  | .start dirtySamples => some { s with mem := profStart dirtySamples s.mem }

section Alone

/-- Accesses of one entry that nothing preempts. -/
def Alone (i ts : ℕ) (s t : EntrySys) : Prop := Repeats entryStep (.access i ts false) s t

theorem Alone.refl (i ts : ℕ) (s : EntrySys) : Alone i ts s s := Repeats.refl entryStep _ s

theorem Alone.access {i ts : ℕ} {s t u : EntrySys} {e : Entry} (he : s.entries i = some e)
    (hs : s.access i e ts false = t) (ht : Alone i ts t u) : Alone i ts s u := by
  apply Repeats.head _ ht
  unfold entryStep
  dsimp only
  rw [he,← hs]
  rfl

/-- The globals behind the stores of an entry that has a sample. -/
def stored (p : Profiler) (tblIdx poolIdx ts : ℕ) : Profiler :=
  let p := p.atSample poolIdx fun sample => { sample with ll := none }
  let p := p.atSample poolIdx fun sample => { sample with entryTs := ts }
  let tail := (p.profTable tblIdx).tail
  linkBehind (p.atNode tblIdx fun node => { node with tail := some poolIdx }) tblIdx poolIdx tail

theorem alone_stores (s : EntrySys) (i ts tblIdx poolIdx : ℕ)
    (h : s.entries i = some ⟨tblIdx,.storeLink,poolIdx,none⟩) :
    Alone i ts s ⟨stored s.mem tblIdx poolIdx ts,Function.update s.entries i none,s.handed⟩ := by
  refine ⟨5,?_⟩
  simp only [List.replicate_succ,exec_cons,entryStep,h,EntrySys.access,EntrySys.goOn,Option.map_some,Option.bind_some,
    Function.update_self,EntrySys.finish,Function.update_idem,List.replicate_zero,exec_nil,and_self,if_true]
  rfl

theorem goOn_goOn (s : EntrySys) (i : ℕ) (e e' : Entry) : (s.goOn i e).goOn i e' = s.goOn i e' := by
  unfold EntrySys.goOn
  rw [Function.update_idem]

theorem Alone.probe {i ts tblIdx : ℕ} {s t : EntrySys} (hrunning : s.mem.nextSample ≠ profStopMark)
    (ht : Alone i ts (s.goOn i ⟨tblIdx,.fetchAdd,0,none⟩) t) : Alone i ts (s.goOn i ⟨tblIdx,.probe,0,none⟩) t :=
  Alone.access (Function.update_self ..) ((if_neg hrunning).trans (goOn_goOn ..)) ht

/-- An entry that nothing preempts computes `cygProfileFuncEnter`. -/
theorem entry_alone (s : EntrySys) (i funcAddr ts : ℕ) (hfree : s.entries i = none) :
    ∃ t u, entryStep s (.enter i funcAddr) = some t ∧ Alone i ts t u ∧ u.mem = cygProfileFuncEnter funcAddr ts s.mem ∧
      u.entries = s.entries := by
  have hback : ∀ e, Function.update (Function.update s.entries i e) i none = s.entries := by
    intro e
    rw [Function.update_idem]
    exact Function.update_eq_self_iff.mpr hfree.symm
  unfold cygProfileFuncEnter entryStep
  simp only [hfree]
  cases hlook : getFuncNodeIndex s.mem funcAddr with
  | none => exact ⟨s,s,rfl,Alone.refl i ts s,rfl,rfl⟩
  | some tblIdx =>
    refine ⟨s.goOn i ⟨tblIdx,.probe,0,none⟩,?_⟩
    by_cases hstop : s.mem.nextSample = profStopMark
    · refine ⟨_,rfl,Alone.access (Function.update_self ..) (if_pos hstop) (Alone.refl ..),?_,hback _⟩
      exact (if_pos hstop).symm
    · dsimp only
      rw [if_neg hstop]
      by_cases hover : s.mem.nextSample ≥ maxProfSamples
      · rw [if_pos hover]
        by_cases hlast : s.mem.nextSample = maxProfSamples
        · rw [if_pos hlast]
          refine ⟨?_,rfl,?_,?_,?_⟩
          case refine_2 =>
            apply Alone.probe hstop
            refine Alone.access (Function.update_self ..) ((if_pos hover).trans (if_pos hlast)) ?_
            refine Alone.access (Function.update_self ..) rfl ?_
            exact Alone.refl ..
          case refine_3 => rfl
          case refine_4 => exact (Function.update_idem ..).trans (hback _)
        · rw [if_neg hlast]
          refine ⟨?_,rfl,?_,?_,?_⟩
          case refine_2 =>
            apply Alone.probe hstop
            refine Alone.access (Function.update_self ..) ((if_pos hover).trans (if_neg hlast)) ?_
            exact Alone.refl ..
          case refine_3 => rfl
          case refine_4 => exact hback _
      · rw [if_neg hover]
        have hstores := alone_stores ⟨{ s.mem with nextSample := u32 (s.mem.nextSample + 1) },
          Function.update (Function.update s.entries i (some ⟨tblIdx,.fetchAdd,0,none⟩)) i _,
          s.handed ++ [s.mem.nextSample]⟩ i ts tblIdx s.mem.nextSample (Function.update_self ..)
        refine ⟨_,rfl,Alone.probe hstop (Alone.access (Function.update_self ..) (if_neg hover) hstores),rfl,?_⟩
        exact (Function.update_idem ..).trans (hback _)

end Alone

def EntryLabel.isStart : EntryLabel → Bool
  | .start _ => true
  | _ => false

/-- The profiling is stopped, and these are the samples that were handed out. -/
def Stopped (handed : List ℕ) (s : EntrySys) : Prop := s.mem.nextSample = profStopMark ∧ s.handed = handed

/-- Wherever a run is stopped, it stays stopped and hands out no sample until it is started again. -/
def StopIsFinal (s : EntrySys) (as : List EntryLabel) : Prop :=
  ∀ before during after s₁ s₂, as = before ++ (during ++ after) → exec entryStep s before = some s₁ →
    s₁.mem.nextSample = profStopMark → (∀ a ∈ during, a.isStart = false) → exec entryStep s₁ during = some s₂ →
      Stopped s₁.handed s₂

/-- An entry that passed the check adds to the counter of a stopped profiling. -/
def AddsToStopped (s : EntrySys) : EntryLabel → Prop
  | .access i _ _ => s.mem.nextSample = profStopMark ∧ ∃ e ∈ s.entries i, e.pc = .fetchAdd
  | _ => False

section Stop
variable {s t : EntrySys} {a : EntryLabel} {as : List EntryLabel}

@[simp] theorem goOn_mem (s : EntrySys) (i : ℕ) (e : Entry) : (s.goOn i e).mem = s.mem := rfl
@[simp] theorem goOn_handed (s : EntrySys) (i : ℕ) (e : Entry) : (s.goOn i e).handed = s.handed := rfl
@[simp] theorem finish_mem (s : EntrySys) (i : ℕ) : (s.finish i).mem = s.mem := rfl
@[simp] theorem finish_handed (s : EntrySys) (i : ℕ) : (s.finish i).handed = s.handed := rfl

theorem linkBehind_nextSample (p : Profiler) (tblIdx poolIdx : ℕ) (tail : Option ℕ) :
    (linkBehind p tblIdx poolIdx tail).nextSample = p.nextSample := by
  cases tail with
  | none => rfl
  | some k => rfl

/-- Every access but the addition leaves a stopped profiling stopped. -/
theorem access_stopped {handed : List ℕ} (h : Stopped handed s) {i ts : ℕ} {e : Entry} {spurious : Bool}
    (hpc : e.pc ≠ .fetchAdd) : Stopped handed (s.access i e ts spurious) := by
  obtain ⟨hnext,hhanded⟩ := h
  unfold EntrySys.access
  cases hcase : e.pc with
  | probe =>
    dsimp only
    rw [if_pos hnext]
    exact ⟨hnext,hhanded⟩
  | fetchAdd => exact absurd hcase hpc
  | storeStop => exact ⟨rfl,hhanded⟩
  | storeLink => exact ⟨hnext,hhanded⟩
  | storeTs => exact ⟨hnext,hhanded⟩
  | loadTail => exact ⟨hnext,hhanded⟩
  | casTail =>
    dsimp only
    split
    case isTrue => exact ⟨hnext,hhanded⟩
    case isFalse => exact ⟨hnext,hhanded⟩
  | publish =>
    refine ⟨?_,hhanded⟩
    exact (linkBehind_nextSample ..).trans hnext

/-- The addition to the counter of a stopped profiling starts it at sample zero. -/
theorem access_fetchAdd (h : s.mem.nextSample = profStopMark) {i ts : ℕ} {e : Entry} {spurious : Bool}
    (hpc : e.pc = .fetchAdd) : (s.access i e ts spurious).mem.nextSample = 0 := by
  have hge : profStopMark ≥ maxProfSamples := by decide
  have hne : profStopMark ≠ maxProfSamples := by decide
  unfold EntrySys.access
  simp only [hpc,h,if_pos hge,if_neg hne]
  rfl

theorem step_stopped {handed : List ℕ} (h : Stopped handed s) (hadds : ¬AddsToStopped s a) (ha : a.isStart = false)
    (hstep : entryStep s a = some t) : Stopped handed t := by
  cases a with
  | enter i funcAddr =>
    unfold entryStep at hstep
    dsimp only at hstep
    cases hi : s.entries i with
    | some e =>
      rw [hi] at hstep
      cases hstep
    | none =>
      rw [hi] at hstep
      cases hlook : getFuncNodeIndex s.mem funcAddr with
      | none =>
        rw [hlook] at hstep
        cases hstep
        exact h
      | some tblIdx =>
        rw [hlook] at hstep
        cases hstep
        exact h
  | access i ts spurious =>
    obtain ⟨e,he,rfl⟩ := Option.map_eq_some_iff.mp hstep
    apply access_stopped h
    intro hpc
    exact hadds ⟨h.1,e,he,hpc⟩
  | stop =>
    cases hstep
    exact ⟨rfl,h.2⟩
  | start dirtySamples => cases ha

theorem step_adds (hadds : AddsToStopped s a) (hstep : entryStep s a = some t) : t.mem.nextSample = 0 := by
  cases a with
  | enter i funcAddr => exact hadds.elim
  | access i ts spurious =>
    obtain ⟨hstop,e,he,hpc⟩ := hadds
    obtain ⟨e',he',rfl⟩ := Option.map_eq_some_iff.mp hstep
    obtain rfl := Option.some.inj ((Option.mem_def.mp he).symm.trans he')
    exact access_fetchAdd hstop hpc
  | stop => exact hadds.elim
  | start dirtySamples => exact hadds.elim

theorem adds_enabled (hadds : AddsToStopped s a) : ∃ t, entryStep s a = some t := by
  cases a with
  | enter i funcAddr => exact hadds.elim
  | access i ts spurious =>
    obtain ⟨-,e,he,-⟩ := hadds
    exact ⟨s.access i e ts spurious,congrArg (Option.map fun e => s.access i e ts spurious) (Option.mem_def.mp he)⟩
  | stop => exact hadds.elim
  | start dirtySamples => exact hadds.elim

theorem StopIsFinal.tail (h : StopIsFinal s (a :: as)) (hstep : entryStep s a = some t) : StopIsFinal t as := by
  intro before during after s₁ s₂ has hbefore
  apply h (a :: before) during after s₁ s₂
  · rw [has]
    rfl
  · rw [exec_cons,hstep]
    exact hbefore

/-- A stop is final exactly in the runs where no entry adds to the counter of a stopped profiling. -/
theorem stopIsFinal_iff (s : EntrySys) (as : List EntryLabel) :
    StopIsFinal s as ↔ Meets entryStep (fun s a => ¬AddsToStopped s a) s as := by
  constructor
  · intro h
    induction as generalizing s with
    | nil => trivial
    | cons a as ih =>
      refine ⟨fun hadds => ?_,fun t hstep => ih t (h.tail hstep)⟩
      obtain ⟨t,hstep⟩ := adds_enabled hadds
      have hstart : ∀ b ∈ [a], b.isStart = false := by
        intro b hb
        obtain rfl := List.mem_singleton.mp hb
        cases b with
        | start dirtySamples => exact hadds.elim
        | _ => rfl
      have hstopped : s.mem.nextSample = profStopMark := by
        cases a with
        | access i ts spurious => exact hadds.1
        | _ => exact hadds.elim
      have hstill := (h [] [a] as s t rfl rfl hstopped hstart (by rw [exec_cons,hstep]; rfl)).1
      rw [step_adds hadds hstep] at hstill
      cases hstill
  · rintro h before during after s₁ s₂ rfl hbefore hstopped hstart hduring
    have hmeets := ((meets_append entryStep).mp (((meets_append entryStep).mp h).2 s₁ hbefore)).1
    have hguarded := hmeets.and_labels entryStep hstart
    refine invariant entryStep ?_ (show Stopped s₁.handed s₁ from ⟨hstopped,rfl⟩) hguarded hduring
    intro s a t hs hguard hstep
    exact step_stopped hs hguard.1 hguard.2 hstep

/-- A function is entered and passes the check, the profiling is stopped, and the entry goes on. -/
def preempted : List EntryLabel := [.enter 0 0x1000,.access 0 0 false,.stop,.access 0 0 false]

theorem preempted_not_final : ¬StopIsFinal ⟨bootProfiler,fun _ => none,[]⟩ preempted := by
  intro h
  have hlook : getFuncNodeIndex bootProfiler 0x1000 = some 0 :=
    (bootProfiler_started.indexed.lookup 0 0x1000).mpr rfl
  have hrunning : bootProfiler.nextSample ≠ profStopMark := by
    rw [bootProfiler_started.nextSample]
    decide
  have hbefore : ∃ s, exec entryStep ⟨bootProfiler,fun _ => none,[]⟩ [.enter 0 0x1000,.access 0 0 false,.stop] =
      some s ∧
      s.mem.nextSample = profStopMark ∧ s.entries 0 = some ⟨0,.fetchAdd,0,none⟩ := by
    simp [entryStep,hlook,EntrySys.access,EntrySys.goOn,hrunning,profStop]
  obtain ⟨s,hexec,hstopped,hentry⟩ := hbefore
  have hadds : AddsToStopped s (.access 0 0 false) := ⟨hstopped,_,hentry,rfl⟩
  obtain ⟨t,hstep⟩ := adds_enabled hadds
  have hstill := (h _ [.access 0 0 false] [] s t rfl hexec hstopped (by simp [EntryLabel.isStart]) (by
    rw [exec_cons,hstep]
    rfl)).1
  rw [step_adds hadds hstep] at hstill
  cases hstill

end Stop

end EmbedTemplate.Profiling
