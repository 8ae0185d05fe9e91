import EmbedTemplate.Library.Machine
import EmbedTemplate.Profiler.Chains
import Mathlib.Data.List.Chain

/-! # The statistics of the calls

A well-nested trace is a run of calls: an exit ends the innermost open call. The logs of the
profiler agree with the calls of a function as long as an entry of it lies between any two of
its exits; a call that completes around another call of the same function is lost.
-/
namespace EmbedTemplate.Profiling
open Bytes Machine

/-- A completed call. -/
structure Call where
  funcAddr : ℕ
  entryTs : ℕ
  exitTs : ℕ
  deriving DecidableEq

/-- The open calls, innermost first, and the completed ones, latest first. -/
structure CallStack where
  opened : List (ℕ × ℕ)
  completed : List Call

def CallStack.event (s : CallStack) : Event → CallStack
  | .enter f ts => { s with opened := (f,ts) :: s.opened }
  | .exit _ ts =>
    match s.opened with
    | [] => s
    | innermost :: rest => ⟨rest,⟨innermost.1,innermost.2,ts⟩ :: s.completed⟩

/-- The calls of a trace. -/
def calls (trace : List Event) : CallStack := trace.foldl CallStack.event ⟨[],[]⟩

/-- An exit ends the innermost open call. -/
def CallStack.Closes (s : CallStack) : Event → Prop
  | .enter _ _ => True
  | .exit f _ => s.opened.head?.map Prod.fst = some f

instance (s : CallStack) (e : Event) : Decidable (s.Closes e) := by
  cases e <;> unfold CallStack.Closes <;> infer_instance

def nestStep (s : CallStack) (e : Event) : Option CallStack := some (s.event e)

def WellNested (trace : List Event) : Prop := Meets nestStep CallStack.Closes ⟨[],[]⟩ trace

instance (trace : List Event) : Decidable (WellNested trace) := by
  unfold WellNested
  infer_instance

def Event.ts : Event → ℕ
  | .enter _ ts => ts
  | .exit _ ts => ts

/-- The timestamps are not zero and never decrease. -/
structure Timed (trace : List Event) : Prop where
  increasing : (trace.map Event.ts).Pairwise (· ≤ ·)
  nonzero : ∀ e ∈ trace, e.ts ≠ 0

/-- The entry and exit times of the completed calls of a function, latest first. -/
def completedOf (f : ℕ) (trace : List Event) : Log :=
  ((calls trace).completed.filter fun call => call.funcAddr = f).map fun call => (call.entryTs,call.exitTs)

/-- The entries and exits of a function. -/
def move (f : ℕ) : Event → Option Bool
  | .enter g _ => if g = f then some true else none
  | .exit g _ => if g = f then some false else none

/-- There is an entry of the function between any two exits of it. -/
def Simple (f : ℕ) (trace : List Event) : Prop := (trace.filterMap (move f)).IsChain fun a b => (a || b) = true

instance (f : ℕ) (trace : List Event) : Decidable (Simple f trace) := by
  unfold Simple
  infer_instance

section Snoc
variable {f g : ℕ} {trace : List Event} {e : Event}

theorem calls_snoc (trace : List Event) (e : Event) : calls (trace ++ [e]) = (calls trace).event e := by
  unfold calls
  rw [List.foldl_append]
  rfl

theorem logOf_snoc (f : ℕ) (trace : List Event) (e : Event) : logOf f (trace ++ [e]) = record f (logOf f trace) e := by
  unfold logOf
  rw [List.foldl_append]
  rfl

theorem exec_nestStep (s : CallStack) (trace : List Event) :
    exec nestStep s trace = some (trace.foldl CallStack.event s) := by
  induction trace generalizing s with
  | nil => rfl
  | cons e trace ih => exact ih (s.event e)

theorem WellNested.snoc (h : WellNested (trace ++ [e])) : WellNested trace ∧ (calls trace).Closes e := by
  obtain ⟨htrace,hlast⟩ := (meets_append nestStep).mp h
  exact ⟨htrace,(hlast _ (exec_nestStep _ trace)).1⟩

theorem CallStack.Closes.top {s : CallStack} {ts : ℕ} (h : s.Closes (.exit g ts)) :
    ∃ t, s.opened.head? = some (g,t) := by
  obtain ⟨call,hcall,rfl⟩ := Option.map_eq_some_iff.mp h
  exact ⟨call.2,hcall⟩

theorem Timed.snoc (h : Timed (trace ++ [e])) : Timed trace ∧ (∀ e' ∈ trace, e'.ts ≤ e.ts) ∧ e.ts ≠ 0 := by
  have hincreasing := h.increasing
  rw [List.map_append,List.pairwise_append] at hincreasing
  refine ⟨⟨hincreasing.1,fun e' he' => h.nonzero e' (List.mem_append_left _ he')⟩,fun e' he' => ?_,
    h.nonzero e (List.mem_append_right _ (List.mem_cons_self ..))⟩
  exact hincreasing.2.2 _ (List.mem_map_of_mem he') _ (List.mem_cons_self ..)

theorem simple_snoc (f : ℕ) (trace : List Event) (e : Event) : Simple f (trace ++ [e]) ↔
    Simple f trace ∧ (move f e = some false → (trace.filterMap (move f)).getLast? ≠ some false) := by
  unfold Simple
  rw [List.filterMap_append,List.isChain_append]
  cases hmove : move f e with
  | none => simp [hmove]
  | some b =>
    cases b with
    | true => simp [hmove]
    | false =>
      simp only [List.filterMap_cons_some hmove,List.filterMap_nil,List.IsChain.singleton,true_and,List.head?_cons,
        Option.mem_some_iff,forall_eq',Bool.or_false,forall_const]
      refine and_congr_right fun _ => ?_
      cases (trace.filterMap (move f)).getLast? with
      | none => simp
      | some b => cases b <;> simp

theorem completedOf_enter (f : ℕ) (trace : List Event) (g ts : ℕ) :
    completedOf f (trace ++ [.enter g ts]) = completedOf f trace := by
  unfold completedOf
  rw [calls_snoc]
  rfl

theorem completedOf_exit {trace : List Event} {t : ℕ} (h : (calls trace).opened.head? = some (g,t)) (f ts : ℕ) :
    completedOf f (trace ++ [.exit g ts]) =
      if g = f then (t,ts) :: completedOf f trace else completedOf f trace := by
  obtain ⟨rest,hrest⟩ := List.head?_eq_some_iff.mp h
  unfold completedOf
  rw [calls_snoc]
  unfold CallStack.event
  simp only [hrest,List.filter_cons]
  by_cases hg : g = f
  · simp [hg]
  · simp [hg]

end Snoc

/-- The samples of a log that have an exit. -/
def closedOf (log : Log) : Log := log.filter fun sample => sample.2 ≠ 0

/-- The log of a function against its calls. -/
structure Matched (f : ℕ) (trace : List Event) : Prop where
  opened : ∀ t, (f,t) ∈ (calls trace).opened → logOf f trace ≠ []
  latest : (trace.filterMap (move f)).getLast? = (logOf f trace).head?.map fun sample => decide (sample.2 = 0)
  closed : Simple f trace → closedOf (logOf f trace) = completedOf f trace
  innermost : Simple f trace → ∀ t, (logOf f trace).head? = some (t,0) →
    (calls trace).opened.find? (fun call => call.1 = f) = some (f,t)
  le : (closedOf (logOf f trace)).length ≤ (completedOf f trace).length
  lt : ¬Simple f trace → (closedOf (logOf f trace)).length < (completedOf f trace).length

section Match
variable {f g ts : ℕ} {trace : List Event}

theorem Matched.enter (h : Matched f trace) : Matched f (trace ++ [.enter f ts]) := by
  have hlog : logOf f (trace ++ [.enter f ts]) = (ts,0) :: logOf f trace := by
    rw [logOf_snoc]
    exact if_pos rfl
  have hmove : move f (.enter f ts) = some true := if_pos rfl
  have hsimple : Simple f (trace ++ [.enter f ts]) ↔ Simple f trace := by
    rw [simple_snoc,hmove]
    simp
  have hclosed : closedOf ((ts,0) :: logOf f trace) = closedOf (logOf f trace) := rfl
  constructor
  case opened =>
    intro t _
    rw [hlog]
    exact List.cons_ne_nil _ _
  case latest =>
    rw [hlog,List.filterMap_append,List.filterMap_cons_some hmove]
    simp
  case closed =>
    intro hs
    rw [hlog,completedOf_enter,hclosed]
    exact h.closed (hsimple.mp hs)
  case innermost =>
    intro _ t ht
    rw [hlog] at ht
    obtain rfl : ts = t := (Prod.mk.inj (Option.some.inj ht)).1
    rw [calls_snoc]
    exact List.find?_cons_of_pos (by simp)
  case le =>
    rw [hlog,completedOf_enter,hclosed]
    exact h.le
  case lt =>
    intro hs
    rw [hlog,completedOf_enter,hclosed]
    exact h.lt fun hs' => hs (hsimple.mpr hs')

/-- An event of another function keeps a log with what it leaves of the calls. -/
theorem Matched.other (h : Matched f trace) {event : Event} (hlog : logOf f (trace ++ [event]) = logOf f trace)
    (hmove : move f event = none) (hcompleted : completedOf f (trace ++ [event]) = completedOf f trace)
    (hopened : ∀ t, (f,t) ∈ (calls (trace ++ [event])).opened → (f,t) ∈ (calls trace).opened)
    (hfind : (calls (trace ++ [event])).opened.find? (fun call => call.1 = f) =
      (calls trace).opened.find? fun call => call.1 = f) : Matched f (trace ++ [event]) := by
  have hsimple : Simple f (trace ++ [event]) ↔ Simple f trace := by
    rw [simple_snoc,hmove]
    simp
  constructor
  case opened =>
    intro t ht
    rw [hlog]
    exact h.opened t (hopened t ht)
  case latest =>
    rw [hlog,List.filterMap_append,List.filterMap_cons_none hmove,List.filterMap_nil,List.append_nil]
    exact h.latest
  case closed =>
    intro hs
    rw [hlog,hcompleted]
    exact h.closed (hsimple.mp hs)
  case innermost =>
    intro hs t ht
    rw [hlog] at ht
    exact hfind.trans (h.innermost (hsimple.mp hs) t ht)
  case le =>
    rw [hlog,hcompleted]
    exact h.le
  case lt =>
    intro hs
    rw [hlog,hcompleted]
    exact h.lt fun hs' => hs (hsimple.mpr hs')

theorem Matched.enter_other (h : Matched f trace) (hg : g ≠ f) : Matched f (trace ++ [.enter g ts]) := by
  have hopened : (calls (trace ++ [.enter g ts])).opened = (g,ts) :: (calls trace).opened := by
    rw [calls_snoc]
    rfl
  have hmove : move f (.enter g ts) = none := if_neg hg
  apply h.other _ hmove (completedOf_enter f trace g ts)
  · intro t ht
    rw [hopened] at ht
    rcases List.mem_cons.mp ht with heq | hmem
    · exact absurd (congrArg Prod.fst heq).symm hg
    · exact hmem
  · rw [hopened]
    exact List.find?_cons_of_neg (by simp [hg])
  · rw [logOf_snoc]
    exact if_neg hg

theorem Matched.exit_other (h : Matched f trace) {t : ℕ} (htop : (calls trace).opened.head? = some (g,t)) (hg : g ≠ f) :
    Matched f (trace ++ [.exit g ts]) := by
  obtain ⟨rest,hrest⟩ := List.head?_eq_some_iff.mp htop
  have hopened : (calls (trace ++ [.exit g ts])).opened = rest := by
    rw [calls_snoc,CallStack.event,hrest]
  have hcompleted : completedOf f (trace ++ [.exit g ts]) = completedOf f trace := by
    rw [completedOf_exit htop,if_neg hg]
  have hmove : move f (.exit g ts) = none := if_neg hg
  apply h.other _ hmove hcompleted
  · intro u hu
    rw [hopened] at hu
    rw [hrest]
    exact List.mem_cons_of_mem _ hu
  · rw [hopened,hrest,List.find?_cons_of_neg (by simp [hg])]
  · rw [logOf_snoc]
    exact if_neg hg

/-- An exit goes to the innermost open call, unless an exit of the function came right before. -/
theorem Matched.exit (h : Matched f trace) {t : ℕ} (htop : (calls trace).opened.head? = some (f,t)) (hts : ts ≠ 0) :
    Matched f (trace ++ [.exit f ts]) := by
  obtain ⟨rest,hrest⟩ := List.head?_eq_some_iff.mp htop
  have hnonempty : logOf f trace ≠ [] := by
    refine h.opened t ?_
    rw [hrest]
    exact List.mem_cons_self ..
  obtain ⟨sample,older,hold⟩ := List.exists_cons_of_ne_nil hnonempty
  have hlog : logOf f (trace ++ [.exit f ts]) = (sample.1,ts) :: older := by
    rw [logOf_snoc,hold]
    exact if_pos rfl
  have hmove : move f (.exit f ts) = some false := if_pos rfl
  have hcompleted : completedOf f (trace ++ [.exit f ts]) = (t,ts) :: completedOf f trace := by
    rw [completedOf_exit htop,if_pos rfl]
  have hclosed : closedOf ((sample.1,ts) :: older) = (sample.1,ts) :: closedOf older := by
    unfold closedOf
    exact List.filter_cons_of_pos (by simpa using hts)
  have hlast : (trace.filterMap (move f)).getLast? = some (decide (sample.2 = 0)) := by
    rw [h.latest,hold]
    rfl
  have hsimple : Simple f (trace ++ [.exit f ts]) ↔ Simple f trace ∧ sample.2 = 0 := by
    rw [simple_snoc,hmove,hlast]
    simp
  have hopen : sample.2 = 0 → closedOf (sample :: older) = closedOf older := fun hzero =>
    List.filter_cons_of_neg (by simpa using hzero)
  have hshut : sample.2 ≠ 0 → closedOf (sample :: older) = sample :: closedOf older := fun hne =>
    List.filter_cons_of_pos (by simpa using hne)
  have hle := h.le
  rw [hold] at hle
  constructor
  case opened =>
    intro u _
    rw [hlog]
    exact List.cons_ne_nil _ _
  case latest =>
    rw [hlog,List.filterMap_append,List.filterMap_cons_some hmove]
    simp [hts]
  case closed =>
    intro hs
    obtain ⟨hs,hzero⟩ := hsimple.mp hs
    have hsample : sample = (sample.1,0) := Prod.ext rfl hzero
    have hinner := h.innermost hs sample.1 (by rw [hold,← hsample]; rfl)
    rw [hrest,List.find?_cons_of_pos (by simp)] at hinner
    have heq := h.closed hs
    rw [hold,hopen hzero] at heq
    rw [hlog,hcompleted,hclosed,heq,(Prod.mk.inj (Option.some.inj hinner)).2]
  case innermost =>
    intro _ u hu
    rw [hlog] at hu
    exact absurd (Prod.mk.inj (Option.some.inj hu)).2 hts
  case le =>
    rw [hlog,hcompleted,hclosed,List.length_cons,List.length_cons]
    by_cases hzero : sample.2 = 0
    · rw [hopen hzero] at hle
      omega
    · rw [hshut hzero,List.length_cons] at hle
      omega
  case lt =>
    intro hs
    rw [hlog,hcompleted,hclosed,List.length_cons,List.length_cons]
    by_cases hzero : sample.2 = 0
    · have hlt := h.lt fun hs' => hs (hsimple.mpr ⟨hs',hzero⟩)
      rw [hold,hopen hzero] at hlt
      omega
    · rw [hshut hzero,List.length_cons] at hle
      omega

theorem matched (f : ℕ) {trace : List Event} (hn : WellNested trace) (ht : Timed trace) : Matched f trace := by
  induction trace using List.reverseRecOn with
  | nil =>
    constructor
    case opened => exact fun t ht => absurd ht List.not_mem_nil
    case latest => rfl
    case closed => exact fun _ => rfl
    case innermost =>
      intro _ t ht
      cases ht
    case le => exact le_refl _
    case lt => exact fun hs => absurd List.IsChain.nil hs
  | append_singleton trace e ih =>
    obtain ⟨hn,hcloses⟩ := hn.snoc
    obtain ⟨ht,_,hts⟩ := ht.snoc
    have hmatched := ih hn ht
    cases e with
    | enter g ts =>
      by_cases hg : g = f
      · subst hg
        exact hmatched.enter
      · exact hmatched.enter_other hg
    | exit g ts =>
      obtain ⟨t,htop⟩ := hcloses.top
      by_cases hg : g = f
      · subst hg
        exact hmatched.exit htop hts
      · exact hmatched.exit_other htop hg

end Match

/-- How many entries of tracked functions a trace has. -/
def trackedEntries (funcList : List ℕ) (trace : List Event) : ℕ :=
  trace.countP fun e => match e with
    | .enter f _ => f ∈ funcList
    | .exit _ _ => false

section Run
variable {funcList : List ℕ} {p : Profiler} {slots : ℕ → List ℕ} {logs : ℕ → Log} {trace : List Event}

theorem Indexed.untracked (h : Indexed funcList p) {f : ℕ} (hf : f ∉ funcList) : getFuncNodeIndex p f = none := by
  cases hlook : getFuncNodeIndex p f with
  | none => rfl
  | some i => exact absurd (List.mem_of_getElem? ((h.lookup i f).mp hlook)) hf

theorem Chains.event (h : Chains funcList p slots logs) (e : Event)
    (hroom : p.nextSample + trackedEntries funcList [e] ≤
    maxProfSamples) : ∃ slots' logs', Chains funcList (p.event e) slots' logs' ∧
      (∀ f ∈ funcList, logs' f = record f (logs f) e) ∧
      (p.event e).nextSample = p.nextSample + trackedEntries funcList [e] := by
  cases e with
  | enter g ts =>
    by_cases hg : g ∈ funcList
    · obtain ⟨i,hi⟩ := List.getElem?_of_mem hg
      have hone : trackedEntries funcList [.enter g ts] = 1 := by simp [trackedEntries,hg]
      rw [hone] at hroom ⊢
      refine ⟨_,_,h.enter hi hroom ts,fun f hf => ?_,(h.entered hi hroom ts).nextSample⟩
      by_cases hfg : g = f
      · subst hfg
        rw [Function.update_self]
        exact (if_pos rfl).symm
      · rw [Function.update_of_ne (Ne.symm hfg)]
        exact (if_neg hfg).symm
    · have hzero : trackedEntries funcList [.enter g ts] = 0 := by simp [trackedEntries,hg]
      have hsame : p.event (.enter g ts) = p := enter_untracked (h.indexed.untracked hg) ts
      rw [hsame,hzero]
      refine ⟨slots,logs,h,fun f hf => ?_,rfl⟩
      have hgf : g ≠ f := fun hgf => hg (hgf ▸ hf)
      exact (if_neg hgf).symm
  | exit g ts =>
    have hzero : trackedEntries funcList [.exit g ts] = 0 := by simp [trackedEntries]
    rw [hzero]
    by_cases hg : g ∈ funcList
    · obtain ⟨i,hi⟩ := List.getElem?_of_mem hg
      refine ⟨_,_,h.exit hi ts,fun f hf => ?_,exit_nextSample g ts p⟩
      by_cases hfg : g = f
      · subst hfg
        rw [Function.update_self]
      · rw [Function.update_of_ne (Ne.symm hfg)]
        exact (if_neg hfg).symm
    · have hsame : p.event (.exit g ts) = p := exit_untracked (h.indexed.untracked hg) ts
      rw [hsame]
      refine ⟨slots,logs,h,fun f hf => ?_,rfl⟩
      have hgf : g ≠ f := fun hgf => hg (hgf ▸ hf)
      exact (if_neg hgf).symm

/-- A trace with room for its entries leaves the logs in the chains. -/
theorem profile_chains (hp : Started funcList p) (hroom : trackedEntries funcList trace ≤ maxProfSamples) :
    ∃ slots logs, Chains funcList (profile p trace) slots logs ∧ (∀ f ∈ funcList, logs f = logOf f trace) ∧
      (profile p trace).nextSample = trackedEntries funcList trace := by
  induction trace using List.reverseRecOn with
  | nil => exact ⟨_,_,hp.chains,fun f _ => rfl,hp.nextSample⟩
  | append_singleton trace e ih =>
    have hsplit : trackedEntries funcList (trace ++ [e]) = trackedEntries funcList trace +
        trackedEntries funcList [e] :=
      List.countP_append
    rw [hsplit] at hroom
    obtain ⟨slots,logs,hchains,hlogs,hnext⟩ := ih (by omega)
    obtain ⟨slots',logs',hchains',hlogs',hnext'⟩ := hchains.event e (by omega)
    have hprofile : profile p (trace ++ [e]) = (profile p trace).event e := by
      unfold profile
      rw [List.foldl_append]
      rfl
    rw [hprofile]
    refine ⟨slots',logs',hchains',fun f hf => ?_,by omega⟩
    rw [hlogs' f hf,hlogs f hf,logOf_snoc]

theorem profGetStats_profile (hp : Started funcList p) (hroom : trackedEntries funcList trace ≤ maxProfSamples)
    {fuel count : ℕ} (hcount : funcList.length ≤ count) (hfuel : maxProfSamples ≤ fuel) :
    ∃ q, profGetStats fuel count (profile p trace) =
      some (q,funcList.filterMap fun f => reportOf f (logOf f trace)) := by
  obtain ⟨slots,logs,hchains,hlogs,hnext⟩ := profile_chains hp hroom
  have hlist : (funcList.filterMap fun f => reportOf f (logs f)) = funcList.filterMap
      fun f => reportOf f (logOf f trace) :=
    List.filterMap_congr fun f hf => by rw [hlogs f hf]
  by_cases hsome : (profile p trace).nextSample = 0
  · have hnone : (funcList.filterMap fun f => reportOf f (logs f)) = [] := by
      rw [List.filterMap_eq_nil_iff]
      intro f hf
      obtain ⟨i,hi⟩ := List.getElem?_of_mem hf
      have hheld := hchains.held i f hi
      have hempty : slots f = [] := by
        rw [← List.length_eq_zero_iff]
        have hlen := hheld.length_le
        omega
      rw [← hheld.samples,hempty]
      rfl
    rw [← hlist,hnone]
    refine ⟨{ profile p trace with nextSample := profStopMark },?_⟩
    unfold profGetStats profStop
    simp only [hsome]
    rfl
  · rw [← hlist]
    exact ⟨_,hchains.profGetStats hsome hcount hfuel⟩

end Run

end EmbedTemplate.Profiling
