import EmbedTemplate.Profiler.Samples
import Mathlib.Data.List.Nodup
import Mathlib.Tactic.Common

/-! # The samples of a function

A run of entries and exits leaves for every tracked function a log of its samples, newest
first: an entry opens a sample, and an exit goes to the newest one. The chains through the
pool hold these logs, and the read-out replays them.
-/
namespace EmbedTemplate.Profiling
open Bytes PoolChain

/-- The lookup finds the functions of the list at their places. -/
structure Indexed (funcList : List ℕ) (p : Profiler) : Prop where
  numFunctions : p.numFunctions = funcList.length
  funcAddr : ∀ i f, funcList[i]? = some f → (p.profTable i).funcAddr = f
  lookup : ∀ i f, getFuncNodeIndex p f = some i ↔ funcList[i]? = some f

/-- Profiling is running, on empty lists and a clean pool. -/
structure Started (funcList : List ℕ) (p : Profiler) : Prop where
  indexed : Indexed funcList p
  nextSample : p.nextSample = 0
  head : ∀ i < funcList.length, (p.profTable i).head = none
  tail : ∀ i < funcList.length, (p.profTable i).tail = none
  clean : ∀ k, (p.pool k).exitTs = 0

section Init
variable {slot : ℕ → ℕ} {funcList : List ℕ}

theorem slotsFree_nodup {taken : ℕ → Bool} (h : slotsFree slot funcList taken = true) :
    (funcList.map slot).Nodup ∧ ∀ f ∈ funcList, taken (slot f) = false := by
  induction funcList generalizing taken with
  | nil => exact ⟨List.nodup_nil,fun f hf => absurd hf List.not_mem_nil⟩
  | cons g fs ih =>
    unfold slotsFree at h
    split at h
    case isTrue => cases h
    case isFalse hfree =>
      obtain ⟨hnodup,hrest⟩ := ih h
      have hother : ∀ f ∈ fs, slot f ≠ slot g := by
        intro f hf hsame
        have htaken := hrest f hf
        rw [hsame,Function.update_self] at htaken
        cases htaken
      constructor
      · rw [List.map_cons,List.nodup_cons]
        refine ⟨fun hmem => ?_,hnodup⟩
        obtain ⟨f,hf,hsame⟩ := List.mem_map.mp hmem
        exact hother f hf hsame
      · intro f hf
        rcases List.mem_cons.mp hf with rfl | hf
        · exact Bool.eq_false_of_not_eq_true hfree
        · have htaken := hrest f hf
          rwa [Function.update_of_ne (hother f hf)] at htaken

/-- What the loop over the function list leaves in the maps. -/
structure Mapped (slot : ℕ → ℕ) (funcList : List ℕ) (n : ℕ) (p q : Profiler) : Prop where
  inuse : ∀ s, q.inuseMap s = (p.inuseMap s || decide (s ∈ funcList.map slot))
  lookaside : ∀ i f, funcList[i]? = some f → q.lookasideMap (slot f) = n + i
  node : ∀ i f, funcList[i]? = some f → q.profTable (n + i) = ⟨f,none,none⟩
  lookaside_kept : ∀ s, s ∉ funcList.map slot → q.lookasideMap s = p.lookasideMap s
  node_kept : ∀ i < n, q.profTable i = p.profTable i
  rest : q = { p with profTable := q.profTable, lookasideMap := q.lookasideMap, inuseMap := q.inuseMap }

theorem mapped_foldl (hnodup : (funcList.map slot).Nodup) (n : ℕ) (p : Profiler) :
    Mapped slot funcList n p ((funcList.zipIdx n).foldl (addFunction slot) p) := by
  induction funcList generalizing n p with
  | nil =>
    constructor
    case inuse => simp
    case rest => rfl
    all_goals simp
  | cons g fs ih =>
    rw [List.map_cons,List.nodup_cons] at hnodup
    have hrest := ih hnodup.2 (n + 1) (addFunction slot p (g,n))
    rw [List.zipIdx_cons,List.foldl_cons]
    constructor
    case inuse =>
      intro s
      rw [hrest.inuse]
      by_cases hs : s = slot g
      · simp [addFunction,hs]
      · simp [addFunction,hs]
    case lookaside =>
      intro i f hi
      cases i with
      | zero =>
        obtain rfl : g = f := by simpa using hi
        rw [hrest.lookaside_kept _ hnodup.1]
        simp [addFunction]
      | succ i =>
        rw [hrest.lookaside i f (by simpa using hi)]
        omega
    case node =>
      intro i f hi
      cases i with
      | zero =>
        obtain rfl : g = f := by simpa using hi
        refine (hrest.node_kept n (Nat.lt_succ_self n)).trans ?_
        simp [addFunction]
      | succ i =>
        have hnode := hrest.node i f (by simpa using hi)
        rwa [Nat.add_assoc,Nat.add_comm 1 i] at hnode
    case lookaside_kept =>
      intro s hs
      rw [List.map_cons,List.mem_cons,not_or] at hs
      rw [hrest.lookaside_kept s hs.2]
      exact Function.update_of_ne hs.1 ..
    case node_kept =>
      intro i hi
      rw [hrest.node_kept i (by omega)]
      exact Function.update_of_ne hi.ne ..
    case rest => exact hrest.rest

theorem seedFrom_some {wide : Bool} {n seed seed' : ℕ} (h : seedFrom wide funcList n seed = some seed') :
    trySeed wide funcList seed' = true := by
  induction n generalizing seed with
  | zero => cases h
  | succ n ih =>
    unfold seedFrom at h
    split at h
    case isTrue htry =>
      obtain rfl := Option.some.inj h
      exact htry
    case isFalse => exact ih h

theorem findPerfectSeed_some {wide : Bool} {seed : ℕ} (h : findPerfectSeed wide funcList = some seed) :
    (funcList.map fun f => hash wide funcList.length f seed).Nodup := by
  have hfree := seedFrom_some h
  unfold trySeed at hfree
  exact (slotsFree_nodup hfree).1

/-- The memory that the loop over the function list begins with. -/
structure Cleared (wide : Bool) (funcList : List ℕ) (seed : ℕ) (p : Profiler) : Prop where
  target : p.wide = wide
  numFunctions : p.numFunctions = funcList.length
  profSeed : p.profSeed = seed
  inuse : ∀ f, p.inuseMap (hash wide funcList.length f seed) = false
  clean : ∀ k, (p.pool k).exitTs = 0

section Filled
variable {wide : Bool} {seed : ℕ} {p q : Profiler}

theorem Mapped.profTable (h : Mapped slot funcList 0 p q) {i f : ℕ} (hi : funcList[i]? = some f) :
    q.profTable i = ⟨f,none,none⟩ := by
  have hn := h.node i f hi
  rwa [Nat.zero_add] at hn

theorem Mapped.indexed (h : Mapped (fun f => hash wide funcList.length f seed) funcList 0 p q)
    (hp : Cleared wide funcList seed p) : Indexed funcList q := by
  have hslot : ∀ f, hash q.wide q.numFunctions f q.profSeed = hash wide funcList.length f seed := by
    intro f
    rw [h.rest]
    dsimp only
    rw [hp.target,hp.numFunctions,hp.profSeed]
  constructor
  case numFunctions =>
    rw [h.rest]
    exact hp.numFunctions
  case funcAddr =>
    intro i f hi
    rw [h.profTable hi]
  case lookup =>
    intro i f
    unfold getFuncNodeIndex
    dsimp only
    rw [hslot,h.inuse,hp.inuse,Bool.false_or]
    constructor
    · intro hfound
      split at hfound
      case isFalse => cases hfound
      case isTrue hin =>
        split at hfound
        case isFalse => cases hfound
        case isTrue haddr =>
          obtain ⟨g,hg,hsame⟩ := List.mem_map.mp (of_decide_eq_true hin)
          obtain ⟨j,hj⟩ := List.getElem?_of_mem hg
          have hlook := h.lookaside j g hj
          rw [hsame,Nat.zero_add] at hlook
          rw [hlook] at hfound haddr
          rw [h.profTable hj] at haddr
          rw [← Option.some.inj hfound,hj]
          exact congrArg some haddr
    · intro hi
      have hmem : f ∈ funcList := List.mem_of_getElem? hi
      have hlook := h.lookaside i f hi
      rw [Nat.zero_add] at hlook
      rw [if_pos (decide_eq_true (List.mem_map.mpr ⟨f,hmem,rfl⟩)),hlook,h.profTable hi]
      exact if_pos rfl

theorem Mapped.started (h : Mapped (fun f => hash wide funcList.length f seed) funcList 0 p q)
    (hp : Cleared wide funcList seed p) (hnext : p.nextSample = 0) : Started funcList q := by
  constructor
  case indexed => exact h.indexed hp
  case nextSample =>
    rw [h.rest]
    exact hnext
  case head =>
    intro i hi
    rw [h.profTable (List.getElem?_eq_getElem hi)]
  case tail =>
    intro i hi
    rw [h.profTable (List.getElem?_eq_getElem hi)]
  case clean =>
    rw [h.rest]
    exact hp.clean

end Filled

theorem initProfiler_started {wide : Bool} {p : Profiler} (h : initProfiler wide funcList = some p) :
    Started funcList p := by
  unfold initProfiler at h
  cases hseed : findPerfectSeed wide funcList with
  | none =>
    rw [hseed] at h
    cases h
  | some seed =>
    rw [hseed] at h
    obtain rfl := Option.some.inj h
    exact (mapped_foldl (findPerfectSeed_some hseed) 0 _).started ⟨rfl,rfl,rfl,fun _ => rfl,fun _ => rfl⟩ rfl

end Init

/-- The lookup reads what a run of entries and exits leaves alone. -/
structure SameIndex (p q : Profiler) : Prop where
  numFunctions : q.numFunctions = p.numFunctions
  funcAddr : ∀ i, (q.profTable i).funcAddr = (p.profTable i).funcAddr
  lookup : ∀ f, getFuncNodeIndex q f = getFuncNodeIndex p f

theorem SameIndex.mk' {p q : Profiler} (hrest : q.wide = p.wide ∧ q.numFunctions = p.numFunctions ∧
    q.profSeed = p.profSeed ∧ q.lookasideMap = p.lookasideMap ∧ q.inuseMap = p.inuseMap)
    (haddr : ∀ i, (q.profTable i).funcAddr = (p.profTable i).funcAddr) : SameIndex p q := by
  obtain ⟨hwide,hnum,hseed,hlookaside,hinuse⟩ := hrest
  refine ⟨hnum,haddr,fun f => ?_⟩
  unfold getFuncNodeIndex
  dsimp only
  rw [hwide,hnum,hseed,hlookaside,hinuse]
  simp only [haddr]

/-- Another node for a function, with the address it had. -/
theorem SameIndex.update {p q : Profiler} {i : ℕ} {x : Node} (hrest : q.wide = p.wide ∧ q.numFunctions = p.numFunctions ∧
    q.profSeed = p.profSeed ∧ q.lookasideMap = p.lookasideMap ∧ q.inuseMap = p.inuseMap)
    (htable : q.profTable = Function.update p.profTable i x) (haddr : x.funcAddr = (p.profTable i).funcAddr) :
    SameIndex p q := by
  refine SameIndex.mk' hrest fun j => ?_
  rw [htable,Function.update_apply]
  split
  · rw [‹j = i›,haddr]
  · rfl

theorem SameIndex.indexed {funcList : List ℕ} {p q : Profiler} (h : SameIndex p q) (hp : Indexed funcList p) :
    Indexed funcList q := by
  refine ⟨h.numFunctions.trans hp.numFunctions,fun i f hi => ?_,fun i f => ?_⟩
  · rw [h.funcAddr]
    exact hp.funcAddr i f hi
  · rw [h.lookup]
    exact hp.lookup i f

/-- An entry or an exit of a function, at a time. -/
inductive Event where
  | enter (funcAddr ts : ℕ)
  | exit (funcAddr ts : ℕ)
  deriving DecidableEq

def Profiler.event (p : Profiler) : Event → Profiler
  | .enter funcAddr ts => cygProfileFuncEnter funcAddr ts p
  | .exit funcAddr ts => cygProfileFuncExit funcAddr ts p

/-- The profiler behind a trace of events. -/
def profile (p : Profiler) (trace : List Event) : Profiler := trace.foldl Profiler.event p

/-- The log of a function, newest first: entry time and exit time, zero if there is none yet. -/
abbrev Log := List (ℕ × ℕ)

def record (f : ℕ) (log : Log) : Event → Log
  | .enter g ts => if g = f then (ts,0) :: log else log
  | .exit g ts =>
    if g = f then
      match log with
      | [] => []
      | sample :: rest => (sample.1,ts) :: rest
    else log

def logOf (f : ℕ) (trace : List Event) : Log := trace.foldl (record f) []

/-- The log of a function, held by the chain of its samples. -/
structure Held (p : Profiler) (node : Node) (slots : List ℕ) (log : Log) : Prop where
  links : Links (fun k => (p.pool k).ll) none slots
  head : node.head = slots.getLast?
  tail : node.tail = slots.head?
  below : ∀ k ∈ slots, k < p.nextSample
  nodup : slots.Nodup
  samples : slots.map (fun k => ((p.pool k).entryTs,(p.pool k).exitTs)) = log

/-- The logs of the functions, in chains that have no sample in common. -/
structure Chains (funcList : List ℕ) (p : Profiler) (slots : ℕ → List ℕ) (logs : ℕ → Log) : Prop where
  indexed : Indexed funcList p
  held : ∀ i f, funcList[i]? = some f → Held p (p.profTable i) (slots f) (logs f)
  apart : ∀ f g k, k ∈ slots f → k ∈ slots g → f = g
  below : ∀ f, ∀ k ∈ slots f, k < p.nextSample
  clean : ∀ k, p.nextSample ≤ k → (p.pool k).exitTs = 0
  room : p.nextSample ≤ maxProfSamples

theorem Started.chains {funcList : List ℕ} {p : Profiler} (h : Started funcList p) :
    Chains funcList p (fun _ => []) fun _ => [] := by
  constructor
  case indexed => exact h.indexed
  case held =>
    intro i f hi
    have hlt : i < funcList.length := (List.getElem?_eq_some_iff.mp hi).1
    exact ⟨trivial,h.head i hlt,h.tail i hlt,fun k hk => absurd hk List.not_mem_nil,List.nodup_nil,rfl⟩
  case apart => exact fun f g k hk => absurd hk List.not_mem_nil
  case below => exact fun f k hk => absurd hk List.not_mem_nil
  case clean => exact fun k _ => h.clean k
  case room =>
    rw [h.nextSample]
    exact Nat.zero_le _

theorem Held.frame {p q : Profiler} {node : Node} {slots : List ℕ} {log : Log} (h : Held p node slots log)
    (hpool : ∀ k ∈ slots, q.pool k = p.pool k) (hnext : p.nextSample ≤ q.nextSample) : Held q node slots log := by
  refine ⟨?_,h.head,h.tail,fun k hk => (h.below k hk).trans_le hnext,h.nodup,?_⟩
  · exact h.links.congr fun k hk => congrArg Sample.ll (hpool k hk)
  · rw [← h.samples]
    refine List.map_congr_left fun k hk => ?_
    rw [hpool k hk]

/-- What an entry that takes a sample stores. -/
structure Entered (p q : Profiler) (i ts : ℕ) : Prop where
  sameIndex : SameIndex p q
  nextSample : q.nextSample = p.nextSample + 1
  newest : q.pool p.nextSample = ⟨ts,none,(p.pool p.nextSample).exitTs⟩
  linked : ∀ t ∈ (p.profTable i).tail, q.pool t = { p.pool t with ll := some p.nextSample }
  kept : ∀ k, k ≠ p.nextSample → k ∉ (p.profTable i).tail → q.pool k = p.pool k
  tail : (q.profTable i).tail = some p.nextSample
  head : (q.profTable i).head = if (p.profTable i).tail = none then some p.nextSample else (p.profTable i).head
  node : ∀ j, j ≠ i → q.profTable j = p.profTable j

section Steps
variable {funcList : List ℕ} {p : Profiler} {slots : ℕ → List ℕ} {logs : ℕ → Log} {i f : ℕ}

theorem running_ne_stop (hroom : p.nextSample < maxProfSamples) : p.nextSample ≠ profStopMark := by
  unfold maxProfSamples at hroom
  unfold profStopMark
  omega

theorem enter_entered (hlook : getFuncNodeIndex p f = some i) (hroom : p.nextSample < maxProfSamples)
    (htail : p.nextSample ∉ (p.profTable i).tail) (ts : ℕ) : Entered p (cygProfileFuncEnter f ts p) i ts := by
  have hnext : u32 (p.nextSample + 1) = p.nextSample + 1 := by
    unfold maxProfSamples at hroom
    exact u32_of_lt (by omega)
  unfold cygProfileFuncEnter
  simp only [hlook,if_neg (running_ne_stop hroom),if_neg (Nat.not_le_of_lt hroom),Profiler.atSample,Profiler.atNode,
    Function.update_self,Function.update_idem]
  cases hlast : (p.profTable i).tail with
  | some t =>
    have ht : t ≠ p.nextSample := by
      rintro rfl
      exact htail hlast
    unfold linkBehind Profiler.atSample
    constructor
    case sameIndex => exact SameIndex.update ⟨rfl,rfl,rfl,rfl,rfl⟩ rfl rfl
    case nextSample => exact hnext
    case newest => simp [Function.update_of_ne ht.symm]
    case linked =>
      rintro t' ht'
      obtain rfl := Option.some.inj (hlast ▸ ht' : some t = some t')
      simp [Function.update_of_ne ht]
    case kept =>
      intro k hk hkt
      have hne : k ≠ t := fun h => hkt (h ▸ hlast)
      simp [Function.update_of_ne hne,Function.update_of_ne hk]
    case tail => simp
    case head => simp [hlast]
    case node =>
      intro j hj
      simp [Function.update_of_ne hj]
  | none =>
    unfold linkBehind Profiler.atNode
    constructor
    case sameIndex =>
      refine SameIndex.update ⟨rfl,rfl,rfl,rfl,rfl⟩ (Function.update_idem ..) ?_
      dsimp only
      rw [Function.update_self]
    case nextSample => exact hnext
    case newest => simp
    case linked =>
      rintro t' ht'
      rw [hlast] at ht'
      cases ht'
    case kept =>
      intro k hk _
      simp [Function.update_of_ne hk]
    case tail => simp
    case head => simp [hlast]
    case node =>
      intro j hj
      simp [Function.update_of_ne hj]

theorem Indexed.injective (h : Indexed funcList p) {j g : ℕ} (hi : funcList[i]? = some f) (hj : funcList[j]? = some g)
    (hfg : f = g) : i = j := by
  subst hfg
  exact Option.some.inj (((h.lookup i f).mpr hi).symm.trans ((h.lookup j f).mpr hj))

theorem getLast?_cons_eq {k : ℕ} {ks : List ℕ} :
    (k :: ks).getLast? = if ks.head? = none then some k else ks.getLast? := by
  cases ks with
  | nil => rfl
  | cons t ks => rw [List.getLast?_cons_cons,List.head?_cons,if_neg (Option.some_ne_none t)]

theorem enter_untracked (h : getFuncNodeIndex p f = none) (ts : ℕ) : cygProfileFuncEnter f ts p = p := by
  unfold cygProfileFuncEnter
  rw [h]

theorem exit_untracked (h : getFuncNodeIndex p f = none) (ts : ℕ) : cygProfileFuncExit f ts p = p := by
  unfold cygProfileFuncExit
  rw [h]

theorem exit_nextSample (f ts : ℕ) (p : Profiler) : (cygProfileFuncExit f ts p).nextSample = p.nextSample := by
  unfold cygProfileFuncExit
  split
  · rfl
  · split
    · rfl
    · split <;> rfl

theorem Chains.entered (h : Chains funcList p slots logs) (hi : funcList[i]? = some f)
    (hroom : p.nextSample < maxProfSamples) (ts : ℕ) : Entered p (cygProfileFuncEnter f ts p) i ts := by
  apply enter_entered ((h.indexed.lookup i f).mpr hi) hroom
  rw [(h.held i f hi).tail]
  exact fun hmem => lt_irrefl _ (h.below f _ (List.mem_of_head? hmem))

theorem Chains.enter (h : Chains funcList p slots logs) (hi : funcList[i]? = some f)
    (hroom : p.nextSample < maxProfSamples)
    (ts : ℕ) : Chains funcList (cygProfileFuncEnter f ts p) (Function.update slots f (p.nextSample :: slots f))
      (Function.update logs f ((ts,0) :: logs f)) := by
  have hheld := h.held i f hi
  have hfresh : ∀ g, p.nextSample ∉ slots g := fun g hmem => lt_irrefl _ (h.below g _ hmem)
  have hq := h.entered hi hroom ts
  generalize cygProfileFuncEnter f ts p = q at hq
  have hmem : ∀ g, ∀ k ∈ Function.update slots f (p.nextSample :: slots f) g,
      (g = f ∧ k = p.nextSample) ∨ k ∈ slots g := by
    intro g k hk
    by_cases hg : g = f
    · subst hg
      rw [Function.update_self] at hk
      exact (List.mem_cons.mp hk).imp (fun hk => ⟨rfl,hk⟩) id
    · rw [Function.update_of_ne hg] at hk
      exact .inr hk
  constructor
  case indexed => exact hq.sameIndex.indexed h.indexed
  case held =>
    intro j g hj
    by_cases hg : g = f
    · subst hg
      obtain rfl := h.indexed.injective hi hj rfl
      rw [Function.update_self,Function.update_self]
      constructor
      case links =>
        apply hheld.links.push
        · rw [hq.newest]
        · intro t ht
          rw [← hheld.tail] at ht
          rw [hq.linked t ht]
        · intro k hk
          have hmemk : k ∈ slots g := List.mem_of_mem_tail hk
          have hktail : k ∉ (p.profTable i).tail := by
            rw [hheld.tail]
            intro hhead
            have hnodup := hheld.nodup
            cases hslots : slots g with
            | nil =>
              rw [hslots] at hmemk
              exact absurd hmemk List.not_mem_nil
            | cons t ks =>
              rw [hslots] at hhead hk hnodup
              obtain rfl := Option.some.inj hhead
              exact (List.nodup_cons.mp hnodup).1 hk
          rw [hq.kept k (fun hn => hfresh g (hn ▸ hmemk)) hktail]
      case head => rw [hq.head,hheld.tail,hheld.head,getLast?_cons_eq]
      case tail => rw [hq.tail,List.head?_cons]
      case below =>
        intro k hk
        rw [hq.nextSample]
        rcases List.mem_cons.mp hk with rfl | hk
        · exact Nat.lt_succ_self _
        · exact Nat.lt_succ_of_lt (hheld.below k hk)
      case nodup => exact List.nodup_cons.mpr ⟨hfresh g,hheld.nodup⟩
      case samples =>
        rw [List.map_cons,hq.newest,h.clean _ (le_refl _),← hheld.samples]
        refine congrArg _ (List.map_congr_left fun k hk => ?_)
        by_cases hkt : k ∈ (p.profTable i).tail
        · rw [hq.linked k hkt]
        · rw [hq.kept k (fun hn => hfresh g (hn ▸ hk)) hkt]
    · have hij : j ≠ i := fun hij => hg (Option.some.inj (hj.symm.trans (hij ▸ hi)))
      rw [Function.update_of_ne hg,Function.update_of_ne hg,hq.node j hij]
      refine (h.held j g hj).frame (fun k hk => hq.kept k (fun hn => hfresh g (hn ▸ hk)) fun hkt => ?_)
        (hq.nextSample ▸ Nat.le_succ _)
      rw [hheld.tail] at hkt
      exact hg (h.apart g f k hk (List.mem_of_head? hkt))
  case apart =>
    intro g g' k hk hk'
    rcases hmem g k hk with ⟨rfl,rfl⟩ | hold
    · rcases hmem g' _ hk' with ⟨rfl,_⟩ | hold'
      · rfl
      · exact absurd hold' (hfresh g')
    · rcases hmem g' k hk' with ⟨rfl,rfl⟩ | hold'
      · exact absurd hold (hfresh g)
      · exact h.apart g g' k hold hold'
  case below =>
    intro g k hk
    rw [hq.nextSample]
    rcases hmem g k hk with ⟨_,rfl⟩ | hold
    · exact Nat.lt_succ_self _
    · exact Nat.lt_succ_of_lt (h.below g k hold)
  case clean =>
    intro k hk
    rw [hq.nextSample] at hk
    have hkt : k ∉ (p.profTable i).tail := by
      rw [hheld.tail]
      intro hhead
      have hlt := h.below f k (List.mem_of_head? hhead)
      omega
    rw [hq.kept k (by omega) hkt]
    exact h.clean k (by omega)
  case room =>
    rw [hq.nextSample]
    exact hroom

theorem Chains.exit (h : Chains funcList p slots logs) (hi : funcList[i]? = some f) (ts : ℕ) :
    Chains funcList (cygProfileFuncExit f ts p) slots (Function.update logs f (record f (logs f) (.exit f ts))) := by
  have hheld := h.held i f hi
  have hstop : p.nextSample ≠ profStopMark := by
    have hroom := h.room
    unfold maxProfSamples at hroom
    unfold profStopMark
    omega
  unfold cygProfileFuncExit
  simp only [(h.indexed.lookup i f).mpr hi,if_neg hstop,hheld.tail]
  cases hslots : slots f with
  | nil =>
    have hlog : logs f = [] := by
      rw [← hheld.samples,hslots]
      rfl
    have hsame : record f (logs f) (.exit f ts) = logs f := by
      rw [hlog]
      exact if_pos rfl
    rw [hsame,Function.update_eq_self]
    exact h
  | cons t ks =>
    have hmemt : t ∈ slots f := by
      rw [hslots]
      exact List.mem_cons_self ..
    have hother : ∀ k, k ≠ t → (p.atSample t fun sample => { sample with exitTs := ts }).pool k = p.pool k :=
      fun k hk => Function.update_of_ne hk ..
    have hnewest : (p.atSample t fun sample => { sample with exitTs := ts }).pool t = { p.pool t with exitTs := ts } :=
      Function.update_self ..
    have hll : ∀ k, ((p.atSample t fun sample => { sample with exitTs := ts }).pool k).ll = (p.pool k).ll := by
      intro k
      by_cases hk : k = t
      · rw [hk,hnewest]
      · rw [hother k hk]
    simp only [List.head?_cons]
    constructor
    case indexed =>
      apply SameIndex.indexed _ h.indexed
      exact SameIndex.mk' ⟨rfl,rfl,rfl,rfl,rfl⟩ fun _ => rfl
    case held =>
      intro j g hj
      by_cases hg : g = f
      · subst hg
        obtain rfl := h.indexed.injective hi hj rfl
        rw [Function.update_self]
        refine ⟨hheld.links.congr fun k _ => hll k,hheld.head,hheld.tail,hheld.below,hheld.nodup,?_⟩
        have hnodup := hheld.nodup
        rw [← hheld.samples,hslots,List.map_cons,hnewest]
        rw [hslots,List.nodup_cons] at hnodup
        simp only [record,if_true,List.map_cons]
        refine congrArg _ (List.map_congr_left fun k hk => ?_)
        rw [hother k fun hkt => hnodup.1 (hkt ▸ hk)]
      · rw [Function.update_of_ne hg]
        refine (h.held j g hj).frame (fun k hk => hother k ?_) (le_refl _)
        rintro rfl
        exact hg (h.apart g f k hk hmemt)
    case apart => exact h.apart
    case below => exact h.below
    case clean =>
      intro k hk
      have hkt : k ≠ t := by
        rintro rfl
        exact absurd (h.below f k hmemt) (Nat.not_lt.mpr hk)
      rw [hother k hkt]
      exact h.clean k hk
    case room => exact h.room

end Steps

/-- The loop variables behind the samples of a log. -/
def tallyOf (log : Log) : Tally := log.reverse.foldl (fun t sample => t.add sample.1 sample.2) .zero

/-- What is reported of a function with this log. -/
def reportOf (f : ℕ) (log : Log) : Option Stats :=
  if (tallyOf log).sampleCount > 0 then some ((tallyOf log).stats f) else none

section ReadOut
variable {funcList : List ℕ} {p : Profiler} {slots : ℕ → List ℕ} {logs : ℕ → Log} {fuel : ℕ}

theorem Held.length_le {node : Node} {slots : List ℕ} {log : Log} (h : Held p node slots log) :
    slots.length ≤ p.nextSample := by
  have hsub : slots ⊆ List.range p.nextSample := fun k hk => List.mem_range.mpr (h.below k hk)
  have hlen := (List.subperm_of_subset h.nodup hsub).length_le
  rwa [List.length_range] at hlen

theorem Held.replay {node : Node} {slots : List ℕ} {log : Log} (h : Held p node slots log)
    (hfuel : p.nextSample ≤ fuel) : replay p p.nextSample fuel node.head = some (tallyOf log) := by
  unfold Profiling.replay tallyOf
  rw [h.head,walk_chain h.links (fun k hk => decide_eq_true (h.below k hk)) (h.length_le.trans hfuel),← h.samples,
    ← List.map_reverse,List.foldl_map]

theorem reportOf_nil (f : ℕ) : reportOf f [] = none := rfl

theorem Chains.collect (h : Chains funcList p slots logs) (hfuel : p.nextSample ≤ fuel) {is : List ℕ}
    (his : ∀ i ∈ is, i < funcList.length) :
    collect p p.nextSample fuel is = some (is.filterMap fun i => funcList[i]?.bind fun f => reportOf f (logs f)) := by
  induction is with
  | nil => rfl
  | cons i is ih =>
    have hrest := ih fun j hj => his j (List.mem_cons_of_mem _ hj)
    obtain ⟨f,hi⟩ : ∃ f, funcList[i]? = some f := ⟨_,List.getElem?_eq_getElem (his i (List.mem_cons_self ..))⟩
    have hheld := h.held i _ hi
    have hreplay := hheld.replay hfuel
    unfold Profiling.collect
    rw [hrest]
    cases hhead : (p.profTable i).head with
    | none =>
      rw [hhead] at hreplay
      have hempty : slots f = [] := by
        rw [← List.getLast?_eq_none_iff,← hheld.head,hhead]
      have hlog : logs f = [] := by
        rw [← hheld.samples,hempty]
        rfl
      dsimp only
      rw [List.filterMap_cons_none]
      rw [hi,Option.bind_some,hlog,reportOf_nil]
    | some sampleIdx =>
      rw [hhead] at hreplay
      dsimp only
      rw [hreplay,h.indexed.funcAddr i _ hi]
      simp only [Option.bind_eq_bind,Option.bind_some]
      rw [List.filterMap_cons,hi,Option.bind_some]
      by_cases hcount : (tallyOf (logs f)).sampleCount > 0
      · have hreport : reportOf f (logs f) = some ((tallyOf (logs f)).stats f) := if_pos hcount
        rw [hreport,if_pos hcount]
      · have hreport : reportOf f (logs f) = none := if_neg hcount
        rw [hreport,if_neg hcount]

theorem collect_frame {q : Profiler} (hpool : q.pool = p.pool) (htable : q.profTable = p.profTable) {total : ℕ}
    {is : List ℕ} : collect q total fuel is = collect p total fuel is := by
  induction is with
  | nil => rfl
  | cons i is ih =>
    unfold Profiling.collect Profiling.replay
    rw [ih,hpool,htable]

theorem filterMap_range {β : Type*} (g : ℕ → Option β) (fs : List ℕ) :
    (List.range fs.length).filterMap (fun i => fs[i]?.bind g) = fs.filterMap g := by
  induction fs with
  | nil => rfl
  | cons f fs ih =>
    rw [List.length_cons,List.range_succ_eq_map,List.filterMap_cons,List.filterMap_cons,List.filterMap_map]
    have hshift : ((fun i => (f :: fs)[i]?.bind g) ∘ Nat.succ) = fun i => fs[i]?.bind g := by
      funext i
      simp
    rw [hshift,ih]
    rfl

/-- A read-out with samples reports the log of every function and starts again. -/
theorem Chains.profGetStats (h : Chains funcList p slots logs) (hsome : p.nextSample ≠ 0) {count : ℕ}
    (hcount : funcList.length ≤ count) (hfuel : maxProfSamples ≤ fuel) :
    profGetStats fuel count p = some (profStart p.nextSample { p with nextSample := profStopMark },
      funcList.filterMap fun f => reportOf f (logs f)) := by
  have htotal : (if p.nextSample ≥ maxProfSamples then maxProfSamples else p.nextSample) = p.nextSample := by
    split
    case isTrue hfull => exact le_antisymm hfull h.room
    case isFalse => rfl
  have hcollect : Profiling.collect p p.nextSample fuel (List.range funcList.length) = _ :=
    h.collect (h.room.trans hfuel) fun i => List.mem_range.mp
  rw [filterMap_range] at hcollect
  have hstopped : Profiling.collect { p with nextSample := profStopMark } p.nextSample fuel
      (List.range (min count p.numFunctions)) = some (funcList.filterMap fun f => reportOf f (logs f)) := by
    rw [h.indexed.numFunctions,min_eq_right hcount,← hcollect]
    apply collect_frame <;> rfl
  unfold Profiling.profGetStats profStop
  simp only [htotal,if_neg hsome]
  rw [hstopped]
  rfl

end ReadOut

end EmbedTemplate.Profiling
