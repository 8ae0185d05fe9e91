import EmbedTemplate.Library.Bytes
import EmbedTemplate.Library.PoolChain
import Mathlib.Data.Nat.Log

/-! # The profiler

`profiler.c`: the entries of the tracked functions take the samples of one pool, chained for
each function; an exit goes to the newest sample of its function. A perfect hash leads from
an address to the function.
-/
namespace EmbedTemplate.Profiling
open Bytes PoolChain

def maxProfSamples : ℕ := 1024

/-- `PROF_STOP`, in the counter of the samples. -/
def profStopMark : ℕ := 2 ^ 32 - 1

/-- `prof_sample_t`; the link of the exit is not used. -/
structure Sample where
  entryTs : ℕ
  ll : Option ℕ
  exitTs : ℕ
  deriving DecidableEq

/-- A sample of zeroed memory, whose link is the first index. -/
def Sample.zero : Sample := ⟨0,some 0,0⟩

/-- `prof_node_t`; no index stands for the null index. -/
structure Node where
  funcAddr : ℕ
  head : Option ℕ
  tail : Option ℕ

/-- `prof_stats_t` -/
structure Stats where
  tsStart : ℕ
  tsEnd : ℕ
  funcAddr : ℕ
  minDuration : ℕ
  maxDuration : ℕ
  avgDuration : ℕ
  sampleCount : ℕ
  deriving DecidableEq

/-- The globals of the profiler, on a target with 64-bit or 32-bit addresses. -/
structure Profiler where
  wide : Bool
  numFunctions : ℕ
  nextSample : ℕ
  pool : ℕ → Sample
  profTable : ℕ → Node
  profSeed : ℕ
  lookasideMap : ℕ → ℕ
  inuseMap : ℕ → Bool

section Lookup

/-- `POW2` -/
def pow2 (n : ℕ) : ℕ := if n ≤ 1 then 2 else 2 ^ (Nat.log 2 (n - 1) + 1)

def mapSize (numFunctions : ℕ) : ℕ := pow2 (numFunctions * 4)

def mix64 (h : BitVec 64) : BitVec 64 :=
  let h := h ^^^ (h >>> 33)
  let h := h * 0xff51afd7ed558ccd
  let h := h ^^^ (h >>> 33)
  let h := h * 0xc4ceb9fe1a85ec53
  h ^^^ (h >>> 33)

def mix32 (h : BitVec 32) : BitVec 32 :=
  let h := h ^^^ (h >>> 16)
  let h := h * 0x85ebca6b
  let h := h ^^^ (h >>> 13)
  let h := h * 0xc2b2ae35
  h ^^^ (h >>> 16)

def hash (wide : Bool) (numFunctions funcAddr seed : ℕ) : ℕ :=
  let mapMask := mapSize numFunctions - 1
  if wide then (mix64 (BitVec.ofNat 64 funcAddr ^^^ BitVec.ofNat 64 seed) &&& BitVec.ofNat 64 mapMask).toNat
  else (mix32 (BitVec.ofNat 32 funcAddr ^^^ BitVec.ofNat 32 seed) &&& BitVec.ofNat 32 mapMask).toNat

def getFuncNodeIndex (p : Profiler) (funcAddr : ℕ) : Option ℕ :=
  let slot := hash p.wide p.numFunctions funcAddr p.profSeed
  if p.inuseMap slot then
    let tblIdx := p.lookasideMap slot
    if (p.profTable tblIdx).funcAddr = funcAddr then some tblIdx else none
  else none

/-- The loop of `try_seed`, on the slots taken so far. -/
def slotsFree (slot : ℕ → ℕ) : List ℕ → (ℕ → Bool) → Bool
  | [], _ => true
  | f :: fs, taken => if taken (slot f) then false else slotsFree slot fs (Function.update taken (slot f) true)

def trySeed (wide : Bool) (funcList : List ℕ) (seed : ℕ) : Bool :=
  slotsFree (fun f => hash wide funcList.length f seed) funcList fun _ => false

/-- The loop over the seeds, with as many still to go. -/
def seedFrom (wide : Bool) (funcList : List ℕ) : ℕ → ℕ → Option ℕ
  | 0, _ => none
  | n + 1, seed => if trySeed wide funcList seed then some seed else seedFrom wide funcList n (seed + 1)

def findPerfectSeed (wide : Bool) (funcList : List ℕ) : Option ℕ := seedFrom wide funcList 10000 0

/-- One round of the loop over the function list. -/
def addFunction (slot : ℕ → ℕ) (p : Profiler) (entry : ℕ × ℕ) : Profiler :=
  { p with
    lookasideMap := Function.update p.lookasideMap (slot entry.1) entry.2
    inuseMap := Function.update p.inuseMap (slot entry.1) true
    profTable := Function.update p.profTable entry.2 ⟨entry.1,none,none⟩ }

/-- `init_profiler`, which asserts that there is a perfect seed. -/
def initProfiler (wide : Bool) (funcList : List ℕ) : Option Profiler := do
  let seed ← findPerfectSeed wide funcList
  let blank : Profiler := ⟨wide,funcList.length,0,fun _ => .zero,fun _ => ⟨0,some 0,some 0⟩,seed,fun _ => 0,fun _ => false⟩
  some (funcList.zipIdx.foldl (addFunction fun f => hash wide funcList.length f seed) blank)

end Lookup

section Memory
variable (p : Profiler)

/-- An update of a sample of the pool. -/
def Profiler.atSample (k : ℕ) (f : Sample → Sample) : Profiler :=
  { p with pool := Function.update p.pool k (f (p.pool k)) }

/-- An update of a node of the table. -/
def Profiler.atNode (i : ℕ) (f : Node → Node) : Profiler :=
  { p with profTable := Function.update p.profTable i (f (p.profTable i)) }

/-- The last store of an entry: the link of the newest sample before it, or the head. -/
def linkBehind (tblIdx poolIdx : ℕ) : Option ℕ → Profiler
  | some tail => p.atSample tail fun sample => { sample with ll := some poolIdx }
  | none => p.atNode tblIdx fun node => { node with head := some poolIdx }

end Memory

/-- `__cyg_profile_func_enter`, at a time. -/
def cygProfileFuncEnter (funcAddr ts : ℕ) (p : Profiler) : Profiler :=
  match getFuncNodeIndex p funcAddr with
  | none => p
  | some tblIdx =>
    if p.nextSample = profStopMark then p
    else
      let poolIdx := p.nextSample
      let p := { p with nextSample := u32 (p.nextSample + 1) }
      if poolIdx ≥ maxProfSamples then
        if poolIdx = maxProfSamples then { p with nextSample := profStopMark } else p
      else
        let p := p.atSample poolIdx fun sample => { sample with ll := none }
        let p := p.atSample poolIdx fun sample => { sample with entryTs := ts }
        let tail := (p.profTable tblIdx).tail
        let p := p.atNode tblIdx fun node => { node with tail := some poolIdx }
        linkBehind p tblIdx poolIdx tail

/-- `__cyg_profile_func_exit`, at a time. -/
def cygProfileFuncExit (funcAddr ts : ℕ) (p : Profiler) : Profiler :=
  match getFuncNodeIndex p funcAddr with
  | none => p
  | some tblIdx =>
    if p.nextSample = profStopMark then p
    else
      match (p.profTable tblIdx).tail with
      | none => p
      | some poolIdx => p.atSample poolIdx fun sample => { sample with exitTs := ts }

def profStop (p : Profiler) : Profiler × ℕ :=
  let poolIdx := p.nextSample
  ({ p with nextSample := profStopMark },if poolIdx ≥ maxProfSamples then maxProfSamples else poolIdx)

def profStart (dirtySamples : ℕ) (p : Profiler) : Profiler :=
  if p.nextSample = profStopMark then
    { p with
      profTable := fun i => if i < p.numFunctions then { p.profTable i with head := none, tail := none } else p.profTable i
      pool := fun k =>
        if 0 < dirtySamples ∧ dirtySamples < maxProfSamples then if k < dirtySamples then .zero else p.pool k
        else if k < maxProfSamples then .zero else p.pool k
      nextSample := 0 }
  else p

/-- The variables of the loop over the samples of a function. -/
structure Tally where
  totalDuration : ℕ
  maxDuration : ℕ
  minDuration : ℕ
  sampleCount : ℕ
  tsFirst : ℕ
  tsLast : ℕ

def Tally.zero : Tally := ⟨0,0,2 ^ 64 - 1,0,0,0⟩

def Tally.add (t : Tally) (entryTs exitTs : ℕ) : Tally :=
  if entryTs ≠ 0 ∧ exitTs ≠ 0 ∧ exitTs ≥ entryTs then
    let duration := exitTs - entryTs
    { totalDuration := u64 (t.totalDuration + duration)
      maxDuration := if duration > t.maxDuration then duration else t.maxDuration
      minDuration := if duration < t.minDuration then duration else t.minDuration
      tsFirst := if t.sampleCount = 0 then entryTs else t.tsFirst
      tsLast := exitTs
      sampleCount := u32 (t.sampleCount + 1) }
  else t

def Tally.stats (t : Tally) (funcAddr : ℕ) : Stats where
  funcAddr := funcAddr
  minDuration := u32 t.minDuration
  maxDuration := u32 t.maxDuration
  avgDuration := u32 (t.totalDuration / t.sampleCount)
  sampleCount := t.sampleCount
  tsStart := t.tsFirst
  tsEnd := t.tsLast

/-- The loop over the samples of a function. -/
def replay (p : Profiler) (totalSamples fuel : ℕ) (sampleIdx : Option ℕ) : Option Tally :=
  walk (fun k => (p.pool k).ll) (fun k => k < totalSamples) (fun t k => t.add (p.pool k).entryTs (p.pool k).exitTs) fuel sampleIdx .zero

/-- The loop over the functions. -/
def collect (p : Profiler) (totalSamples fuel : ℕ) : List ℕ → Option (List Stats)
  | [] => some []
  | i :: is =>
    match (p.profTable i).head with
    | none => collect p totalSamples fuel is
    | some sampleIdx => do
      let t ← replay p totalSamples fuel (some sampleIdx)
      let stats ← collect p totalSamples fuel is
      some (if t.sampleCount > 0 then t.stats (p.profTable i).funcAddr :: stats else stats)

/-- `prof_get_stats` with a buffer for `count` functions: what is left and what is in the buffer. -/
def profGetStats (fuel count : ℕ) (p : Profiler) : Option (Profiler × List Stats) :=
  let (p,totalSamples) := profStop p
  if totalSamples = 0 then some (p,[])
  else do
    let stats ← collect p totalSamples fuel (List.range (min count p.numFunctions))
    some (profStart totalSamples p,stats)

end EmbedTemplate.Profiling
