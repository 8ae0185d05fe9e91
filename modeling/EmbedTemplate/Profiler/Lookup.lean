import EmbedTemplate.Library.WordSet
import EmbedTemplate.Profiler.Chains

/-! # The lookup tables of the profiler

The words of the occupancy map and the bytes of the slot map, as `init_profiler` writes them
over whatever the memory held. What they hold is the index of the model of the runs.
-/
namespace EmbedTemplate.Profiling.Lookup
open WordSet

def maxProfFunctions : ℕ := 255

/-- The globals, with the maps as they are in memory. -/
structure Globals where
  nextSample : ℕ
  pool : ℕ → Sample
  profTable : ℕ → Node
  profSeed : ℕ
  lookasideMap : ℕ → UInt8
  inuseMap : ℕ → BitVec 32

/-- `BITMAP_ARRAY_SIZE` -/
def bitmapArraySize (numFunctions : ℕ) : ℕ := (mapSize numFunctions + 31) >>> 5

/-- `IS_IN_USE`, `SET_IN_USE` -/
def isInUse (map : ℕ → BitVec 32) (idx : ℕ) : Bool := map (idx >>> 5) &&& 1#32 <<< (idx &&& 31) != 0#32
def setInUse (map : ℕ → BitVec 32) (idx : ℕ) : ℕ → BitVec 32 :=
  Function.update map (idx >>> 5) (map (idx >>> 5) ||| 1#32 <<< (idx &&& 31))

def getFuncNodeIndex (wide : Bool) (numFunctions : ℕ) (g : Globals) (funcAddr : ℕ) : ℤ :=
  let slot := hash wide numFunctions funcAddr g.profSeed
  if isInUse g.inuseMap slot then
    let tblIdx := (g.lookasideMap slot).toNat
    if (g.profTable tblIdx).funcAddr = funcAddr then tblIdx else -1
  else -1

/-- One round of the loop over the function list. -/
def addFunction (slot : ℕ → ℕ) (g : Globals) (entry : ℕ × ℕ) : Globals :=
  { g with
    lookasideMap := Function.update g.lookasideMap (slot entry.1) (UInt8.ofNat entry.2)
    inuseMap := setInUse g.inuseMap (slot entry.1)
    profTable := Function.update g.profTable entry.2 ⟨entry.1,none,none⟩ }

/-- The stores of `init_profiler` before the loop over the function list. -/
def cleared (numFunctions seed : ℕ) (g : Globals) : Globals :=
  { g with
    profSeed := seed
    pool := fun _ => .zero
    inuseMap := (List.range (bitmapArraySize numFunctions)).foldl (fun map i => Function.update map i 0#32) g.inuseMap }

/-- `init_profiler`, which asserts that there is a perfect seed. -/
def initProfiler (wide : Bool) (funcList : List ℕ) (g : Globals) : Option Globals := do
  let seed ← findPerfectSeed wide funcList
  some (funcList.zipIdx.foldl (addFunction fun f => hash wide funcList.length f seed) (cleared funcList.length seed g))

section Bounds

theorem mapSize_pos (numFunctions : ℕ) : 0 < mapSize numFunctions := by
  unfold mapSize pow2
  split
  · exact Nat.two_pos
  · exact Nat.two_pow_pos _

theorem hash_lt (wide : Bool) (numFunctions funcAddr seed : ℕ) :
    hash wide numFunctions funcAddr seed < mapSize numFunctions := by
  have hmask : ∀ w, (BitVec.ofNat w (mapSize numFunctions - 1)).toNat < mapSize numFunctions := by
    intro w
    rw [BitVec.toNat_ofNat]
    exact (Nat.mod_le ..).trans_lt (Nat.sub_lt (mapSize_pos numFunctions) Nat.one_pos)
  unfold hash
  dsimp only
  split
  · rw [BitVec.toNat_and]
    exact Nat.and_le_right.trans_lt (hmask 64)
  · rw [BitVec.toNat_and]
    exact Nat.and_le_right.trans_lt (hmask 32)

theorem word_lt {numFunctions slot : ℕ} (h : slot < mapSize numFunctions) :
    slot / 32 < bitmapArraySize numFunctions := by
  unfold bitmapArraySize
  rw [Nat.shiftRight_eq_div_pow]
  omega

end Bounds

section InUse
variable (map : ℕ → BitVec 32) (idx i : ℕ)

theorem isInUse_eq_has : isInUse map idx = has map idx := by
  unfold isInUse has
  rw [Nat.shiftRight_eq_div_pow,Nat.and_two_pow_sub_one_eq_mod idx 5]
  exact and_mask_ne_zero (Nat.mod_lt idx (by decide)) _

theorem setInUse_eq_add : setInUse map idx = add map idx := by
  unfold setInUse add
  rw [Nat.shiftRight_eq_div_pow,Nat.and_two_pow_sub_one_eq_mod idx 5]

theorem isInUse_setInUse : isInUse (setInUse map idx) i = (isInUse map i || decide (i = idx)) := by
  rw [setInUse_eq_add,isInUse_eq_has,isInUse_eq_has]
  exact has_add map idx i (by decide)

end InUse

/-- The profiler that the globals of a target stand for. -/
def Globals.toProfiler (wide : Bool) (numFunctions : ℕ) (g : Globals) : Profiler :=
  ⟨wide,numFunctions,g.nextSample,g.pool,g.profTable,g.profSeed,fun slot => (g.lookasideMap slot).toNat,
    isInUse g.inuseMap⟩

section Refines
variable {wide : Bool} {numFunctions seed : ℕ} {slot : ℕ → ℕ} {funcList : List ℕ} {g q : Globals}

theorem getFuncNodeIndex_toProfiler (f : ℕ) : getFuncNodeIndex wide numFunctions g f =
    ((Profiling.getFuncNodeIndex (g.toProfiler wide numFunctions) f).map fun i : ℕ => (i : ℤ)).getD (-1) := by
  unfold getFuncNodeIndex Profiling.getFuncNodeIndex Globals.toProfiler
  dsimp only
  split
  · split <;> rfl
  · rfl

/-- A round that stores an index of eight bits. -/
theorem addFunction_toProfiler {entry : ℕ × ℕ} (h : entry.2 < 256) :
    (addFunction slot g entry).toProfiler wide numFunctions =
      Profiling.addFunction slot (g.toProfiler wide numFunctions) entry := by
  have hlookaside : (fun s => (Function.update g.lookasideMap (slot entry.1) (UInt8.ofNat entry.2) s).toNat) =
      Function.update (fun s => (g.lookasideMap s).toNat) (slot entry.1) entry.2 := by
    refine (Function.comp_update UInt8.toNat ..).trans ?_
    rw [UInt8.toNat_ofNat_of_lt' h]
    rfl
  have hinuse : isInUse (setInUse g.inuseMap (slot entry.1)) =
      Function.update (isInUse g.inuseMap) (slot entry.1) true := by
    funext s
    rw [isInUse_setInUse,Function.update_apply]
    by_cases hs : s = slot entry.1
    · rw [if_pos hs,decide_eq_true hs,Bool.or_true]
    · rw [if_neg hs,decide_eq_false hs,Bool.or_false]
  unfold addFunction Profiling.addFunction Globals.toProfiler
  dsimp only
  rw [hlookaside,hinuse]

theorem foldl_addFunction_toProfiler {entries : List (ℕ × ℕ)} (h : ∀ entry ∈ entries, entry.2 < 256) :
    (entries.foldl (addFunction slot) g).toProfiler wide numFunctions =
      entries.foldl (Profiling.addFunction slot) (g.toProfiler wide numFunctions) := by
  induction entries generalizing g with
  | nil => rfl
  | cons entry entries ih =>
    rw [List.foldl_cons,List.foldl_cons,ih fun e he => h e (List.mem_cons_of_mem _ he),
      addFunction_toProfiler (h entry (List.mem_cons_self ..))]

theorem index_lt (hlen : funcList.length ≤ maxProfFunctions) : ∀ entry ∈ funcList.zipIdx, entry.2 < 256 := by
  intro entry hentry
  have hlt := List.snd_lt_of_mem_zipIdx hentry
  unfold maxProfFunctions at hlen
  omega

/-- The memory of a target that was just loaded. -/
def loaded : Globals := ⟨0,fun _ => .zero,fun _ => ⟨0,some 0,some 0⟩,0,fun _ => 0,fun _ => 0#32⟩

/-- Over loaded memory, the profiler of the model is what the stores leave. -/
theorem initProfiler_toProfiler (hlen : funcList.length ≤ maxProfFunctions) :
    (initProfiler wide funcList loaded).map (Globals.toProfiler wide funcList.length) =
      Profiling.initProfiler wide funcList := by
  have hmap : ∀ n, (List.range n).foldl (fun map i => Function.update map i 0#32) (fun _ => 0#32) = fun _ => 0#32 := by
    intro n
    funext k
    rw [foldl_zero]
    exact ite_self _
  have hfree : isInUse (fun _ => 0#32) = fun _ => false := by
    funext s
    unfold isInUse
    rw [BitVec.zero_and]
    exact bne_self_eq_false _
  unfold initProfiler Profiling.initProfiler
  cases findPerfectSeed wide funcList with
  | none => rfl
  | some seed =>
    have hblank : (cleared funcList.length seed loaded).toProfiler wide funcList.length = ⟨wide,funcList.length,0,
        fun _ => .zero,fun _ => ⟨0,some 0,some 0⟩,seed,fun _ => 0,fun _ => false⟩ := by
      unfold cleared loaded Globals.toProfiler
      dsimp only
      rw [hmap,hfree]
      rfl
    refine congrArg some ?_
    rw [foldl_addFunction_toProfiler (index_lt hlen),hblank]

theorem isInUse_cleared {s : ℕ} (h : s < mapSize numFunctions) :
    isInUse (cleared numFunctions seed g).inuseMap s = false := by
  rw [isInUse_eq_has]
  exact has_foldl_zero _ (word_lt h)

theorem cleared_toProfiler :
    Cleared wide funcList seed ((cleared funcList.length seed g).toProfiler wide funcList.length) where
  target := rfl
  numFunctions := rfl
  profSeed := rfl
  inuse f := isInUse_cleared (hash_lt wide funcList.length f seed)
  clean _ := rfl

/-- Over whatever the memory held, the loops leave what the loop of the model leaves behind cleared memory. -/
theorem initProfiler_mapped (hlen : funcList.length ≤ maxProfFunctions) (hq : initProfiler wide funcList g = some q) :
    ∃ seed, findPerfectSeed wide funcList = some seed ∧ Mapped (fun f => hash wide funcList.length f seed) funcList 0
      ((cleared funcList.length seed g).toProfiler wide funcList.length) (q.toProfiler wide funcList.length) := by
  obtain ⟨seed,hseed,hq⟩ := Option.bind_eq_some_iff.mp hq
  obtain rfl := Option.some.inj hq
  refine ⟨seed,hseed,?_⟩
  rw [foldl_addFunction_toProfiler (index_lt hlen)]
  exact mapped_foldl (findPerfectSeed_some hseed) 0 _

theorem initProfiler_indexed (hlen : funcList.length ≤ maxProfFunctions) (hq : initProfiler wide funcList g = some q) :
    Indexed funcList (q.toProfiler wide funcList.length) := by
  obtain ⟨seed,-,hmapped⟩ := initProfiler_mapped hlen hq
  exact hmapped.indexed cleared_toProfiler

/-- With no sample taken, profiling starts as the results about the runs assume. -/
theorem initProfiler_started (hlen : funcList.length ≤ maxProfFunctions) (hnext : g.nextSample = 0)
    (hq : initProfiler wide funcList g = some q) : Started funcList (q.toProfiler wide funcList.length) := by
  obtain ⟨seed,-,hmapped⟩ := initProfiler_mapped hlen hq
  exact hmapped.started cleared_toProfiler hnext

/-- The lookup of a slot in use stays inside the table. -/
theorem lookasideMap_lt (hlen : funcList.length ≤ maxProfFunctions) (hq : initProfiler wide funcList g = some q) {s : ℕ}
    (hs : s < mapSize funcList.length) (hinuse : isInUse q.inuseMap s = true) :
    (q.lookasideMap s).toNat < funcList.length := by
  obtain ⟨seed,-,hmapped⟩ := initProfiler_mapped hlen hq
  have hin : isInUse q.inuseMap s = _ := hmapped.inuse s
  have hfree : ((cleared funcList.length seed g).toProfiler wide funcList.length).inuseMap s = false :=
    isInUse_cleared hs
  rw [hinuse,hfree,Bool.false_or] at hin
  obtain ⟨f,hf,rfl⟩ := List.mem_map.mp (of_decide_eq_true hin.symm)
  obtain ⟨i,hi⟩ := List.getElem?_of_mem hf
  have hlook := hmapped.lookaside i f hi
  rw [Nat.zero_add] at hlook
  exact hlook.trans_lt (List.getElem?_eq_some_iff.mp hi).1

end Refines

section Found
variable {wide : Bool} {funcList : List ℕ}

/-- A list with a perfect seed has no address twice. -/
theorem nodup_of_findPerfectSeed (h : (findPerfectSeed wide funcList).isSome) : funcList.Nodup := by
  obtain ⟨seed,hseed⟩ := Option.isSome_iff_exists.mp h
  exact (findPerfectSeed_some hseed).of_map _

/-- Whatever the memory held, every function of the list is found at its place, and no other address is. -/
theorem getFuncNodeIndex_initProfiler (hlen : funcList.length ≤ maxProfFunctions)
    (hseed : (findPerfectSeed wide funcList).isSome) (g : Globals) :
    ∃ q, initProfiler wide funcList g = some q ∧
      (∀ i f : ℕ, funcList[i]? = some f → getFuncNodeIndex wide funcList.length q f = i) ∧
      ∀ f ∉ funcList, getFuncNodeIndex wide funcList.length q f = -1 := by
  obtain ⟨seed,hseed⟩ := Option.isSome_iff_exists.mp hseed
  obtain ⟨q,hq⟩ : ∃ q, initProfiler wide funcList g = some q := ⟨_,Option.bind_eq_some_iff.mpr ⟨seed,hseed,rfl⟩⟩
  have hindexed := initProfiler_indexed hlen hq
  refine ⟨q,hq,fun i f hi => ?_,fun f hf => ?_⟩
  · rw [getFuncNodeIndex_toProfiler,(hindexed.lookup i f).mpr hi]
    rfl
  · have hnone : Profiling.getFuncNodeIndex (q.toProfiler wide funcList.length) f = none := by
      refine Option.eq_none_iff_forall_ne_some.mpr fun i hi => ?_
      exact hf (List.mem_of_getElem? ((hindexed.lookup i f).mp hi))
    rw [getFuncNodeIndex_toProfiler,hnone]
    rfl

/-- Memory that an earlier use left full. -/
def fullMemory : Globals :=
  ⟨7,fun _ => ⟨1,none,2⟩,fun _ => ⟨0x3000,some 1,some 2⟩,5,fun _ => 0xff,fun _ => 0xffffffff#32⟩

theorem getFuncNodeIndex_initProfiler_full : ∃ q, initProfiler true [0x1000,0x2000] fullMemory = some q ∧
    (∀ i f : ℕ, [0x1000,0x2000][i]? = some f → getFuncNodeIndex true 2 q f = i) ∧
    ∀ f ∉ [0x1000,0x2000], getFuncNodeIndex true 2 q f = -1 :=
  getFuncNodeIndex_initProfiler (by decide) (by decide +kernel) fullMemory

end Found

end EmbedTemplate.Profiling.Lookup
