import EmbedTemplate.Cli.Dispatch
import EmbedTemplate.Library.ProbedIndex
import EmbedTemplate.Library.Machine

/-! # The bindings of the command line engine

Commands are registered in an array and found again through a map of hashed slots. A registration
takes the first free slot, however far it is; the lookup looks at 32 slots.
-/
namespace EmbedTemplate.Cli.Bindings
open Bytes LinearProbe ProbedIndex

/-- `CliCommandBinding`; the context of a binding with an application context is the next binding
under its name. -/
structure Binding where
  name : List UInt8
  flags : ℕ
  context : Option ℕ
  deriving DecidableEq

def bindingFlagWide : ℕ := 2 ^ 12
def bindingFlagAppContext : ℕ := 2 ^ 13

def isFlagSet (flags flag : ℕ) : Bool := flags &&& flag != 0

/-- `MAX_BINDINGS`, `CLI_INTERNAL_BINDING_COUNT`, `MAX_WIDE_BINDINGS`, `MAX_WIDE_BINDING_INDEX`,
`MAX_APP_CONTEXT_BINDING_INDEX` -/
def maxBindings : ℕ := 80
def cliInternalBindingCount : ℕ := 1
def maxWideBindings : ℕ := 12
def maxWideBindingIndex : ℕ := 255
def maxAppContextBindingIndex : ℕ := maxWideBindingIndex

/-- `BINDING_MAP_SIZE`, `BINDING_MAP_MASK` -/
def bindingMapSize : ℕ := 256
def bindingMapMask : ℕ := bindingMapSize - 1

/-- `cliAppContext` -/
structure AppContext where
  base : ℕ → UInt8
  stride : ℕ
  count : ℕ

/-- The bindings of `EmbeddedCliImpl` and the maps next to them. -/
structure State where
  bindings : ℕ → Binding
  bindingsCount : ℕ
  maxBindingsCount : ℕ
  bindingMap : ℕ → ℕ
  inuseBindings : ℕ → ℕ
  wideBindingsCount : ℕ

def cliHash (str : List UInt8) : ℕ := str.foldl (fun hash c => u32 (u32 (hash * 2 ^ 5) + hash + c.toNat)) 5381

section InUse

/-- `IS_IN_USE`, `SET_IN_USE` -/
def isInUse (map : ℕ → ℕ) (idx : ℕ) : Bool := (map (idx >>> 5)).testBit (idx &&& 31)
def setInUse (map : ℕ → ℕ) (idx : ℕ) : ℕ → ℕ :=
  Function.update map (idx >>> 5) (map (idx >>> 5) ||| 1 <<< (idx &&& 31))

theorem isInUse_setInUse (map : ℕ → ℕ) (idx i : ℕ) :
    isInUse (setInUse map idx) i = (isInUse map i || decide (i = idx)) := by
  have hlow : ∀ n : ℕ, n &&& 31 = n % 2 ^ 5 := fun n => Nat.and_two_pow_sub_one_eq_mod n 5
  have hsame : i = idx ↔ i >>> 5 = idx >>> 5 ∧ i &&& 31 = idx &&& 31 := by
    rw [hlow,hlow,Nat.shiftRight_eq_div_pow,Nat.shiftRight_eq_div_pow]
    exact Nat.ext_div_mod_iff (2 ^ 5) i idx
  unfold isInUse setInUse
  rw [Function.update_apply]
  by_cases hword : i >>> 5 = idx >>> 5
  · rw [if_pos hword,Nat.testBit_or,Nat.one_shiftLeft,Nat.testBit_two_pow,← hword]
    simp only [hsame,hword,true_and,eq_comm]
  · rw [if_neg hword]
    simp [hsame,hword]

end InUse

section Register

/-- `registerBindingIndex`, unless no slot is free -/
def registerBindingIndex (s : State) (cmdName : List UInt8) (actualIdx : ℕ) : Option State := do
  let idx ← probe bindingMapSize (fun idx => if isInUse s.inuseBindings idx then none else some idx) bindingMapSize
    (cliHash cmdName &&& bindingMapMask)
  some { s with bindingMap := Function.update s.bindingMap idx (u8 actualIdx), inuseBindings := setInUse s.inuseBindings idx }

/-- To the end of the bindings under one name, counting the wide ones that have a successor. -/
def lastDuplicate (bindings : ℕ → Binding) : ℕ → ℕ → ℕ → ℕ × ℕ
  | 0, i, wideCount => (i,wideCount)
  | fuel + 1, i, wideCount =>
    match (bindings i).context with
    | none => (i,wideCount)
    | some next =>
      lastDuplicate bindings fuel next (if isFlagSet (bindings i).flags bindingFlagWide then wideCount + 1 else wideCount)

/-- The part of `embeddedCliAddBinding` for a binding with an application context. -/
def linkDuplicate (s : State) (binding : Binding) : Option State := do
  if binding.context ≠ none then none
  let s ← match (List.range s.bindingsCount).find? fun i => (s.bindings i).name = binding.name with
    | none => some s
    | some duplicate =>
      let last := lastDuplicate s.bindings s.bindingsCount duplicate 0
      if last.2 < 2 then
        some { s with bindings := Function.update s.bindings last.1 { s.bindings last.1 with context := some s.bindingsCount } }
      else none
  if s.bindingsCount ≤ maxAppContextBindingIndex then some s else none

/-- The part of `embeddedCliAddBinding` for a wide binding. -/
def countWide (s : State) (binding : Binding) : Option State :=
  if isFlagSet binding.flags bindingFlagWide then
    if s.wideBindingsCount < maxWideBindings ∧ s.bindingsCount ≤ maxWideBindingIndex then
      some { s with wideBindingsCount := s.wideBindingsCount + 1 }
    else none
  else some s

/-- `embeddedCliAddBinding` without its result; there is no next state when an assertion fails. -/
def embeddedCliAddBinding (s : State) (binding : Binding) : Option State :=
  if s.bindingsCount ≥ s.maxBindingsCount - cliInternalBindingCount then some s
  else
    (if isFlagSet binding.flags bindingFlagAppContext then linkDuplicate s binding else some s).bind fun s =>
    (countWide s binding).bind fun s =>
    (registerBindingIndex { s with bindings := Function.update s.bindings s.bindingsCount binding } binding.name
      s.bindingsCount).map fun s =>
    { s with bindingsCount := s.bindingsCount + 1 }

/-- The binding of `initInternalBindings` -/
def help : Binding := ⟨ascii "help",bindingFlagWide,none⟩

/-- `embeddedCliNew`, over what the array of bindings happens to hold -/
def embeddedCliNew (bindings : ℕ → Binding) (maxBindingsCount : ℕ) : Option State :=
  if maxBindingsCount > maxBindings then none
  else embeddedCliAddBinding ⟨bindings,0,u16 (maxBindingsCount + cliInternalBindingCount),fun _ => 0,fun _ => 0,0⟩ help

end Register

section Find

/-- What `findBindingIndex` returns, `-1` being `noMatch`; without an application context the
selection in one has nothing to read. -/
inductive BindingIndex where
  | index (i : ℕ)
  | noMatch
  | noContext
  deriving DecidableEq

/-- Follows the bindings under one name to the candidate; the wide one seen last is the fallback. -/
def walkDuplicates (bindings : ℕ → Binding) (bid : ℕ) : ℕ → Option ℕ → ℕ → ℕ × ℕ
  | 0, _, fid => (0,fid)
  | _, none, fid => (0,fid)
  | fuel + 1, some duplicate, fid =>
    let fid := if isFlagSet (bindings duplicate).flags bindingFlagWide then u8 duplicate else fid
    if duplicate = bid then (bid,fid) else walkDuplicates bindings bid fuel (bindings duplicate).context fid

/-- The binding of a name in the current application context, or else a wide one. -/
def selectInContext (s : State) (ctx : AppContext) (actualIdx : ℕ) : BindingIndex :=
  if ctx.count = 0 then .noContext
  else
    let fid := if isFlagSet (s.bindings actualIdx).flags bindingFlagWide then actualIdx else 0
    let map := 2 ^ 16 - 1 - u16 ctx.stride
    let candidate := (List.range ctx.count).find? fun i =>
      !map.testBit i && (s.bindings (ctx.base i).toNat).name == (s.bindings actualIdx).name
    let bid := (candidate.map fun i => (ctx.base i).toNat).getD 0
    let (bid,fid) :=
      if bid ≠ 0 ∧ actualIdx ≠ bid then
        walkDuplicates s.bindings bid s.bindingsCount (s.bindings actualIdx).context fid
      else (bid,fid)
    if bid ≠ 0 then .index bid else if fid ≠ 0 then .index fid else .noMatch

/-- One round of the loop of `findBindingIndex`, when it is the last one. -/
def bindingAt (s : State) (ctx : AppContext) (cmdName : List UInt8) (idx : ℕ) : Option BindingIndex :=
  if !isInUse s.inuseBindings idx then some .noMatch
  else
    let actualIdx := s.bindingMap idx
    if cmdName = (s.bindings actualIdx).name then
      some (if isFlagSet (s.bindings actualIdx).flags bindingFlagAppContext then selectInContext s ctx actualIdx
        else .index actualIdx)
    else none

def findBindingIndex (s : State) (ctx : AppContext) (cmdName : List UInt8) : BindingIndex :=
  (probe bindingMapSize (bindingAt s ctx cmdName) 32 (cliHash cmdName &&& bindingMapMask)).getD .noMatch

end Find

section Registered

/-- The slot where the search for a name begins. -/
def home (name : List UInt8) : ℕ := cliHash name % bindingMapSize

theorem home_lt (name : List UInt8) : home name < bindingMapSize := Nat.mod_lt _ (by decide)

theorem hash_and_mask (name : List UInt8) : cliHash name &&& bindingMapMask = home name :=
  Nat.and_two_pow_sub_one_eq_mod _ 8

/-- The probed table of the names with their indices. -/
def slots (names : List (List UInt8)) : ℕ → Option (List UInt8 × ℕ) :=
  table bindingMapSize (fun k => home k.1) names.zipIdx

/-- The array holds the names, and the map their indices where the probed table has them. -/
structure Registered (s : State) (names : List (List UInt8)) : Prop where
  count : s.bindingsCount = names.length
  name : ∀ i a, names[i]? = some a → (s.bindings i).name = a
  plain : ∀ i < names.length, isFlagSet (s.bindings i).flags bindingFlagAppContext = false
  inuse : ∀ idx < bindingMapSize, isInUse s.inuseBindings idx = (slots names idx).isSome
  map : ∀ idx < bindingMapSize, ∀ k, slots names idx = some k → s.bindingMap idx = k.2

variable {s : State} {names : List (List UInt8)}

/-- One registration, when the name is already in the array. -/
theorem register_slots (hinuse : ∀ idx < bindingMapSize, isInUse s.inuseBindings idx = (slots names idx).isSome)
    (hmap : ∀ idx < bindingMapSize, ∀ k, slots names idx = some k → s.bindingMap idx = k.2) (cmdName : List UInt8)
    (hroom : names.length < maxBindings) :
    ∃ map inuse, registerBindingIndex s cmdName names.length =
        some { s with bindingMap := map, inuseBindings := inuse } ∧
      (∀ idx < bindingMapSize, isInUse inuse idx = (slots (names ++ [cmdName]) idx).isSome) ∧
      ∀ idx < bindingMapSize, ∀ k, slots (names ++ [cmdName]) idx = some k → map idx = k.2 := by
  obtain ⟨d,hd,hfree,hbefore,hslots⟩ : ∃ d < bindingMapSize, slots names (slotAt bindingMapSize (home cmdName) d) = none ∧
      (∀ j < d, slots names (slotAt bindingMapSize (home cmdName) j) ≠ none) ∧
      slots (names ++ [cmdName]) =
        Function.update (slots names) (slotAt bindingMapSize (home cmdName) d) (some (cmdName,names.length)) :=
    ProbedIndex.slots_snoc home_lt (Nat.lt_trans hroom (by decide)) cmdName
  have hslot : ∀ j, slotAt bindingMapSize (home cmdName) j < bindingMapSize := slotAt_lt (by decide) _
  have hprobe : probe bindingMapSize (fun idx => if isInUse s.inuseBindings idx then none else some idx)
      bindingMapSize (cliHash cmdName &&& bindingMapMask) = some (slotAt bindingMapSize (home cmdName) d) := by
    rw [hash_and_mask,probe_eq_some _ _ (home_lt cmdName)]
    refine ⟨d,hd,?_,fun j hj => ?_⟩
    · rw [hinuse _ (hslot d),hfree]
      rfl
    · rw [hinuse _ (hslot j),if_pos (Option.isSome_iff_ne_none.mpr (hbefore j hj))]
  have hsmall : u8 names.length = names.length :=
    Nat.mod_eq_of_lt (Nat.lt_trans hroom (by decide))
  refine ⟨Function.update s.bindingMap (slotAt bindingMapSize (home cmdName) d) names.length,
    setInUse s.inuseBindings (slotAt bindingMapSize (home cmdName) d),?_,?_,?_⟩
  · unfold registerBindingIndex
    rw [hprobe,hsmall]
    rfl
  · intro idx hidx
    rw [isInUse_setInUse,hslots,Function.update_apply,hinuse idx hidx]
    by_cases hat : idx = slotAt bindingMapSize (home cmdName) d
    · simp [hat]
    · simp [hat]
  · intro idx hidx k hk
    rw [hslots,Function.update_apply] at hk
    rw [Function.update_apply]
    split at hk
    · rw [if_pos ‹_›,← Option.some_inj.mp hk]
    · rw [if_neg ‹_›]
      exact hmap idx hidx k hk

/-- A binding behind those of the array, when the map has it. -/
theorem Registered.push (h : Registered s names) {b : Binding} {t : State}
    (hplain : isFlagSet b.flags bindingFlagAppContext = false)
    (hbindings : t.bindings = Function.update s.bindings s.bindingsCount b) (hcount : t.bindingsCount = s.bindingsCount + 1)
    (hinuse : ∀ idx < bindingMapSize, isInUse t.inuseBindings idx = (slots (names ++ [b.name]) idx).isSome)
    (hmap : ∀ idx < bindingMapSize, ∀ k, slots (names ++ [b.name]) idx = some k → t.bindingMap idx = k.2) :
    Registered t (names ++ [b.name]) := by
  refine ⟨?_,fun i a ha => ?_,fun i hi => ?_,hinuse,hmap⟩
  · rw [hcount,h.count,List.length_append,List.length_singleton]
  · rw [hbindings,Function.update_apply]
    split
    · rw [‹i = _›,h.count,List.getElem?_append_right le_rfl,Nat.sub_self] at ha
      exact Option.some_inj.mp ha
    · have hlt : i < names.length := by
        have hle := (List.getElem?_eq_some_iff.mp ha).1
        have hlast := h.count
        rw [List.length_append,List.length_singleton] at hle
        omega
      rw [List.getElem?_append_left hlt] at ha
      exact h.name i a ha
  · rw [List.length_append,List.length_singleton] at hi
    rw [hbindings,Function.update_apply]
    split
    · exact hplain
    · have hlast := h.count
      exact h.plain i (by omega)

end Registered

section Runs

/-- What holds after some calls: the bindings that fit are registered. -/
structure After (m : ℕ) (done : List Binding) (s : State) : Prop where
  registered : Registered s ((done.take m).map Binding.name)
  limit : s.maxBindingsCount = m + cliInternalBindingCount
  wide : s.wideBindingsCount = (done.take m).countP fun b => isFlagSet b.flags bindingFlagWide

/-- Calls that the assertions let pass, with different names and without application context. -/
structure Admissible (m : ℕ) (bs : List Binding) : Prop where
  names : ((bs.take m).map Binding.name).Nodup
  plain : ∀ b ∈ bs.take m, isFlagSet b.flags bindingFlagAppContext = false
  wide : ((bs.take m).countP fun b => isFlagSet b.flags bindingFlagWide) ≤ maxWideBindings

variable {m : ℕ} {done : List Binding} {s : State} {b : Binding}

theorem Admissible.initial {later : List Binding} (h : Admissible m (done ++ later)) : Admissible m done := by
  obtain ⟨hnames,hplain,hwide⟩ := h
  rw [List.take_append] at hnames hplain hwide
  rw [List.map_append] at hnames
  rw [List.countP_append] at hwide
  exact ⟨(List.nodup_append.mp hnames).1,fun b hb => hplain b (List.mem_append_left _ hb),by omega⟩

theorem addBinding_full (h : After m done s) (hfull : m ≤ done.length) : embeddedCliAddBinding s b = some s := by
  unfold embeddedCliAddBinding
  rw [if_pos]
  rw [h.registered.count,h.limit,List.length_map,List.length_take]
  omega

theorem After.full (h : After m done s) (hfull : m ≤ done.length) : After m (done ++ [b]) s := by
  have hsame : (done ++ [b]).take m = done.take m := List.take_append_of_le_length hfull
  obtain ⟨hregistered,hlimit,hwide⟩ := h
  exact ⟨by rwa [hsame],hlimit,by rwa [hsame]⟩

theorem countWide_eq (h : isFlagSet b.flags bindingFlagWide = true →
    s.wideBindingsCount < maxWideBindings ∧ s.bindingsCount ≤ maxWideBindingIndex) :
    countWide s b = some { s with
      wideBindingsCount := s.wideBindingsCount + if isFlagSet b.flags bindingFlagWide then 1 else 0 } := by
  unfold countWide
  split
  · rw [if_pos (h ‹_›)]
  · rfl

theorem After.add (h : After m done s) (hm : m ≤ maxBindings) (hroom : done.length < m)
    (hok : Admissible m (done ++ [b])) : ∃ t, embeddedCliAddBinding s b = some t ∧ After m (done ++ [b]) t := by
  have hdone : done.take m = done := List.take_of_length_le hroom.le
  have hnext : (done ++ [b]).take m = done ++ [b] :=
    List.take_of_length_le (by rw [List.length_append,List.length_singleton]; exact hroom)
  obtain ⟨hregistered,hlimit,hwide⟩ := h
  obtain ⟨-,hplain,hassert⟩ := hok
  rw [hdone] at hregistered hwide
  rw [hnext] at hplain hassert
  have hcount : s.bindingsCount = (done.map Binding.name).length := hregistered.count
  have hlen : (done.map Binding.name).length < m := by rwa [List.length_map]
  have hbplain := hplain b (List.mem_append_right _ (List.mem_singleton_self b))
  rw [List.countP_append,List.countP_singleton] at hassert
  have hwideok : isFlagSet b.flags bindingFlagWide = true →
      s.wideBindingsCount < maxWideBindings ∧ s.bindingsCount ≤ maxWideBindingIndex := by
    intro hflag
    rw [if_pos hflag] at hassert
    refine ⟨by omega,?_⟩
    rw [hcount]
    exact Nat.le_trans hlen.le (Nat.le_trans hm (by decide))
  have hnotfull : ¬s.bindingsCount ≥ s.maxBindingsCount - cliInternalBindingCount := by
    rw [hcount,hlimit,Nat.add_sub_cancel]
    exact Nat.not_le.mpr hlen
  obtain ⟨map,inuse,hreg,hinuse,hmap⟩ := register_slots
    (s := { s with
      wideBindingsCount := s.wideBindingsCount + if isFlagSet b.flags bindingFlagWide then 1 else 0
      bindings := Function.update s.bindings s.bindingsCount b })
    hregistered.inuse hregistered.map b.name (Nat.lt_of_lt_of_le hlen hm)
  rw [← hcount] at hreg
  refine ⟨{ s with
    bindings := Function.update s.bindings s.bindingsCount b
    bindingsCount := s.bindingsCount + 1
    bindingMap := map
    inuseBindings := inuse
    wideBindingsCount := s.wideBindingsCount + if isFlagSet b.flags bindingFlagWide then 1 else 0 },
    ?_,⟨?_,hlimit,?_⟩⟩
  · unfold embeddedCliAddBinding
    rw [if_neg hnotfull,hbplain,if_neg Bool.false_ne_true,Option.bind_some,countWide_eq hwideok,Option.bind_some,hreg]
    rfl
  · rw [hnext,List.map_append,List.map_singleton]
    exact hregistered.push hbplain rfl rfl hinuse hmap
  · rw [hnext,List.countP_append,List.countP_singleton,← hwide]

theorem After.exec (h : After m done s) (hm : m ≤ maxBindings) {later : List Binding}
    (hok : Admissible m (done ++ later)) :
    ∃ t, Machine.exec embeddedCliAddBinding s later = some t ∧ After m (done ++ later) t := by
  induction later generalizing done s with
  | nil => exact ⟨s,rfl,by rwa [List.append_nil]⟩
  | cons b later ih =>
    rw [List.append_cons] at hok ⊢
    rw [Machine.exec_cons]
    rcases Nat.lt_or_ge done.length m with hroom | hfull
    · obtain ⟨t,ht,hafter⟩ := h.add hm hroom hok.initial
      rw [ht]
      exact ih hafter hok
    · rw [addBinding_full h hfull]
      exact ih (h.full hfull) hok

/-- The state behind `embeddedCliNew` and some calls of `embeddedCliAddBinding`. -/
def run (bindings : ℕ → Binding) (m : ℕ) (bs : List Binding) : Option State :=
  (embeddedCliNew bindings m).bind fun s => Machine.exec embeddedCliAddBinding s bs

theorem exists_run (bindings : ℕ → Binding) (hm : m ≤ maxBindings) {bs : List Binding}
    (hok : Admissible m (help :: bs)) : ∃ s, run bindings m bs = some s ∧ After m (help :: bs) s := by
  have hstart : After m [] ⟨bindings,0,u16 (m + cliInternalBindingCount),fun _ => 0,fun _ => 0,0⟩ := by
    refine ⟨⟨?_,?_,?_,?_,?_⟩,?_,?_⟩
    · rw [List.take_nil,List.map_nil,List.length_nil]
    · simp
    · simp
    · intro idx _
      simp [isInUse,slots,table]
    · intro idx _ k hk
      simp [slots,table] at hk
    · exact Nat.mod_eq_of_lt (Nat.lt_of_le_of_lt (Nat.add_le_add_right hm _) (by decide))
    · rw [List.take_nil,List.countP_nil]
  obtain ⟨s,hs,hafter⟩ := hstart.exec hm hok
  refine ⟨s,?_,hafter⟩
  unfold run embeddedCliNew
  rw [if_neg (Nat.not_lt.mpr hm),← hs,Machine.exec_cons]

end Runs

section Lookup
variable {s : State} {ctx : AppContext} {names before after : List (List UInt8)} {cmdName : List UInt8}

theorem Registered.searches (h : Registered s names) (ctx : AppContext) (cmdName : List UInt8) :
    Searches bindingMapSize home names cmdName (bindingAt s ctx cmdName) .noMatch .index := by
  constructor
  · intro idx hidx (hfree : slots names idx = none)
    unfold bindingAt
    rw [h.inuse idx hidx,hfree]
    rfl
  · intro idx hidx k (hk : slots names idx = some k) hget
    have hlt : k.2 < names.length := (List.getElem?_eq_some_iff.mp hget).1
    unfold bindingAt
    dsimp only
    rw [h.inuse idx hidx,hk,h.map idx hidx k hk,h.name k.2 k.1 hget,h.plain k.2 hlt]
    rfl

/-- A name that is not registered is not found. -/
theorem Registered.find_absent (h : Registered s names) (hroom : names.length ≤ maxBindings) (habsent : cmdName ∉ names) :
    findBindingIndex s ctx cmdName = .noMatch := by
  unfold findBindingIndex
  rw [hash_and_mask]
  exact (h.searches ctx cmdName).absent home_lt (Nat.le_trans hroom (by decide)) habsent 32

/-- A registered name is found when its slot is one of the 32 that the lookup visits. -/
theorem Registered.find_iff (h : Registered s (before ++ cmdName :: after)) (hnew : cmdName ∉ before)
    (hroom : (before ++ cmdName :: after).length ≤ maxBindings) :
    findBindingIndex s ctx cmdName = .index before.length ↔
      ∃ d < 32, slots (before ++ cmdName :: after) (slotAt bindingMapSize (home cmdName) d) = some (cmdName,before.length) := by
  have hlen : (before ++ cmdName :: after).length ≤ bindingMapSize := Nat.le_trans hroom (by decide)
  unfold findBindingIndex
  rw [hash_and_mask]
  constructor
  case mp =>
    exact (h.searches ctx cmdName).reached home_lt hlen (fun hsame => by cases hsame) fun i j hsame => by cases hsame; rfl
  case mpr =>
    intro hnear
    rw [(h.searches ctx cmdName).first home_lt hlen hnew hnear,Option.getD_some]

end Lookup

section Limit

/-- Among the 32 slots from the home of a name there is one at which no stretch of slots ends that
is the home of as many of the names before as it has slots. -/
def WithinLimit (before : List (List UInt8)) (name : List UInt8) : Prop :=
  ∃ i < 32, ∀ j < bindingMapSize,
    (before.countP fun a => gap bindingMapSize (home a) (slotAt bindingMapSize (home name) i) ≤ j) ≤ j

instance (before : List (List UInt8)) (name : List UInt8) : Decidable (WithinLimit before name) :=
  inferInstanceAs (Decidable (∃ i < 32, ∀ j < bindingMapSize,
    (before.countP fun a => gap bindingMapSize (home a) (slotAt bindingMapSize (home name) i) ≤ j) ≤ j))

variable {before after : List (List UInt8)} {name : List UInt8}

theorem slots_near_iff (hroom : (before ++ name :: after).length ≤ maxBindings) :
    (∃ d < 32, slots (before ++ name :: after) (slotAt bindingMapSize (home name) d) = some (name,before.length)) ↔
      WithinLimit before name := by
  have hsplit : (before ++ name :: after).zipIdx =
      before.zipIdx ++ (name,before.length) :: after.zipIdx (before.length + 1) := by
    rw [List.zipIdx_append,List.zipIdx_cons,Nat.zero_add]
  have hkeys : (before.zipIdx ++ (name,before.length) :: after.zipIdx (before.length + 1)).Nodup := by
    rw [← hsplit]
    exact ProbedIndex.nodup_zipIdx _
  have hlen : (before.zipIdx ++ (name,before.length) :: after.zipIdx (before.length + 1)).length ≤ bindingMapSize := by
    rw [← hsplit,List.length_zipIdx]
    exact Nat.le_trans hroom (by decide)
  have hnear := @near_iff (List UInt8 × ℕ) bindingMapSize (fun k => home k.1) _ _ _ hkeys (fun k _ => home_lt k.1) hlen 32
  unfold slots WithinLimit
  rw [hsplit,hnear]
  have hcount : ∀ p : List UInt8 → Bool, before.zipIdx.countP (fun k => p k.1) = before.countP p := by
    intro p
    conv_rhs => rw [← List.zipIdx_map_fst 0 before]
    rw [List.countP_map]
    rfl
  constructor
  · rintro ⟨i,hi,h⟩
    exact ⟨i,hi,fun j hj => (hcount _).symm.trans_le (h j hj)⟩
  · rintro ⟨i,hi,h⟩
    exact ⟨i,hi,fun j hj => (hcount _).trans_le (h j hj)⟩

/-- After any calls that register names up to the limit, every name is found under its index and
no other string is found, exactly when the names leave each other room within 32 slots. -/
theorem findBindingIndex_iff (bindings : ℕ → Binding) (ctx : AppContext) {m : ℕ} (hm : m ≤ maxBindings)
    {bs : List Binding} (hplain : ∀ b ∈ bs, isFlagSet b.flags bindingFlagAppContext = false)
    (hnames : ((help :: bs).map Binding.name).Nodup)
    (hwide : (((help :: bs).take m).countP fun b => isFlagSet b.flags bindingFlagWide) ≤ maxWideBindings) :
    ∃ s, run bindings m bs = some s ∧
      ((∀ cmdName, findBindingIndex s ctx cmdName =
        ((((help :: bs).take m).map Binding.name).idxOf? cmdName).elim .noMatch .index) ↔
      ∀ before name after, ((help :: bs).take m).map Binding.name = before ++ name :: after →
        WithinLimit before name) := by
  have hok : Admissible m (help :: bs) := by
    refine ⟨hnames.sublist ((List.take_sublist m _).map _),fun b hb => ?_,hwide⟩
    rcases List.mem_cons.mp (List.mem_of_mem_take hb) with rfl | hb
    · decide
    · exact hplain b hb
  obtain ⟨s,hs,hafter⟩ := exists_run bindings hm hok
  refine ⟨s,hs,?_⟩
  have hreg := hafter.registered
  have hnodup := hok.names
  have hroom : (((help :: bs).take m).map Binding.name).length ≤ maxBindings := by
    rw [List.length_map,List.length_take]
    omega
  generalize ((help :: bs).take m).map Binding.name = names at hreg hnodup hroom
  constructor
  · rintro h before name after rfl
    have hnew : name ∉ before := fun hmem => (List.nodup_append.mp hnodup).2.2 _ hmem _ (List.mem_cons_self ..) rfl
    have hidx : (before ++ name :: after).idxOf? name = some before.length := by
      rw [List.idxOf?_eq_some_iff]
      refine ⟨by simp,by simp,fun j hj heq => ?_⟩
      rw [List.getElem_append_left hj] at heq
      exact hnew (heq ▸ List.getElem_mem hj)
    have hfind := h name
    rw [hidx,Option.elim_some,hreg.find_iff hnew hroom] at hfind
    exact (slots_near_iff hroom).mp hfind
  · intro h cmdName
    cases hidx : names.idxOf? cmdName with
    | none => exact hreg.find_absent hroom (List.idxOf?_eq_none_iff.mp hidx)
    | some i =>
      obtain ⟨hlt,hat,-⟩ := List.idxOf?_eq_some_iff.mp hidx
      have hsplit : names = names.take i ++ cmdName :: names.drop (i + 1) := by
        rw [← hat,List.getElem_cons_drop,List.take_append_drop]
      have hlen : (names.take i).length = i := List.length_take_of_le hlt.le
      have hnear := h _ _ _ hsplit
      generalize names.take i = before,names.drop (i + 1) = after at hsplit hlen hnear
      subst hsplit hlen
      have hnew : cmdName ∉ before := fun hmem => (List.nodup_append.mp hnodup).2.2 _ hmem _ (List.mem_cons_self ..) rfl
      exact (hreg.find_iff hnew hroom).mpr ((slots_near_iff hroom).mpr hnear)

theorem findBindingIndex_iff_test : ∃ s, run (fun _ => help) 79 [⟨ascii "test",0,none⟩] = some s ∧
    ((∀ cmdName, findBindingIndex s ⟨fun _ => 0,0,0⟩ cmdName =
      ((((help :: [⟨ascii "test",0,none⟩]).take 79).map Binding.name).idxOf? cmdName).elim .noMatch .index) ↔
    ∀ before name after, ((help :: [⟨ascii "test",0,none⟩]).take 79).map Binding.name = before ++ name :: after →
      WithinLimit before name) :=
  findBindingIndex_iff (fun _ => help) ⟨fun _ => 0,0,0⟩ (by decide) (by decide) (by decide) (by decide)

/-- Names that all have the home of `help`. -/
def crowd : List (List UInt8) :=
  [ascii "aec",ascii "att",ascii "bcd",ascii "bru",ascii "bzm",ascii "cae",ascii "cpv",ascii "cxn",
   ascii "dnw",ascii "dvo",ascii "elx",ascii "etp",ascii "fjy",ascii "frq",ascii "fzi",ascii "gaa",
   ascii "ghz",ascii "gpr",ascii "gxj",ascii "hns",ascii "hvk",ascii "ilt",ascii "itl",ascii "jju",
   ascii "jrm",ascii "jze",ascii "khv",ascii "kpn",ascii "kxf",ascii "lfw",ascii "lno",ascii "lvg"]

def crowdBindings : List Binding := crowd.map fun name => ⟨name,0,none⟩

/-- They fill a table for 33 bindings, and the last of them is not found. -/
theorem crowd_not_found : ((help :: crowdBindings).map Binding.name).Nodup ∧
    (∀ b ∈ crowdBindings, isFlagSet b.flags bindingFlagAppContext = false) ∧ (help :: crowdBindings).length = 33 ∧
    ∃ s, run (fun _ => help) 33 crowdBindings = some s ∧
      ¬∀ cmdName, findBindingIndex s ⟨fun _ => 0,0,0⟩ cmdName =
        (((help :: crowdBindings).map Binding.name).idxOf? cmdName).elim .noMatch .index := by
  have hfind : (run (fun _ => help) 33 crowdBindings).map
      (fun s => findBindingIndex s ⟨fun _ => 0,0,0⟩ (ascii "lvg")) = some .noMatch := by decide +kernel
  have hidx : ((help :: crowdBindings).map Binding.name).idxOf? (ascii "lvg") = some 32 := by decide +kernel
  obtain ⟨s,hs,hnone⟩ := Option.map_eq_some_iff.mp hfind
  refine ⟨by decide +kernel,by decide,by decide,s,hs,fun h => ?_⟩
  have hlast := h (ascii "lvg")
  rw [hnone,hidx] at hlast
  cases hlast

end Limit

end EmbedTemplate.Cli.Bindings
