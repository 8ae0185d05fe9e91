import EmbedTemplate.Cli.Bindings
import Mathlib.Algebra.BigOperators.Group.List.Basic

/-! # Completions of arguments

A callback is registered under the hash of the name of its command, in a table with a map of hashed slots in front of
it. `Dictionary` says what the table is for; the eight slots that a search visits are enough for its eight entries.
-/
namespace EmbedTemplate.Cli.Completions
open Bytes LinearProbe ProbedIndex Bindings
variable {κ : Type*}

section Source

/-- `MAX_ARGS_COMPLETIONS`, `COMPLETION_MAP_SIZE`, `COMPLETION_MAP_MASK` -/
def maxArgsCompletions : ℕ := 8
def completionMapSize : ℕ := 16
def completionMapMask : ℕ := completionMapSize - 1

structure ArgsCompletion (κ : Type*) where
  nameHash : ℕ
  onArgsCompletion : κ

/-- The static variables for the completions. -/
structure Table (κ : Type*) where
  completionMap : ℕ → ℕ
  inuseCompletion : ℕ → ℕ
  completionTable : ℕ → ArgsCompletion κ
  completionsCount : ℕ

/-- One round of the loop of `findCompletionIndex`, when it is the last one; `-1` is `none`. -/
def completionAt (t : Table κ) (hash idx : ℕ) : Option (Option ℕ) :=
  if !isInUse t.inuseCompletion idx then some none
  else
    let completionIdx := t.completionMap idx
    if (t.completionTable completionIdx).nameHash = hash then some (some completionIdx) else none

def findCompletionIndex (t : Table κ) (cmdName : List UInt8) : Option ℕ :=
  let hash := Bindings.cliHash cmdName
  (probe completionMapSize (completionAt t hash) maxArgsCompletions (hash &&& completionMapMask)).getD none

def embeddedCliAddCompletion (t : Table κ) (name : List UInt8) (onArgsCompletion : κ) : Table κ × Bool :=
  if t.completionsCount ≥ maxArgsCompletions then (t,false)
  else
    let hash := Bindings.cliHash name
    match findCompletionIndex t name with
    | some inuse =>
      let entry := { t.completionTable inuse with onArgsCompletion := onArgsCompletion }
      ({ t with completionTable := Function.update t.completionTable inuse entry },true)
    | none =>
      match probe completionMapSize (fun idx => if isInUse t.inuseCompletion idx then none else some idx)
          completionMapSize (hash &&& completionMapMask) with
      | none => (t,false)
      | some idx =>
        ({ completionMap := Function.update t.completionMap idx (u8 t.completionsCount)
           inuseCompletion := setInUse t.inuseCompletion idx
           completionTable := Function.update t.completionTable t.completionsCount ⟨hash,onArgsCompletion⟩
           completionsCount := t.completionsCount + 1 },true)

/-- The pairs with one hash. -/
def embeddedCliCheckArgsCompletionDuplicates (t : Table κ) : ℕ :=
  if t.completionsCount < 2 then 0
  else ((List.range (t.completionsCount - 1)).map fun i =>
    (List.range' (i + 1) (t.completionsCount - (i + 1))).countP fun j =>
      (t.completionTable i).nameHash = (t.completionTable j).nameHash).sum

/-- What `onAutocompleteRequest` calls for a command. -/
def callbackFor (t : Table κ) (cmdName : List UInt8) : Option κ :=
  (findCompletionIndex t cmdName).map fun idx => (t.completionTable idx).onArgsCompletion

end Source

section Dictionary

/-- The callbacks with their hashes, in the order in which the hashes came up. -/
abbrev Dictionary (κ : Type*) := List (ℕ × κ)

/-- A callback takes the place of another one with its hash; a full dictionary takes none. -/
def Dictionary.set (d : Dictionary κ) (hash : ℕ) (f : κ) : Dictionary κ × Bool :=
  if maxArgsCompletions ≤ d.length then (d,false)
  else if hash ∈ d.map Prod.fst then (d.map fun e => if e.1 = hash then (hash,f) else e,true)
  else (d ++ [(hash,f)],true)

def home (hash : ℕ) : ℕ := hash % completionMapSize

theorem home_lt (hash : ℕ) : home hash < completionMapSize := Nat.mod_lt _ (by decide)

theorem hash_and_mask (hash : ℕ) : hash &&& completionMapMask = home hash := Nat.and_two_pow_sub_one_eq_mod hash 4

/-- The table holds the dictionary, and the map the places of the hashes where the probed table has them. -/
structure Represents (t : Table κ) (d : Dictionary κ) : Prop where
  count : t.completionsCount = d.length
  room : d.length ≤ maxArgsCompletions
  distinct : (d.map Prod.fst).Nodup
  entry : ∀ i e, d[i]? = some e → t.completionTable i = ⟨e.1,e.2⟩
  inuse : ∀ idx < completionMapSize,
    isInUse t.inuseCompletion idx = (slots completionMapSize home (d.map Prod.fst) idx).isSome
  map : ∀ idx < completionMapSize, ∀ k, slots completionMapSize home (d.map Prod.fst) idx = some k →
    t.completionMap idx = k.2

variable {t : Table κ} {d : Dictionary κ}

theorem Represents.searches (h : Represents t d) (hash : ℕ) :
    Searches completionMapSize home (d.map Prod.fst) hash (completionAt t hash) none some := by
  constructor
  · intro idx hidx hfree
    unfold completionAt
    rw [h.inuse idx hidx,hfree]
    rfl
  · intro idx hidx k hk hget
    rw [List.getElem?_map] at hget
    obtain ⟨e,he,hhash⟩ := Option.map_eq_some_iff.mp hget
    unfold completionAt
    dsimp only
    rw [h.inuse idx hidx,hk,h.map idx hidx k hk,h.entry k.2 e he,← hhash]
    simp only [eq_comm]
    rfl

/-- The search finds the place of a hash, without a limit that matters. -/
theorem Represents.find_eq (h : Represents t d) (cmdName : List UInt8) :
    findCompletionIndex t cmdName = (d.map Prod.fst).idxOf? (Bindings.cliHash cmdName) := by
  have hsearch := h.searches (Bindings.cliHash cmdName)
  have hlen : (d.map Prod.fst).length ≤ maxArgsCompletions := by
    rw [List.length_map]
    exact h.room
  unfold findCompletionIndex
  dsimp only
  rw [hash_and_mask]
  cases hidx : (d.map Prod.fst).idxOf? (Bindings.cliHash cmdName) with
  | none =>
    exact hsearch.absent home_lt (Nat.le_trans hlen (by decide)) (List.idxOf?_eq_none_iff.mp hidx) maxArgsCompletions
  | some i =>
    obtain ⟨hlt,hat,hbefore⟩ := List.idxOf?_eq_some_iff.mp hidx
    have hsplit : d.map Prod.fst =
        (d.map Prod.fst).take i ++ Bindings.cliHash cmdName :: (d.map Prod.fst).drop (i + 1) := by
      rw [← hat,List.getElem_cons_drop,List.take_append_drop]
    have hplace : ((d.map Prod.fst).take i).length = i := List.length_take_of_le (Nat.le_of_lt hlt)
    have hnew : Bindings.cliHash cmdName ∉ (d.map Prod.fst).take i := by
      intro hmem
      obtain ⟨j,hj,hget⟩ := List.mem_take_iff_getElem.mp hmem
      exact hbefore j (by omega) hget
    rw [hsplit] at hsearch hlen
    have hsmall : ((d.map Prod.fst).take i).length < maxArgsCompletions := by
      rw [hplace]
      rw [← hsplit] at hlen
      omega
    obtain ⟨j,hj,hnear⟩ := @exists_near _ completionMapSize home _ ((d.map Prod.fst).drop (i + 1))
      (Bindings.cliHash cmdName) home_lt (Nat.lt_trans hsmall (by decide))
    rw [hsearch.first home_lt (Nat.le_trans hlen (by decide)) hnew ⟨j,Nat.lt_of_le_of_lt hj hsmall,hnear⟩,hplace]
    rfl

theorem Represents.replace (h : Represents t d) {i : ℕ} {hash : ℕ} (hi : (d.map Prod.fst)[i]? = some hash) (f : κ) :
    Represents { t with completionTable := Function.update t.completionTable i ⟨hash,f⟩ }
      (d.map fun e => if e.1 = hash then (hash,f) else e) := by
  have hkeys : (d.map fun e => if e.1 = hash then (hash,f) else e).map Prod.fst = d.map Prod.fst := by
    rw [List.map_map]
    refine List.map_congr_left fun e _ => ?_
    simp only [Function.comp_apply]
    split
    · exact Eq.symm ‹_›
    · rfl
  refine ⟨by rw [List.length_map]; exact h.count,by rw [List.length_map]; exact h.room,by rw [hkeys]; exact h.distinct,
    fun j e he => ?_,by rw [hkeys]; exact h.inuse,by rw [hkeys]; exact h.map⟩
  rw [List.getElem?_map] at he
  obtain ⟨c,hc,rfl⟩ := Option.map_eq_some_iff.mp he
  have hkey : (d.map Prod.fst)[j]? = some c.1 := by rw [List.getElem?_map,hc,Option.map_some]
  dsimp only
  rw [Function.update_apply]
  by_cases hat : j = i
  · rw [hat,hi] at hkey
    rw [if_pos hat,if_pos (Option.some_inj.mp hkey).symm]
  · rw [if_neg hat,if_neg,h.entry j c hc]
    rintro rfl
    exact hat ((List.getElem?_inj (List.getElem?_eq_some_iff.mp hkey).1 h.distinct).mp (hkey.trans hi.symm))

theorem Represents.append (h : Represents t d) (hroom : d.length < maxArgsCompletions) {hash : ℕ}
    (hnew : hash ∉ d.map Prod.fst) (f : κ) :
    ∃ idx, probe completionMapSize (fun idx => if isInUse t.inuseCompletion idx then none else some idx) completionMapSize
        (hash &&& completionMapMask) = some idx ∧
      Represents
        { completionMap := Function.update t.completionMap idx (u8 t.completionsCount)
          inuseCompletion := setInUse t.inuseCompletion idx
          completionTable := Function.update t.completionTable t.completionsCount ⟨hash,f⟩
          completionsCount := t.completionsCount + 1 }
        (d ++ [(hash,f)]) := by
  have hlen : (d.map Prod.fst).length < completionMapSize := by
    rw [List.length_map]
    exact Nat.lt_trans hroom (by decide)
  obtain ⟨j,hj,hfree,hbefore,hslots⟩ := slots_snoc home_lt hlen hash
  have hslot : ∀ j, slotAt completionMapSize (home hash) j < completionMapSize := slotAt_lt (by decide) _
  have hkeys : (d ++ [(hash,f)]).map Prod.fst = d.map Prod.fst ++ [hash] := List.map_append ..
  have hsmall : u8 t.completionsCount = d.length := by
    rw [h.count]
    exact Nat.mod_eq_of_lt (Nat.lt_trans hroom (by decide))
  refine ⟨slotAt completionMapSize (home hash) j,?_,?_,?_,?_,fun i e he => ?_,fun idx hidx => ?_,fun idx hidx k hk => ?_⟩
  · rw [hash_and_mask,probe_eq_some _ _ (home_lt hash)]
    refine ⟨j,hj,?_,fun i hi => ?_⟩
    · rw [h.inuse _ (hslot j),hfree]
      rfl
    · rw [h.inuse _ (hslot i),if_pos (Option.isSome_iff_ne_none.mpr (hbefore i hi))]
  · rw [h.count,List.length_append,List.length_singleton]
  · rw [List.length_append,List.length_singleton]
    exact hroom
  · rw [hkeys,List.nodup_append]
    exact ⟨h.distinct,List.nodup_singleton _,by simpa using fun a ha => ne_of_mem_of_not_mem ha hnew⟩
  · dsimp only
    rw [h.count,Function.update_apply]
    split
    · rw [‹i = _›,List.getElem?_append_right le_rfl,Nat.sub_self] at he
      rw [← Option.some_inj.mp he]
    · have hlt : i < d.length := by
        have hle := (List.getElem?_eq_some_iff.mp he).1
        rw [List.length_append,List.length_singleton] at hle
        omega
      rw [List.getElem?_append_left hlt] at he
      exact h.entry i e he
  · dsimp only
    rw [isInUse_setInUse,hkeys,hslots,Function.update_apply,h.inuse idx hidx]
    by_cases hat : idx = slotAt completionMapSize (home hash) j
    · simp [hat]
    · simp [hat]
  · dsimp only
    rw [hkeys,hslots,Function.update_apply] at hk
    rw [Function.update_apply,hsmall]
    split at hk
    · rw [if_pos ‹_›,← Option.some_inj.mp hk,List.length_map]
    · rw [if_neg ‹_›]
      exact h.map idx hidx k hk

/-- A registration does to the table what it does to the dictionary. -/
theorem Represents.add (h : Represents t d) (name : List UInt8) (f : κ) :
    Represents (embeddedCliAddCompletion t name f).1 (d.set (Bindings.cliHash name) f).1 ∧
      (embeddedCliAddCompletion t name f).2 = (d.set (Bindings.cliHash name) f).2 := by
  unfold embeddedCliAddCompletion Dictionary.set
  dsimp only
  by_cases hfull : maxArgsCompletions ≤ d.length
  · rw [if_pos (by rwa [h.count]),if_pos hfull]
    exact ⟨h,rfl⟩
  rw [if_neg (by rwa [h.count]),if_neg hfull,h.find_eq]
  by_cases hmem : Bindings.cliHash name ∈ d.map Prod.fst
  · rw [if_pos hmem]
    cases hidx : (d.map Prod.fst).idxOf? (Bindings.cliHash name) with
    | none => exact absurd hmem (List.idxOf?_eq_none_iff.mp hidx)
    | some i =>
      obtain ⟨hlt,hat,-⟩ := List.idxOf?_eq_some_iff.mp hidx
      have hi : (d.map Prod.fst)[i]? = some (Bindings.cliHash name) := List.getElem?_eq_some_iff.mpr ⟨hlt,hat⟩
      rw [List.getElem?_map] at hi
      obtain ⟨e,he,hhash⟩ := Option.map_eq_some_iff.mp hi
      have hentry : (t.completionTable i).nameHash = Bindings.cliHash name := by rw [h.entry i e he,hhash]
      dsimp only
      rw [hentry]
      exact ⟨h.replace (by rw [List.getElem?_map,he,Option.map_some,hhash]) f,rfl⟩
  · rw [if_neg hmem]
    obtain ⟨idx,hprobe,happend⟩ := h.append (Nat.lt_of_not_le hfull) hmem f
    have hidx : (d.map Prod.fst).idxOf? (Bindings.cliHash name) = none := List.idxOf?_eq_none_iff.mpr hmem
    rw [hidx]
    dsimp only
    rw [hprobe]
    exact ⟨happend,rfl⟩

def Dictionary.get (d : Dictionary κ) (hash : ℕ) : Option κ := (d.find? fun e => e.1 = hash).map Prod.snd

theorem Represents.callbackFor (h : Represents t d) (cmdName : List UInt8) :
    callbackFor t cmdName = d.get (Bindings.cliHash cmdName) := by
  unfold Completions.callbackFor Dictionary.get
  rw [h.find_eq]
  cases hidx : (d.map Prod.fst).idxOf? (Bindings.cliHash cmdName) with
  | none =>
    have hnone : (d.find? fun e => e.1 = Bindings.cliHash cmdName) = none := by
      refine List.find?_eq_none.mpr fun e he hhash => ?_
      exact List.idxOf?_eq_none_iff.mp hidx (List.mem_map.mpr ⟨e,he,of_decide_eq_true hhash⟩)
    rw [hnone]
    rfl
  | some i =>
    obtain ⟨hlt,hat,hbefore⟩ := List.idxOf?_eq_some_iff.mp hidx
    have hlen : i < d.length := by rwa [List.length_map] at hlt
    rw [List.getElem_map] at hat
    have hfind : (d.find? fun e => e.1 = Bindings.cliHash cmdName) = some d[i] := by
      refine List.find?_eq_some_iff_getElem.mpr ⟨decide_eq_true hat,i,hlen,rfl,fun j hj => ?_⟩
      have hother := hbefore j hj
      rw [List.getElem_map] at hother
      simpa using hother
    rw [hfind,Option.map_some,Option.map_some,h.entry i d[i] (List.getElem?_eq_getElem hlen)]

theorem Represents.check (h : Represents t d) : embeddedCliCheckArgsCompletionDuplicates t = 0 := by
  have hhash : ∀ i < t.completionsCount, (d.map Prod.fst)[i]? = some (t.completionTable i).nameHash := by
    intro i hi
    rw [h.count] at hi
    rw [List.getElem?_map,List.getElem?_eq_getElem hi,Option.map_some,h.entry i d[i] (List.getElem?_eq_getElem hi)]
  unfold embeddedCliCheckArgsCompletionDuplicates
  split
  · rfl
  refine List.sum_eq_zero fun n hn => ?_
  obtain ⟨i,hi,rfl⟩ := List.mem_map.mp hn
  refine List.countP_eq_zero.mpr fun j hj hsame => ?_
  have hi := List.mem_range.mp hi
  obtain ⟨hlow,hhigh⟩ := List.mem_range'_1.mp hj
  have hij := hhash i (by omega)
  rw [of_decide_eq_true hsame,← hhash j (by omega)] at hij
  have heq := (List.getElem?_inj (by rw [List.length_map,← h.count]; omega) h.distinct).mp hij
  omega

end Dictionary

section Runs

/-- Some registrations one after another, with what they return. -/
def addAll (t : Table κ) : List (List UInt8 × κ) → Table κ × List Bool
  | [] => (t,[])
  | call :: calls =>
    let next := embeddedCliAddCompletion t call.1 call.2
    let rest := addAll next.1 calls
    (rest.1,next.2 :: rest.2)

def Dictionary.setAll (d : Dictionary κ) : List (List UInt8 × κ) → Dictionary κ × List Bool
  | [] => (d,[])
  | call :: calls =>
    let next := d.set (Bindings.cliHash call.1) call.2
    let rest := next.1.setAll calls
    (rest.1,next.2 :: rest.2)

/-- The static variables, zeroed. -/
def Table.new (completionTable : ℕ → ArgsCompletion κ) : Table κ := ⟨fun _ => 0,fun _ => 0,completionTable,0⟩

theorem represents_new (completionTable : ℕ → ArgsCompletion κ) : Represents (.new completionTable) [] := by
  refine ⟨rfl,Nat.zero_le _,List.nodup_nil,by simp,fun idx _ => ?_,fun idx _ k hk => ?_⟩
  · simp [Table.new,isInUse,ProbedIndex.slots,table]
  · simp [ProbedIndex.slots,table] at hk

theorem represents_addAll {t : Table κ} {d : Dictionary κ} (h : Represents t d) (calls : List (List UInt8 × κ)) :
    Represents (addAll t calls).1 (d.setAll calls).1 ∧ (addAll t calls).2 = (d.setAll calls).2 := by
  induction calls generalizing t d with
  | nil => exact ⟨h,rfl⟩
  | cons call calls ih =>
    obtain ⟨hnext,hok⟩ := h.add call.1 call.2
    obtain ⟨hrest,hoks⟩ := ih hnext
    refine ⟨hrest,?_⟩
    unfold addAll Dictionary.setAll
    dsimp only
    rw [hok,hoks]

/-- Whatever is registered, the table is a dictionary of eight hashes: it accepts and refuses what the dictionary does, a
command gets the callback that the dictionary has for its hash, and the check for duplicates finds none. -/
theorem completions_dictionary (completionTable : ℕ → ArgsCompletion κ) (calls : List (List UInt8 × κ)) :
    (addAll (.new completionTable) calls).2 = (Dictionary.setAll [] calls).2 ∧
      (∀ cmdName, callbackFor (addAll (.new completionTable) calls).1 cmdName =
        (Dictionary.setAll [] calls).1.get (Bindings.cliHash cmdName)) ∧
      embeddedCliCheckArgsCompletionDuplicates (addAll (.new completionTable) calls).1 = 0 := by
  obtain ⟨hrepresents,hoks⟩ := represents_addAll (represents_new completionTable) calls
  exact ⟨hoks,hrepresents.callbackFor,hrepresents.check⟩

end Runs

end EmbedTemplate.Cli.Completions
