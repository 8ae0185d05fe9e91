import EmbedTemplate.Cli.LogNames
import EmbedTemplate.Library.LinearProbe

/-! # The name tables as open addressing

`insert_name` keeps a map of table positions, probed slot by slot from the hash of the name.
The map of any entries with different hashes is the linearly probed table of these entries, so
`find_name_id` ends at each of them.
-/
namespace EmbedTemplate.Cli
open Bytes LinearProbe

/-- The arguments of `insert_name`. -/
structure NameEntry where
  name : List UInt8
  id : ℕ
  n : ℕ
  deriving DecidableEq

/-- The map behind the `memset`, over what the table happens to hold. -/
def NameMap.emptied (table : ℕ → ℕ × ℕ) (mask : ℕ) : NameMap := ⟨fun _ => mapEmpty,table,mask⟩

def insertNames (t : NameMap) (entries : List NameEntry) : NameMap :=
  entries.foldl (fun t e => insertName t e.name e.id e.n) t

section Loops
variable (t : NameMap)

/-- `insert_name` before `do_insert` -/
def NameMap.enter (e : NameEntry) : NameMap := { t with table := Function.update t.table e.n (cliHash e.name,e.id) }

/-- Where the loop of `do_insert` ends. -/
def insertStops (hash slot : ℕ) : Prop := t.map slot = mapEmpty ∨ (t.table (t.map slot)).1 = hash

/-- Where the loop of `find_name_id` ends, also by `return` or `break`. -/
def findStops (hash start slot : ℕ) : Prop :=
  t.map slot = mapEmpty ∨ (t.table (t.map slot)).1 = hash ∨ (slot + 1) &&& t.mask = start

/-- A loop that goes on to the next slot of the map ends after some number of rounds. -/
def NameMap.Ends (stops : ℕ → Prop) (start : ℕ) : Prop := ∃ i, stops ((fun slot => (slot + 1) &&& t.mask)^[i] start)

end Loops

/-- Equal up to the case of the letters. -/
def SameLetters (a b : List UInt8) : Prop := (a.map fun c => capital c.toNat) = b.map fun c => capital c.toNat

instance (a b : List UInt8) : Decidable (SameLetters a b) :=
  inferInstanceAs (Decidable ((a.map fun c => capital c.toNat) = b.map fun c => capital c.toNat))

theorem cliHash_eq (str : List UInt8) :
    cliHash str = (str.map fun c => capital c.toNat).foldl (fun hash c => u32 (u32 (hash * 2 ^ 5) + hash + c)) 5381 := by
  unfold cliHash
  rw [List.foldl_map]

theorem SameLetters.cliHash_eq {a b : List UInt8} (h : SameLetters a b) : cliHash a = cliHash b := by
  rw [Cli.cliHash_eq,Cli.cliHash_eq b,h]

section Probing
variable {m : ℕ} {t : NameMap}

theorem and_mask_lt (hm : t.mask = 2 ^ m - 1) (a : ℕ) : a &&& t.mask < 2 ^ m := by
  rw [hm,Nat.and_two_pow_sub_one_eq_mod]
  exact Nat.mod_lt _ (Nat.two_pow_pos m)

theorem next_slot (hm : t.mask = 2 ^ m - 1) (a i : ℕ) : (slotAt (2 ^ m) a i + 1) &&& t.mask = slotAt (2 ^ m) a (i + 1) := by
  rw [hm,Nat.and_two_pow_sub_one_eq_mod,slotAt_succ]

theorem iterate_slot (hm : t.mask = 2 ^ m - 1) {a : ℕ} (ha : a < 2 ^ m) (i : ℕ) :
    (fun slot => (slot + 1) &&& t.mask)^[i] a = slotAt (2 ^ m) a i := by
  induction i with
  | zero => exact (slotAt_zero ha).symm
  | succ i ih =>
    rw [Function.iterate_succ_apply',ih]
    exact next_slot hm a i

theorem freeSlot_eq (hm : t.mask = 2 ^ m - 1) {hash a d fuel i : ℕ} (hd : d < fuel + i) (hi : i ≤ d)
    (hstop : insertStops t hash (slotAt (2 ^ m) a d))
    (hbefore : ∀ j < d, ¬insertStops t hash (slotAt (2 ^ m) a j)) :
    freeSlot t hash fuel (slotAt (2 ^ m) a i) = slotAt (2 ^ m) a d := by
  unfold insertStops at hstop hbefore
  induction fuel generalizing i with
  | zero => omega
  | succ fuel ih =>
    unfold freeSlot
    rcases Nat.lt_or_eq_of_le hi with hlt | rfl
    · rw [if_neg (hbefore i hlt),next_slot hm]
      exact ih (by omega) hlt
    · rw [if_pos hstop]

/-- What the loop of `find_name_id` finds at a slot: nothing yet, or the result. -/
def foundAt (t : NameMap) (hash slot : ℕ) : Option (Option ℕ) :=
  if t.map slot = mapEmpty then some none
  else if (t.table (t.map slot)).1 = hash then some (some (t.table (t.map slot)).2) else none

theorem findSlot_eq (hm : t.mask = 2 ^ m - 1) {hash a d i fuel : ℕ} (ha : a < 2 ^ m) (hd : d < 2 ^ m) (hi : i ≤ d)
    (hfuel : fuel + i = 2 ^ m) {r : Option ℕ} (hstop : foundAt t hash (slotAt (2 ^ m) a d) = some r)
    (hbefore : ∀ j < d, foundAt t hash (slotAt (2 ^ m) a j) = none) :
    findSlot t hash a fuel (slotAt (2 ^ m) a i) = r := by
  induction fuel generalizing i with
  | zero => omega
  | succ fuel ih =>
    unfold findSlot
    rcases Nat.lt_or_eq_of_le hi with hlt | rfl
    · have hnone := hbefore i hlt
      unfold foundAt at hnone
      split at hnone
      · cases hnone
      · split at hnone
        · cases hnone
        · rw [if_neg ‹_›,if_neg ‹_›]
          simp only [next_slot hm]
          rw [if_neg,ih hlt (by omega)]
          rw [slotAt_eq ha (by omega)]
          split <;> omega
    · unfold foundAt at hstop
      split at hstop
      · rw [if_pos ‹_›]
        exact Option.some_inj.mp hstop
      · split at hstop
        · rw [if_neg ‹_›,if_pos ‹_›]
          exact Option.some_inj.mp hstop
        · cases hstop

end Probing

section Tables
variable (m : ℕ)

def NameEntry.home (e : NameEntry) : ℕ := cliHash e.name % 2 ^ m

/-- The map points to the entries that the probed table holds, and their rows are written. -/
structure Represents (t : NameMap) (slots : ℕ → Option NameEntry) (entries : List NameEntry) : Prop where
  mask : t.mask = 2 ^ m - 1
  map : ∀ s < 2 ^ m, t.map s = (slots s).elim mapEmpty NameEntry.n
  table : ∀ e ∈ entries, t.table e.n = (cliHash e.name,e.id)

variable {m} {t : NameMap} {slots : ℕ → Option NameEntry} {entries : List NameEntry}

theorem home_lt (e : NameEntry) : e.home m < 2 ^ m := Nat.mod_lt _ (Nat.two_pow_pos m)

theorem hash_and_mask (hm : t.mask = 2 ^ m - 1) (e : NameEntry) : cliHash e.name &&& t.mask = e.home m := by
  rw [hm,Nat.and_two_pow_sub_one_eq_mod]
  rfl

/-- What one insertion does: the loop ends at the first free slot, where the table puts the entry. -/
theorem Represents.enter (h : Represents m t slots entries) (hc : Chained (2 ^ m) (NameEntry.home m) slots entries)
    (hlt : ∀ e ∈ entries, e.n < 255) {e : NameEntry} (hhash : ∀ a ∈ entries, cliHash a.name ≠ cliHash e.name)
    (hpos : ∀ a ∈ entries, a.n ≠ e.n) (hroom : entries.length < 2 ^ m) :
    Represents m (insertName t e.name e.id e.n) (put (2 ^ m) (NameEntry.home m) slots e) (entries ++ [e]) ∧
      (t.enter e).Ends (insertStops (t.enter e) (cliHash e.name)) (cliHash e.name &&& t.mask) := by
  obtain ⟨d,hd,hfree,hbefore⟩ := hc.first_free hroom (home_lt e)
  have hslot : ∀ j, slotAt (2 ^ m) (e.home m) j < 2 ^ m := slotAt_lt (Nat.two_pow_pos m) _
  have hrow : ∀ a ∈ entries, (t.enter e).table a.n = (cliHash a.name,a.id) := by
    intro a ha
    exact (Function.update_of_ne (hpos a ha) ..).trans (h.table a ha)
  have hstop : insertStops (t.enter e) (cliHash e.name) (slotAt (2 ^ m) (e.home m) d) := by
    left
    exact (h.map _ (hslot d)).trans (by rw [hfree]; rfl)
  have hgoes : ∀ j < d, ¬insertStops (t.enter e) (cliHash e.name) (slotAt (2 ^ m) (e.home m) j) := by
    intro j hj
    obtain ⟨a,ha⟩ := Option.ne_none_iff_exists'.mp (hbefore j hj)
    have hmem := hc.mem _ (hslot j) a ha
    have hat : (t.enter e).map (slotAt (2 ^ m) (e.home m) j) = a.n := (h.map _ (hslot j)).trans (by rw [ha]; rfl)
    unfold insertStops
    rw [hat,hrow a hmem,not_or]
    exact ⟨(hlt a hmem).ne,hhash a hmem⟩
  have hends : freeSlot (t.enter e) (cliHash e.name) (t.mask + 1) (cliHash e.name &&& t.mask) =
      slotAt (2 ^ m) (e.home m) d := by
    have hfuel : d < t.mask + 1 + 0 := by
      rw [h.mask]
      omega
    have hzero := freeSlot_eq (t := t.enter e) h.mask hfuel (Nat.zero_le d) hstop hgoes
    rw [slotAt_zero (home_lt e)] at hzero
    rw [hash_and_mask h.mask e,hzero]
  constructor
  · rw [put_eq (home_lt e) hd hfree hbefore]
    refine ⟨h.mask,fun s hs => ?_,fun a ha => ?_⟩
    · change Function.update t.map (freeSlot (t.enter e) (cliHash e.name) (t.mask + 1) (cliHash e.name &&& t.mask)) e.n s = _
      rw [hends,Function.update_apply,Function.update_apply]
      split
      · rfl
      · exact h.map s hs
    · rcases List.mem_append.mp ha with ha | ha
      · exact hrow a ha
      · rw [List.mem_singleton.mp ha]
        exact Function.update_self ..
  · refine ⟨d,?_⟩
    rw [hash_and_mask h.mask e,iterate_slot (t := t.enter e) h.mask (home_lt e)]
    exact hstop

theorem Represents.foundAt_free (h : Represents m t slots entries) {s : ℕ} (hs : s < 2 ^ m) (hfree : slots s = none)
    (hash : ℕ) : foundAt t hash s = some none := by
  unfold foundAt
  rw [if_pos]
  rw [h.map s hs,hfree]
  rfl

theorem Represents.foundAt_taken (h : Represents m t slots entries)
    (hc : Chained (2 ^ m) (NameEntry.home m) slots entries) (hlt : ∀ e ∈ entries, e.n < 255) {s : ℕ} (hs : s < 2 ^ m)
    {e : NameEntry} (he : slots s = some e) (hash : ℕ) :
    foundAt t hash s = if cliHash e.name = hash then some (some e.id) else none := by
  have hmem := hc.mem s hs e he
  have hat : t.map s = e.n := by
    rw [h.map s hs,he]
    rfl
  have hne : e.n ≠ mapEmpty := (hlt e hmem).ne
  unfold foundAt
  rw [hat,h.table e hmem,if_neg hne]

theorem Represents.findNameId_eq (h : Represents m t slots entries) {str : List UInt8} {d : ℕ} (hd : d < 2 ^ m)
    {r : Option ℕ} (hstop : foundAt t (cliHash str) (slotAt (2 ^ m) (cliHash str % 2 ^ m) d) = some r)
    (hbefore : ∀ j < d, foundAt t (cliHash str) (slotAt (2 ^ m) (cliHash str % 2 ^ m) j) = none) :
    findNameId t str = r := by
  have hhome : cliHash str % 2 ^ m < 2 ^ m := Nat.mod_lt _ (Nat.two_pow_pos m)
  have hfuel : t.mask + 1 + 0 = 2 ^ m := by
    rw [h.mask]
    have := Nat.two_pow_pos m
    omega
  have hfind := findSlot_eq h.mask hhome hd (Nat.zero_le d) hfuel hstop hbefore
  rw [slotAt_zero hhome] at hfind
  have hstart : cliHash str &&& t.mask = cliHash str % 2 ^ m := by rw [h.mask,Nat.and_two_pow_sub_one_eq_mod]
  unfold findNameId
  dsimp only
  rw [hstart]
  exact hfind

theorem Represents.findNameId_some (h : Represents m t slots entries)
    (hc : Chained (2 ^ m) (NameEntry.home m) slots entries) (hlt : ∀ e ∈ entries, e.n < 255)
    (hhash : ∀ a ∈ entries, ∀ b ∈ entries, cliHash a.name = cliHash b.name → a = b) {e : NameEntry} (he : e ∈ entries)
    {str : List UInt8} (hstr : cliHash str = cliHash e.name) : findNameId t str = some e.id := by
  obtain ⟨d,hd,hat,hbefore⟩ := hc.held e he
  have hslot : ∀ j, slotAt (2 ^ m) (e.home m) j < 2 ^ m := slotAt_lt (Nat.two_pow_pos m) _
  apply h.findNameId_eq hd
  · rw [hstr]
    change foundAt t (cliHash e.name) (slotAt (2 ^ m) (e.home m) d) = _
    rw [h.foundAt_taken hc hlt (hslot d) hat,if_pos rfl]
  · intro j hj
    rw [hstr]
    change foundAt t (cliHash e.name) (slotAt (2 ^ m) (e.home m) j) = _
    obtain ⟨a,ha⟩ := Option.ne_none_iff_exists'.mp (hbefore j hj)
    rw [h.foundAt_taken hc hlt (hslot j) ha,if_neg]
    intro heq
    -- The entry is in one slot only, which is not one of those before it.
    rw [hhash a (hc.mem _ (hslot j) a ha) e he heq] at ha
    exact hj.ne (hc.distance_unique (home_lt e) (hj.trans hd) hd ha hat)

theorem Represents.findNameId_none (h : Represents m t slots entries)
    (hc : Chained (2 ^ m) (NameEntry.home m) slots entries) (hlt : ∀ e ∈ entries, e.n < 255)
    (hroom : entries.length < 2 ^ m) {str : List UInt8} (hstr : ∀ e ∈ entries, cliHash str ≠ cliHash e.name) :
    findNameId t str = none := by
  have hhome : cliHash str % 2 ^ m < 2 ^ m := Nat.mod_lt _ (Nat.two_pow_pos m)
  have hslot : ∀ j, slotAt (2 ^ m) (cliHash str % 2 ^ m) j < 2 ^ m := slotAt_lt (Nat.two_pow_pos m) _
  obtain ⟨d,hd,hfree,hbefore⟩ := hc.first_free hroom hhome
  apply h.findNameId_eq hd (h.foundAt_free (hslot d) hfree _)
  intro j hj
  obtain ⟨a,ha⟩ := Option.ne_none_iff_exists'.mp (hbefore j hj)
  rw [h.foundAt_taken hc hlt (hslot j) ha,if_neg]
  exact fun heq => hstr a (hc.mem _ (hslot j) a ha) heq.symm

/-- The loop of `find_name_id` is back where it started after one round at the latest. -/
theorem find_ends (hm : t.mask = 2 ^ m - 1) (str : List UInt8) :
    t.Ends (findStops t (cliHash str) (cliHash str &&& t.mask)) (cliHash str &&& t.mask) := by
  have hhome := and_mask_lt hm (cliHash str)
  refine ⟨2 ^ m - 1,.inr (.inr ?_)⟩
  rw [iterate_slot hm hhome,next_slot hm,Nat.sub_add_cancel (Nat.two_pow_pos m)]
  unfold slotAt
  rw [Nat.add_mod_right,Nat.mod_eq_of_lt hhome]

end Tables

section Runs
variable {m : ℕ} {table : ℕ → ℕ × ℕ} {entries : List NameEntry}

/-- Entries that differ in the hash of their names and in their positions, for half of the map. -/
structure Insertable (m : ℕ) (entries : List NameEntry) : Prop where
  hashes : (entries.map fun e => cliHash e.name).Nodup
  positions : (entries.map NameEntry.n).Nodup
  bound : ∀ e ∈ entries, e.n < 255
  half : 2 * entries.length ≤ 2 ^ m

theorem Insertable.room (h : Insertable m entries) : entries.length < 2 ^ m := by
  have hhalf := h.half
  have hpos := Nat.two_pow_pos m
  omega

theorem Insertable.initial {later : List NameEntry} (h : Insertable m (entries ++ later)) : Insertable m entries := by
  obtain ⟨hhashes,hpositions,hbound,hhalf⟩ := h
  rw [List.map_append] at hhashes hpositions
  rw [List.length_append] at hhalf
  exact ⟨(List.nodup_append.mp hhashes).1,(List.nodup_append.mp hpositions).1,
    fun e he => hbound e (List.mem_append_left _ he),by omega⟩

theorem Insertable.last {e : NameEntry} (h : Insertable m (entries ++ [e])) :
    (∀ a ∈ entries, cliHash a.name ≠ cliHash e.name) ∧ ∀ a ∈ entries, a.n ≠ e.n := by
  obtain ⟨hhashes,hpositions,-,-⟩ := h
  rw [List.map_append] at hhashes hpositions
  constructor
  · intro a ha
    exact (List.nodup_append.mp hhashes).2.2 _ (List.mem_map_of_mem ha) _ (List.mem_singleton_self _)
  · intro a ha
    exact (List.nodup_append.mp hpositions).2.2 _ (List.mem_map_of_mem ha) _ (List.mem_singleton_self _)

theorem Insertable.chained (h : Insertable m entries) :
    Chained (2 ^ m) (NameEntry.home m) (LinearProbe.table (2 ^ m) (NameEntry.home m) entries) entries :=
  chained_table h.positions.of_map (fun e _ => home_lt e) h.room.le

theorem Insertable.represents (h : Insertable m entries) (table : ℕ → ℕ × ℕ) :
    Represents m (insertNames (.emptied table (2 ^ m - 1)) entries)
      (LinearProbe.table (2 ^ m) (NameEntry.home m) entries) entries := by
  induction entries using List.reverseRecOn with
  | nil => exact ⟨rfl,fun _ _ => rfl,by simp⟩
  | append_singleton entries e ih =>
    have hbefore := h.initial
    unfold insertNames
    rw [List.foldl_append,table_snoc]
    exact ((ih hbefore).enter hbefore.chained hbefore.bound h.last.1 h.last.2 hbefore.room).1

theorem Insertable.insert_ends (h : Insertable m entries) {before after : List NameEntry} {e : NameEntry}
    (hsplit : entries = before ++ e :: after) :
    ((insertNames (.emptied table (2 ^ m - 1)) before).enter e).Ends
      (insertStops ((insertNames (.emptied table (2 ^ m - 1)) before).enter e) (cliHash e.name))
      (cliHash e.name &&& (2 ^ m - 1)) := by
  have hsnoc : Insertable m (before ++ [e]) := by
    rw [hsplit,List.append_cons] at h
    exact h.initial
  have hbefore := hsnoc.initial
  have hstep := hbefore.represents table
  have hends := (hstep.enter hbefore.chained hbefore.bound hsnoc.last.1 hsnoc.last.2 hbefore.room).2
  rwa [hstep.mask] at hends

/-- After names with different hashes are inserted, in any order, each is found under every way to
write it, and nothing is found under another hash. Every loop on the way ends. -/
theorem findNameId_insertNames (m : ℕ) (table : ℕ → ℕ × ℕ) (entries : List NameEntry)
    (hhashes : (entries.map fun e => cliHash e.name).Nodup) (hpositions : (entries.map NameEntry.n).Nodup)
    (hbound : ∀ e ∈ entries, e.n < 255) (hhalf : 2 * entries.length ≤ 2 ^ m) :
    (∀ e ∈ entries, ∀ str, SameLetters str e.name →
      findNameId (insertNames (.emptied table (2 ^ m - 1)) entries) str = some e.id) ∧
    (∀ str, (∀ e ∈ entries, cliHash str ≠ cliHash e.name) →
      findNameId (insertNames (.emptied table (2 ^ m - 1)) entries) str = none) ∧
    (∀ before e after, entries = before ++ e :: after →
      ((insertNames (.emptied table (2 ^ m - 1)) before).enter e).Ends
        (insertStops ((insertNames (.emptied table (2 ^ m - 1)) before).enter e) (cliHash e.name))
        (cliHash e.name &&& (2 ^ m - 1))) ∧
    ∀ str, (insertNames (.emptied table (2 ^ m - 1)) entries).Ends
      (findStops (insertNames (.emptied table (2 ^ m - 1)) entries) (cliHash str) (cliHash str &&& (2 ^ m - 1)))
      (cliHash str &&& (2 ^ m - 1)) := by
  have h : Insertable m entries := ⟨hhashes,hpositions,hbound,hhalf⟩
  have hr := h.represents table
  refine ⟨fun e he str hstr => ?_,fun str hstr => ?_,fun before e after hsplit => h.insert_ends hsplit,fun str => ?_⟩
  · refine hr.findNameId_some h.chained h.bound (fun a ha b hb hab => ?_) he hstr.cliHash_eq
    exact List.inj_on_of_nodup_map h.hashes ha hb hab
  · exact hr.findNameId_none h.chained h.bound h.room hstr
  · have hends := find_ends hr.mask str
    rwa [hr.mask] at hends

/-- Two domains in a map of four slots, the second inserted first. -/
theorem findNameId_insertNames_domains :
    findNameId (insertNames (.emptied (fun _ => (0,0)) 3) [⟨ascii "SYS",2,1⟩,⟨ascii "DEV",1,0⟩]) (ascii "dev") = some 1 :=
  (findNameId_insertNames 2 (fun _ => (0,0)) [⟨ascii "SYS",2,1⟩,⟨ascii "DEV",1,0⟩] (by decide +kernel) (by decide)
    (by decide) (by decide)).1 ⟨ascii "DEV",1,0⟩ (by simp) (ascii "dev") (by decide +kernel)

end Runs

end EmbedTemplate.Cli
