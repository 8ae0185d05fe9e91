import EmbedTemplate.Cli.Dispatch

/-! # The names of the log

Domains, entities and levels under their names: the tables of hashes that `cli_log_cmd_init`
fills, the lookup of a name, and the validation of the arguments of `set log`.
-/
namespace EmbedTemplate.Cli
open Bytes

section Names

/-- `NUM_DOMAINS`, `NUM_ENTITIES` -/
def numDomains : ℕ := 4
def numEntities : ℕ := 9

/-- `level_id` -/
def levelId : List ℕ := [0,10,20,30,40,50]

def entityName (entity : ℕ) (cap : Bool) : List UInt8 :=
  match entity with
  | 0 => if cap then ascii "" else ascii "none"
  | 1 => if cap then ascii "SIM" else ascii "sim"
  | 2 => if cap then ascii "CLI" else ascii "cli"
  | 3 => if cap then ascii "LOG" else ascii "log"
  | 4 => if cap then ascii "GPIO" else ascii "gpio"
  | 5 => if cap then ascii "PCI" else ascii "pci"
  | 6 => if cap then ascii "SYSCTRL" else ascii "sysctrl"
  | 7 => if cap then ascii "TIMER" else ascii "timer"
  | 8 => if cap then ascii "UART" else ascii "uart"
  | _ => ascii ""

def domainName (domain : ℕ) (cap : Bool) : List UInt8 :=
  match domain with
  | 1 => if cap then ascii "DEV" else ascii "dev"
  | 2 => if cap then ascii "SYS" else ascii "sys"
  | 3 => if cap then ascii "TEST" else ascii "test"
  | _ => ascii ""

def levelName (level : ℕ) (cap : Bool) : List UInt8 :=
  match level with
  | 0 => if cap then ascii "NONE" else ascii "none"
  | 10 => if cap then ascii "CRITICAL" else ascii "critical"
  | 20 => if cap then ascii "ERROR" else ascii "error"
  | 30 => if cap then ascii "WARN" else ascii "warn"
  | 40 => if cap then ascii "INFO" else ascii "info"
  | 50 => if cap then ascii "DEBUG" else ascii "debug"
  | _ => ascii ""

variable (f : Build)

/-- `dom_map_en`, the domains without `DOMAIN_TEST` where there are no tests -/
def domMapEn : ℕ := if f.test then 2 ^ numDomains - 1 else 2 ^ numDomains - 1 - 2 ^ 3

/-- `ent_map_en`, the entities without `ENTITY_SIM` where there is no operating system -/
def entMapEn : ℕ := if f.rtos then 2 ^ numEntities - 1 else 2 ^ numEntities - 1 - 2 ^ 1

def setLogValidate : ArgsValidate := fun token pos =>
  if (pos = 2 ∨ pos = 3) ∧ token = ascii "all" then true
  else if pos = 2 then
    (List.range' 1 (numDomains - 1)).any fun did => (domMapEn f).testBit did && token == domainName did false
  else if pos = 3 then (List.range numEntities).any fun eid => (entMapEn f).testBit eid && token == entityName eid false
  else if pos = 4 then levelId.any fun level => token == levelName level false
  else false

end Names

section Hash

def capital (c : ℕ) : ℕ := if 97 ≤ c ∧ c ≤ 122 then c - 32 else c

def cliHash (str : List UInt8) : ℕ := str.foldl (fun hash c => u32 (u32 (hash * 2 ^ 5) + hash + capital c.toNat)) 5381

/-- `MAP_EMPTY` -/
def mapEmpty : ℕ := 0xFF

/-- A map of slots into a table of hashes and ids. -/
structure NameMap where
  map : ℕ → ℕ
  table : ℕ → ℕ × ℕ
  mask : ℕ

def NameMap.new (mask : ℕ) : NameMap := ⟨fun _ => mapEmpty,fun _ => (0,0),mask⟩

variable (t : NameMap)

/-- The loop of `do_insert` to a slot that is empty or has the same hash, within all slots. -/
def freeSlot (hash : ℕ) : ℕ → ℕ → ℕ
  | 0, slot => slot
  | fuel + 1, slot =>
    if t.map slot = mapEmpty ∨ (t.table (t.map slot)).1 = hash then slot else freeSlot hash fuel ((slot + 1) &&& t.mask)

def insertName (name : List UInt8) (id n : ℕ) : NameMap :=
  let hash := cliHash name
  let t := { t with table := Function.update t.table n (hash,id) }
  { t with map := Function.update t.map (freeSlot t hash (t.mask + 1) (hash &&& t.mask)) n }

/-- The loop of `find_name_id` until it is back where it started. -/
def findSlot (hash start : ℕ) : ℕ → ℕ → Option ℕ
  | 0, _ => none
  | fuel + 1, slot =>
    if t.map slot = mapEmpty then none
    else if (t.table (t.map slot)).1 = hash then some (t.table (t.map slot)).2
    else
      let slot := (slot + 1) &&& t.mask
      if slot = start then none else findSlot hash start fuel slot

def findNameId (name : List UInt8) : Option ℕ :=
  let hash := cliHash name
  let slot := hash &&& t.mask
  findSlot t hash slot (t.mask + 1) slot

variable (f : Build)

/-- `cli_log_cmd_init` -/
def domainMap : NameMap :=
  (List.range' 1 (numDomains - 1)).foldl
    (fun t did => if (domMapEn f).testBit did then insertName t (domainName did true) did (did - 1) else t) (.new 7)

def entityMap : NameMap :=
  (List.range numEntities).foldl
    (fun t eid => if (entMapEn f).testBit eid then insertName t (entityName eid true) eid eid else t) (.new 31)

def levelMap : NameMap :=
  levelId.zipIdx.foldl (fun t (level,i) => insertName t (levelName level true) level i) (.new 15)

theorem findNameId_level : ∀ level ∈ levelId, findNameId levelMap (levelName level false) = some level := by
  decide +kernel

theorem findNameId_domain : ∀ did ∈ List.range' 1 (numDomains - 1), (domMapEn f).testBit did = true →
    findNameId (domainMap f) (domainName did false) = some did := by
  have hall : ∀ test, ∀ did ∈ List.range' 1 (numDomains - 1),
      (domMapEn ⟨false,false,test,false,false⟩).testBit did = true → findNameId (domainMap ⟨false,false,test,false,false⟩)
        (domainName did false) = some did := by decide +kernel
  exact hall f.test

/-- The entity without a name is not found under the one that it has. -/
theorem findNameId_entity : ∀ eid ∈ List.range numEntities, (entMapEn f).testBit eid = true →
    findNameId (entityMap f) (entityName eid false) = if eid = 0 then none else some eid := by
  have hall : ∀ rtos, ∀ eid ∈ List.range numEntities,
      (entMapEn ⟨rtos,false,false,false,false⟩).testBit eid = true →
        findNameId (entityMap ⟨rtos,false,false,false,false⟩) (entityName eid false) =
          if eid = 0 then none else some eid := by decide +kernel
  exact hall f.rtos

end Hash

end EmbedTemplate.Cli
