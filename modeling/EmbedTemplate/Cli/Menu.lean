import EmbedTemplate.Cli.Dispatch
import EmbedTemplate.Library.Machine
import Mathlib.Algebra.Group.Int.Defs
import Mathlib.Tactic.Common

/-! # The menus of the command line

The handlers of `cli_main.c`, `cli_system.c` and `cli_test.c` that move between the menus.
They share the mode, the test index and the registry pointer, and the names and numbers are
bound globally, so that every handler may be called in every mode. The accesses to
`cli_data.registry` are recorded.
-/
namespace EmbedTemplate.Cli

/-- `cli_mode_e`. -/
inductive Mode where
  | none
  | main
  | pciMode
  | simulation
  | system
  | test
  | testDev
  | testSys
  deriving DecidableEq

/-- `cli_data.mode >= TEST`. -/
def Mode.isTest : Mode → Bool
  | .test | .testDev | .testSys => true
  | _ => false

def maxBlockIndex : ℕ := 5
def maxInfraIndex : ℕ := 2
def testInvalid : ℤ := -1

/-- The CLI test, which has commands injected behind it, or another one. -/
inductive TestFunc where
  | testCli
  | other
  deriving DecidableEq

/-- `test_desc_t`. -/
structure TestDesc where
  func : Option TestFunc
  enabled : Bool
  deriving DecidableEq

/-- `test_registry_t`, a block of a registry. -/
structure TestRegistry where
  tests : List TestDesc
  count : ℕ
  enabled : Bool
  deriving DecidableEq

/-- The two arrays that the registry pointer may point to. -/
inductive Registry where
  | dev
  | sys
  deriving DecidableEq

/-- `dev_test_registry` and `sys_test_registry`, of the sizes that are asserted for them. -/
structure Registries where
  dev : List TestRegistry
  sys : List TestRegistry
  devLength : dev.length = maxBlockIndex
  sysLength : sys.length = maxInfraIndex

def Registries.blocks (regs : Registries) : Registry → List TestRegistry
  | .dev => regs.dev
  | .sys => regs.sys

def Registry.size : Registry → ℕ
  | .dev => maxBlockIndex
  | .sys => maxInfraIndex

theorem Registries.blocks_length (regs : Registries) (registry : Registry) :
    (regs.blocks registry).length = registry.size := by
  cases registry
  · exact regs.devLength
  · exact regs.sysLength

/-- The address of a test: `&registry[block].tests[test]`. -/
structure TestPtr where
  registry : Registry
  block : ℕ
  test : ℕ
  deriving DecidableEq

/-- An access `cli_data.registry[index]`. -/
structure Access where
  registry : Option Registry
  index : ℤ
  deriving DecidableEq

/-- The registry is there and has a block of this index. -/
def Access.Valid (a : Access) : Prop := ∃ registry ∈ a.registry, 0 ≤ a.index ∧ a.index < registry.size

instance (a : Access) : Decidable a.Valid :=
  match h : a.registry with
  | .none => isFalse fun ⟨_,hmem,_⟩ => by rw [h] at hmem; cases hmem
  | .some registry => decidable_of_iff (0 ≤ a.index ∧ a.index < registry.size) (by simp [Access.Valid,h])

/-- The base of the application context: whose bindings the context map selects from. -/
inductive ContextBase where
  | main
  | sim
  | pci
  deriving DecidableEq

/-- `cli_data` with the application context and the accesses made. -/
structure CliData where
  mode : Mode
  test : ℤ
  registry : Option Registry
  cmdRun : Bool
  cliTestRun : Bool
  base : ContextBase
  map : BitVec 16
  accesses : List Access

/-- `get_max_index`. -/
def CliData.getMaxIndex (s : CliData) : ℕ := if s.mode = .testSys then maxInfraIndex else maxBlockIndex

/-- Records an access to `cli_data.registry`. -/
def CliData.touch (s : CliData) (index : ℤ) : CliData := { s with accesses := s.accesses ++ [⟨s.registry,index⟩] }

section Handlers
variable (regs : Registries) (build : Build)

/-- `cli_data.registry[index]`, when there is such a block. -/
def CliData.block (s : CliData) (index : ℤ) : Option TestRegistry :=
  s.registry.bind fun registry => if 0 ≤ index then (regs.blocks registry)[index.toNat]? else none

def showTestMenu (s : CliData) : CliData :=
  let s := { s with map := 0 }
  { s with accesses := s.accesses ++ (List.range s.test.toNat).map fun i => ⟨s.registry,i⟩ }

/-- The test function of an enabled test of the current block is run. -/
def onExecuteTest (s : CliData) (test : TestPtr) : CliData :=
  if s.test ≥ s.getMaxIndex then s
  else
    let block := s.block regs s.test
    let s := s.touch s.test
    match block with
    | none => s
    | some block =>
      if s.registry = some test.registry ∧ s.test = test.block ∧ test.test < block.count then
        match block.tests[test.test]? with
        | some ⟨some func,true⟩ => if func = .testCli then { s with cliTestRun := true } else s
        | _ => s
      else s

def onEnterTests (s : CliData) (index : ℕ) : CliData :=
  if index ≥ s.getMaxIndex then s
  else
    let block := s.block regs index
    let s := s.touch index
    match block with
    | none => s
    | some block => if block.enabled then { s with test := index } else s

def onNumberSelected (s : CliData) (index : ℕ) : CliData :=
  if s.test = s.getMaxIndex then
    if index < s.getMaxIndex then onEnterTests regs s index else s
  else
    let block := s.block regs s.test
    let s := s.touch s.test
    match block, s.registry with
    | some block, some registry =>
      if index < block.count then onExecuteTest regs s ⟨registry,s.test.toNat,index⟩ else s
    | _, _ => s

def onDevTestMenu (s : CliData) : CliData :=
  showTestMenu { s with mode := .testDev, test := maxBlockIndex, registry := some .dev }

def onSysTestMenu (s : CliData) : CliData :=
  showTestMenu { s with mode := .testSys, test := maxInfraIndex, registry := some .sys }

def showTestSelectMenu (s : CliData) : CliData := { s with test := testInvalid, map := 0xC }

def onTestMenu (s : CliData) : CliData := showTestSelectMenu { s with mode := .test, test := testInvalid }

def showMainMenu (s : CliData) : CliData := { s with base := .main, map := 0x3 }
def showMainSysMenu (s : CliData) : CliData := { s with map := 0 }
def onSystemMenu (s : CliData) : CliData := showMainSysMenu { s with mode := .system, test := maxBlockIndex }

def onSimMenu (s : CliData) : CliData := { s with mode := .simulation, test := maxBlockIndex, base := .sim, map := 0xF }

/-- The map of the PCI menu depends on whether it can be started and stopped. -/
def onStartPci (s : CliData) : CliData :=
  { s with mode := .pciMode, test := maxBlockIndex, base := .pci, map := if build.rtos then 0x7 else 0x1 }

def onBack (s : CliData) : CliData :=
  if s.mode = .testDev ∧ s.test ≠ maxBlockIndex then showTestMenu { s with test := maxBlockIndex }
  else if s.mode = .testSys ∧ s.test ≠ maxInfraIndex then showTestMenu { s with test := maxInfraIndex }
  else if s.mode = .testDev ∨ s.mode = .testSys then showTestSelectMenu { s with mode := .test }
  else if s.mode = .pciMode ∨ s.mode = .simulation then showMainSysMenu { s with mode := .system }
  else showMainMenu { s with mode := .main }

/-- `cmd_in_test_mode`, called by the commands that are available in every menu. -/
def cmdInTestMode (s : CliData) : CliData := if s.mode.isTest then { s with cmdRun := true } else s

/-- A command line: the name of a menu, of a block with the index that its binding has, or of
a test, a number less one, a command available in every menu, or anything else. -/
inductive Command where
  | test
  | dev
  | sys
  | system
  | sim
  | pci
  | block (index : ℕ)
  | testName (test : TestPtr)
  | number (index : ℕ)
  | back
  | universal
  | other

/-- The handler that a command name is bound to. The test menu is bound in the main menu only. -/
def parseCommand (s : CliData) : Command → CliData
  | .test => if s.base = .main ∧ s.map.getLsbD 1 = true then onTestMenu s else s
  | .dev => onDevTestMenu s
  | .sys => onSysTestMenu s
  | .system => onSystemMenu s
  | .sim => if build.rtos && build.sim then onSimMenu s else s
  | .pci => if build.pci then onStartPci build s else s
  | .block index => onEnterTests regs s index
  | .testName test => onExecuteTest regs s test
  | .number index => onNumberSelected regs s index
  | .back => onBack s
  | .universal => cmdInTestMode s
  | .other => s

/-- The injected commands are available in every menu. -/
def runCliTests (s : CliData) : CliData := if s.cliTestRun then { cmdInTestMode s with cliTestRun := false } else s

/-- `(uintptr_t)`. -/
def uintptr (x : ℤ) : ℕ := (x % 2 ^ 32).toNat

/-- A command line in a test menu; a menu that is still the same is shown again. -/
def cliRunTest (s : CliData) (command : Command) : CliData :=
  let t := runCliTests (parseCommand regs build { s with cmdRun := false } command)
  if t.cmdRun then { t with cmdRun := false }
  else if s.mode = t.mode ∧ s.test = t.test then
    if t.mode = .test then showTestSelectMenu t
    else if t.test = t.getMaxIndex then showTestMenu t
    else onEnterTests regs t (uintptr t.test)
  else t

/-- What the enter key makes of a command line. -/
def cliRun (s : CliData) (command : Command) : CliData :=
  if s.mode.isTest then cliRunTest regs build s command else parseCommand regs build s command

end Handlers

/-- The state at boot, with the main menu shown. -/
def boot : CliData := showMainMenu ⟨.main,maxBlockIndex,none,false,false,.main,0,[]⟩

/-- The command lines typed from boot. -/
def session (regs : Registries) (build : Build) (commands : List Command) : CliData :=
  commands.foldl (cliRun regs build) boot

end EmbedTemplate.Cli
