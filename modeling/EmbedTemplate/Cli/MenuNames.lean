import EmbedTemplate.Cli.MenuSafety

/-! # Selection by name

Every block and every test of both registries is bound under its name from the start, but
the binding of a block carries its index only. What the menu region shows is followed here
beside the state, to compare it with the block that the handlers take for the current one.
-/
namespace EmbedTemplate.Cli
open Machine

/-- A block: `&registry[index]`. -/
structure BlockPtr where
  registry : Registry
  index : ℕ
  deriving DecidableEq

/-- What the menu region shows: a menu without tests, or the tests of a block. -/
inductive Screen where
  | menu
  | tests (block : BlockPtr)
  deriving DecidableEq

def Screen.of : Option BlockPtr → Screen
  | none => .menu
  | some block => .tests block

/-- `&cli_data.registry[cli_data.test]`, when there is such a block. -/
def CliData.current (s : CliData) : Option BlockPtr :=
  s.registry.bind fun registry => if 0 ≤ s.test ∧ s.test < registry.size then some ⟨registry,s.test.toNat⟩ else none

instance (s : CliData) : Decidable s.inTestMenu := inferInstanceAs (Decidable (_ ∨ _))

section Handlers
variable (regs : Registries) (build : Build)

/-- The block that `on_enter_tests` shows and makes the current one. -/
def entered (s : CliData) (index : ℕ) : Option BlockPtr :=
  if index ≥ s.getMaxIndex then none
  else (s.block regs index).bind fun block =>
    if block.enabled then s.registry.map fun registry => ⟨registry,index⟩ else none

/-- The function that `on_execute_test` calls. -/
def executed (s : CliData) (test : TestPtr) : Option TestFunc :=
  if s.test ≥ s.getMaxIndex then none
  else (s.block regs s.test).bind fun block =>
    if s.registry = some test.registry ∧ s.test = test.block ∧ test.test < block.count then
      block.tests[test.test]?.bind fun desc => if desc.enabled then desc.func else none
    else none

/-- The test that `on_number_selected` hands to `on_execute_test`. -/
def numbered (s : CliData) (index : ℕ) : Option TestPtr :=
  if s.test = s.getMaxIndex then none
  else (s.block regs s.test).bind fun block =>
    if index < block.count then s.registry.map fun registry => ⟨registry,s.test.toNat,index⟩ else none

/-- The test that a command runs. -/
def ran (s : CliData) : Command → Option TestPtr
  | .testName test => (some test).filter fun test => (executed regs s test).isSome
  | .number index => (numbered regs s index).filter fun test => (executed regs s test).isSome
  | _ => none

/-- What the handler of a command shows. -/
def drawn (s : CliData) : Command → Option Screen
  | .test => if s.base = .main ∧ s.map.getLsbD 1 = true then some .menu else none
  | .dev | .sys | .system | .back => some .menu
  | .sim => if build.rtos && build.sim then some .menu else none
  | .pci => if build.pci then some .menu else none
  | .block index => (entered regs s index).map .tests
  | .number index => if s.test = s.getMaxIndex then (entered regs s index).map .tests else none
  | .testName _ | .universal | .other => none

/-- What `cli_run_test` shows when the menu is still the same. -/
def drawnAgain (s : CliData) : Option Screen :=
  if s.mode = .test then some .menu
  else if s.test = s.getMaxIndex then some .menu
  else (entered regs s (uintptr s.test)).map .tests

/-- What is shown in the end. -/
def cliRunDrawn (s : CliData) (command : Command) : Option Screen :=
  if s.mode.isTest then
    let t := runCliTests (parseCommand regs build { s with cmdRun := false } command)
    (if ¬t.cmdRun ∧ s.mode = t.mode ∧ s.test = t.test then drawnAgain regs t else none).or (drawn regs build s command)
  else drawn regs build s command

/-- Outside of the device and the system test menu `back` opens another menu and keeps the
current block. -/
def leaves (s : CliData) : Command → Bool
  | .back => decide ¬s.inTestMenu && s.current.isSome
  | _ => false

/-- The state with what is shown, and whether that is a menu that `back` has opened while a
block was current. -/
structure View where
  data : CliData
  screen : Screen
  left : Bool

def View.run (v : View) (command : Command) : View :=
  match cliRunDrawn regs build v.data command with
  | some screen => ⟨cliRun regs build v.data command,screen,leaves v.data command⟩
  | none => ⟨cliRun regs build v.data command,v.screen,v.left⟩

end Handlers

def bootView : View := ⟨boot,.menu,false⟩

/-- The names of the blocks and the tests, of the commands that are available in every menu, and
how many numbers there are. -/
structure Labels where
  block : Registry → ℕ → String
  test : TestPtr → String
  universal : List String
  numbers : ℕ

def indexStr : List String :=
  ["1","2","3","4","5","6","7","8","9","10","11","12","13","14","15","16","17","18","19","20"]

section Bindings
variable (regs : Registries) (labels : Labels)

def setTestRegistryBindings (registry : Registry) : List (String × Command) :=
  (regs.blocks registry).zipIdx.flatMap fun reg =>
    (labels.block registry reg.2,.block reg.2) ::
      (List.range reg.1.count).map fun j => (labels.test ⟨registry,reg.2,j⟩,.testName ⟨registry,reg.2,j⟩)

def setTestCommands : List (String × Command) :=
  [("test",.test),("dev",.dev),("sys",.sys)] ++ setTestRegistryBindings regs labels .dev ++
    setTestRegistryBindings regs labels .sys ++
    (indexStr.take labels.numbers).zipIdx.map fun index => (index.1,.number index.2)

def setSystemCommands : List (String × Command) :=
  labels.universal.map (·,.universal) ++ [("sim",.sim),("pci",.pci)]

def setMainCommands : List (String × Command) := [("back",.back),("system",.system)]

/-- All bindings, in the order of `cli_init`. -/
def bindings : List (String × Command) :=
  setTestCommands regs labels ++ setSystemCommands labels ++ setMainCommands

/-- The command that a name is bound to. -/
def findBinding (name : String) : Command := ((bindings regs labels).lookup name).getD .other

end Bindings

/-- Names without duplicates, as `cli_init` asserts. -/
structure Names (regs : Registries) extends Labels where
  distinct : ((bindings regs toLabels).map Prod.fst).Nodup

section Shown
variable (regs : Registries) (build : Build) {s : CliData}

theorem block_eq_some {index : ℤ} {block : TestRegistry} (h : s.block regs index = some block) :
    ∃ registry, s.registry = some registry ∧ 0 ≤ index ∧ index < registry.size := by
  obtain ⟨registry,hregistry,hblock⟩ := Option.bind_eq_some_iff.mp h
  split at hblock
  · rename_i hlow
    have hlt := (List.getElem?_eq_some_iff.mp hblock).1
    rw [regs.blocks_length] at hlt
    exact ⟨registry,hregistry,hlow,by omega⟩
  · cases hblock

theorem current_eq_some_iff {block : BlockPtr} : s.current = some block ↔
    s.registry = some block.registry ∧ s.test = block.index ∧ block.index < block.registry.size := by
  rw [CliData.current,Option.bind_eq_some_iff]
  constructor
  · rintro ⟨registry,hregistry,hblock⟩
    split at hblock
    · rename_i hrange
      cases hblock
      exact ⟨hregistry,by simp only; omega,by simp only; omega⟩
    · cases hblock
  · rintro ⟨hregistry,htest,hlt⟩
    refine ⟨block.registry,hregistry,?_⟩
    rw [htest,if_pos ⟨by omega,by omega⟩,Int.toNat_natCast]

theorem current_none (h : s.test < 0 ∨ ∀ registry, s.registry = some registry → registry.size ≤ s.test) :
    s.current = none := by
  rw [Option.eq_none_iff_forall_ne_some]
  intro block hblock
  obtain ⟨hregistry,htest,hlt⟩ := current_eq_some_iff.mp hblock
  obtain hneg | htop := h
  · omega
  · have hle := htop block.registry hregistry
    omega

theorem Registry.size_le (registry : Registry) : registry.size ≤ maxBlockIndex := by
  cases registry <;> decide

/-- The sentinel of the device registry is past every registry. -/
theorem current_top (h : s.test = maxBlockIndex) : s.current = none :=
  current_none (.inr fun registry _ => h ▸ by exact_mod_cast registry.size_le)

theorem current_invalid (h : s.test = testInvalid) : s.current = none := current_none (.inl (h ▸ by decide))

theorem Stays.current {t : CliData} (h : Stays s t) : t.current = s.current := by
  rw [CliData.current,CliData.current,h.test,h.registry]

theorem entered_some {index : ℕ} {block : BlockPtr} (h : entered regs s index = some block) :
    s.registry = some block.registry ∧ block.index = index ∧ index < block.registry.size ∧
      (onEnterTests regs s index).current = some block := by
  rw [entered] at h
  rw [onEnterTests]
  split at h
  · cases h
  · rename_i hmax
    obtain ⟨found,hfound,hmap⟩ := Option.bind_eq_some_iff.mp h
    split at hmap
    · rename_i henabled
      obtain ⟨registry,hregistry,rfl⟩ := Option.map_eq_some_iff.mp hmap
      obtain ⟨registry',hregistry',_,hlt⟩ := block_eq_some regs hfound
      obtain rfl : registry = registry' := Option.some.inj (hregistry.symm.trans hregistry')
      have hsize : index < registry.size := by omega
      refine ⟨hregistry,rfl,hsize,current_eq_some_iff.mpr ?_⟩
      simp only [if_neg hmax,hfound,henabled,if_true]
      exact ⟨hregistry,trivial,hsize⟩
    · cases hmap

theorem entered_none {index : ℕ} (h : entered regs s index = none) : Stays s (onEnterTests regs s index) := by
  rw [entered] at h
  rw [onEnterTests]
  split at h
  · rename_i hmax
    rw [if_pos hmax]
    exact ⟨rfl,rfl,rfl⟩
  · rename_i hmax
    simp only [if_neg hmax]
    cases hfound : s.block regs index with
    | none => exact ⟨rfl,rfl,rfl⟩
    | some block =>
      obtain ⟨registry,hregistry,_⟩ := block_eq_some regs hfound
      rw [hfound,Option.bind_some,hregistry] at h
      cases henabled : block.enabled with
      | false =>
        simp only [henabled,Bool.false_eq_true,if_false]
        exact ⟨rfl,rfl,rfl⟩
      | true =>
        rw [henabled] at h
        cases h

theorem executed_current {test : TestPtr} (h : (executed regs s test).isSome) :
    s.current = some ⟨test.registry,test.block⟩ := by
  rw [executed] at h
  split at h
  · cases h
  · cases hfound : s.block regs s.test with
    | none =>
      rw [hfound] at h
      cases h
    | some block =>
      rw [hfound,Option.bind_some] at h
      split at h
      · rename_i hbelongs
        obtain ⟨registry,hregistry,_,hlt⟩ := block_eq_some regs hfound
        obtain rfl : registry = test.registry := Option.some.inj (hregistry.symm.trans hbelongs.1)
        exact current_eq_some_iff.mpr ⟨hregistry,hbelongs.2.1,by simp only; omega⟩
      · cases h

theorem ran_current {command : Command} {test : TestPtr} (h : ran regs s command = some test) :
    s.current = some ⟨test.registry,test.block⟩ := by
  cases command with
  | testName test' =>
    rw [ran,Option.filter_eq_some_iff] at h
    exact executed_current regs h.2
  | number index =>
    rw [ran,Option.filter_eq_some_iff] at h
    exact executed_current regs h.2
  | _ => cases h

/-- What a step shows is what is current then, unless it leaves a block. Where it shows nothing
the current block is the same. -/
def Shows (s t : CliData) (shown : Option Screen) (left : Bool) : Prop :=
  match shown with
  | some screen => screen = if left then .menu else .of t.current
  | none => t.current = s.current

theorem onEnterTests_shows (index : ℕ) :
    Shows s (onEnterTests regs s index) ((entered regs s index).map .tests) false := by
  cases h : entered regs s index with
  | none => exact (entered_none regs h).current
  | some block =>
    rw [Option.map_some,Shows,(entered_some regs h).2.2.2]
    rfl

theorem shows_menu {t : CliData} (h : t.current = none) : Shows s t (some .menu) false := by
  rw [Shows,h]
  rfl

theorem onBack_shows (h : Coherent s) : Shows s (onBack s) (some .menu) (leaves s .back) := by
  have hmenu (hin : s.inTestMenu) (ht : (onBack s).current = none) :
      Shows s (onBack s) (some .menu) (leaves s .back) := by
    rw [leaves,decide_eq_false (not_not.mpr hin)]
    exact shows_menu ht
  by_cases hdev : s.mode = .testDev ∧ s.test ≠ maxBlockIndex
  · refine hmenu (.inl hdev.1) ?_
    rw [onBack,if_pos hdev]
    exact current_top rfl
  · by_cases hsys : s.mode = .testSys ∧ s.test ≠ maxInfraIndex
    · refine hmenu (.inr hsys.1) ?_
      rw [onBack,if_neg hdev,if_pos hsys]
      refine current_none (.inr fun registry hregistry => ?_)
      obtain rfl : registry = .sys := Option.some.inj (hregistry.symm.trans (h.sys hsys.1).1)
      exact Int.le_refl _
    · by_cases hin : s.mode = .testDev ∨ s.mode = .testSys
      · refine hmenu hin ?_
        rw [onBack,if_neg hdev,if_neg hsys,if_pos hin]
        exact current_invalid rfl
      · have hcurrent : (onBack s).current = s.current := by
          rw [onBack,if_neg hdev,if_neg hsys,if_neg hin]
          split <;> rfl
        have hout : ¬s.inTestMenu := hin
        rw [leaves,Shows,decide_eq_true hout,Bool.true_and,hcurrent]
        cases s.current <;> rfl

theorem parseCommand_shows (h : Coherent s) (command : Command) :
    Shows s (parseCommand regs build s command) (drawn regs build s command) (leaves s command) := by
  cases command with
  | test =>
    simp only [drawn,parseCommand]
    split
    · exact shows_menu (current_invalid rfl)
    · rfl
  | dev => exact shows_menu (current_top rfl)
  | sys => exact shows_menu (current_none (.inr fun registry hregistry => by cases hregistry; exact Int.le_refl _))
  | system => exact shows_menu (current_top rfl)
  | sim =>
    simp only [drawn,parseCommand]
    split
    · exact shows_menu (current_top rfl)
    · rfl
  | pci =>
    simp only [drawn,parseCommand]
    split
    · exact shows_menu (current_top rfl)
    · rfl
  | block index => exact onEnterTests_shows regs index
  | testName test => exact (onExecuteTest_spec regs test).1.current
  | number index =>
    simp only [drawn,parseCommand,onNumberSelected]
    by_cases htop : s.test = s.getMaxIndex
    · rw [if_pos htop,if_pos htop]
      by_cases hindex : index < s.getMaxIndex
      · rw [if_pos hindex]
        exact onEnterTests_shows regs index
      · rw [if_neg hindex,entered,if_pos (Nat.le_of_not_lt hindex)]
        rfl
    · rw [if_neg htop,if_neg htop]
      have htouch : Stays s (s.touch s.test) := ⟨rfl,rfl,rfl⟩
      split
      · split
        · exact (onExecuteTest_spec regs _).1.current.trans htouch.current
        · exact htouch.current
      · exact htouch.current
  | back => exact onBack_shows h
  | universal =>
    simp only [drawn,parseCommand,cmdInTestMode]
    split <;> rfl
  | other => rfl

theorem Shows.again {t u : CliData} {shown again : Option Screen} {left : Bool} (h : Shows s t shown left)
    (hagain : Shows t u again false) (hleft : again.isSome → left = false) : Shows s u (again.or shown) left := by
  cases again with
  | none =>
    have hcurrent : u.current = t.current := hagain
    rw [Option.none_or]
    unfold Shows at h ⊢
    rw [hcurrent]
    exact h
  | some screen =>
    rw [hleft rfl,Option.some_or]
    exact hagain

theorem Shows.stays {t u : CliData} {shown : Option Screen} {left : Bool} (h : Shows s t shown left) (hs : Stays t u) :
    Shows s u shown left := by
  unfold Shows at h ⊢
  rw [hs.current]
  exact h

theorem drawnAgain_shows (h : Coherent s) (hmode : s.mode.isTest = true) : Shows s
    (if s.mode = .test then showTestSelectMenu s
      else if s.test = s.getMaxIndex then showTestMenu s else onEnterTests regs s (uintptr s.test))
    (drawnAgain regs s) false := by
  unfold drawnAgain
  split
  · exact shows_menu (current_invalid rfl)
  · rename_i htest
    split
    · rename_i htop
      refine shows_menu (current_none (.inr fun registry hregistry => ?_))
      obtain ⟨_,registry',hregistry',hmax,_⟩ | ⟨hmenu,_⟩ := h.cases
      · obtain rfl : registry = registry' := Option.some.inj (hregistry.symm.trans hregistry')
        exact Int.le_of_eq (by rw [← hmax]; exact htop.symm)
      · refine absurd ?_ hmenu
        unfold CliData.inTestMenu
        revert hmode htest
        cases s.mode <;> simp [Mode.isTest]
    · exact onEnterTests_shows regs _

theorem leaves_same {command : Command} (hmode : s.mode.isTest = true)
    (hsame : s.mode = (parseCommand regs build { s with cmdRun := false } command).mode) :
    leaves s command = false := by
  cases command with
  | back =>
    by_cases hin : s.inTestMenu
    · rw [leaves,decide_eq_false (not_not.mpr hin)]
      rfl
    · rw [CliData.inTestMenu,not_or] at hin
      have htest : s.mode = .test := by
        revert hmode hin
        cases s.mode <;> simp [Mode.isTest]
      simp [parseCommand,onBack,htest,showMainMenu] at hsame
  | _ => rfl

theorem cliRun_shows (h : Coherent s) (command : Command) :
    Shows s (cliRun regs build s command) (cliRunDrawn regs build s command) (leaves s command) := by
  unfold cliRun cliRunDrawn
  by_cases hmode : s.mode.isTest = true
  · rw [if_pos hmode,if_pos hmode,cliRunTest]
    have hcleared : Coherent { s with cmdRun := false } := h.stays ⟨rfl,rfl,rfl⟩
    have hparsed := parseCommand_shows regs build hcleared command
    have hstays := (runCliTests_stays (parseCommand regs build { s with cmdRun := false } command)).1
    have hcoherent := (parseCommand_moves regs build hcleared command).coherent.stays hstays
    have hshows : Shows s (runCliTests (parseCommand regs build { s with cmdRun := false } command))
        (drawn regs build s command) (leaves s command) := by
      have hagain := hparsed.stays hstays
      cases command <;> exact hagain
    have hsame (hs : s.mode = (runCliTests (parseCommand regs build { s with cmdRun := false } command)).mode) :=
      leaves_same regs build hmode (hs.trans hstays.mode)
    revert hshows hcoherent hsame
    generalize runCliTests (parseCommand regs build { s with cmdRun := false } command) = t
    intro hcoherent hshows hsame
    simp only
    by_cases hrun : t.cmdRun = true
    · rw [if_pos hrun,if_neg (fun hc => hc.1 hrun),Option.none_or]
      exact hshows.stays ⟨rfl,rfl,rfl⟩
    · rw [if_neg hrun]
      by_cases hstill : s.mode = t.mode ∧ s.test = t.test
      · have hagain : ¬t.cmdRun = true ∧ s.mode = t.mode ∧ s.test = t.test := ⟨hrun,hstill⟩
        rw [if_pos hstill,if_pos hagain]
        exact hshows.again (drawnAgain_shows regs hcoherent (hstill.1 ▸ hmode)) fun _ => hsame hstill.1
      · rw [if_neg hstill,if_neg (fun hc => hstill hc.2),Option.none_or]
        exact hshows
  · rw [if_neg hmode,if_neg hmode]
    exact parseCommand_shows regs build h command

/-- The menu region shows the current block, if there is one, unless it was left. -/
structure View.Faithful (v : View) : Prop where
  coherent : Coherent v.data
  screen : v.screen = if v.left then .menu else .of v.data.current

theorem View.Faithful.run {v : View} (h : v.Faithful) (command : Command) : (v.run regs build command).Faithful := by
  have hcoherent := (cliRun_moves regs build h.coherent command).coherent
  have hshows := cliRun_shows regs build h.coherent command
  unfold View.run
  revert hshows
  cases cliRunDrawn regs build v.data command with
  | none =>
    intro hshows
    refine ⟨hcoherent,?_⟩
    simp only
    rw [show (cliRun regs build v.data command).current = v.data.current from hshows]
    exact h.screen
  | some screen => exact fun hshows => ⟨hcoherent,hshows⟩

end Shown

section Lookup
variable {regs : Registries} (names : Names regs)

theorem Names.findBinding_eq {name : String} {command : Command}
    (h : (name,command) ∈ bindings regs names.toLabels) : findBinding regs names.toLabels name = command := by
  obtain ⟨front,back,hsplit⟩ := List.append_of_mem h
  have hdistinct := names.distinct
  rw [hsplit,List.map_append,List.map_cons,List.nodup_append] at hdistinct
  have hlookup : (bindings regs names.toLabels).lookup name = some command := by
    refine List.lookup_eq_some_iff.mpr ⟨front,back,hsplit,fun p hp => bne_iff_ne.mpr fun heq => ?_⟩
    exact hdistinct.2.2 p.1 (List.mem_map_of_mem hp) name (List.mem_cons_self ..) heq.symm
  rw [findBinding,hlookup]
  rfl

theorem Names.findBinding_block {registry : Registry} {index : ℕ} (h : index < registry.size) :
    findBinding regs names.toLabels (names.block registry index) = .block index := by
  apply names.findBinding_eq
  have hlt : index < (regs.blocks registry).length := (regs.blocks_length registry).symm ▸ h
  have hmem : (names.block registry index,Command.block index) ∈ setTestRegistryBindings regs names.toLabels registry :=
    List.mem_flatMap.mpr ⟨((regs.blocks registry)[index],index),
      List.mem_zipIdx_iff_getElem?.mpr (List.getElem?_eq_getElem hlt),List.mem_cons_self ..⟩
  unfold bindings setTestCommands
  cases registry <;> simp only [List.mem_append,hmem,true_or,or_true]

end Lookup

section Selection
variable {regs : Registries} (build : Build) (names : Names regs)

/-- The command that a line calls. The line is taken whole as a name; arguments behind it are left out. -/
def Names.command (line : String) : Command := findBinding regs names.toLabels line

/-- A command line is entered. -/
def Names.enter (v : View) (line : String) : Option View := some (v.run regs build (names.command line))

/-- Only blocks that there are are looked at, the name of a block that changes the current block
enters the block of that name, and a test that is run is one of the block that is shown. -/
@[mk_iff] structure MeansNamed (v : View) (line : String) : Prop where
  valid : ∀ a ∈ (cliRun regs build v.data (names.command line)).accesses.drop v.data.accesses.length, a.Valid
  block : ∀ registry index, index < registry.size → line = names.block registry index →
    (parseCommand regs build v.data (names.command line)).current ≠ v.data.current →
      (parseCommand regs build v.data (names.command line)).current = some ⟨registry,index⟩
  test : ∀ test, ran regs v.data (names.command line) = some test → v.screen = .tests ⟨test.registry,test.block⟩

/-- The command selects a block that is there. The name of a block is typed where its own
registry is selected, or where its index is the current one already or is refused. No test of
a block is typed in a menu that `back` has opened while the block was current. -/
@[mk_iff] structure Unmistaken (v : View) (line : String) : Prop where
  selectable : Selectable v.data (names.command line)
  block : ∀ registry index, index < registry.size → line = names.block registry index →
    v.data.registry = some registry ∨ v.data.test = index ∨ v.data.getMaxIndex ≤ index ∨
      ∀ block ∈ v.data.block regs index, block.enabled = false
  test : v.left = true → ran regs v.data (names.command line) = none

variable {v : View}

variable (regs) in
theorem valid_iff_selectable (h : Coherent v.data) (command : Command) :
    (∀ a ∈ (cliRun regs build v.data command).accesses.drop v.data.accesses.length, a.Valid) ↔
      Selectable v.data command := by
  obtain ⟨added,hadded,hiff⟩ := (cliRun_moves regs build h command).adds
  rw [hadded,List.drop_left]
  exact hiff

/-- A block is refused when its index is too high or it is disabled. -/
theorem entered_none_iff {s : CliData} {index : ℕ} : entered regs s index = none ↔
    s.getMaxIndex ≤ index ∨ ∀ block ∈ s.block regs index, block.enabled = false := by
  rw [entered]
  by_cases hmax : s.getMaxIndex ≤ index
  · rw [if_pos hmax]
    exact iff_of_true rfl (.inl hmax)
  · rw [if_neg hmax,or_iff_right hmax]
    cases hfound : s.block regs index with
    | none => exact iff_of_true rfl fun block hmem => by cases hmem
    | some block =>
      obtain ⟨registry,hregistry,_⟩ := block_eq_some regs hfound
      rw [Option.bind_some,hregistry]
      cases henabled : block.enabled <;> simp [henabled]

theorem block_iff {s : CliData} {registry : Registry} {index : ℕ} :
    ((onEnterTests regs s index).current ≠ s.current → (onEnterTests regs s index).current = some ⟨registry,index⟩) ↔
      s.registry = some registry ∨ s.test = index ∨ s.getMaxIndex ≤ index ∨
        ∀ block ∈ s.block regs index, block.enabled = false := by
  rw [← entered_none_iff]
  cases hentered : entered regs s index with
  | none => exact iff_of_true (fun hne => absurd (entered_none regs hentered).current hne) (.inr (.inr rfl))
  | some block =>
    obtain ⟨hregistry,rfl,hlt,hcurrent⟩ := entered_some regs hentered
    have hsame : some block = s.current ↔ s.test = block.index :=
      eq_comm.trans (current_eq_some_iff.trans ⟨fun hc => hc.2.1,fun htest => ⟨hregistry,htest,hlt⟩⟩)
    have hnamed : some block = some ⟨registry,block.index⟩ ↔ s.registry = some registry := by
      rw [hregistry,Option.some.injEq,Option.some.injEq]
      constructor
      · intro heq
        rw [heq]
      · rintro rfl
        rfl
    rw [hcurrent,ne_eq,hsame,hnamed,or_iff_left (Option.some_ne_none block),or_comm]
    exact Decidable.or_iff_not_imp_left.symm

variable (regs) in
/-- A test that is run belongs to the current block, which is shown unless it was left. -/
theorem shown_iff (h : v.Faithful) (command : Command) :
    (∀ test, ran regs v.data command = some test → v.screen = .tests ⟨test.registry,test.block⟩) ↔
      (v.left = true → ran regs v.data command = none) := by
  rw [h.screen]
  cases hran : ran regs v.data command with
  | none => exact iff_of_true (fun test htest => by cases htest) fun _ => rfl
  | some test =>
    have hcurrent := ran_current regs hran
    constructor
    · intro hshown hleft
      have hmenu := hshown test rfl
      rw [hleft] at hmenu
      cases hmenu
    · rintro hkept _ ⟨⟩
      cases hleft : v.left with
      | false =>
        rw [hcurrent]
        rfl
      | true => cases hkept hleft

theorem View.Faithful.means (h : v.Faithful) (line : String) :
    MeansNamed build names v line ↔ Unmistaken names v line := by
  rw [meansNamed_iff,unmistaken_iff]
  refine and_congr (valid_iff_selectable regs build h.coherent _) (and_congr ?_ (shown_iff regs h _))
  refine forall₂_congr fun registry index => forall₂_congr fun hlt hline => ?_
  have hcommand : names.command line = .block index := by
    rw [hline]
    exact names.findBinding_block hlt
  rw [hcommand]
  exact block_iff

/-- From boot on, in a whole session every selection means the named block if and only if no
line of it is mistaken. -/
theorem session_meansNamed_iff (lines : List String) :
    Meets (names.enter build) (MeansNamed build names) bootView lines ↔
      Meets (names.enter build) (Unmistaken names) bootView lines := by
  refine meets_congr _ (I := View.Faithful) ?_ (fun v line h => h.means build names line) ?_ lines
  · rintro v line t h ⟨⟩
    exact h.run regs build (names.command line)
  · exact ⟨coherent_elsewhere Mode.noConfusion Mode.noConfusion (.inr (by decide)),rfl⟩

end Selection

/-- The names of the blocks with the first test of each. -/
def blockLabels : Labels where
  block
    | .dev, index => ["GPIO","PCI","SYSCTRL","TIMER","UART"].getD index ""
    | .sys, index => ["CLI","LOG"].getD index ""
  test
    | ⟨.dev,block,_⟩ => ["GPIO_Init","PCI_Init","SYSCTRL_Init","TIMER_Init","UART_Init"].getD block ""
    | ⟨.sys,block,_⟩ => ["CLI_test","LOG_test"].getD block ""
  universal := ["show","set","start","stop","pause","resume","help"]
  numbers := 7

def blockNames : Names oneTestEach := { blockLabels with distinct := by decide +kernel }

/-- In the device menu the name of the first system block enters the first device block. -/
theorem cliInDev_not_named : ¬Meets (blockNames.enter ⟨true,true,true,true,true⟩) (MeansNamed ⟨true,true,true,true,true⟩ blockNames)
    bootView ["dev","CLI"] := by
  rintro ⟨_,h⟩
  have hnamed := (h _ rfl).1.block .sys 0 (by decide) rfl
  revert hnamed
  decide +kernel

end EmbedTemplate.Cli
