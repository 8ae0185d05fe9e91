import EmbedTemplate.Cli.Menu

/-! # Safety of the menu state machine

In the device and the system test menu the index limit is that of the selected registry.
In every other menu it is the one of the device registry, whatever is selected, and the
sentinel of the test select menu passes it, so that there the accesses stay inside the
registry as long as the typed command selects a block that exists.
-/
namespace EmbedTemplate.Cli
open Machine

/-- The device or the system test menu, or a block in it. -/
def CliData.inTestMenu (s : CliData) : Prop := s.mode = .testDev ∨ s.mode = .testSys

/-- A registry is selected, and the system registry only with an index that it has. -/
def CliData.Selects (s : CliData) (index : ℤ) : Prop :=
  index ≠ testInvalid ∧ s.registry ≠ none ∧ (s.registry = some .sys → index < maxInfraIndex)

/-- Outside of the test menus the block that a command selects, by its own index or by the
current one, is there. -/
def Selectable (s : CliData) : Command → Prop
  | .block index => s.inTestMenu ∨ (index < maxBlockIndex → s.Selects index)
  | .testName _ => s.inTestMenu ∨ (s.test = maxBlockIndex ∨ s.Selects s.test)
  | .number index => s.inTestMenu ∨
      (if s.test = maxBlockIndex then index < maxBlockIndex → s.Selects index else s.Selects s.test)
  | _ => True

/-- The mode, the registry and the test index go together. -/
structure Coherent (s : CliData) : Prop where
  range : s.test = testInvalid ∨ 0 ≤ s.test ∧ s.test ≤ maxBlockIndex
  dev : s.mode = .testDev → s.registry = some .dev ∧ 0 ≤ s.test
  sys : s.mode = .testSys → s.registry = some .sys ∧ 0 ≤ s.test ∧ s.test ≤ maxInfraIndex

/-- The accesses that were added are valid exactly under a condition. -/
def Adds (s t : CliData) (P : Prop) : Prop :=
  ∃ added, t.accesses = s.accesses ++ added ∧ ((∀ a ∈ added, a.Valid) ↔ P)

section Adds
variable {s t u : CliData} {P Q : Prop}

theorem Adds.none (h : t.accesses = s.accesses) (hP : P) : Adds s t P :=
  ⟨[],by rw [h,List.append_nil],iff_of_true (fun a hmem => by cases hmem) hP⟩

theorem Adds.trans (h : Adds s t P) (h' : Adds t u Q) : Adds s u (P ∧ Q) := by
  obtain ⟨added,hadded,hP⟩ := h
  obtain ⟨added',hadded',hQ⟩ := h'
  refine ⟨added ++ added',by rw [hadded',hadded,List.append_assoc],?_⟩
  rw [List.forall_mem_append]
  exact and_congr hP hQ

theorem Adds.congr (h : Adds s t P) (hPQ : P ↔ Q) : Adds s t Q := by
  obtain ⟨added,hadded,hP⟩ := h
  exact ⟨added,hadded,hP.trans hPQ⟩

theorem adds_touch (s : CliData) (index : ℤ) : Adds s (s.touch index) (Access.Valid ⟨s.registry,index⟩) :=
  ⟨[⟨s.registry,index⟩],rfl,List.forall_mem_singleton⟩

theorem Adds.accesses (h : Adds s t P) (hu : u.accesses = t.accesses) : Adds s u P := by
  obtain ⟨added,hadded,hP⟩ := h
  exact ⟨added,hu.trans hadded,hP⟩

end Adds

section Handlers
variable (regs : Registries) (build : Build) {s : CliData}

/-- What a handler that stays in its menu keeps. -/
structure Stays (s t : CliData) : Prop where
  mode : t.mode = s.mode
  test : t.test = s.test
  registry : t.registry = s.registry

theorem Coherent.stays {t : CliData} (h : Coherent s) (hs : Stays s t) : Coherent t := by
  obtain ⟨hmode,htest,hregistry⟩ := hs
  constructor
  · rw [htest]
    exact h.range
  · rw [hmode,htest,hregistry]
    exact h.dev
  · rw [hmode,htest,hregistry]
    exact h.sys

theorem onExecuteTest_spec (test : TestPtr) : Stays s (onExecuteTest regs s test) ∧
    Adds s (onExecuteTest regs s test) (s.test < s.getMaxIndex → Access.Valid ⟨s.registry,s.test⟩) := by
  rw [onExecuteTest]
  split
  · exact ⟨⟨rfl,rfl,rfl⟩,.none rfl fun h => by omega⟩
  · rename_i hmax
    have hadds := (adds_touch s s.test).congr
      (show Access.Valid ⟨s.registry,s.test⟩ ↔ (s.test < s.getMaxIndex → Access.Valid ⟨s.registry,s.test⟩) from
        ⟨fun h _ => h,fun h => h (by omega)⟩)
    have htouch : Stays s (s.touch s.test) := ⟨rfl,rfl,rfl⟩
    simp only
    split
    · exact ⟨htouch,hadds⟩
    · split
      · split
        · split
          · exact ⟨⟨rfl,rfl,rfl⟩,hadds.accesses rfl⟩
          · exact ⟨htouch,hadds⟩
        · exact ⟨htouch,hadds⟩
      · exact ⟨htouch,hadds⟩

/-- Entering a block leaves the menu as it is or moves to a block below the limit. -/
theorem onEnterTests_spec (index : ℕ) :
    (Stays s (onEnterTests regs s index) ∨ index < s.getMaxIndex ∧
      Stays { s with test := index } (onEnterTests regs s index)) ∧
    Adds s (onEnterTests regs s index) (index < s.getMaxIndex → Access.Valid ⟨s.registry,index⟩) := by
  rw [onEnterTests]
  split
  · exact ⟨.inl ⟨rfl,rfl,rfl⟩,.none rfl fun h => by omega⟩
  · rename_i hmax
    have hadds := (adds_touch s index).congr
      (show Access.Valid ⟨s.registry,index⟩ ↔ (index < s.getMaxIndex → Access.Valid ⟨s.registry,index⟩) from
        ⟨fun h _ => h,fun h => h (by omega)⟩)
    simp only
    split
    · exact ⟨.inl ⟨rfl,rfl,rfl⟩,hadds⟩
    · split
      · exact ⟨.inr ⟨by omega,rfl,rfl,rfl⟩,hadds.accesses rfl⟩
      · exact ⟨.inl ⟨rfl,rfl,rfl⟩,hadds⟩

/-- A step from one coherent state to another, with the condition for its accesses to be valid. -/
structure Moves (s t : CliData) (P : Prop) : Prop where
  coherent : Coherent t
  adds : Adds s t P

theorem Moves.silent {t : CliData} (h : Coherent t) (ht : t.accesses = s.accesses) : Moves s t True :=
    ⟨h,.none ht trivial⟩

theorem Coherent.enter (h : Coherent s) {index : ℕ} (hindex : index < s.getMaxIndex) :
    Coherent { s with test := index } := by
  constructor
  · have hmax : s.getMaxIndex ≤ maxBlockIndex := by
      rw [CliData.getMaxIndex]
      split <;> decide
    exact .inr ⟨by simp,by simp only; omega⟩
  · intro hdev
    exact ⟨(h.dev hdev).1,by simp⟩
  · intro hsys
    have hmax : s.getMaxIndex = maxInfraIndex := if_pos hsys
    exact ⟨(h.sys hsys).1,by simp,by simp only; omega⟩

theorem onEnterTests_moves (h : Coherent s) (index : ℕ) : Moves s (onEnterTests regs s index)
    (index < s.getMaxIndex → Access.Valid ⟨s.registry,index⟩) := by
  obtain ⟨hkeeps | ⟨hindex,hkeeps⟩,hadds⟩ := onEnterTests_spec regs (s := s) index
  · exact ⟨h.stays hkeeps,hadds⟩
  · exact ⟨(h.enter hindex).stays hkeeps,hadds⟩

theorem onExecuteTest_moves (h : Coherent s) (test : TestPtr) : Moves s (onExecuteTest regs s test)
    (s.test < s.getMaxIndex → Access.Valid ⟨s.registry,s.test⟩) :=
  ⟨h.stays (onExecuteTest_spec regs test).1,(onExecuteTest_spec regs test).2⟩

theorem onNumberSelected_moves (h : Coherent s) (index : ℕ) : Moves s (onNumberSelected regs s index)
    (if s.test = s.getMaxIndex then index < s.getMaxIndex → Access.Valid ⟨s.registry,index⟩
      else Access.Valid ⟨s.registry,s.test⟩) := by
  rw [onNumberSelected]
  by_cases htop : s.test = s.getMaxIndex
  · rw [if_pos htop,if_pos htop]
    split
    · exact onEnterTests_moves regs h index
    · exact ⟨h,.none rfl fun hlt => by omega⟩
  · rw [if_neg htop,if_neg htop]
    have hadds := adds_touch s s.test
    have hcoherent : Coherent (s.touch s.test) := h.stays ⟨rfl,rfl,rfl⟩
    simp only
    split
    · split
      · rename_i registry _ _ _
        obtain ⟨hafter,hmore⟩ := onExecuteTest_moves regs hcoherent ⟨registry,s.test.toNat,index⟩
        exact ⟨hafter,(hadds.trans hmore).congr ⟨fun hv => hv.1,fun hv => ⟨hv,fun _ => hv⟩⟩⟩
      · exact ⟨hcoherent,hadds⟩
    · exact ⟨hcoherent,hadds⟩

theorem Moves.behind {t u : CliData} {P : Prop} (h : Moves t u P) (ht : t.accesses = s.accesses) : Moves s u P := by
  obtain ⟨hcoherent,added,hadded,hP⟩ := h
  exact ⟨hcoherent,added,by rw [hadded,ht],hP⟩

/-- The menu of a registry whose blocks number at least as many as the test index. -/
theorem showTestMenu_moves (h : Coherent s) {registry : Registry} (hregistry : s.registry = some registry)
    (htest : s.test ≤ registry.size) : Moves s (showTestMenu s) True := by
  refine ⟨h.stays ⟨rfl,rfl,rfl⟩,_,rfl,iff_true_intro ?_⟩
  intro a hmem
  obtain ⟨i,hi,rfl⟩ := List.mem_map.mp hmem
  have hi : i < s.test.toNat := List.mem_range.mp hi
  exact ⟨registry,hregistry,by simp,by simp only; omega⟩

/-- Below the limit of the device registry a block is there exactly when it is selected. -/
theorem valid_iff_selects {index : ℤ} (hindex : index = testInvalid ∨ 0 ≤ index) (hlt : index < maxBlockIndex) :
    Access.Valid ⟨s.registry,index⟩ ↔ s.Selects index := by
  constructor
  · rintro ⟨registry,hregistry,hlow,hsize⟩
    have hreg : s.registry = some registry := hregistry
    refine ⟨?_,?_,fun hsys => ?_⟩
    · rintro rfl
      cases hlow
    · rw [hreg]
      exact Option.some_ne_none _
    · rw [hreg] at hsys
      cases hsys
      exact hsize
  · rintro ⟨hvalid,hsome,hsys⟩
    obtain ⟨registry,hreg⟩ := Option.ne_none_iff_exists'.mp hsome
    refine ⟨registry,hreg,hindex.resolve_left hvalid,?_⟩
    cases registry with
    | dev => exact hlt
    | sys => exact hsys hreg

theorem Coherent.cases (h : Coherent s) :
    (s.inTestMenu ∧ ∃ registry, s.registry = some registry ∧ s.getMaxIndex = registry.size ∧ 0 ≤ s.test ∧
      s.test ≤ registry.size) ∨ (¬s.inTestMenu ∧ s.getMaxIndex = maxBlockIndex) := by
  by_cases hsys : s.mode = .testSys
  · obtain ⟨hregistry,hlow,hhigh⟩ := h.sys hsys
    exact .inl ⟨.inr hsys,.sys,hregistry,if_pos hsys,hlow,hhigh⟩
  · have hmax : s.getMaxIndex = maxBlockIndex := if_neg hsys
    by_cases hdev : s.mode = .testDev
    · obtain ⟨hregistry,hlow⟩ := h.dev hdev
      refine .inl ⟨.inl hdev,.dev,hregistry,hmax,hlow,?_⟩
      obtain hinvalid | hrange := h.range
      · rw [hinvalid] at hlow
        cases hlow
      · exact hrange.2
    · exact .inr ⟨fun hmenu => hmenu.elim hdev hsys,hmax⟩

theorem enter_iff (h : Coherent s) (index : ℕ) : (index < s.getMaxIndex → Access.Valid ⟨s.registry,index⟩) ↔
    s.inTestMenu ∨ (index < maxBlockIndex → s.Selects index) := by
  obtain ⟨hmenu,registry,hregistry,hmax,_⟩ | ⟨hmenu,hmax⟩ := h.cases
  · refine iff_of_true (fun hlt => ⟨registry,hregistry,by simp,?_⟩) (.inl hmenu)
    simp only
    omega
  · rw [or_iff_right hmenu,hmax]
    exact forall_congr' fun hlt => valid_iff_selects (.inr (by simp)) (by omega)

theorem current_iff (h : Coherent s) (htest : s.test ≠ s.getMaxIndex) : Access.Valid ⟨s.registry,s.test⟩ ↔
    s.inTestMenu ∨ s.Selects s.test := by
  obtain ⟨hmenu,registry,hregistry,hmax,hlow,hhigh⟩ | ⟨hmenu,hmax⟩ := h.cases
  · refine iff_of_true ⟨registry,hregistry,hlow,?_⟩ (.inl hmenu)
    simp only
    omega
  · rw [or_iff_right hmenu]
    have hrange := h.range
    rw [testInvalid] at hrange
    exact valid_iff_selects (by rw [testInvalid]; omega) (by omega)

theorem execute_iff (h : Coherent s) : (s.test < s.getMaxIndex → Access.Valid ⟨s.registry,s.test⟩) ↔
    s.inTestMenu ∨ (s.test = maxBlockIndex ∨ s.Selects s.test) := by
  obtain ⟨hmenu,registry,hregistry,hmax,hlow,_⟩ | ⟨hmenu,hmax⟩ := h.cases
  · refine iff_of_true (fun hlt => ⟨registry,hregistry,hlow,?_⟩) (.inl hmenu)
    simp only
    omega
  · have hrange := h.range
    rw [testInvalid] at hrange
    by_cases htop : s.test = maxBlockIndex
    · exact iff_of_true (fun hlt => by omega) (.inr (.inl htop))
    · rw [or_iff_right hmenu,or_iff_right htop,← current_iff h (by omega) |>.trans (or_iff_right hmenu)]
      exact ⟨fun hv => hv (by omega),fun hv _ => hv⟩

theorem number_iff (h : Coherent s) (index : ℕ) :
    (if s.test = s.getMaxIndex then index < s.getMaxIndex → Access.Valid ⟨s.registry,index⟩
      else Access.Valid ⟨s.registry,s.test⟩) ↔ s.inTestMenu ∨
      (if s.test = maxBlockIndex then index < maxBlockIndex → s.Selects index else s.Selects s.test) := by
  obtain ⟨hmenu,_⟩ | ⟨hmenu,hmax⟩ := h.cases
  · refine iff_of_true ?_ (.inl hmenu)
    split
    · exact (enter_iff h index).mpr (.inl hmenu)
    · rename_i htest
      exact (current_iff h htest).mpr (.inl hmenu)
  · by_cases htest : s.test = s.getMaxIndex
    · rw [if_pos htest,if_pos (hmax ▸ htest)]
      exact enter_iff h index
    · rw [if_neg htest,if_neg (hmax ▸ htest)]
      exact current_iff h htest

theorem coherent_elsewhere (hdev : s.mode ≠ .testDev) (hsys : s.mode ≠ .testSys)
    (htest : s.test = testInvalid ∨ 0 ≤ s.test ∧ s.test ≤ maxBlockIndex) : Coherent s :=
  ⟨htest,fun h => absurd h hdev,fun h => absurd h hsys⟩

theorem Coherent.top (h : s.mode = .testDev ∧ s.registry = some .dev ∧ s.test = maxBlockIndex ∨
    s.mode = .testSys ∧ s.registry = some .sys ∧ s.test = maxInfraIndex) : Moves s (showTestMenu s) True := by
  obtain ⟨hmode,hregistry,htest⟩ | ⟨hmode,hregistry,htest⟩ := h
  · refine showTestMenu_moves ⟨?_,fun _ => ⟨hregistry,?_⟩,fun hsys => ?_⟩ hregistry (Int.le_of_eq htest)
    · rw [htest]
      decide
    · rw [htest]
      decide
    · rw [hmode] at hsys
      cases hsys
  · refine showTestMenu_moves ⟨?_,fun hdev => ?_,fun _ => ⟨hregistry,?_⟩⟩ hregistry (Int.le_of_eq htest)
    · rw [htest]
      decide
    · rw [hmode] at hdev
      cases hdev
    · rw [htest]
      decide

theorem onBack_moves (h : Coherent s) : Moves s (onBack s) True := by
  rw [onBack]
  split
  · rename_i hdev
    exact (Coherent.top (s := { s with test := maxBlockIndex }) (.inl ⟨hdev.1,(h.dev hdev.1).1,rfl⟩)).behind rfl
  · split
    · rename_i hsys
      exact (Coherent.top (s := { s with test := maxInfraIndex }) (.inr ⟨hsys.1,(h.sys hsys.1).1,rfl⟩)).behind rfl
    · split
      · exact .silent (coherent_elsewhere Mode.noConfusion Mode.noConfusion (.inl rfl)) rfl
      · split
        · exact .silent (coherent_elsewhere Mode.noConfusion Mode.noConfusion h.range) rfl
        · exact .silent (coherent_elsewhere Mode.noConfusion Mode.noConfusion h.range) rfl

theorem parseCommand_moves (h : Coherent s) (command : Command) :
    Moves s (parseCommand regs build s command) (Selectable s command) := by
  have htop : 0 ≤ (maxBlockIndex : ℤ) ∧ (maxBlockIndex : ℤ) ≤ maxBlockIndex := by decide
  cases command with
  | test =>
    simp only [parseCommand]
    split
    · exact .silent (coherent_elsewhere Mode.noConfusion Mode.noConfusion (.inl rfl)) rfl
    · exact .silent h rfl
  | dev => exact (Coherent.top (.inl ⟨rfl,rfl,rfl⟩)).behind rfl
  | sys => exact (Coherent.top (.inr ⟨rfl,rfl,rfl⟩)).behind rfl
  | system => exact .silent (coherent_elsewhere Mode.noConfusion Mode.noConfusion (.inr htop)) rfl
  | sim =>
    simp only [parseCommand]
    split
    · exact .silent (coherent_elsewhere Mode.noConfusion Mode.noConfusion (.inr htop)) rfl
    · exact .silent h rfl
  | pci =>
    simp only [parseCommand]
    split
    · exact .silent (coherent_elsewhere Mode.noConfusion Mode.noConfusion (.inr htop)) rfl
    · exact .silent h rfl
  | block index =>
    obtain ⟨hcoherent,hadds⟩ := onEnterTests_moves regs h index
    exact ⟨hcoherent,hadds.congr (enter_iff h index)⟩
  | testName test =>
    obtain ⟨hcoherent,hadds⟩ := onExecuteTest_moves regs h test
    exact ⟨hcoherent,hadds.congr (execute_iff h)⟩
  | number index =>
    obtain ⟨hcoherent,hadds⟩ := onNumberSelected_moves regs h index
    exact ⟨hcoherent,hadds.congr (number_iff h index)⟩
  | back => exact onBack_moves h
  | universal =>
    simp only [parseCommand,cmdInTestMode]
    split
    · exact .silent (h.stays ⟨rfl,rfl,rfl⟩) rfl
    · exact .silent h rfl
  | other => exact .silent h rfl

theorem runCliTests_stays (s : CliData) : Stays s (runCliTests s) ∧ (runCliTests s).accesses = s.accesses := by
  rw [runCliTests,cmdInTestMode]
  split
  · split <;> exact ⟨⟨rfl,rfl,rfl⟩,rfl⟩
  · exact ⟨⟨rfl,rfl,rfl⟩,rfl⟩

theorem shown_again (h : Coherent s) (hmode : s.mode.isTest = true) : Moves s
    (if s.mode = .test then showTestSelectMenu s
      else if s.test = s.getMaxIndex then showTestMenu s else onEnterTests regs s (uintptr s.test)) True := by
  by_cases htest : s.mode = .test
  · rw [if_pos htest]
    refine .silent (coherent_elsewhere ?_ ?_ (.inl rfl)) rfl
    · exact fun hdev => by cases htest.symm.trans hdev
    · exact fun hsys => by cases htest.symm.trans hsys
  · have hmenu : s.inTestMenu := by
      rw [CliData.inTestMenu]
      revert hmode htest
      cases s.mode <;> simp [Mode.isTest]
    obtain ⟨_,registry,hregistry,hmax,hlow,hhigh⟩ | ⟨hmenu',_⟩ := h.cases
    · rw [if_neg htest]
      by_cases hindex : s.test = s.getMaxIndex
      · rw [if_pos hindex]
        exact showTestMenu_moves h hregistry hhigh
      · rw [if_neg hindex]
        obtain ⟨hcoherent,hadds⟩ := onEnterTests_moves regs h (uintptr s.test)
        exact ⟨hcoherent,hadds.congr (iff_true_intro ((enter_iff h _).mpr (.inl hmenu)))⟩
    · exact absurd hmenu hmenu'

theorem cliRun_moves (h : Coherent s) (command : Command) :
    Moves s (cliRun regs build s command) (Selectable s command) := by
  rw [cliRun]
  split
  · rename_i hmode
    have hcleared : Coherent { s with cmdRun := false } := h.stays ⟨rfl,rfl,rfl⟩
    have hparsed : Moves s (parseCommand regs build { s with cmdRun := false } command) (Selectable s command) := by
      have hmoves := (parseCommand_moves regs build hcleared command).behind (s := s) rfl
      cases command <;> exact hmoves
    obtain ⟨hstays,haccesses⟩ := runCliTests_stays (parseCommand regs build { s with cmdRun := false } command)
    have hcoherent := hparsed.coherent.stays hstays
    have hadds := hparsed.adds.accesses haccesses
    rw [cliRunTest]
    split
    · exact ⟨hcoherent.stays ⟨rfl,rfl,rfl⟩,hadds.accesses rfl⟩
    · split
      · rename_i hsame
        have hagain := shown_again regs hcoherent (hsame.1 ▸ hmode)
        exact ⟨hagain.coherent,(hadds.trans hagain.adds).congr (and_iff_left trivial)⟩
      · exact ⟨hcoherent,hadds⟩
  · exact parseCommand_moves regs build h command

/-- A whole session adds valid accesses exactly when all of its commands are selectable. -/
theorem foldl_adds (h : Coherent s) (commands : List Command) :
    Adds s (commands.foldl (cliRun regs build) s)
      (Meets (fun s command => some (cliRun regs build s command)) Selectable s commands) := by
  induction commands generalizing s with
  | nil => exact .none rfl trivial
  | cons command commands ih =>
    obtain ⟨hcoherent,hadds⟩ := cliRun_moves regs build h command
    refine (hadds.trans (ih hcoherent)).congr (and_congr_right fun _ => ?_)
    constructor
    · rintro hmeets t ht
      cases ht
      exact hmeets
    · exact fun hmeets => hmeets _ rfl

end Handlers

/-- From boot on, all accesses to the registry are valid if and only if every command that
selects a block outside of the test menus selects one that is there. -/
theorem session_valid_iff (regs : Registries) (build : Build) (commands : List Command) :
    (∀ a ∈ (session regs build commands).accesses, a.Valid) ↔
      Meets (fun s command => some (cliRun regs build s command)) Selectable boot commands := by
  have hboot : Coherent boot := coherent_elsewhere Mode.noConfusion Mode.noConfusion (.inr (by decide))
  obtain ⟨added,hadded,hiff⟩ := foldl_adds regs build hboot commands
  have hsession : (session regs build commands).accesses = added := hadded
  rw [hsession]
  exact hiff

/-- Registries in which every block has one test. -/
def oneTestEach : Registries where
  dev := List.replicate 5 ⟨[⟨some .other,true⟩],1,true⟩
  sys := List.replicate 2 ⟨[⟨some .testCli,true⟩],1,true⟩
  devLength := rfl
  sysLength := rfl

/-- The name of the first device block, typed in the main menu, reaches for a registry before
one is selected. -/
theorem bootBlock_not_valid : ¬∀ a ∈ (session oneTestEach ⟨true,true,true,true,false⟩ [.block 0]).accesses, a.Valid := by decide

end EmbedTemplate.Cli
