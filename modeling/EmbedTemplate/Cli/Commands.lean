import EmbedTemplate.Cli.LogNames

/-! # The commands set and show

The tables of the two commands as `cli_system.c` has them, with the offsets that its macros
compute, and what the tables declare.
-/
namespace EmbedTemplate.Cli
open Bytes

inductive Handler
  | onSetLogCommand
  | onSetSimCommand
  | showStatsLog
  | showStatsSys
  | showStatsTask
  | showStatsProf
  | showConfig
  | showConfigShort
  | showConfigSim
  | showConfigLog
  | showVersion
  | showDomains
  | showEntities
  | showLogLevels
  deriving DecidableEq

section Tables
variable (f : Build)

/-- `specs_valid` -/
def specsValid : List (Option ArgsValidate) := [none,some (setLogValidate f),none]

/-- `L2_SLOTS` -/
def l2Slots (names : List (List UInt8)) : ℕ := if names.length = 0 then 1 else names.length

def simBuild : Bool := f.rtos && f.sim

def setCmdCompo1 : List (List UInt8) := if simBuild f then [ascii "log",ascii "sim"] else [ascii "log"]
def setCmdCompo11 : List (List UInt8) := [ascii ""]
def setCmdCompo12 : List (List UInt8) := [ascii "phy",ascii "temp"]
def setCmdCompos : List (List (List UInt8)) := if simBuild f then [setCmdCompo11,setCmdCompo12,[]] else [setCmdCompo11]

def setLog : ℕ := 1
def setSim : ℕ := setLog + l2Slots setCmdCompo11

def setCmdLogArgs : List (List UInt8) := [ascii "domain",ascii "entity",ascii "level"]
def setCmdSimPhyArgs : List (List UInt8) := [ascii "ramp",ascii "mass",ascii "cond",ascii "power",ascii "ambient"]
def setCmdSimTempArgs : List (List UInt8) := [ascii "latency",ascii "target",ascii "critical",ascii "hyster",ascii "cooldown"]

def setCmdOptions : List (ℕ × List (List UInt8)) :=
  if simBuild f then [(setLog,setCmdLogArgs),(setSim,setCmdSimPhyArgs),(setSim + 1,setCmdSimTempArgs)]
  else [(setLog,setCmdLogArgs)]

def setCmdAction : List (Option Handler) :=
  if simBuild f then [none,some .onSetLogCommand,some .onSetSimCommand] else [none,some .onSetLogCommand]

def setCmdDesc : CmdCompDesc Handler where
  comp := ⟨setCmdCompo1 f,setCmdCompos f,setCmdOptions f,1⟩
  actIdx := some [0,setLog,setSim]
  optMask := ⟨0,0⟩
  action := setCmdAction f

def showCmdCompo1 : List (List UInt8) :=
  [ascii "stats",ascii "config",ascii "version",ascii "domains",ascii "entities",ascii "levels"]
def showCmdCompo11 : List (List UInt8) :=
  if f.prof then [ascii "log",ascii "sys",ascii "task",ascii "prof"] else [ascii "log",ascii "sys",ascii "task"]
def showCmdCompo12 : List (List UInt8) :=
  if simBuild f then [ascii "",ascii "short",ascii "sim",ascii "log"] else [ascii "",ascii "short",ascii "log"]
def showCmdCompos : List (List (List UInt8)) := [showCmdCompo11 f,showCmdCompo12 f,[],[],[],[]]

def showStats : ℕ := 0
def showConfig : ℕ := showStats + l2Slots (showCmdCompo11 f)
def showVersion : ℕ := showConfig f + l2Slots (showCmdCompo12 f)
def showDomains : ℕ := showVersion f + l2Slots []
def showEntities : ℕ := showDomains f + l2Slots []
def showLevels : ℕ := showEntities f + l2Slots []

def optionsStatsLog : List (List UInt8) := [ascii "clear"]
def optionsConfigSim : List (List UInt8) := [ascii "current",ascii "default",ascii "ranges"]

def showCmdOptions : List (ℕ × List (List UInt8)) :=
  if simBuild f then [(showStats,optionsStatsLog),(showConfig f + 2,optionsConfigSim)] else [(showStats,optionsStatsLog)]

def showOpts : ℕ :=
  if f.rtos then 2 ^ showStats ||| 2 ^ showConfig f ||| 2 ^ (showConfig f + 2) else 2 ^ showStats ||| 2 ^ showConfig f

/-- `SHOW_OPTS & ~BIT(SHOW_STATS)` -/
def showMust : ℕ := showOpts f ^^^ (showOpts f &&& 2 ^ showStats)

def showCmdAction : List (Option Handler) :=
  [some .showStatsLog,some .showStatsSys,some .showStatsTask] ++ (if f.prof then [some .showStatsProf] else []) ++
    [some .showConfig,some .showConfigShort] ++ (if simBuild f then [some .showConfigSim] else []) ++
    [some .showConfigLog,some .showVersion,some .showDomains,some .showEntities,some .showLogLevels]

def showCmdDesc : CmdCompDesc Handler where
  comp := ⟨showCmdCompo1,showCmdCompos f,showCmdOptions f,0⟩
  actIdx := some [0,showStats,showConfig f,showVersion f,showDomains f,showEntities f,showLevels f]
  optMask := ⟨showOpts f,showMust f⟩
  action := showCmdAction f

end Tables

section Declarations

/-- A command as it is declared: its path, its options, whether nothing else may stand for them, and its handler. -/
structure Declared where
  path : List (List UInt8)
  options : List (List UInt8)
  closed : Bool
  handler : Handler

/-- The tokens spell the path and at most as many options as there are. -/
def Declared.Admits (c : Declared) (args : List Token) : Prop :=
  ∃ rest : List Token, args.map Token.chars = c.path ++ rest.map Token.chars ∧ rest.length ≤ c.options.length ∧
    (c.closed = true → ∀ t ∈ rest, t.chars ∈ c.options)

def setCommands : List Declared :=
  [⟨[ascii "log"],setCmdLogArgs,false,.onSetLogCommand⟩,
    ⟨[ascii "sim",ascii "phy"],setCmdSimPhyArgs,false,.onSetSimCommand⟩,
    ⟨[ascii "sim",ascii "temp"],setCmdSimTempArgs,false,.onSetSimCommand⟩]

def showCommands (prof : Bool) : List Declared :=
  [⟨[ascii "stats",ascii "log"],optionsStatsLog,true,.showStatsLog⟩,
    ⟨[ascii "stats",ascii "sys"],[],true,.showStatsSys⟩,
    ⟨[ascii "stats",ascii "task"],[],true,.showStatsTask⟩] ++
  (if prof then [⟨[ascii "stats",ascii "prof"],[],true,.showStatsProf⟩] else []) ++
  [⟨[ascii "config"],[],true,.showConfig⟩,
    ⟨[ascii "config",ascii "short"],[],true,.showConfigShort⟩,
    ⟨[ascii "config",ascii "sim"],optionsConfigSim,true,.showConfigSim⟩,
    ⟨[ascii "config",ascii "log"],[],true,.showConfigLog⟩,
    ⟨[ascii "version"],[],true,.showVersion⟩,
    ⟨[ascii "domains"],[],true,.showDomains⟩,
    ⟨[ascii "entities"],[],true,.showEntities⟩,
    ⟨[ascii "levels"],[],true,.showLogLevels⟩]

/-- The paths of the tables; the empty name stands for the name of the first level alone. -/
def CmdComp.paths (comp : CmdComp) : List (List (List UInt8)) :=
  (comp.level1.zip comp.level2).flatMap fun (name,names) =>
    if names = [] then [[name]] else names.map fun sub => if sub = [] then [name] else [name,sub]

/-- The build with the operating system and the simulator. -/
def rtosSimBuild (test prof pci : Bool) : Build := ⟨true,true,test,prof,pci⟩

theorem declared_paths : ∀ test prof pci : Bool,
    setCommands.map Declared.path = (setCmdDesc (rtosSimBuild test prof pci)).comp.paths ∧
      (showCommands prof).map Declared.path = (showCmdDesc (rtosSimBuild test prof pci)).comp.paths := by
  decide +kernel

end Declarations

section Show
variable {desc : CmdCompDesc Handler} {commands : List Declared} {args : List Token} {act : ℕ}

def CmdComp.name (comp : CmdComp) (l1Idx : ℕ) : List UInt8 := comp.level1[l1Idx]?.getD []
def CmdComp.names (comp : CmdComp) (l1Idx : ℕ) : List (List UInt8) := comp.level2[l1Idx]?.getD []
def CmdComp.sub (comp : CmdComp) (l1Idx l2Idx : ℕ) : List UInt8 := (comp.names l1Idx)[l2Idx]?.getD []

/-- An action is the one that is declared for a path, with its options. -/
def LeadsTo (desc : CmdCompDesc Handler) (commands : List Declared) (path options : List (List UInt8))
    (act : ℕ) : Prop :=
  ∃ c ∈ commands, c.path = path ∧ c.options = options ∧ desc.action[act]? = some (some c.handler)

instance (desc : CmdCompDesc Handler) (commands : List Declared) (path options : List (List UInt8)) (act : ℕ) :
    Decidable (LeadsTo desc commands path options act) :=
  inferInstanceAs (Decidable (∃ c ∈ commands, c.path = path ∧ c.options = options ∧ desc.action[act]? = some (some c.handler)))

/-- The tables of a descriptor lead every path to the action that is declared for it. -/
abbrev LinesUp (desc : CmdCompDesc Handler) (commands : List Declared) : Prop :=
  ∀ l1Idx < desc.comp.level1.length,
    ((desc.comp.names l1Idx).head?.any (· ≠ []) = false →
      LeadsTo desc commands [desc.comp.name l1Idx] [] (desc.baseIdx l1Idx)) ∧
    ∀ l2Idx < (desc.comp.names l1Idx).length, desc.comp.sub l1Idx l2Idx ≠ [] →
      LeadsTo desc commands [desc.comp.name l1Idx,desc.comp.sub l1Idx l2Idx]
        ((desc.l3Opts (desc.baseIdx l1Idx + l2Idx)).getD []) (desc.baseIdx l1Idx + l2Idx)

theorem show_linesUp : ∀ test prof pci : Bool, LinesUp (showCmdDesc (rtosSimBuild test prof pci)) (showCommands prof) := by
  decide +kernel

/-- What the handler of an action is declared for. -/
def Acts (desc : CmdCompDesc Handler) (commands : List Declared) (args : List Token) (act : ℕ) : Prop :=
  ∃ c ∈ commands, c.Admits args ∧ desc.action[act]? = some (some c.handler)

theorem Selects.acts (h : Selects desc args act) (htables : LinesUp desc commands) : Acts desc commands args act := by
  cases h with
  | bare t₁ l1Idx hfirst hleaf =>
    have hlevel := mem_of_idxOf? hfirst
    have hname : desc.comp.name l1Idx = t₁.chars := congrArg (Option.getD · []) hlevel
    obtain ⟨c,hc,hpath,-,haction⟩ := (htables l1Idx (List.getElem?_eq_some_iff.mp hlevel).1).1 hleaf
    refine ⟨c,hc,⟨[],?_,Nat.zero_le _,fun _ t ht => absurd ht List.not_mem_nil⟩,haction⟩
    rw [hpath,hname]
    rfl
  | sub t₁ t₂ rest l1Idx l2Idx hfirst hsecond hrest =>
    have hlevel := mem_of_idxOf? hfirst
    have hlist := mem_of_idxOf? hsecond
    have hname : desc.comp.name l1Idx = t₁.chars := congrArg (Option.getD · []) hlevel
    have hsub : desc.comp.sub l1Idx l2Idx = t₂.chars := congrArg (Option.getD · []) hlist
    obtain ⟨c,hc,hpath,hoptions,haction⟩ := (htables l1Idx (List.getElem?_eq_some_iff.mp hlevel).1).2 l2Idx
      (List.getElem?_eq_some_iff.mp hlist).1 (by rw [hsub]; exact t₂.nonempty)
    have hspelled : (t₁ :: t₂ :: rest).map Token.chars = c.path ++ rest.map Token.chars := by
      rw [hpath,hname,hsub]
      rfl
    refine ⟨c,hc,⟨rest,hspelled,?_,?_⟩,haction⟩
    · rcases hrest with rfl | ⟨opts,hopts,t,rfl,hin⟩
      · exact Nat.zero_le _
      · rw [hoptions,Option.mem_def.mp hopts]
        exact List.length_pos_of_mem hin
    · intro _ t ht
      rcases hrest with rfl | ⟨opts,hopts,t',rfl,hin⟩
      · exact absurd ht List.not_mem_nil
      · obtain rfl : t = t' := List.mem_singleton.mp ht
        rw [hoptions,Option.mem_def.mp hopts]
        exact hin

end Show

section Set
variable (f : Build) {t t₁ t₂ : Token} {args rest : List Token} {act : ℕ}

theorem isHelp_alone (ht : t.chars ≠ ascii "?") : isHelp [t] = false := beq_false_of_ne ht

theorem cmdDispatch_named {α : Type*} {specsValid : List (Option ArgsValidate)} {desc : CmdCompDesc α} {l1Idx : ℕ}
    (hfirst : desc.comp.level1.idxOf? t.chars = some l1Idx) (ht : t.chars ≠ ascii "?") :
    cmdDispatch specsValid desc (t :: rest) = dispatchLevel2 specsValid desc (t :: rest) (isHelp (t :: rest)) l1Idx := by
  have hask : ¬((t :: rest).length = 0 ∨ (isHelp (t :: rest) = true ∧ (t :: rest).length = 1)) := by
    rintro (hcase | ⟨hhelp,hone⟩)
    · exact Nat.succ_ne_zero _ hcase
    · obtain rfl : rest = [] := List.length_eq_zero_iff.mp (Nat.succ.inj hone)
      exact Bool.false_ne_true ((isHelp_alone ht).symm.trans hhelp)
  have hindex : findIndexBy desc.comp.level1 (embeddedCliGetToken (t :: rest) 1) = some l1Idx := hfirst
  unfold cmdDispatch
  dsimp only
  rw [if_neg hask,hindex]

theorem setDispatch_log (ht : t.chars = ascii "log") : cmdDispatch (specsValid f) (setCmdDesc f) (t :: rest) =
    dispatchSpecial (specsValid f) (t :: rest) (isHelp (t :: rest)) setLog 1 (some setCmdLogArgs) := by
  have htables : ∀ sim, (setCmdDesc ⟨sim,sim,false,false,false⟩).comp.level1.idxOf? (ascii "log") = some 0 ∧
      (setCmdDesc ⟨sim,sim,false,false,false⟩).comp.level2[0]? = some [[]] ∧
      (setCmdDesc ⟨sim,sim,false,false,false⟩).l3Opts setLog = some setCmdLogArgs := by decide +kernel
  have hsame : setCmdDesc ⟨simBuild f,simBuild f,false,false,false⟩ = setCmdDesc f := by
    have hbuild : simBuild ⟨simBuild f,simBuild f,false,false,false⟩ = simBuild f := Bool.and_self _
    unfold setCmdDesc setCmdCompo1 setCmdCompos setCmdOptions setCmdAction
    rw [hbuild]
  obtain ⟨hlog,hnames,hopts⟩ := htables (simBuild f)
  rw [hsame] at hlog hnames hopts
  rw [cmdDispatch_named (by rw [ht]; exact hlog) (by rw [ht]; decide),
    dispatchLevel2_hybrid (show (1 : ℕ) ≠ 0 from Nat.one_ne_zero) hnames]
  exact congrArg _ hopts

variable (test prof pci : Bool)

theorem setDispatch_sim (h₁ : t₁.chars = ascii "sim") :
    cmdDispatch (specsValid (rtosSimBuild test prof pci)) (setCmdDesc (rtosSimBuild test prof pci)) (t₁ :: t₂ :: rest) =
      if isHelp (t₁ :: t₂ :: rest) ∧ rest = [] then .help
      else
        dispatchSpecial (specsValid (rtosSimBuild test prof pci)) (t₁ :: t₂ :: rest) (isHelp (t₁ :: t₂ :: rest))
          (setSim + (setCmdCompo12.idxOf? t₂.chars).getD 0) (if (setCmdCompo12.idxOf? t₂.chars).isSome then 2 else 1)
          ((setCmdDesc (rtosSimBuild test prof pci)).l3Opts (setSim + (setCmdCompo12.idxOf? t₂.chars).getD 0)) := by
  have hsim : (setCmdDesc (rtosSimBuild test prof pci)).comp.level1.idxOf? t₁.chars = some 1 := by
    rw [h₁]
    rfl
  have hnames : (setCmdDesc (rtosSimBuild test prof pci)).comp.level2[1]? = some setCmdCompo12 := rfl
  rw [cmdDispatch_named hsim (by rw [h₁]; decide),dispatchLevel2_named (show (1 : ℕ) ≠ 0 from Nat.one_ne_zero) hnames rfl]
  rfl

/-- The names behind `set sim` lead to the second and the third action, any other name to the second one as well. -/
theorem compo12_cases (t : Token) : (t.chars = ascii "phy" ∧ setCmdCompo12.idxOf? t.chars = some 0) ∨
    (t.chars = ascii "temp" ∧ setCmdCompo12.idxOf? t.chars = some 1) ∨
    (t.chars ∉ setCmdCompo12 ∧ setCmdCompo12.idxOf? t.chars = none) := by
  by_cases hphy : t.chars = ascii "phy"
  · exact .inl ⟨hphy,by rw [hphy]; decide⟩
  · by_cases htemp : t.chars = ascii "temp"
    · exact .inr (.inl ⟨htemp,by rw [htemp]; decide⟩)
    · have hnone : t.chars ∉ setCmdCompo12 := by
        unfold setCmdCompo12
        rw [List.mem_cons,List.mem_singleton,not_or]
        exact ⟨hphy,htemp⟩
      exact .inr (.inr ⟨hnone,List.idxOf?_eq_none_iff.mpr hnone⟩)

/-- Exactly the `set sim` that act: those with one to five arguments behind their path. -/
theorem setDispatch_sim_action (h₁ : t₁.chars = ascii "sim") :
    cmdDispatch (specsValid (rtosSimBuild test prof pci)) (setCmdDesc (rtosSimBuild test prof pci)) (t₁ :: t₂ :: rest) =
      .action act ↔
      act = setSim + (setCmdCompo12.idxOf? t₂.chars).getD 0 ∧ isHelp (t₁ :: t₂ :: rest) = false ∧
        (if (setCmdCompo12.idxOf? t₂.chars).isSome then 2 else 1) < (t₁ :: t₂ :: rest).length ∧
        (t₁ :: t₂ :: rest).length ≤ (if (setCmdCompo12.idxOf? t₂.chars).isSome then 2 else 1) + 5 := by
  have hopts : ∃ opts, (setCmdDesc (rtosSimBuild test prof pci)).l3Opts (setSim + (setCmdCompo12.idxOf? t₂.chars).getD 0) =
      some opts ∧ opts.length = 5 := by
    rcases compo12_cases t₂ with ⟨-,hidx⟩ | ⟨-,hidx⟩ | ⟨-,hidx⟩
    · exact ⟨setCmdSimPhyArgs,by rw [hidx]; rfl,rfl⟩
    · exact ⟨setCmdSimTempArgs,by rw [hidx]; rfl,rfl⟩
    · exact ⟨setCmdSimPhyArgs,by rw [hidx]; rfl,rfl⟩
  have hvalid : ∀ args pathTokens, validSpecial (specsValid (rtosSimBuild test prof pci)) args args.length
      (setSim + (setCmdCompo12.idxOf? t₂.chars).getD 0) pathTokens = some true := by
    intro args pathTokens
    rcases compo12_cases t₂ with ⟨-,hidx⟩ | ⟨-,hidx⟩ | ⟨-,hidx⟩
    · rw [hidx]
      rfl
    · rw [hidx]
      rfl
    · rw [hidx]
      rfl
  obtain ⟨opts,hsome,hfive⟩ := hopts
  rw [setDispatch_sim test prof pci h₁,hsome]
  by_cases hask : isHelp (t₁ :: t₂ :: rest) ∧ rest = []
  · rw [if_pos hask]
    exact iff_of_false nofun fun hcase => Bool.false_ne_true (hcase.2.1.symm.trans hask.1)
  · rw [if_neg hask,dispatchSpecial_action,hfive]
    constructor
    case mp => exact fun ⟨hact,hhelp,hsome',hmax,_⟩ => ⟨hact,hhelp,hsome',hmax⟩
    case mpr => exact fun ⟨hact,hhelp,hsome',hmax⟩ => ⟨hact,hhelp,hsome',hmax,hvalid _ _⟩

end Set

section Law

/-- If an action is called, it is the one that is declared for what the tokens spell. A null entry of the action table
is not called. -/
def Obeys (specsValid : List (Option ArgsValidate)) (desc : CmdCompDesc Handler) (commands : List Declared)
    (args : List Token) : Prop :=
  ∀ act, cmdDispatch specsValid desc args = .action act → desc.action[act]? = some none ∨ Acts desc commands args act

/-- `set sim temp` with arguments, and `set sim` with a name that is not declared. -/
def Astray (args : List Token) : Prop :=
  ∃ t₁ t₂ rest, args = t₁ :: t₂ :: rest ∧ t₁.chars = ascii "sim" ∧ isHelp args = false ∧
    ((t₂.chars = ascii "temp" ∧ 1 ≤ rest.length ∧ rest.length ≤ 5) ∨ (t₂.chars ∉ setCmdCompo12 ∧ rest.length ≤ 4))

variable (test prof pci : Bool) {args : List Token} {t t₁ t₂ : Token} {rest : List Token} {act : ℕ}

theorem show_obeys (args : List Token) : Obeys (specsValid (rtosSimBuild test prof pci)) (showCmdDesc (rtosSimBuild test prof pci))
    (showCommands prof) args := by
  intro act haction
  have hselects : Selects (showCmdDesc (rtosSimBuild test prof pci)) args act := standard_selects rfl haction
  exact .inr (hselects.acts (show_linesUp test prof pci))

theorem set_log_acts (ht : t.chars = ascii "log") (hmax : rest.length ≤ 3) :
    Acts (setCmdDesc (rtosSimBuild test prof pci)) setCommands (t :: rest) setLog := by
  refine ⟨_,List.mem_cons_self,⟨rest,?_,hmax,nofun⟩,rfl⟩
  rw [List.map_cons,ht]
  rfl

theorem set_phy_acts (h₁ : t₁.chars = ascii "sim") (h₂ : t₂.chars = ascii "phy") (hmax : rest.length ≤ 5) :
    Acts (setCmdDesc (rtosSimBuild test prof pci)) setCommands (t₁ :: t₂ :: rest) setSim := by
  refine ⟨_,List.mem_cons_of_mem _ List.mem_cons_self,⟨rest,?_,hmax,nofun⟩,rfl⟩
  rw [List.map_cons,List.map_cons,h₁,h₂]
  rfl

/-- Nothing is declared for a name that is not on the second level of `set sim`. -/
theorem set_other_acts (h₁ : t₁.chars = ascii "sim") (h₂ : t₂.chars ∉ setCmdCompo12) :
    ¬Acts (setCmdDesc (rtosSimBuild test prof pci)) setCommands (t₁ :: t₂ :: rest) act := by
  rintro ⟨c,hc,⟨more,hspelled,-,-⟩,-⟩
  unfold setCommands at hc
  rw [List.mem_cons,List.mem_cons,List.mem_singleton] at hc
  rw [List.map_cons,List.map_cons,h₁] at hspelled
  rcases hc with rfl | rfl | rfl
  · exact absurd (List.cons.inj hspelled).1 (by decide)
  · exact h₂ (by rw [(List.cons.inj (List.cons.inj hspelled).2).1]; decide)
  · exact h₂ (by rw [(List.cons.inj (List.cons.inj hspelled).2).1]; decide)

theorem set_third_acts (args : List Token) : ¬((setCmdDesc (rtosSimBuild test prof pci)).action[3]? = some none ∨
    Acts (setCmdDesc (rtosSimBuild test prof pci)) setCommands args 3) := by
  have hnone : (setCmdDesc (rtosSimBuild test prof pci)).action[3]? = none := rfl
  unfold Acts
  rw [hnone]
  rintro (hnull | ⟨c,-,-,hhandler⟩)
  · cases hnull
  · cases hhandler

theorem action_named {α : Type*} {specsValid : List (Option ArgsValidate)} {desc : CmdCompDesc α}
    (h : cmdDispatch specsValid desc args = .action act) : ∃ t rest, args = t :: rest ∧ t.chars ∈ desc.comp.level1 := by
  unfold cmdDispatch at h
  obtain ⟨hsome,h⟩ := not_refused h nofun
  cases args with
  | nil => exact absurd (.inl rfl) hsome
  | cons t rest =>
    refine ⟨t,rest,rfl,?_⟩
    have hindex : findIndexBy desc.comp.level1 (embeddedCliGetToken (t :: rest) 1) =
      desc.comp.level1.idxOf? t.chars := rfl
    rw [hindex] at h
    by_contra hnone
    rw [List.idxOf?_eq_none_iff.mpr hnone] at h
    cases h

theorem set_obeys_iff (args : List Token) :
    Obeys (specsValid (rtosSimBuild test prof pci)) (setCmdDesc (rtosSimBuild test prof pci)) setCommands args ↔
        ¬Astray args := by
  constructor
  case mp =>
    rintro hobeys ⟨t₁,t₂,rest,rfl,h₁,hhelp,⟨h₂,hone,hfive⟩ | ⟨h₂,hfour⟩⟩
    · have hidx : setCmdCompo12.idxOf? t₂.chars = some 1 := by
        rw [h₂]
        decide
      have haction := (@setDispatch_sim_action t₁ t₂ rest 3 test prof pci h₁).mpr (by
        rw [hidx]
        exact ⟨rfl,hhelp,Nat.add_le_add_right hone 2,Nat.add_le_add_right hfive 2⟩)
      exact set_third_acts test prof pci _ (hobeys 3 haction)
    · have hidx := List.idxOf?_eq_none_iff.mpr h₂
      have haction := (@setDispatch_sim_action t₁ t₂ rest 2 test prof pci h₁).mpr (by
        rw [hidx]
        exact ⟨rfl,hhelp,Nat.le_add_left 2 _,Nat.add_le_add_right hfour 2⟩)
      rcases hobeys 2 haction with hnull | hacts
      · cases hnull
      · exact set_other_acts test prof pci h₁ h₂ hacts
  case mpr =>
    intro hgood act haction
    obtain ⟨t,rest,rfl,hname⟩ := action_named haction
    rcases List.mem_cons.mp hname with hlog | hsim
    · rw [setDispatch_log _ hlog,dispatchSpecial_action] at haction
      obtain ⟨rfl,-,-,hmax,-⟩ := haction
      exact .inr (set_log_acts test prof pci hlog (Nat.le_of_succ_le_succ hmax))
    · replace hsim := List.mem_singleton.mp hsim
      cases rest with
      | nil =>
        have hfirst : (setCmdDesc (rtosSimBuild test prof pci)).comp.level1.idxOf? t.chars = some 1 := by
          rw [hsim]
          rfl
        rw [cmdDispatch_named hfirst (by rw [hsim]; decide),
          dispatchLevel2_alone (show (1 : ℕ) ≠ 0 from Nat.one_ne_zero) (show _ = some setCmdCompo12 from rfl) rfl] at haction
        cases haction
      | cons t₂ rest =>
        obtain ⟨hact,hhelp,hone,hfive⟩ := (setDispatch_sim_action test prof pci hsim).mp haction
        rw [List.length_cons,List.length_cons] at hone hfive
        rcases compo12_cases t₂ with ⟨hphy,hidx⟩ | ⟨htemp,hidx⟩ | ⟨hother,hidx⟩
        · rw [hidx] at hact hfive
          have hmax : rest.length + 2 ≤ 2 + 5 := hfive
          rw [hact]
          exact .inr (set_phy_acts test prof pci hsim hphy (by omega))
        · rw [hidx] at hone hfive
          have hmin : 2 < rest.length + 2 := hone
          have hmax : rest.length + 2 ≤ 2 + 5 := hfive
          exact absurd ⟨t,t₂,rest,rfl,hsim,hhelp,.inl ⟨htemp,by omega,by omega⟩⟩ hgood
        · rw [hidx] at hfive
          have hmax : rest.length + 2 ≤ 1 + 5 := hfive
          exact absurd ⟨t,t₂,rest,rfl,hsim,hhelp,.inr ⟨hother,by omega⟩⟩ hgood

/-- The dispatcher keeps to the declarations of `show` always, and to those of `set` exactly if the tokens are not a
`set sim` with arguments behind `temp` or behind a name that is not declared. -/
theorem dispatch_obeys_iff (args : List Token) :
    Obeys (specsValid (rtosSimBuild test prof pci)) (showCmdDesc (rtosSimBuild test prof pci)) (showCommands prof) args ∧
      (Obeys (specsValid (rtosSimBuild test prof pci)) (setCmdDesc (rtosSimBuild test prof pci)) setCommands args ↔
        ¬Astray args) :=
  ⟨show_obeys test prof pci args,set_obeys_iff test prof pci args⟩

/-- `set sim temp 5` takes its action from behind the table, and `set sim foo` runs the handler of the simulator. -/
theorem sim_off_table : let specs := specsValid (rtosSimBuild false false false)
    let desc := setCmdDesc (rtosSimBuild false false false)
    let sim : Token := ⟨ascii "sim",by decide⟩
    let temp : Token := ⟨ascii "temp",by decide⟩
    let five : Token := ⟨ascii "5",by decide⟩
    let foo : Token := ⟨ascii "foo",by decide⟩
    cmdDispatch specs desc [sim,temp,five] = .action 3 ∧ desc.action.length = 3 ∧
      ¬Obeys specs desc setCommands [sim,temp,five] ∧
      cmdDispatch specs desc [sim,foo] = .action 2 ∧ desc.action[2]? = some (some .onSetSimCommand) ∧
      ascii "foo" ∉ setCmdCompo12 ∧ ¬Obeys specs desc setCommands [sim,foo] := by
  intro specs desc sim temp five foo
  have htemp : cmdDispatch specs desc [sim,temp,five] = .action 3 := by decide +kernel
  have hfoo : cmdDispatch specs desc [sim,foo] = .action 2 := by decide +kernel
  have hother : foo.chars ∉ setCmdCompo12 := by decide
  refine ⟨htemp,rfl,?_,hfoo,rfl,hother,?_⟩
  · exact fun hobeys => set_third_acts false false false _ (hobeys 3 htemp)
  · intro hobeys
    rcases hobeys 2 hfoo with hnull | hacts
    · cases hnull
    · exact set_other_acts false false false rfl hother hacts

end Law

end EmbedTemplate.Cli
