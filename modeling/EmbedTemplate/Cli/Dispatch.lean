import EmbedTemplate.Library.Bytes
import Mathlib.Data.List.Basic

/-! # Command dispatch

`cmd_dispatch` of `cli_system.c` over any command descriptor: the tokens of a command line select
an index into the descriptor's action table, ask for help, or are refused. What is printed and
the breadcrumbs are left out.
-/
namespace EmbedTemplate.Cli
open Bytes

/-- The compile-time switches. -/
structure Build where
  rtos : Bool
  sim : Bool
  test : Bool
  prof : Bool
  pci : Bool

/-- The bytes of a string literal. -/
def ascii (s : String) : List UInt8 := s.toList.map fun c => c.toNat.toUInt8

/-- A token of a command line. The tokens end with an empty string, so none of them is empty. -/
structure Token where
  chars : List UInt8
  nonempty : chars ≠ []

def embeddedCliGetToken (args : List Token) (pos : ℕ) : Option Token := if pos = 0 then none else args[pos - 1]?

/-- `cmd_comp_t`, without the name. -/
structure CmdComp where
  level1 : List (List UInt8)
  level2 : List (List (List UInt8))
  level3 : List (ℕ × List (List UInt8))
  specIdx : ℕ

/-- `opt_mask_t` -/
structure OptMask where
  enable : ℕ
  must : ℕ

/-- `cmd_comp_desc_t`, with handlers from `α`. -/
structure CmdCompDesc (α : Type*) where
  comp : CmdComp
  actIdx : Option (List ℕ)
  optMask : OptMask
  action : List (Option α)

/-- `args_validate_t` -/
abbrev ArgsValidate := List UInt8 → ℕ → Bool

/-- What becomes of a command line. A null pointer in a string function is a result of its own. -/
inductive Decision
  | help
  | invalid
  | error
  | action (actIdx : ℕ)
  | nullToken
  deriving DecidableEq

def findIndexBy (list : List (List UInt8)) (str : Option Token) : Option ℕ := str.bind fun t => list.idxOf? t.chars

def findByIndex (table : List (ℕ × List (List UInt8))) (idx : ℕ) : Option (List (List UInt8)) := table.lookup idx

section Dispatch
variable {α : Type*} (specsValid : List (Option ArgsValidate)) (desc : CmdCompDesc α) (args : List Token) (help : Bool)

/-- The last token is a question mark. -/
def isHelp : Bool := (embeddedCliGetToken args args.length).any fun last => last.chars == ascii "?"

/-- The arguments of the given numbers, each in its place. -/
def validArgs (isArgValid : ArgsValidate) : List ℕ → Option Bool
  | [] => some true
  | i :: rest =>
    match embeddedCliGetToken args i with
    | none => none
    | some tkn => if isArgValid tkn.chars (u8 i) then validArgs isArgValid rest else some false

/-- The validation of the arguments behind the path, where the action has one. -/
def validSpecial (numTkns actIdx pathTokens : ℕ) : Option Bool :=
  match specsValid[actIdx]? with
  | some (some isArgValid) =>
    if numTkns > pathTokens then validArgs args isArgValid (List.range' (pathTokens + 1) (numTkns - pathTokens)) else some true
  | _ => some true

/-- The branch of a descriptor with special handling. -/
def dispatchSpecial (actIdx pathTokens : ℕ) (l3Opts : Option (List (List UInt8))) : Decision :=
  let numTkns := if help then args.length - 1 else args.length
  let present := if numTkns > pathTokens then numTkns - pathTokens else 0
  if l3Opts = none ∧ present > 0 then .invalid
  else if l3Opts.any fun opts => present > opts.length then .error
  else
    match validSpecial specsValid args numTkns actIdx pathTokens with
    | none => .nullToken
    | some false => .invalid
    | some true => if help ∨ (l3Opts.isSome ∧ present = 0) then .help else .action actIdx

/-- The branch of any other descriptor. -/
def dispatchStandard (actIdx : ℕ) (l3Opts : Option (List (List UInt8))) : Decision :=
  let arg3 := if args.length ≥ 3 then embeddedCliGetToken args 3 else none
  if help ∨ (l3Opts.isSome ∧ arg3.isNone ∧ desc.optMask.must.testBit actIdx) then .help
  else if arg3.isSome ∧ l3Opts.isNone then .error
  else if arg3.isSome ∧ l3Opts.any fun opts => (findIndexBy opts arg3).isNone then .invalid
  else if args.length > (if l3Opts.isSome then 3 else 2) ∧ ¬help then .error
  else .action actIdx

/-- `desc->act_idx ? desc->act_idx[l1_idx + 1] : (l1_idx + 1)` -/
def CmdCompDesc.baseIdx (l1Idx : ℕ) : ℕ :=
  match desc.actIdx with
  | some table => table[l1Idx + 1]?.getD 0
  | none => l1Idx + 1

/-- The options of an action, where it has any. -/
def CmdCompDesc.l3Opts (actIdx : ℕ) : Option (List (List UInt8)) :=
  if desc.comp.specIdx ≠ 0 ∨ desc.optMask.enable.testBit actIdx then findByIndex desc.comp.level3 actIdx else none

/-- The part behind the selection of the second level. -/
def dispatchOptions (actIdx : ℕ) (arg2 : Option Token) (l2Idx : Option ℕ) (hybrid : Bool) : Decision :=
  if l2Idx = none ∧ ¬help ∧ desc.comp.specIdx = 0 then .invalid
  else
    let actIdx := actIdx + l2Idx.getD 0
    if desc.comp.specIdx ≠ 0 then
      let pathTokens := if arg2.isSome ∧ l2Idx.isSome ∧ ¬hybrid then 2 else 1
      dispatchSpecial specsValid args help actIdx pathTokens (desc.l3Opts actIdx)
    else dispatchStandard desc args help actIdx (desc.l3Opts actIdx)

def hasL2 (l2Subcmd : List (List UInt8)) : Bool := l2Subcmd.head?.any (· ≠ [])
def isHybrid (l2Subcmd : List (List UInt8)) : Bool := l2Subcmd.head?.any (· = [])

def arg2 : Option Token := if args.length ≥ 2 then embeddedCliGetToken args 2 else none

/-- The selection of the second level. -/
def selectL2 (l2Subcmd : List (List UInt8)) : Option ℕ :=
  let found := if (arg2 args).isSome ∧ ¬(help ∧ args.length = 2) then findIndexBy l2Subcmd (arg2 args) else none
  if found = none ∧ isHybrid l2Subcmd ∧ (arg2 args).isNone then some 0 else found

/-- The part behind the selection of the first level. -/
def dispatchLevel2 (l1Idx : ℕ) : Decision :=
  let actIdx := desc.baseIdx l1Idx
  let l2Subcmd := desc.comp.level2[l1Idx]?.getD []
  let options := dispatchOptions specsValid desc args help actIdx (arg2 args) (selectL2 args help l2Subcmd) (isHybrid l2Subcmd)
  if (arg2 args).isNone ∨ (help ∧ args.length = 2) then
    if ¬hasL2 l2Subcmd ∧ desc.comp.specIdx = 0 ∧ ¬help then .action actIdx
    else if (arg2 args).isNone ∧ isHybrid l2Subcmd ∧ desc.comp.specIdx = 0 then .action actIdx
    else if desc.comp.specIdx = 0 ∨ ¬isHybrid l2Subcmd then .help
    else options
  else options

/-- `cmd_dispatch`, up to the call of the action. -/
def cmdDispatch : Decision :=
  let count := args.length
  let help := isHelp args
  if count = 0 ∨ (help ∧ count = 1) then .help
  else
    match findIndexBy desc.comp.level1 (embeddedCliGetToken args 1) with
    | none => .invalid
    | some l1Idx => dispatchLevel2 specsValid desc args help l1Idx

end Dispatch

section Standard
variable {α : Type*} {specsValid : List (Option ArgsValidate)} {desc : CmdCompDesc α} {args : List Token} {help : Bool}
variable {actIdx act : ℕ} {l3Opts : Option (List (List UInt8))}

/-- At most one option, and one of those that there are. -/
def Fits (l3Opts : Option (List (List UInt8))) (rest : List Token) : Prop :=
  rest = [] ∨ ∃ opts ∈ l3Opts, ∃ t, rest = [t] ∧ t.chars ∈ opts

theorem mem_of_idxOf? {list : List (List UInt8)} {chars : List UInt8} {i : ℕ} (h : list.idxOf? chars = some i) :
    list[i]? = some chars := by
  obtain ⟨hi,heq,-⟩ := List.findIdx?_eq_some_iff_getElem.mp h
  rw [List.getElem?_eq_getElem hi,eq_of_beq heq]

theorem not_refused {P : Prop} [Decidable P] {d e result : Decision} (h : (if P then d else e) = result)
    (hd : d ≠ result) : ¬P ∧ e = result := by
  by_cases hP : P
  · rw [if_pos hP] at h
    exact absurd h hd
  · rw [if_neg hP] at h
    exact ⟨hP,h⟩

theorem either_branch {P : Prop} [Decidable P] {d e result : Decision} (h : (if P then d else e) = result) :
    d = result ∨ e = result := by
  by_cases hP : P
  · rw [if_pos hP] at h
    exact .inl h
  · rw [if_neg hP] at h
    exact .inr h

theorem dispatchStandard_action (h : dispatchStandard desc args help actIdx l3Opts = .action act) :
    act = actIdx ∧ help = false ∧ Fits l3Opts (args.drop 2) := by
  unfold dispatchStandard at h
  obtain ⟨hhelp,h⟩ := not_refused h nofun
  obtain ⟨herror,h⟩ := not_refused h nofun
  obtain ⟨hinvalid,h⟩ := not_refused h nofun
  obtain ⟨hcount,h⟩ := not_refused h nofun
  injection h with hact
  have hnone : help = false := Bool.eq_false_of_not_eq_true fun hcase => hhelp (.inl hcase)
  refine ⟨hact.symm,hnone,?_⟩
  subst hnone
  match args,herror,hinvalid,hcount with
  | [],_,_,_ => exact .inl rfl
  | [_],_,_,_ => exact .inl rfl
  | [_,_],_,_,_ => exact .inl rfl
  | [_,_,t],herror,hinvalid,_ =>
    cases l3Opts with
    | none => exact absurd ⟨rfl,rfl⟩ herror
    | some opts =>
      have hfound : ¬(opts.idxOf? t.chars).isNone = true := fun hcase => hinvalid ⟨rfl,hcase⟩
      rw [Option.isNone_iff_eq_none,List.idxOf?_eq_none_iff,not_not] at hfound
      exact .inr ⟨opts,rfl,t,rfl,hfound⟩
  | _ :: _ :: _ :: _ :: more,_,_,hcount =>
    have hfour : more.length + 4 > if l3Opts.isSome then 3 else 2 := by
      split
      · omega
      · omega
    exact absurd ⟨hfour,Bool.false_ne_true⟩ hcount

/-- The tokens select an action by their names in the tables of the two levels. -/
inductive Selects (desc : CmdCompDesc α) : List Token → ℕ → Prop
  | bare (t₁ : Token) (l1Idx : ℕ) (hfirst : desc.comp.level1.idxOf? t₁.chars = some l1Idx)
      (hleaf : hasL2 (desc.comp.level2[l1Idx]?.getD []) = false) : Selects desc [t₁] (desc.baseIdx l1Idx)
  | sub (t₁ t₂ : Token) (rest : List Token) (l1Idx l2Idx : ℕ) (hfirst : desc.comp.level1.idxOf? t₁.chars = some l1Idx)
      (hsecond : (desc.comp.level2[l1Idx]?.getD []).idxOf? t₂.chars = some l2Idx)
      (hrest : Fits (desc.l3Opts (desc.baseIdx l1Idx + l2Idx)) rest) :
      Selects desc (t₁ :: t₂ :: rest) (desc.baseIdx l1Idx + l2Idx)

theorem not_hybrid {l2Subcmd : List (List UInt8)} (h : hasL2 l2Subcmd = true) : isHybrid l2Subcmd = false := by
  cases l2Subcmd with
  | nil => exact absurd h Bool.false_ne_true
  | cons name names => exact decide_eq_false (of_decide_eq_true h)

theorem dispatchLevel2_bare {t₁ : Token} {l1Idx : ℕ} (hspec : desc.comp.specIdx = 0)
    (hfirst : desc.comp.level1.idxOf? t₁.chars = some l1Idx)
    (h : dispatchLevel2 specsValid desc [t₁] false l1Idx = .action act) : Selects desc [t₁] act := by
  unfold dispatchLevel2 at h
  dsimp only at h
  rw [if_pos (.inl rfl)] at h
  cases hleaf : hasL2 (desc.comp.level2[l1Idx]?.getD []) with
  | false =>
    rw [hleaf,if_pos ⟨Bool.false_ne_true,hspec,Bool.false_ne_true⟩] at h
    injection h with hact
    rw [← hact]
    exact .bare t₁ l1Idx hfirst hleaf
  | true =>
    rw [hleaf,not_hybrid hleaf,if_neg fun hcase => hcase.1 rfl,if_neg fun hcase => Bool.false_ne_true hcase.2.1,
      if_pos (.inl hspec)] at h
    cases h

theorem dispatchOptions_action {arg2 : Option Token} {l2Idx : Option ℕ} {hybrid : Bool} (hspec : desc.comp.specIdx = 0)
    (h : dispatchOptions specsValid desc args help actIdx arg2 l2Idx hybrid = .action act) :
    help = false ∧ ∃ i, l2Idx = some i ∧ act = actIdx + i ∧ Fits (desc.l3Opts (actIdx + i)) (args.drop 2) := by
  unfold dispatchOptions at h
  obtain ⟨hfound,h⟩ := not_refused h nofun
  dsimp only at h
  rw [if_neg (not_not.mpr hspec)] at h
  obtain ⟨hact,hhelp,hfits⟩ := dispatchStandard_action h
  cases l2Idx with
  | none => exact absurd ⟨rfl,by rw [hhelp]; exact Bool.false_ne_true,hspec⟩ hfound
  | some i => exact ⟨hhelp,i,rfl,hact,hfits⟩

theorem dispatchLevel2_sub {t₁ t₂ : Token} {rest : List Token} {l1Idx : ℕ} (hspec : desc.comp.specIdx = 0)
    (hfirst : desc.comp.level1.idxOf? t₁.chars = some l1Idx)
    (h : dispatchLevel2 specsValid desc (t₁ :: t₂ :: rest) help l1Idx = .action act) :
    Selects desc (t₁ :: t₂ :: rest) act := by
  have harg2 : arg2 (t₁ :: t₂ :: rest) = some t₂ := if_pos (Nat.le_add_left 2 rest.length)
  unfold dispatchLevel2 at h
  dsimp only at h
  rw [harg2] at h
  by_cases hask : help ∧ (t₁ :: t₂ :: rest).length = 2
  · rw [if_pos (.inr hask),if_neg fun hcase => hcase.2.2 hask.1,if_neg fun hcase => Bool.false_ne_true hcase.1,
      if_pos (.inl hspec)] at h
    cases h
  · rw [if_neg (by rintro (hcase | hcase); exacts [Bool.false_ne_true hcase,hask hcase])] at h
    obtain ⟨-,i,hfound,hact,hfits⟩ := dispatchOptions_action hspec h
    unfold selectL2 at hfound
    rw [harg2,if_neg fun hcase => Bool.false_ne_true hcase.2.2,if_pos ⟨rfl,hask⟩] at hfound
    rw [hact]
    exact .sub t₁ t₂ rest l1Idx i hfirst hfound hfits

/-- A descriptor without special handling acts on tokens that select the action only. -/
theorem standard_selects (hspec : desc.comp.specIdx = 0) (h : cmdDispatch specsValid desc args = .action act) :
    Selects desc args act := by
  unfold cmdDispatch at h
  obtain ⟨hsome,h⟩ := not_refused h nofun
  match args,hsome,h with
  | [],hsome,_ => exact absurd (.inl rfl) hsome
  | t₁ :: more,hsome,h =>
    have harg1 : findIndexBy desc.comp.level1 (embeddedCliGetToken (t₁ :: more) 1) =
      desc.comp.level1.idxOf? t₁.chars := rfl
    rw [harg1] at h
    cases hfirst : desc.comp.level1.idxOf? t₁.chars with
    | none =>
      rw [hfirst] at h
      cases h
    | some l1Idx =>
      rw [hfirst] at h
      cases more with
      | nil =>
        have hhelp : isHelp [t₁] = false := Bool.eq_false_of_not_eq_true fun hcase => hsome (.inr ⟨hcase,rfl⟩)
        dsimp only at h
        rw [hhelp] at h
        exact dispatchLevel2_bare hspec hfirst h
      | cons t₂ rest => exact dispatchLevel2_sub hspec hfirst h

end Standard

section Special
variable {α : Type*} {specsValid : List (Option ArgsValidate)} {desc : CmdCompDesc α} {args : List Token} {help : Bool}
variable {actIdx act pathTokens : ℕ} {opts : List (List UInt8)}

theorem validArgs_isSome (isArgValid : ArgsValidate) (numbers : List ℕ) (h : ∀ i ∈ numbers, 0 < i ∧ i ≤ args.length) :
    validArgs args isArgValid numbers ≠ none := by
  induction numbers with
  | nil => exact nofun
  | cons i rest ih =>
    obtain ⟨hpos,hle⟩ := h i List.mem_cons_self
    obtain ⟨t,ht⟩ : ∃ t, embeddedCliGetToken args i = some t := by
      unfold embeddedCliGetToken
      rw [if_neg (Nat.ne_of_gt hpos),List.getElem?_eq_getElem (by omega)]
      exact ⟨_,rfl⟩
    unfold validArgs
    rw [ht]
    dsimp only
    split
    · exact ih fun j hj => h j (List.mem_cons_of_mem i hj)
    · exact nofun

theorem validSpecial_isSome {numTkns : ℕ} (hnum : numTkns ≤ args.length) :
    validSpecial specsValid args numTkns actIdx pathTokens ≠ none := by
  unfold validSpecial
  split
  · split
    · apply validArgs_isSome
      intro i hi
      rw [List.mem_range'_1] at hi
      omega
    · exact nofun
  · exact nofun

theorem dispatchSpecial_action : dispatchSpecial specsValid args help actIdx pathTokens (some opts) = .action act ↔
    act = actIdx ∧ help = false ∧ pathTokens < args.length ∧ args.length ≤ pathTokens + opts.length ∧
      validSpecial specsValid args args.length actIdx pathTokens = some true := by
  unfold dispatchSpecial
  constructor
  case mp =>
    intro h
    obtain ⟨-,h⟩ := not_refused h nofun
    obtain ⟨herror,h⟩ := not_refused h nofun
    have herror' : ¬(if (if help then args.length - 1 else args.length) > pathTokens
        then (if help then args.length - 1 else args.length) - pathTokens else 0) > opts.length := by
      intro hcase
      exact herror (decide_eq_true hcase)
    split at h
    · cases h
    · cases h
    · rename_i hvalid
      obtain ⟨hhelp,h⟩ := not_refused h nofun
      injection h with hact
      have hnone : help = false := Bool.eq_false_of_not_eq_true fun hcase => hhelp (.inl hcase)
      subst hnone
      rw [if_neg Bool.false_ne_true] at hvalid herror'
      have hsome : pathTokens < args.length := by
        by_contra hle
        exact hhelp (.inr ⟨rfl,if_neg (by rwa [if_neg Bool.false_ne_true])⟩)
      rw [if_pos hsome] at herror'
      exact ⟨hact.symm,rfl,hsome,by omega,hvalid⟩
  case mpr =>
    rintro ⟨rfl,rfl,hsome,hmax,hvalid⟩
    have hpresent : (if args.length > pathTokens then args.length - pathTokens else 0) = args.length - pathTokens :=
      if_pos hsome
    have hfew : ¬((some opts).any fun opts => args.length - pathTokens > opts.length) = true := by
      intro hcase
      have hlt := of_decide_eq_true hcase
      omega
    have hmany : ¬(false = true ∨ ((some opts).isSome = true ∧ args.length - pathTokens = 0)) := by
      rintro (hcase | hcase)
      · exact Bool.false_ne_true hcase
      · omega
    dsimp only
    rw [if_neg Bool.false_ne_true,hpresent,if_neg fun hcase => absurd hcase.1 nofun,
      if_neg hfew,hvalid]
    exact if_neg hmany

variable {l1Idx : ℕ} {t t₁ t₂ : Token} {rest : List Token}

theorem dispatchOptions_special {arg2 : Option Token} {l2Idx : Option ℕ} {hybrid : Bool}
    (hspec : desc.comp.specIdx ≠ 0) :
    dispatchOptions specsValid desc args help actIdx arg2 l2Idx hybrid =
      dispatchSpecial specsValid args help (actIdx + l2Idx.getD 0) (if arg2.isSome ∧ l2Idx.isSome ∧ ¬hybrid then 2 else 1)
        (desc.l3Opts (actIdx + l2Idx.getD 0)) := by
  unfold dispatchOptions
  rw [if_neg fun hcase => hspec hcase.2.2]
  exact if_pos hspec

/-- A command of the first level alone takes everything behind its name as arguments. -/
theorem dispatchLevel2_hybrid (hspec : desc.comp.specIdx ≠ 0) (hnames : desc.comp.level2[l1Idx]? = some [[]]) :
    dispatchLevel2 specsValid desc (t :: rest) help l1Idx =
      dispatchSpecial specsValid (t :: rest) help (desc.baseIdx l1Idx) 1 (desc.l3Opts (desc.baseIdx l1Idx)) := by
  have hselect : (selectL2 (t :: rest) help [[]]).getD 0 = 0 := by
    unfold selectL2
    cases rest with
    | nil => rfl
    | cons t₂ rest =>
      have hnone : findIndexBy [[]] (arg2 (t :: t₂ :: rest)) = none := by
        have harg2 : arg2 (t :: t₂ :: rest) = some t₂ := if_pos (Nat.le_add_left 2 rest.length)
        rw [harg2]
        exact List.idxOf?_eq_none_iff.mpr fun hin => t₂.nonempty (List.mem_singleton.mp hin)
      dsimp only
      rw [hnone,ite_self]
      split
      · rfl
      · rfl
  have hoptions : dispatchOptions specsValid desc (t :: rest) help (desc.baseIdx l1Idx) (arg2 (t :: rest))
      (selectL2 (t :: rest) help [[]]) (isHybrid [[]]) =
      dispatchSpecial specsValid (t :: rest) help (desc.baseIdx l1Idx) 1 (desc.l3Opts (desc.baseIdx l1Idx)) := by
    have hpath : ¬((arg2 (t :: rest)).isSome = true ∧ (selectL2 (t :: rest) help [[]]).isSome = true ∧
        ¬isHybrid [[]] = true) := fun hcase => hcase.2.2 rfl
    rw [dispatchOptions_special hspec,hselect,if_neg hpath]
    rfl
  have hstandard : ¬(¬hasL2 [[]] = true ∧ desc.comp.specIdx = 0 ∧ ¬help = true) := fun hcase => hspec hcase.2.1
  have hleaf : ¬((arg2 (t :: rest)).isNone = true ∧ isHybrid [[]] = true ∧ desc.comp.specIdx = 0) :=
    fun hcase => hspec hcase.2.2
  have hhelp : ¬(desc.comp.specIdx = 0 ∨ ¬isHybrid [[]] = true) := by
    rintro (hcase | hcase)
    · exact hspec hcase
    · exact hcase rfl
  unfold dispatchLevel2
  rw [hnames]
  dsimp only [Option.getD_some]
  rw [hoptions,if_neg hstandard,if_neg hleaf,if_neg hhelp,ite_self]

/-- A command with names on the second level asks for one of them, -/
theorem dispatchLevel2_alone {names : List (List UInt8)} (hspec : desc.comp.specIdx ≠ 0)
    (hnames : desc.comp.level2[l1Idx]? = some names) (hleaf : hasL2 names = true) :
    dispatchLevel2 specsValid desc [t] help l1Idx = .help := by
  have hstandard : ¬(¬hasL2 names = true ∧ desc.comp.specIdx = 0 ∧ ¬help = true) := fun hcase => hspec hcase.2.1
  have hbare : ¬((arg2 [t]).isNone = true ∧ isHybrid names = true ∧ desc.comp.specIdx = 0) :=
    fun hcase => hspec hcase.2.2
  have hhybrid : ¬isHybrid names = true := by
    rw [not_hybrid hleaf]
    exact Bool.false_ne_true
  unfold dispatchLevel2
  rw [hnames]
  dsimp only [Option.getD_some]
  rw [if_pos (.inl rfl),if_neg hstandard,if_neg hbare,if_pos (.inr hhybrid)]

/-- and takes any other name for its first argument. -/
theorem dispatchLevel2_named {names : List (List UInt8)} (hspec : desc.comp.specIdx ≠ 0)
    (hnames : desc.comp.level2[l1Idx]? = some names) (hleaf : hasL2 names = true) :
    dispatchLevel2 specsValid desc (t₁ :: t₂ :: rest) help l1Idx =
      if help ∧ rest = [] then .help
      else
        dispatchSpecial specsValid (t₁ :: t₂ :: rest) help (desc.baseIdx l1Idx + (names.idxOf? t₂.chars).getD 0)
          (if (names.idxOf? t₂.chars).isSome then 2 else 1)
          (desc.l3Opts (desc.baseIdx l1Idx + (names.idxOf? t₂.chars).getD 0)) := by
  have harg2 : arg2 (t₁ :: t₂ :: rest) = some t₂ := if_pos (Nat.le_add_left 2 rest.length)
  have hhybrid := not_hybrid hleaf
  have hstandard : ¬(¬hasL2 names = true ∧ desc.comp.specIdx = 0 ∧ ¬help = true) := fun hcase => hspec hcase.2.1
  have hbare : ¬((some t₂).isNone = true ∧ isHybrid names = true ∧ desc.comp.specIdx = 0) :=
    fun hcase => hspec hcase.2.2
  have hlast : (t₁ :: t₂ :: rest).length = 2 ↔ rest = [] := by
    rw [← List.length_eq_zero_iff,List.length_cons,List.length_cons]
    omega
  unfold dispatchLevel2
  rw [hnames,harg2]
  dsimp only [Option.getD_some]
  by_cases hask : help ∧ rest = []
  · rw [if_pos (.inr ⟨hask.1,hlast.mpr hask.2⟩),if_neg hstandard,if_neg hbare,
      if_pos (.inr (by rw [hhybrid]; exact Bool.false_ne_true)),if_pos hask]
  · have hgo : ¬(help = true ∧ (t₁ :: t₂ :: rest).length = 2) := fun hcase => hask ⟨hcase.1,hlast.mp hcase.2⟩
    have hselect : selectL2 (t₁ :: t₂ :: rest) help names = names.idxOf? t₂.chars := by
      have hfound : (if (some t₂).isSome = true ∧ ¬(help = true ∧ (t₁ :: t₂ :: rest).length = 2)
          then findIndexBy names (some t₂) else none) = names.idxOf? t₂.chars := if_pos ⟨rfl,hgo⟩
      unfold selectL2
      rw [harg2,hfound]
      exact if_neg fun hcase => Bool.false_ne_true hcase.2.2
    have hpath : (if (some t₂).isSome = true ∧ (names.idxOf? t₂.chars).isSome = true ∧ ¬false = true then 2 else 1) =
        if (names.idxOf? t₂.chars).isSome = true then 2 else 1 := by
      simp
    rw [if_neg (by rintro (hcase | hcase); exacts [Bool.false_ne_true hcase,hgo hcase]),if_neg hask,
      dispatchOptions_special hspec,hselect,hhybrid,hpath]

theorem dispatchSpecial_token {l3Opts : Option (List (List UInt8))} :
    dispatchSpecial specsValid args help actIdx pathTokens l3Opts ≠ .nullToken := by
  have hnum : (if help then args.length - 1 else args.length) ≤ args.length := by
    split
    · exact Nat.sub_le _ _
    · exact Nat.le_refl _
  have hvalid := @validSpecial_isSome specsValid args actIdx pathTokens _ hnum
  intro h
  unfold dispatchSpecial at h
  obtain ⟨-,h⟩ := not_refused h nofun
  obtain ⟨-,h⟩ := not_refused h nofun
  split at h
  · rename_i hnone
    exact hvalid hnone
  · cases h
  · exact Decision.noConfusion (not_refused h nofun).2

theorem dispatchOptions_token {arg2 : Option Token} {l2Idx : Option ℕ} {hybrid : Bool} :
    dispatchOptions specsValid desc args help actIdx arg2 l2Idx hybrid ≠ .nullToken := by
  intro h
  unfold dispatchOptions at h
  obtain ⟨-,h⟩ := not_refused h nofun
  obtain ⟨-,h⟩ := not_refused h dispatchSpecial_token
  unfold dispatchStandard at h
  obtain ⟨-,h⟩ := not_refused h nofun
  obtain ⟨-,h⟩ := not_refused h nofun
  obtain ⟨-,h⟩ := not_refused h nofun
  exact Decision.noConfusion (not_refused h nofun).2

/-- The dispatcher itself never hands a missing token to a string function. -/
theorem cmdDispatch_token : cmdDispatch specsValid desc args ≠ .nullToken := by
  intro h
  unfold cmdDispatch at h
  obtain ⟨-,h⟩ := not_refused h nofun
  split at h
  · cases h
  · unfold dispatchLevel2 at h
    rcases either_branch h with h | h
    · obtain ⟨-,h⟩ := not_refused h nofun
      obtain ⟨-,h⟩ := not_refused h nofun
      obtain ⟨-,h⟩ := not_refused h nofun
      exact dispatchOptions_token h
    · exact dispatchOptions_token h

end Special

end EmbedTemplate.Cli
