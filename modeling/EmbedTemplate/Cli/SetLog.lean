import EmbedTemplate.Cli.Commands
import EmbedTemplate.Library.LastWrite

/-! # Setting log levels

`set log <domain> <entity> <level>` from the dispatcher to the cells of the level matrix. The
dispatcher validates the arguments that are there, and also passes on fewer of them than the
handler reads.
-/
namespace EmbedTemplate.Cli
open Bytes LastWrite

section Handler
variable (f : Build)

/-- `PACK_ID` -/
def packId (did eid : ℕ) : ℕ := ((did &&& 3) <<< 4) ||| (eid &&& 15)

/-- `MAX_LOG_LEVEL` -/
def maxLogLevel : ℕ := 50

def logSetLevel (logLevel : ℕ → UInt8) (did eid level : ℕ) : ℕ → UInt8 :=
  if did < numDomains ∧ eid < numEntities ∧ level ≤ maxLogLevel then Function.update logLevel (packId did eid) level.toUInt8
  else logLevel

/-- The loops of `on_set_log_command` over the domains and entities. -/
def setLevels (logLevel : ℕ → UInt8) (allDomains allEntities : Bool) (did eid level : ℕ) : ℕ → UInt8 :=
  (List.range' 1 (numDomains - 1)).foldl
    (fun logLevel d =>
      if ¬allDomains ∧ d ≠ did then logLevel
      else
        (List.range numEntities).foldl
          (fun logLevel e => if ¬allEntities ∧ e ≠ eid then logLevel else logSetLevel logLevel d e level) logLevel)
    logLevel

/-- `on_set_log_command`, or nothing where a missing token is hashed or compared. -/
def onSetLogCommand (logLevel : ℕ → UInt8) (args : List Token) : Option (ℕ → UInt8) := do
  let lvl ← embeddedCliGetToken args 4
  match findNameId levelMap lvl.chars with
  | none => some logLevel
  | some level =>
    let dom ← embeddedCliGetToken args 2
    let ent ← embeddedCliGetToken args 3
    let allDomains := dom.chars == ascii "all"
    let allEntities := ent.chars == ascii "all"
    match if allDomains then some 0 else findNameId (domainMap f) dom.chars with
    | none => some logLevel
    | some did =>
      match if allEntities then some 0 else findNameId (entityMap f) ent.chars with
      | none => some logLevel
      | some eid => some (setLevels logLevel allDomains allEntities did eid level)

/-- `on_set_command`, as far as the log levels are concerned. -/
def onSetCommand (logLevel : ℕ → UInt8) (args : List Token) : Option (ℕ → UInt8) :=
  match cmdDispatch (specsValid f) (setCmdDesc f) args with
  | .nullToken => none
  | .action act =>
    match (setCmdDesc f).action[act]? with
    | some (some .onSetLogCommand) => onSetLogCommand f logLevel args
    | _ => some logLevel
  | _ => some logLevel

end Handler

section Selection
variable (f : Build) {dom ent : List UInt8} {did eid level : ℕ}

/-- A domain that is named, alone or with all others. -/
def namesDomain (dom : List UInt8) (did : ℕ) : Bool :=
  dom == ascii "all" || ((domMapEn f).testBit did && dom == domainName did false)

def namesEntity (ent : List UInt8) (eid : ℕ) : Bool :=
  ent == ascii "all" || ((entMapEn f).testBit eid && ent == entityName eid false)

/-- The cells of the matrix that are selected. -/
def selected (dom ent : List UInt8) (cell : ℕ) : Bool :=
  (List.range' 1 (numDomains - 1)).any fun did => namesDomain f dom did && (List.range numEntities).any fun eid =>
    namesEntity f ent eid && cell == packId did eid

theorem logSetLevel_apply (logLevel : ℕ → UInt8) (hdid : did ∈ List.range' 1 (numDomains - 1))
    (heid : eid ∈ List.range numEntities) (hlevel : level ≤ maxLogLevel) (cell : ℕ) :
    logSetLevel logLevel did eid level cell = if cell == packId did eid then level.toUInt8 else logLevel cell := by
  have hlow : did < numDomains := by
    rw [List.mem_range'_1] at hdid
    exact hdid.2
  unfold logSetLevel
  rw [if_pos ⟨hlow,List.mem_range.mp heid,hlevel⟩,Function.update_apply]
  by_cases hcell : cell = packId did eid
  · rw [if_pos hcell,if_pos (beq_iff_eq.mpr hcell)]
  · rw [if_neg hcell,if_neg (mt beq_iff_eq.mp hcell)]

/-- A loop that skips all but one of its rounds, or none of them. -/
theorem skip_apply {m n : ℕ → UInt8} {all writes : Bool} {i j x : ℕ} {v : UInt8} (h : n x = if writes then v else m x) :
    (if ¬all ∧ i ≠ j then m else n) x = if (all || i == j) && writes then v else m x := by
  by_cases hskip : ¬all ∧ i ≠ j
  · have hall : (all || i == j) = false := by
      rw [Bool.or_eq_false_iff]
      exact ⟨Bool.eq_false_of_not_eq_true hskip.1,beq_false_of_ne hskip.2⟩
    rw [if_pos hskip,hall]
    rfl
  · have hall : (all || i == j) = true := by
      rw [Bool.or_eq_true,beq_iff_eq]
      by_contra hcase
      rw [not_or] at hcase
      exact hskip hcase
    rw [if_neg hskip,hall,h,Bool.true_and]

/-- The loops store the level in the cells of the chosen domains and entities. -/
theorem setLevels_apply (logLevel : ℕ → UInt8) (allDomains allEntities : Bool) (hlevel : level ≤ maxLogLevel)
    (cell : ℕ) :
    setLevels logLevel allDomains allEntities did eid level cell =
      if (List.range' 1 (numDomains - 1)).any fun d => (allDomains || d == did) && (List.range numEntities).any fun e =>
        (allEntities || e == eid) && cell == packId d e then level.toUInt8 else logLevel cell := by
  have hrow : ∀ d ∈ List.range' 1 (numDomains - 1), ∀ (m : ℕ → UInt8) (x : ℕ),
      (List.range numEntities).foldl (fun m e => if ¬allEntities ∧ e ≠ eid then m else logSetLevel m d e level) m x =
        if (List.range numEntities).any fun e => (allEntities || e == eid) && x == packId d e then level.toUInt8 else m x := by
    intro d hd m x
    refine @foldl_stores _ _ _ _ (fun e x => (allEntities || e == eid) && x == packId d e) _ _ ?_ m x
    intro e he m x
    exact skip_apply (logSetLevel_apply m hd he hlevel x)
  unfold setLevels
  refine @foldl_stores _ _ _ _ (fun d x => (allDomains || d == did) && (List.range numEntities).any fun e =>
    (allEntities || e == eid) && x == packId d e) _ _ ?_ logLevel cell
  intro d hd m x
  exact skip_apply (hrow d hd m x)

theorem setLogValidate_domain : setLogValidate f dom 2 = (List.range' 1 (numDomains - 1)).any (namesDomain f dom) := by
  have hname : namesDomain f dom = fun did => dom == ascii "all" || ((domMapEn f).testBit did && dom == domainName did false) := rfl
  unfold setLogValidate
  rw [hname]
  by_cases hall : dom = ascii "all"
  · rw [if_pos ⟨.inl rfl,hall⟩,beq_iff_eq.mpr hall]
    rfl
  · rw [if_neg fun hcase => hall hcase.2,if_pos rfl,beq_false_of_ne hall]
    rfl

theorem setLogValidate_entity : setLogValidate f ent 3 = (List.range numEntities).any (namesEntity f ent) := by
  have hname : namesEntity f ent = fun eid => ent == ascii "all" || ((entMapEn f).testBit eid && ent == entityName eid false) := rfl
  unfold setLogValidate
  rw [hname]
  by_cases hall : ent = ascii "all"
  · rw [if_pos ⟨.inr rfl,hall⟩,beq_iff_eq.mpr hall]
    rfl
  · rw [if_neg fun hcase => hall hcase.2,if_neg (by decide),if_pos rfl,beq_false_of_ne hall]
    rfl

theorem setLogValidate_level {lvl : List UInt8} : setLogValidate f lvl 4 = levelId.any
    fun level => lvl == levelName level false := by
  unfold setLogValidate
  rw [if_neg fun hcase => absurd hcase.1 (by decide),if_neg (by decide),if_neg (by decide),if_pos rfl]

theorem domainName_inj : ∀ did ∈ List.range' 1 (numDomains - 1), ∀ other ∈ List.range' 1 (numDomains - 1),
    domainName other false = domainName did false → other = did := by decide +kernel

theorem entityName_inj : ∀ eid ∈ List.range numEntities, ∀ other ∈ List.range numEntities,
    entityName other false = entityName eid false → other = eid := by decide +kernel

/-- A name that passes the validation stands for all or for a single one. -/
theorem named {ids : List ℕ} {enabled : ℕ → Bool} {name : ℕ → List UInt8} {chars : List UInt8}
    (hinj : ∀ i ∈ ids, ∀ j ∈ ids, name j = name i → j = i)
    (h : (ids.any fun i => chars == ascii "all" || (enabled i && chars == name i)) = true) :
    (chars == ascii "all") = true ∨ (chars == ascii "all") = false ∧ ∃ i ∈ ids, enabled i = true ∧ chars = name i ∧
      ∀ j ∈ ids, (j == i) = (enabled j && chars == name j) := by
  obtain ⟨i,hi,hnamed⟩ := List.any_eq_true.mp h
  cases hall : chars == ascii "all" with
  | true => exact .inl rfl
  | false =>
    rw [hall,Bool.false_or,Bool.and_eq_true,beq_iff_eq] at hnamed
    refine .inr ⟨rfl,i,hi,hnamed.1,hnamed.2,?_⟩
    intro j hj
    by_cases hsame : j = i
    · rw [hsame,hnamed.1,beq_self_eq_true,beq_iff_eq.mpr hnamed.2]
      rfl
    · have hother : chars ≠ name j := fun hcase => hsame (hinj i hi j hj (hcase.symm.trans hnamed.2))
      rw [beq_false_of_ne hsame,beq_false_of_ne hother,Bool.and_false]

theorem domain_lookup (h : (List.range' 1 (numDomains - 1)).any (namesDomain f dom) = true) :
    ∃ did, (if dom == ascii "all" then some 0 else findNameId (domainMap f) dom) = some did ∧
      ∀ d ∈ List.range' 1 (numDomains - 1), (dom == ascii "all" || d == did) = namesDomain f dom d := by
  unfold namesDomain at h ⊢
  rcases named domainName_inj h with hall | ⟨hall,did,hdid,henabled,hname,hsame⟩
  · rw [hall]
    exact ⟨0,rfl,fun _ _ => rfl⟩
  · have hfound := findNameId_domain f did hdid henabled
    rw [← hname] at hfound
    rw [hall,if_neg Bool.false_ne_true]
    exact ⟨did,hfound,hsame⟩

/-- The entity without a name is the only one that is not found. -/
theorem entity_lookup (h : (List.range numEntities).any (namesEntity f ent) = true) :
    (if ent == ascii "all" then some 0 else findNameId (entityMap f) ent) = none ∨
      ∃ eid, (if ent == ascii "all" then some 0 else findNameId (entityMap f) ent) = some eid ∧
        ∀ e ∈ List.range numEntities, (ent == ascii "all" || e == eid) = namesEntity f ent e := by
  unfold namesEntity at h ⊢
  rcases named entityName_inj h with hall | ⟨hall,eid,heid,henabled,hname,hsame⟩
  · rw [hall]
    exact .inr ⟨0,rfl,fun _ _ => rfl⟩
  · have hfound := findNameId_entity f eid heid henabled
    rw [← hname] at hfound
    rw [hall,if_neg Bool.false_ne_true]
    by_cases hzero : eid = 0
    · rw [if_pos hzero] at hfound
      exact .inl hfound
    · rw [if_neg hzero] at hfound
      exact .inr ⟨eid,hfound,hsame⟩

theorem any_congr_mem {ids : List ℕ} {p q : ℕ → Bool} (h : ∀ i ∈ ids, p i = q i) : ids.any p = ids.any q := by
  rw [Bool.eq_iff_iff,List.any_eq_true,List.any_eq_true]
  constructor
  case mp => exact fun ⟨i,hi,hp⟩ => ⟨i,hi,(h i hi).symm.trans hp⟩
  case mpr => exact fun ⟨i,hi,hq⟩ => ⟨i,hi,(h i hi).trans hq⟩

end Selection

section Law
variable (f : Build) {logLevel : ℕ → UInt8} {t dom ent lvl : Token} {rest : List Token}

/-- The level is set in all cells that are selected and in no others, or nothing changes. No missing token is handed
to a string function. -/
def AllOrNothing (logLevel : ℕ → UInt8) (rest : List Token) (result : Option (ℕ → UInt8)) : Prop :=
  ∃ after, result = some after ∧ (after = logLevel ∨ ∃ dom ent lvl : Token, ∃ level ∈ levelId, rest = [dom,ent,lvl] ∧
    (List.range' 1 (numDomains - 1)).any (namesDomain f dom.chars) = true ∧
    (List.range numEntities).any (namesEntity f ent.chars) = true ∧ lvl.chars = levelName level false ∧
    ∀ cell, after cell = if selected f dom.chars ent.chars cell then level.toUInt8 else logLevel cell)

/-- Only the first one or two arguments are there, and they are valid. -/
def Incomplete (rest : List Token) : Prop :=
  (∃ dom : Token, rest = [dom] ∧ setLogValidate f dom.chars 2 = true) ∨
    ∃ dom ent : Token, rest = [dom,ent] ∧ setLogValidate f dom.chars 2 = true ∧ setLogValidate f ent.chars 3 = true

theorem level_le : ∀ level ∈ levelId, level ≤ maxLogLevel := by decide

theorem onSetLogCommand_full (hdom : setLogValidate f dom.chars 2 = true) (hent : setLogValidate f ent.chars 3 = true)
    (hlvl : setLogValidate f lvl.chars 4 = true) :
    AllOrNothing f logLevel [dom,ent,lvl] (onSetLogCommand f logLevel [t,dom,ent,lvl]) := by
  rw [setLogValidate_domain] at hdom
  rw [setLogValidate_entity] at hent
  rw [setLogValidate_level] at hlvl
  obtain ⟨level,hlevel,hname⟩ := List.any_eq_true.mp hlvl
  rw [beq_iff_eq] at hname
  obtain ⟨did,hdid,hdomains⟩ := domain_lookup f hdom
  have hfound := findNameId_level level hlevel
  rw [← hname] at hfound
  have hresult : onSetLogCommand f logLevel [t,dom,ent,lvl] =
      match if ent.chars == ascii "all" then some 0 else findNameId (entityMap f) ent.chars with
      | none => some logLevel
      | some eid => some (setLevels logLevel (dom.chars == ascii "all") (ent.chars == ascii "all") did eid level) := by
    have htwo : embeddedCliGetToken [t,dom,ent,lvl] 2 = some dom := rfl
    have hthree : embeddedCliGetToken [t,dom,ent,lvl] 3 = some ent := rfl
    have hfour : embeddedCliGetToken [t,dom,ent,lvl] 4 = some lvl := rfl
    unfold onSetLogCommand
    simp only [htwo,hthree,hfour,hfound,hdid,Option.bind_eq_bind,Option.bind_some]
  rcases entity_lookup f hent with hnone | ⟨eid,heid,hentities⟩
  · rw [hresult,hnone]
    exact ⟨logLevel,rfl,.inl rfl⟩
  · rw [hresult,heid]
    refine ⟨_,rfl,.inr ⟨dom,ent,lvl,level,hlevel,rfl,hdom,hent,hname,?_⟩⟩
    intro cell
    have hcells : ((List.range' 1 (numDomains - 1)).any fun d => (dom.chars == ascii "all" || d == did) &&
        (List.range numEntities).any fun e => (ent.chars == ascii "all" || e == eid) && cell == packId d e) =
        selected f dom.chars ent.chars cell := by
      apply any_congr_mem
      intro d hd
      rw [hdomains d hd]
      congr 1
      apply any_congr_mem
      intro e he
      rw [hentities e he]
    rw [setLevels_apply logLevel _ _ (level_le level hlevel) cell,hcells]

theorem onSetLogCommand_missing (h : rest.length < 3) : onSetLogCommand f logLevel (t :: rest) = none := by
  have hnone : embeddedCliGetToken (t :: rest) 4 = none := by
    apply List.getElem?_eq_none
    exact Nat.succ_le_of_lt h
  unfold onSetLogCommand
  rw [hnone]
  rfl

def logToken : Token := ⟨ascii "log",by decide⟩

/-- What reaches the handler are one to three valid arguments. -/
theorem setLog_action {act : ℕ} (rest : List Token) :
    cmdDispatch (specsValid f) (setCmdDesc f) (logToken :: rest) = .action act ↔
      act = setLog ∧ isHelp (logToken :: rest) = false ∧ rest ≠ [] ∧ rest.length ≤ 3 ∧
        validArgs (logToken :: rest) (setLogValidate f) (List.range' 2 rest.length) = some true := by
  have hcount : (logToken :: rest).length > 1 ↔ rest ≠ [] := by
    rw [List.length_cons,← List.length_pos_iff]
    omega
  have hmax : (logToken :: rest).length ≤ 1 + setCmdLogArgs.length ↔ rest.length ≤ 3 := by
    rw [Nat.add_comm]
    exact Nat.add_le_add_iff_right
  have hvalid : rest ≠ [] → validSpecial (specsValid f) (logToken :: rest) (logToken :: rest).length setLog 1 =
      validArgs (logToken :: rest) (setLogValidate f) (List.range' 2 rest.length) := fun hne => if_pos (hcount.mpr hne)
  rw [setDispatch_log f rfl,dispatchSpecial_action]
  constructor
  case mp =>
    rintro ⟨hact,hhelp,hone,hfew,hall⟩
    have hne := hcount.mp hone
    rw [hvalid hne] at hall
    exact ⟨hact,hhelp,hne,hmax.mp hfew,hall⟩
  case mpr =>
    rintro ⟨hact,hhelp,hne,hfew,hall⟩
    rw [← hvalid hne] at hall
    exact ⟨hact,hhelp,hcount.mpr hne,hmax.mpr hfew,hall⟩

theorem setLog_handler : (setCmdDesc f).action[setLog]? = some (some .onSetLogCommand) := by
  show (setCmdAction f)[setLog]? = _
  unfold setCmdAction
  split
  · rfl
  · rfl

theorem onSetCommand_action (h : cmdDispatch (specsValid f) (setCmdDesc f) (logToken :: rest) = .action setLog) :
    onSetCommand f logLevel (logToken :: rest) = onSetLogCommand f logLevel (logToken :: rest) := by
  unfold onSetCommand
  rw [h]
  dsimp only
  rw [setLog_handler]

theorem onSetCommand_refused (h : ∀ act, cmdDispatch (specsValid f) (setCmdDesc f) (logToken :: rest) ≠ .action act) :
    onSetCommand f logLevel (logToken :: rest) = some logLevel := by
  unfold onSetCommand
  split
  · rename_i hnull
    exact absurd hnull cmdDispatch_token
  · rename_i act haction
    exact absurd haction (h act)
  · rfl

theorem question_invalid : setLogValidate f (ascii "?") 2 = false ∧ setLogValidate f (ascii "?") 3 = false := by
  have hall : ∀ rtos test, setLogValidate ⟨rtos,false,test,false,false⟩ (ascii "?") 2 = false ∧
      setLogValidate ⟨rtos,false,test,false,false⟩ (ascii "?") 3 = false := by decide +kernel
  exact hall f.rtos f.test

theorem Incomplete.action (h : Incomplete f rest) :
    cmdDispatch (specsValid f) (setCmdDesc f) (logToken :: rest) = .action setLog ∧ rest.length < 3 := by
  have hquestion := question_invalid f
  rw [setLog_action]
  rcases h with ⟨dom,rfl,hdom⟩ | ⟨dom,ent,rfl,hdom,hent⟩
  · have hhelp : isHelp [logToken,dom] = false := by
      apply beq_false_of_ne
      intro hsame
      rw [hsame,hquestion.1] at hdom
      exact Bool.false_ne_true hdom
    refine ⟨⟨rfl,hhelp,List.cons_ne_nil _ _,Nat.le_add_left 1 2,?_⟩,Nat.lt_add_of_pos_left Nat.two_pos⟩
    exact if_pos hdom
  · have hhelp : isHelp [logToken,dom,ent] = false := by
      apply beq_false_of_ne
      intro hsame
      rw [hsame,hquestion.2] at hent
      exact Bool.false_ne_true hent
    refine ⟨⟨rfl,hhelp,List.cons_ne_nil _ _,Nat.le_add_left 2 1,?_⟩,Nat.lt_add_of_pos_left Nat.one_pos⟩
    have hrest : validArgs [logToken,dom,ent] (setLogValidate f) [3] = some true := if_pos hent
    exact (if_pos hdom).trans hrest

theorem validArgs_cases (hne : rest ≠ []) (hmax : rest.length ≤ 3)
    (h : validArgs (logToken :: rest) (setLogValidate f) (List.range' 2 rest.length) = some true) : Incomplete f rest ∨
      ∃ dom ent lvl : Token, rest = [dom,ent,lvl] ∧ setLogValidate f dom.chars 2 = true ∧
        setLogValidate f ent.chars 3 = true ∧ setLogValidate f lvl.chars 4 = true := by
  have hstep : ∀ (args : List Token) (t : Token) (i : ℕ) (more : List ℕ), embeddedCliGetToken args i = some t →
      validArgs args (setLogValidate f) (i :: more) = some true →
        setLogValidate f t.chars (u8 i) = true ∧ validArgs args (setLogValidate f) more = some true := by
    intro args t i more ht hall
    unfold validArgs at hall
    rw [ht] at hall
    dsimp only at hall
    split at hall
    · rename_i hvalid
      exact ⟨hvalid,hall⟩
    · cases hall
  obtain _ | ⟨dom,_ | ⟨ent,_ | ⟨lvl,_ | ⟨t,more⟩⟩⟩⟩ := rest
  · exact absurd rfl hne
  · obtain ⟨hdom,-⟩ := hstep _ dom 2 _ rfl h
    exact .inl (.inl ⟨dom,rfl,hdom⟩)
  · obtain ⟨hdom,h⟩ := hstep _ dom 2 _ rfl h
    obtain ⟨hent,-⟩ := hstep _ ent 3 _ rfl h
    exact .inl (.inr ⟨dom,ent,rfl,hdom,hent⟩)
  · obtain ⟨hdom,h⟩ := hstep _ dom 2 _ rfl h
    obtain ⟨hent,h⟩ := hstep _ ent 3 _ rfl h
    obtain ⟨hlvl,-⟩ := hstep _ lvl 4 _ rfl h
    exact .inr ⟨dom,ent,lvl,rfl,hdom,hent,hlvl⟩
  · exact absurd hmax (by simp)

/-- Setting log levels is all or nothing exactly if the valid arguments do not stop short of the level. -/
theorem set_log_iff (rest : List Token) :
    AllOrNothing f logLevel rest (onSetCommand f logLevel (logToken :: rest)) ↔ ¬Incomplete f rest := by
  constructor
  case mp =>
    rintro ⟨after,hafter,-⟩ hincomplete
    obtain ⟨haction,hshort⟩ := hincomplete.action
    rw [onSetCommand_action f haction,onSetLogCommand_missing f hshort] at hafter
    cases hafter
  case mpr =>
    intro hcomplete
    by_cases haction : ∃ act, cmdDispatch (specsValid f) (setCmdDesc f) (logToken :: rest) = .action act
    · obtain ⟨act,haction⟩ := haction
      obtain ⟨rfl,hhelp,hne,hmax,hvalid⟩ := (setLog_action f rest).mp haction
      rcases validArgs_cases f hne hmax hvalid with hincomplete | ⟨dom,ent,lvl,rfl,hdom,hent,hlvl⟩
      · exact absurd hincomplete hcomplete
      · rw [onSetCommand_action f haction]
        exact onSetLogCommand_full f hdom hent hlvl
    · rw [onSetCommand_refused f fun act hact => haction ⟨act,hact⟩]
      exact ⟨logLevel,rfl,.inl rfl⟩

/-- `set log all`: the missing level is hashed. -/
theorem set_log_all_faults : let all : Token := ⟨ascii "all",by decide⟩
    onSetCommand ⟨true,true,false,false,false⟩ (fun _ => 0) [logToken,all] = none ∧
      ¬AllOrNothing (⟨true,true,false,false,false⟩ : Build) (fun _ => 0) [all]
        (onSetCommand ⟨true,true,false,false,false⟩ (fun _ => 0) [logToken,all]) := by
  intro all
  have hvalid : setLogValidate (⟨true,true,false,false,false⟩ : Build) all.chars 2 = true := by decide +kernel
  have hincomplete : Incomplete (⟨true,true,false,false,false⟩ : Build) [all] := .inl ⟨all,rfl,hvalid⟩
  have hnone : onSetCommand ⟨true,true,false,false,false⟩ (fun _ => 0) [logToken,all] = none := by
    rw [onSetCommand_action _ hincomplete.action.1,onSetLogCommand_missing _ hincomplete.action.2]
  refine ⟨hnone,?_⟩
  rw [hnone]
  rintro ⟨after,hafter,-⟩
  cases hafter

end Law

end EmbedTemplate.Cli
