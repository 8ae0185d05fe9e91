import EmbedTemplate.Cli.CommandLine
import EmbedTemplate.Cli.Contexts

/-! # Typed lines and the commands they run

The engine with `parseCommand` in it. Whatever lines are typed and ended with the return key, what is called is what
the lines of a line editor ask for, in their order. The help of a single command depends on the blanks of its line,
and so does the byte that is zeroed for it.
-/
namespace EmbedTemplate.Cli.CommandLine
open Bytes Circular LineEditor Tokens MultiString Bindings

section Session
variable {σ : Type*} {n : ℕ}

/-- The bindings of an application, and what their functions do to it and to the command buffer. -/
structure World (σ : Type*) where
  commands : σ → Commands
  run : σ → Call → (ℕ → UInt8) → σ × (ℕ → UInt8)

variable (world : World σ) (names : σ → List UInt8 → List (List UInt8))
  (args : σ → List UInt8 → Bool → Option (List (List UInt8)))

/-- The application whose command lines go through `parseCommand`. -/
def World.application : Application σ where
  execute env cmdBuffer cmdSize :=
    match CommandLine.parseCommand (world.commands env) cmdBuffer cmdSize with
    | some (call,buf) => world.run env call buf
    | none => (env,cmdBuffer)
  getAutocompletedCommand := names
  argsCompletion := args

/-- From one state to another by the requests of the lines, in their order. -/
def Serves : σ → List (List UInt8) → σ → Prop
  | env, [], env' => env' = env
  | env, line :: lines, env' =>
    if nameOf line = [] then Serves env lines env'
    else ∃ call buf, Denotes buf call (request (world.commands env) line) ∧ Serves (world.run env call buf).1 lines env'

/-- The keys of a line, with the return key behind them. -/
def lineCodes (keys : List Key) : List UInt8 := keys.flatMap Key.codes ++ [0x0D]

/-- The line of a line editor behind the keys. -/
def lineOf (n : ℕ) (keys : List Key) : List UInt8 := (keys.foldl Key.press (Editor.empty : Editor UInt8 n)).line

variable {cli : Engine σ} {e : Editor UInt8 n} (app : Application σ)

theorem typed_append (cli : Engine σ) (xs ys : List UInt8) : typed app cli (xs ++ ys) = typed app (typed app cli xs) ys :=
  List.foldl_append

/-- Neither a line end nor a tab -/
def Quiet (c : UInt8) : Prop := c ≠ 0x0D ∧ c ≠ 0x0A ∧ c ≠ 0x09

theorem codes_quiet (key : Key) : ∀ c ∈ key.codes, Quiet c := by
  unfold Quiet
  cases key with
  | printable d h =>
    intro c hc
    rw [List.mem_singleton.mp hc]
    refine ⟨?_,?_,?_⟩ <;> rintro rfl <;> exact absurd h (by decide)
  | backspace d h =>
    intro c hc
    rw [List.mem_singleton.mp hc]
    rcases h with rfl | rfl
    · decide
    · decide
  | left => decide +kernel
  | right => decide +kernel

theorem navigateHistory_env (cli : Engine σ) (up : Bool) : (navigateHistory cli up).env = cli.env := by
  unfold navigateHistory
  split
  · rfl
  split
  · rfl
  split
  · rfl
  · rfl

theorem onEscapedInput_env (cli : Engine σ) (c : UInt8) : (onEscapedInput cli c).env = cli.env := by
  have hvertical : ∀ cli : Engine σ, (onVerticalArrow cli c).env = cli.env := by
    intro cli
    unfold onVerticalArrow
    split
    · exact navigateHistory_env cli _
    · rfl
  have hright : ∀ cli : Engine σ, (onRightArrow cli c).env = cli.env := by
    intro cli
    unfold onRightArrow
    split
    · rfl
    · rfl
  have hleft : ∀ cli : Engine σ, (onLeftArrow cli c).env = cli.env := by
    intro cli
    unfold onLeftArrow
    split
    · rfl
    · rfl
  unfold onEscapedInput
  split
  · dsimp only
    rw [hleft,hright,hvertical]
  · rfl

theorem onCharInput_env (cli : Engine σ) (c : UInt8) : (onCharInput cli c).env = cli.env := by
  unfold onCharInput
  split
  · rfl
  dsimp only
  split
  · split
    · rfl
    · rfl
  · rfl

theorem onControlInput_env (cli : Engine σ) {c : UInt8} (hc : Quiet c) : (onControlInput app cli c).env = cli.env := by
  have hreturn : ¬(c = 0x0D ∨ c = 0x0A) := not_or.mpr ⟨hc.1,hc.2.1⟩
  unfold onControlInput
  rw [if_neg hreturn,if_neg hc.2.2]
  split
  · rfl
  split
  · dsimp only
    split
    · rfl
    · rfl
  · rfl

/-- Only a line end reaches the application. -/
theorem processChar_env (cli : Engine σ) {c : UInt8} (hc : Quiet c) : (processChar app cli c).env = cli.env := by
  unfold processChar handleChar
  dsimp only
  split
  · exact onEscapedInput_env cli c
  split
  · rfl
  split
  · exact onControlInput_env app cli hc
  split
  · exact onCharInput_env cli c
  · rfl

theorem typed_env (cs : List UInt8) (hcs : ∀ c ∈ cs, Quiet c) (hlast : cli.lastChar ≠ 0x0A) :
    (typed app cli cs).env = cli.env ∧ (typed app cli cs).lastChar ≠ 0x0A := by
  induction cs generalizing cli with
  | nil => exact ⟨rfl,hlast⟩
  | cons c cs ih =>
    have hc := hcs c (List.mem_cons_self ..)
    have hrest := @ih (processChar app cli c) (fun d hd => hcs d (List.mem_cons_of_mem _ hd)) hc.2.1
    exact ⟨hrest.1.trans (processChar_env app cli hc),hrest.2⟩

/-- The keys of a line lead to the line editor's line. -/
theorem ready_keys (h : Ready cli e) (keys : List Key) (hidle : ArrowsIdle e keys) :
    Ready (typed app cli (keys.flatMap Key.codes)) (keys.foldl Key.press e) := by
  induction keys generalizing cli e with
  | nil => exact h
  | cons key keys ih =>
    rw [List.flatMap_cons,typed_append]
    exact ih (h.key app key hidle.1) hidle.2

theorem freshLine_ready (hmax : cli.cmdMaxSize - 1 = n) (hsmall : n + 1 < 2 ^ 16) (hescape : cli.escapeMode = false)
    (c : UInt8) (hc : c ≠ 0x1B) : Ready { freshLine cli with lastChar := c } (Editor.empty : Editor UInt8 n) :=
  ⟨⟨rfl,rfl,rfl,rfl⟩,rfl,hmax,hsmall,hescape,hc,List.not_mem_nil⟩

theorem submitLine_keeps (app : Application σ) (cli : Engine σ) :
    (submitLine app cli).cmdMaxSize = cli.cmdMaxSize ∧ (submitLine app cli).escapeMode = cli.escapeMode := by
  unfold submitLine Engine.parseCommand
  split
  · dsimp only
    split
    · exact ⟨rfl,rfl⟩
    · exact ⟨rfl,rfl⟩
  · exact ⟨rfl,rfl⟩

/-- A line of blanks changes nothing, every other one is put into the history and executed. -/
theorem submitLine_eq (h : Ready cli e) :
    submitLine app cli =
      if nameOf e.line = [] then cli
      else
        { cli with
          history := (historyPut cli.history e.line).1
          env := (app.execute cli.env cli.cmdBuffer cli.cmdSize).1
          cmdBuffer := (app.execute cli.env cli.cmdBuffer cli.cmdSize).2
          executed := cli.executed ++ [e.line] } := by
  have hline := h.line
  have hsize := h.size
  have hsmall := h.small
  have hfits := e.fits
  have hbuf : Function.update cli.cmdBuffer cli.cmdSize 0 = cli.cmdBuffer := by
    apply Function.update_eq_self_iff.mpr
    unfold Spells at hline
    rw [get_add,Nat.zero_add,← hsize] at hline
    rw [hsize] at hline ⊢
    exact (List.head_eq_of_cons_eq (List.append_inj_right hline (get_length ..))).symm
  have hread : Circular.get cli.cmdBuffer 0 cli.cmdSize = e.line := by
    rw [hsize]
    exact Spells.front (by rw [List.append_nil]; exact hline)
  have hall : e.line.all (· == 0x20) = true ↔ nameOf e.line = [] := by
    rw [nameOf_eq_nil,List.all_eq_true]
    simp only [beq_iff_eq]
    rfl
  unfold submitLine Engine.parseCommand
  dsimp only
  rw [hbuf,hread,cString_eq hline h.noNul (by omega)]
  by_cases hname : nameOf e.line = []
  · rw [if_pos hname,if_pos (hall.mpr hname),ite_self]
  · have hpos : cli.cmdSize > 0 := by
      rw [hsize]
      exact List.length_pos_iff.mpr fun hnil => hname (nameOf_eq_nil.mpr (by rw [hnil]; exact fun c hc => absurd hc List.not_mem_nil))
    rw [if_pos hpos,if_neg hname,if_neg fun hblank => hname (hall.mp hblank)]

/-- A submitted line is served. -/
theorem submitLine_serves (h : Ready cli e) :
    Serves world cli.env [e.line] (submitLine (world.application names args) cli).env := by
  rw [submitLine_eq (world.application names args) h]
  unfold Serves
  by_cases hname : nameOf e.line = []
  · rw [if_pos hname,if_pos hname]
    exact rfl
  · rw [if_neg hname,if_neg hname]
    have hsmall := h.small
    have hfits := e.fits
    obtain ⟨call,buf,hparse,hdenotes,-⟩ := parseCommand_spec (world.commands cli.env) h.line h.noNul (by omega)
    refine ⟨call,_,hdenotes,?_⟩
    unfold World.application Serves
    dsimp only
    rw [h.size,hparse]

/-- The return key submits the line and begins a new one. -/
theorem typed_return (h : Ready cli e) (hlast : cli.lastChar ≠ 0x0A) :
    typed app cli [0x0D] = { freshLine (submitLine app cli) with lastChar := 0x0D } := by
  have hpair : ¬((cli.lastChar = 0x0D ∧ (0x0D : UInt8) = 0x0A) ∨ (cli.lastChar = 0x0A ∧ (0x0D : UInt8) = 0x0D)) := by
    rintro (hcase | hcase)
    · exact absurd hcase.2 (by decide)
    · exact hlast hcase.1
  change processChar app cli 0x0D = _
  unfold processChar
  rw [h.handleChar,if_pos (by decide)]
  unfold onControlInput
  rw [if_neg hpair,if_pos (.inl rfl)]

theorem ready_return (h : Ready cli e) (hlast : cli.lastChar ≠ 0x0A) :
    let next := typed (world.application names args) cli [0x0D]
    Ready next (Editor.empty : Editor UInt8 n) ∧ next.lastChar = 0x0D ∧ Serves world cli.env [e.line] next.env := by
  obtain ⟨hmax,hescape⟩ := submitLine_keeps (world.application names args) cli
  dsimp only
  rw [typed_return (world.application names args) h hlast]
  exact ⟨freshLine_ready (hmax.symm ▸ h.maxSize) h.small (hescape.trans h.noEscape) 0x0D (by decide),rfl,
    submitLine_serves world names args h⟩

theorem Serves.trans {env env' env'' : σ} {lines more : List (List UInt8)} (h : Serves world env lines env')
    (h' : Serves world env' more env'') : Serves world env (lines ++ more) env'' := by
  induction lines generalizing env with
  | nil =>
    cases h
    exact h'
  | cons line lines ih =>
    rw [List.cons_append]
    unfold Serves at h ⊢
    split at h
    case isTrue hname =>
      rw [if_pos hname]
      exact ih h
    case isFalse hname =>
      obtain ⟨call,buf,hdenotes,hrest⟩ := h
      rw [if_neg hname]
      exact ⟨call,buf,hdenotes,ih hrest⟩

theorem typed_serves (entries : List (List Key)) (hidle : ∀ keys ∈ entries, ArrowsIdle (Editor.empty : Editor UInt8 n) keys)
    (h : Ready cli (Editor.empty : Editor UInt8 n)) (hlast : cli.lastChar ≠ 0x0A) :
    Serves world cli.env (entries.map (lineOf n)) (typed (world.application names args) cli (entries.flatMap lineCodes)).env := by
  induction entries generalizing cli with
  | nil => exact rfl
  | cons keys entries ih =>
    have hready := ready_keys (world.application names args) h keys (hidle keys (List.mem_cons_self ..))
    have hquiet : ∀ c ∈ keys.flatMap Key.codes, Quiet c := by
      intro c hc
      obtain ⟨key,-,hmem⟩ := List.mem_flatMap.mp hc
      exact codes_quiet key c hmem
    obtain ⟨henv,hnext⟩ := typed_env (world.application names args) (keys.flatMap Key.codes) hquiet hlast
    obtain ⟨hfresh,hreturn,hserved⟩ := ready_return world names args hready hnext
    have hrest := ih (fun other hmem => hidle other (List.mem_cons_of_mem _ hmem)) hfresh (by rw [hreturn]; decide)
    rw [henv] at hserved
    rw [List.flatMap_cons,typed_append,lineCodes,typed_append]
    exact hserved.trans world hrest

/-- Whatever lines are typed into a new engine, what is called is what the lines of a line editor ask for. -/
theorem dialogue_serves (rxBufferSize cmdBufferSize historyBufferSize : BitVec 16) (env : σ) (hrx : 1 < rxBufferSize.toNat)
    (entries : List (List Key))
    (hidle : ∀ keys ∈ entries, ArrowsIdle (Editor.empty : Editor UInt8 (cmdBufferSize.toNat - 1)) keys) :
    Serves world env (entries.map (lineOf (cmdBufferSize.toNat - 1)))
      (oneByOne (world.application names args) (Cli.embeddedCliNew rxBufferSize cmdBufferSize historyBufferSize env)
        (entries.flatMap lineCodes)).env := by
  have hsize := cmdBufferSize.isLt
  have hready : Ready (Cli.embeddedCliNew rxBufferSize cmdBufferSize historyBufferSize env)
      (Editor.empty : Editor UInt8 (cmdBufferSize.toNat - 1)) :=
    ⟨⟨rfl,rfl,rfl,rfl⟩,rfl,rfl,by omega,rfl,zero_ne_escape,List.not_mem_nil⟩
  have hstart := idle_new rxBufferSize cmdBufferSize historyBufferSize env (by omega)
  obtain ⟨left,htyped,-⟩ := oneByOne_typed (world.application names args) _ (entries.flatMap lineCodes) hstart hrx
  rw [htyped]
  exact typed_serves world names args entries hidle hready (show (0 : UInt8) ≠ 0x0A by decide)

/-- A command with a help of its own, and one without. -/
def fewBindings : List Binding :=
  [⟨ascii "show",bindingFlagTokenizeArgs ||| bindingFlagHasHelp ||| bindingFlagWide,none⟩,⟨ascii "q",bindingFlagWide,none⟩]

def fewCommands : Commands where
  state := (Bindings.run (fun _ => help) 79 fewBindings).getD ⟨fun _ => help,0,0,fun _ => 0,fun _ => 0,0⟩
  ctx := ⟨fun _ => 0,0,0⟩
  binding _ := true
  onCommand := false

/-- What has been called. -/
def callLog : World (List Call) where
  commands _ := fewCommands
  run env call buf := (env ++ [call],buf)

/-- The keys of a printable text. -/
def keysOf (text : List UInt8) : List Key :=
  text.filterMap fun c => if h : isDisplayableChar c = true then some (.printable c h) else none

theorem arrowsIdle_keysOf (text : List UInt8) (e : Editor UInt8 n) : ArrowsIdle e (keysOf text) := by
  induction text generalizing e with
  | nil => trivial
  | cons c text ih =>
    unfold keysOf at ih ⊢
    rw [List.filterMap_cons]
    split
    · rename_i hnone
      exact ih e
    · rename_i key hsome
      split at hsome
      · cases hsome
        exact ⟨fun h => absurd h Bool.false_ne_true,ih _⟩
      · cases hsome

theorem dialogue_serves_two : let entries := [keysOf (ascii "  show \"a b\" c"),keysOf (ascii "x")]
    entries.map (lineOf 63) = [ascii "  show \"a b\" c",ascii "x"] ∧
      (entries.map (lineOf 63)).map (request fewCommands) = [.run 1 (.tokens [ascii "a b",ascii "c"]),.unknown (ascii "x")] ∧
      Serves callLog [] (entries.map (lineOf 63))
        (oneByOne (callLog.application (fun _ _ => []) fun _ _ _ => none) (Cli.embeddedCliNew 64 64 256 [])
          (entries.flatMap lineCodes)).env := by
  refine ⟨by decide +kernel,by decide +kernel,?_⟩
  refine dialogue_serves callLog _ _ 64 64 256 [] (by decide) _ fun keys hkeys => ?_
  rcases List.mem_cons.mp hkeys with rfl | hkeys
  · exact arrowsIdle_keysOf _ _
  · rw [List.mem_singleton.mp hkeys]
    exact arrowsIdle_keysOf _ _

end Session

section Contained
variable {c : Commands} {line : List UInt8} {buf buf' : ℕ → UInt8} {size : ℕ}

/-- Behind the given size no byte is written, whatever is there. -/
def Contained (c : Commands) (line : List UInt8) (size : ℕ) : Prop :=
  ∀ buf, Spells buf line → ∀ call buf', parseCommand c buf line.length = some (call,buf') → ∀ x, size ≤ x → buf' x = buf x

/-- Two bytes behind the line are written at most, but for the byte that is zeroed for a help. -/
theorem parseCommand_behind (hspells : Spells buf line) (hnul : 0 ∉ line) (hsmall : line.length < 2 ^ 16) {call : Call}
    (hparse : parseCommand c buf line.length = some (call,buf')) {x : ℕ} (hx : line.length + 2 ≤ x)
    (hhelp : ∀ name, request c line = .help name → x ≠ helpAt line) : buf' x = buf x := by
  obtain ⟨call',buf₁,hspec,-,hblank,hparsed,-⟩ := parseCommand_spec c hspells hnul hsmall
  have hbehind : buf₁ x = buf x := by
    by_cases hname : nameOf line = []
    · rw [hblank hname]
    · exact (hparsed hname).behind x hx
  rw [hparse] at hspec
  obtain ⟨-,rfl⟩ := Prod.mk.inj (Option.some.inj hspec)
  cases hrequest : request c line with
  | help name => exact (Function.update_of_ne (hhelp name hrequest) 0 buf₁).trans hbehind
  | nothing | unknown | run | command | noContext => exact hbehind

/-- A line as the editing leaves it stays inside the command buffer exactly when the byte that is zeroed for a help is
inside of it. -/
theorem contained_iff (c : Commands) (line : CString) (hsize : line.bytes.length + 2 ≤ size)
    (hsmall : line.bytes.length < 2 ^ 16) :
    Contained c line.bytes size ↔ ∀ name, request c line.bytes = .help name → helpAt line.bytes < size := by
  constructor
  · intro hcontained name hrequest
    by_contra hout
    have hspells : Spells (put (fun _ => 1) 0 (line.bytes ++ [0])) line.bytes := by
      have hget := get_put (fun _ => (1 : UInt8)) 0 (line.bytes ++ [0])
      rw [List.length_append] at hget
      exact hget
    obtain ⟨call,buf',hparse,-,-,-,-⟩ := parseCommand_spec c hspells line.noNul hsmall
    have hsame := hcontained _ hspells call _ hparse (helpAt line.bytes) (Nat.le_of_not_lt hout)
    rw [hrequest,put_outside _ _ _ (.inr (by rw [List.length_append,List.length_singleton]; omega))] at hsame
    have hzero : withHelp buf' line.bytes (.help name) (helpAt line.bytes) = 0 := Function.update_self ..
    rw [hzero] at hsame
    exact absurd hsame (by decide)
  · intro hinside buf hspells call buf' hparse x hx
    exact parseCommand_behind hspells line.noNul hsmall hparse (by omega) fun name hrequest =>
      Nat.ne_of_gt (Nat.lt_of_lt_of_le (hinside name hrequest) hx)

/-- Behind 36 blanks the help of a command is asked for at the price of a byte outside of the 72 bytes of the command
buffer. -/
theorem contained_iff_blanks : let few : CString := ⟨ascii "q ?",by decide⟩
    let many : CString := ⟨List.replicate 36 charBlank ++ ascii "q ?",by decide⟩
    Contained fewCommands few.bytes 72 ∧ ¬Contained fewCommands many.bytes 72 := by
  intro few many
  constructor
  · exact (contained_iff fewCommands few (by decide) (by decide)).mpr fun _ _ => by decide
  · intro hcontained
    have hlt := (contained_iff fewCommands many (by decide) (by decide)).mp hcontained (ascii "q") (by decide +kernel)
    revert hlt
    decide

end Contained

section Help
variable {c : Commands} {line : List UInt8} {buf buf' : ℕ → UInt8}

/-- What `onHelp` prints. -/
inductive HelpText
  | notAvailable
  | names
  | usage (cmdName : List UInt8)
  | unknown (cmdName : List UInt8)
  | oneOrZero
  deriving DecidableEq

/-- The help of a single command. -/
def helpFor (s : Bindings.State) (cmdName : List UInt8) : HelpText :=
  if (List.range s.bindingsCount).any fun i => (s.bindings i).name == cmdName then .usage cmdName else .unknown cmdName

/-- `onHelp`, without the part that an application has added. -/
def onHelp (s : Bindings.State) (buf : ℕ → UInt8) (tokens : ℕ) : Option HelpText :=
  if s.bindingsCount = 0 then some .notAvailable
  else
    (embeddedCliGetTokenCount tokens buf).bind fun tokenCount =>
    if tokenCount = 0 then some .names
    else if tokenCount = 1 then
      (Tokens.embeddedCliGetToken tokens buf 1).bind fun cmdName => cmdName.map fun p => helpFor s (cString buf p)
    else some .oneOrZero

theorem lastBlank_le {i last : ℕ} (cs : List UInt8) (hblank : charBlank ∈ cs) : i ≤ lastBlank i last cs := by
  induction cs generalizing i last with
  | nil => exact absurd hblank List.not_mem_nil
  | cons c cs ih =>
    unfold lastBlank
    rcases List.mem_cons.mp hblank with hc | hcs
    · rw [if_pos hc.symm]
      exact lastBlank_ge (Nat.le_succ i) cs
    · exact Nat.le_of_succ_le (ih hcs)

theorem lastBlank_plain {i last : ℕ} (cs : List UInt8) (hplain : charBlank ∉ cs) : lastBlank i last cs = last := by
  induction cs generalizing i last with
  | nil => rfl
  | cons c cs ih =>
    rw [List.mem_cons,not_or] at hplain
    unfold lastBlank
    rw [if_neg (Ne.symm hplain.1),ih hplain.2]

/-- The blanks of a line with which the help of its command is printed. -/
def HelpsOnce (line : List UInt8) : Prop := 2 ≤ gapOf line ∨ (leadOf line = 0 ∧ charBlank ∉ argsOf line)

instance (line : List UInt8) : Decidable (HelpsOnce line) :=
  inferInstanceAs (Decidable (2 ≤ gapOf line ∨ (leadOf line = 0 ∧ charBlank ∉ argsOf line)))

/-- With a single blank behind the name, the place that is zeroed is the first one of the arguments or behind it. -/
theorem helpAt_single (hgap : gapOf line = 1) :
    (leadOf line = 0 ∧ charBlank ∉ argsOf line → helpAt line = argsAt line) ∧
      (¬(leadOf line = 0 ∧ charBlank ∉ argsOf line) → argsAt line < helpAt line) := by
  have hat : argsAt line = leadOf line + (nameOf line).length + 1 := by unfold argsAt; rw [hgap]
  have hlast : lastBlank 0 0 line = lastBlank (argsAt line) (leadOf line + (nameOf line).length) (argsOf line) := by
    conv_lhs => rw [line_parts line]
    rw [lastBlank_append,lastBlank_append,lastBlank_append,hgap,lastBlank_blanks,hat,List.length_replicate,
      List.length_replicate,Nat.zero_add]
    rfl
  unfold helpAt
  rw [hlast]
  constructor
  · rintro ⟨hlead,hplain⟩
    rw [lastBlank_plain _ hplain]
    omega
  · intro hother
    have hge := lastBlank_ge (j := argsAt line) (by omega : leadOf line + (nameOf line).length ≤ argsAt line) (argsOf line)
    by_cases hblank : charBlank ∈ argsOf line
    · have hle := @lastBlank_le (argsAt line) (leadOf line + (nameOf line).length) _ hblank
      omega
    · have hlead : leadOf line ≠ 0 := fun hzero => hother ⟨hzero,hblank⟩
      omega

/-- The name alone, when two terminators follow it. -/
theorem onHelp_name {s : Bindings.State} (hcount : s.bindingsCount ≠ 0) {p : ℕ} {name : List UInt8}
    (hheld : Circular.get buf p (name.length + 1) = name ++ [0]) (hend : buf (p + name.length + 1) = 0) (hne : name ≠ [])
    (hnul : 0 ∉ name) (hsmall : name.length + 2 < 2 ^ 16) : onHelp s buf p = some (helpFor s name) := by
  have hmulti : multiString 0 [name] = name ++ [0] ++ [0] := by
    unfold multiString
    rw [if_neg (List.cons_ne_nil name [])]
    simp [terminated]
  have hlength : (multiString 0 [name]).length = name.length + 2 := by
    rw [hmulti,List.length_append,List.length_append]
    rfl
  have hall : Circular.get buf p (multiString 0 [name]).length = multiString 0 [name] := by
    rw [hmulti,get_append]
    refine ⟨?_,?_⟩
    · rw [List.length_append]
      exact hheld
    · rw [List.length_append]
      exact congrArg (fun b => [b]) hend
  have htokens := tokenized_of_held hall
    (fun w hw => by rw [List.mem_singleton.mp hw]; exact ⟨hne,hnul⟩) (by omega)
  obtain ⟨place,hplace,hword⟩ := htokens.token 1 (by decide)
  obtain ⟨q,rfl,hq⟩ := Option.map_eq_some_iff.mp (hword : place.map (cString buf) = some name)
  unfold onHelp
  rw [if_neg hcount,htokens.count,Option.bind_some,if_neg (show [name].length ≠ 0 from Nat.succ_ne_zero 0),if_pos (show [name].length = 1 from rfl),
    hplace,Option.bind_some,
    Option.map_some,hq]

/-- More than one token, when the name is followed by a terminator and something else. -/
theorem onHelp_more {s : Bindings.State} (hcount : s.bindingsCount ≠ 0) {p d : ℕ} {name : List UInt8}
    (hheld : Circular.get buf p (name.length + 1) = name ++ [0]) (hnext : buf (p + name.length + 1) ≠ 0) (hne : name ≠ [])
    (hnul : 0 ∉ name) (hd : p + name.length < d) (hended : Ended buf d) (hsmall : d < 2 ^ 16 - 1) :
    onHelp s buf p = some .oneOrZero := by
  obtain ⟨c,cs,hname⟩ := List.exists_cons_of_ne_nil hne
  have hfirst : buf p ≠ 0 := by
    rw [hname] at hheld hnul
    rw [List.head_eq_of_cons_eq hheld]
    exact fun hzero => hnul (hzero ▸ List.mem_cons_self ..)
  have hparts := get_append.mp (show Circular.get buf p (name ++ [0]).length = name ++ [0] by
    rw [List.length_append]
    exact hheld)
  obtain ⟨k,rfl⟩ := Nat.exists_eq_add_of_le (Nat.le_of_lt hd)
  obtain ⟨n,hn,hloop⟩ := @tokenCountLoop_ended p (name.length + 1) 2 buf (name.length + k)
    (by rw [← Nat.add_assoc]; exact hended.1) (by rw [← Nat.add_assoc,← Nat.add_assoc]; exact hended.2) (by omega)
    (2 ^ 16 - name.length - 1) (by omega) (by omega)
  have htokens : embeddedCliGetTokenCount p buf = some n := by
    unfold embeddedCliGetTokenCount
    rw [if_neg hfirst]
    have hsplit : 2 ^ 16 = (2 ^ 16 - name.length - 1 + 1) + name.length := by omega
    rw [hsplit,tokenCountLoop_word (i := 0) hparts.1 hnul,Nat.zero_add]
    unfold tokenCountLoop
    rw [if_pos (List.head_eq_of_cons_eq hparts.2),if_neg (by rw [← Nat.add_assoc]; exact hnext)]
    exact hloop
  unfold onHelp
  rw [if_neg hcount,htokens,Option.bind_some,if_neg (by omega),if_neg (by omega)]

theorem request_help_found {name : List UInt8} (h : request c line = .help name) :
    ∃ i, findBindingIndex c.state c.ctx name = .index i := by
  obtain ⟨rfl,hname,-⟩ := request_help h
  unfold request at h
  rw [if_neg hname] at h
  cases hfind : findBindingIndex c.state c.ctx (nameOf line) with
  | index i => exact ⟨i,rfl⟩
  | noMatch =>
    rw [hfind] at h
    cases h
  | noContext =>
    rw [hfind] at h
    cases h

/-- The command whose help is asked for is one of those that are registered. -/
theorem helpFor_request {bindings : ℕ → Binding} {m : ℕ} {bs : List Binding} {name : List UInt8} (hm : m ≤ maxBindings)
    (hrun : Bindings.run bindings m bs = some c.state) (h : request c line = .help name) :
    helpFor c.state name = .usage name := by
  obtain ⟨i,hfind⟩ := request_help_found h
  have hlisted := (holds_run hm hrun).listed
  obtain ⟨b,hb,rfl⟩ := List.mem_map.mp (hlisted.mem_of_find (length_take_le hm) hfind)
  obtain ⟨j,hj,hget⟩ := List.mem_iff_getElem.mp hb
  unfold helpFor
  rw [if_pos]
  rw [List.any_eq_true]
  refine ⟨j,List.mem_range.mpr (hlisted.count ▸ hj),?_⟩
  rw [beq_iff_eq]
  exact hlisted.name j b (List.getElem?_eq_some_iff.mpr ⟨hj,hget⟩)

/-- The help of a single command is printed exactly for two blanks or more behind its name, or for none in front of it
and none in the arguments. Behind registrations it is the usage of a command that is bound. -/
theorem help_iff (c : Commands) (line : CString) {name : List UInt8} (hrequest : request c line.bytes = .help name)
    (hcount : c.state.bindingsCount ≠ 0) (hheld : Spells buf line.bytes) (hsmall : line.bytes.length < 2 ^ 16 - 1) :
    (∃ p buf', parseCommand c buf line.bytes.length = some (.onHelp p,buf') ∧
      onHelp c.state buf' p = some (if HelpsOnce line.bytes then helpFor c.state name else .oneOrZero)) ∧
    ∀ bindings m bs, m ≤ maxBindings → Bindings.run bindings m bs = some c.state → helpFor c.state name = .usage name := by
  refine ⟨?_,fun bindings m bs hm hrun => helpFor_request hm hrun hrequest⟩
  obtain ⟨call,buf₁,hparse,-,-,hparsed,hmark⟩ := parseCommand_spec c hheld line.noNul (by omega)
  obtain ⟨rfl,hfirst⟩ := hmark name hrequest
  obtain ⟨rfl,hname,hargs⟩ := request_help hrequest
  obtain ⟨a,as,has⟩ := List.exists_cons_of_ne_nil hargs
  have hgap := (argsOf_first has).2
  have hlength := length_parts line.bytes
  have hat : argsAt line.bytes = leadOf line.bytes + (nameOf line.bytes).length + gapOf line.bytes := rfl
  have hmem : 0 ∉ nameOf line.bytes := fun hzero => line.noNul (by
    rw [line_parts line.bytes]
    exact List.mem_append_right _ (List.mem_append_left _ hzero))
  have hplace := lastBlank_behind hgap
  have hhelp : helpAt line.bytes = leadOf line.bytes + (lastBlank 0 0 line.bytes + 1) := rfl
  obtain ⟨hheldName,hzeros,-,d,hd,hdlength,hended⟩ := hparsed hname
  rw [hrequest] at hparse
  refine ⟨_,_,hparse,?_⟩
  change onHelp c.state (Function.update buf₁ (helpAt line.bytes) 0) (leadOf line.bytes) = _
  have hheldName' : Circular.get (Function.update buf₁ (helpAt line.bytes) 0) (leadOf line.bytes)
      ((nameOf line.bytes).length + 1) = nameOf line.bytes ++ [0] := by
    rw [get_window fun x _ hx => Function.update_of_ne (by omega : x ≠ helpAt line.bytes) 0 buf₁]
    exact hheldName
  have hkeep : ∀ x, buf₁ x = 0 → Function.update buf₁ (helpAt line.bytes) 0 x = 0 := by
    intro x hx
    rw [Function.update_apply]
    split
    · rfl
    · exact hx
  by_cases hmany : 2 ≤ gapOf line.bytes
  · rw [if_pos (.inl hmany)]
    exact onHelp_name hcount hheldName' (hkeep _ (hzeros _ (by omega) (by omega))) hname hmem (by omega)
  have hone : gapOf line.bytes = 1 := by omega
  obtain ⟨hsame,hbehind⟩ := helpAt_single hone
  by_cases hplain : leadOf line.bytes = 0 ∧ charBlank ∉ argsOf line.bytes
  · rw [if_pos (.inr hplain)]
    refine onHelp_name hcount hheldName' ?_ hname hmem (by omega)
    rw [hsame hplain,hat,hone]
    exact Function.update_self ..
  · have hlt := hbehind hplain
    rw [if_neg fun honce => honce.elim hmany hplain]
    refine onHelp_more hcount hheldName' ?_ hname hmem (by omega : _ < d) ⟨hkeep d hended.1,hkeep (d + 1) hended.2⟩ (by omega)
    have hnext : leadOf line.bytes + (nameOf line.bytes).length + 1 = argsAt line.bytes := by omega
    rw [hnext,Function.update_of_ne (by omega)]
    exact hfirst

/-- The help of a command, and the same with a blank in front. -/
theorem help_iff_blank : let plain : CString := ⟨ascii "q ?",by decide⟩
    let shifted : CString := ⟨ascii " q ?",by decide⟩
    (∃ p buf', parseCommand fewCommands (put (fun _ => 0) 0 plain.bytes) plain.bytes.length = some (.onHelp p,buf') ∧
        onHelp fewCommands.state buf' p = some (.usage (ascii "q"))) ∧
      ∃ p buf', parseCommand fewCommands (put (fun _ => 0) 0 shifted.bytes) shifted.bytes.length = some (.onHelp p,buf') ∧
        onHelp fewCommands.state buf' p = some .oneOrZero := by
  intro plain shifted
  obtain ⟨hplain,husage⟩ := @help_iff (put (fun _ => 0) 0 plain.bytes) fewCommands plain (ascii "q") (by decide +kernel)
    (by decide) (by unfold Spells; decide) (by decide)
  obtain ⟨hshifted,-⟩ := @help_iff (put (fun _ => 0) 0 shifted.bytes) fewCommands shifted (ascii "q") (by decide +kernel)
    (by decide) (by unfold Spells; decide) (by decide)
  have hrun : Bindings.run (fun _ => help) 79 fewBindings = some fewCommands.state := rfl
  rw [if_pos (by decide),husage _ _ _ (by decide) hrun] at hplain
  rw [if_neg (by decide)] at hshifted
  exact ⟨hplain,hshifted⟩

end Help

end EmbedTemplate.Cli.CommandLine
