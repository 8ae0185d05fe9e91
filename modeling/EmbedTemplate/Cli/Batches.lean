import EmbedTemplate.Cli.Engine

/-! # Batches of characters

A character that prints the line again empties the FIFO, and with it the characters that wait
behind it. Nothing else that is done for a character touches the FIFO or depends on it.
-/
namespace EmbedTemplate.Cli
open Bytes Circular

section Queue

/-- The characters that wait in a FIFO, oldest first. -/
structure Waiting (f : FifoBuf) (cs : List UInt8) : Prop where
  held : Holds f.size f.buf f.front cs
  back : f.back = (f.front + cs.length) % f.size
  front : f.front < f.size
  room : cs.length < f.size
  size : f.size < 2 ^ 16

variable {f : FifoBuf} {c : UInt8} {cs : List UInt8}

theorem Waiting.available (h : Waiting f cs) : fifoBufAvailable f = cs.length := by
  have hfront := h.front
  have hroom := h.room
  have hsize := h.size
  have hback := h.back
  unfold fifoBufAvailable u16
  rcases Nat.lt_or_ge (f.front + cs.length) f.size with hlt | hge
  · rw [Nat.mod_eq_of_lt hlt] at hback
    rw [if_pos (by omega),hback,Nat.add_sub_cancel_left]
    exact Nat.mod_eq_of_lt (by omega)
  · rw [Nat.mod_eq_sub_mod hge,Nat.mod_eq_of_lt (by omega)] at hback
    rw [if_neg (by omega)]
    omega

theorem Waiting.pop (h : Waiting f (c :: cs)) : ∃ g, fifoBufPop f = (c,g) ∧ Waiting g cs ∧ g.size = f.size := by
  have hfront := h.front
  have hroom := h.room
  have hsize := h.size
  rw [List.length_cons] at hroom
  have hne : f.front ≠ f.back := by
    rw [h.back]
    intro hsame
    have hfirst : f.front % f.size = (f.front + (cs.length + 1)) % f.size := (Nat.mod_eq_of_lt hfront).trans hsame
    have hzero : 0 = cs.length + 1 := @position_inj f.size f.front 0 (cs.length + 1) (by omega) (by omega) hfirst
    omega
  have hbyte : f.buf f.front = c := by
    have hread := h.held.head
    rwa [Nat.mod_eq_of_lt hfront] at hread
  have hnext : u16 (f.front + 1) = f.front + 1 := u16_of_lt (by omega)
  refine ⟨{ f with front := u16 (f.front + 1) % f.size },?_,?_,rfl⟩
  · unfold fifoBufPop
    rw [if_pos hne,hbyte]
  · constructor
    case held =>
      have hrest := (@holds_append _ f.size f.buf f.front [c] cs).mp h.held
      apply hrest.2.shift
      rw [hnext]
      exact Nat.mod_modEq ..
    case back =>
      dsimp only
      rw [h.back,hnext,Nat.mod_add_mod,List.length_cons]
      congr 1
      omega
    case front => exact Nat.mod_lt _ (by omega)
    case room => exact Nat.lt_of_succ_lt hroom
    case size => exact hsize

theorem Waiting.push (h : Waiting f cs) (hroom : cs.length + 1 < f.size) (c : UInt8) :
    ∃ g, fifoBufPush f c = (g,true) ∧ Waiting g (cs ++ [c]) ∧ g.size = f.size := by
  have hfront := h.front
  have hsize := h.size
  have hpos : 0 < f.size := by omega
  have hback : f.back < f.size := by
    rw [h.back]
    exact Nat.mod_lt _ hpos
  have hnext : u16 (f.back + 1) % f.size = (f.front + (cs.length + 1)) % f.size := by
    rw [u16_of_lt (by omega),h.back,Nat.mod_add_mod]
    rfl
  have hne : u16 (f.back + 1) % f.size ≠ f.front := by
    rw [hnext]
    intro hsame
    have hfirst : (f.front + (cs.length + 1)) % f.size = (f.front + 0) % f.size := by
      rw [hsame,Nat.add_zero,Nat.mod_eq_of_lt hfront]
    have hzero : cs.length + 1 = 0 := @position_inj f.size f.front (cs.length + 1) 0 (by omega) hpos hfirst
    omega
  refine ⟨{ f with buf := Function.update f.buf f.back c, back := u16 (f.back + 1) % f.size },?_,?_,rfl⟩
  · unfold fifoBufPush
    exact if_pos hne
  · have hbuf : Function.update f.buf f.back c = store f.size f.buf (f.front + cs.length) [c] := by
      rw [h.back]
      rfl
    constructor
    case held =>
      dsimp only
      rw [hbuf,holds_append]
      exact ⟨h.held.store_after le_rfl (by rw [List.length_singleton]; omega),
        holds_store f.size f.buf _ [c] (by rw [List.length_singleton]; omega)⟩
    case back =>
      dsimp only
      rw [hnext,List.length_append]
      rfl
    case front => exact hfront
    case room =>
      dsimp only
      rw [List.length_append]
      exact hroom
    case size => exact hsize

theorem Waiting.flush (h : Waiting f cs) : Waiting f.flush [] := by
  have hback : f.back < f.size := by
    rw [h.back]
    exact Nat.mod_lt _ (Nat.zero_lt_of_lt h.front)
  refine ⟨holds_nil _ _ _,?_,hback,Nat.zero_lt_of_lt h.front,h.size⟩
  exact (Nat.mod_eq_of_lt hback).symm

end Queue

section Refresh
variable {σ : Type*}

/-- The engine with another FIFO and overflow flag. -/
def Engine.withRx (cli : Engine σ) (rx : FifoBuf × Bool) : Engine σ := { cli with rxBuffer := rx.1, overflow := rx.2 }

/-- A FIFO that is emptied under a condition. -/
def flushIf (empties : Bool) (rx : FifoBuf × Bool) : FifoBuf × Bool := if empties then (rx.1.flush,rx.2) else rx

/-- A step that empties the FIFO under a condition, and else does not touch it; what it does does not depend on it, or
on the overflow flag. -/
def Frames (f : Engine σ → Engine σ) (empties : Engine σ → Bool) : Prop :=
  ∀ cli rx, f (cli.withRx rx) = (f cli).withRx (flushIf (empties cli) rx) ∧ empties (cli.withRx rx) = empties cli

/-- A step that does not touch the FIFO and does not depend on it. -/
def Keeps (f : Engine σ → Engine σ) : Prop := ∀ cli rx, f (cli.withRx rx) = (f cli).withRx rx

variable {f g : Engine σ → Engine σ} {e e' : Engine σ → Bool}

theorem Keeps.comp (hg : Keeps g) (hf : Keeps f) : Keeps fun cli => g (f cli) := by
  intro cli rx
  exact (congrArg g (hf cli rx)).trans (hg (f cli) rx)

theorem Keeps.frames (h : Keeps f) : Frames f fun _ => false := fun cli rx => ⟨h cli rx,rfl⟩

theorem frames_refresh : Frames (σ := σ) embeddedCliRefresh fun _ => true := fun _ _ => ⟨rfl,rfl⟩

theorem frames_ite {P : Engine σ → Prop} [DecidablePred P] (hP : ∀ cli rx, P (cli.withRx rx) ↔ P cli) (hf : Frames f e)
    (hg : Frames g e') : Frames (fun cli => if P cli then f cli else g cli)
        fun cli => if P cli then e cli else e' cli := by
  intro cli rx
  by_cases h : P cli
  · have h' : P (cli.withRx rx) := (hP cli rx).mpr h
    simp only [h,h',if_true]
    exact hf cli rx
  · have h' : ¬P (cli.withRx rx) := fun h' => h ((hP cli rx).mp h')
    simp only [h,h',if_false]
    exact hg cli rx

theorem keeps_ite {P : Engine σ → Prop} [DecidablePred P] (hP : ∀ cli rx, P (cli.withRx rx) ↔ P cli) (hf : Keeps f)
    (hg : Keeps g) : Keeps fun cli => if P cli then f cli else g cli := by
  intro cli rx
  have hstep := (frames_ite hP hf.frames hg.frames cli rx).1
  dsimp only at hstep
  rw [ite_self] at hstep
  exact hstep

theorem Frames.after (hg : Frames g e) (hf : Keeps f) : Frames (fun cli => g (f cli)) fun cli => e (f cli) := by
  intro cli rx
  have hstep := hg (f cli) rx
  rw [← hf cli rx] at hstep
  exact hstep

theorem Frames.before (hf : Frames f e) (hg : Keeps g) : Frames (fun cli => g (f cli)) e := by
  intro cli rx
  refine ⟨?_,(hf cli rx).2⟩
  exact (congrArg g (hf cli rx).1).trans (hg (f cli) _)

/-- The characters that print the line again: one at the start of the line or behind a blank, -/
def charRefreshes (cli : Engine σ) (c : UInt8) : Bool :=
  if cli.cmdSize + 1 ≥ cli.cmdMaxSize then false
  else if cli.cursorPos ≥ cli.inputLineLength then
    if cli.cursorPos = 0 ∨ (appendChar cli c).cmdBuffer (cli.cursorPos - 1) = 0x20 then true else false
  else true

/-- a completion, -/
def autocompleteRefreshes (app : Application σ) (cli : Engine σ) : Bool :=
  if cli.cmdSize = 0 then false
  else if 0x20 ∉ Circular.get cli.cmdBuffer 0 cli.cmdSize then true
  else (app.argsCompletion (cutHelp cli).env (cString (cutHelp cli).cmdBuffer 0) (isHelpRequest cli)).isSome

/-- and a backspace in front of another character. -/
def controlRefreshes (app : Application σ) (cli : Engine σ) (c : UInt8) : Bool :=
  if (cli.lastChar = 0x0D ∧ c = 0x0A) ∨ (cli.lastChar = 0x0A ∧ c = 0x0D) then false
  else if c = 0x0D ∨ c = 0x0A then false
  else if (c = 0x08 ∨ c = 0x7F) ∧ cli.cursorPos > 0 then
    if (deleteChar cli).cursorPos = (deleteChar cli).inputLineLength then false else true
  else if c = 0x09 then autocompleteRefreshes app (if cli.lastChar = 0x09 then { cli with lastChar := 0 } else cli)
  else false

def refreshes (app : Application σ) (cli : Engine σ) (c : UInt8) : Bool :=
  if cli.escapeMode then false
  else if cli.lastChar = 0x1B ∧ c = 0x5B then false
  else if isControlChar c then controlRefreshes app cli c
  else if isDisplayableChar c then charRefreshes cli c
  else false

theorem frames_onCharInput (c : UInt8) : Frames (σ := σ) (fun cli => onCharInput cli c)
    fun cli => charRefreshes cli c := by
  apply frames_ite (fun _ _ => Iff.rfl)
  · exact Keeps.frames fun _ _ => rfl
  · apply frames_ite (fun _ _ => Iff.rfl)
    · apply frames_ite (fun _ _ => Iff.rfl)
      · exact frames_refresh.after fun _ _ => rfl
      · exact Keeps.frames fun _ _ => rfl
    · exact frames_refresh.after fun _ _ => rfl

theorem keeps_completion (name : List UInt8) : Keeps (σ := σ) fun cli => embeddedCliCompletion cli name := by
  apply keeps_ite (fun _ _ => Iff.rfl)
  · exact fun _ _ => rfl
  · exact fun _ _ => rfl

theorem keeps_completions (names : List (List UInt8)) :
    Keeps (σ := σ) fun cli => names.foldl embeddedCliCompletion cli := by
  induction names with
  | nil => exact fun _ _ => rfl
  | cons name names ih => exact ih.comp (keeps_completion name)

theorem keeps_navigateHistory (navigateUp : Bool) : Keeps (σ := σ) fun cli => navigateHistory cli navigateUp := by
  apply keeps_ite (fun _ _ => Iff.rfl)
  · exact fun _ _ => rfl
  · apply keeps_ite (fun _ _ => Iff.rfl)
    · exact fun _ _ => rfl
    · apply keeps_ite (fun _ _ => Iff.rfl)
      · exact fun _ _ => rfl
      · exact fun _ _ => rfl

theorem keeps_onEscapedInput (c : UInt8) : Keeps (σ := σ) fun cli => onEscapedInput cli c := by
  have hvertical : Keeps (σ := σ) fun cli => onVerticalArrow cli c :=
    keeps_ite (fun _ _ => Iff.rfl) (keeps_navigateHistory _) fun _ _ => rfl
  have hright : Keeps (σ := σ) fun cli => onRightArrow cli c := keeps_ite (fun _ _ => Iff.rfl) (fun _ _ => rfl)
    fun _ _ => rfl
  have hleft : Keeps (σ := σ) fun cli => onLeftArrow cli c := keeps_ite (fun _ _ => Iff.rfl) (fun _ _ => rfl)
    fun _ _ => rfl
  apply keeps_ite (fun _ _ => Iff.rfl)
  · exact hleft.comp (hright.comp (hvertical.comp fun _ _ => rfl))
  · exact fun _ _ => rfl

theorem keeps_deleteChar : Keeps (σ := σ) deleteChar := by
  intro cli rx
  have hline : (deleteChar (cli.withRx rx)).cmdBuffer = (deleteChar cli).cmdBuffer := rfl
  have hlength : (deleteChar (cli.withRx rx)).inputLineLength = (deleteChar cli).inputLineLength := rfl
  have hcursor : (deleteChar (cli.withRx rx)).cursorPos = (deleteChar cli).cursorPos := rfl
  exact Engine.ext rfl rfl hline hlength rfl hlength rfl rfl hcursor rfl rfl rfl

/-- The place behind a backspace does not depend on the FIFO. -/
theorem deleteChar_places (cli : Engine σ) (rx : FifoBuf × Bool) : (deleteChar (cli.withRx rx)).cursorPos =
    (deleteChar (cli.withRx rx)).inputLineLength ↔ (deleteChar cli).cursorPos = (deleteChar cli).inputLineLength := by
  have hlength : (deleteChar (cli.withRx rx)).inputLineLength = (deleteChar cli).inputLineLength := rfl
  have hcursor : (deleteChar (cli.withRx rx)).cursorPos = (deleteChar cli).cursorPos := rfl
  rw [hlength,hcursor]

theorem keeps_cutHelp : Keeps (σ := σ) cutHelp := keeps_ite (fun _ _ => Iff.rfl) (fun _ _ => rfl) fun _ _ => rfl

variable (app : Application σ)

theorem keeps_completeCommand : Keeps (completeCommand app) := by
  intro cli rx
  unfold completeCommand
  have hline : (cli.withRx rx).env = cli.env ∧ (cli.withRx rx).cmdBuffer = cli.cmdBuffer := ⟨rfl,rfl⟩
  rw [hline.1,hline.2]
  dsimp only
  split
  · rfl
  · exact keeps_completion _ cli rx
  · split
    · rfl
    · rfl

theorem frames_completeArgument (help : Bool) : Frames (fun cli => completeArgument app cli help) fun cli =>
    (app.argsCompletion cli.env (cString cli.cmdBuffer 0) help).isSome := by
  intro cli rx
  refine ⟨?_,rfl⟩
  unfold completeArgument
  have hsame : app.argsCompletion (cli.withRx rx).env (cString (cli.withRx rx).cmdBuffer 0) help =
      app.argsCompletion cli.env (cString cli.cmdBuffer 0) help := rfl
  obtain hnone | ⟨names,hsome⟩ := Option.eq_none_or_eq_some (app.argsCompletion cli.env (cString cli.cmdBuffer 0) help)
  · simp only [hsame,hnone]
    rfl
  · simp only [hsame,hsome]
    exact congrArg embeddedCliRefresh (keeps_completions names cli rx)

theorem frames_autocomplete : Frames (onAutocompleteRequest app) (autocompleteRefreshes app) := by
  apply frames_ite (fun _ _ => Iff.rfl)
  · exact Keeps.frames fun _ _ => rfl
  · apply frames_ite (fun _ _ => Iff.rfl)
    · exact frames_refresh.after (keeps_completeCommand app)
    · intro cli rx
      exact (frames_completeArgument app (isHelpRequest cli)).after keeps_cutHelp cli rx

theorem keeps_parseCommand : Keeps (Engine.parseCommand app) := by
  apply keeps_ite (fun _ _ => Iff.rfl)
  · exact fun _ _ => rfl
  · exact fun _ _ => rfl

theorem keeps_submitLine : Keeps (submitLine app) := by
  apply keeps_ite (fun _ _ => Iff.rfl)
  · exact (keeps_parseCommand app).comp fun _ _ => rfl
  · exact fun _ _ => rfl

theorem frames_onControlInput (c : UInt8) :
    Frames (fun cli => onControlInput app cli c) fun cli => controlRefreshes app cli c := by
  have hfresh : Keeps (σ := σ) freshLine := fun _ _ => rfl
  have hlast : Keeps (σ := σ) fun cli => if cli.lastChar = 0x09 then { cli with lastChar := 0 } else cli :=
    keeps_ite (fun _ _ => Iff.rfl) (fun _ _ => rfl) fun _ _ => rfl
  apply frames_ite (fun _ _ => Iff.rfl)
  · exact Keeps.frames fun _ _ => rfl
  · apply frames_ite (fun _ _ => Iff.rfl)
    · exact (hfresh.comp (keeps_submitLine app)).frames
    · apply frames_ite (fun _ _ => Iff.rfl)
      · exact frames_ite deleteChar_places keeps_deleteChar.frames (frames_refresh.after keeps_deleteChar)
      · apply frames_ite (fun _ _ => Iff.rfl)
        · exact (frames_autocomplete app).after hlast
        · exact Keeps.frames fun _ _ => rfl

/-- What is done for a character empties the FIFO exactly if the character prints the line again. -/
theorem frames_processChar (c : UInt8) : Frames (fun cli => processChar app cli c) fun cli => refreshes app cli c := by
  have hlast : Keeps (σ := σ) fun cli => { cli with lastChar := c } := fun _ _ => rfl
  have hhandle : Frames (fun cli => handleChar app cli c) fun cli => refreshes app cli c := by
    apply frames_ite (fun _ _ => Iff.rfl)
    · exact (keeps_onEscapedInput c).frames
    · apply frames_ite (fun _ _ => Iff.rfl)
      · exact Keeps.frames fun _ _ => rfl
      · apply frames_ite (fun _ _ => Iff.rfl)
        · exact frames_onControlInput app c
        · apply frames_ite (fun _ _ => Iff.rfl)
          · exact frames_onCharInput c
          · exact Keeps.frames fun _ _ => rfl
  exact hhandle.before hlast

end Refresh

section Batches
variable {σ : Type*} (app : Application σ) {cli : Engine σ} {rx : FifoBuf × Bool} {n : ℕ}

/-- Characters that are all processed. -/
def typed (cli : Engine σ) (cs : List UInt8) : Engine σ := cs.foldl (processChar app) cli

/-- The characters of a batch that are processed: those up to the first one that prints the line again. -/
def surviving (cli : Engine σ) : List UInt8 → List UInt8
  | [] => []
  | c :: cs => c :: if refreshes app cli c then [] else surviving (processChar app cli c) cs

/-- The characters of all batches that are processed. -/
def survivors (cli : Engine σ) : List (List UInt8) → List UInt8
  | [] => []
  | batch :: batches => surviving app cli batch ++ survivors (typed app cli (surviving app cli batch)) batches

/-- A FIFO between batches. -/
structure Idle (rx : FifoBuf × Bool) (n : ℕ) : Prop where
  empty : Waiting rx.1 []
  fits : rx.2 = false
  size : rx.1.size = n

theorem processLoop_idle (h : Idle rx n) (fuel : ℕ) : processLoop app fuel (cli.withRx rx) = cli.withRx rx := by
  cases fuel with
  | zero => rfl
  | succ fuel =>
    have hnone : fifoBufAvailable (cli.withRx rx).rxBuffer = 0 := h.empty.available
    unfold processLoop
    exact if_pos hnone

theorem processLoop_surviving (cs : List UInt8) (fuel : ℕ) (hfuel : cs.length ≤ fuel) (h : Waiting rx.1 cs)
    (hfits : rx.2 = false) : ∃ left, processLoop app fuel (cli.withRx rx) =
      (typed app cli (surviving app cli cs)).withRx left ∧ Idle left rx.1.size := by
  induction cs generalizing cli rx fuel with
  | nil =>
    have hidle : Idle rx rx.1.size := ⟨h,hfits,rfl⟩
    exact ⟨rx,processLoop_idle app hidle fuel,hidle⟩
  | cons c cs ih =>
    obtain ⟨fuel,rfl⟩ := Nat.exists_eq_add_of_lt hfuel
    obtain ⟨g,hpop,hwait,hsize⟩ := h.pop
    have hsome : ¬fifoBufAvailable (cli.withRx rx).rxBuffer = 0 := by
      have hlength : fifoBufAvailable (cli.withRx rx).rxBuffer = (c :: cs).length := h.available
      rw [hlength]
      exact Nat.succ_ne_zero _
    have hstep : processLoop app (cs.length + fuel + 1) (cli.withRx rx) =
        processLoop app (cs.length + fuel) (processChar app (cli.withRx (g,rx.2)) c) := by
      have hfirst : fifoBufPop (cli.withRx rx).rxBuffer = (c,g) := hpop
      rw [processLoop,if_neg hsome,hfirst]
      rfl
    have hframe : processChar app (cli.withRx (g,rx.2)) c =
        (processChar app cli c).withRx (flushIf (refreshes app cli c) (g,rx.2)) :=
      (frames_processChar app c cli (g,rx.2)).1
    rw [hstep,hframe,← hsize]
    unfold surviving typed
    cases hrefresh : refreshes app cli c with
    | true =>
      have hidle : Idle (flushIf true (g,rx.2)) g.size := ⟨hwait.flush,hfits,rfl⟩
      exact ⟨_,processLoop_idle app hidle _,hidle⟩
    | false => exact ih (cs.length + fuel) (Nat.le_add_right _ _) hwait hfits

theorem receive_all (cs : List UInt8) (held : List UInt8) (h : Waiting rx.1 held) (hfits : rx.2 = false)
    (hroom : held.length + cs.length < rx.1.size) : ∃ full, cs.foldl embeddedCliReceiveChar (cli.withRx rx) =
      cli.withRx full ∧ Waiting full.1 (held ++ cs) ∧ full.2 = false ∧ full.1.size = rx.1.size := by
  induction cs generalizing rx held with
  | nil =>
    rw [List.append_nil]
    exact ⟨rx,rfl,h,hfits,rfl⟩
  | cons c cs ih =>
    rw [List.length_cons] at hroom
    obtain ⟨g,hpush,hwait,hsize⟩ := h.push (by omega) c
    have hstep : embeddedCliReceiveChar (cli.withRx rx) c = cli.withRx (g,rx.2) := by
      have hstored : fifoBufPush (cli.withRx rx).rxBuffer c = (g,true) := hpush
      unfold embeddedCliReceiveChar
      rw [hstored]
      rfl
    have hlength : (held ++ [c]).length + cs.length < g.size := by
      rw [hsize,List.length_append,List.length_singleton]
      omega
    obtain ⟨full,hrest,hfull,hflag,hsame⟩ := @ih (g,rx.2) (held ++ [c]) hwait hfits hlength
    refine ⟨full,?_,?_,hflag,hsame.trans hsize⟩
    · rw [List.foldl_cons,hstep]
      exact hrest
    · rwa [List.append_assoc] at hfull

/-- A batch that fits is received as a whole, and the loop empties the FIFO again. -/
theorem process_received (batch : List UInt8) (h : Idle rx n) (hfit : batch.length < n) : ∃ full left,
    batch.foldl embeddedCliReceiveChar (cli.withRx rx) = cli.withRx full ∧ Waiting full.1 batch ∧
    embeddedCliProcess app (cli.withRx full) = processLoop app batch.length (cli.withRx full) ∧
    processLoop app batch.length (cli.withRx full) = (typed app cli (surviving app cli batch)).withRx left ∧ Idle left n := by
  obtain ⟨full,hreceive,hwait,hflag,hsize⟩ := @receive_all _ cli rx batch [] h.empty h.fits (by
    rw [h.size,List.length_nil]
    omega)
  obtain ⟨left,hloop,hidle⟩ := @processLoop_surviving _ app cli full batch batch.length le_rfl hwait hflag
  rw [hsize,h.size] at hidle
  refine ⟨full,left,hreceive,hwait,?_,hloop,hidle⟩
  have havailable : fifoBufAvailable (cli.withRx full).rxBuffer = batch.length := hwait.available
  have hflagged : ¬((typed app cli (surviving app cli batch)).withRx left).overflow = true := by
    have hoverflow : ((typed app cli (surviving app cli batch)).withRx left).overflow = false := hidle.fits
    rw [hoverflow]
    exact Bool.false_ne_true
  unfold embeddedCliProcess
  rw [havailable,hloop]
  exact if_neg hflagged

theorem process_batch (batch : List UInt8) (h : Idle rx n) (hfit : batch.length < n) :
    ∃ left, embeddedCliProcess app (batch.foldl embeddedCliReceiveChar (cli.withRx rx)) =
      (typed app cli (surviving app cli batch)).withRx left ∧ Idle left n := by
  obtain ⟨full,left,hreceive,-,hprocess,hloop,hidle⟩ := @process_received _ app cli rx n batch h hfit
  refine ⟨left,?_,hidle⟩
  rw [hreceive,hprocess,hloop]

/-- All batches: the engine is the one behind the characters that were processed. -/
theorem inBatches_survivors (batches : List (List UInt8)) (h : Idle rx n) (hfit : ∀ batch ∈ batches, batch.length < n) :
    ∃ left, inBatches app (cli.withRx rx) batches = (typed app cli (survivors app cli batches)).withRx left ∧
        Idle left n := by
  induction batches generalizing cli rx with
  | nil => exact ⟨rx,rfl,h⟩
  | cons batch batches ih =>
    obtain ⟨middle,hbatch,hidle⟩ := @process_batch _ app cli rx n batch h (hfit batch List.mem_cons_self)
    obtain ⟨left,hrest,hleft⟩ := @ih (typed app cli (surviving app cli batch)) middle hidle fun other hother =>
      hfit other (List.mem_cons_of_mem batch hother)
    refine ⟨left,?_,hleft⟩
    unfold inBatches survivors typed
    rw [List.foldl_cons,hbatch,List.foldl_append]
    exact hrest

theorem surviving_single (cli : Engine σ) (c : UInt8) : surviving app cli [c] = [c] := by
  unfold surviving
  split
  · rfl
  · rfl

theorem survivors_oneByOne (cli : Engine σ) (cs : List UInt8) : survivors app cli (cs.map fun c => [c]) = cs := by
  induction cs generalizing cli with
  | nil => rfl
  | cons c cs ih =>
    rw [List.map_cons,survivors,surviving_single,ih]
    rfl

/-- A batch of which no character but the last one prints the line again. -/
def Calm (cli : Engine σ) : List UInt8 → Prop
  | [] => True
  | c :: cs => (cs ≠ [] → refreshes app cli c = false) ∧ Calm (processChar app cli c) cs

/-- Batches that are all like this, each from where the one in front of it ends. -/
def AllCalm (cli : Engine σ) : List (List UInt8) → Prop
  | [] => True
  | batch :: batches => Calm app cli batch ∧ AllCalm (typed app cli batch) batches

theorem surviving_sublist (cli : Engine σ) (cs : List UInt8) : (surviving app cli cs).Sublist cs := by
  induction cs generalizing cli with
  | nil => exact .slnil
  | cons c cs ih =>
    unfold surviving
    split
    · exact (List.nil_sublist cs).cons_cons c
    · exact (ih (processChar app cli c)).cons_cons c

theorem surviving_eq_iff (cli : Engine σ) (cs : List UInt8) : surviving app cli cs = cs ↔ Calm app cli cs := by
  induction cs generalizing cli with
  | nil => exact iff_of_true rfl trivial
  | cons c cs ih =>
    unfold surviving Calm
    cases hrefresh : refreshes app cli c with
    | false =>
      rw [if_neg Bool.false_ne_true,List.cons_inj_right,ih]
      exact ⟨fun h => ⟨fun _ => rfl,h⟩,fun h => h.2⟩
    | true =>
      rw [if_pos rfl,List.cons_inj_right]
      constructor
      case mp =>
        intro hnil
        subst hnil
        exact ⟨fun h => absurd rfl h,trivial⟩
      case mpr =>
        intro h
        by_contra hne
        exact Bool.noConfusion (h.1 (Ne.symm hne))

theorem survivors_sublist (cli : Engine σ) (batches : List (List UInt8)) :
    (survivors app cli batches).Sublist batches.flatten := by
  induction batches generalizing cli with
  | nil => exact .slnil
  | cons batch batches ih => exact (surviving_sublist app cli batch).append (ih _)

theorem survivors_eq_iff (cli : Engine σ) (batches : List (List UInt8)) :
    survivors app cli batches = batches.flatten ↔ AllCalm app cli batches := by
  induction batches generalizing cli with
  | nil => exact iff_of_true rfl trivial
  | cons batch batches ih =>
    unfold survivors AllCalm
    rw [List.flatten_cons]
    constructor
    case mp =>
      intro h
      have hlength := congrArg List.length h
      rw [List.length_append,List.length_append] at hlength
      have hfirst := (surviving_sublist app cli batch).length_le
      have hrest := (survivors_sublist app (typed app cli (surviving app cli batch)) batches).length_le
      obtain ⟨hbatch,hbatches⟩ := List.append_inj h (by omega)
      rw [hbatch] at hbatches
      exact ⟨(surviving_eq_iff app cli batch).mp hbatch,(ih _).mp hbatches⟩
    case mpr =>
      intro h
      have hbatch := (surviving_eq_iff app cli batch).mpr h.1
      rw [hbatch,(ih _).mpr h.2]

theorem idle_new (rxBufferSize cmdBufferSize historyBufferSize : BitVec 16) (env : σ) (hsize : 0 < rxBufferSize.toNat) :
    Idle ((embeddedCliNew rxBufferSize cmdBufferSize historyBufferSize env).rxBuffer,false) rxBufferSize.toNat :=
  ⟨⟨holds_nil _ _ _,(Nat.zero_mod _).symm,hsize,hsize,rxBufferSize.isLt⟩,rfl,rfl⟩

/-- Batches do not matter where every batch is calm: the same lines are executed and the same line is left. -/
theorem batches_alike (rxBufferSize cmdBufferSize historyBufferSize : BitVec 16) (env : σ) (batches : List (List UInt8))
    (hfit : ∀ batch ∈ batches, batch.length < rxBufferSize.toNat)
    (hcalm : AllCalm app (embeddedCliNew rxBufferSize cmdBufferSize historyBufferSize env) batches) :
    let cli := embeddedCliNew rxBufferSize cmdBufferSize historyBufferSize env
    (inBatches app cli batches).executed = (oneByOne app cli batches.flatten).executed ∧
      (inBatches app cli batches).cmdBuffer = (oneByOne app cli batches.flatten).cmdBuffer ∧
      (inBatches app cli batches).cmdSize = (oneByOne app cli batches.flatten).cmdSize := by
  intro cli
  cases batches with
  | nil => exact ⟨rfl,rfl,rfl⟩
  | cons batch batches =>
    have hidle := idle_new rxBufferSize cmdBufferSize historyBufferSize env
      (Nat.zero_lt_of_lt (hfit batch List.mem_cons_self))
    have hall := (survivors_eq_iff app cli (batch :: batches)).mpr hcalm
    obtain ⟨left,hbatches,-⟩ := @inBatches_survivors _ app cli _ _ (batch :: batches) hidle hfit
    have hsingle : ∀ other ∈ (batch :: batches).flatten.map fun c => [c], other.length < rxBufferSize.toNat := by
      intro other hother
      obtain ⟨c,hc,rfl⟩ := List.mem_map.mp hother
      obtain ⟨source,hsource,hin⟩ := List.mem_flatten.mp hc
      have hpos := List.length_pos_of_mem hin
      have hlt := hfit source hsource
      rw [List.length_singleton]
      omega
    obtain ⟨left',hone,-⟩ := @inBatches_survivors _ app cli _ _ _ hidle hsingle
    rw [hall] at hbatches
    rw [survivors_oneByOne] at hone
    have hstart : cli.withRx (cli.rxBuffer,false) = cli := rfl
    have hsame : inBatches app cli (batch :: batches) = (typed app cli (batch :: batches).flatten).withRx left :=
      hbatches
    have hother : oneByOne app cli (batch :: batches).flatten =
      (typed app cli (batch :: batches).flatten).withRx left' := hone
    rw [hsame,hother]
    exact ⟨rfl,rfl,rfl⟩

/-- An application without commands. -/
def noCommands : Application Unit where
  execute env cmdBuffer _ := (env,cmdBuffer)
  getAutocompletedCommand _ _ := []
  argsCompletion _ _ _ := none

/-- The start of a line on its own, and the rest of it with the return key. -/
theorem batches_alike_short : let cli := embeddedCliNew 64 64 64 ()
    let batches : List (List UInt8) := [[0x68],[0x65,0x6C,0x70,0x0D]]
    (inBatches noCommands cli batches).executed = [[0x68,0x65,0x6C,0x70]] ∧
      (inBatches noCommands cli batches).executed = (oneByOne noCommands cli batches.flatten).executed ∧
      (inBatches noCommands cli batches).cmdBuffer = (oneByOne noCommands cli batches.flatten).cmdBuffer ∧
      (inBatches noCommands cli batches).cmdSize = (oneByOne noCommands cli batches.flatten).cmdSize := by
  refine ⟨by decide +kernel,batches_alike noCommands 64 64 64 () _ ?_ ?_⟩
  · decide
  · refine ⟨⟨fun hnil => absurd rfl hnil,trivial⟩,⟨fun _ => ?_,fun _ => ?_,fun _ => ?_,fun hnil => absurd rfl hnil,trivial⟩,trivial⟩
    · decide +kernel
    · decide +kernel
    · decide +kernel

/-- A whole line in one batch: all but its first character is lost. -/
theorem whole_line_lost : let cli := embeddedCliNew 64 64 64 ()
    let line : List UInt8 := [0x68,0x65,0x6C,0x70,0x0D]
    line.length < 64 ∧
      (oneByOne noCommands cli line).executed = [[0x68,0x65,0x6C,0x70]] ∧
        (inBatches noCommands cli [line]).executed = [] ∧
      (inBatches noCommands cli [line]).cmdSize = 1 ∧ (oneByOne noCommands cli line).cmdSize = 0 := by
  decide +kernel

end Batches

end EmbedTemplate.Cli
