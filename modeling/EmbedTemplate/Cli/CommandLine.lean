import EmbedTemplate.Cli.Bindings
import EmbedTemplate.Cli.LineEditing
import EmbedTemplate.Cli.Tokenizer
import Mathlib.Data.List.TakeWhile

/-! # From a typed line to a command

`parseCommand` of `embedded_cli.c` behind the history: the name and the arguments are cut out of the command buffer in
their own place, the name is looked up, and the binding of the name is called. What comes of a line is compared with
what its words ask for.
-/
namespace EmbedTemplate.Cli.CommandLine
open Bytes Circular MultiString Tokens Bindings

/-- `BINDING_FLAG_TOKENIZE_ARGS`, `BINDING_FLAG_HAS_HELP` -/
def bindingFlagTokenizeArgs : ℕ := 2 ^ 9
def bindingFlagHasHelp : ℕ := 2 ^ 10

section Source

/-- The variables of the loop of `parseCommand`, and the command buffer. -/
structure Scan where
  cmdBuffer : ℕ → UInt8
  cmdName : Option ℕ
  cmdArgs : Option ℕ
  nameFinished : Bool
  len : ℕ

/-- The body of the loop. -/
def parseChar (p : Scan) (i : ℕ) : Scan :=
  if p.cmdBuffer i = charBlank then
    let p := if p.cmdArgs = none then { p with cmdBuffer := Function.update p.cmdBuffer i 0 } else p
    if p.cmdName ≠ none then { p with nameFinished := true, len := u16 i } else p
  else if p.cmdName = none then { p with cmdName := some i }
  else if p.cmdArgs = none ∧ p.nameFinished then { p with cmdArgs := some i }
  else p

/-- The bindings as the engine has them, which of them have a function, and whether `onCommand` is set. -/
structure Commands where
  state : Bindings.State
  ctx : AppContext
  binding : ℕ → Bool
  onCommand : Bool

/-- What `parseCommand` calls, with pointers into the command buffer. Without an application context the lookup has
nothing to read. -/
inductive Call
  | nothing
  | onUnknownCommand (cmdName : ℕ)
  | onHelp (cmdName : ℕ)
  | binding (i : ℕ) (cmdArgs : Option ℕ)
  | onCommand (cmdName : ℕ) (cmdArgs : Option ℕ)
  | noContext
  deriving DecidableEq

variable (c : Commands)

def tokenizes (i : ℕ) : Bool := isFlagSet (c.state.bindings i).flags bindingFlagTokenizeArgs
def hasHelp (i : ℕ) : Bool := isFlagSet (c.state.bindings i).flags bindingFlagHasHelp

/-- `embeddedCliTokenizeArgs` where the flag is set; it returns at once for a null pointer. -/
def tokenizeFor (i : ℕ) (cmdArgs : Option ℕ) (buf : ℕ → UInt8) : Option (ℕ → UInt8) :=
  match cmdArgs with
  | some args => if tokenizes c i then embeddedCliTokenizeArgs args buf else some buf
  | none => some buf

/-- The call of a binding, or of `onHelp` in its place. -/
def callBinding (p : Scan) (cmdName i : ℕ) (buf : ℕ → UInt8) : Call × (ℕ → UInt8) :=
  if ¬hasHelp c i ∧ p.cmdArgs.any (fun args => cString buf args = [0x3F]) then
    (.onHelp cmdName,Function.update buf (cmdName + (p.len + 1)) 0)
  else (.binding i p.cmdArgs,buf)

/-- `parseCommand` behind the loop. -/
def dispatchCommand (p : Scan) (cmdSize : ℕ) : Option (Call × (ℕ → UInt8)) :=
  let buf := Function.update p.cmdBuffer (cmdSize + 1) 0
  match p.cmdName with
  | none => some (.nothing,buf)
  | some cmdName =>
    match findBindingIndex c.state c.ctx (cString buf cmdName) with
    | .noContext => some (.noContext,buf)
    | .noMatch => some (.onUnknownCommand cmdName,buf)
    | .index i =>
      if c.binding i then (tokenizeFor c i p.cmdArgs buf).map (callBinding c p cmdName i)
      else if c.onCommand then some (.onCommand cmdName p.cmdArgs,buf)
      else some (.onUnknownCommand cmdName,buf)

/-- `parseCommand`, without the history. -/
def parseCommand (buf : ℕ → UInt8) (cmdSize : ℕ) : Option (Call × (ℕ → UInt8)) :=
  if (List.range cmdSize).all (fun i => buf i == charBlank) then some (.nothing,buf)
  else dispatchCommand c ((List.range cmdSize).foldl parseChar ⟨buf,none,none,false,0⟩) cmdSize

end Source

section Request

def isBlank (c : UInt8) : Bool := c == charBlank

/-- The first word of a line. -/
def nameOf (line : List UInt8) : List UInt8 := (line.dropWhile isBlank).takeWhile fun c => !isBlank c

/-- What follows the first word, from its first character on. -/
def argsOf (line : List UInt8) : List UInt8 := ((line.dropWhile isBlank).dropWhile fun c => !isBlank c).dropWhile isBlank

/-- The arguments of a command, cut into tokens or not. -/
inductive Arguments
  | none
  | text (chars : List UInt8)
  | tokens (words : List (List UInt8))
  deriving DecidableEq

/-- What a line asks for. -/
inductive Request
  | nothing
  | unknown (name : List UInt8)
  | help (name : List UInt8)
  | run (i : ℕ) (args : Arguments)
  | command (name : List UInt8) (args : Arguments)
  | noContext
  deriving DecidableEq

variable (c : Commands) (line : List UInt8)

def arguments (tokenized : Bool) : Arguments :=
  if argsOf line = [] then .none else if tokenized then .tokens (textWords (argsOf line)) else .text (argsOf line)

/-- The first argument is a question mark. -/
def asksHelp (tokenized : Bool) : Bool :=
  argsOf line ≠ [] ∧ if tokenized then (textWords (argsOf line)).head? = some [0x3F] else argsOf line = [0x3F]

def request : Request :=
  if nameOf line = [] then .nothing
  else
    match findBindingIndex c.state c.ctx (nameOf line) with
    | .noContext => .noContext
    | .noMatch => .unknown (nameOf line)
    | .index i =>
      if c.binding i then
        if ¬hasHelp c i ∧ asksHelp line (tokenizes c i) then .help (nameOf line) else .run i (arguments line (tokenizes c i))
      else if c.onCommand then .command (nameOf line) (arguments line false)
      else .unknown (nameOf line)

/-- A pointer to the arguments in the command buffer. -/
def Points (buf : ℕ → UInt8) : Option ℕ → Arguments → Prop
  | none, .none => True
  | some p, .text chars => cString buf p = chars
  | some p, .tokens words => Tokenized p buf words
  | _, _ => False

/-- A call and the command buffer behind it are what a request asks for. -/
def Denotes (buf : ℕ → UInt8) : Call → Request → Prop
  | .nothing, .nothing => True
  | .onUnknownCommand p, .unknown name => cString buf p = name
  | .onHelp p, .help name => cString buf p = name
  | .binding i p, .run j args => i = j ∧ Points buf p args
  | .onCommand p q, .command name args => cString buf p = name ∧ Points buf q args
  | .noContext, .noContext => True
  | _, _ => False

end Request

section Scanning
variable {mem : ℕ → UInt8} {a k p : ℕ} {cs line : List UInt8}

theorem range'_cons_foldl {β : Type*} (f : β → ℕ → β) (b : β) (a n : ℕ) :
    (List.range' a (n + 1)).foldl f b = (List.range' (a + 1) n).foldl f (f b a) := by
  rw [List.range'_succ,List.foldl_cons]

/-- Blanks in front of the name are zeroed. -/
theorem foldl_lead (hblank : Circular.get mem a k = List.replicate k charBlank) :
    (List.range' a k).foldl parseChar ⟨mem,none,none,false,0⟩ =
      ⟨put mem a (List.replicate k 0),none,none,false,0⟩ := by
  induction k generalizing mem a with
  | zero => rfl
  | succ k ih =>
    obtain ⟨hfirst,hrest⟩ := List.cons.inj hblank
    have hround : parseChar ⟨mem,none,none,false,0⟩ a = ⟨Function.update mem a 0,none,none,false,0⟩ := by
      unfold parseChar
      rw [if_pos hfirst]
      rfl
    rw [range'_cons_foldl,hround,ih]
    · rfl
    · rw [get_congr fun x hx => Function.update_of_ne (by omega : x ≠ a) 0 mem]
      exact hrest

/-- The characters of the name behind the first one. -/
theorem foldl_name (hheld : Circular.get mem a cs.length = cs) (hplain : charBlank ∉ cs) :
    (List.range' a cs.length).foldl parseChar ⟨mem,some p,none,false,0⟩ = ⟨mem,some p,none,false,0⟩ := by
  induction cs generalizing a with
  | nil => rfl
  | cons c cs ih =>
    obtain ⟨hfirst,hrest⟩ := List.cons.inj hheld
    rw [List.mem_cons,not_or] at hplain
    have hround : parseChar ⟨mem,some p,none,false,0⟩ a = ⟨mem,some p,none,false,0⟩ := by
      unfold parseChar
      rw [if_neg (show mem a ≠ charBlank by rw [hfirst]; exact Ne.symm hplain.1)]
      rfl
    rw [List.length_cons,range'_cons_foldl,hround,ih hrest hplain.2]

theorem foldl_whole_name (hheld : Circular.get mem a cs.length = cs) (hplain : charBlank ∉ cs) (hne : cs ≠ []) :
    (List.range' a cs.length).foldl parseChar ⟨mem,none,none,false,0⟩ = ⟨mem,some a,none,false,0⟩ := by
  obtain ⟨c,cs,rfl⟩ := List.exists_cons_of_ne_nil hne
  obtain ⟨hfirst,hrest⟩ := List.cons.inj hheld
  rw [List.mem_cons,not_or] at hplain
  have hround : parseChar ⟨mem,none,none,false,0⟩ a = ⟨mem,some a,none,false,0⟩ := by
    unfold parseChar
    rw [if_neg (show mem a ≠ charBlank by rw [hfirst]; exact Ne.symm hplain.1)]
    rfl
  rw [List.length_cons,range'_cons_foldl,hround,foldl_name hrest hplain.2]

/-- Blanks between the name and the arguments are zeroed. -/
theorem foldl_gap (hblank : Circular.get mem a k = List.replicate k charBlank) (finished : Bool) (len : ℕ) :
    (List.range' a k).foldl parseChar ⟨mem,some p,none,finished,len⟩ =
      ⟨put mem a (List.replicate k 0),some p,none,finished || decide (0 < k),if k = 0 then len else u16 (a + (k - 1))⟩ := by
  induction k generalizing mem a finished len with
  | zero => simp
  | succ k ih =>
    obtain ⟨hfirst,hrest⟩ := List.cons.inj hblank
    have hround : parseChar ⟨mem,some p,none,finished,len⟩ a = ⟨Function.update mem a 0,some p,none,true,u16 a⟩ := by
      unfold parseChar
      rw [if_pos hfirst]
      rfl
    rw [range'_cons_foldl,hround,ih]
    · rw [Bool.true_or,if_neg (Nat.succ_ne_zero k),decide_eq_true (Nat.succ_pos k),Bool.or_true,Nat.add_sub_cancel]
      congr 1
      split
      · subst k
        rfl
      · congr 1
        omega
    · rw [get_congr fun x hx => Function.update_of_ne (by omega : x ≠ a) 0 mem]
      exact hrest

/-- The place of the last blank of a string that begins at `i`. -/
def lastBlank : ℕ → ℕ → List UInt8 → ℕ
  | _, last, [] => last
  | i, last, c :: cs => lastBlank (i + 1) (if c = charBlank then i else last) cs

theorem lastBlank_append (i last : ℕ) (xs ys : List UInt8) :
    lastBlank i last (xs ++ ys) = lastBlank (i + xs.length) (lastBlank i last xs) ys := by
  induction xs generalizing i last with
  | nil => rfl
  | cons c xs ih =>
    rw [List.cons_append,lastBlank,ih,List.length_cons]
    congr 1
    omega

theorem lastBlank_blanks (i last j : ℕ) : lastBlank i last (List.replicate (j + 1) charBlank) = i + j := by
  induction j generalizing i last with
  | zero => rfl
  | succ j ih =>
    rw [List.replicate_succ,lastBlank,ih]
    omega

/-- The arguments stay as they are. -/
theorem foldl_args {q len : ℕ} (hheld : Circular.get mem a cs.length = cs) (hsmall : a + cs.length < 2 ^ 16) :
    (List.range' a cs.length).foldl parseChar ⟨mem,some p,some q,true,len⟩ =
      ⟨mem,some p,some q,true,lastBlank a len cs⟩ := by
  induction cs generalizing a len with
  | nil => rfl
  | cons c cs ih =>
    obtain ⟨hfirst,hrest⟩ := List.cons.inj hheld
    rw [List.length_cons] at hsmall
    have hround : parseChar ⟨mem,some p,some q,true,len⟩ a =
        ⟨mem,some p,some q,true,if c = charBlank then a else len⟩ := by
      unfold parseChar
      by_cases hc : c = charBlank
      · rw [if_pos (hfirst.trans hc),if_pos hc,u16_of_lt (by omega)]
        rfl
      · rw [if_neg (show mem a ≠ charBlank by rw [hfirst]; exact hc),if_neg hc]
        rfl
    rw [List.length_cons,range'_cons_foldl,hround,ih hrest (by omega)]
    rfl

end Scanning

section Parts
variable {line : List UInt8}

/-- The blanks in front of the name, and those behind it. -/
def leadOf (line : List UInt8) : ℕ := (line.takeWhile isBlank).length
def gapOf (line : List UInt8) : ℕ :=
  (((line.dropWhile isBlank).dropWhile fun c => !isBlank c).takeWhile isBlank).length

theorem isBlank_iff {c : UInt8} : isBlank c = true ↔ c = charBlank := beq_iff_eq

theorem takeWhile_blank (cs : List UInt8) : cs.takeWhile isBlank = List.replicate (cs.takeWhile isBlank).length charBlank := by
  rw [List.eq_replicate_iff]
  refine ⟨rfl,fun c hc => ?_⟩
  exact isBlank_iff.mp (List.mem_takeWhile_imp hc)

theorem line_parts (line : List UInt8) : line = List.replicate (leadOf line) charBlank ++
    (nameOf line ++ (List.replicate (gapOf line) charBlank ++ argsOf line)) := by
  unfold leadOf gapOf nameOf argsOf
  rw [← takeWhile_blank,← takeWhile_blank,List.takeWhile_append_dropWhile,List.takeWhile_append_dropWhile,
    List.takeWhile_append_dropWhile]

theorem nameOf_plain (line : List UInt8) : charBlank ∉ nameOf line := by
  intro hblank
  have hnot := List.mem_takeWhile_imp hblank
  revert hnot
  decide

/-- The arguments begin with a character that is not blank, behind a blank. -/
theorem argsOf_first {c : UInt8} {cs : List UInt8} (h : argsOf line = c :: cs) : c ≠ charBlank ∧ 0 < gapOf line := by
  have hfirst := List.head?_dropWhile_not isBlank ((line.dropWhile isBlank).dropWhile fun c => !isBlank c)
  have hgap := List.head?_dropWhile_not (fun c => !isBlank c) (line.dropWhile isBlank)
  unfold argsOf at h
  rw [h] at hfirst
  have hc : c ≠ charBlank := fun hblank => by
    rw [List.head?_cons,hblank] at hfirst
    exact absurd hfirst (by decide)
  refine ⟨hc,Nat.pos_of_ne_zero fun hzero => hc ?_⟩
  have hnone := List.eq_nil_of_length_eq_zero hzero
  have hall := List.takeWhile_append_dropWhile (p := isBlank) (l := (line.dropWhile isBlank).dropWhile fun c => !isBlank c)
  rw [hnone,List.nil_append,h] at hall
  rw [← hall,List.head?_cons] at hgap
  exact eq_of_beq (Bool.not_eq_false' .. ▸ hgap)

theorem nameOf_eq_nil : nameOf line = [] ↔ ∀ c ∈ line, c = charBlank := by
  have hfirst := List.head?_dropWhile_not isBlank line
  unfold nameOf
  constructor
  · intro hnil
    cases hrest : line.dropWhile isBlank with
    | nil => exact fun c hc => isBlank_iff.mp (List.dropWhile_eq_nil_iff.mp hrest c hc)
    | cons c cs =>
      rw [hrest,List.head?_cons] at hfirst
      rw [hrest,List.takeWhile_cons_of_pos (by simpa using hfirst)] at hnil
      cases hnil
  · intro hall
    rw [List.dropWhile_eq_nil_iff.mpr fun c hc => isBlank_iff.mpr (hall c hc)]
    rfl

variable {buf : ℕ → UInt8}

/-- The command buffer with the blanks around the name zeroed. -/
def cut (buf : ℕ → UInt8) (line : List UInt8) : ℕ → UInt8 :=
  put (put buf 0 (List.replicate (leadOf line) 0)) (leadOf line + (nameOf line).length) (List.replicate (gapOf line) 0)

/-- The place of the arguments. -/
def argsAt (line : List UInt8) : ℕ := leadOf line + (nameOf line).length + gapOf line

theorem length_parts (line : List UInt8) : line.length = argsAt line + (argsOf line).length := by
  conv_lhs => rw [line_parts line]
  unfold argsAt
  simp only [List.length_append,List.length_replicate]
  omega

theorem spells_parts (hheld : Spells buf line) :
    Circular.get buf 0 (leadOf line) = List.replicate (leadOf line) charBlank ∧
      Circular.get buf (leadOf line) (nameOf line).length = nameOf line ∧
      Circular.get buf (leadOf line + (nameOf line).length) (gapOf line) = List.replicate (gapOf line) charBlank ∧
      Circular.get buf (argsAt line) ((argsOf line).length + 1) = argsOf line ++ [0] := by
  have hall : Circular.get buf 0 (line ++ [0]).length = line ++ [0] := by
    rw [List.length_append]
    exact hheld
  rw [line_parts line,List.append_assoc,List.append_assoc,List.append_assoc] at hall
  obtain ⟨hlead,hall⟩ := get_append.mp hall
  obtain ⟨hname,hall⟩ := get_append.mp hall
  obtain ⟨hgap,hargs⟩ := get_append.mp hall
  rw [List.length_replicate] at hlead hname hgap hargs
  rw [Nat.zero_add] at hname hgap hargs
  rw [List.length_replicate] at hgap hargs
  rw [List.length_append] at hargs
  exact ⟨hlead,hname,hgap,hargs⟩

theorem cut_same {x : ℕ} (hlead : leadOf line ≤ x) (h : x < leadOf line + (nameOf line).length ∨ argsAt line ≤ x) :
    cut buf line x = buf x := by
  unfold argsAt at h
  unfold cut
  rw [put_outside _ _ _ (by rw [List.length_replicate]; omega),put_outside _ _ _ (by rw [List.length_replicate]; omega)]

theorem cut_args (hheld : Spells buf line) :
    Circular.get (cut buf line) (argsAt line) ((argsOf line).length + 1) = argsOf line ++ [0] := by
  rw [get_congr fun x hx => cut_same (by unfold argsAt at hx; omega) (.inr hx)]
  exact (spells_parts hheld).2.2.2

/-- The name is a string of its own. -/
theorem cut_name (hheld : Spells buf line) :
    Circular.get (cut buf line) (leadOf line) ((nameOf line).length + 1) = nameOf line ++ [0] := by
  have hzero : cut buf line (leadOf line + (nameOf line).length) = 0 := by
    by_cases hgap : gapOf line = 0
    · have hnone : argsOf line = [] := by
        cases hargs : argsOf line with
        | nil => rfl
        | cons c cs => exact absurd hgap (argsOf_first hargs).2.ne'
      have hend := cut_args hheld
      rw [hnone] at hend
      unfold argsAt at hend
      rw [hgap] at hend
      exact List.head_eq_of_cons_eq hend
    · obtain ⟨j,hj⟩ := Nat.exists_eq_succ_of_ne_zero hgap
      unfold cut
      rw [hj,List.replicate_succ,put,put_outside _ _ _ (.inl (Nat.lt_succ_self _)),Function.update_self]
  rw [get_add,get_window fun x hx hlt => cut_same hx (.inl hlt),(spells_parts hheld).2.1]
  change nameOf line ++ [cut buf line (leadOf line + (nameOf line).length)] = _
  rw [hzero]

/-- The loop up to the arguments. -/
theorem foldl_before_args (hheld : Spells buf line) (hname : nameOf line ≠ []) :
    (List.range (argsAt line)).foldl parseChar ⟨buf,none,none,false,0⟩ =
      ⟨cut buf line,some (leadOf line),none,decide (0 < gapOf line),
        if gapOf line = 0 then 0 else u16 (leadOf line + (nameOf line).length + (gapOf line - 1))⟩ := by
  obtain ⟨hlead,hcs,hgap,-⟩ := spells_parts hheld
  have hrange : List.range (argsAt line) = List.range' 0 (leadOf line) ++ (List.range' (leadOf line) (nameOf line).length ++
      List.range' (leadOf line + (nameOf line).length) (gapOf line)) := by
    have hsplit := @List.range'_append_1 0 (leadOf line) ((nameOf line).length + gapOf line)
    rw [Nat.zero_add] at hsplit
    unfold argsAt
    rw [List.range'_append_1,hsplit,List.range_eq_range',Nat.add_assoc]
  have hfront : ∀ x, leadOf line ≤ x → put buf 0 (List.replicate (leadOf line) 0) x = buf x := fun x hx =>
    put_outside _ _ _ (.inr (by rw [List.length_replicate]; omega))
  rw [← get_congr hfront] at hcs
  rw [← get_congr fun x hx => hfront x (Nat.le_trans (Nat.le_add_right ..) hx)] at hgap
  rw [hrange,List.foldl_append,List.foldl_append,foldl_lead hlead,foldl_whole_name hcs (nameOf_plain line) hname,
    foldl_gap hgap,Bool.false_or]
  rfl

/-- What the loop of `parseCommand` finds. -/
theorem foldl_parseChar (hheld : Spells buf line) (hname : nameOf line ≠ []) (hsmall : line.length < 2 ^ 16) :
    ∃ finished len, (List.range line.length).foldl parseChar ⟨buf,none,none,false,0⟩ =
        ⟨cut buf line,some (leadOf line),if argsOf line = [] then none else some (argsAt line),finished,len⟩ ∧
      (argsOf line ≠ [] → len = lastBlank 0 0 line) := by
  have hlength := length_parts line
  have hrange : List.range line.length = List.range (argsAt line) ++ List.range' (argsAt line) (argsOf line).length := by
    have hsplit := @List.range'_append_1 0 (argsAt line) (argsOf line).length
    rw [Nat.zero_add] at hsplit
    rw [List.range_eq_range',List.range_eq_range',hsplit,hlength]
  rw [hrange,List.foldl_append,foldl_before_args hheld hname]
  cases hargs : argsOf line with
  | nil => exact ⟨_,_,rfl,fun h => absurd rfl h⟩
  | cons c cs =>
    obtain ⟨hc,hgap⟩ := argsOf_first hargs
    have hheldArgs := cut_args hheld
    rw [hargs] at hheldArgs hlength
    obtain ⟨hfirst,hrest⟩ := List.cons.inj hheldArgs
    have htail : Circular.get (cut buf line) (argsAt line + 1) (cs ++ [0]).length = cs ++ [0] := by
      rw [List.length_append]
      exact hrest
    rw [List.length_cons] at hlength
    have hround : ∀ len, parseChar ⟨cut buf line,some (leadOf line),none,true,len⟩ (argsAt line) =
        ⟨cut buf line,some (leadOf line),some (argsAt line),true,len⟩ := by
      intro len
      unfold parseChar
      rw [if_neg (show cut buf line (argsAt line) ≠ charBlank by rw [hfirst]; exact hc)]
      rfl
    rw [decide_eq_true hgap,if_neg hgap.ne',List.length_cons,range'_cons_foldl,hround,
      foldl_args (get_append.mp htail).1 (by omega)]
    refine ⟨_,_,rfl,fun _ => ?_⟩
    obtain ⟨j,hj⟩ := Nat.exists_eq_succ_of_ne_zero hgap.ne'
    conv_rhs => rw [line_parts line]
    rw [lastBlank_append,lastBlank_append,lastBlank_append,hj,lastBlank_blanks,hargs,lastBlank,if_neg hc,
      List.length_replicate,List.length_replicate]
    have hat : argsAt line = leadOf line + (nameOf line).length + (j + 1) := by rw [← Nat.succ_eq_add_one,← hj]; rfl
    rw [u16_of_lt (by omega),hat,Nat.zero_add,Nat.succ_sub_one]

end Parts

section Calls
variable {c : Commands} {line : List UInt8} {buf : ℕ → UInt8} {i : ℕ}

/-- The pointer to the arguments of a line. -/
def argsPointer (line : List UInt8) : Option ℕ := if argsOf line = [] then none else some (argsAt line)

/-- Two NULs one behind the other. -/
def Ended (buf : ℕ → UInt8) (d : ℕ) : Prop := buf d = 0 ∧ buf (d + 1) = 0

/-- The arguments behind `embeddedCliTokenizeArgs`, where it is called. Nothing in front of them has changed, nothing
behind the two bytes after them, and two NULs end them. -/
structure Prepared (c : Commands) (i : ℕ) (line : List UInt8) (buf buf' : ℕ → UInt8) : Prop where
  points : Points buf' (argsPointer line) (arguments line (tokenizes c i))
  help : ((argsPointer line).any fun args => cString buf' args = [0x3F]) = asksHelp line (tokenizes c i)
  front : ∀ x, argsOf line = [] ∨ x < argsAt line → buf' x = buf x
  behind : ∀ x, line.length + 2 ≤ x → buf' x = buf x
  ended : ∃ d, argsAt line ≤ d ∧ d ≤ line.length ∧ Ended buf' d

theorem prepared_plain (hlast : Ended buf line.length) (hpoints : Points buf (argsPointer line) (arguments line (tokenizes c i)))
    (hhelp : ((argsPointer line).any fun args => cString buf args = [0x3F]) = asksHelp line (tokenizes c i)) :
    Prepared c i line buf buf :=
  ⟨hpoints,hhelp,fun _ _ => rfl,fun _ _ => rfl,line.length,by rw [length_parts]; exact Nat.le_add_right .., le_rfl,hlast⟩

theorem multiString_ended {words : List (List UInt8)} {args : ℕ}
    (hheld : Circular.get buf args (multiString 0 words).length = multiString 0 words) :
    ∃ k, k + 2 = (multiString 0 words).length ∧ Ended buf (args + k) := by
  obtain ⟨front,hfront⟩ : ∃ front, multiString 0 words = front ++ [0,0] := by
    unfold multiString
    split
    · exact ⟨[],rfl⟩
    · rename_i hne
      obtain ⟨front,hlast⟩ := List.getLast?_eq_some_iff.mp (terminated_getLast (z := (0 : UInt8)) hne)
      exact ⟨front,by rw [hlast,List.append_assoc]; rfl⟩
  rw [hfront,get_append] at hheld
  obtain ⟨-,hend⟩ := hheld
  obtain ⟨hfirst,hrest⟩ := List.cons.inj hend
  exact ⟨front.length,by rw [hfront,List.length_append]; rfl,hfirst,List.head_eq_of_cons_eq hrest⟩

/-- Arguments that are not cut into tokens. -/
theorem points_text (hheld : Circular.get buf (argsAt line) ((argsOf line).length + 1) = argsOf line ++ [0])
    (hnul : 0 ∉ argsOf line) (hsmall : (argsOf line).length < 2 ^ 16) :
    Points buf (argsPointer line) (arguments line false) := by
  unfold argsPointer arguments
  by_cases hnone : argsOf line = []
  · rw [if_pos hnone,if_pos hnone]
    trivial
  · rw [if_neg hnone,if_neg hnone]
    exact cString_eq hheld hnul hsmall

theorem tokenizeFor_prepared (hheld : Circular.get buf (argsAt line) ((argsOf line).length + 1) = argsOf line ++ [0])
    (hlast : Ended buf line.length) (hname : nameOf line ≠ []) (hnul : 0 ∉ argsOf line) (hsmall : line.length < 2 ^ 16) :
    ∃ buf', tokenizeFor c i (argsPointer line) buf = some buf' ∧ Prepared c i line buf buf' := by
  have hlength := length_parts line
  by_cases hnone : argsOf line = []
  · have hpointer : argsPointer line = none := if_pos hnone
    refine ⟨buf,by rw [hpointer]; rfl,prepared_plain hlast ?_ ?_⟩
    · rw [hpointer]
      unfold arguments
      rw [if_pos hnone]
      trivial
    · rw [hpointer]
      unfold asksHelp
      simp [hnone]
  have hpointer : argsPointer line = some (argsAt line) := if_neg hnone
  have hgap : 0 < gapOf line := by
    obtain ⟨c,cs,hargs⟩ := List.exists_cons_of_ne_nil hnone
    exact (argsOf_first hargs).2
  have hshort : (argsOf line).length + 2 ≤ line.length := by
    have hpos := List.length_pos_iff.mpr hname
    unfold argsAt at hlength
    omega
  rw [hpointer]
  unfold tokenizeFor
  cases htok : tokenizes c i with
  | false =>
    have htext := cString_eq hheld hnul (by omega)
    refine ⟨buf,rfl,prepared_plain hlast ?_ ?_⟩
    · rw [htok]
      exact points_text hheld hnul (by omega)
    · rw [hpointer,Option.any_some,htext]
      unfold asksHelp
      simp [hnone,htok]
  | true =>
    obtain ⟨buf',hbuf',hwords,hproper,hsize,houtside⟩ := tokenizeArgs_holds hheld hnul (by omega)
    have htokens := tokenized_of_held hwords hproper (by omega)
    obtain ⟨k,hk,hended⟩ := multiString_ended hwords
    refine ⟨buf',hbuf',?_,?_,fun x hx => houtside x (.inl (hx.resolve_left hnone)),fun x hx => houtside x (.inr (by omega)),
      argsAt line + k,Nat.le_add_right ..,by omega,hended⟩
    · rw [hpointer]
      unfold arguments
      rw [if_neg hnone,htok]
      exact htokens
    · rw [hpointer,Option.any_some,htokens.first]
      unfold asksHelp
      rw [htok]
      cases (textWords (argsOf line)).head? with
      | none => simp
      | some word => simp [hnone]

theorem lastBlank_ge {j last : ℕ} (h : last ≤ j) (cs : List UInt8) : last ≤ lastBlank j last cs := by
  induction cs generalizing j last with
  | nil => exact le_rfl
  | cons c cs ih =>
    unfold lastBlank
    split
    · exact h.trans (ih (Nat.le_succ j))
    · exact ih (Nat.le_succ_of_le h)

/-- The last blank is behind the name, when there are arguments. -/
theorem lastBlank_behind (hgap : 0 < gapOf line) : leadOf line + (nameOf line).length ≤ lastBlank 0 0 line := by
  obtain ⟨j,hj⟩ := Nat.exists_eq_succ_of_ne_zero hgap.ne'
  conv_rhs => rw [line_parts line]
  rw [lastBlank_append,lastBlank_append,lastBlank_append,hj,lastBlank_blanks,List.length_replicate,List.length_replicate]
  refine Nat.le_trans ?_ (lastBlank_ge (by omega) _)
  omega

/-- The command buffer when a binding is called: the name and the blanks behind it, and what is behind the line. -/
structure Parsed (line : List UInt8) (buf buf' : ℕ → UInt8) : Prop where
  name : Circular.get buf' (leadOf line) ((nameOf line).length + 1) = nameOf line ++ [0]
  gap : ∀ x, leadOf line + (nameOf line).length ≤ x → x < argsAt line → buf' x = 0
  behind : ∀ x, line.length + 2 ≤ x → buf' x = buf x
  ended : ∃ d, argsAt line ≤ d ∧ d ≤ line.length ∧ Ended buf' d

/-- The place that is zeroed for the help of a command. -/
def helpAt (line : List UInt8) : ℕ := leadOf line + (lastBlank 0 0 line + 1)

/-- What a request for help does to the command buffer besides. -/
def withHelp (buf : ℕ → UInt8) (line : List UInt8) : Request → ℕ → UInt8
  | .help _ => Function.update buf (helpAt line) 0
  | _ => buf

theorem gapOf_eq_zero (hgap : gapOf line = 0) : argsOf line = [] := by
  cases hargs : argsOf line with
  | nil => rfl
  | cons c cs => exact absurd hgap (argsOf_first hargs).2.ne'

/-- The line has two terminators behind it. -/
theorem ended_cut (hheld : Spells buf line) : Ended (Function.update (cut buf line) (line.length + 1) 0) line.length := by
  have hargs := cut_args hheld
  rw [get_add] at hargs
  refine ⟨?_,Function.update_self ..⟩
  rw [Function.update_of_ne (Nat.ne_of_lt (Nat.lt_succ_self _)),length_parts]
  exact List.head_eq_of_cons_eq (List.append_inj_right hargs (get_length ..))

/-- The command buffer behind the loop, with its second terminator. -/
theorem parsed_cut (hheld : Spells buf line) : Parsed line buf (Function.update (cut buf line) (line.length + 1) 0) := by
  have hlength := length_parts line
  have hsame : ∀ x, x ≠ line.length + 1 → Function.update (cut buf line) (line.length + 1) 0 x = cut buf line x :=
    fun x hx => Function.update_of_ne hx 0 _
  have hat : argsAt line = leadOf line + (nameOf line).length + gapOf line := rfl
  constructor
  case name =>
    rw [get_window fun x _ hx => hsame x (by omega)]
    exact cut_name hheld
  case gap =>
    intro x hlow hhigh
    rw [hsame x (by omega)]
    have hzeros := get_put (put buf 0 (List.replicate (leadOf line) 0)) (leadOf line + (nameOf line).length)
      (List.replicate (gapOf line) 0)
    rw [List.length_replicate] at hzeros
    have hbyte := congrArg (·[x - (leadOf line + (nameOf line).length)]?) hzeros
    rw [get_getElem?,if_pos (by omega),Nat.add_sub_cancel' hlow,List.getElem?_replicate,if_pos (by omega)] at hbyte
    exact Option.some.inj hbyte
  case behind =>
    intro x hx
    rw [hsame x (by omega)]
    exact cut_same (by omega) (.inr (by omega))
  case ended =>
    exact ⟨line.length,by omega,le_rfl,ended_cut hheld⟩

theorem Prepared.parsed {buf₁ buf₂ : ℕ → UInt8} (h : Prepared c i line buf₁ buf₂) (hparsed : Parsed line buf buf₁) :
    Parsed line buf buf₂ := by
  have hat : argsAt line = leadOf line + (nameOf line).length + gapOf line := rfl
  have hfront : ∀ x, x < leadOf line + ((nameOf line).length + 1) → buf₂ x = buf₁ x := by
    intro x hx
    apply h.front
    by_cases hgap : gapOf line = 0
    · exact .inl (gapOf_eq_zero hgap)
    · exact .inr (by omega)
  constructor
  case name =>
    rw [get_window fun x _ hx => hfront x hx]
    exact hparsed.name
  case gap => exact fun x hlow hhigh => (h.front x (.inr hhigh)).trans (hparsed.gap x hlow hhigh)
  case behind => exact fun x hx => (h.behind x hx).trans (hparsed.behind x hx)
  case ended => exact h.ended

theorem request_help {name : List UInt8} (h : request c line = .help name) :
    name = nameOf line ∧ nameOf line ≠ [] ∧ argsOf line ≠ [] := by
  unfold request at h
  split at h
  · cases h
  rename_i hname
  split at h
  · cases h
  · cases h
  split at h
  · split at h
    · rename_i hhelp
      have hasks := hhelp.2
      unfold asksHelp at hasks
      cases h
      exact ⟨rfl,hname,(of_decide_eq_true hasks).1⟩
    · cases h
  · split at h
    · cases h
    · cases h

/-- The name is still there when the place for the help has been zeroed. -/
theorem withHelp_name {buf₁ : ℕ → UInt8} (h : Parsed line buf buf₁) (hnul : 0 ∉ line) (hsmall : line.length < 2 ^ 16)
    (r : Request) (hargs : ∀ name, r = .help name → argsOf line ≠ []) :
    cString (withHelp buf₁ line r) (leadOf line) = nameOf line := by
  have hlength := length_parts line
  have hat : argsAt line = leadOf line + (nameOf line).length + gapOf line := rfl
  have hmem : 0 ∉ nameOf line := fun hzero => hnul (by
    rw [line_parts line]
    exact List.mem_append_right _ (List.mem_append_left _ hzero))
  refine cString_eq ?_ hmem (by omega)
  cases r with
  | help name =>
    have hgap : 0 < gapOf line := Nat.pos_of_ne_zero fun hzero => hargs name rfl (gapOf_eq_zero hzero)
    have hlast := lastBlank_behind hgap
    have hplace : helpAt line = leadOf line + (lastBlank 0 0 line + 1) := rfl
    unfold withHelp
    rw [get_window fun x _ hx => Function.update_of_ne (by omega : x ≠ helpAt line) 0 buf₁]
    exact h.name
  | nothing | unknown | run | command | noContext => exact h.name

/-- A binding is called, or `onHelp` in its place, as the line asks for. -/
theorem callBinding_denotes {buf₁ buf₂ : ℕ → UInt8} {finished : Bool} {len : ℕ} (h : Prepared c i line buf₁ buf₂)
    (hparsed : Parsed line buf buf₁) (hnul : 0 ∉ line) (hsmall : line.length < 2 ^ 16)
    (hlen : argsOf line ≠ [] → len = lastBlank 0 0 line) {r : Request}
    (hr : r = if ¬hasHelp c i ∧ asksHelp line (tokenizes c i) then .help (nameOf line)
      else .run i (arguments line (tokenizes c i))) :
    ∃ call, callBinding c ⟨cut buf line,some (leadOf line),argsPointer line,finished,len⟩ (leadOf line) i buf₂ =
        (call,withHelp buf₂ line r) ∧ Denotes (withHelp buf₂ line r) call r ∧
      ∀ name, r = .help name → call = .onHelp (leadOf line) ∧ buf₂ (argsAt line) ≠ 0 := by
  unfold callBinding
  dsimp only
  rw [h.help]
  by_cases hhelp : ¬hasHelp c i ∧ asksHelp line (tokenizes c i)
  · rw [if_pos hhelp] at hr ⊢
    have hargs : argsOf line ≠ [] := by
      have hasks := hhelp.2
      unfold asksHelp at hasks
      exact (of_decide_eq_true hasks).1
    subst hr
    refine ⟨.onHelp (leadOf line),?_,withHelp_name (h.parsed hparsed) hnul hsmall _ fun _ _ => hargs,fun _ _ => ⟨rfl,fun hzero => ?_⟩⟩
    · rw [hlen hargs]
      rfl
    · have hmark := h.help
      rw [hhelp.2,argsPointer,if_neg hargs,Option.any_some,decide_eq_true_iff] at hmark
      have hempty := @cString_eq buf₂ [] (argsAt line) (by rw [Circular.get,hzero]; rfl) List.not_mem_nil (by decide)
      rw [hempty] at hmark
      cases hmark
  · rw [if_neg hhelp] at hr ⊢
    subst hr
    exact ⟨_,rfl,⟨rfl,h.points⟩,fun _ h => by cases h⟩

theorem all_blank_iff (hheld : Spells buf line) :
    (List.range line.length).all (fun i => buf i == charBlank) = true ↔ nameOf line = [] := by
  have hfront : Circular.get buf 0 line.length = line := Spells.front (by rw [List.append_nil]; exact hheld)
  rw [nameOf_eq_nil,List.all_eq_true]
  conv_rhs => rw [← hfront,get_eq_map]
  simp [beq_iff_eq]

/-- What `parseCommand` does with a line is what the line asks for. -/
theorem parseCommand_spec (c : Commands) (hheld : Spells buf line) (hnul : 0 ∉ line) (hsmall : line.length < 2 ^ 16) :
    ∃ call buf', parseCommand c buf line.length = some (call,withHelp buf' line (request c line)) ∧
      Denotes (withHelp buf' line (request c line)) call (request c line) ∧
      (nameOf line = [] → buf' = buf) ∧ (nameOf line ≠ [] → Parsed line buf buf') ∧
      ∀ name, request c line = .help name → call = .onHelp (leadOf line) ∧ buf' (argsAt line) ≠ 0 := by
  unfold parseCommand
  by_cases hname : nameOf line = []
  · have hrequest : request c line = .nothing := if_pos hname
    rw [if_pos ((all_blank_iff hheld).mpr hname),hrequest]
    exact ⟨.nothing,buf,rfl,trivial,fun _ => rfl,fun h => absurd hname h,fun _ h => by cases h⟩
  rw [if_neg fun hall => hname ((all_blank_iff hheld).mp hall)]
  obtain ⟨finished,len,hfold,hlen⟩ := foldl_parseChar hheld hname hsmall
  have hparsed := parsed_cut hheld
  have hargs := cut_args hheld
  have hlength := length_parts line
  set buf₁ := Function.update (cut buf line) (line.length + 1) 0 with hbuf₁
  have hcString : cString buf₁ (leadOf line) = nameOf line :=
    withHelp_name hparsed hnul hsmall .nothing fun _ h => by cases h
  have hnulArgs : 0 ∉ argsOf line := fun hzero => hnul (by
    rw [line_parts line]
    exact List.mem_append_right _ (List.mem_append_right _ (List.mem_append_right _ hzero)))
  have hheldArgs : Circular.get buf₁ (argsAt line) ((argsOf line).length + 1) = argsOf line ++ [0] := by
    rw [get_window fun x _ hx => Function.update_of_ne (by omega : x ≠ line.length + 1) 0 _]
    exact hargs
  have hended : Ended buf₁ line.length := ended_cut hheld
  rw [hfold]
  unfold dispatchCommand
  dsimp only
  rw [← hbuf₁,hcString]
  unfold request
  rw [if_neg hname]
  cases hfind : findBindingIndex c.state c.ctx (nameOf line) with
  | noContext => exact ⟨_,buf₁,rfl,trivial,fun h => absurd h hname,fun _ => hparsed,fun _ h => by cases h⟩
  | noMatch => exact ⟨_,buf₁,rfl,hcString,fun h => absurd h hname,fun _ => hparsed,fun _ h => by cases h⟩
  | index i =>
    dsimp only
    cases hbinding : c.binding i with
    | true =>
      obtain ⟨buf₂,htokenize,hprepared⟩ := tokenizeFor_prepared (c := c) (i := i) hheldArgs hended hname hnulArgs hsmall
      obtain ⟨call,hcall,hdenotes,hmark⟩ := @callBinding_denotes c line buf i buf₁ buf₂ finished len hprepared hparsed hnul hsmall
        hlen _ rfl
      refine ⟨call,buf₂,?_,hdenotes,fun h => absurd h hname,fun _ => hprepared.parsed hparsed,hmark⟩
      rw [if_pos rfl]
      change (tokenizeFor c i (argsPointer line) buf₁).map _ = _
      rw [htokenize,Option.map_some]
      exact congrArg some hcall
    | false =>
      rw [if_neg Bool.false_ne_true,if_neg Bool.false_ne_true]
      cases c.onCommand with
      | true =>
        exact ⟨_,buf₁,rfl,⟨hcString,points_text hheldArgs hnulArgs (by omega)⟩,fun h => absurd h hname,fun _ => hparsed,fun _ h => by cases h⟩
      | false => exact ⟨_,buf₁,rfl,hcString,fun h => absurd h hname,fun _ => hparsed,fun _ h => by cases h⟩

end Calls

end EmbedTemplate.Cli.CommandLine
