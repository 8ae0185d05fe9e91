import EmbedTemplate.Cli.Confined

/-! # An overflow of the receive buffer

`embeddedCliProcess` is to discard the unfinished command then, but it only clears its size: the cursor and the length of
the line stay, so the next character is appended to the old line, and the test for a full buffer sees an empty one.
-/
namespace EmbedTemplate.Cli
open Bytes Circular

section Receive
variable {σ : Type*} (app : Application σ) {cli : Engine σ} {rx : FifoBuf × Bool} {n : ℕ}

theorem Waiting.refuse {f : FifoBuf} {cs : List UInt8} (h : Waiting f cs) (hfull : cs.length + 1 = f.size) (c : UInt8) :
    fifoBufPush f c = (f,false) := by
  have hsize := h.size
  have hback : f.back < f.size := by
    rw [h.back]
    exact Nat.mod_lt _ (by omega)
  have hnext : u16 (f.back + 1) % f.size = f.front := by
    rw [u16_of_lt (by omega),h.back,Nat.mod_add_mod,Nat.add_assoc,hfull,Nat.add_mod_right]
    exact Nat.mod_eq_of_lt h.front
  unfold fifoBufPush
  rw [hnext]
  exact if_neg (not_not.mpr rfl)

/-- A full FIFO keeps what it has. -/
theorem receive_refused {held : List UInt8} (h : Waiting rx.1 held) (hfull : held.length + 1 = rx.1.size) {cs : List UInt8}
    (hsome : cs ≠ []) : cs.foldl embeddedCliReceiveChar (cli.withRx rx) = cli.withRx (rx.1,true) := by
  have hone : ∀ flag c, embeddedCliReceiveChar (cli.withRx (rx.1,flag)) c = cli.withRx (rx.1,true) := by
    intro flag c
    have hpush : fifoBufPush (cli.withRx (rx.1,flag)).rxBuffer c = (rx.1,false) := h.refuse hfull c
    unfold embeddedCliReceiveChar
    rw [hpush]
    rfl
  obtain ⟨c,cs,rfl⟩ := List.exists_cons_of_ne_nil hsome
  rw [List.foldl_cons,hone rx.2]
  clear hsome
  induction cs with
  | nil => rfl
  | cons c cs ih =>
    rw [List.foldl_cons,hone]
    exact ih

/-- What is done for a character does not depend on the overflow flag, and leaves it. -/
theorem processChar_flag (cli : Engine σ) (flag : Bool) (c : UInt8) :
    processChar app { cli with overflow := flag } c = { processChar app cli c with overflow := flag } := by
  have hframes := frames_processChar app c cli
  have hrx : (processChar app cli c).rxBuffer = (flushIf (refreshes app cli c) (cli.rxBuffer,cli.overflow)).1 :=
    congrArg Engine.rxBuffer (hframes (cli.rxBuffer,cli.overflow)).1
  refine (hframes (cli.rxBuffer,flag)).1.trans (Engine.ext rfl ?_ rfl rfl rfl rfl ?_ rfl rfl rfl rfl rfl)
  · refine Eq.trans ?_ hrx.symm
    dsimp only [Engine.withRx,flushIf]
    split
    · rfl
    · rfl
  · dsimp only [Engine.withRx,flushIf]
    split
    · rfl
    · rfl

theorem processLoop_flag (flag : Bool) (fuel : ℕ) (cli : Engine σ) :
    processLoop app fuel { cli with overflow := flag } = { processLoop app fuel cli with overflow := flag } := by
  induction fuel generalizing cli with
  | zero => rfl
  | succ fuel ih =>
    unfold processLoop
    dsimp only
    by_cases hnone : fifoBufAvailable cli.rxBuffer = 0
    · rw [if_pos hnone,if_pos hnone]
    · rw [if_neg hnone,if_neg hnone]
      have hchar := processChar_flag app { cli with rxBuffer := (fifoBufPop cli.rxBuffer).2 } flag (fifoBufPop cli.rxBuffer).1
      exact (congrArg (processLoop app fuel) hchar).trans (ih _)

/-- What `embeddedCliProcess` does after an overflow. -/
def discard (cli : Engine σ) : Engine σ := { cli with cmdSize := 0, cmdBuffer := Function.update cli.cmdBuffer 0 0 }

/-- The engine behind a batch of any length: what the FIFO has no room for is lost, and the rest discarded behind it. -/
def behindBatch (n : ℕ) (cli : Engine σ) (batch : List UInt8) : Engine σ :=
  let done := typed app cli (surviving app cli (batch.take (n - 1)))
  if n ≤ batch.length then discard done else done

theorem process_any (batch : List UInt8) (h : Idle rx n) :
    ∃ left, embeddedCliProcess app (batch.foldl embeddedCliReceiveChar (cli.withRx rx)) =
      (behindBatch app n cli batch).withRx left ∧ Idle left n := by
  unfold behindBatch
  by_cases hlong : n ≤ batch.length
  · have hpos : 0 < n := h.size ▸ Nat.zero_lt_of_lt h.empty.front
    have hlen : (batch.take (n - 1)).length = n - 1 := List.length_take_of_le (by omega)
    obtain ⟨full,hreceive,hwait,-,hsize⟩ := @receive_all _ cli rx (batch.take (n - 1)) [] h.empty h.fits (by
      rw [hlen,List.length_nil,h.size]
      omega)
    rw [List.nil_append] at hwait
    have hrest : batch.drop (n - 1) ≠ [] := by
      intro hnil
      have hzero := congrArg List.length hnil
      rw [List.length_drop,List.length_nil] at hzero
      omega
    have hrefused := @receive_refused _ cli full _ hwait (by rw [hlen,hsize,h.size]; omega) _ hrest
    have hall : batch.foldl embeddedCliReceiveChar (cli.withRx rx) = cli.withRx (full.1,true) := by
      rw [← List.take_append_drop (n - 1) batch,List.foldl_append,hreceive,hrefused]
    obtain ⟨left,hloop,hidle⟩ := @processLoop_surviving _ app cli (full.1,false) _ (batch.take (n - 1)).length le_rfl hwait rfl
    have havailable : fifoBufAvailable (cli.withRx (full.1,true)).rxBuffer = (batch.take (n - 1)).length := hwait.available
    have hflag := processLoop_flag app true (batch.take (n - 1)).length (cli.withRx (full.1,false))
    have hstart : ({ cli.withRx (full.1,false) with overflow := true } : Engine σ) = cli.withRx (full.1,true) := rfl
    rw [hloop,hstart] at hflag
    rw [if_pos hlong,hall]
    refine ⟨left,?_,by rw [← h.size,← hsize]; exact hidle⟩
    unfold embeddedCliProcess
    rw [havailable,hflag]
    dsimp only
    rw [if_pos rfl]
    have hfits := hidle.fits
    unfold discard Engine.withRx
    dsimp only
    rw [hfits]
  · have hshort : batch.take (n - 1) = batch := List.take_of_length_le (by omega)
    rw [if_neg hlong,hshort]
    exact process_batch app batch h (Nat.lt_of_not_le hlong)

/-- Batches of any lengths. -/
theorem inBatches_any (batches : List (List UInt8)) (h : Idle rx n) : ∃ left,
    inBatches app (cli.withRx rx) batches = (batches.foldl (behindBatch app n) cli).withRx left ∧ Idle left n := by
  induction batches generalizing cli rx with
  | nil => exact ⟨rx,rfl,h⟩
  | cons batch batches ih =>
    obtain ⟨middle,hbatch,hidle⟩ := @process_any _ app cli rx n batch h
    obtain ⟨left,hrest,hleft⟩ := ih hidle
    refine ⟨left,?_,hleft⟩
    unfold inBatches
    rw [List.foldl_cons,hbatch,List.foldl_cons]
    exact hrest

end Receive

section Appending
variable {σ : Type*} {app : Application σ} {cli : Engine σ} {n : ℕ} {text : List UInt8} {c : UInt8}

/-- A text in the command buffer that ends at the cursor, whatever size the command is said to have. -/
structure Appending (cli : Engine σ) (text : List UInt8) : Prop where
  held : Circular.get cli.cmdBuffer 0 text.length = text
  length : cli.inputLineLength = text.length
  cursor : cli.cursorPos = text.length
  noEscape : cli.escapeMode = false
  noIntroducer : cli.lastChar ≠ 0x1B
  small : text.length < 2 ^ 16

/-- The parts of the engine that the line is no part of. -/
structure Beside (cli next : Engine σ) : Prop where
  maxSize : next.cmdMaxSize = cli.cmdMaxSize
  env : next.env = cli.env
  executed : next.executed = cli.executed

theorem Beside.trans {next last : Engine σ} (h : Beside cli next) (h' : Beside next last) : Beside cli last :=
  ⟨h'.maxSize.trans h.maxSize,h'.env.trans h.env,h'.executed.trans h.executed⟩

theorem Appending.handleChar (h : Appending cli text) (c : UInt8) : handleChar app cli c =
    if isControlChar c then onControlInput app cli c else if isDisplayableChar c then onCharInput cli c else cli := by
  unfold Cli.handleChar
  rw [if_neg (by rw [h.noEscape]; exact Bool.false_ne_true),if_neg fun hcase => h.noIntroducer hcase.1]

/-- A character is appended as long as the command is not said to be too large. -/
theorem Appending.push (h : Appending cli text) (hroom : cli.cmdSize + 1 < cli.cmdMaxSize) (hsmall : text.length + 1 < 2 ^ 16)
    (hc : isDisplayableChar c = true) : Appending (processChar app cli c) (text ++ [c]) ∧
      (processChar app cli c).cmdSize = text.length + 1 ∧ Beside cli (processChar app cli c) := by
  obtain ⟨hcontrol,hescape,-⟩ := displayable_not_control hc
  have hsize : u16 (cli.cursorPos + 1) = text.length + 1 := by
    rw [h.cursor]
    exact u16_of_lt hsmall
  have hlen : (text ++ [c]).length = text.length + 1 := List.length_append
  have happend : Circular.get (appendChar cli c).cmdBuffer 0 (text ++ [c]).length = text ++ [c] := by
    have hput := get_put_behind h.held [c]
    rw [Nat.zero_add] at hput
    unfold appendChar
    dsimp only
    rw [hsize,hlen,get_window fun x _ hx => Function.update_of_ne (by omega : x ≠ text.length + 1) 0 _,h.cursor]
    exact hput
  have hmore : ¬cli.cmdSize + 1 ≥ cli.cmdMaxSize := Nat.not_le.mpr hroom
  have hend : cli.cursorPos ≥ cli.inputLineLength := (h.cursor.trans h.length.symm).ge
  unfold processChar
  rw [h.handleChar,if_neg (by rw [hcontrol]; exact Bool.false_ne_true),if_pos hc]
  unfold onCharInput
  rw [if_neg hmore,if_pos hend]
  dsimp only
  split
  · have hkept : Circular.get (embeddedCliRefresh (appendChar cli c)).cmdBuffer 0 (text ++ [c]).length = text ++ [c] := by
      refine (@get_window _ (appendChar cli c).cmdBuffer _ 0 _ fun x _ hx => Function.update_of_ne ?_ 0 _).trans happend
      show x ≠ u16 (cli.cursorPos + 1)
      omega
    exact ⟨⟨hkept,hsize.trans hlen.symm,hsize.trans hlen.symm,h.noEscape,hescape,by omega⟩,hsize,rfl,rfl,rfl⟩
  · exact ⟨⟨happend,hsize.trans hlen.symm,hsize.trans hlen.symm,h.noEscape,hescape,by omega⟩,hsize,rfl,rfl,rfl⟩

/-- Characters typed one after another, as many as fit. -/
theorem Appending.pushes (h : Appending cli text) (hsize : cli.cmdSize ≤ text.length) {more : List UInt8}
    (hroom : text.length + more.length < cli.cmdMaxSize) (hsmall : cli.cmdMaxSize < 2 ^ 16)
    (hshown : ∀ c ∈ more, isDisplayableChar c = true) : Appending (typed app cli more) (text ++ more) ∧
      (more ≠ [] → (typed app cli more).cmdSize = text.length + more.length) ∧
      (typed app cli more).cmdSize ≤ text.length + more.length ∧ Beside cli (typed app cli more) := by
  induction more generalizing cli text with
  | nil =>
    rw [List.append_nil]
    exact ⟨h,fun hnil => absurd rfl hnil,hsize,rfl,rfl,rfl⟩
  | cons c more ih =>
    rw [List.length_cons] at hroom
    rw [List.forall_mem_cons] at hshown
    obtain ⟨hnext,hgrown,hbeside⟩ := @Appending.push _ app cli text c h (by omega) (by omega) hshown.1
    have hlen : (text ++ [c]).length = text.length + 1 := List.length_append
    obtain ⟨hlast,hlong,hle,hrest⟩ := ih hnext (by omega) (by rw [hbeside.maxSize]; omega)
      (by rw [hbeside.maxSize]; exact hsmall) hshown.2
    rw [List.append_assoc] at hlast
    refine ⟨hlast,fun _ => ?_,?_,hbeside.trans hrest⟩
    · by_cases hnil : more = []
      · subst hnil
        exact hgrown
      · refine (hlong hnil).trans ?_
        rw [hlen,List.length_cons]
        omega
    · refine hle.trans ?_
      rw [hlen,List.length_cons]
      omega

theorem behindBatch_single (hn : 1 < n) (cli : Engine σ) (c : UInt8) : behindBatch app n cli [c] = processChar app cli c := by
  unfold behindBatch
  dsimp only
  rw [List.take_of_length_le (by rw [List.length_singleton]; omega),surviving_single,
    if_neg (by rw [List.length_singleton]; omega)]
  rfl

theorem behindBatch_singles (hn : 1 < n) (cli : Engine σ) (cs : List UInt8) :
    (cs.map fun c => [c]).foldl (behindBatch app n) cli = typed app cli cs := by
  rw [List.foldl_map]
  exact congrFun (congrFun (congrArg List.foldl (funext fun cli => funext fun c => behindBatch_single hn cli c)) cli) cs

/-- Bytes that nothing is done for, one more than the receive buffer has room for. -/
def junk (n : ℕ) : List UInt8 := List.replicate n 0xFF

theorem typed_junk (h : cli.escapeMode = false) (m : ℕ) :
    typed app cli (surviving app cli (List.replicate (m + 1) 0xFF)) = { cli with lastChar := 0xFF } := by
  have hchar : ∀ cli : Engine σ, cli.escapeMode = false → processChar app cli 0xFF = { cli with lastChar := 0xFF } ∧
      refreshes app cli 0xFF = false := by
    intro cli hescape
    have hplain : ¬cli.escapeMode = true := by
      rw [hescape]
      exact Bool.false_ne_true
    have hbracket : ¬(cli.lastChar = 0x1B ∧ (0xFF : UInt8) = 0x5B) := fun hcase => absurd hcase.2 (by decide)
    constructor
    · unfold processChar Cli.handleChar
      rw [if_neg hplain,if_neg hbracket,if_neg (by decide),if_neg (by decide)]
    · unfold refreshes
      rw [if_neg hplain,if_neg hbracket,if_neg (by decide),if_neg (by decide)]
  induction m generalizing cli with
  | zero =>
    show typed app cli (surviving app cli [0xFF]) = _
    rw [surviving_single]
    exact (hchar cli h).1
  | succ m ih =>
    rw [List.replicate_succ,surviving,(hchar cli h).2,if_neg Bool.false_ne_true,(hchar cli h).1]
    show typed app (processChar app cli 0xFF) _ = _
    rw [(hchar cli h).1]
    exact ih h

/-- An overflow leaves the line where it is, but for its first byte. -/
theorem Appending.overflow (h : Appending cli text) (hn : 1 < n) :
    Appending (behindBatch app n cli (junk n)) (text.set 0 0) ∧ (behindBatch app n cli (junk n)).cmdSize = 0 ∧
      Beside cli (behindBatch app n cli (junk n)) := by
  obtain ⟨m,rfl⟩ := Nat.exists_eq_add_of_lt hn
  have hjunk : (junk (1 + m + 1)).take (1 + m + 1 - 1) = List.replicate (m + 1) 0xFF := by
    unfold junk
    rw [List.take_replicate]
    congr 1
    omega
  unfold behindBatch
  rw [hjunk,typed_junk h.noEscape]
  dsimp only
  rw [if_pos (by unfold junk; rw [List.length_replicate])]
  refine ⟨⟨?_,?_,?_,h.noEscape,?_,?_⟩,rfl,rfl,rfl,rfl⟩
  · have hheld := h.held
    unfold discard
    dsimp only
    cases text with
    | nil => rfl
    | cons c text =>
      rw [List.set_cons_zero,List.length_cons,Circular.get,Function.update_self]
      congr 1
      rw [get_window fun x hx _ => Function.update_of_ne (by omega : x ≠ 0) 0 _]
      exact (List.cons.inj hheld).2
  · rw [List.length_set]
    exact h.length
  · rw [List.length_set]
    exact h.cursor
  · show (0xFF : UInt8) ≠ 0x1B
    decide
  · rw [List.length_set]
    exact h.small

end Appending

end EmbedTemplate.Cli

namespace EmbedTemplate.Cli.CommandLine
open Bytes Circular Tokens Bindings

section Overwritten
variable {σ : Type*} {app : Application σ} {cli : Engine σ} {mem hmem : ℕ → UInt8} {n : ℕ} {text more : List UInt8}

/-- Every character of a text, each with an overflow behind it. -/
def overflowing (n : ℕ) (text : List UInt8) : List (List UInt8) := text.flatMap fun c => [[c],junk n]

/-- However long the text is, the test for a full buffer sees an empty one. -/
theorem Appending.overflows (h : Appending cli (text.set 0 0)) (hempty : cli.cmdSize = 0) (hn : 1 < n)
    (hmax : 1 < cli.cmdMaxSize) (hsmall : text.length + more.length < 2 ^ 16)
    (hshown : ∀ c ∈ more, isDisplayableChar c = true) :
    Appending ((overflowing n more).foldl (behindBatch app n) cli) ((text ++ more).set 0 0) ∧
      Beside cli ((overflowing n more).foldl (behindBatch app n) cli) := by
  induction more generalizing cli text with
  | nil =>
    rw [List.append_nil]
    exact ⟨h,rfl,rfl,rfl⟩
  | cons c more ih =>
    rw [List.length_cons] at hsmall
    rw [List.forall_mem_cons] at hshown
    obtain ⟨hnext,-,hbeside⟩ := @Appending.push _ app cli _ c h (by omega) (by rw [List.length_set]; omega) hshown.1
    obtain ⟨hlost,hagain,hlast⟩ := @Appending.overflow _ app _ n _ hnext hn
    have hset : (text.set 0 0 ++ [c]).set 0 0 = (text ++ [c]).set 0 0 := by
      cases text with
      | nil => rfl
      | cons _ _ => rfl
    have hstep : (overflowing n (c :: more)).foldl (behindBatch app n) cli =
        (overflowing n more).foldl (behindBatch app n) (behindBatch app n (processChar app cli c) (junk n)) := by
      unfold overflowing
      rw [List.flatMap_cons,List.foldl_append,List.foldl_cons,List.foldl_cons,List.foldl_nil,behindBatch_single hn]
    rw [hset] at hlost
    have hfirst := hbeside.trans hlast
    obtain ⟨hall,hrest⟩ := ih hlost hagain (by rw [hfirst.maxSize]; exact hmax)
      (by rw [List.length_append,List.length_singleton]; omega) hshown.2
    rw [List.append_assoc] at hall
    rw [hstep]
    exact ⟨hall,hfirst.trans hrest⟩

theorem appending_new (rxBufferSize cmdBufferSize historyBufferSize : BitVec 16) (env : σ) :
    Appending (newIn mem hmem rxBufferSize cmdBufferSize historyBufferSize env) [] :=
  ⟨rfl,rfl,rfl,rfl,zero_ne_escape,Nat.two_pow_pos 16⟩

/-- Whatever lies in the 64 KB behind the start of the command buffer can be overwritten from the terminal: behind every
overflow of the receive buffer one more character is stored, without a command being entered. -/
theorem overflow_overwrites (app : Application σ) (rxBufferSize cmdBufferSize historyBufferSize : BitVec 16) (env : σ)
    (hrx : 1 < rxBufferSize.toNat) (hcmd : 1 < cmdBufferSize.toNat) (hsmall : text.length < 2 ^ 16)
    (hshown : ∀ c ∈ text, isDisplayableChar c = true) :
    let cli := inBatches app (newIn mem hmem rxBufferSize cmdBufferSize historyBufferSize env)
      (overflowing rxBufferSize.toNat text)
    cli.executed = [] ∧ ∀ x c, 0 < x → text[x]? = some c → cli.cmdBuffer x = c := by
  intro cli
  have hidle := idle_new rxBufferSize cmdBufferSize historyBufferSize env (by omega)
  obtain ⟨left,hrun,-⟩ := @inBatches_any _ app (newIn mem hmem rxBufferSize cmdBufferSize historyBufferSize env) _ _
    (overflowing rxBufferSize.toNat text) hidle
  have hstart : Appending (newIn mem hmem rxBufferSize cmdBufferSize historyBufferSize env) (([] : List UInt8).set 0 0) :=
    appending_new ..
  obtain ⟨hlast,hbeside⟩ := @Appending.overflows _ app _ _ [] text hstart rfl hrx hcmd
    (by rw [List.length_nil,Nat.zero_add]; exact hsmall) hshown
  have hcli : cli = _ := hrun
  rw [List.nil_append] at hlast
  rw [hcli]
  refine ⟨hbeside.executed,fun x c hx hc => ?_⟩
  have hlt : x < text.length := (List.getElem?_eq_some_iff.mp hc).1
  have hread := congrArg (fun read => read[x]?) hlast.held
  rw [get_getElem?,List.length_set,if_pos hlt,Nat.zero_add,List.getElem?_set_ne (by omega),hc] at hread
  exact Option.some_inj.mp hread

/-- 80 characters in a command buffer of 64, with foreign bytes behind its spare ones. -/
theorem overflow_overwrites_foreign :
    let cli := inBatches noCommands (newIn (fun x => if x < 72 then 0 else 0xA5) (fun _ => 0) 64 64 256 ())
      (overflowing 64 (List.replicate 80 0x78))
    cli.executed = [] ∧ ∀ x c, 0 < x → (List.replicate 80 (0x78 : UInt8))[x]? = some c → cli.cmdBuffer x = c := by
  have hsize : (64 : BitVec 16).toNat = 64 := by decide
  have hrun := @overflow_overwrites _ (fun x => if x < 72 then 0 else 0xA5) (fun _ => 0) (List.replicate 80 0x78) noCommands
    64 64 256 () (by decide) (by decide) (by decide) (by decide +kernel)
  rw [hsize] at hrun
  exact hrun

end Overwritten

section Unfinished
variable {σ : Type*} {c : Commands} {buf : ℕ → UInt8} {size : ℕ}

/-- A NUL in front of the line stays, and with it the start of the name. -/
theorem parseChar_nul {p : Scan} (hname : p.cmdName = some 0) (hzero : p.cmdBuffer 0 = 0) (i : ℕ) :
    (parseChar p i).cmdName = some 0 ∧ (parseChar p i).cmdBuffer 0 = 0 := by
  have hupdate : Function.update p.cmdBuffer i 0 0 = 0 := by
    rw [Function.update_apply]
    split
    · rfl
    · exact hzero
  unfold parseChar
  dsimp only
  split
  · split
    · split
      · exact ⟨hname,hupdate⟩
      · exact ⟨hname,hupdate⟩
    · split
      · exact ⟨hname,hzero⟩
      · exact ⟨hname,hzero⟩
  split
  · exact absurd ‹_› (by rw [hname]; exact Option.some_ne_none 0)
  split
  · exact ⟨hname,hzero⟩
  · exact ⟨hname,hzero⟩

theorem foldl_parseChar_nul {p : Scan} (hname : p.cmdName = some 0) (hzero : p.cmdBuffer 0 = 0) (is : List ℕ) :
    (is.foldl parseChar p).cmdName = some 0 ∧ (is.foldl parseChar p).cmdBuffer 0 = 0 := by
  induction is generalizing p with
  | nil => exact ⟨hname,hzero⟩
  | cons i is ih =>
    obtain ⟨hnext,hkept⟩ := parseChar_nul hname hzero i
    exact ih hnext hkept

/-- A command line with a NUL in front has an empty name. -/
theorem parseCommand_nul (hzero : buf 0 = 0) (hsize : 0 < size) (hnone : findBindingIndex c.state c.ctx [] = .noMatch) :
    ∃ buf', parseCommand c buf size = some (.onUnknownCommand 0,buf') ∧ buf' 0 = 0 := by
  obtain ⟨m,rfl⟩ := Nat.exists_eq_succ_of_ne_zero hsize.ne'
  have hnotBlank : (0 : UInt8) ≠ charBlank := by decide
  have hnotAll : ¬(List.range (m + 1)).all (fun i => buf i == charBlank) = true := by
    intro hall
    have hfirst := List.all_eq_true.mp hall 0 (List.mem_range.mpr (Nat.succ_pos m))
    rw [hzero] at hfirst
    exact absurd hfirst (by decide)
  have hfirst : parseChar ⟨buf,none,none,false,0⟩ 0 = ⟨buf,some 0,none,false,0⟩ := by
    unfold parseChar
    dsimp only
    rw [if_neg (by rw [hzero]; exact hnotBlank),if_pos rfl]
  have hrange : (List.range (m + 1)).foldl parseChar ⟨buf,none,none,false,0⟩ =
      (List.range' 1 m).foldl parseChar ⟨buf,some 0,none,false,0⟩ := by
    rw [List.range_eq_range',List.range'_succ,List.foldl_cons,hfirst]
  obtain ⟨hname,hbuf⟩ := @foldl_parseChar_nul ⟨buf,some 0,none,false,0⟩ rfl hzero (List.range' 1 m)
  rw [← hrange] at hname hbuf
  unfold parseCommand
  rw [if_neg hnotAll]
  generalize (List.range (m + 1)).foldl parseChar ⟨buf,none,none,false,0⟩ = p at hname hbuf
  have hended : Function.update p.cmdBuffer (m + 1 + 1) 0 0 = 0 := (Function.update_of_ne (by omega) 0 _).trans hbuf
  have hempty : cString (Function.update p.cmdBuffer (m + 1 + 1) 0) 0 = [] :=
    cString_eq (congrArg (fun b => [b]) hended) List.not_mem_nil (Nat.two_pow_pos 16)
  unfold dispatchCommand
  dsimp only
  rw [hname]
  dsimp only
  rw [hempty,hnone]
  exact ⟨_,rfl,hended⟩

variable {cli : Engine σ} {text : List UInt8} {world : World σ} {names : σ → List UInt8 → List (List UInt8)}
  {args : σ → List UInt8 → Bool → Option (List (List UInt8))}

/-- The return key behind a line with a NUL in front. -/
theorem Appending.submit (h : Appending cli (0 :: text)) (hsize : cli.cmdSize = (0 :: text).length)
    (hlast : cli.lastChar ≠ 0x0A)
    (hnone : findBindingIndex (world.commands cli.env).state (world.commands cli.env).ctx [] = .noMatch) :
    (processChar (world.application names args) cli 0x0D).executed = cli.executed ++ [0 :: text] ∧ ∃ buf, buf 0 = 0 ∧
      (processChar (world.application names args) cli 0x0D).env = (world.run cli.env (.onUnknownCommand 0) buf).1 := by
  have hpair : ¬((cli.lastChar = 0x0D ∧ (0x0D : UInt8) = 0x0A) ∨ (cli.lastChar = 0x0A ∧ (0x0D : UInt8) = 0x0D)) := by
    rintro (hcase | hcase)
    · exact absurd hcase.2 (by decide)
    · exact hlast hcase.1
  have hstep : processChar (world.application names args) cli 0x0D =
      { freshLine (submitLine (world.application names args) cli) with lastChar := 0x0D } := by
    unfold processChar
    rw [h.handleChar,if_pos (by decide)]
    unfold onControlInput
    rw [if_neg hpair,if_pos (.inl rfl)]
  have hpos : cli.cmdSize > 0 := by
    rw [hsize]
    exact Nat.succ_pos _
  have hheld : Circular.get (Function.update cli.cmdBuffer cli.cmdSize 0) 0 cli.cmdSize = 0 :: text := by
    rw [get_window fun x _ hx => Function.update_of_ne (by omega : x ≠ cli.cmdSize) 0 _,hsize]
    exact h.held
  have hzero : Function.update cli.cmdBuffer cli.cmdSize 0 0 = 0 := by
    rw [Function.update_of_ne hpos.ne]
    exact List.head_eq_of_cons_eq h.held
  obtain ⟨buf,hparse,hbuf⟩ := parseCommand_nul hzero hpos hnone
  have hline : ¬((0 :: text).all fun c => c == 0x20) = true := fun hall =>
    absurd (List.all_eq_true.mp hall 0 (List.mem_cons_self ..)) (by decide)
  have hdone : (submitLine (world.application names args) cli).executed = cli.executed ++ [0 :: text] ∧
      (submitLine (world.application names args) cli).env = (world.run cli.env (.onUnknownCommand 0) buf).1 := by
    unfold submitLine Engine.parseCommand
    rw [if_pos hpos]
    dsimp only
    rw [hheld,if_neg hline]
    refine ⟨rfl,?_⟩
    unfold World.application
    dsimp only
    rw [hparse]
  rw [hstep]
  exact ⟨hdone.1,buf,hbuf,hdone.2⟩

/-- An overflow does not discard an unfinished command: what is typed next goes behind it, and whatever that is, the
command that is entered is answered as one without a name. -/
theorem overflow_unknown (rxBufferSize cmdBufferSize historyBufferSize : BitVec 16) (env : σ) (hrx : 1 < rxBufferSize.toNat)
    {first last : UInt8} {rest more : List UInt8} (hshown : ∀ c ∈ first :: rest, isDisplayableChar c = true)
    (hmore : ∀ c ∈ more ++ [last], isDisplayableChar c = true)
    (hroom : (first :: rest).length + (more ++ [last]).length < cmdBufferSize.toNat)
    (hnone : findBindingIndex (world.commands env).state (world.commands env).ctx [] = .noMatch) :
    let cli := inBatches (world.application names args)
      (Cli.embeddedCliNew rxBufferSize cmdBufferSize historyBufferSize env)
      ((first :: rest).map (fun c => [c]) ++ junk rxBufferSize.toNat :: (more ++ [last,0x0D]).map fun c => [c])
    cli.executed = [0 :: (rest ++ (more ++ [last]))] ∧
      ∃ buf, buf 0 = 0 ∧ cli.env = (world.run env (.onUnknownCommand 0) buf).1 := by
  intro cli
  have hsize := cmdBufferSize.isLt
  have hidle := idle_new rxBufferSize cmdBufferSize historyBufferSize env (by omega)
  obtain ⟨left,hrun,-⟩ := @inBatches_any _ (world.application names args)
    (Cli.embeddedCliNew rxBufferSize cmdBufferSize historyBufferSize env) _ _
    ((first :: rest).map (fun c => [c]) ++ junk rxBufferSize.toNat :: (more ++ [last,0x0D]).map fun c => [c]) hidle
  rw [List.foldl_append,List.foldl_cons,behindBatch_singles hrx,behindBatch_singles hrx] at hrun
  have hstart : Appending (Cli.embeddedCliNew rxBufferSize cmdBufferSize historyBufferSize env) [] :=
    ⟨rfl,rfl,rfl,rfl,zero_ne_escape,Nat.two_pow_pos 16⟩
  obtain ⟨htyped,-,-,hbefore⟩ := @Appending.pushes _ (world.application names args) _ [] hstart le_rfl (first :: rest)
    (by rw [List.length_nil,Nat.zero_add]; exact Nat.lt_of_add_right_lt hroom) hsize hshown
  obtain ⟨hlost,hempty,hover⟩ := @Appending.overflow _ (world.application names args) _ _ _ htyped hrx
  have hkept := hbefore.trans hover
  rw [List.nil_append,List.set_cons_zero] at hlost
  obtain ⟨hmixed,hgrown,-,hbehind⟩ := @Appending.pushes _ (world.application names args) _ _ hlost
    (by rw [hempty]; exact Nat.zero_le _) (more ++ [last]) (by rw [hkept.maxSize]; exact hroom)
    (by rw [hkept.maxSize]; exact hsize) hmore
  have hall := hkept.trans hbehind
  have hlast : (typed (world.application names args) (behindBatch (world.application names args) rxBufferSize.toNat
      (typed (world.application names args) (Cli.embeddedCliNew rxBufferSize cmdBufferSize historyBufferSize env)
        (first :: rest)) (junk rxBufferSize.toNat)) (more ++ [last])).lastChar ≠ 0x0A := by
    rw [typed_append]
    show last ≠ 0x0A
    rintro rfl
    exact absurd (hmore 0x0A (by simp)) (by decide)
  obtain ⟨hexecuted,buf,hzero,henv⟩ := @Appending.submit _ _ _ world names args hmixed
    ((hgrown (by simp)).trans (List.length_append ..).symm) hlast (by rw [hall.env]; exact hnone)
  have hcli : cli = _ := hrun
  have hsplit : more ++ [last,0x0D] = (more ++ [last]) ++ [0x0D] := by simp
  rw [hcli,hsplit,typed_append]
  rw [hall.executed] at hexecuted
  rw [hall.env] at henv
  exact ⟨hexecuted,buf,hzero,henv⟩

/-- `sho` is lost half way, and `help` typed next. -/
theorem overflow_unknown_help :
    let cli := inBatches (callLog.application (fun _ => fewNames) fun _ _ _ => none) (Cli.embeddedCliNew 64 64 256 [])
      ((ascii "sho").map (fun c => [c]) ++ junk 64 :: (ascii "hel" ++ [0x70,0x0D]).map fun c => [c])
    cli.executed = [0 :: (ascii "ho" ++ (ascii "hel" ++ [0x70]))] ∧
      ∃ buf, buf 0 = 0 ∧ cli.env = (callLog.run [] (.onUnknownCommand 0) buf).1 :=
  @overflow_unknown _ callLog (fun _ => fewNames) (fun _ _ _ => none) 64 64 256 [] (by decide) 0x73 0x70 (ascii "ho")
    (ascii "hel") (by decide +kernel) (by decide +kernel) (by decide) (by decide +kernel)

end Unfinished

end EmbedTemplate.Cli.CommandLine
