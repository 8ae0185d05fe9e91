import EmbedTemplate.Cli.Batches
import EmbedTemplate.Library.LineEditor

/-! # Line editing

The command buffer against a line editor, behind keys whose characters are processed one at a
time. The cursor counts from the start of the line wherever a character is stored or deleted,
but the arrow keys move it as if it counted from the end.
-/
namespace EmbedTemplate.Cli
open Bytes Circular LineEditor

inductive Key
  | printable (c : UInt8) (h : isDisplayableChar c = true)
  | backspace (c : UInt8) (h : c = 0x08 ∨ c = 0x7F)
  | left
  | right

namespace Key

/-- What a terminal sends. -/
def codes : Key → List UInt8
  | printable c _ => [c]
  | backspace c _ => [c]
  | left => [0x1B,0x5B,0x44]
  | right => [0x1B,0x5B,0x43]

def isArrow : Key → Bool
  | printable _ _ => false
  | backspace _ _ => false
  | left => true
  | right => true

/-- What the key does in a line editor. -/
def press {n : ℕ} (e : Editor UInt8 n) : Key → Editor UInt8 n
  | printable c _ => e.insert c
  | backspace _ _ => e.backspace
  | left => e.left
  | right => e.right

end Key

/-- A string lies at the start of the buffer. -/
def Spells (buf : ℕ → UInt8) (line : List UInt8) : Prop := Circular.get buf 0 (line.length + 1) = line ++ [0]

theorem Spells.front {buf : ℕ → UInt8} {xs ys : List UInt8} (h : Spells buf (xs ++ ys)) :
    Circular.get buf 0 xs.length = xs := by
  unfold Spells at h
  rw [List.length_append,Nat.add_assoc,get_add,List.append_assoc] at h
  exact List.append_inj_left h (get_length _ _ _)

theorem Spells.put {buf : ℕ → UInt8} {xs ys : List UInt8} (h : Spells buf (xs ++ ys)) (zs : List UInt8) :
    Spells (Circular.put buf xs.length (zs ++ [0])) (xs ++ zs) := by
  have hbehind := get_put_behind h.front (zs ++ [0])
  rw [Nat.zero_add,List.length_append,List.length_singleton] at hbehind
  unfold Spells
  rw [List.length_append,Nat.add_assoc,hbehind,List.append_assoc]

section Simulation
variable {σ : Type*} {n : ℕ} {cli : Engine σ} {e : Editor UInt8 n} {c : UInt8}

theorem zero_ne_escape : (0 : UInt8) ≠ 0x1B := by decide

/-- The command buffer, its length and the cursor are those of the line editor. -/
structure Agrees (cli : Engine σ) (e : Editor UInt8 n) : Prop where
  line : Spells cli.cmdBuffer e.line
  size : cli.cmdSize = e.line.length
  length : cli.inputLineLength = e.line.length
  cursor : cli.cursorPos = e.cursor

/-- The engine between two keys, with its cursor at the end of the line. -/
structure Ready (cli : Engine σ) (e : Editor UInt8 n) : Prop extends Agrees cli e where
  atEnd : e.cursor = e.line.length
  maxSize : cli.cmdMaxSize - 1 = n
  small : n + 1 < 2 ^ 16
  noEscape : cli.escapeMode = false
  noIntroducer : cli.lastChar ≠ 0x1B
  noNul : 0 ∉ e.line

theorem Ready.lastChar (h : Ready cli e) (hc : c ≠ 0x1B) : Ready { cli with lastChar := c } e :=
    { h with noIntroducer := hc }

theorem Ready.refresh (h : Ready cli e) : Ready (embeddedCliRefresh cli) e where
  line := by
    have hline := h.line
    rw [← List.append_nil e.line] at hline
    have hput := hline.put []
    rw [List.append_nil,← h.size] at hput
    exact hput
  size := h.size
  length := h.size
  cursor := h.size.trans h.atEnd.symm
  atEnd := h.atEnd
  maxSize := h.maxSize
  small := h.small
  noEscape := h.noEscape
  noIntroducer := zero_ne_escape
  noNul := h.noNul

theorem Ready.append (h : Ready cli e) (hroom : e.line.length < n) (hc : c ≠ 0) :
    Ready (appendChar cli c) (e.insert c) := by
  have hsmall := h.small
  obtain ⟨hline,hcursor⟩ := @Editor.insert_end _ _ e c h.atEnd hroom
  have hpos : cli.cursorPos = e.line.length := h.cursor.trans h.atEnd
  have hsize : u16 (cli.cursorPos + 1) = e.line.length + 1 := by
    rw [hpos]
    exact u16_of_lt (by omega)
  have hlength : (e.insert c).line.length = e.line.length + 1 := by
    rw [hline,List.length_append,List.length_singleton]
  constructor
  case toAgrees =>
    constructor
    case line =>
      have hold := h.line
      rw [← List.append_nil e.line] at hold
      have hput := hold.put [c]
      rw [← hpos] at hput
      rw [hline]
      unfold appendChar
      dsimp only
      rw [hsize,← hpos]
      exact hput
    case size => exact hsize.trans hlength.symm
    case length => exact hsize.trans hlength.symm
    case cursor => exact hsize.trans hcursor.symm
  case atEnd => exact hcursor.trans hlength.symm
  case maxSize => exact h.maxSize
  case small => exact h.small
  case noEscape => exact h.noEscape
  case noIntroducer => exact zero_ne_escape
  case noNul =>
    rw [hline,List.mem_append,List.mem_singleton,not_or]
    exact ⟨h.noNul,Ne.symm hc⟩

theorem Ready.onCharInput (h : Ready cli e) (hc : c ≠ 0) : Ready (onCharInput cli c) (e.insert c) := by
  have hsize := h.size
  have hmax := h.maxSize
  unfold Cli.onCharInput
  by_cases hfull : cli.cmdSize + 1 ≥ cli.cmdMaxSize
  · rw [if_pos hfull,Editor.insert_full (by omega)]
    exact h
  · have hpos : cli.cursorPos ≥ cli.inputLineLength := by
      rw [h.cursor,h.atEnd,h.length]
    have hstored := h.append (by omega) hc
    rw [if_neg hfull]
    dsimp only
    rw [if_pos hpos]
    split
    · exact hstored.refresh
    · exact hstored

theorem Ready.delete (h : Ready cli e) (hne : e.line ≠ []) : Ready (deleteChar cli) e.backspace := by
  have hpos := List.length_pos_iff.mpr hne
  have hsmall := h.small
  have hfits := e.fits
  obtain ⟨hline,hcursor⟩ := @Editor.backspace_end _ _ e h.atEnd
  have hlength : e.backspace.line.length = e.line.length - 1 := by
    rw [hline,List.length_take]
    omega
  have hless : oneLess cli.inputLineLength = e.line.length - 1 := by
    rw [h.length]
    unfold oneLess u16
    omega
  have hcount : (deleteChar cli).inputLineLength = e.backspace.line.length := hless.trans hlength.symm
  have hplace : (deleteChar cli).cursorPos = e.backspace.cursor := by
    rw [hcursor,← h.atEnd,← h.cursor]
    rfl
  constructor
  case toAgrees =>
    constructor
    case line =>
      have hold := h.line
      rw [← List.take_append_drop (e.line.length - 1) e.line,← hline] at hold
      have hput := hold.put []
      rw [List.append_nil,hlength] at hput
      have hend : ¬cli.cursorPos < cli.inputLineLength := by
        rw [h.cursor,h.atEnd,h.length]
        exact Nat.lt_irrefl _
      unfold deleteChar
      dsimp only
      rw [if_neg hend,hless]
      exact hput
    case size => exact hcount
    case length => exact hcount
    case cursor => exact hplace
  case atEnd => exact hcursor.trans hlength.symm
  case maxSize => exact h.maxSize
  case small => exact h.small
  case noEscape => exact h.noEscape
  case noIntroducer => exact h.noIntroducer
  case noNul =>
    rw [hline]
    exact fun hin => h.noNul (List.mem_of_mem_take hin)

variable (app : Application σ)

theorem Ready.backspace (h : Ready cli e) (hc : c = 0x08 ∨ c = 0x7F) :
    Ready (onControlInput app cli c) e.backspace := by
  have hreturn : ¬(c = 0x0D ∨ c = 0x0A) := by
    rcases hc with rfl | rfl
    · decide
    · decide
  have hpair : ¬((cli.lastChar = 0x0D ∧ c = 0x0A) ∨ (cli.lastChar = 0x0A ∧ c = 0x0D)) := by
    rintro (hcase | hcase)
    · exact hreturn (.inr hcase.2)
    · exact hreturn (.inl hcase.2)
  have htab : ¬c = 0x09 := by
    rcases hc with rfl | rfl
    · decide
    · decide
  unfold onControlInput
  rw [if_neg hpair,if_neg hreturn]
  by_cases hempty : e.line = []
  · have hzero : ¬((c = 0x08 ∨ c = 0x7F) ∧ cli.cursorPos > 0) := by
      rw [h.cursor,h.atEnd,hempty]
      exact fun hcase => Nat.lt_irrefl 0 hcase.2
    rw [if_neg hzero,if_neg htab,Editor.backspace_empty hempty]
    exact h
  · have hsome : (c = 0x08 ∨ c = 0x7F) ∧ cli.cursorPos > 0 := by
      rw [h.cursor,h.atEnd]
      exact ⟨hc,List.length_pos_iff.mpr hempty⟩
    have hdeleted := h.delete hempty
    rw [if_pos hsome]
    dsimp only
    split
    · exact hdeleted
    · exact hdeleted.refresh

theorem displayable_not_control (h : isDisplayableChar c = true) : isControlChar c = false ∧ c ≠ 0x1B ∧ c ≠ 0 := by
  unfold isDisplayableChar at h
  unfold isControlChar
  rw [decide_eq_true_iff] at h
  rw [decide_eq_false_iff_not]
  obtain ⟨hlow,hhigh⟩ := h
  refine ⟨?_,?_,?_⟩
  · rintro (rfl | rfl | rfl | rfl | rfl)
    · exact absurd hlow (by decide)
    · exact absurd hlow (by decide)
    · exact absurd hlow (by decide)
    · exact absurd hlow (by decide)
    · exact absurd hhigh (by decide)
  · rintro rfl
    exact absurd hlow (by decide)
  · rintro rfl
    exact absurd hlow (by decide)

/-- Outside of an arrow sequence a character is handled as what it is. -/
theorem Ready.handleChar (h : Ready cli e) (c : UInt8) : handleChar app cli c =
    if isControlChar c then onControlInput app cli c else if isDisplayableChar c then Cli.onCharInput cli c else cli := by
  unfold Cli.handleChar
  rw [if_neg (by rw [h.noEscape]; exact Bool.false_ne_true),if_neg fun hcase => h.noIntroducer hcase.1]

theorem Ready.printable (h : Ready cli e) (hc : isDisplayableChar c = true) :
    Ready (processChar app cli c) (e.insert c) := by
  obtain ⟨hcontrol,hintroducer,hzero⟩ := displayable_not_control hc
  unfold processChar
  rw [h.handleChar,hcontrol,hc]
  exact (h.onCharInput hzero).lastChar hintroducer

theorem Ready.erase (h : Ready cli e) (hc : c = 0x08 ∨ c = 0x7F) : Ready (processChar app cli c) e.backspace := by
  have hcontrol : isControlChar c = true ∧ c ≠ 0x1B := by
    rcases hc with rfl | rfl
    · decide
    · decide
  unfold processChar
  rw [h.handleChar,hcontrol.1]
  exact (h.backspace app hc).lastChar hcontrol.2

theorem Ready.introduce (h : Ready cli e) : typed app cli [0x1B] = { cli with lastChar := 0x1B } ∧
    typed app cli [0x1B,0x5B] = { cli with escapeMode := true, lastChar := 0x5B } := by
  have hfirst : processChar app cli 0x1B = { cli with lastChar := 0x1B } := by
    unfold processChar
    rw [h.handleChar]
    rfl
  have hsecond : processChar app { cli with lastChar := 0x1B } 0x5B =
      { cli with escapeMode := true, lastChar := 0x5B } := by
    unfold processChar Cli.handleChar
    dsimp only
    rw [if_neg (by rw [h.noEscape]; exact Bool.false_ne_true),if_pos ⟨rfl,rfl⟩]
  unfold typed
  constructor
  case left => exact hfirst
  case right =>
    rw [List.foldl_cons,hfirst]
    exact hsecond

theorem Ready.arrow (h : Ready cli e) (hc : c = 0x43 ∨ c = 0x44) : typed app cli [0x1B,0x5B,c] =
    { onLeftArrow (onRightArrow { cli with lastChar := 0x5B } c) c with lastChar := c } := by
  have hsplit : typed app cli [0x1B,0x5B,c] = processChar app (typed app cli [0x1B,0x5B]) c := rfl
  have hrange : 64 ≤ c ∧ c ≤ 126 := by
    rcases hc with rfl | rfl
    · decide
    · decide
  have hvertical : ¬(c = 0x41 ∨ c = 0x42) := by
    rcases hc with rfl | rfl
    · decide
    · decide
  have hescape : { cli with escapeMode := false, lastChar := 0x5B } = { cli with lastChar := 0x5B } := by
    rw [← h.noEscape]
  rw [hsplit,(h.introduce app).2]
  unfold processChar Cli.handleChar onEscapedInput onVerticalArrow
  rw [if_pos rfl,if_pos hrange]
  dsimp only
  rw [if_neg hvertical,hescape]

theorem Ready.leftArrow (h : Ready cli e) : typed app cli Key.left.codes = { cli with lastChar := 0x44 } := by
  have hright : onRightArrow { cli with lastChar := 0x5B } 0x44 = { cli with lastChar := 0x5B } :=
    if_neg fun hcase => absurd hcase.1 (by decide)
  have hlength : strlen cli.cmdBuffer 0 = e.line.length :=
    strlenFrom_eq h.line h.noNul (Nat.lt_of_le_of_lt e.fits (Nat.lt_of_succ_lt h.small))
  have hleft : onLeftArrow { cli with lastChar := 0x5B } 0x44 = { cli with lastChar := 0x5B } := by
    apply if_neg
    dsimp only
    rw [hlength,h.cursor,h.atEnd]
    exact fun hcase => Nat.lt_irrefl _ hcase.2
  have harrow : typed app cli Key.left.codes = _ := h.arrow app (.inr rfl)
  rw [harrow,hright,hleft]

/-- The right arrow goes back by one place, from the end of the line as well. -/
theorem Ready.rightArrow (h : Ready cli e) :
    typed app cli Key.right.codes = { cli with cursorPos := cli.cursorPos - 1, lastChar := 0x43 } := by
  have hright : onRightArrow { cli with lastChar := 0x5B } 0x43 =
      { cli with cursorPos := cli.cursorPos - 1, lastChar := 0x5B } := by
    unfold onRightArrow
    split
    · rfl
    · rename_i hstay
      have hzero : cli.cursorPos = 0 := Nat.eq_zero_of_not_pos fun hpos => hstay ⟨rfl,hpos⟩
      rw [hzero]
  have hleft : onLeftArrow { cli with cursorPos := cli.cursorPos - 1, lastChar := 0x5B } 0x43 =
      { cli with cursorPos := cli.cursorPos - 1, lastChar := 0x5B } := if_neg fun hcase => absurd hcase.1 (by decide)
  have harrow : typed app cli Key.right.codes = _ := h.arrow app (.inl rfl)
  rw [harrow,hright,hleft]

theorem Ready.key (h : Ready cli e) (key : Key) (hplace : key.isArrow = true → e.line = []) :
    Ready (typed app cli key.codes) (key.press e) := by
  cases key with
  | printable c hc => exact h.printable app hc
  | backspace c hc => exact h.erase app hc
  | left =>
    have hpress : Key.left.press e = e := Editor.left_empty (hplace rfl)
    rw [h.leftArrow,hpress]
    exact h.lastChar (by decide)
  | right =>
    have hpress : Key.right.press e = e := Editor.right_end h.atEnd
    have hzero : cli.cursorPos = 0 := by
      rw [h.cursor,h.atEnd,hplace rfl]
      rfl
    have hstay : { cli with cursorPos := cli.cursorPos - 1, lastChar := 0x43 } = { cli with lastChar := 0x43 } := by
      rw [hzero]
    rw [h.rightArrow,hpress,hstay]
    exact h.lastChar (by decide)

/-- An arrow key leads away from the line editor in any line that is not empty. -/
theorem Ready.astray (h : Ready cli e) (key : Key) (harrow : key.isArrow = true) (hne : e.line ≠ []) :
    ¬Agrees (typed app cli key.codes) (key.press e) := by
  have hpos := List.length_pos_iff.mpr hne
  have hcursor : cli.cursorPos = e.line.length := h.cursor.trans h.atEnd
  intro hagrees
  cases key with
  | printable c hc => exact absurd harrow Bool.false_ne_true
  | backspace c hc => exact absurd harrow Bool.false_ne_true
  | left =>
    have hleft : e.left.cursor < e.line.length := Editor.left_cursor h.atEnd hne
    have hsame : (typed app cli Key.left.codes).cursorPos = e.left.cursor := hagrees.cursor
    rw [h.leftArrow] at hsame
    exact Nat.ne_of_gt hleft (hcursor.symm.trans hsame)
  | right =>
    have hpress : Key.right.press e = e := Editor.right_end h.atEnd
    have hsame := hagrees.cursor
    rw [h.rightArrow,hpress,h.atEnd,← hcursor] at hsame
    exact Nat.sub_one_ne_self (by omega) hsame

theorem Ready.started (h : Ready cli e) (key : Key) (k : ℕ) (hk : k < key.codes.length) :
    Agrees (typed app cli (key.codes.take k)) e := by
  have hescape := h.introduce app
  have harrow : ∀ c : UInt8, k < 3 → Agrees (typed app cli ([0x1B,0x5B,c].take k)) e := by
    intro c hthree
    obtain rfl | rfl | rfl : k = 0 ∨ k = 1 ∨ k = 2 := by omega
    · exact h.toAgrees
    · have hone : typed app cli ([0x1B,0x5B,c].take 1) = { cli with lastChar := 0x1B } := hescape.1
      rw [hone]
      exact { h.toAgrees with }
    · have htwo : typed app cli ([0x1B,0x5B,c].take 2) = { cli with escapeMode := true, lastChar := 0x5B } := hescape.2
      rw [htwo]
      exact { h.toAgrees with }
  cases key with
  | printable c hc =>
    obtain rfl : k = 0 := Nat.lt_one_iff.mp hk
    exact h.toAgrees
  | backspace c hc =>
    obtain rfl : k = 0 := Nat.lt_one_iff.mp hk
    exact h.toAgrees
  | left => exact harrow 0x44 hk
  | right => exact harrow 0x43 hk

end Simulation

section Runs
variable {σ : Type*} {n m : ℕ} (app : Application σ)

/-- The engine agrees with the line editor behind every character of the keys. -/
def Follows (cli : Engine σ) (e : Editor UInt8 n) : List Key → Prop
  | [] => Agrees cli e
  | key :: keys => (∀ k < key.codes.length, Agrees (oneByOne app cli (key.codes.take k)) e) ∧
      Follows (oneByOne app cli key.codes) (key.press e) keys

/-- Arrow keys are pressed in the empty line only. -/
def ArrowsIdle (e : Editor UInt8 n) : List Key → Prop
  | [] => True
  | key :: keys => (key.isArrow = true → e.line = []) ∧ ArrowsIdle (key.press e) keys

theorem Follows.agrees {cli : Engine σ} {e : Editor UInt8 n} {keys : List Key} (h : Follows app cli e keys) :
    Agrees cli e := by
  cases keys with
  | nil => exact h
  | cons key keys =>
    have hpos : 0 < key.codes.length := by
      cases key with
      | printable c hc => exact Nat.one_pos
      | backspace c hc => exact Nat.one_pos
      | left => exact Nat.succ_pos 2
      | right => exact Nat.succ_pos 2
    exact h.1 0 hpos

/-- Characters one at a time, from an engine whose FIFO is empty. -/
theorem oneByOne_typed (cli : Engine σ) (cs : List UInt8) (h : Idle (cli.rxBuffer,cli.overflow) m) (hm : 1 < m) :
    ∃ left, oneByOne app cli cs = (typed app cli cs).withRx left ∧ Idle left m := by
  have hsingle : ∀ batch ∈ cs.map fun c => [c], batch.length < m := by
    intro batch hbatch
    obtain ⟨c,-,rfl⟩ := List.mem_map.mp hbatch
    exact hm
  obtain ⟨left,hbatches,hidle⟩ := @inBatches_survivors _ app cli (cli.rxBuffer,cli.overflow) m _ h hsingle
  rw [survivors_oneByOne] at hbatches
  exact ⟨left,hbatches,hidle⟩

theorem agrees_withRx {cli : Engine σ} {e : Editor UInt8 n} (rx : FifoBuf × Bool) :
    Agrees (cli.withRx rx) e ↔ Agrees cli e := by
  constructor
  case mp => exact fun h => ⟨h.line,h.size,h.length,h.cursor⟩
  case mpr => exact fun h => ⟨h.line,h.size,h.length,h.cursor⟩

theorem Ready.withRx {cli : Engine σ} {e : Editor UInt8 n} (h : Ready cli e) (rx : FifoBuf × Bool) :
    Ready (cli.withRx rx) e :=
  ⟨(agrees_withRx rx).mpr h.toAgrees,h.atEnd,h.maxSize,h.small,h.noEscape,h.noIntroducer,h.noNul⟩

theorem follows_iff {cli : Engine σ} {e : Editor UInt8 n} (keys : List Key) (h : Ready cli e)
    (hidle : Idle (cli.rxBuffer,cli.overflow) m) (hm : 1 < m) : Follows app cli e keys ↔ ArrowsIdle e keys := by
  induction keys generalizing cli e with
  | nil => exact iff_of_true h.toAgrees trivial
  | cons key keys ih =>
    obtain ⟨left,hcodes,hleft⟩ := oneByOne_typed app cli key.codes hidle hm
    have hnext : (key.isArrow = true → e.line = []) →
        (Follows app (oneByOne app cli key.codes) (key.press e) keys ↔ ArrowsIdle (key.press e) keys) := by
      intro hplace
      rw [hcodes]
      exact ih ((h.key app key hplace).withRx left) hleft
    unfold Follows ArrowsIdle
    constructor
    case mp =>
      intro hfollows
      have hplace : key.isArrow = true → e.line = [] := by
        intro harrow
        by_contra hne
        have hagrees := hfollows.2.agrees
        rw [hcodes,agrees_withRx] at hagrees
        exact h.astray app key harrow hne hagrees
      exact ⟨hplace,(hnext hplace).mp hfollows.2⟩
    case mpr =>
      intro hidle'
      refine ⟨?_,(hnext hidle'.1).mpr hidle'.2⟩
      intro k hk
      obtain ⟨rx,htaken,-⟩ := oneByOne_typed app cli (key.codes.take k) hidle hm
      rw [htaken,agrees_withRx]
      exact h.started app key k hk

/-- The engine is the line editor exactly as long as arrow keys are pressed in the empty line only. -/
theorem edits_iff (rxBufferSize cmdBufferSize historyBufferSize : BitVec 16) (env : σ) (hrx : 1 < rxBufferSize.toNat)
    (keys : List Key) :
    Follows app (embeddedCliNew rxBufferSize cmdBufferSize historyBufferSize env)
      (Editor.empty : Editor UInt8 (cmdBufferSize.toNat - 1)) keys ↔
      ArrowsIdle (Editor.empty : Editor UInt8 (cmdBufferSize.toNat - 1)) keys := by
  have hsize := cmdBufferSize.isLt
  have hready : Ready (embeddedCliNew rxBufferSize cmdBufferSize historyBufferSize env)
      (Editor.empty : Editor UInt8 (cmdBufferSize.toNat - 1)) := by
    refine ⟨⟨rfl,rfl,rfl,rfl⟩,rfl,rfl,?_,rfl,zero_ne_escape,List.not_mem_nil⟩
    omega
  exact follows_iff app keys hready (idle_new rxBufferSize cmdBufferSize historyBufferSize env (by omega)) hrx

/-- Two characters, a backspace and two characters more. -/
theorem edits_iff_typed :
    let keys := [.left,.printable 0x61 (by decide),.printable 0x62 (by decide),.backspace 0x08 (.inl rfl),.printable 0x63 (by decide)]
    1 < (64 : BitVec 16).toNat ∧
      (Follows noCommands (embeddedCliNew 64 64 64 ()) (Editor.empty : Editor UInt8 63) keys ↔
        ArrowsIdle (Editor.empty : Editor UInt8 63) keys) ∧
      ArrowsIdle (Editor.empty : Editor UInt8 63) keys := by
  refine ⟨by decide,edits_iff noCommands 64 64 64 () (by decide) _,?_⟩
  refine ⟨fun _ => rfl,?_,?_,?_,?_,trivial⟩
  · exact fun harrow => absurd harrow Bool.false_ne_true
  · exact fun harrow => absurd harrow Bool.false_ne_true
  · exact fun harrow => absurd harrow Bool.false_ne_true
  · exact fun harrow => absurd harrow Bool.false_ne_true

/-- Behind two characters the left arrow does nothing, and the right arrow goes left: the next character is stored in
front of the second one. -/
theorem arrows_backwards :
    let keys := [.printable 0x61 (by decide),.printable 0x62 (by decide),.left]
    let cli := embeddedCliNew 64 64 64 ()
    ¬Follows noCommands cli (Editor.empty : Editor UInt8 63) keys ∧
      (oneByOne noCommands cli (keys.flatMap Key.codes)).cursorPos = 2 ∧
      (keys.foldl Key.press (Editor.empty : Editor UInt8 63)).cursor = 1 ∧
      Circular.get (oneByOne noCommands cli [0x61,0x62,0x1B,0x5B,0x43,0x63]).cmdBuffer 0 4 = [0x61,0x63,0x62,0] := by
  refine ⟨?_,by decide +kernel,by decide +kernel,by decide +kernel⟩
  intro hfollows
  have hcursor := hfollows.2.2.2.cursor
  revert hcursor
  decide +kernel

end Runs

end EmbedTemplate.Cli
