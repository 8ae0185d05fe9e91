import EmbedTemplate.Cli.Confined
import EmbedTemplate.Library.Machine
import EmbedTemplate.Library.TerminalRow

/-! # What the terminal shows

What `embedded_cli.c` writes while a line is edited, and the terminal that it is written to. The row of the cursor shows
the invitation and the line that the return key would execute, as long as every request for the help of an argument
finds someone to answer it. The cursor of the terminal is mirrored at the end of the line.
-/
namespace EmbedTemplate.Cli.Display
open Bytes Circular TerminalRow Tokens CommandLine Machine

section Source
variable {σ : Type*}

/-- The invitation, and what an application writes: for a command line, and in its callback for arguments. -/
structure Outputs (σ : Type*) where
  invitation : List UInt8
  command : σ → (ℕ → UInt8) → ℕ → List UInt8
  args : σ → Draft → Bool → List UInt8

variable (out : Outputs σ) (app : Application σ) (cli : Engine σ)

def lineBreak : List UInt8 := [0x0D,0x0A]

def escSeqCursorRight : List UInt8 := [0x1B,0x5B,0x43]

def escSeqCursorLeft : List UInt8 := [0x1B,0x5B,0x44]

/-- `moveCursor` -/
def moveCursorOutput (count : ℕ) (direction : Bool) : List UInt8 :=
  if count = 0 then [] else 0x1B :: 0x5B :: (decimal count ++ [if direction then 0x43 else 0x44])

def embeddedCliRefreshOutput : List UInt8 :=
  [0x0D,0x1B,0x5B,0x32,0x4B] ++ (out.invitation ++ Circular.get cli.cmdBuffer 0 cli.cmdSize)

def clearCurrentLineOutput : List UInt8 :=
  0x0D :: (List.replicate (cli.inputLineLength + out.invitation.length) 0x20 ++ [0x0D])

/-- `embeddedCliPrint` while a line is edited, so without `CLI_FLAG_DIRECT_PRINT` -/
def embeddedCliPrintOutput (string : List UInt8) : List UInt8 :=
  clearCurrentLineOutput out cli ++ (string ++ (lineBreak ++ (out.invitation ++ (cString cli.cmdBuffer 0 ++
    moveCursorOutput cli.cursorPos false))))

def navigateHistoryOutput (navigateUp : Bool) : List UInt8 :=
  if cli.history.itemsCount = 0 then []
  else if navigateUp ∧ cli.history.current ≥ cli.history.itemsCount then []
  else if ¬navigateUp ∧ cli.history.current = 0 then []
  else clearCurrentLineOutput out cli ++ (out.invitation ++ cString (navigateHistory cli navigateUp).cmdBuffer 0)

def onEscapedInputOutput (c : UInt8) : List UInt8 :=
  if c = 0x41 ∨ c = 0x42 then navigateHistoryOutput out cli (c = 0x41)
  else if c = 0x43 ∧ cli.cursorPos > 0 then escSeqCursorRight
  else if c = 0x44 ∧ cli.cursorPos < strlen cli.cmdBuffer 0 then escSeqCursorLeft
  else []

def onCharInputOutput (c : UInt8) : List UInt8 :=
  if cli.cmdSize + 1 ≥ cli.cmdMaxSize then []
  else
    let pos := cli.cursorPos
    if pos ≥ cli.inputLineLength then
      let cli := appendChar cli c
      if pos = 0 ∨ cli.cmdBuffer (pos - 1) = 0x20 then embeddedCliRefreshOutput out cli else [c]
    else embeddedCliRefreshOutput out (insertChar cli c)

/-- The variables of the loop of `helpWithUse` -/
structure Usage where
  msg : List UInt8
  n : ℕ
  after1stWord : Bool

/-- The body of the loop; `snprintf` cuts the word off at the end of the buffer. -/
def addUse (u : Usage) (name : List UInt8) : Usage :=
  if name = [] then u
  else if u.n ≥ 128 - 20 then u
  else
    let word := if u.after1stWord then 0x7C :: name else name
    ⟨u.msg ++ word.take (127 - u.n),u.n + word.length,true⟩

/-- The message of `helpWithUse` -/
def helpWithUse (names : List (List UInt8)) : List UInt8 := (names.foldl addUse ⟨ascii "use: ",5,false⟩).msg

/-- The completion of a command name, with the names that there are when there are several. -/
def completeCommandOutput : List UInt8 :=
  let line := cString cli.cmdBuffer 0
  match app.getAutocompletedCommand cli.env line with
  | [] => []
  | [_] => []
  | names =>
    let start := longestCommonPrefix names
    let cli :=
      if start.length > line.length then
        { cli with cmdBuffer := put cli.cmdBuffer 0 (start ++ [0]), cmdSize := u16 start.length }
      else cli
    embeddedCliPrintOutput out cli (helpWithUse names)

def completeArgumentOutput (help : Bool) : List UInt8 :=
  match app.argsCompletion cli.env (cString cli.cmdBuffer 0) help with
  | none => []
  | some names =>
    out.args cli.env (draft cli) help ++ embeddedCliRefreshOutput out (names.foldl embeddedCliCompletion cli)

def onAutocompleteRequestOutput : List UInt8 :=
  if cli.cmdSize = 0 then []
  else if 0x20 ∉ Circular.get cli.cmdBuffer 0 cli.cmdSize then
    completeCommandOutput out app cli ++ embeddedCliRefreshOutput out (completeCommand app cli)
  else completeArgumentOutput out app (cutHelp cli) (isHelpRequest cli)

/-- `parseCommand`, for a nonempty line -/
def submitLineOutput : List UInt8 :=
  if cli.cmdSize > 0 then
    let cmdBuffer := Function.update cli.cmdBuffer cli.cmdSize 0
    if (Circular.get cmdBuffer 0 cli.cmdSize).all (· == 0x20) then [] else out.command cli.env cmdBuffer cli.cmdSize
  else []

def onControlInputOutput (c : UInt8) : List UInt8 :=
  if (cli.lastChar = 0x0D ∧ c = 0x0A) ∨ (cli.lastChar = 0x0A ∧ c = 0x0D) then []
  else if c = 0x0D ∨ c = 0x0A then lineBreak ++ (submitLineOutput out cli ++ out.invitation)
  else if (c = 0x08 ∨ c = 0x7F) ∧ cli.cursorPos > 0 then
    let cli := deleteChar cli
    if cli.cursorPos = cli.inputLineLength then [0x08,0x20,0x08] else embeddedCliRefreshOutput out cli
  else if c = 0x09 then onAutocompleteRequestOutput out app (if cli.lastChar = 0x09 then { cli with lastChar := 0 } else cli)
  else []

def handleCharOutput (c : UInt8) : List UInt8 :=
  if cli.escapeMode then if 64 ≤ c ∧ c ≤ 126 then onEscapedInputOutput out { cli with escapeMode := false } c else []
  else if cli.lastChar = 0x1B ∧ c = 0x5B then []
  else if isControlChar c then onControlInputOutput out app cli c
  else if isDisplayableChar c then onCharInputOutput out cli c
  else []

end Source

section Loop
variable {σ : Type*} (out : Outputs σ) (app : Application σ)

def processLoopOutput : ℕ → Engine σ → List UInt8
  | 0, _ => []
  | fuel + 1, cli =>
    if fifoBufAvailable cli.rxBuffer = 0 then []
    else
      let (c,rxBuffer) := fifoBufPop cli.rxBuffer
      handleCharOutput out app { cli with rxBuffer := rxBuffer } c ++
        processLoopOutput fuel (processChar app { cli with rxBuffer := rxBuffer } c)

/-- The invitation is written at the first call, for which `CLI_FLAG_INIT_COMPLETE` is not set. -/
def embeddedCliProcessOutput (initComplete : Bool) (cli : Engine σ) : List UInt8 :=
  (if initComplete then [] else out.invitation) ++ processLoopOutput out app (fifoBufAvailable cli.rxBuffer) cli

/-- The engine and the screen that it writes to. -/
structure Attached (σ : Type*) where
  cli : Engine σ
  initComplete : Bool
  screen : Tty

/-- A batch of characters, received as a whole and then processed. -/
def Attached.receive (x : Attached σ) (batch : List UInt8) : Attached σ :=
  let cli := batch.foldl embeddedCliReceiveChar x.cli
  ⟨embeddedCliProcess app cli,true,writes x.screen (embeddedCliProcessOutput out app x.initComplete cli)⟩

end Loop

section Screens
variable {σ : Type*} {out : Outputs σ} {app : Application σ} {n : ℕ} {mem : ℕ → UInt8} {cli : Engine σ} {s : Tty}
  {line : List UInt8} {row : ℕ → UInt8} {col : ℕ}

/-- A line behind the invitation. The cursor is as far behind the end of the line as the place is in front of it. -/
def Outputs.screen (out : Outputs σ) (line : List UInt8) (pos : ℕ) : Tty :=
  resting (cells (out.invitation ++ line)) (out.invitation.length + 2 * line.length - pos)

/-- What is written are characters and complete sequences, and a command ends the lines that it writes. -/
structure Proper (out : Outputs σ) (app : Application σ) : Prop where
  invitation : ∀ c ∈ out.invitation, isPrintable c = true
  command : ∀ env buf size, writes (resting (cells []) 0) (out.command env buf size) = resting (cells []) 0
  args : ∀ env d help, Complete (out.args env d help)
  names : ∀ env line, ∀ name ∈ app.getAutocompletedCommand env line, ∀ c ∈ name, isPrintable c = true
  found : ∀ env line help found, app.argsCompletion env line help = some found →
    ∀ name ∈ found, ∀ c ∈ name, isPrintable c = true

/-- The engine between two characters, and the screen that shows its line. -/
structure Shown (out : Outputs σ) (n : ℕ) (mem : ℕ → UInt8) (cli : Engine σ) (s : Tty) (line : List UInt8) : Prop where
  inside : Inside n mem (draft cli) line
  printable : ∀ c ∈ line, isPrintable c = true
  screen : s = out.screen line cli.cursorPos

theorem Proper.behind (h : Proper out app) (hline : ∀ c ∈ line, isPrintable c = true) :
    ∀ c ∈ out.invitation ++ line, isPrintable c = true := by
  intro c hc
  rcases List.mem_append.mp hc with hc | hc
  · exact h.invitation c hc
  · exact hline c hc

/-- With its cursor at the end of the line. -/
theorem screen_end (out : Outputs σ) (line : List UInt8) : out.screen line line.length =
    resting (cells (out.invitation ++ line)) (out.invitation ++ line).length := by
  unfold Outputs.screen
  rw [List.length_append]
  congr 1
  omega

/-- A line that is printed again, wherever the cursor was. -/
theorem Proper.refreshed (hp : Proper out app) (h : Inside n mem (draft (embeddedCliRefresh cli)) line)
    (hline : ∀ c ∈ line, isPrintable c = true) (row : ℕ → UInt8) (col : ℕ) :
    Shown out n mem (embeddedCliRefresh cli) (writes (resting row col) (embeddedCliRefreshOutput out cli)) line := by
  have hsize : cli.cmdSize = line.length := h.size
  have hread : Circular.get cli.cmdBuffer 0 cli.cmdSize = line := by
    have hfront : Circular.get (Function.update cli.cmdBuffer cli.cmdSize 0) 0 line.length = line := h.front
    rw [← hfront,hsize]
    refine (get_window fun x _ hx => ?_).symm
    rw [Nat.zero_add] at hx
    exact Function.update_of_ne hx.ne 0 _
  have hcursor : (embeddedCliRefresh cli).cursorPos = line.length := hsize
  refine ⟨h,hline,?_⟩
  unfold embeddedCliRefreshOutput
  rw [hread,writes_append,writes_erase,writes_line (hp.behind hline),hcursor,screen_end]

theorem Proper.refresh (hp : Proper out app) (h : Drafts n mem (draft cli) line) (hline : ∀ c ∈ line, isPrintable c = true)
    (row : ℕ → UInt8) (col : ℕ) :
    Shown out n mem (embeddedCliRefresh cli) (writes (resting row col) (embeddedCliRefreshOutput out cli)) line :=
  hp.refreshed h.refresh hline row col

/-- The row, blanked out. -/
theorem Shown.clear (h : Shown out n mem cli s line) : writes s (clearCurrentLineOutput out cli) = resting (cells []) 0 := by
  have hlength : cli.inputLineLength = line.length := h.inside.length
  rw [h.screen]
  apply writes_over
  rw [List.length_append,hlength]
  omega

/-- The output of one step behind that of another one. -/
theorem Shown.idle (h : Shown out n mem cli s line) {next : Engine σ} (hdraft : draft next = draft cli) :
    Shown out n mem next (writes s []) line := by
  have hcursor : next.cursorPos = cli.cursorPos := congrArg Draft.cursorPos hdraft
  refine ⟨hdraft ▸ h.inside,h.printable,?_⟩
  rw [hcursor]
  exact h.screen

/-- The right and left arrow keys move the cursor of the terminal away from the end of the line and back. -/
theorem Shown.right (h : Shown out n mem cli s line) (hpos : cli.cursorPos > 0) :
    Shown out n mem { cli with cursorPos := cli.cursorPos - 1 } (writes s escSeqCursorRight) line := by
  have hcursor : cli.cursorPos ≤ line.length := h.inside.cursor
  refine ⟨h.inside.move ((Nat.sub_le ..).trans hcursor),h.printable,?_⟩
  have hcol : out.invitation.length + 2 * line.length - cli.cursorPos + 1 =
      out.invitation.length + 2 * line.length - (cli.cursorPos - 1) := by omega
  rw [h.screen]
  unfold Outputs.screen
  rw [← hcol]
  exact writes_right ..

theorem Shown.left (h : Shown out n mem cli s line) (hpos : cli.cursorPos < strlen cli.cmdBuffer 0) :
    Shown out n mem { cli with cursorPos := u16 (cli.cursorPos + 1) } (writes s escSeqCursorLeft) line := by
  have hstrlen : strlen cli.cmdBuffer 0 = line.length := h.inside.strlen
  have hfits := h.inside.fits
  have hsmall := h.inside.small
  have hnext : u16 (cli.cursorPos + 1) = cli.cursorPos + 1 := u16_of_lt (by omega)
  rw [hstrlen] at hpos
  refine ⟨h.inside.move (by rw [hnext]; exact hpos),h.printable,?_⟩
  rw [h.screen]
  unfold Outputs.screen
  rw [hnext,← Nat.sub_sub]
  exact writes_left ..

theorem Shown.arrows (h : Shown out n mem cli s line) (c : UInt8) :
    Shown out n mem (onLeftArrow (onRightArrow cli c) c) (writes s
      (if c = 0x43 ∧ cli.cursorPos > 0 then escSeqCursorRight
        else if c = 0x44 ∧ cli.cursorPos < strlen cli.cmdBuffer 0 then escSeqCursorLeft else [])) line := by
  unfold onRightArrow
  split
  case isTrue hright =>
    unfold onLeftArrow
    rw [if_neg (by rw [hright.1]; exact fun hleft => absurd hleft.1 (by decide))]
    exact h.right hright.2
  case isFalse =>
    unfold onLeftArrow
    split
    case isTrue hleft => exact h.left hleft.2
    case isFalse => exact h

/-- A command that is shown again. -/
theorem Shown.recall (h : Shown out n mem cli s line) (hp : Proper out app) {i : ℕ}
    (hfits : (itemAt cli.history i).length ≤ n) (hnul : 0 ∉ itemAt cli.history i)
    (hitem : ∀ c ∈ itemAt cli.history i, isPrintable c = true) :
    Shown out n mem (showItem cli i) (writes s (clearCurrentLineOutput out cli ++
      (out.invitation ++ cString (showItem cli i).cmdBuffer 0))) (itemAt cli.history i) := by
  have hshown := h.inside.showItem hfits hnul
  have htext : cString (showItem cli i).cmdBuffer 0 = itemAt cli.history i := hshown.text
  have hcursor : (showItem cli i).cursorPos = (itemAt cli.history i).length := hshown.size
  refine ⟨hshown,hitem,?_⟩
  rw [writes_append,h.clear,htext,writes_line (hp.behind hitem),hcursor,screen_end]

/-- A character at the end of the line, or in front of another one. -/
theorem Shown.onCharInput (h : Shown out n mem cli s line) (hp : Proper out app) {c : UInt8} (hc : isPrintable c = true) :
    ∃ next, Shown out n mem (onCharInput cli c) (writes s (onCharInputOutput out cli c)) next := by
  have hmax : cli.cmdMaxSize = n + 1 := h.inside.maxSize
  have hsize : cli.cmdSize = line.length := h.inside.size
  have hlength : cli.inputLineLength = line.length := h.inside.length
  have hcursor : cli.cursorPos ≤ line.length := h.inside.cursor
  have hnul : c ≠ 0 := by
    rintro rfl
    exact absurd hc (by decide)
  unfold Cli.onCharInput onCharInputOutput
  dsimp only
  split
  case isTrue => exact ⟨line,h⟩
  case isFalse hroom =>
    have hroom : line.length < n := by omega
    split
    case isTrue hend =>
      have hend : cli.cursorPos = line.length := by omega
      have happend := h.inside.append hnul hroom hend
      have hprintable : ∀ d ∈ line ++ [c], isPrintable d = true := by
        rw [List.forall_mem_append]
        exact ⟨h.printable,List.forall_mem_singleton.mpr hc⟩
      rw [h.screen]
      split
      case isTrue => exact ⟨_,hp.refresh happend.toDrafts hprintable _ _⟩
      case isFalse =>
        refine ⟨_,happend,hprintable,?_⟩
        have hnext : (appendChar cli c).cursorPos = (line ++ [c]).length := happend.size
        rw [hnext,screen_end,hend,screen_end,writes_text (List.forall_mem_singleton.mpr hc),List.append_assoc]
    case isFalse hinside =>
      have hinside : cli.cursorPos < line.length := by omega
      have hprintable : ∀ d ∈ line.take cli.cursorPos ++ c :: line.drop cli.cursorPos, isPrintable d = true := by
        rw [List.forall_mem_append,List.forall_mem_cons]
        exact ⟨fun d hd => h.printable d (List.mem_of_mem_take hd),hc,fun d hd => h.printable d (List.mem_of_mem_drop hd)⟩
      rw [h.screen]
      exact ⟨_,hp.refreshed (h.inside.insert hnul hroom hinside) hprintable _ _⟩

/-- A backspace. -/
theorem Shown.delete (h : Shown out n mem cli s line) (hp : Proper out app) (hpos : 0 < cli.cursorPos) :
    ∃ next, Shown out n mem
      (if (deleteChar cli).cursorPos = (deleteChar cli).inputLineLength then deleteChar cli else embeddedCliRefresh (deleteChar cli))
      (writes s (if (deleteChar cli).cursorPos = (deleteChar cli).inputLineLength then [0x08,0x20,0x08]
        else embeddedCliRefreshOutput out (deleteChar cli))) next := by
  have hcursor : cli.cursorPos ≤ line.length := h.inside.cursor
  have hdeleted := h.inside.delete hpos
  have hprintable : ∀ c ∈ line.take (cli.cursorPos - 1) ++ line.drop cli.cursorPos, isPrintable c = true := by
    rw [List.forall_mem_append]
    exact ⟨fun c hc => h.printable c (List.mem_of_mem_take hc),fun c hc => h.printable c (List.mem_of_mem_drop hc)⟩
  have hlength : (deleteChar cli).inputLineLength = (line.take (cli.cursorPos - 1) ++ line.drop cli.cursorPos).length :=
    hdeleted.length
  have hback : (deleteChar cli).cursorPos = cli.cursorPos - 1 := rfl
  rw [h.screen]
  split
  case isTrue hend =>
    rw [hback,hlength,List.length_append,List.length_take,List.length_drop] at hend
    have hlast : cli.cursorPos = line.length := by omega
    have hne : line ≠ [] := List.ne_nil_of_length_pos (hlast ▸ hpos)
    obtain ⟨front,c,rfl⟩ : ∃ front c, line = front ++ [c] := ⟨_,_,(List.dropLast_append_getLast hne).symm⟩
    have hfront : (front ++ [c]).take (cli.cursorPos - 1) ++ (front ++ [c]).drop cli.cursorPos = front := by
      rw [hlast,List.drop_length,List.length_append,List.length_singleton,Nat.add_sub_cancel,List.take_left',List.append_nil]
      rfl
    rw [hfront] at hdeleted hprintable
    refine ⟨front,hdeleted,hprintable,?_⟩
    have hnext : (deleteChar cli).cursorPos = front.length := by
      rw [hback,hlast,List.length_append,List.length_singleton,Nat.add_sub_cancel]
    rw [hnext,screen_end,hlast,screen_end,← List.append_assoc,writes_rubout]
  case isFalse => exact ⟨_,hp.refresh hdeleted.toDrafts hprintable _ _⟩

/-- A line that is printed again behind something else. -/
theorem Shown.reprint (h : Shown out n mem cli s line) (hp : Proper out app) {before : List UInt8} (hbefore : Complete before)
    {next : Engine σ} {text : List UInt8} (hnext : Drafts n mem (draft next) text) (htext : ∀ c ∈ text, isPrintable c = true) :
    Shown out n mem (embeddedCliRefresh next) (writes s (before ++ embeddedCliRefreshOutput out next)) text := by
  obtain ⟨row,col,hrow⟩ := hbefore (cells (out.invitation ++ line)) (out.invitation.length + 2 * line.length - cli.cursorPos)
  have hmiddle : writes s before = resting row col := by
    rw [h.screen]
    exact hrow
  rw [writes_append,hmiddle]
  exact hp.refresh hnext htext row col

end Screens

section Completed
variable {σ : Type*} {out : Outputs σ} {app : Application σ} {n : ℕ} {mem : ℕ → UInt8} {cli : Engine σ} {s : Tty}
  {line : List UInt8}

theorem helpWithUse_printable {names : List (List UInt8)} (h : ∀ name ∈ names, ∀ c ∈ name, isPrintable c = true) :
    ∀ c ∈ helpWithUse names, isPrintable c = true := by
  have hfold : ∀ u : Usage, (∀ c ∈ u.msg, isPrintable c = true) → ∀ c ∈ (names.foldl addUse u).msg, isPrintable c = true := by
    induction names with
    | nil => exact fun u hu => hu
    | cons name names ih =>
      rw [List.forall_mem_cons] at h
      intro u hu
      refine ih h.2 (addUse u name) ?_
      unfold addUse
      split
      · exact hu
      split
      · exact hu
      · rw [List.forall_mem_append]
        refine ⟨hu,fun c hc => ?_⟩
        have hc := List.mem_of_mem_take hc
        split at hc
        · exact (List.forall_mem_cons.mpr ⟨by decide,h.1⟩) c hc
        · exact h.1 c hc
  exact hfold _ (by decide +kernel)

/-- What a completion makes of a line is printable if the names are. -/
theorem completed_printable {next : List UInt8} {names : List (List UInt8)} (hnew : next ⊆ 0x20 :: (line ++ names.flatten))
    (hline : ∀ c ∈ line, isPrintable c = true) (hnames : ∀ name ∈ names, ∀ c ∈ name, isPrintable c = true) :
    ∀ c ∈ next, isPrintable c = true := by
  intro c hc
  have hc := hnew hc
  rw [List.mem_cons,List.mem_append] at hc
  rcases hc with rfl | hc | hc
  · decide
  · exact hline c hc
  · obtain ⟨name,hname,hc⟩ := List.mem_flatten.mp hc
    exact hnames name hname c hc

/-- What is written to print something above the line. -/
theorem Proper.print (hp : Proper out app) {string : List UInt8} (hstring : ∀ c ∈ string, isPrintable c = true)
    (hline : ∀ c ∈ cString cli.cmdBuffer 0, isPrintable c = true) : Complete (embeddedCliPrintOutput out cli string) := by
  have hblanks : ∀ m, ∀ c ∈ List.replicate m (0x20 : UInt8), isPrintable c = true := by
    intro m c hc
    rw [List.eq_of_mem_replicate hc]
    decide
  have hclear : Complete (clearCurrentLineOutput out cli) :=
    complete_return.append ((complete_printable (hblanks _)).append complete_return)
  have hmove : Complete (moveCursorOutput cli.cursorPos false) := by
    unfold moveCursorOutput
    split
    · exact complete_nil
    · exact complete_leftBy (Nat.pos_of_ne_zero ‹_›)
  exact hclear.append ((complete_printable hstring).append (complete_newline.append
    ((complete_printable hp.invitation).append ((complete_printable hline).append hmove))))

/-- What is written for the completion of a command name. -/
theorem Proper.completeCommand (hp : Proper out app)
    (hline : ∀ c ∈ cString (completeCommand app cli).cmdBuffer 0, isPrintable c = true) :
    Complete (completeCommandOutput out app cli) := by
  have hnames := hp.names cli.env (cString cli.cmdBuffer 0)
  unfold Cli.completeCommand at hline
  unfold completeCommandOutput
  dsimp only at hline ⊢
  generalize app.getAutocompletedCommand cli.env (cString cli.cmdBuffer 0) = found at hnames hline
  rcases found with _ | ⟨name,_ | ⟨other,names⟩⟩
  · exact complete_nil
  · exact complete_nil
  · exact hp.print (helpWithUse_printable hnames) hline

theorem Shown.completeCommand (h : Shown out n mem cli s line) (hp : Proper out app) (hfit : NamesFit app n) :
    ∃ next, Shown out n mem (embeddedCliRefresh (completeCommand app cli))
      (writes s (completeCommandOutput out app cli ++ embeddedCliRefreshOutput out (completeCommand app cli))) next := by
  obtain ⟨next,hnext,hnew⟩ := h.inside.completeCommand hfit
  have hprintable := completed_printable hnew h.printable (hp.names _ _)
  have htext : cString (Cli.completeCommand app cli).cmdBuffer 0 = next := hnext.text
  exact ⟨next,h.reprint hp (hp.completeCommand (by rwa [htext])) hnext hprintable⟩

/-- The completion of an argument, for a command that has a callback. -/
theorem Shown.completions (h : Shown out n mem cli s line) (hp : Proper out app) (hfit : NamesFit app n) {help : Bool}
    {rest : Engine σ} {text : List UInt8} (hrest : Inside n mem (draft rest) text) (htext : text ⊆ line)
    {found : List (List UInt8)} (hfound : app.argsCompletion rest.env (cString rest.cmdBuffer 0) help = some found)
    {before : List UInt8} (hbefore : Complete before) :
    ∃ next, Shown out n mem (embeddedCliRefresh (found.foldl embeddedCliCompletion rest))
      (writes s (before ++ embeddedCliRefreshOutput out (found.foldl embeddedCliCompletion rest))) next := by
  obtain ⟨next,hnext,hnew⟩ := hrest.completions hrest.reaches (hfit.args _ _ _ _ hfound)
  exact ⟨next,h.reprint hp hbefore hnext (completed_printable hnew (fun c hc => h.printable c (htext hc)) (hp.found _ _ _ _ hfound))⟩

/-- A help for an argument is asked for, and there is no callback to answer. -/
def InVain (app : Application σ) (cli : Engine σ) : Prop :=
  cli.cmdSize ≠ 0 ∧ 0x20 ∈ Circular.get cli.cmdBuffer 0 cli.cmdSize ∧ isHelpRequest cli = true ∧
    app.argsCompletion cli.env (cString (Function.update cli.cmdBuffer (cli.cmdSize - 1) 0) 0) true = none

/-- The line without its question mark. -/
theorem cutHelp_asked (h : isHelpRequest cli = true) : cutHelp cli = { cli with
    cmdSize := cli.cmdSize - 1
    cmdBuffer := Function.update cli.cmdBuffer (cli.cmdSize - 1) 0
    cursorPos := cli.cmdSize - 1
    inputLineLength := cli.cmdSize - 1 } := if_pos h

/-- The screen shows the line, with the cursor mirrored at its end. -/
def ShowsLine (out : Outputs σ) (cli : Engine σ) (s : Tty) : Prop := s = out.screen (cString cli.cmdBuffer 0) cli.cursorPos

theorem Shown.shows (h : Shown out n mem cli s line) : ShowsLine out cli s := by
  have htext : cString cli.cmdBuffer 0 = line := h.inside.text
  unfold ShowsLine
  rw [htext]
  exact h.screen

theorem Shown.autocomplete (h : Shown out n mem cli s line) (hp : Proper out app) (hfit : NamesFit app n)
    (hanswered : ¬InVain app cli) :
    ∃ next, Shown out n mem (onAutocompleteRequest app cli) (writes s (onAutocompleteRequestOutput out app cli)) next := by
  unfold onAutocompleteRequest onAutocompleteRequestOutput
  split
  case isTrue => exact ⟨line,h⟩
  case isFalse hsome =>
    split
    case isTrue => exact h.completeCommand hp hfit
    case isFalse hblank =>
      obtain ⟨rest,hcut,hrest⟩ := h.inside.cutHelp
      unfold completeArgument completeArgumentOutput
      cases hfound : app.argsCompletion (cutHelp cli).env (cString (cutHelp cli).cmdBuffer 0) (isHelpRequest cli) with
      | none =>
        cases hasks : isHelpRequest cli with
        | true =>
          rw [hasks,cutHelp_asked hasks] at hfound
          exact absurd ⟨hsome,not_not.mp hblank,hasks,hfound⟩ hanswered
        | false =>
          have hsame : cutHelp cli = cli := by
            unfold cutHelp
            rw [if_neg (by rw [hasks]; exact Bool.false_ne_true)]
          rw [hsame]
          exact ⟨line,h⟩
      | some found => exact h.completions hp hfit hcut hrest hfound (hp.args _ _ _)

/-- The question mark stays on the screen. -/
theorem Shown.inVain (h : Shown out n mem cli s line) (hvain : InVain app cli) :
    ¬ShowsLine out (onAutocompleteRequest app cli) (writes s (onAutocompleteRequestOutput out app cli)) := by
  obtain ⟨hsome,hblank,hasks,hnone⟩ := hvain
  have hsize : cli.cmdSize = line.length := h.inside.size
  obtain ⟨rest,hrest,-⟩ := h.inside.cutHelp
  have htext : cString (cutHelp cli).cmdBuffer 0 = rest := hrest.text
  have hlength : rest.length = line.length - 1 := by
    rw [← hrest.size,← hsize,cutHelp_asked hasks]
    rfl
  have hfound : app.argsCompletion (cutHelp cli).env (cString (cutHelp cli).cmdBuffer 0) true = none := by
    rw [cutHelp_asked hasks]
    exact hnone
  have hresult : onAutocompleteRequest app cli = cutHelp cli := by
    unfold onAutocompleteRequest completeArgument
    rw [if_neg hsome,if_neg (not_not.mpr hblank),hasks,hfound]
  have hsilent : onAutocompleteRequestOutput out app cli = [] := by
    unfold onAutocompleteRequestOutput completeArgumentOutput
    rw [if_neg hsome,if_neg (not_not.mpr hblank),hasks,hfound]
  unfold ShowsLine
  rw [hresult,hsilent,htext]
  intro hscreen
  have hrow : cells (out.invitation ++ line) = cells (out.invitation ++ rest) :=
    congrArg Tty.row (h.screen.symm.trans hscreen)
  have hcell := congrFun hrow (out.invitation.length + (line.length - 1))
  have hmark : line.getD (line.length - 1) 0x20 = 0x3F := by
    unfold isHelpRequest at hasks
    rw [Bool.and_eq_true,beq_iff_eq] at hasks
    have hfront : Circular.get cli.cmdBuffer 0 line.length = line := h.inside.front
    rw [List.getD_eq_getElem?_getD]
    nth_rewrite 1 [← hfront]
    rw [get_getElem?,if_pos (by omega),Nat.zero_add,← hsize]
    exact hasks.2
  unfold cells at hcell
  rw [List.getD_append_right _ _ _ _ (Nat.le_add_right ..),List.getD_append_right _ _ _ _ (Nat.le_add_right ..),
    Nat.add_sub_cancel_left,hmark,List.getD_eq_default _ _ hlength.le] at hcell
  exact absurd hcell (by decide)

end Completed

section Stepped
variable {σ : Type*} {out : Outputs σ} {world : World σ} {names : σ → List UInt8 → List (List UInt8)}
  {args : σ → List UInt8 → Bool → Option (List (List UInt8))} {n k : ℕ} {mem hmem : ℕ → UInt8} {cli : Engine σ}
  {s : Tty} {line : List UInt8} {app : Application σ}

/-- The commands that have been executed are printable. -/
def Texts (cli : Engine σ) : Prop := ∀ line ∈ cli.executed, ∀ c ∈ line, isPrintable c = true

theorem Shown.navigate (h : Shown out n mem cli s line) (hp : Proper out app) (hpast : Past n k hmem cli.history cli.executed)
    (hk : k < 16) (htiled : Tiled (2 ^ k) (storedBy (2 ^ k) cli.executed)) (htexts : Texts cli) (up : Bool) :
    ∃ next, Shown out n mem (navigateHistory cli up) (writes s (navigateHistoryOutput out cli up)) next := by
  have hsmall := h.inside.small
  have hcount : cli.history.itemsCount ≤ maxHistoryItems := by
    rw [hpast.storing.itemsCount]
    exact Nat.min_le_right ..
  unfold navigateHistoryOutput
  split
  case isTrue hnone =>
    rw [navigateHistory_idle (.inl hnone)]
    exact ⟨line,h⟩
  case isFalse hsome =>
    split
    case isTrue holdest =>
      rw [navigateHistory_idle (.inr (.inl holdest))]
      exact ⟨line,h⟩
    case isFalse hnotOldest =>
      split
      case isTrue hnewest =>
        rw [navigateHistory_idle (.inr (.inr hnewest))]
        exact ⟨line,h⟩
      case isFalse hnotNewest =>
        obtain ⟨i,hi,hshow⟩ := navigateHistory_shows hsome hnotOldest hnotNewest hpast.current hcount
        obtain ⟨hfits,hnul⟩ := hpast.item_fits hk htiled (Nat.lt_of_succ_lt hsmall) hi
        rw [hshow]
        refine ⟨_,h.recall hp hfits hnul ?_⟩
        rcases hpast.item hk htiled (Nat.lt_of_succ_lt hsmall) hi with hnone | hmem
        · rw [hnone]
          exact fun c hc => absurd hc List.not_mem_nil
        · exact htexts _ (mem_storedBy hmem)

/-- The last character of an escape sequence. -/
theorem Shown.onEscapedInput (h : Shown out n mem cli s line) (hp : Proper out app)
    (hpast : Past n k hmem cli.history cli.executed) (hk : k < 16) (htiled : Tiled (2 ^ k) (storedBy (2 ^ k) cli.executed))
    (htexts : Texts cli) (c : UInt8) : ∃ next, Shown out n mem (onLeftArrow (onRightArrow (onVerticalArrow cli c) c) c)
      (writes s (onEscapedInputOutput out cli c)) next := by
  unfold onEscapedInputOutput onVerticalArrow
  split
  case isTrue hvertical =>
    have hplain : ∀ next : Engine σ, onLeftArrow (onRightArrow next c) c = next := by
      intro next
      unfold onLeftArrow onRightArrow
      rcases hvertical with rfl | rfl
      · rfl
      · rfl
    rw [hplain]
    exact h.navigate hp hpast hk htiled htexts _
  case isFalse => exact ⟨line,h.arrows c⟩

/-- The return key. -/
theorem Shown.enter (h : Shown out n mem cli s line) (hp : Proper out app) (hbound : Bound n mem (freshLine (submitLine app cli))) :
    Shown out n mem (freshLine (submitLine app cli)) (writes s (lineBreak ++ (submitLineOutput out cli ++ out.invitation))) [] := by
  obtain ⟨next,hnext⟩ := hbound
  obtain rfl : next = [] := List.eq_nil_of_length_eq_zero hnext.size.symm
  have hcommand : writes (resting (cells []) 0) (submitLineOutput out cli) = resting (cells []) 0 := by
    unfold submitLineOutput
    split
    · dsimp only
      split
      · rfl
      · exact hp.command _ _ _
    · rfl
  have hbreak : writes s lineBreak = resting (cells []) 0 := by
    rw [h.screen]
    exact writes_newline ..
  refine ⟨hnext,fun c hc => absurd hc List.not_mem_nil,?_⟩
  rw [writes_append,hbreak,writes_append,hcommand,writes_line hp.invitation]
  unfold Outputs.screen
  rw [List.append_nil]
  rfl

/-- A help that is asked for by the next character in vain. -/
def Unanswered (app : Application σ) (cli : Engine σ) (c : UInt8) : Prop := cli.escapeMode = false ∧ c = 0x09 ∧ InVain app cli

instance (app : Application σ) (cli : Engine σ) (c : UInt8) : Decidable (Unanswered app cli c) :=
  have : Decidable (InVain app cli) := inferInstanceAs (Decidable (_ ∧ _ ∧ _ ∧ _))
  inferInstanceAs (Decidable (_ ∧ _ ∧ _))

/-- A control character. -/
theorem Shown.onControlInput (h : Shown out n mem cli s line) (hp : Proper out app) (hfit : NamesFit app n) {c : UInt8}
    (hbound : Bound n mem (onControlInput app cli c)) (hanswered : ¬(c = 0x09 ∧ InVain app cli)) :
    ∃ next, Shown out n mem (onControlInput app cli c) (writes s (onControlInputOutput out app cli c)) next := by
  unfold Cli.onControlInput at hbound ⊢
  unfold onControlInputOutput
  dsimp only at hbound ⊢
  split
  case isTrue => exact ⟨line,h⟩
  case isFalse hfeed =>
    rw [if_neg hfeed] at hbound
    split
    case isTrue hreturn =>
      rw [if_pos hreturn] at hbound
      exact ⟨[],h.enter hp hbound⟩
    case isFalse =>
      split
      case isTrue hback => exact h.delete hp hback.2
      case isFalse =>
        split
        case isTrue htab =>
          split
          · exact Shown.autocomplete (h.idle rfl) hp hfit fun hvain => hanswered ⟨htab,hvain⟩
          · exact h.autocomplete hp hfit fun hvain => hanswered ⟨htab,hvain⟩
        case isFalse => exact ⟨line,h⟩

/-- What the screen shows behind a character, whichever it is. -/
theorem Shown.step (h : Shown out n mem cli s line) (hp : Proper out (world.application names args))
    (hsafe : Safe n k mem hmem cli) (hk : k < 16) (hrespects : Respects world (n + 9))
    (hfit : NamesFit (world.application names args) n) (htexts : Texts cli) {c : UInt8}
    (hfitting : Fitting world n k (processChar (world.application names args) cli c).executed)
    (hanswered : ¬Unanswered (world.application names args) cli c) :
    ∃ next, Shown out n mem (processChar (world.application names args) cli c)
      (writes s (handleCharOutput out (world.application names args) cli c)) next := by
  have hbefore := (hfitting.initial (processChar_executed cli c)).tiled
  have hhandled := hsafe.handled hk hrespects hfit c hbefore hfitting
  suffices hshown : ∃ next, Shown out n mem (handleChar (world.application names args) cli c)
      (writes s (handleCharOutput out (world.application names args) cli c)) next by
    obtain ⟨next,hnext⟩ := hshown
    exact ⟨next,hnext.idle rfl⟩
  unfold handleChar at hhandled ⊢
  unfold handleCharOutput
  split
  case isTrue =>
    unfold Cli.onEscapedInput
    split
    case isTrue =>
      have hplain : Shown out n mem { cli with escapeMode := false } s line := h.idle rfl
      exact hplain.onEscapedInput hp hsafe.past hk hbefore htexts c
    case isFalse => exact ⟨line,h⟩
  case isFalse hplain =>
    rw [if_neg hplain] at hhandled
    split
    case isTrue => exact ⟨line,h.idle rfl⟩
    case isFalse hintroducer =>
      rw [if_neg hintroducer] at hhandled
      split
      case isTrue hcontrol =>
        rw [if_pos hcontrol] at hhandled
        exact h.onControlInput hp hfit hhandled.bound fun hvain =>
          hanswered ⟨Bool.eq_false_of_not_eq_true hplain,hvain⟩
      case isFalse =>
        split
        case isTrue hshown => exact h.onCharInput hp hshown
        case isFalse => exact ⟨line,h⟩

theorem Shown.unanswered (h : Shown out n mem cli s line) {c : UInt8} (hvain : Unanswered app cli c) :
    ¬ShowsLine out (processChar app cli c) (writes s (handleCharOutput out app cli c)) := by
  obtain ⟨hplain,rfl,hvain⟩ := hvain
  have hescape : ¬cli.escapeMode = true := by
    rw [hplain]
    exact Bool.false_ne_true
  have hintroducer : ¬(cli.lastChar = 0x1B ∧ (0x09 : UInt8) = 0x5B) := fun h => absurd h.2 (by decide)
  have hfeed : ¬((cli.lastChar = 0x0D ∧ (0x09 : UInt8) = 0x0A) ∨ (cli.lastChar = 0x0A ∧ (0x09 : UInt8) = 0x0D)) := by
    rintro (h | h)
    · exact absurd h.2 (by decide)
    · exact absurd h.2 (by decide)
  have hback : ¬(((0x09 : UInt8) = 0x08 ∨ (0x09 : UInt8) = 0x7F) ∧ cli.cursorPos > 0) := fun h => absurd h.1 (by decide)
  have hresult : handleChar app cli 0x09 =
      onAutocompleteRequest app (if cli.lastChar = 0x09 then { cli with lastChar := 0 } else cli) := by
    unfold handleChar Cli.onControlInput
    rw [if_neg hescape,if_neg hintroducer,if_pos (by decide),if_neg hfeed,if_neg (by decide),if_neg hback,if_pos rfl]
  have houtput : handleCharOutput out app cli 0x09 =
      onAutocompleteRequestOutput out app (if cli.lastChar = 0x09 then { cli with lastChar := 0 } else cli) := by
    unfold handleCharOutput onControlInputOutput
    rw [if_neg hescape,if_neg hintroducer,if_pos (by decide),if_neg hfeed,if_neg (by decide),if_neg hback,if_pos rfl]
  show ¬ShowsLine out (handleChar app cli 0x09) _
  rw [hresult,houtput]
  split
  · exact Shown.inVain (h.idle rfl) hvain
  · exact h.inVain hvain

theorem Shown.texts (h : Shown out n mem cli s line) (htexts : Texts cli) (c : UInt8) : Texts (processChar app cli c) := by
  have hread : Circular.get (Function.update cli.cmdBuffer cli.cmdSize 0) 0 cli.cmdSize = line := by
    rw [h.inside.toDrafts.closed,show cli.cmdSize = line.length from h.inside.size]
    exact h.inside.front
  unfold Texts
  rcases @processChar_submits _ app cli c with hsame | hsubmit
  · rw [hsame]
    exact htexts
  · rw [hsubmit]
    rcases @submitLine_executed _ app cli with hsame | hnew
    · rw [hsame]
      exact htexts
    · rw [hnew,hread,List.forall_mem_append]
      exact ⟨htexts,List.forall_mem_singleton.mpr h.printable⟩

end Stepped

section Followed
variable {σ : Type*} {out : Outputs σ} {world : World σ} {names : σ → List UInt8 → List (List UInt8)}
  {args : σ → List UInt8 → Bool → Option (List (List UInt8))} {n k : ℕ} {mem hmem : ℕ → UInt8} {cli : Engine σ}
  {s : Tty} {c : UInt8}

/-- The engine between two characters, with the screen that shows its line. -/
structure Followed (out : Outputs σ) (n k : ℕ) (mem hmem : ℕ → UInt8) (cli : Engine σ) (s : Tty) : Prop where
  safe : Safe n k mem hmem cli
  texts : Texts cli
  shown : ∃ line, Shown out n mem cli s line

theorem Followed.step (h : Followed out n k mem hmem cli s) (hp : Proper out (world.application names args)) (hk : k < 16)
    (hrespects : Respects world (n + 9)) (hfit : NamesFit (world.application names args) n)
    (hfitting : Fitting world n k (processChar (world.application names args) cli c).executed)
    (hanswered : ¬Unanswered (world.application names args) cli c) :
    Followed out n k mem hmem (processChar (world.application names args) cli c)
      (writes s (handleCharOutput out (world.application names args) cli c)) := by
  obtain ⟨line,hshown⟩ := h.shown
  exact ⟨h.safe.step hk hrespects hfit c (hfitting.initial (processChar_executed cli c)).tiled hfitting,
    hshown.texts h.texts c,hshown.step hp h.safe hk hrespects hfit h.texts hfitting hanswered⟩

/-- What is written for characters that are all processed. -/
def typedOutput (out : Outputs σ) (app : Application σ) : Engine σ → List UInt8 → List UInt8
  | _, [] => []
  | cli, c :: cs => handleCharOutput out app cli c ++ typedOutput out app (processChar app cli c) cs

/-- As long as no help is asked for in vain, the screen follows the engine. -/
theorem Followed.typed (h : Followed out n k mem hmem cli s) (hp : Proper out (world.application names args)) (hk : k < 16)
    (hrespects : Respects world (n + 9)) (hfit : NamesFit (world.application names args) n) (cs : List UInt8)
    (hfitting : Fitting world n k (typed (world.application names args) cli cs).executed)
    (hanswered : ∀ before c, before ++ [c] <+: cs →
      ¬Unanswered (world.application names args) (Cli.typed (world.application names args) cli before) c) :
    Followed out n k mem hmem (Cli.typed (world.application names args) cli cs)
      (writes s (typedOutput out (world.application names args) cli cs)) := by
  induction cs generalizing cli s with
  | nil => exact h
  | cons c cs ih =>
    have hnext : Fitting world n k (processChar (world.application names args) cli c).executed :=
      hfitting.initial (typed_executed _ cs)
    have hstep := h.step hp hk hrespects hfit hnext (hanswered [] c (List.prefix_append [c] cs))
    have hrest := ih hstep hfitting fun before d hbefore =>
      hanswered (c :: before) d (List.cons_prefix_cons.mpr ⟨rfl,hbefore⟩)
    unfold typedOutput
    rw [writes_append]
    exact hrest

end Followed

section Batched
variable {σ : Type*} {out : Outputs σ} {app : Application σ} {cli : Engine σ} {rx : FifoBuf × Bool} {m : ℕ} {init : Bool}
  {s : Tty}

theorem navigateHistoryOutput_withRx (cli : Engine σ) (rx : FifoBuf × Bool) (up : Bool) :
    navigateHistoryOutput out (cli.withRx rx) up = navigateHistoryOutput out cli up := by
  have hkeeps : navigateHistory (cli.withRx rx) up = (navigateHistory cli up).withRx rx := keeps_navigateHistory up cli rx
  unfold navigateHistoryOutput
  rw [hkeeps]
  rfl

theorem onEscapedInputOutput_withRx (cli : Engine σ) (rx : FifoBuf × Bool) (c : UInt8) :
    onEscapedInputOutput out (cli.withRx rx) c = onEscapedInputOutput out cli c := by
  unfold onEscapedInputOutput
  rw [navigateHistoryOutput_withRx]
  rfl

theorem completeCommandOutput_withRx (cli : Engine σ) (rx : FifoBuf × Bool) :
    completeCommandOutput out app (cli.withRx rx) = completeCommandOutput out app cli := by
  have hline : (cli.withRx rx).env = cli.env ∧ (cli.withRx rx).cmdBuffer = cli.cmdBuffer := ⟨rfl,rfl⟩
  unfold completeCommandOutput
  rw [hline.1,hline.2]
  dsimp only
  split
  · rfl
  · rfl
  · split
    · rfl
    · rfl

theorem completeArgumentOutput_withRx (cli : Engine σ) (rx : FifoBuf × Bool) (help : Bool) :
    completeArgumentOutput out app (cli.withRx rx) help = completeArgumentOutput out app cli help := by
  have hline : (cli.withRx rx).env = cli.env ∧ (cli.withRx rx).cmdBuffer = cli.cmdBuffer ∧ draft (cli.withRx rx) = draft cli :=
    ⟨rfl,rfl,rfl⟩
  unfold completeArgumentOutput
  rw [hline.1,hline.2.1,hline.2.2]
  split
  · rfl
  case h_2 names hnames =>
    have hkeeps : names.foldl embeddedCliCompletion (cli.withRx rx) = (names.foldl embeddedCliCompletion cli).withRx rx :=
      keeps_completions names cli rx
    rw [hkeeps]
    rfl

theorem onAutocompleteRequestOutput_withRx (cli : Engine σ) (rx : FifoBuf × Bool) :
    onAutocompleteRequestOutput out app (cli.withRx rx) = onAutocompleteRequestOutput out app cli := by
  unfold onAutocompleteRequestOutput
  rw [completeCommandOutput_withRx,keeps_completeCommand app cli rx,keeps_cutHelp cli rx,completeArgumentOutput_withRx]
  rfl

theorem onControlInputOutput_withRx (cli : Engine σ) (rx : FifoBuf × Bool) (c : UInt8) :
    onControlInputOutput out app (cli.withRx rx) c = onControlInputOutput out app cli c := by
  have htab : onAutocompleteRequestOutput out app
      (if (cli.withRx rx).lastChar = 0x09 then { cli.withRx rx with lastChar := 0 } else cli.withRx rx) =
      onAutocompleteRequestOutput out app (if cli.lastChar = 0x09 then { cli with lastChar := 0 } else cli) := by
    rw [← onAutocompleteRequestOutput_withRx (if cli.lastChar = 0x09 then { cli with lastChar := 0 } else cli) rx]
    have hlast : (cli.withRx rx).lastChar = cli.lastChar := rfl
    rw [hlast]
    split
    · rfl
    · rfl
  unfold onControlInputOutput
  rw [htab]
  rfl

/-- What is written for a character does not depend on the FIFO. -/
theorem handleCharOutput_withRx (cli : Engine σ) (rx : FifoBuf × Bool) (c : UInt8) :
    handleCharOutput out app (cli.withRx rx) c = handleCharOutput out app cli c := by
  have hescaped : onEscapedInputOutput out { cli.withRx rx with escapeMode := false } c =
    onEscapedInputOutput out { cli with escapeMode := false } c :=
    onEscapedInputOutput_withRx { cli with escapeMode := false } rx c
  unfold handleCharOutput
  rw [hescaped,onControlInputOutput_withRx]
  rfl

theorem processLoopOutput_idle (out : Outputs σ) (app : Application σ) (h : Waiting rx.1 []) (fuel : ℕ) :
    processLoopOutput out app fuel (cli.withRx rx) = [] := by
  cases fuel with
  | zero => rfl
  | succ fuel =>
    have hnone : fifoBufAvailable (cli.withRx rx).rxBuffer = 0 := h.available
    exact if_pos hnone

theorem processLoopOutput_surviving (out : Outputs σ) (app : Application σ) (cs : List UInt8) (fuel : ℕ)
    (hfuel : cs.length ≤ fuel) (h : Waiting rx.1 cs) :
    processLoopOutput out app fuel (cli.withRx rx) = typedOutput out app cli (surviving app cli cs) := by
  induction cs generalizing cli rx fuel with
  | nil => exact processLoopOutput_idle out app h fuel
  | cons c cs ih =>
    obtain ⟨fuel,rfl⟩ := Nat.exists_eq_add_of_lt hfuel
    obtain ⟨g,hpop,hwait,-⟩ := h.pop
    have hsome : ¬fifoBufAvailable (cli.withRx rx).rxBuffer = 0 := by
      have hlength : fifoBufAvailable (cli.withRx rx).rxBuffer = (c :: cs).length := h.available
      rw [hlength]
      exact Nat.succ_ne_zero _
    have hstep : processLoopOutput out app (cs.length + fuel + 1) (cli.withRx rx) =
        handleCharOutput out app (cli.withRx (g,rx.2)) c ++
          processLoopOutput out app (cs.length + fuel) (processChar app (cli.withRx (g,rx.2)) c) := by
      have hfirst : fifoBufPop (cli.withRx rx).rxBuffer = (c,g) := hpop
      rw [processLoopOutput,if_neg hsome,hfirst]
      rfl
    have hframe : processChar app (cli.withRx (g,rx.2)) c =
        (processChar app cli c).withRx (flushIf (refreshes app cli c) (g,rx.2)) :=
      (frames_processChar app c cli (g,rx.2)).1
    rw [hstep,hframe,handleCharOutput_withRx]
    unfold surviving typedOutput
    cases hrefresh : refreshes app cli c with
    | true => exact congrArg _ (processLoopOutput_idle out app hwait.flush _)
    | false => exact congrArg _ (ih (cs.length + fuel) (Nat.le_add_right _ _) hwait)

theorem typedOutput_append (out : Outputs σ) (app : Application σ) (cli : Engine σ) (cs ds : List UInt8) :
    typedOutput out app cli (cs ++ ds) = typedOutput out app cli cs ++ typedOutput out app (typed app cli cs) ds := by
  induction cs generalizing cli with
  | nil => rfl
  | cons c cs ih =>
    rw [List.cons_append,typedOutput,typedOutput,ih,List.append_assoc]
    rfl

/-- The screen with the invitation on it, should it not have been written yet. -/
def Attached.ready (out : Outputs σ) (x : Attached σ) : Tty := writes x.screen (if x.initComplete then [] else out.invitation)

/-- A batch that fits: the characters that survive are processed, and what is written is what is written for them. -/
theorem receive_survivors (batch : List UInt8) (h : Idle rx m) (hfit : batch.length < m) : ∃ left,
    Attached.receive out app ⟨cli.withRx rx,init,s⟩ batch = ⟨(typed app cli (surviving app cli batch)).withRx left,true,
      writes (Attached.ready out ⟨cli.withRx rx,init,s⟩) (typedOutput out app cli (surviving app cli batch))⟩ ∧ Idle left m := by
  obtain ⟨full,left,hreceive,hwait,hprocess,hloop,hidle⟩ := @process_received _ app cli rx m batch h hfit
  have havailable : fifoBufAvailable (cli.withRx full).rxBuffer = batch.length := hwait.available
  refine ⟨left,?_,hidle⟩
  unfold Attached.receive embeddedCliProcessOutput
  dsimp only
  rw [hreceive,hprocess,hloop,havailable,processLoopOutput_surviving out app batch _ le_rfl hwait,writes_append]
  rfl

/-- All batches. -/
theorem receives_survivors (batches : List (List UInt8)) (h : Idle rx m) (hfit : ∀ batch ∈ batches, batch.length < m) :
    ∃ left, (batches.foldl (Attached.receive out app) ⟨cli.withRx rx,init,s⟩).cli =
        (typed app cli (survivors app cli batches)).withRx left ∧
      (batches.foldl (Attached.receive out app) ⟨cli.withRx rx,init,s⟩).ready out =
        writes (Attached.ready out ⟨cli.withRx rx,init,s⟩) (typedOutput out app cli (survivors app cli batches)) ∧
      Idle left m := by
  induction batches generalizing cli rx init s with
  | nil => exact ⟨rx,rfl,rfl,h⟩
  | cons batch batches ih =>
    obtain ⟨middle,hbatch,hidle⟩ := @receive_survivors _ out app cli rx m init s batch h (hfit batch List.mem_cons_self)
    obtain ⟨left,hcli,hready,hleft⟩ := @ih (typed app cli (surviving app cli batch)) middle true
      (writes (Attached.ready out ⟨cli.withRx rx,init,s⟩) (typedOutput out app cli (surviving app cli batch))) hidle
      fun other hother => hfit other (List.mem_cons_of_mem batch hother)
    have htyped : typed app cli (survivors app cli (batch :: batches)) =
      typed app (typed app cli (surviving app cli batch)) (survivors app (typed app cli (surviving app cli batch)) batches) :=
      List.foldl_append
    have houtput := typedOutput_append out app cli (surviving app cli batch)
      (survivors app (typed app cli (surviving app cli batch)) batches)
    rw [List.foldl_cons,hbatch]
    refine ⟨left,hcli.trans (by rw [htyped]),?_,hleft⟩
    rw [hready,survivors,houtput,writes_append]
    rfl

/-- One character, received and processed. -/
theorem receive_one (out : Outputs σ) (app : Application σ) (h : Idle rx m) (hm : 1 < m) (c : UInt8) : ∃ left,
    Attached.receive out app ⟨cli.withRx rx,init,s⟩ [c] = ⟨(processChar app cli c).withRx left,true,
      writes (Attached.ready out ⟨cli.withRx rx,init,s⟩) (handleCharOutput out app cli c)⟩ ∧ Idle left m := by
  obtain ⟨left,hreceive,hidle⟩ := @receive_survivors _ out app cli rx m init s [c] h hm
  rw [surviving_single] at hreceive
  refine ⟨left,hreceive.trans ?_,hidle⟩
  rw [typedOutput,typedOutput,List.append_nil]
  rfl

end Batched

section Follows
variable {σ : Type*} {out : Outputs σ} {world : World σ} {names : σ → List UInt8 → List (List UInt8)}
  {args : σ → List UInt8 → Bool → Option (List (List UInt8))} {n k m : ℕ} {mem hmem : ℕ → UInt8} {cli : Engine σ}

theorem receives_inBatches (out : Outputs σ) (app : Application σ) (x : Attached σ) (batches : List (List UInt8)) :
    (batches.foldl (Attached.receive out app) x).cli = inBatches app x.cli batches := by
  induction batches generalizing x with
  | nil => rfl
  | cons batch batches ih => exact ih (x.receive out app batch)

theorem receives_ready (out : Outputs σ) (app : Application σ) (x : Attached σ) {batches : List (List UInt8)} (h : batches ≠ []) :
    (batches.foldl (Attached.receive out app) x).ready out = (batches.foldl (Attached.receive out app) x).screen := by
  obtain ⟨front,last,rfl⟩ : ∃ front last, batches = front ++ [last] := ⟨_,_,(List.dropLast_append_getLast h).symm⟩
  rw [List.foldl_append]
  rfl

/-- A new engine, and the invitation in an empty row. -/
theorem followed_new (rxBufferSize cmdBufferSize historyBufferSize : BitVec 16) (env : σ) (hcmd : cmdBufferSize.toNat = n + 1)
    (hhistory : historyBufferSize.toNat = 2 ^ k) (hzero : mem 0 = 0) (hnew : ∀ x < 2 ^ k, hmem x = 0)
    (hp : Proper out (world.application names args)) :
    Followed out n k mem hmem (newIn mem hmem rxBufferSize cmdBufferSize historyBufferSize env)
      (Attached.ready out ⟨newIn mem hmem rxBufferSize cmdBufferSize historyBufferSize env,false,resting (cells []) 0⟩) := by
  have hsafe := safe_new rxBufferSize cmdBufferSize historyBufferSize env hcmd hhistory hzero hnew
  obtain ⟨line,hline⟩ := hsafe.bound
  obtain rfl : line = [] := List.eq_nil_of_length_eq_zero hline.size.symm
  refine ⟨hsafe,fun _ hmem => absurd hmem List.not_mem_nil,[],hline,fun _ hmem => absurd hmem List.not_mem_nil,?_⟩
  have hready : writes (resting (cells []) 0) out.invitation = resting (cells out.invitation) out.invitation.length :=
    writes_line hp.invitation
  show writes (resting (cells []) 0) out.invitation = _
  rw [hready]
  unfold Outputs.screen
  rw [List.append_nil]
  rfl

variable (out world names args)

/-- Whatever is received in batches that fit into the receive buffer: as long as no character that is processed asks for a
help in vain, the screen shows the line that the return key would execute. -/
theorem display_follows (rxBufferSize cmdBufferSize historyBufferSize : BitVec 16) (env : σ) (hcmd : 0 < cmdBufferSize.toNat)
    (hk : k < 16) (hhistory : historyBufferSize.toNat = 2 ^ k) (hzero : mem 0 = 0) (hnew : ∀ x < 2 ^ k, hmem x = 0)
    (hrespects : Respects world (cmdBufferSize.toNat + 8))
    (hnames : NamesFit (world.application names args) (cmdBufferSize.toNat - 1))
    (hp : Proper out (world.application names args)) (batches : List (List UInt8)) (hsome : batches ≠ [])
    (hfit : ∀ batch ∈ batches, batch.length < rxBufferSize.toNat) :
    let app := world.application names args
    let cli := newIn mem hmem rxBufferSize cmdBufferSize historyBufferSize env
    let x := batches.foldl (Attached.receive out app) ⟨cli,false,resting (cells []) 0⟩
    (∀ line ∈ x.cli.executed, HelpInside world (cmdBufferSize.toNat + 8) line) → Tiled (2 ^ k) (storedBy (2 ^ k) x.cli.executed) →
      (∀ before c, before ++ [c] <+: survivors app cli batches → ¬Unanswered app (typed app cli before) c) →
        x.cli = inBatches app cli batches ∧ ShowsLine out x.cli x.screen := by
  intro app cli x hhelp htiled hanswered
  refine ⟨receives_inBatches out app _ batches,?_⟩
  obtain ⟨n,hn⟩ := Nat.exists_eq_succ_of_ne_zero hcmd.ne'
  rw [hn] at hrespects hnames hhelp
  have hstart := followed_new rxBufferSize cmdBufferSize historyBufferSize env hn hhistory hzero hnew hp
  have hidle := idle_new rxBufferSize cmdBufferSize historyBufferSize env
    (Nat.zero_lt_of_lt (hfit _ (List.head_mem hsome)))
  obtain ⟨left,hcli,hready,-⟩ := @receives_survivors _ out app cli _ _ false (resting (cells []) 0) batches hidle hfit
  have hlast : x.cli = _ := hcli
  have hscreen : x.screen = _ := (receives_ready out app _ hsome).symm.trans hready
  rw [hlast] at hhelp htiled ⊢
  rw [hscreen]
  obtain ⟨line,hline⟩ := (hstart.typed hp hk hrespects hnames _ ⟨hhelp,htiled⟩ hanswered).shown
  exact hline.shows

/-- A program that answers every command and every request for a help with a line. -/
def briefOutputs : Outputs (List Call) := ⟨ascii "> ",fun _ _ _ => 0x6F :: 0x6B :: lineBreak,fun _ _ _ => lineBreak⟩

def briefArgs (_ : List Call) (_ : List UInt8) (help : Bool) : Option (List (List UInt8)) :=
  some (if help then [] else [ascii "sys"])

theorem proper_brief {args : List Call → List UInt8 → Bool → Option (List (List UInt8))}
    (hargs : ∀ env line help found, args env line help = some found → ∀ name ∈ found, ∀ c ∈ name, isPrintable c = true) :
    Proper briefOutputs (callLog.application (fun _ => fewNames) args) := by
  refine ⟨by decide +kernel,fun _ _ _ => rfl,fun _ _ _ => complete_newline,?_,hargs⟩
  intro env line name hname
  have hprintable : ∀ name ∈ [ascii "show",ascii "q"], ∀ c ∈ name, isPrintable c = true := by decide +kernel
  exact hprintable name (List.mem_of_mem_filter hname)

theorem briefArgs_found (env : List Call) (line : List UInt8) (help : Bool) (found : List (List UInt8))
    (h : briefArgs env line help = some found) : found ⊆ [ascii "sys"] := by
  cases h
  cases help with
  | true => exact List.nil_subset _
  | false => exact List.Subset.refl _

/-- `s`, completed, with a help for the argument, run, recalled and edited in the middle. -/
def shownBatches : List (List UInt8) :=
  [[0x73],[0x09],[0x3F],[0x09],[0x0D],[0x1B,0x5B,0x41],[0x1B,0x5B,0x43],[0x7A],[0x1B,0x5B,0x43]]

/-- The cursor of the terminal ends up behind the line, as far as that of the engine is in front of its end. -/
theorem display_follows_edited :
    let app := callLog.application (fun _ => fewNames) briefArgs
    let cli := newIn (fun x => if x < 72 then 0 else 0xA5) (fun x => if x < 2 ^ 8 then 0 else 0xA5) 64 64 256 []
    let x := shownBatches.foldl (Attached.receive briefOutputs app) ⟨cli,false,resting (cells []) 0⟩
    x.cli.executed = [ascii "show "] ∧ cString x.cli.cmdBuffer 0 = ascii "showz " ∧ x.cli.cursorPos = 5 ∧
      x.screen = resting (cells (ascii "> showz ")) 9 := by
  intro app cli x
  have hcli : x.cli = inBatches app cli shownBatches := receives_inBatches briefOutputs app _ _
  have hlines : x.cli.executed = [ascii "show "] := by
    rw [hcli]
    decide +kernel
  have htext : cString x.cli.cmdBuffer 0 = ascii "showz " := by
    rw [hcli]
    decide +kernel
  have hcursor : x.cli.cursorPos = 5 := by
    rw [hcli]
    decide +kernel
  refine ⟨hlines,htext,hcursor,?_⟩
  have hsize : (64 : BitVec 16).toNat = 64 := by decide
  have hsys : ∀ name ∈ [ascii "sys"], 0 ∉ name ∧ ∀ c ∈ name, isPrintable c = true := by decide +kernel
  have hnames : NamesFit app 63 := ⟨fun env line name hname => completes_few.names env line name hname,
    fun env line help found h name hname => (hsys name (briefArgs_found env line help found h hname)).1⟩
  have hp : Proper briefOutputs app := proper_brief fun env line help found h name hname =>
    (hsys name (briefArgs_found env line help found h hname)).2
  have hfollows := @display_follows _ briefOutputs callLog (fun _ => fewNames) briefArgs 8
    (fun x => if x < 72 then 0 else 0xA5) (fun x => if x < 2 ^ 8 then 0 else 0xA5) 64 64 256 [] (by decide) (by decide) rfl rfl
    (fun x hx => if_pos hx) (fun _ _ _ _ _ => rfl) hnames hp shownBatches (by decide) (by decide)
  rw [hsize] at hfollows
  have hscreen : ShowsLine briefOutputs x.cli x.screen := by
    refine (hfollows ?_ ?_ fun before c _ h => absurd h.2.2.2.2.2 (Option.some_ne_none _)).2
    · show ∀ line ∈ x.cli.executed, HelpInside callLog (64 + 8) line
      rw [hlines]
      have hplaces : ∀ line ∈ [ascii "show "], helpAt line < 64 + 8 := by decide
      exact fun line hline _ _ _ => hplaces line hline
    · show Tiled (2 ^ 8) (storedBy (2 ^ 8) x.cli.executed)
      rw [hlines]
      decide
  unfold ShowsLine at hscreen
  rw [hscreen,htext,hcursor]
  rfl

/-- A character, received and processed. -/
def viewStep (out : Outputs σ) (app : Application σ) (x : Attached σ) (c : UInt8) : Option (Attached σ) := some (x.receive out app [c])

/-- Behind the character the screen shows the line. -/
def ShowsBehind (out : Outputs σ) (app : Application σ) (x : Attached σ) (c : UInt8) : Prop :=
  ShowsLine out (x.receive out app [c]).cli (x.receive out app [c]).screen

variable {out world names args}

theorem showsBehind_iff {rx : FifoBuf × Bool} {init : Bool} {s : Tty} (hp : Proper out (world.application names args))
    (hk : k < 16) (hrespects : Respects world (n + 9)) (hfit : NamesFit (world.application names args) n) (hm : 1 < m)
    (cs : List UInt8) (h : Followed out n k mem hmem cli (Attached.ready out ⟨cli.withRx rx,init,s⟩)) (hidle : Idle rx m)
    (hfitting : Fitting world n k (typed (world.application names args) cli cs).executed) :
    Meets (viewStep out (world.application names args)) (ShowsBehind out (world.application names args))
        ⟨cli.withRx rx,init,s⟩ cs ↔
      Meets (viewStep out (world.application names args)) (fun x c => ¬Unanswered (world.application names args) x.cli c)
        ⟨cli.withRx rx,init,s⟩ cs := by
  induction cs generalizing cli rx init s with
  | nil => exact Iff.rfl
  | cons c cs ih =>
    obtain ⟨left,hreceive,hleft⟩ := @receive_one _ cli rx m init s out (world.application names args) hidle hm c
    have hnext : Fitting world n k (processChar (world.application names args) cli c).executed :=
      hfitting.initial (typed_executed _ cs)
    unfold Meets viewStep ShowsBehind
    simp only [Option.some.injEq,forall_eq']
    rw [hreceive]
    constructor
    case mp =>
      rintro ⟨hshows,hrest⟩
      have hanswered : ¬Unanswered (world.application names args) cli c := by
        intro hvain
        obtain ⟨line,hline⟩ := h.shown
        exact hline.unanswered hvain hshows
      exact ⟨hanswered,(ih (h.step hp hk hrespects hfit hnext hanswered) hleft hfitting).mp hrest⟩
    case mpr =>
      rintro ⟨hanswered,hrest⟩
      have hstep := h.step hp hk hrespects hfit hnext hanswered
      obtain ⟨line,hline⟩ := hstep.shown
      exact ⟨hline.shows,(ih hstep hleft hfitting).mpr hrest⟩

variable (out world names args)

/-- Characters one at a time: the screen shows the line behind every one of them exactly if none asks for a help in vain. -/
theorem display_shows_iff (rxBufferSize cmdBufferSize historyBufferSize : BitVec 16) (env : σ) (hrx : 1 < rxBufferSize.toNat)
    (hcmd : 0 < cmdBufferSize.toNat) (hk : k < 16) (hhistory : historyBufferSize.toNat = 2 ^ k) (hzero : mem 0 = 0)
    (hnew : ∀ x < 2 ^ k, hmem x = 0) (hrespects : Respects world (cmdBufferSize.toNat + 8))
    (hnames : NamesFit (world.application names args) (cmdBufferSize.toNat - 1))
    (hp : Proper out (world.application names args)) (cs : List UInt8) :
    let app := world.application names args
    let cli := newIn mem hmem rxBufferSize cmdBufferSize historyBufferSize env
    (∀ line ∈ (oneByOne app cli cs).executed, HelpInside world (cmdBufferSize.toNat + 8) line) →
      Tiled (2 ^ k) (storedBy (2 ^ k) (oneByOne app cli cs).executed) →
        (Meets (viewStep out app) (ShowsBehind out app) ⟨cli,false,resting (cells []) 0⟩ cs ↔
          Meets (viewStep out app) (fun x c => ¬Unanswered app x.cli c) ⟨cli,false,resting (cells []) 0⟩ cs) := by
  intro app cli hhelp htiled
  obtain ⟨n,hn⟩ := Nat.exists_eq_succ_of_ne_zero hcmd.ne'
  rw [hn] at hrespects hnames hhelp
  have hstart := followed_new rxBufferSize cmdBufferSize historyBufferSize env hn hhistory hzero hnew hp
  have hidle := idle_new rxBufferSize cmdBufferSize historyBufferSize env (Nat.zero_lt_of_lt hrx)
  obtain ⟨left,hcli,-⟩ := oneByOne_typed app cli cs hidle hrx
  rw [hcli] at hhelp htiled
  exact showsBehind_iff hp hk hrespects hnames hrx cs hstart hidle ⟨hhelp,htiled⟩

/-- Nobody answers for the arguments of `show`: the question mark is taken out of the line and stays on the screen. -/
theorem display_shows_iff_asked :
    let app := callLog.application (fun _ => fewNames) fun _ _ _ => none
    let x : Attached (List Call) := ⟨newIn (fun _ => 0) (fun _ => 0) 64 64 256 [],false,resting (cells []) 0⟩
    Meets (viewStep briefOutputs app) (ShowsBehind briefOutputs app) x (ascii "show ?") ∧
      ¬Meets (viewStep briefOutputs app) (ShowsBehind briefOutputs app) x (ascii "show ?" ++ [0x09]) := by
  intro app x
  have hnames : NamesFit app 63 :=
    ⟨fun env line name hname => completes_few.names env line name hname,fun _ _ _ _ h => by cases h⟩
  have hp : Proper briefOutputs app := proper_brief fun _ _ _ _ h => by cases h
  have hshows : ∀ cs, (oneByOne app x.cli cs).executed = [] →
      (Meets (viewStep briefOutputs app) (ShowsBehind briefOutputs app) x cs ↔
        Meets (viewStep briefOutputs app) (fun x c => ¬Unanswered app x.cli c) x cs) := by
    intro cs hnone
    refine @display_shows_iff _ briefOutputs callLog (fun _ => fewNames) (fun _ _ _ => none) 8 (fun _ => 0) (fun _ => 0)
      64 64 256 [] (by decide) (by decide) (by decide) rfl rfl (fun _ _ => rfl) (fun _ _ _ _ _ => rfl) hnames hp cs ?_ ?_
    · show ∀ line ∈ (oneByOne app x.cli cs).executed, _
      rw [hnone]
      exact fun _ hmem => absurd hmem List.not_mem_nil
    · show Tiled (2 ^ 8) (storedBy (2 ^ 8) (oneByOne app x.cli cs).executed)
      rw [hnone]
      decide
  constructor
  · exact (hshows _ (by decide +kernel)).mpr (by decide +kernel)
  · exact fun h => absurd ((hshows _ (by decide +kernel)).mp h) (by decide +kernel)

end Follows

end EmbedTemplate.Cli.Display
