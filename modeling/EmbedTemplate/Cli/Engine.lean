import EmbedTemplate.Cli.History

/-! # The command line engine

The input side of `embedded_cli.c`: received characters wait in a FIFO until
`embeddedCliProcess` takes them one by one, through the escape sequences, the control
characters and the editing of the command buffer. What is printed is left out. The commands of
the application and its completions are parameters.
-/
namespace EmbedTemplate.Cli
open Bytes Circular

section Fifo

/-- `FifoBuf` -/
structure FifoBuf where
  buf : ℕ → UInt8
  front : ℕ
  back : ℕ
  size : ℕ

def fifoBufAvailable (f : FifoBuf) : ℕ :=
  if f.back ≥ f.front then u16 (f.back - f.front) else u16 (f.size - f.front + f.back)

def fifoBufPop (f : FifoBuf) : UInt8 × FifoBuf :=
  if f.front ≠ f.back then (f.buf f.front,{ f with front := u16 (f.front + 1) % f.size }) else (0,f)

def fifoBufPush (f : FifoBuf) (a : UInt8) : FifoBuf × Bool :=
  let newBack := u16 (f.back + 1) % f.size
  if newBack ≠ f.front then ({ f with buf := Function.update f.buf f.back a, back := newBack },true) else (f,false)

def FifoBuf.flush (f : FifoBuf) : FifoBuf := { f with front := f.back }

end Fifo

/-- The commands and completions of an application with a state of its own. The effect of a command line is what is
behind the history in `parseCommand`, on the application and on the command buffer; completions are the names that a
callback inserts. -/
structure Application (σ : Type*) where
  execute : σ → (ℕ → UInt8) → ℕ → σ × (ℕ → UInt8)
  getAutocompletedCommand : σ → List UInt8 → List (List UInt8)
  argsCompletion : σ → List UInt8 → Bool → Option (List (List UInt8))

/-- `EmbeddedCliImpl`, with the flags that matter for the input, the state of the application and the command lines
executed so far. -/
@[ext] structure Engine (σ : Type*) where
  history : CliHistory
  rxBuffer : FifoBuf
  cmdBuffer : ℕ → UInt8
  cmdSize : ℕ
  cmdMaxSize : ℕ
  inputLineLength : ℕ
  overflow : Bool
  escapeMode : Bool
  cursorPos : ℕ
  lastChar : UInt8
  env : σ
  executed : List (List UInt8)

/-- A string at a place of the memory. -/
def cString (buf : ℕ → UInt8) (pos : ℕ) : List UInt8 := Circular.get buf pos (strlen buf pos)

section Editing
variable {σ : Type*} (app : Application σ) (cli : Engine σ)

def embeddedCliRefresh : Engine σ :=
  { cli with
    cursorPos := cli.cmdSize
    inputLineLength := cli.cmdSize
    cmdBuffer := Function.update cli.cmdBuffer cli.cmdSize 0
    lastChar := 0
    rxBuffer := cli.rxBuffer.flush }

def clearCurrentLine : Engine σ := { cli with inputLineLength := 0, cursorPos := 0 }

def navigateHistory (navigateUp : Bool) : Engine σ :=
  if cli.history.itemsCount = 0 then cli
  else if navigateUp ∧ cli.history.current ≥ cli.history.itemsCount then cli
  else if ¬navigateUp ∧ cli.history.current = 0 then cli
  else
    let current := if navigateUp then u16 (cli.history.current + 1) else cli.history.current - 1
    let cli := clearCurrentLine { cli with history := { cli.history with current := current } }
    let item :=
      if current > 0 then
        match historyGet cli.history current with
        | none => []
        | some pos => cString cli.history.buf pos
      else []
    let len := u16 item.length
    { cli with
      cmdBuffer := put cli.cmdBuffer 0 (item.take len ++ [0])
      cmdSize := len
      inputLineLength := len
      cursorPos := len }

/-- Up and down -/
def onVerticalArrow (c : UInt8) : Engine σ := if c = 0x41 ∨ c = 0x42 then navigateHistory cli (c = 0x41) else cli

/-- Right -/
def onRightArrow (c : UInt8) : Engine σ :=
  if c = 0x43 ∧ cli.cursorPos > 0 then { cli with cursorPos := cli.cursorPos - 1 } else cli

/-- Left -/
def onLeftArrow (c : UInt8) : Engine σ :=
  if c = 0x44 ∧ cli.cursorPos < strlen cli.cmdBuffer 0 then { cli with cursorPos := u16 (cli.cursorPos + 1) } else cli

def onEscapedInput (c : UInt8) : Engine σ :=
  if 64 ≤ c ∧ c ≤ 126 then
    let cli := { cli with escapeMode := false }
    onLeftArrow (onRightArrow (onVerticalArrow cli c) c) c
  else cli

/-- The stores of a character at the end of the line. -/
def appendChar (c : UInt8) : Engine σ :=
  let pos := cli.cursorPos
  let size := u16 (pos + 1)
  { cli with
    cmdBuffer := Function.update (Function.update cli.cmdBuffer pos c) size 0
    cmdSize := size
    inputLineLength := size
    cursorPos := size
    lastChar := 0 }

/-- The stores of a character in front of another one. -/
def insertChar (c : UInt8) : Engine σ :=
  let pos := cli.cursorPos
  let moved := put cli.cmdBuffer (pos + 1) (Circular.get cli.cmdBuffer pos (cli.inputLineLength - pos))
  { cli with cmdBuffer := Function.update moved pos c, cmdSize := u16 (cli.cmdSize + 1) }

def onCharInput (c : UInt8) : Engine σ :=
  if cli.cmdSize + 1 ≥ cli.cmdMaxSize then cli
  else
    let pos := cli.cursorPos
    if pos ≥ cli.inputLineLength then
      let cli := appendChar cli c
      if pos = 0 ∨ cli.cmdBuffer (pos - 1) = 0x20 then embeddedCliRefresh cli else cli
    else embeddedCliRefresh (insertChar cli c)

/-- `embeddedCliCompletion`, back from the cursor to a blank. -/
def tokenStart (buf : ℕ → UInt8) : ℕ → ℕ
  | 0 => 0
  | pos + 1 => if buf pos = 0x20 then pos + 1 else tokenStart buf pos

def embeddedCliCompletion (name : List UInt8) : Engine σ :=
  let start := tokenStart cli.cmdBuffer cli.cursorPos
  if start + name.length + 2 ≥ cli.cmdMaxSize then cli
  else
    let size := u16 (u16 (start + name.length) + 1)
    { cli with cmdBuffer := put cli.cmdBuffer start (name ++ [0x20,0]), cmdSize := size }

/-- `getLongestCommonPrefix` -/
def longestCommonPrefix : List (List UInt8) → List UInt8
  | [] => []
  | name :: names => (name.inits.filter fun start => names.all fun other => start.isPrefixOf other).getLast?.getD []

/-- `embeddedCliPrint`, with the line printed again behind the text. -/
def embeddedCliPrint : Engine σ := { cli with inputLineLength := cli.cmdSize }

/-- The completion of a command name. -/
def completeCommand : Engine σ :=
  let line := cString cli.cmdBuffer 0
  match app.getAutocompletedCommand cli.env line with
  | [] => cli
  | [name] => embeddedCliCompletion cli name
  | names =>
    let start := longestCommonPrefix names
    let cli :=
      if start.length > line.length then
        { cli with cmdBuffer := put cli.cmdBuffer 0 (start ++ [0]), cmdSize := u16 start.length }
      else cli
    embeddedCliPrint cli

def isHelpRequest : Bool := decide (cli.cmdSize > 0) && cli.cmdBuffer (cli.cmdSize - 1) == 0x3F

/-- The question mark of a help request is cut off. -/
def cutHelp : Engine σ :=
  if isHelpRequest cli then
    let size := cli.cmdSize - 1
    { cli with
      cmdSize := size
      cmdBuffer := Function.update cli.cmdBuffer size 0
      cursorPos := size
      inputLineLength := size }
  else cli

/-- The completion of an argument, for a command that has one. -/
def completeArgument (help : Bool) : Engine σ :=
  match app.argsCompletion cli.env (cString cli.cmdBuffer 0) help with
  | none => cli
  | some names => embeddedCliRefresh (names.foldl embeddedCliCompletion cli)

def onAutocompleteRequest : Engine σ :=
  if cli.cmdSize = 0 then cli
  else if 0x20 ∉ Circular.get cli.cmdBuffer 0 cli.cmdSize then embeddedCliRefresh (completeCommand app cli)
  else completeArgument app (cutHelp cli) (isHelpRequest cli)

/-- `parseCommand` -/
def Engine.parseCommand : Engine σ :=
  let line := Circular.get cli.cmdBuffer 0 cli.cmdSize
  if line.all (· == 0x20) then cli
  else
    let (env,cmdBuffer) := app.execute cli.env cli.cmdBuffer cli.cmdSize
    { cli with
      history := (historyPut cli.history (cString cli.cmdBuffer 0)).1
      env := env
      cmdBuffer := cmdBuffer
      executed := cli.executed ++ [line] }

/-- A nonempty line at its end. -/
def submitLine : Engine σ :=
  if cli.cmdSize > 0 then Engine.parseCommand app { cli with cmdBuffer := Function.update cli.cmdBuffer cli.cmdSize 0 } else cli

/-- A new line. -/
def freshLine : Engine σ :=
  { cli with
    cmdSize := 0
    cmdBuffer := Function.update cli.cmdBuffer 0 0
    inputLineLength := 0
    history := { cli.history with current := 0 }
    cursorPos := 0 }

/-- A 16-bit number minus one. -/
def oneLess (x : ℕ) : ℕ := u16 (x + 2 ^ 16 - 1)

/-- The stores of a backspace. -/
def deleteChar : Engine σ :=
  let moved :=
    if cli.cursorPos < cli.inputLineLength then
      put cli.cmdBuffer (cli.cursorPos - 1) (Circular.get cli.cmdBuffer cli.cursorPos (cli.inputLineLength - cli.cursorPos))
    else cli.cmdBuffer
  let length := oneLess cli.inputLineLength
  { cli with
    cursorPos := cli.cursorPos - 1
    inputLineLength := length
    cmdSize := length
    cmdBuffer := Function.update moved length 0 }

def onControlInput (c : UInt8) : Engine σ :=
  if (cli.lastChar = 0x0D ∧ c = 0x0A) ∨ (cli.lastChar = 0x0A ∧ c = 0x0D) then cli
  else if c = 0x0D ∨ c = 0x0A then freshLine (submitLine app cli)
  else if (c = 0x08 ∨ c = 0x7F) ∧ cli.cursorPos > 0 then
    let cli := deleteChar cli
    if cli.cursorPos = cli.inputLineLength then cli else embeddedCliRefresh cli
  else if c = 0x09 then onAutocompleteRequest app (if cli.lastChar = 0x09 then { cli with lastChar := 0 } else cli)
  else cli

end Editing

def isControlChar (c : UInt8) : Bool := c = 0x0D ∨ c = 0x0A ∨ c = 0x08 ∨ c = 0x09 ∨ c = 0x7F

def isDisplayableChar (c : UInt8) : Bool := 32 ≤ c ∧ c ≤ 126

section Process
variable {σ : Type*} (app : Application σ)

def handleChar (cli : Engine σ) (c : UInt8) : Engine σ :=
  if cli.escapeMode then onEscapedInput cli c
  else if cli.lastChar = 0x1B ∧ c = 0x5B then { cli with escapeMode := true }
  else if isControlChar c then onControlInput app cli c
  else if isDisplayableChar c then onCharInput cli c
  else cli

/-- The body of the loop of `embeddedCliProcess`, behind the pop. -/
def processChar (cli : Engine σ) (c : UInt8) : Engine σ := { handleChar app cli c with lastChar := c }

/-- The loop, for as many characters as there are. -/
def processLoop : ℕ → Engine σ → Engine σ
  | 0, cli => cli
  | fuel + 1, cli =>
    if fifoBufAvailable cli.rxBuffer = 0 then cli
    else
      let (c,rxBuffer) := fifoBufPop cli.rxBuffer
      processLoop fuel (processChar app { cli with rxBuffer := rxBuffer } c)

def embeddedCliReceiveChar (cli : Engine σ) (c : UInt8) : Engine σ :=
  let (rxBuffer,stored) := fifoBufPush cli.rxBuffer c
  if stored then { cli with rxBuffer := rxBuffer } else { cli with overflow := true }

def embeddedCliProcess (cli : Engine σ) : Engine σ :=
  let cli := processLoop app (fifoBufAvailable cli.rxBuffer) cli
  if cli.overflow then { cli with cmdSize := 0, cmdBuffer := Function.update cli.cmdBuffer 0 0, overflow := false } else cli

/-- `embeddedCliNew`, in memory that is zeroed. -/
def embeddedCliNew (rxBufferSize cmdBufferSize historyBufferSize : BitVec 16) (env : σ) : Engine σ where
  history := .new (fun _ => 0) historyBufferSize.toNat
  rxBuffer := ⟨fun _ => 0,0,0,rxBufferSize.toNat⟩
  cmdBuffer := fun _ => 0
  cmdSize := 0
  cmdMaxSize := cmdBufferSize.toNat
  inputLineLength := 0
  overflow := false
  escapeMode := false
  cursorPos := 0
  lastChar := 0
  env := env
  executed := []

/-- The engine behind batches of characters, each received as a whole and then processed. -/
def inBatches (cli : Engine σ) (batches : List (List UInt8)) : Engine σ :=
  batches.foldl (fun cli batch => embeddedCliProcess app (batch.foldl embeddedCliReceiveChar cli)) cli

/-- The engine behind characters that are processed one at a time. -/
def oneByOne (cli : Engine σ) (cs : List UInt8) : Engine σ := inBatches app cli (cs.map fun c => [c])

end Process

end EmbedTemplate.Cli
