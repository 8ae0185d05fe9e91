import EmbedTemplate.Cli.Dialogue

/-! # A whole session at the terminal

Keys of every kind: characters, backspaces, the history up and down, completion, and the return key. A `Terminal` is
what the user has to know of the engine: the line, the commands that can be recalled and the application. The engine
with `parseCommand` in it follows it as long as the history has room for its commands.
-/
namespace EmbedTemplate.Cli.CommandLine
open Bytes Circular LineEditor Tokens MultiString Bindings

section Terminal

/-- The keys of a session. -/
inductive Stroke
  | printable (c : UInt8) (h : isDisplayableChar c = true)
  | backspace (c : UInt8) (h : c = 0x08 ∨ c = 0x7F)
  | up
  | down
  | tab
  | enter

/-- What a terminal sends. -/
def Stroke.codes : Stroke → List UInt8
  | printable c _ => [c]
  | backspace c _ => [c]
  | up => [0x1B,0x5B,0x41]
  | down => [0x1B,0x5B,0x42]
  | tab => [0x09]
  | enter => [0x0D]

/-- The application, the line, the commands to recall with the most recent one first, and which of them is recalled,
0 being none. -/
structure Terminal (σ : Type*) where
  env : σ
  line : List UInt8
  stored : List (List UInt8)
  recalled : ℕ

/-- The commands to recall behind a command: one that fits is added, but not behind itself. -/
def keep (size : ℕ) (stored : List (List UInt8)) (line : List UInt8) : List (List UInt8) :=
  if line.length + 1 > size ∨ stored.head? = some line then stored else line :: stored

/-- A line up to its last blank. -/
def lead (line : List UInt8) : List UInt8 := (line.reverse.dropWhile fun c => !isBlank c).reverse

/-- The last word of a line is completed, if there is room for it and a blank. -/
def completeWord (n : ℕ) (line name : List UInt8) : List UInt8 :=
  if (lead line).length + name.length + 1 < n then lead line ++ (name ++ [charBlank]) else line

/-- The completion of a command: as a word when there is one only, else as far as the names agree. -/
def completeName (n : ℕ) (line : List UInt8) : List (List UInt8) → List UInt8
  | [] => line
  | [name] => completeWord n line name
  | names => if line.length < (longestCommonPrefix names).length then longestCommonPrefix names else line

/-- A question mark at the end asks for help and is taken away. -/
def asksCompletion (line : List UInt8) : Bool := line.getLast? == some 0x3F

def cutQuestion (line : List UInt8) : List UInt8 := if asksCompletion line then line.dropLast else line

namespace Terminal
variable {σ : Type*} (world : World σ) (names : σ → List UInt8 → List (List UInt8))
  (args : σ → List UInt8 → Bool → Option (List (List UInt8))) (n size : ℕ) (t : Terminal σ)

def recallAt (i : ℕ) : Terminal σ := { t with recalled := i, line := if i = 0 then [] else (t.stored[i - 1]?).getD [] }

def older : Terminal σ := if t.recalled < min t.stored.length maxHistoryItems then t.recallAt (t.recalled + 1) else t

def newer : Terminal σ := if t.recalled = 0 then t else t.recallAt (t.recalled - 1)

/-- The line behind the tabulator key. -/
def completed : List UInt8 :=
  if t.line = [] then []
  else if 0x20 ∉ t.line then completeName n t.line (names t.env t.line)
  else ((args t.env (cutQuestion t.line) (asksCompletion t.line)).getD []).foldl (completeWord n) (cutQuestion t.line)

/-- What the return key does. -/
structure Entered (t' : Terminal σ) : Prop where
  line : t'.line = []
  recalled : t'.recalled = 0
  stored : t'.stored = if nameOf t.line = [] then t.stored else keep size t.stored t.line
  served : Serves world t.env [t.line] t'.env

/-- What a key does. -/
def Press : Stroke → Terminal σ → Prop
  | .printable c _, t' => t' = { t with line := if t.line.length < n then t.line ++ [c] else t.line }
  | .backspace _ _, t' => t' = { t with line := t.line.dropLast }
  | .up, t' => t' = t.older
  | .down, t' => t' = t.newer
  | .tab, t' => t' = { t with line := t.completed names args n }
  | .enter, t' => t.Entered world size t'

/-- A session from one state to another. -/
def Session : Terminal σ → List Stroke → Terminal σ → Prop
  | t, [], t' => t' = t
  | t, stroke :: strokes, t' => ∃ u, t.Press world names args n size stroke u ∧ Session u strokes t'

end Terminal

/-- The names that an application completes with: no byte of them ends a string, those of the commands fit into the
line, and a callback inserts one at most. -/
structure Completes {σ : Type*} (names : σ → List UInt8 → List (List UInt8))
    (args : σ → List UInt8 → Bool → Option (List (List UInt8))) (n : ℕ) : Prop where
  names : ∀ env line, ∀ name ∈ names env line, 0 ∉ name ∧ name.length ≤ n
  args : ∀ env line help found, args env line help = some found → found.length ≤ 1 ∧ ∀ name ∈ found, 0 ∉ name

end Terminal

section Shown
variable {σ : Type*} {n : ℕ} {cli : Engine σ} {line name : List UInt8} (app : Application σ)

/-- The engine between two keys, with a line and the cursor at its end. -/
def Shows (n : ℕ) (cli : Engine σ) (line : List UInt8) : Prop := ∃ e : Editor UInt8 n, Ready cli e ∧ e.line = line

/-- The parts of the engine that no key of a line changes. -/
structure Sized (n : ℕ) (cli : Engine σ) : Prop where
  maxSize : cli.cmdMaxSize - 1 = n
  small : n + 1 < 2 ^ 16
  noEscape : cli.escapeMode = false
  noIntroducer : cli.lastChar ≠ 0x1B

theorem shows_of (hs : Sized n cli) (hline : Spells cli.cmdBuffer line) (hsize : cli.cmdSize = line.length)
    (hlength : cli.inputLineLength = line.length) (hcursor : cli.cursorPos = line.length) (hfits : line.length ≤ n)
    (hnul : 0 ∉ line) : Shows n cli line :=
  ⟨⟨line,line.length,le_rfl,hfits⟩,
    ⟨⟨hline,hsize,hlength,hcursor⟩,rfl,hs.maxSize,hs.small,hs.noEscape,hs.noIntroducer,hnul⟩,rfl⟩

theorem Shows.sized (h : Shows n cli line) : Sized n cli := by
  obtain ⟨e,hready,-⟩ := h
  exact ⟨hready.maxSize,hready.small,hready.noEscape,hready.noIntroducer⟩

theorem Shows.spells (h : Shows n cli line) : Spells cli.cmdBuffer line := by
  obtain ⟨e,hready,rfl⟩ := h
  exact hready.line

theorem Shows.size (h : Shows n cli line) : cli.cmdSize = line.length := by
  obtain ⟨e,hready,rfl⟩ := h
  exact hready.size

theorem Shows.cursor (h : Shows n cli line) : cli.cursorPos = line.length := by
  obtain ⟨e,hready,rfl⟩ := h
  exact hready.cursor.trans hready.atEnd

theorem Shows.length (h : Shows n cli line) : cli.inputLineLength = line.length := by
  obtain ⟨e,hready,rfl⟩ := h
  exact hready.length

theorem Shows.fits (h : Shows n cli line) : line.length ≤ n := by
  obtain ⟨e,-,rfl⟩ := h
  exact e.fits

theorem Shows.noNul (h : Shows n cli line) : 0 ∉ line := by
  obtain ⟨e,hready,rfl⟩ := h
  exact hready.noNul

theorem Shows.small (h : Shows n cli line) : line.length < 2 ^ 16 := by
  have hfits := h.fits
  have hsmall := h.sized.small
  omega

theorem Shows.text (h : Shows n cli line) : cString cli.cmdBuffer 0 = line := cString_eq h.spells h.noNul h.small

theorem Shows.read (h : Shows n cli line) : Circular.get cli.cmdBuffer 0 cli.cmdSize = line := by
  rw [h.size]
  exact Spells.front (by rw [List.append_nil]; exact h.spells)

/-- Printing a line again brings the cursor to its end. -/
theorem shows_refresh (hs : Sized n cli) (hline : Spells cli.cmdBuffer line) (hsize : cli.cmdSize = line.length)
    (hfits : line.length ≤ n) (hnul : 0 ∉ line) : Shows n (embeddedCliRefresh cli) line := by
  have hput := (show Spells cli.cmdBuffer (line ++ []) by rwa [List.append_nil]).put []
  rw [List.append_nil,← hsize] at hput
  exact shows_of ⟨hs.maxSize,hs.small,hs.noEscape,zero_ne_escape⟩ hput hsize hsize hsize hfits hnul

/-- The cursor at the end of a line goes back to behind its last blank. -/
theorem tokenStart_eq {buf : ℕ → UInt8} (hline : Circular.get buf 0 line.length = line) :
    tokenStart buf line.length = (lead line).length := by
  induction line using List.reverseRecOn with
  | nil => rfl
  | append_singleton line c ih =>
    rw [get_append] at hline
    obtain ⟨hfront,hlast⟩ := hline
    have hc : buf line.length = c := by
      rw [Nat.zero_add] at hlast
      exact List.head_eq_of_cons_eq hlast
    rw [List.length_append,List.length_singleton,tokenStart,hc]
    unfold lead
    rw [List.reverse_append,List.reverse_singleton,List.singleton_append,List.dropWhile_cons]
    by_cases hblank : c = 0x20
    · rw [if_pos hblank,if_neg (by simp [isBlank,charBlank,hblank])]
      simp
    · rw [if_neg hblank,if_pos (by simp [isBlank,charBlank,hblank])]
      exact ih hfront

theorem lead_append (line : List UInt8) : ∃ word, line = lead line ++ word := by
  refine ⟨(line.reverse.takeWhile fun c => !isBlank c).reverse,?_⟩
  unfold lead
  rw [← List.reverse_append,List.takeWhile_append_dropWhile,List.reverse_reverse]

/-- A completed word, as the callbacks of the application leave it. -/
structure Written (n : ℕ) (cli next : Engine σ) (line : List UInt8) : Prop where
  sized : Sized n next
  spells : Spells next.cmdBuffer line
  size : next.cmdSize = line.length
  fits : line.length ≤ n
  noNul : 0 ∉ line
  history : next.history = cli.history
  env : next.env = cli.env

theorem Shows.written (h : Shows n cli line) : Written n cli cli line :=
  ⟨h.sized,h.spells,h.size,h.fits,h.noNul,rfl,rfl⟩

theorem Written.refresh {next : Engine σ} (h : Written n cli next line) : Shows n (embeddedCliRefresh next) line :=
  shows_refresh h.sized h.spells h.size h.fits h.noNul

theorem Shows.completion (h : Shows n cli line) (hname : 0 ∉ name) :
    Written n cli (embeddedCliCompletion cli name) (completeWord n line name) := by
  have hstart : tokenStart cli.cmdBuffer cli.cursorPos = (lead line).length := by
    rw [h.cursor]
    exact tokenStart_eq (by rw [← h.size]; exact h.read)
  have hmax := h.sized.maxSize
  have hsmall := h.sized.small
  unfold embeddedCliCompletion completeWord
  dsimp only
  rw [hstart]
  by_cases hroom : (lead line).length + name.length + 1 < n
  · rw [if_neg (by omega),if_pos hroom]
    obtain ⟨word,hword⟩ := lead_append line
    have hspells := h.spells
    rw [hword] at hspells
    have hsize : u16 (u16 ((lead line).length + name.length) + 1) = (lead line ++ (name ++ [charBlank])).length := by
      rw [u16_of_lt (show (lead line).length + name.length < 2 ^ 16 by omega),u16_of_lt (by omega)]
      simp [Nat.add_assoc]
    have hput := hspells.put (name ++ [charBlank])
    refine ⟨⟨hmax,hsmall,h.sized.noEscape,h.sized.noIntroducer⟩,?_,hsize,?_,?_,rfl,rfl⟩
    · rwa [List.append_assoc] at hput
    · simp only [List.length_append,List.length_singleton]
      omega
    · have hfront : 0 ∉ lead line := fun hmem => h.noNul (by rw [hword]; exact List.mem_append_left _ hmem)
      simp [hfront,hname,charBlank]
  · rw [if_pos (by omega),if_neg hroom]
    exact h.written

theorem longestCommonPrefix_isPrefix (name : List UInt8) (names : List (List UInt8)) :
    longestCommonPrefix (name :: names) <+: name := by
  change (name.inits.filter fun start => names.all fun other => start.isPrefixOf other).getLast?.getD [] <+: name
  cases hlast : (name.inits.filter fun start => names.all fun other => start.isPrefixOf other).getLast? with
  | none => exact List.nil_prefix
  | some start => exact (List.mem_inits _ _).mp (List.mem_of_mem_filter (List.mem_of_getLast? hlast))

/-- A longer text in the place of the line. -/
theorem Shows.replaced (h : Shows n cli line) {text : List UInt8} (hfits : text.length ≤ n) (hnul : 0 ∉ text) :
    Written n cli { cli with cmdBuffer := put cli.cmdBuffer 0 (text ++ [0]), cmdSize := u16 text.length } text := by
  have hput := (show Spells cli.cmdBuffer ([] ++ line) from h.spells).put text
  have hsmall := h.sized.small
  exact ⟨⟨h.sized.maxSize,hsmall,h.sized.noEscape,h.sized.noIntroducer⟩,hput,u16_of_lt (by omega),hfits,hnul,rfl,rfl⟩

theorem Shows.completeCommand (h : Shows n cli line) (hnames : ∀ name ∈ app.getAutocompletedCommand cli.env line,
      0 ∉ name ∧ name.length ≤ n) :
    Written n cli (completeCommand app cli) (completeName n line (app.getAutocompletedCommand cli.env line)) := by
  unfold Cli.completeCommand
  rw [h.text]
  dsimp only
  rcases hfound : app.getAutocompletedCommand cli.env line with _ | ⟨name,_ | ⟨other,names⟩⟩
  · exact h.written
  · exact h.completion (hnames name (by simp [hfound])).1
  · have hstart := longestCommonPrefix_isPrefix name (other :: names)
    obtain ⟨hnul,hfits⟩ := hnames name (by simp [hfound])
    unfold completeName
    dsimp only
    by_cases hlonger : line.length < (longestCommonPrefix (name :: other :: names)).length
    · rw [if_pos hlonger,if_pos hlonger]
      have hreplaced := h.replaced (hstart.length_le.trans hfits) fun hmem => hnul (hstart.subset hmem)
      exact ⟨⟨hreplaced.sized.maxSize,hreplaced.sized.small,hreplaced.sized.noEscape,hreplaced.sized.noIntroducer⟩,
        hreplaced.spells,hreplaced.size,hreplaced.fits,hreplaced.noNul,rfl,rfl⟩
    · rw [if_neg hlonger,if_neg hlonger]
      exact ⟨⟨h.sized.maxSize,h.sized.small,h.sized.noEscape,h.sized.noIntroducer⟩,h.spells,h.size,h.fits,h.noNul,rfl,rfl⟩

theorem Shows.isHelpRequest (h : Shows n cli line) : isHelpRequest cli = asksCompletion line := by
  unfold Cli.isHelpRequest asksCompletion
  rcases List.eq_nil_or_concat' line with rfl | ⟨front,c,rfl⟩
  · rw [h.size]
    rfl
  · have hread := h.read
    rw [h.size,get_append] at hread
    have hlast := List.head_eq_of_cons_eq hread.2
    rw [Nat.zero_add] at hlast
    rw [h.size,List.length_append,List.length_singleton,Nat.add_sub_cancel,hlast,List.getLast?_concat]
    simp

theorem Shows.cutHelp (h : Shows n cli line) : Shows n (cutHelp cli) (cutQuestion line) := by
  unfold Cli.cutHelp cutQuestion
  rw [h.isHelpRequest]
  split
  case isTrue hasks =>
    obtain ⟨front,rfl⟩ : ∃ front, line = front ++ [0x3F] := by
      unfold asksCompletion at hasks
      exact ⟨line.dropLast,(List.dropLast_append_getLast? _ (beq_iff_eq.mp hasks)).symm⟩
    have hput := h.spells.put []
    rw [List.append_nil] at hput
    have hsize : cli.cmdSize - 1 = front.length := by
      rw [h.size,List.length_append,List.length_singleton,Nat.add_sub_cancel]
    have hfits := h.fits
    rw [List.length_append,List.length_singleton] at hfits
    rw [List.dropLast_concat]
    dsimp only
    rw [hsize]
    exact shows_of ⟨h.sized.maxSize,h.sized.small,h.sized.noEscape,h.sized.noIntroducer⟩ hput rfl rfl rfl (by omega)
      fun hmem => h.noNul (List.mem_append_left _ hmem)
  case isFalse => exact h

theorem cutHelp_keeps (cli : Engine σ) : (cutHelp cli).history = cli.history ∧ (cutHelp cli).env = cli.env := by
  unfold Cli.cutHelp
  split
  · exact ⟨rfl,rfl⟩
  · exact ⟨rfl,rfl⟩

end Shown

section Completed
variable {σ : Type*} {n : ℕ} {cli : Engine σ} {t : Terminal σ} {world : World σ}
  {names : σ → List UInt8 → List (List UInt8)} {args : σ → List UInt8 → Bool → Option (List (List UInt8))}

/-- The tabulator key completes the line. -/
theorem Shows.autocomplete (h : Shows n cli t.line) (henv : cli.env = t.env) (hc : Completes names args n) :
    Shows n (onAutocompleteRequest (world.application names args) cli) (t.completed names args n) ∧
      (onAutocompleteRequest (world.application names args) cli).history = cli.history ∧
      (onAutocompleteRequest (world.application names args) cli).env = cli.env := by
  unfold onAutocompleteRequest Terminal.completed
  by_cases hempty : t.line = []
  · rw [if_pos (by rw [h.size,hempty]; rfl),if_pos hempty]
    rw [hempty] at h
    exact ⟨h,rfl,rfl⟩
  rw [if_neg (by rw [h.size]; exact fun hzero => hempty (List.length_eq_zero_iff.mp hzero)),if_neg hempty,h.read]
  by_cases hplain : 0x20 ∉ t.line
  · rw [if_pos hplain,if_pos hplain,← henv]
    have hdone := h.completeCommand (world.application names args) (hc.names cli.env t.line)
    exact ⟨hdone.refresh,hdone.history,hdone.env⟩
  · rw [if_neg hplain,if_neg hplain,h.isHelpRequest]
    have hcut := h.cutHelp
    obtain ⟨hhistory,hkept⟩ := cutHelp_keeps cli
    unfold completeArgument World.application
    dsimp only
    rw [hcut.text,hkept,henv]
    cases hfound : args t.env (cutQuestion t.line) (asksCompletion t.line) with
    | none => exact ⟨hcut,hhistory,hkept.trans henv⟩
    | some found =>
      obtain ⟨hone,hnul⟩ := hc.args _ _ _ found hfound
      rcases found with _ | ⟨name,_ | ⟨other,rest⟩⟩
      · exact ⟨hcut.written.refresh,hhistory,hkept.trans henv⟩
      · have hdone := hcut.completion (hnul name (List.mem_singleton_self name))
        exact ⟨hdone.refresh,hdone.history.trans hhistory,(hdone.env.trans hkept).trans henv⟩
      · simp at hone

end Completed

section Recalled
variable {σ : Type*} {n k : ℕ} {mem : ℕ → UInt8} {cli : Engine σ} {t : Terminal σ} {stored : List (List UInt8)}

/-- The line at a place in the history. -/
def itemAt (history : CliHistory) (current : ℕ) : List UInt8 :=
  if current > 0 then
    match historyGet { history with current := current } current with
    | none => []
    | some pos => cString history.buf pos
  else []

/-- The rest of `navigateHistory` from a new place in the history on. -/
def showItem (cli : Engine σ) (current : ℕ) : Engine σ :=
  let item := itemAt cli.history current
  let cli := clearCurrentLine { cli with history := { cli.history with current := current } }
  let len := u16 item.length
  { cli with
    cmdBuffer := put cli.cmdBuffer 0 (item.take len ++ [0])
    cmdSize := len
    inputLineLength := len
    cursorPos := len }

/-- The history of the engine holds the commands to recall, and each fits into the line. -/
structure Remembers (n k : ℕ) (mem : ℕ → UInt8) (cli : Engine σ) (t : Terminal σ) : Prop where
  storing : Storing k mem cli.history t.stored
  tiled : Tiled (2 ^ k) t.stored
  current : cli.history.current = t.recalled
  counted : t.recalled ≤ min t.stored.length maxHistoryItems
  fits : ∀ str ∈ t.stored, str.length ≤ n

theorem itemAt_stored {history : CliHistory} (hs : Storing k mem history stored) (hk : k < 16) (ht : Tiled (2 ^ k) stored)
    (hsmall : ∀ str ∈ stored, str.length < 2 ^ 16) {i : ℕ} (hi : i ≤ min stored.length maxHistoryItems) :
    itemAt history i = if i = 0 then [] else (stored[i - 1]?).getD [] := by
  unfold itemAt
  rcases Nat.eq_zero_or_pos i with rfl | hpos
  · rfl
  obtain ⟨pos,str,hget,hstr,hheld⟩ := (hs.current i).recalls hk.le ht i hpos (by rw [(hs.current i).itemsCount]; exact hi)
  have hmem := List.mem_of_getElem? hstr
  rw [if_pos hpos,if_neg hpos.ne',hget,hstr]
  exact cString_eq hheld (hs.noNul str hmem) (hsmall str hmem)

theorem Shows.item (h : Shows n cli t.line) (hr : Remembers n k mem cli t) (hk : k < 16) {i : ℕ}
    (hi : i ≤ min t.stored.length maxHistoryItems) :
    Shows n (showItem cli i) (t.recallAt i).line ∧ Remembers n k mem (showItem cli i) (t.recallAt i) := by
  have hsmall := h.sized.small
  have hline : itemAt cli.history i = (t.recallAt i).line := itemAt_stored hr.storing hk hr.tiled (fun str hmem => by
    have hfits := hr.fits str hmem
    omega) hi
  have hfits : (t.recallAt i).line.length ≤ n ∧ 0 ∉ (t.recallAt i).line := by
    unfold Terminal.recallAt
    dsimp only
    split
    · exact ⟨Nat.zero_le n,List.not_mem_nil⟩
    · cases hstr : t.stored[i - 1]? with
      | none => exact ⟨Nat.zero_le n,List.not_mem_nil⟩
      | some str =>
        have hmem := List.mem_of_getElem? hstr
        exact ⟨hr.fits str hmem,hr.storing.noNul str hmem⟩
  have hlen : u16 (t.recallAt i).line.length = (t.recallAt i).line.length := u16_of_lt (by omega)
  constructor
  · unfold showItem clearCurrentLine
    dsimp only
    rw [hline,hlen,List.take_length]
    exact shows_of ⟨h.sized.maxSize,hsmall,h.sized.noEscape,h.sized.noIntroducer⟩
      ((show Spells cli.cmdBuffer ([] ++ t.line) from h.spells).put _) rfl rfl rfl hfits.1 hfits.2
  · exact ⟨hr.storing.current i,hr.tiled,rfl,hi,hr.fits⟩

/-- The keys up and down recall an older or a newer command. -/
theorem Shows.navigate (h : Shows n cli t.line) (hr : Remembers n k mem cli t) (hk : k < 16) (up : Bool) :
    Shows n (navigateHistory cli up) (if up then t.older else t.newer).line ∧
      Remembers n k mem (navigateHistory cli up) (if up then t.older else t.newer) := by
  have hcount := hr.storing.itemsCount
  have hcurrent := hr.current
  have hcounted := hr.counted
  have hmax : min t.stored.length maxHistoryItems ≤ maxHistoryItems := Nat.min_le_right ..
  have hlimit : maxHistoryItems = 16 := rfl
  have hshow : ∀ current, ¬cli.history.itemsCount = 0 → ¬(up = true ∧ cli.history.current ≥ cli.history.itemsCount) →
      ¬(¬up = true ∧ cli.history.current = 0) →
      (if up then u16 (cli.history.current + 1) else cli.history.current - 1) = current →
      navigateHistory cli up = showItem cli current := by
    intro current hsome holder hnewer hplace
    unfold navigateHistory
    rw [if_neg hsome,if_neg holder,if_neg hnewer,hplace]
    rfl
  have hstay : cli.history.itemsCount = 0 ∨ (up = true ∧ cli.history.current ≥ cli.history.itemsCount) ∨
      (¬up = true ∧ cli.history.current = 0) → navigateHistory cli up = cli := by
    intro hcase
    unfold navigateHistory
    split
    · rfl
    split
    · rfl
    split
    · rfl
    · tauto
  cases up with
  | true =>
    rw [if_pos rfl]
    unfold Terminal.older
    by_cases hmore : t.recalled < min t.stored.length maxHistoryItems
    · rw [if_pos hmore,hshow (t.recalled + 1) (by omega) (by omega) (by simp)
        (by rw [if_pos rfl,hcurrent]; exact u16_of_lt (by omega))]
      exact h.item hr hk hmore
    · rw [if_neg hmore,hstay (.inr (.inl ⟨rfl,by omega⟩))]
      exact ⟨h,hr⟩
  | false =>
    rw [if_neg Bool.false_ne_true]
    unfold Terminal.newer
    by_cases hnone : t.recalled = 0
    · rw [if_pos hnone,hstay (.inr (.inr ⟨Bool.false_ne_true,hcurrent.trans hnone⟩))]
      exact ⟨h,hr⟩
    · rw [if_neg hnone,hshow (t.recalled - 1) (by omega) (by simp) (by omega) (by rw [if_neg Bool.false_ne_true,hcurrent])]
      exact h.item hr hk (by omega)

end Recalled

section Steps
variable {σ : Type*} {n k : ℕ} {mem : ℕ → UInt8} {cli : Engine σ} {t : Terminal σ} (world : World σ)
  (names : σ → List UInt8 → List (List UInt8)) (args : σ → List UInt8 → Bool → Option (List (List UInt8)))
  (app : Application σ)

/-- The engine between two keys of a session. -/
structure Tracks (n k : ℕ) (mem : ℕ → UInt8) (cli : Engine σ) (t : Terminal σ) : Prop where
  shows : Shows n cli t.line
  remembers : Remembers n k mem cli t
  env : cli.env = t.env
  noFeed : cli.lastChar ≠ 0x0A

theorem Shows.lastChar {line : List UInt8} (h : Shows n cli line) {c : UInt8} (hc : c ≠ 0x1B) :
    Shows n { cli with lastChar := c } line := by
  obtain ⟨e,hready,hline⟩ := h
  exact ⟨e,hready.lastChar hc,hline⟩

theorem Shows.verticalArrow {line : List UInt8} (h : Shows n cli line) {c : UInt8} (hc : c = 0x41 ∨ c = 0x42) :
    typed app cli [0x1B,0x5B,c] = { navigateHistory { cli with lastChar := 0x5B } (c = 0x41) with lastChar := c } := by
  obtain ⟨e,hready,-⟩ := h
  have hsplit : typed app cli [0x1B,0x5B,c] = processChar app (typed app cli [0x1B,0x5B]) c := rfl
  have hrange : 64 ≤ c ∧ c ≤ 126 := by
    rcases hc with rfl | rfl
    · decide
    · decide
  have hescape : { cli with escapeMode := false, lastChar := 0x5B } = { cli with lastChar := 0x5B } := by
    rw [← hready.noEscape]
  have hright : ∀ cli : Engine σ, onRightArrow cli c = cli := fun cli => if_neg fun hcase => by
    rcases hc with rfl | rfl
    · exact absurd hcase.1 (by decide)
    · exact absurd hcase.1 (by decide)
  have hleft : ∀ cli : Engine σ, onLeftArrow cli c = cli := fun cli => if_neg fun hcase => by
    rcases hc with rfl | rfl
    · exact absurd hcase.1 (by decide)
    · exact absurd hcase.1 (by decide)
  rw [hsplit,(hready.introduce app).2]
  unfold processChar Cli.handleChar onEscapedInput onVerticalArrow
  rw [if_pos rfl,if_pos hrange]
  dsimp only
  rw [if_pos hc,hescape,hright,hleft]

theorem onCharInput_history (cli : Engine σ) (c : UInt8) : (onCharInput cli c).history = cli.history := by
  unfold onCharInput
  split
  · rfl
  dsimp only
  split
  · split
    · rfl
    · rfl
  · rfl

theorem onControlInput_history (cli : Engine σ) {c : UInt8} (hc : c = 0x08 ∨ c = 0x7F) :
    (onControlInput app cli c).history = cli.history := by
  have hreturn : ¬(c = 0x0D ∨ c = 0x0A) := by
    rcases hc with rfl | rfl
    · decide
    · decide
  have htab : ¬c = 0x09 := by
    rcases hc with rfl | rfl
    · decide
    · decide
  unfold onControlInput
  rw [if_neg hreturn,if_neg htab]
  split
  · rfl
  split
  · dsimp only
    split
    · rfl
    · rfl
  · rfl

/-- A key of the line leaves the history alone. -/
theorem Ready.key_history {e : Editor UInt8 n} (h : Ready cli e) (key : Key) (harrow : key.isArrow = false) :
    (typed app cli key.codes).history = cli.history := by
  cases key with
  | printable c hc =>
    obtain ⟨hcontrol,-,-⟩ := displayable_not_control hc
    show (handleChar app cli c).history = cli.history
    rw [h.handleChar,hcontrol,hc]
    exact onCharInput_history cli c
  | backspace c hc =>
    have hcontrol : isControlChar c = true := by
      rcases hc with rfl | rfl
      · decide
      · decide
    show (handleChar app cli c).history = cli.history
    rw [h.handleChar,hcontrol]
    exact onControlInput_history app cli hc
  | left => cases harrow
  | right => cases harrow

/-- A key of the line, with what it does to the line. -/
theorem Tracks.key (h : Tracks n k mem cli t) (key : Key) (harrow : key.isArrow = false) {line : List UInt8}
    (hline : ∀ e : Editor UInt8 n, e.cursor = e.line.length → e.line = t.line → (key.press e).line = line) :
    Tracks n k mem (typed app cli key.codes) { t with line := line } := by
  obtain ⟨⟨e,hready,heq⟩,hremembers,henv,hfeed⟩ := h
  have hhistory := Ready.key_history app hready key harrow
  obtain ⟨hkept,hlast⟩ := typed_env app key.codes (codes_quiet key) hfeed
  refine ⟨⟨_,hready.key app key (by rw [harrow]; exact fun h => absurd h Bool.false_ne_true),hline e hready.atEnd heq⟩,?_,
    hkept.trans henv,hlast⟩
  exact ⟨hhistory ▸ hremembers.storing,hremembers.tiled,by rw [hhistory]; exact hremembers.current,hremembers.counted,
    hremembers.fits⟩

theorem Tracks.vertical (h : Tracks n k mem cli t) (hk : k < 16) {c : UInt8} (hc : c = 0x41 ∨ c = 0x42) :
    Tracks n k mem (typed app cli [0x1B,0x5B,c]) (if c = 0x41 then t.older else t.newer) := by
  obtain ⟨hshows,hremembers,henv,-⟩ := h
  have hstart : Remembers n k mem { cli with lastChar := 0x5B } t :=
    ⟨hremembers.storing,hremembers.tiled,hremembers.current,hremembers.counted,hremembers.fits⟩
  obtain ⟨hline,hstored⟩ := (hshows.lastChar (by decide : (0x5B : UInt8) ≠ 0x1B)).navigate hstart hk (c = 0x41)
  have hquiet : c ≠ 0x1B ∧ c ≠ 0x0A := by
    rcases hc with rfl | rfl
    · decide
    · decide
  have hkept : (if c = 0x41 then t.older else t.newer).env = t.env := by
    unfold Terminal.older Terminal.newer Terminal.recallAt
    split
    · split
      · rfl
      · rfl
    · split
      · rfl
      · rfl
  simp only [decide_eq_true_eq] at hline hstored
  rw [hshows.verticalArrow app hc]
  refine ⟨hline.lastChar hquiet.1,?_,?_,hquiet.2⟩
  · exact ⟨hstored.storing,hstored.tiled,hstored.current,hstored.counted,hstored.fits⟩
  · exact ((navigateHistory_env { cli with lastChar := 0x5B } _).trans henv).trans hkept.symm

theorem Tracks.tab (h : Tracks n k mem cli t) (hc : Completes names args n) :
    Tracks n k mem (typed (world.application names args) cli [0x09]) { t with line := t.completed names args n } := by
  obtain ⟨hshows,hremembers,henv,-⟩ := h
  have hquiet : ∀ last : Engine σ, Shows n last t.line → last.history = cli.history → last.env = cli.env →
      Tracks n k mem { onAutocompleteRequest (world.application names args) last with lastChar := 0x09 }
        { t with line := t.completed names args n } := by
    intro last hlast hhistory hkept
    obtain ⟨hdone,hdoneHistory,hdoneEnv⟩ := @Shows.autocomplete _ _ _ _ world _ _ hlast (hkept.trans henv) hc
    refine ⟨hdone.lastChar (by decide),?_,(hdoneEnv.trans hkept).trans henv,show (0x09 : UInt8) ≠ 0x0A by decide⟩
    have hsame := hdoneHistory.trans hhistory
    exact ⟨hsame ▸ hremembers.storing,hremembers.tiled,hsame ▸ hremembers.current,hremembers.counted,hremembers.fits⟩
  have hstep : typed (world.application names args) cli [0x09] =
      { onAutocompleteRequest (world.application names args)
          (if cli.lastChar = 0x09 then { cli with lastChar := 0 } else cli) with lastChar := 0x09 } := by
    obtain ⟨e,hready,-⟩ := hshows
    change processChar (world.application names args) cli 0x09 = _
    unfold processChar
    rw [hready.handleChar,if_pos (by decide)]
    unfold onControlInput
    rw [if_neg (by simp),if_neg (by decide),if_neg (by simp),if_pos rfl]
  rw [hstep]
  split
  · exact hquiet _ (hshows.lastChar (by decide)) rfl rfl
  · exact hquiet cli hshows rfl rfl

/-- The commands to recall behind the return key. -/
def entered (size : ℕ) (t : Terminal σ) : List (List UInt8) :=
  if nameOf t.line = [] then t.stored else keep size t.stored t.line

theorem Tracks.enter (h : Tracks n k mem cli t) (hk : k < 16)
    (htiled : ∀ u : Terminal σ, t.Entered world (2 ^ k) u → Tiled (2 ^ k) u.stored) :
    ∃ u : Terminal σ, t.Entered world (2 ^ k) u ∧ Tracks n k mem (typed (world.application names args) cli [0x0D]) u := by
  obtain ⟨⟨e,hready,hline⟩,hremembers,henv,hfeed⟩ := h
  obtain ⟨hempty,hreturn,hserves⟩ := ready_return world names args hready hfeed
  have hnext := typed_return (world.application names args) hready hfeed
  rw [submitLine_eq (world.application names args) hready] at hnext
  rw [henv,hline] at hserves
  let u : Terminal σ := ⟨(typed (world.application names args) cli [0x0D]).env,[],entered (2 ^ k) t,0⟩
  have hu : t.Entered world (2 ^ k) u := ⟨rfl,rfl,rfl,hserves⟩
  have htiled : Tiled (2 ^ k) (entered (2 ^ k) t) := htiled u hu
  refine ⟨u,hu,⟨_,hempty,rfl⟩,?_,rfl,?_⟩
  · have hfits : ∀ str ∈ entered (2 ^ k) t, str.length ≤ n := by
      unfold entered keep
      intro str hstr
      split at hstr
      · exact hremembers.fits str hstr
      split at hstr
      · exact hremembers.fits str hstr
      · rcases List.mem_cons.mp hstr with rfl | hstr
        · rw [← hline]
          exact e.fits
        · exact hremembers.fits str hstr
    refine ⟨?_,htiled,?_,Nat.zero_le _,hfits⟩
    · change Storing k mem _ (entered (2 ^ k) t)
      rw [hnext]
      unfold entered at htiled ⊢
      rw [← hline] at htiled ⊢
      by_cases hname : nameOf e.line = []
      · rw [if_pos hname,if_pos hname]
        exact hremembers.storing.current 0
      · rw [if_neg hname] at htiled
        rw [if_neg hname,if_neg hname]
        exact (@Storing.put _ _ _ _ hremembers.storing hk hremembers.tiled ⟨e.line,hready.noNul⟩ htiled).current 0
    · rw [hnext]
      rfl
  · rw [hreturn]
    decide

theorem press_printable {c : UInt8} (hc : isDisplayableChar c = true) (e : Editor UInt8 n)
    (hend : e.cursor = e.line.length) :
    ((Key.printable c hc).press e).line = if e.line.length < n then e.line ++ [c] else e.line := by
  split
  · exact (Editor.insert_end hend ‹_›).1
  · exact congrArg Editor.line (Editor.insert_full (Nat.le_of_not_lt ‹_›))

/-- What one key does, and that the engine follows. -/
theorem Tracks.press (h : Tracks n k mem cli t) (hk : k < 16) (hc : Completes names args n) (stroke : Stroke)
    (htiled : ∀ u, t.Press world names args n (2 ^ k) stroke u → Tiled (2 ^ k) u.stored) :
    ∃ u, t.Press world names args n (2 ^ k) stroke u ∧
      Tracks n k mem (typed (world.application names args) cli stroke.codes) u := by
  cases stroke with
  | printable c hc' =>
    refine ⟨_,rfl,h.key _ (.printable c hc') rfl fun e hend hline => ?_⟩
    rw [press_printable hc' e hend,hline]
  | backspace c hc' =>
    refine ⟨_,rfl,h.key _ (.backspace c hc') rfl fun e hend hline => ?_⟩
    rw [← hline,List.dropLast_eq_take]
    exact (Editor.backspace_end hend).1
  | up => exact ⟨_,rfl,h.vertical _ hk (.inl rfl)⟩
  | down => exact ⟨_,rfl,h.vertical _ hk (.inr rfl)⟩
  | tab => exact ⟨_,rfl,h.tab world names args hc⟩
  | enter => exact h.enter world names args hk htiled

theorem Tracks.session (h : Tracks n k mem cli t) (hk : k < 16) (hc : Completes names args n) (strokes : List Stroke)
    (htiled : ∀ before after, strokes = before ++ after → ∀ u, t.Session world names args n (2 ^ k) before u →
      Tiled (2 ^ k) u.stored) :
    ∃ u, t.Session world names args n (2 ^ k) strokes u ∧
      Tracks n k mem (typed (world.application names args) cli (strokes.flatMap Stroke.codes)) u := by
  induction strokes generalizing cli t with
  | nil => exact ⟨t,rfl,h⟩
  | cons stroke strokes ih =>
    obtain ⟨v,hv,htracks⟩ := h.press world names args hk hc stroke fun u hu =>
      htiled [stroke] strokes rfl u ⟨u,hu,rfl⟩
    obtain ⟨u,hu,hlast⟩ := ih htracks fun before after hsplit u hu =>
      htiled (stroke :: before) after (by rw [hsplit,List.cons_append]) u ⟨v,hv,hu⟩
    rw [List.flatMap_cons,typed_append]
    exact ⟨u,⟨v,hv,hu⟩,hlast⟩

end Steps

section Room
variable {σ : Type*} {n size : ℕ} {t u : Terminal σ} (world : World σ) (names : σ → List UInt8 → List (List UInt8))
  (args : σ → List UInt8 → Bool → Option (List (List UInt8)))

/-- Every line of the terminal fits into the command buffer. -/
structure Terminal.Within (n : ℕ) (t : Terminal σ) : Prop where
  line : t.line.length ≤ n
  stored : ∀ str ∈ t.stored, str.length ≤ n

theorem Terminal.Within.recallAt (h : t.Within n) (i : ℕ) : (t.recallAt i).Within n := by
  refine ⟨?_,h.stored⟩
  unfold Terminal.recallAt
  dsimp only
  split
  · exact Nat.zero_le n
  · cases hstr : t.stored[i - 1]? with
    | none => exact Nat.zero_le n
    | some str => exact h.stored str (List.mem_of_getElem? hstr)

theorem completeWord_length {line : List UInt8} (h : line.length ≤ n) (name : List UInt8) :
    (completeWord n line name).length ≤ n := by
  unfold completeWord
  split
  · simp only [List.length_append,List.length_singleton]
    omega
  · exact h

theorem completeName_length {line : List UInt8} (h : line.length ≤ n) {found : List (List UInt8)}
    (hfound : ∀ name ∈ found, name.length ≤ n) : (completeName n line found).length ≤ n := by
  rcases found with _ | ⟨name,_ | ⟨other,rest⟩⟩
  · exact h
  · exact completeWord_length h name
  · change (if line.length < (longestCommonPrefix (name :: other :: rest)).length then
      longestCommonPrefix (name :: other :: rest) else line).length ≤ n
    split
    · exact (longestCommonPrefix_isPrefix name (other :: rest)).length_le.trans (hfound name (List.mem_cons_self ..))
    · exact h

theorem foldl_completeWord_length {line : List UInt8} (h : line.length ≤ n) (found : List (List UInt8)) :
    (found.foldl (completeWord n) line).length ≤ n := by
  induction found generalizing line with
  | nil => exact h
  | cons name found ih => exact ih (completeWord_length h name)

theorem completed_length (h : t.line.length ≤ n) (hc : Completes names args n) :
    (t.completed names args n).length ≤ n := by
  unfold Terminal.completed
  split
  · exact Nat.zero_le n
  split
  · exact completeName_length h fun name hname => (hc.names t.env t.line name hname).2
  · apply foldl_completeWord_length
    unfold cutQuestion
    split
    · rw [List.length_dropLast]
      omega
    · exact h

/-- The bytes that a key may add to the stored commands. -/
def Stroke.stores (n : ℕ) : Stroke → ℕ
  | .enter => n + 1
  | _ => 0

theorem keep_within (h : t.Within n) : ∀ str ∈ keep size t.stored t.line, str.length ≤ n := by
  unfold keep
  split
  · exact h.stored
  · exact List.forall_mem_cons.mpr ⟨h.line,h.stored⟩

theorem widths_keep_le (size : ℕ) (stored : List (List UInt8)) (line : List UInt8) :
    StringRing.widths (keep size stored line) ≤ StringRing.widths stored + (line.length + 1) := by
  unfold keep
  split
  · exact Nat.le_add_right ..
  · exact (StringRing.widths_cons ..).le

theorem Terminal.Within.press (h : t.Within n) (hc : Completes names args n) {stroke : Stroke}
    (hu : t.Press world names args n size stroke u) :
    u.Within n ∧ StringRing.widths u.stored ≤ StringRing.widths t.stored + stroke.stores n := by
  have hline := h.line
  cases stroke with
  | printable c hc' =>
    cases hu
    refine ⟨⟨?_,h.stored⟩,le_rfl⟩
    dsimp only
    split
    · rw [List.length_append,List.length_singleton]
      exact ‹_›
    · exact hline
  | backspace c hc' =>
    cases hu
    refine ⟨⟨?_,h.stored⟩,le_rfl⟩
    dsimp only
    rw [List.length_dropLast]
    omega
  | up =>
    cases hu
    unfold Terminal.older
    split
    · exact ⟨h.recallAt _,le_rfl⟩
    · exact ⟨h,le_rfl⟩
  | down =>
    cases hu
    unfold Terminal.newer
    split
    · exact ⟨h,le_rfl⟩
    · exact ⟨h.recallAt _,le_rfl⟩
  | tab =>
    cases hu
    exact ⟨⟨completed_length names args hline hc,h.stored⟩,le_rfl⟩
  | enter =>
    obtain ⟨hempty,-,hstored,-⟩ := hu
    rw [hstored]
    refine ⟨⟨by rw [hempty]; exact Nat.zero_le n,?_⟩,?_⟩
    · rw [hstored]
      split
      · exact h.stored
      · exact keep_within h
    · split
      · exact Nat.le_add_right ..
      · exact (widths_keep_le ..).trans (Nat.add_le_add_left (Nat.succ_le_succ hline) _)

theorem Terminal.Within.session (h : t.Within n) (hc : Completes names args n) {strokes : List Stroke}
    (hu : t.Session world names args n size strokes u) :
    StringRing.widths u.stored ≤ StringRing.widths t.stored + (strokes.map (Stroke.stores n)).sum := by
  induction strokes generalizing t with
  | nil =>
    cases hu
    exact Nat.le_add_right ..
  | cons stroke strokes ih =>
    obtain ⟨v,hv,hu⟩ := hu
    obtain ⟨hwithin,hstep⟩ := h.press world names args hc hv
    have hrest := ih hwithin hu
    rw [List.map_cons,List.sum_cons]
    omega

/-- Commands that fit into the history together. -/
theorem tiled_of_widths {stored : List (List UInt8)} (h : StringRing.widths stored ≤ size) : Tiled size stored := by
  induction stored with
  | nil => trivial
  | cons str stored ih =>
    have htake := widths_take_mono (Nat.le_max_left maxHistoryItems (str :: stored).length) (str :: stored)
    rw [List.take_of_length_le (Nat.le_max_right ..)] at htake
    rw [StringRing.widths_cons] at h
    have hmod : StringRing.widths stored % size ≤ StringRing.widths stored := Nat.mod_le ..
    exact ⟨by omega,htake.trans (by rwa [StringRing.widths_cons]),ih (by omega)⟩

end Room

section Follows
variable {σ : Type*} {k : ℕ} (world : World σ) (names : σ → List UInt8 → List (List UInt8))
  (args : σ → List UInt8 → Bool → Option (List (List UInt8)))

/-- A new terminal. -/
def Terminal.new (env : σ) : Terminal σ := ⟨env,[],[],0⟩

/-- Whatever keys are pressed in a new engine, it does what the terminal does, as long as the commands of the terminal
have room in the history. -/
theorem session_follows (rxBufferSize cmdBufferSize historyBufferSize : BitVec 16) (env : σ) (hrx : 1 < rxBufferSize.toNat)
    (hk : k < 16) (hhistory : historyBufferSize.toNat = 2 ^ k) (hc : Completes names args (cmdBufferSize.toNat - 1))
    (strokes : List Stroke)
    (htiled : ∀ before after, strokes = before ++ after → ∀ t,
      (Terminal.new env).Session world names args (cmdBufferSize.toNat - 1) (2 ^ k) before t → Tiled (2 ^ k) t.stored) :
    ∃ t, (Terminal.new env).Session world names args (cmdBufferSize.toNat - 1) (2 ^ k) strokes t ∧
      let cli := oneByOne (world.application names args)
        (Cli.embeddedCliNew rxBufferSize cmdBufferSize historyBufferSize env) (strokes.flatMap Stroke.codes)
      cli.env = t.env ∧ Spells cli.cmdBuffer t.line ∧ cli.cmdSize = t.line.length ∧ cli.cursorPos = t.line.length := by
  have hsize := cmdBufferSize.isLt
  have hready : Ready (Cli.embeddedCliNew rxBufferSize cmdBufferSize historyBufferSize env)
      (Editor.empty : Editor UInt8 (cmdBufferSize.toNat - 1)) :=
    ⟨⟨rfl,rfl,rfl,rfl⟩,rfl,rfl,by omega,rfl,zero_ne_escape,List.not_mem_nil⟩
  have hstart : Tracks (cmdBufferSize.toNat - 1) k (fun _ => 0)
      (Cli.embeddedCliNew rxBufferSize cmdBufferSize historyBufferSize env) (Terminal.new env) := by
    refine ⟨⟨_,hready,rfl⟩,⟨?_,trivial,rfl,Nat.zero_le _,fun str hmem => absurd hmem List.not_mem_nil⟩,rfl,
      show (0 : UInt8) ≠ 0x0A by decide⟩
    show Storing k (fun _ => 0) (.new (fun _ => 0) historyBufferSize.toNat) []
    rw [hhistory]
    exact storing_new fun _ _ => rfl
  have hidle := idle_new rxBufferSize cmdBufferSize historyBufferSize env (by omega)
  obtain ⟨left,htyped,-⟩ := oneByOne_typed (world.application names args) _ (strokes.flatMap Stroke.codes) hidle hrx
  obtain ⟨t,ht,htracks⟩ := hstart.session world names args hk hc strokes htiled
  refine ⟨t,ht,?_⟩
  dsimp only
  rw [htyped]
  exact ⟨htracks.env,htracks.shows.spells,htracks.shows.size,htracks.shows.cursor⟩

/-- A session whose commands fit into the history together. -/
theorem tiled_of_strokes {env : σ} {n : ℕ} (hc : Completes names args n) {strokes : List Stroke}
    (hroom : (strokes.map (Stroke.stores n)).sum ≤ 2 ^ k) (before after : List Stroke) (hsplit : strokes = before ++ after)
    (t : Terminal σ) (ht : (Terminal.new env).Session world names args n (2 ^ k) before t) : Tiled (2 ^ k) t.stored := by
  have hnew : (Terminal.new env).Within n := ⟨Nat.zero_le n,fun str hmem => absurd hmem List.not_mem_nil⟩
  have hwidths := hnew.session world names args hc ht
  rw [hsplit,List.map_append,List.sum_append] at hroom
  apply tiled_of_widths
  have hzero : StringRing.widths (Terminal.new env).stored = 0 := rfl
  omega

/-- The names of the commands that begin with the line. -/
def fewNames (line : List UInt8) : List (List UInt8) := [ascii "show",ascii "q"].filter fun name => line.isPrefixOf name

/-- `s`, completed and run, and once more from the history. -/
def fewStrokes : List Stroke := [.printable 0x73 (by decide),.tab,.enter,.up,.enter]

theorem completes_few : Completes (fun (_ : List Call) => fewNames) (fun _ _ _ => none) 63 := by
  refine ⟨fun env line name hname => ?_,fun env line help found hfound => by cases hfound⟩
  have hmem := List.mem_of_mem_filter hname
  simp only [List.mem_cons,List.not_mem_nil,or_false] at hmem
  rcases hmem with rfl | rfl
  · decide
  · decide

theorem session_follows_few :
    ∃ t, (Terminal.new []).Session callLog (fun _ => fewNames) (fun _ _ _ => none) 63 (2 ^ 8) fewStrokes t ∧
      let cli := oneByOne (callLog.application (fun _ => fewNames) fun _ _ _ => none) (Cli.embeddedCliNew 64 64 256 [])
        (fewStrokes.flatMap Stroke.codes)
      cli.env = t.env ∧ Spells cli.cmdBuffer t.line ∧ cli.cmdSize = t.line.length ∧ cli.cursorPos = t.line.length :=
  session_follows callLog (fun _ => fewNames) (fun _ _ _ => none) 64 64 256 [] (by decide) (by decide) rfl completes_few
    fewStrokes (tiled_of_strokes callLog _ _ completes_few (by decide))

end Follows

end EmbedTemplate.Cli.CommandLine
