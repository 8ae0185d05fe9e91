import EmbedTemplate.Cli.Dispatch
import EmbedTemplate.Cli.Engine
import EmbedTemplate.Library.MultiString

/-! # The tokens of a command line

`embeddedCliTokenizeArgs` of `embedded_cli.c` rewrites the arguments of a command in their own place: blanks and quotes
become terminators, a backslash takes the next character as it is. The tokens are counted and found from the
terminators. What the loops do to the memory is compared with the words of the text.
-/
namespace EmbedTemplate.Cli.Tokens
open Bytes Circular MultiString

/-- `CLI_TOKEN_NPOS` -/
def cliTokenNpos : ℕ := 0xFFFF

def charBackslash : UInt8 := 0x5C
def charQuote : UInt8 := 0x22
def charBlank : UInt8 := 0x20

section Source

/-- The variables of the loop of `embeddedCliTokenizeArgs`, and the memory. -/
structure Scan where
  mem : ℕ → UInt8
  quotesEnabled : Bool
  escapeActivated : Bool
  insertPos : ℕ

variable (args : ℕ)

/-- NULs are only copied once, and not to the beginning. -/
def copyChar (s : Scan) (currentChar : UInt8) : Scan :=
  if currentChar ≠ 0 ∨ (s.insertPos > 0 ∧ s.mem (args + (s.insertPos - 1)) ≠ 0) then
    { s with mem := Function.update s.mem (args + s.insertPos) currentChar, insertPos := s.insertPos + 1 }
  else s

/-- The body of the loop. -/
def tokenizeChar (s : Scan) (currentChar : UInt8) : Scan :=
  if s.escapeActivated then copyChar args { s with escapeActivated := false } currentChar
  else if currentChar = charBackslash then { s with escapeActivated := true }
  else if currentChar = charQuote then copyChar args { s with quotesEnabled := !s.quotesEnabled } 0
  else if ¬s.quotesEnabled ∧ currentChar = charBlank then copyChar args s 0
  else copyChar args s currentChar

/-- The loop, in at most so many rounds. -/
def tokenizeLoop : ℕ → ℕ → Scan → Option Scan
  | 0, _, _ => none
  | rounds + 1, i, s =>
    let currentChar := s.mem (args + i)
    if currentChar = 0 then some s else tokenizeLoop rounds (i + 1) (tokenizeChar args s currentChar)

/-- `embeddedCliTokenizeArgs`, of a string below 64 KB. -/
def embeddedCliTokenizeArgs (mem : ℕ → UInt8) : Option (ℕ → UInt8) :=
  (tokenizeLoop args (2 ^ 16) 0 ⟨mem,false,false,0⟩).map fun s =>
    Function.update (Function.update s.mem (args + s.insertPos) 0) (args + s.insertPos + 1) 0

variable (mem : ℕ → UInt8)

/-- The loop of `getTokenPosition`. -/
def tokenPositionLoop (pos : ℕ) : ℕ → ℕ → ℕ → Option ℕ
  | 0, _, _ => none
  | rounds + 1, i, tokenCount =>
    if tokenCount = pos then some i
    else if mem (args + i) = 0 then
      if mem (args + (i + 1)) = 0 then some i else tokenPositionLoop pos rounds (u16 (i + 1)) (u16 (tokenCount + 1))
    else tokenPositionLoop pos rounds (u16 (i + 1)) tokenCount

def getTokenPosition (pos : ℕ) : Option ℕ :=
  if pos = 0 then some cliTokenNpos
  else (tokenPositionLoop args mem pos (2 ^ 16) 0 1).map fun i => if mem (args + i) ≠ 0 then i else cliTokenNpos

/-- `embeddedCliGetToken`, the place of the token in the memory. -/
def embeddedCliGetToken (pos : ℕ) : Option (Option ℕ) :=
  (getTokenPosition args mem pos).map fun i => if i ≠ cliTokenNpos then some (args + i) else none

/-- The loop of `embeddedCliGetTokenCount`. -/
def tokenCountLoop : ℕ → ℕ → ℕ → Option ℕ
  | 0, _, _ => none
  | rounds + 1, i, tokenCount =>
    if mem (args + i) = 0 then
      if mem (args + (i + 1)) = 0 then some tokenCount else tokenCountLoop rounds (i + 1) (u16 (tokenCount + 1))
    else tokenCountLoop rounds (i + 1) tokenCount

def embeddedCliGetTokenCount : Option ℕ := if mem args = 0 then some 0 else tokenCountLoop args mem (2 ^ 16) 0 1

/-- The loop of `embeddedCliFindToken`; `strcmp` of a null pointer is an error. -/
def findTokenLoop (token : List UInt8) : ℕ → ℕ → Option ℕ
  | 0, _ => some 0
  | left + 1, i =>
    match embeddedCliGetToken args mem i with
    | some (some pos) => if cString mem pos = token then some i else findTokenLoop token left (u16 (i + 1))
    | _ => none

def embeddedCliFindToken (token : List UInt8) : Option ℕ :=
  (embeddedCliGetTokenCount args mem).bind fun size => findTokenLoop args mem token size 1

end Source

section Text

/-- The characters of a text with blanks and quotes as separators, behind an open quote or a backslash. -/
def items : Bool → Bool → List UInt8 → List (Option UInt8)
  | _, _, [] => []
  | quoted, true, c :: text => some c :: items quoted false text
  | quoted, false, c :: text =>
    if c = charBackslash then items quoted true text
    else if c = charQuote then none :: items (!quoted) false text
    else if ¬quoted ∧ c = charBlank then none :: items quoted false text
    else some c :: items quoted false text

/-- The words of a text. -/
def textWords (text : List UInt8) : List (List UInt8) := wordsOf (items false false text)

end Text

section Scanning
variable {args n : ℕ} {s : Scan} {w : Words UInt8} {text cs : List UInt8}

/-- What has been copied is what has been read, and the memory from the next character on is as it was. -/
structure Copied (args n : ℕ) (mem : ℕ → UInt8) (s : Scan) (w : Words UInt8) : Prop where
  proper : w.Proper 0
  insertPos : s.insertPos = (w.stored 0).length
  behind : s.insertPos ≤ n
  stored : Circular.get s.mem args s.insertPos = w.stored 0
  outside : ∀ x, x < args ∨ args + n ≤ x → s.mem x = mem x

variable {mem : ℕ → UInt8}

theorem Copied.weaken (h : Copied args n mem s w) : Copied args (n + 1) mem s w :=
  ⟨h.proper,h.insertPos,Nat.le_succ_of_le h.behind,h.stored,fun x hx => h.outside x (by omega)⟩

/-- A character that is stored behind the others. -/
theorem Copied.store (h : Copied args n mem s w) {w' : Words UInt8} {c : UInt8} (hproper : w'.Proper 0)
    (hstored : w'.stored 0 = w.stored 0 ++ [c]) :
    Copied args (n + 1) mem
      { s with mem := Function.update s.mem (args + s.insertPos) c, insertPos := s.insertPos + 1 } w' := by
  have hput : Function.update s.mem (args + s.insertPos) c = put s.mem (args + s.insertPos) [c] := rfl
  constructor
  case proper => exact hproper
  case insertPos => rw [hstored,List.length_append,h.insertPos]; rfl
  case behind => exact Nat.succ_le_succ h.behind
  case stored =>
    have hfront := h.stored
    rw [h.insertPos] at hfront
    dsimp only
    rw [hput,hstored,h.insertPos]
    exact get_put_behind hfront [c]
  case outside =>
    intro x hx
    have hbehind := h.behind
    dsimp only
    rw [hput,put_outside _ _ _ (by rw [List.length_singleton]; omega)]
    exact h.outside x (by omega)

theorem Copied.character (h : Copied args n mem s w) {c : UInt8} (hc : c ≠ 0) :
    Copied args (n + 1) mem (copyChar args s c) (w.push (some c)) := by
  unfold copyChar
  rw [if_pos (.inl hc)]
  exact h.store (h.proper.character hc).1 (h.proper.character hc).2

/-- The byte in front of the place of the next one is the last one that has been stored. -/
theorem Copied.last (h : Copied args n mem s w) : (s.insertPos > 0 ∧ s.mem (args + (s.insertPos - 1)) ≠ 0) ↔
    ¬(w.stored 0 = [] ∨ (w.stored 0).getLast? = some 0) := by
  have hlength := h.insertPos
  cases hpos : s.insertPos with
  | zero =>
    rw [hpos] at hlength
    have hnil : w.stored 0 = [] := List.eq_nil_of_length_eq_zero hlength.symm
    exact iff_of_false (fun hcase => Nat.lt_irrefl 0 hcase.1) (not_not.mpr (.inl hnil))
  | succ k =>
    have hlast : (w.stored 0).getLast? = some (s.mem (args + k)) := by
      rw [List.getLast?_eq_getElem?,← hlength,← h.stored,get_getElem?,hpos]
      exact if_pos (Nat.lt_succ_self k)
    have hne : w.stored 0 ≠ [] := fun hnil => by rw [hnil] at hlast; cases hlast
    rw [hlast,Nat.add_sub_cancel]
    simp [hne]

theorem Copied.separator (h : Copied args n mem s w) : Copied args (n + 1) mem (copyChar args s 0) (w.push none) := by
  obtain ⟨hproper,hstored⟩ := h.proper.separator
  unfold copyChar
  split at hstored
  case isTrue hskip =>
    have hnot : ¬((0 : UInt8) ≠ 0 ∨ (s.insertPos > 0 ∧ s.mem (args + (s.insertPos - 1)) ≠ 0)) := by
      rw [h.last]
      simp [hskip]
    rw [if_neg hnot]
    exact ⟨hproper,by rw [hstored]; exact h.insertPos,Nat.le_succ_of_le h.behind,by rw [hstored]; exact h.stored,
      fun x hx => h.outside x (by omega)⟩
  case isFalse hcopy =>
    rw [if_pos (.inr (h.last.mpr hcopy))]
    exact h.store hproper hstored

theorem Copied.modes (h : Copied args n mem s w) (quoted escaped : Bool) :
    Copied args n mem { s with quotesEnabled := quoted, escapeActivated := escaped } w :=
  ⟨h.proper,h.insertPos,h.behind,h.stored,h.outside⟩

theorem copyChar_modes (args : ℕ) (s : Scan) (c : UInt8) :
    (copyChar args s c).quotesEnabled = s.quotesEnabled ∧ (copyChar args s c).escapeActivated = s.escapeActivated := by
  unfold copyChar
  split
  · exact ⟨rfl,rfl⟩
  · exact ⟨rfl,rfl⟩

/-- One round of the loop copies what is read of the character. -/
theorem Copied.round (h : Copied args n mem s w) {c : UInt8} (hc : c ≠ 0) :
    ∃ read : List (Option UInt8), Copied args (n + 1) mem (tokenizeChar args s c) (read.foldl Words.push w) ∧
      ∀ text, items s.quotesEnabled s.escapeActivated (c :: text) =
        read ++ items (tokenizeChar args s c).quotesEnabled (tokenizeChar args s c).escapeActivated text := by
  have hcopied : ∀ (quoted : Bool) (d : UInt8),
      (copyChar args { s with quotesEnabled := quoted, escapeActivated := false } d).quotesEnabled = quoted ∧
      (copyChar args { s with quotesEnabled := quoted, escapeActivated := false } d).escapeActivated = false :=
    fun quoted d => copyChar_modes args _ d
  cases hescape : s.escapeActivated with
  | true =>
    have hround : tokenizeChar args s c = copyChar args { s with escapeActivated := false } c := if_pos hescape
    refine ⟨[some c],by rw [hround]; exact (h.modes s.quotesEnabled false).character hc,fun text => ?_⟩
    rw [hround,(hcopied s.quotesEnabled c).1,(hcopied s.quotesEnabled c).2]
    rfl
  | false =>
    have hplain : { s with escapeActivated := false } = s := by rw [← hescape]
    by_cases hslash : c = charBackslash
    · have hround : tokenizeChar args s c = { s with escapeActivated := true } := by
        unfold tokenizeChar
        rw [if_neg (by rw [hescape]; exact Bool.false_ne_true),if_pos hslash]
      refine ⟨[],by rw [hround]; exact (h.modes s.quotesEnabled true).weaken,fun text => ?_⟩
      rw [hround,items,if_pos hslash]
      rfl
    by_cases hquote : c = charQuote
    · have hround : tokenizeChar args s c =
          copyChar args { s with quotesEnabled := !s.quotesEnabled, escapeActivated := false } 0 := by
        unfold tokenizeChar
        rw [if_neg (by rw [hescape]; exact Bool.false_ne_true),if_neg hslash,if_pos hquote,hescape]
      refine ⟨[none],by rw [hround]; exact (h.modes _ false).separator,fun text => ?_⟩
      rw [hround,(hcopied _ 0).1,(hcopied _ 0).2,items,if_neg hslash,if_pos hquote]
      rfl
    have hrest : tokenizeChar args s c =
        copyChar args { s with escapeActivated := false } (if ¬s.quotesEnabled ∧ c = charBlank then 0 else c) := by
      unfold tokenizeChar
      rw [if_neg (by rw [hescape]; exact Bool.false_ne_true),if_neg hslash,if_neg hquote,hplain]
      split
      · rfl
      · rfl
    rw [hrest,(hcopied s.quotesEnabled _).1,(hcopied s.quotesEnabled _).2,hplain]
    by_cases hblank : ¬s.quotesEnabled ∧ c = charBlank
    · rw [if_pos hblank]
      refine ⟨[none],h.separator,fun text => ?_⟩
      rw [items,if_neg hslash,if_neg hquote,if_pos hblank]
      rfl
    · rw [if_neg hblank]
      refine ⟨[some c],h.character hc,fun text => ?_⟩
      rw [items,if_neg hslash,if_neg hquote,if_neg hblank]
      rfl

/-- The loop copies what is read of the rest of the text. -/
theorem Copied.loop (h : Copied args n mem s w) (hheld : Circular.get mem (args + n) (text.length + 1) = text ++ [0])
    (hnul : 0 ∉ text) {rounds : ℕ} (hrounds : text.length < rounds) :
    ∃ t, tokenizeLoop args rounds n s = some t ∧
      Copied args (n + text.length) mem t ((items s.quotesEnabled s.escapeActivated text).foldl Words.push w) := by
  induction text generalizing n s w rounds with
  | nil =>
    obtain ⟨rounds,rfl⟩ := Nat.exists_eq_succ_of_ne_zero (Nat.ne_of_gt hrounds)
    have hzero : s.mem (args + n) = 0 := by
      rw [h.outside _ (.inr le_rfl)]
      exact List.head_eq_of_cons_eq hheld
    exact ⟨s,if_pos hzero,h⟩
  | cons c text ih =>
    obtain ⟨rounds,rfl⟩ := Nat.exists_eq_succ_of_ne_zero (Nat.ne_of_gt (Nat.zero_lt_of_lt hrounds))
    obtain ⟨hchar,htail⟩ := List.cons.inj hheld
    rw [List.mem_cons,not_or] at hnul
    have hread : s.mem (args + n) = c := (h.outside _ (.inr le_rfl)).trans hchar
    obtain ⟨read,hcopied,hitems⟩ := h.round (Ne.symm hnul.1)
    obtain ⟨t,ht,hfinal⟩ := ih hcopied htail hnul.2 (Nat.lt_of_succ_lt_succ hrounds)
    refine ⟨t,?_,?_⟩
    · unfold tokenizeLoop
      dsimp only
      rw [hread,if_neg (Ne.symm hnul.1)]
      exact ht
    · rw [hitems,List.foldl_append,List.length_cons,Nat.add_comm text.length,← Nat.add_assoc]
      exact hfinal

/-- The memory behind `embeddedCliTokenizeArgs` holds the words of the text. -/
theorem tokenizeArgs_holds (hheld : Circular.get mem args (text.length + 1) = text ++ [0]) (hnul : 0 ∉ text)
    (hsmall : text.length < 2 ^ 16) :
    ∃ mem', embeddedCliTokenizeArgs args mem = some mem' ∧
      Circular.get mem' args (multiString 0 (textWords text)).length = multiString 0 (textWords text) ∧
      (∀ word ∈ textWords text, word ≠ [] ∧ 0 ∉ word) ∧
      (multiString 0 (textWords text)).length ≤ text.length + 2 ∧
      ∀ x, x < args ∨ args + text.length + 2 ≤ x → mem' x = mem x := by
  have hstart : Copied args 0 mem ⟨mem,false,false,0⟩ ⟨[],[]⟩ :=
    ⟨Words.proper_nil,rfl,le_rfl,rfl,fun _ _ => rfl⟩
  obtain ⟨t,ht,hcopied⟩ := hstart.loop hheld hnul hsmall
  rw [Nat.zero_add] at hcopied
  have hlen := hcopied.insertPos
  have hbehind := hcopied.behind
  have hstored := hcopied.stored
  set w := (items false false text).foldl Words.push ⟨[],[]⟩ with hw
  have hwords : textWords text = w.all := rfl
  obtain ⟨rest,hrest⟩ := w.stored_multiString (z := 0)
  have hlength := congrArg List.length hrest
  rw [List.length_append,List.length_append,← hlen] at hlength
  have hmem : ∀ m : ℕ → UInt8, ∀ a : ℕ, Function.update (Function.update m a 0) (a + 1) 0 = put m a [0,0] := fun _ _ => rfl
  refine ⟨put t.mem (args + t.insertPos) [0,0],?_,?_,?_,?_,?_⟩
  · unfold embeddedCliTokenizeArgs
    rw [ht,Option.map_some,hmem]
  · rw [hlen] at hstored
    have hall := get_put_behind hstored [0,0]
    rw [← List.length_append,hrest,get_append,← hlen] at hall
    rw [hwords]
    exact hall.1
  · exact hcopied.proper.all
  · rw [hwords]
    simp only [List.length_cons,List.length_nil] at hlength
    omega
  · intro x hx
    rw [put_outside _ _ _ (by simp only [List.length_cons,List.length_nil]; omega)]
    exact hcopied.outside x (by omega)

end Scanning

section Finding
variable {args i k t : ℕ} {mem : ℕ → UInt8} {word cs : List UInt8} {words : List (List UInt8)}

/-- The loop of `embeddedCliGetTokenCount` passes by the characters of a word. -/
theorem tokenCountLoop_word (hheld : Circular.get mem (args + i) word.length = word) (hnul : 0 ∉ word) (rounds : ℕ) :
    tokenCountLoop args mem (rounds + word.length) i t = tokenCountLoop args mem rounds (i + word.length) t := by
  induction word generalizing i with
  | nil => rfl
  | cons c word ih =>
    obtain ⟨hc,htail⟩ := List.cons.inj hheld
    rw [List.mem_cons,not_or] at hnul
    rw [List.length_cons,← Nat.add_assoc]
    conv_lhs => unfold tokenCountLoop
    rw [if_neg (by rw [hc]; exact Ne.symm hnul.1),ih htail hnul.2]
    congr 1
    omega

/-- The bytes of the first word, its terminator, and those of the words behind it. -/
theorem held_cons (hheld : Circular.get mem (args + i) (terminated 0 (word :: words) ++ [0]).length =
      terminated 0 (word :: words) ++ [0]) :
    Circular.get mem (args + i) word.length = word ∧ mem (args + (i + word.length)) = 0 ∧
      Circular.get mem (args + (i + word.length + 1)) (terminated 0 words ++ [0]).length = terminated 0 words ++ [0] := by
  rw [terminated_cons,List.append_assoc,get_append] at hheld
  obtain ⟨hword,hrest⟩ := hheld
  obtain ⟨hzero,htail⟩ := List.cons.inj hrest
  rw [Nat.add_assoc] at hzero htail
  rw [Nat.add_assoc] at htail
  exact ⟨hword,hzero,htail⟩

/-- The byte behind a terminator tells whether another word follows. -/
theorem held_next (hheld : Circular.get mem (args + i) (terminated 0 words ++ [0]).length = terminated 0 words ++ [0])
    (hproper : ∀ word ∈ words, word ≠ [] ∧ 0 ∉ word) : mem (args + i) = 0 ↔ words = [] := by
  cases words with
  | nil => exact iff_of_true (List.head_eq_of_cons_eq hheld) rfl
  | cons word words =>
    obtain ⟨hne,hnul⟩ := hproper word (List.mem_cons_self ..)
    obtain ⟨c,word,rfl⟩ := List.exists_cons_of_ne_nil hne
    have hchar := List.head_eq_of_cons_eq (held_cons hheld).1
    rw [List.mem_cons,not_or] at hnul
    refine iff_of_false ?_ (by simp)
    rw [hchar]
    exact Ne.symm hnul.1

/-- The loop of `embeddedCliGetTokenCount` counts the words that are left. -/
theorem tokenCountLoop_words (hheld : Circular.get mem (args + i) (terminated 0 (word :: words) ++ [0]).length =
      terminated 0 (word :: words) ++ [0]) (hproper : ∀ w ∈ word :: words, w ≠ [] ∧ 0 ∉ w) {rounds : ℕ}
    (hrounds : (terminated 0 (word :: words)).length ≤ rounds) (ht : t + words.length < 2 ^ 16) :
    tokenCountLoop args mem rounds i t = some (t + words.length) := by
  induction words generalizing i t rounds word with
  | nil =>
    obtain ⟨hword,hzero,hrest⟩ := held_cons hheld
    obtain ⟨r,rfl⟩ := Nat.exists_eq_add_of_le hrounds
    have hsplit : (terminated 0 [word]).length + r = (r + 1) + word.length := by
      rw [terminated_cons,List.length_append]
      simp only [List.length_cons,terminated,List.flatMap_nil,List.length_nil]
      omega
    rw [hsplit,tokenCountLoop_word hword (hproper word (List.mem_cons_self ..)).2]
    unfold tokenCountLoop
    rw [if_pos hzero,if_pos (List.head_eq_of_cons_eq hrest)]
    rfl
  | cons next words ih =>
    obtain ⟨hword,hzero,hrest⟩ := held_cons hheld
    obtain ⟨r,rfl⟩ := Nat.exists_eq_add_of_le hrounds
    have hsplit : (terminated 0 (word :: next :: words)).length + r =
        ((terminated 0 (next :: words)).length + r) + 1 + word.length := by
      rw [terminated_cons,List.length_append,List.length_cons]
      omega
    have hleft : ∀ w ∈ next :: words, w ≠ [] ∧ 0 ∉ w := fun w hw => hproper w (List.mem_cons_of_mem _ hw)
    rw [List.length_cons] at ht ⊢
    rw [hsplit,tokenCountLoop_word hword (hproper word (List.mem_cons_self ..)).2]
    unfold tokenCountLoop
    rw [if_pos hzero,if_neg (fun hend => List.cons_ne_nil _ _ ((held_next hrest hleft).mp hend)),u16_of_lt (by omega),
      ih hrest hleft (Nat.le_add_right ..) (by omega)]
    congr 1
    omega

/-- The loop of `embeddedCliGetTokenCount` ends at two terminators at the latest. -/
theorem tokenCountLoop_ended {d : ℕ} (hzero : mem (args + d) = 0) (hnext : mem (args + (d + 1)) = 0) (hi : i ≤ d) {rounds : ℕ}
    (hrounds : d - i < rounds) (ht : t + (d - i) < 2 ^ 16) : ∃ n, t ≤ n ∧ tokenCountLoop args mem rounds i t = some n := by
  induction rounds generalizing i t with
  | zero => exact absurd hrounds (Nat.not_lt_zero _)
  | succ rounds ih =>
    unfold tokenCountLoop
    by_cases hat : mem (args + i) = 0
    · by_cases hend : mem (args + (i + 1)) = 0
      · exact ⟨t,le_rfl,by rw [if_pos hat,if_pos hend]⟩
      · have hlt : i < d := Nat.lt_of_le_of_ne hi fun heq => hend (heq ▸ hnext)
        obtain ⟨n,hn,hloop⟩ := @ih (i + 1) (t + 1) hlt (by omega) (by omega)
        exact ⟨n,by omega,by rw [if_pos hat,if_neg hend,u16_of_lt (by omega),hloop]⟩
    · have hlt : i < d := Nat.lt_of_le_of_ne hi fun heq => hat (heq ▸ hzero)
      obtain ⟨n,hn,hloop⟩ := @ih (i + 1) t hlt (by omega) (by omega)
      exact ⟨n,hn,by rw [if_neg hat,hloop]⟩

theorem getTokenCount_eq (hheld : Circular.get mem args (multiString 0 words).length = multiString 0 words)
    (hproper : ∀ w ∈ words, w ≠ [] ∧ 0 ∉ w) (hsmall : (multiString 0 words).length ≤ 2 ^ 16) :
    embeddedCliGetTokenCount args mem = some words.length := by
  cases words with
  | nil => exact if_pos (List.head_eq_of_cons_eq hheld)
  | cons word words =>
    have hlength := length_le_terminated 0 (word :: words)
    unfold multiString at hheld hsmall
    rw [if_neg (by simp)] at hheld hsmall
    rw [List.length_append,List.length_singleton] at hsmall
    rw [List.length_cons] at hlength
    have hfirst : mem args ≠ 0 := fun hend => by simpa using (held_next (i := 0) hheld hproper).mp hend
    unfold embeddedCliGetTokenCount
    rw [if_neg hfirst,
      tokenCountLoop_words (i := 0) hheld hproper (by omega) (by omega),Nat.add_comm]
    rfl

/-- The loop of `getTokenPosition` passes by the characters of a word that is not the one. -/
theorem tokenPositionLoop_word {pos : ℕ} (hpos : t ≠ pos) (hheld : Circular.get mem (args + i) word.length = word)
    (hnul : 0 ∉ word) (hsmall : i + word.length < 2 ^ 16) (rounds : ℕ) :
    tokenPositionLoop args mem pos (rounds + word.length) i t =
      tokenPositionLoop args mem pos rounds (i + word.length) t := by
  induction word generalizing i with
  | nil => rfl
  | cons c word ih =>
    obtain ⟨hc,htail⟩ := List.cons.inj hheld
    rw [List.mem_cons,not_or] at hnul
    rw [List.length_cons] at hsmall
    rw [List.length_cons,← Nat.add_assoc]
    conv_lhs => unfold tokenPositionLoop
    rw [if_neg hpos,if_neg (by rw [hc]; exact Ne.symm hnul.1),u16_of_lt (by omega),ih htail hnul.2 (by omega)]
    congr 1
    omega

/-- The place where the loop of `getTokenPosition` ends: at the word of the number, or else at a terminator. -/
def EndsAt (args : ℕ) (mem : ℕ → UInt8) (words : List (List UInt8)) (i n j : ℕ) : Prop :=
  j < i + (terminated 0 words).length ∧ (n < words.length → j = i + (terminated 0 (words.take n)).length) ∧
    (words.length ≤ n → mem (args + j) = 0)

theorem EndsAt.cons {n j : ℕ} (h : EndsAt args mem words (i + word.length + 1) n j) :
    EndsAt args mem (word :: words) i (n + 1) j := by
  obtain ⟨hlt,hword,hzero⟩ := h
  refine ⟨?_,fun hn => ?_,fun hn => hzero (Nat.le_of_succ_le_succ hn)⟩
  · rw [terminated_cons,List.length_append,List.length_cons]
    omega
  · rw [hword (Nat.lt_of_succ_lt_succ hn),List.take_succ_cons,terminated_cons,List.length_append,List.length_cons]
    omega

theorem tokenPositionLoop_words {n : ℕ} (hheld : Circular.get mem (args + i) (terminated 0 (word :: words) ++ [0]).length =
      terminated 0 (word :: words) ++ [0]) (hproper : ∀ w ∈ word :: words, w ≠ [] ∧ 0 ∉ w) {rounds : ℕ}
    (hrounds : (terminated 0 (word :: words)).length ≤ rounds) (hpos : t + n < 2 ^ 16)
    (hsmall : i + (terminated 0 (word :: words)).length < 2 ^ 16) :
    ∃ j, tokenPositionLoop args mem (t + n) rounds i t = some j ∧ EndsAt args mem (word :: words) i n j := by
  induction words generalizing i t n rounds word with
  | nil =>
    obtain ⟨hword,hzero,hrest⟩ := held_cons hheld
    obtain ⟨r,rfl⟩ := Nat.exists_eq_add_of_le hrounds
    have hlength : (terminated 0 [word]).length = word.length + 1 := by rw [terminated_cons,List.length_append]; rfl
    rw [hlength] at hsmall
    have hsplit : (terminated 0 [word]).length + r = (r + 1) + word.length := by omega
    rw [hsplit]
    cases n with
    | zero =>
      refine ⟨i,?_,by rw [hlength]; omega,fun _ => rfl,fun h => absurd h (Nat.not_succ_le_zero 0)⟩
      rw [← Nat.add_right_comm]
      exact if_pos rfl
    | succ n =>
      refine ⟨i + word.length,?_,by rw [hlength]; omega,fun h => absurd h (by simp),fun _ => hzero⟩
      rw [tokenPositionLoop_word (by omega) hword (hproper word (List.mem_cons_self ..)).2 (by omega)]
      unfold tokenPositionLoop
      rw [if_neg (by omega),if_pos hzero,if_pos (List.head_eq_of_cons_eq hrest)]
  | cons next words ih =>
    obtain ⟨hword,hzero,hrest⟩ := held_cons hheld
    obtain ⟨r,rfl⟩ := Nat.exists_eq_add_of_le hrounds
    have hlength : (terminated 0 (word :: next :: words)).length = word.length + 1 + (terminated 0 (next :: words)).length := by
      rw [terminated_cons,List.length_append,List.length_cons]
      omega
    rw [hlength] at hsmall
    have hsplit : (terminated 0 (word :: next :: words)).length + r =
        ((terminated 0 (next :: words)).length + r) + 1 + word.length := by omega
    have hleft : ∀ w ∈ next :: words, w ≠ [] ∧ 0 ∉ w := fun w hw => hproper w (List.mem_cons_of_mem _ hw)
    rw [hsplit]
    cases n with
    | zero =>
      refine ⟨i,?_,by rw [hlength]; omega,fun _ => rfl,fun h => absurd h (Nat.not_succ_le_zero _)⟩
      rw [← Nat.add_right_comm]
      exact if_pos rfl
    | succ n =>
      have hcount : t + (n + 1) = t + 1 + n := by omega
      rw [hcount,tokenPositionLoop_word (by omega) hword (hproper word (List.mem_cons_self ..)).2 (by omega)]
      unfold tokenPositionLoop
      rw [if_neg (by omega),if_pos hzero,if_neg (fun hend => by simpa using (held_next hrest hleft).mp hend),
        u16_of_lt (by omega),u16_of_lt (by omega)]
      obtain ⟨j,hj,hends⟩ := ih (t := t + 1) (n := n) hrest hleft (Nat.le_add_right _ r) (by omega) (by omega)
      exact ⟨j,hj,hends.cons⟩

theorem cString_eq {p : ℕ} (hheld : Circular.get mem p (word.length + 1) = word ++ [0]) (hnul : 0 ∉ word)
    (hsmall : word.length < 2 ^ 16) : cString mem p = word := by
  have hparts : Circular.get mem p (word ++ [0]).length = word ++ [0] := by
    rw [List.length_append]
    exact hheld
  unfold cString strlen
  rw [strlenFrom_eq hheld hnul hsmall]
  exact (get_append.mp hparts).1

/-- The word of a number, where the words lie in the memory. -/
theorem held_word (hheld : Circular.get mem args (terminated 0 words ++ [0]).length = terminated 0 words ++ [0]) {n : ℕ}
    (hword : words[n]? = some word) :
    Circular.get mem (args + (terminated 0 (words.take n)).length) (word.length + 1) = word ++ [0] := by
  obtain ⟨hlt,rfl⟩ := List.getElem?_eq_some_iff.mp hword
  have hsplit : terminated 0 words ++ [0] =
      terminated 0 (words.take n) ++ (words[n] ++ [0] ++ (terminated 0 (words.drop (n + 1)) ++ [0])) := by
    conv_lhs => rw [← List.take_append_drop n words,List.drop_eq_getElem_cons hlt,terminated_append,terminated_cons]
    simp
  rw [hsplit,get_append,get_append] at hheld
  rw [← hheld.2.1,List.length_append]
  rfl

/-- The token of a number is the word of this number, if there is one. -/
theorem getToken_eq (hheld : Circular.get mem args (multiString 0 words).length = multiString 0 words)
    (hproper : ∀ w ∈ words, w ≠ [] ∧ 0 ∉ w) (hsmall : (multiString 0 words).length < 2 ^ 16) {pos : ℕ} (hpos : pos < 2 ^ 16) :
    ∃ place, embeddedCliGetToken args mem pos = some place ∧
      place.map (cString mem) = if pos = 0 then none else words[pos - 1]? := by
  cases pos with
  | zero => exact ⟨none,rfl,rfl⟩
  | succ n =>
    unfold embeddedCliGetToken getTokenPosition
    rw [if_neg (Nat.succ_ne_zero n),if_neg (Nat.succ_ne_zero n),Nat.add_sub_cancel]
    by_cases hempty : words = []
    · obtain ⟨hfirst,hsecond⟩ : mem args = 0 ∧ mem (args + 1) = 0 := by
        rw [hempty] at hheld
        obtain ⟨hfirst,htail⟩ := List.cons.inj hheld
        exact ⟨hfirst,List.head_eq_of_cons_eq htail⟩
      have hloop : tokenPositionLoop args mem (n + 1) (2 ^ 16 - 1 + 1) 0 1 = some 0 := by
        unfold tokenPositionLoop
        rw [if_pos (show mem (args + 0) = 0 from hfirst),if_pos (show mem (args + (0 + 1)) = 0 from hsecond),ite_self]
      refine ⟨none,?_,by rw [hempty]; rfl⟩
      rw [show tokenPositionLoop args mem (n + 1) (2 ^ 16) 0 1 = some 0 from hloop,Option.map_some,Nat.add_zero,
        if_neg (not_not.mpr hfirst)]
      rfl
    · obtain ⟨word,rest,rfl⟩ := List.exists_cons_of_ne_nil hempty
      unfold multiString at hheld hsmall
      rw [if_neg hempty] at hheld hsmall
      rw [List.length_append,List.length_singleton] at hsmall
      obtain ⟨j,hj,hlt,hfound,hmissing⟩ := tokenPositionLoop_words (i := 0) (t := 1) (n := n) hheld hproper
        (by omega : _ ≤ 2 ^ 16) (by omega) (by omega)
      rw [Nat.add_comm n 1,hj,Option.map_some]
      rcases Nat.lt_or_ge n (word :: rest).length with hn | hn
      · have hword := List.getElem?_eq_getElem hn
        obtain ⟨hne,hnul⟩ := hproper _ (List.getElem_mem hn)
        have hplace : Circular.get mem (args + j) ((word :: rest)[n].length + 1) = (word :: rest)[n] ++ [0] := by
          rw [hfound hn,Nat.zero_add]
          exact held_word hheld hword
        have hchar : mem (args + j) ≠ 0 := by
          obtain ⟨c,cs,hcs⟩ := List.exists_cons_of_ne_nil hne
          rw [hcs] at hplace hnul
          rw [List.head_eq_of_cons_eq hplace]
          exact Ne.symm (not_or.mp (List.mem_cons.not.mp hnul)).1
        have hshort := length_lt_terminated 0 (List.getElem_mem hn)
        refine ⟨some (args + j),?_,?_⟩
        · rw [if_pos hchar,Option.map_some,if_pos (by unfold cliTokenNpos; omega)]
        · rw [hword,Option.map_some,cString_eq hplace hnul (by omega)]
      · refine ⟨none,?_,?_⟩
        · rw [if_neg (not_not.mpr (hmissing hn))]
          rfl
        · rw [List.getElem?_eq_none hn]
          rfl

/-- `embeddedCliFindToken` returns the number of the first word that is the token, and zero when there is none. -/
theorem findToken_eq (hheld : Circular.get mem args (multiString 0 words).length = multiString 0 words)
    (hproper : ∀ w ∈ words, w ≠ [] ∧ 0 ∉ w) (hsmall : (multiString 0 words).length < 2 ^ 16) (token : List UInt8) :
    embeddedCliFindToken args mem token = some ((words.idxOf? token).elim 0 (· + 1)) := by
  have hcount : words.length + 1 < 2 ^ 16 := by
    have hlength := length_le_terminated 0 words
    unfold multiString at hsmall
    split at hsmall
    · subst words
      decide
    · rw [List.length_append,List.length_singleton] at hsmall
      omega
  have hloop : ∀ left i, i + left = words.length → findTokenLoop args mem token left (i + 1) =
      some (((words.drop i).idxOf? token).elim 0 (· + i + 1)) := by
    intro left
    induction left with
    | zero =>
      intro i hi
      rw [List.drop_of_length_le (by omega)]
      rfl
    | succ left ih =>
      intro i hi
      have hlt : i < words.length := by omega
      obtain ⟨place,hplace,hword⟩ := getToken_eq hheld hproper hsmall (by omega : i + 1 < 2 ^ 16)
      rw [if_neg (Nat.succ_ne_zero i),Nat.add_sub_cancel,List.getElem?_eq_getElem hlt] at hword
      obtain ⟨p,rfl,hp⟩ := Option.map_eq_some_iff.mp hword
      unfold findTokenLoop
      rw [hplace,List.drop_eq_getElem_cons hlt,List.idxOf?_cons]
      dsimp only
      rw [hp]
      by_cases hsame : words[i] = token
      · rw [if_pos hsame,if_pos (by rw [beq_iff_eq]; exact hsame)]
        simp
      · rw [if_neg hsame,if_neg (by rw [beq_iff_eq]; exact hsame),u16_of_lt (by omega),ih (i + 1) (by omega)]
        cases (words.drop (i + 1)).idxOf? token with
        | none => rfl
        | some k => simp; omega
  unfold embeddedCliFindToken
  rw [getTokenCount_eq hheld hproper hsmall.le,Option.bind_some,hloop words.length 0 (Nat.zero_add _)]
  rfl

end Finding

section Results
variable {args : ℕ} {mem : ℕ → UInt8} {words : List (List UInt8)}

/-- The tokens that are counted and found are the given words. -/
structure Tokenized (args : ℕ) (mem : ℕ → UInt8) (words : List (List UInt8)) : Prop where
  first : cString mem args = words.head?.getD []
  count : embeddedCliGetTokenCount args mem = some words.length
  token : ∀ pos < 2 ^ 16, ∃ place, embeddedCliGetToken args mem pos = some place ∧
    place.map (cString mem) = if pos = 0 then none else words[pos - 1]?
  find : ∀ token, embeddedCliFindToken args mem token = some ((words.idxOf? token).elim 0 (· + 1))

theorem tokenized_of_held (hheld : Circular.get mem args (multiString 0 words).length = multiString 0 words)
    (hproper : ∀ w ∈ words, w ≠ [] ∧ 0 ∉ w) (hsmall : (multiString 0 words).length < 2 ^ 16) : Tokenized args mem words where
  first := by
    cases words with
    | nil => exact @cString_eq mem [] args (by rw [Circular.get,List.head_eq_of_cons_eq hheld]; rfl) List.not_mem_nil (by decide)
    | cons word words =>
      unfold multiString at hheld hsmall
      rw [if_neg (List.cons_ne_nil word words)] at hheld hsmall
      have hfirst := held_word (n := 0) hheld rfl
      have hlength := length_lt_terminated 0 (List.mem_cons_self (a := word) (l := words))
      rw [List.length_append] at hsmall
      have hshort : word.length < 2 ^ 16 := by omega
      exact cString_eq hfirst (hproper word (List.mem_cons_self ..)).2 hshort
  count := getTokenCount_eq hheld hproper hsmall.le
  token _ hpos := getToken_eq hheld hproper hsmall hpos
  find := findToken_eq hheld hproper hsmall

/-- The arguments of a command are cut into the words of their text, in their own place and the two bytes behind it. -/
theorem tokenizeArgs_words (text : CString) (hheld : Circular.get mem args (text.bytes.length + 1) = text.bytes ++ [0])
    (hsmall : text.bytes.length + 2 < 2 ^ 16) :
    ∃ mem', embeddedCliTokenizeArgs args mem = some mem' ∧ Tokenized args mem' (textWords text.bytes) ∧
      ∀ x, x < args ∨ args + text.bytes.length + 2 ≤ x → mem' x = mem x := by
  obtain ⟨mem',hmem',hwords,hproper,hlength,houtside⟩ := tokenizeArgs_holds hheld text.noNul (by omega)
  exact ⟨mem',hmem',tokenized_of_held hwords hproper (Nat.lt_of_le_of_lt hlength hsmall),houtside⟩

/-- A token in quotes, and a quote with a backslash. -/
def quotedText : CString := ⟨ascii "\"a b\"  \\\"",by decide⟩

theorem tokenizeArgs_words_quoted :
    textWords quotedText.bytes = [ascii "a b",ascii "\""] ∧
      ∃ mem', embeddedCliTokenizeArgs 3 (put (fun _ => 0) 3 (quotedText.bytes ++ [0])) = some mem' ∧
        Tokenized 3 mem' (textWords quotedText.bytes) ∧
        ∀ x, x < 3 ∨ 3 + quotedText.bytes.length + 2 ≤ x → mem' x = put (fun _ => 0) 3 (quotedText.bytes ++ [0]) x :=
  ⟨by decide,tokenizeArgs_words quotedText (by decide) (by decide)⟩

end Results

section Writing

/-- A token as it is written: behind some blanks, in quotes or not. -/
structure Written where
  gap : ℕ
  quoted : Bool
  token : Token

/-- The characters that need a backslash. -/
def needsEscape (quoted : Bool) (c : UInt8) : Bool := c = charBackslash ∨ c = charQuote ∨ (¬quoted ∧ c = charBlank)

def escape (quoted : Bool) (chars : List UInt8) : List UInt8 :=
  chars.flatMap fun c => if needsEscape quoted c then [charBackslash,c] else [c]

def Written.text (w : Written) : List UInt8 :=
  List.replicate w.gap charBlank ++ if w.quoted then charQuote :: escape true w.token.chars ++ [charQuote]
    else escape false w.token.chars

def written (words : List Written) : List UInt8 := words.flatMap Written.text

theorem Written.text_noNul (w : Written) (hnul : 0 ∉ w.token.chars) : 0 ∉ w.text := by
  have hescape : ∀ quoted, 0 ∉ escape quoted w.token.chars := by
    intro quoted hzero
    obtain ⟨c,hc,hmem⟩ := List.mem_flatMap.mp hzero
    split at hmem
    · rcases List.mem_cons.mp hmem with hslash | hlast
      · exact absurd hslash (by decide)
      · exact hnul (List.mem_singleton.mp hlast ▸ hc)
    · exact hnul (List.mem_singleton.mp hmem ▸ hc)
  unfold Written.text
  rw [List.mem_append,not_or]
  refine ⟨fun hzero => absurd (List.eq_of_mem_replicate hzero) (by decide),?_⟩
  split
  · rw [List.cons_append,List.mem_cons,List.mem_append,List.mem_singleton]
    rintro (hzero | hzero | hzero)
    · exact absurd hzero (by decide)
    · exact hescape true hzero
    · exact absurd hzero (by decide)
  · exact hescape false

theorem items_blanks (n : ℕ) (text : List UInt8) :
    items false false (List.replicate n charBlank ++ text) = List.replicate n none ++ items false false text := by
  induction n with
  | zero => rfl
  | succ n ih =>
    rw [List.replicate_succ,List.cons_append,items,if_neg (by decide),if_neg (by decide),if_pos (by decide),ih]
    rfl

theorem items_escape (quoted : Bool) (chars text : List UInt8) :
    items quoted false (escape quoted chars ++ text) = chars.map some ++ items quoted false text := by
  induction chars with
  | nil => rfl
  | cons c chars ih =>
    have hcons : escape quoted (c :: chars) = (if needsEscape quoted c then [charBackslash,c] else [c]) ++ escape quoted chars := rfl
    rw [hcons,List.append_assoc,List.map_cons,List.cons_append,← ih]
    by_cases hc : needsEscape quoted c = true
    · rw [if_pos hc]
      rfl
    · rw [if_neg hc]
      unfold needsEscape at hc
      rw [decide_eq_true_iff,not_or,not_or] at hc
      rw [List.singleton_append,items,if_neg hc.1,if_neg hc.2.1,if_neg hc.2.2]

/-- A written token is the next word, behind a separator or at the beginning. -/
theorem foldl_written (w : Written) {read : Words UInt8} (hgap : w.gap = 0 → read = ⟨read.all,[]⟩) (text : List UInt8) :
    ∃ next : Words UInt8, next.all = read.all ++ [w.token.chars] ∧
      (items false false (w.text ++ text)).foldl Words.push read = (items false false text).foldl Words.push next := by
  have hblanks : (List.replicate w.gap none).foldl Words.push read = ⟨read.all,[]⟩ := by
    rcases Nat.eq_zero_or_pos w.gap with hzero | hpos
    · rw [hzero]
      exact hgap hzero
    · exact foldl_push_separators read w.gap hpos
  unfold Written.text
  rw [List.append_assoc,items_blanks,List.foldl_append,hblanks]
  cases w.quoted with
  | false =>
    refine ⟨⟨read.all,w.token.chars⟩,if_neg w.token.nonempty,?_⟩
    rw [if_neg Bool.false_ne_true,items_escape,List.foldl_append,foldl_push_characters]
    rfl
  | true =>
    refine ⟨⟨read.all ++ [w.token.chars],[]⟩,if_pos rfl,?_⟩
    have hopen : ∀ rest, items false false (charQuote :: rest) = none :: items true false rest := fun _ => rfl
    have hclose : items true false (charQuote :: text) = none :: items false false text := rfl
    rw [if_pos rfl,List.cons_append,List.cons_append,hopen,List.append_assoc,items_escape,List.singleton_append,hclose]
    rw [List.foldl_cons,List.foldl_append,foldl_push_characters,List.foldl_cons]
    have hpush : Words.push (⟨read.all,[] ++ w.token.chars⟩ : Words UInt8) none = ⟨read.all ++ [w.token.chars],[]⟩ :=
      if_neg w.token.nonempty
    rw [← hpush]
    rfl

theorem textWords_written (words : List Written) (hgaps : ∀ w ∈ words.tail, 0 < w.gap) :
    textWords (written words) = words.map fun w => w.token.chars := by
  have hstep : ∀ (words : List Written) (read : Words UInt8), (∀ w ∈ words, 0 < w.gap) →
      ((items false false (written words)).foldl Words.push read).all = read.all ++ words.map fun w => w.token.chars := by
    intro words
    induction words with
    | nil => exact fun read _ => (List.append_nil _).symm
    | cons w words ih =>
      intro read hgaps
      have hgap := hgaps w (List.mem_cons_self ..)
      obtain ⟨next,hall,hfold⟩ := foldl_written w (fun hzero => absurd hzero hgap.ne') (written words)
      rw [show written (w :: words) = w.text ++ written words from rfl,hfold,
        ih next fun v hv => hgaps v (List.mem_cons_of_mem _ hv),hall,List.append_assoc]
      rfl
  unfold textWords wordsOf
  cases words with
  | nil => rfl
  | cons w words =>
    obtain ⟨next,hall,hfold⟩ := @foldl_written w ⟨[],[]⟩ (fun _ => rfl) (written words)
    rw [show written (w :: words) = w.text ++ written words from rfl,hfold,hstep words next hgaps,hall]
    rfl

/-- What is written with blanks, quotes and backslashes as needed is cut into the same tokens again. -/
theorem tokenizeArgs_written {args : ℕ} {mem : ℕ → UInt8} (words : List Written) (hgaps : ∀ w ∈ words.tail, 0 < w.gap)
    (hnul : ∀ w ∈ words, 0 ∉ w.token.chars)
    (hheld : Circular.get mem args ((written words).length + 1) = written words ++ [0])
    (hsmall : (written words).length + 2 < 2 ^ 16) :
    ∃ mem', embeddedCliTokenizeArgs args mem = some mem' ∧ Tokenized args mem' (words.map fun w => w.token.chars) := by
  have htext : 0 ∉ written words := by
    unfold written
    rw [List.mem_flatMap]
    rintro ⟨w,hw,hzero⟩
    exact w.text_noNul (hnul w hw) hzero
  obtain ⟨mem',hmem',hwords,hproper,hlength,-⟩ := tokenizeArgs_holds hheld htext (by omega)
  have htokens := tokenized_of_held hwords hproper (Nat.lt_of_le_of_lt hlength hsmall)
  rw [textWords_written words hgaps] at htokens
  exact ⟨mem',hmem',htokens⟩

/-- A name in quotes, and one with a quote in it. -/
def someWritten : List Written := [⟨0,true,⟨ascii "a b",by decide⟩⟩,⟨2,false,⟨ascii "x\"y",by decide⟩⟩]

theorem tokenizeArgs_written_some :
    ∃ mem', embeddedCliTokenizeArgs 3 (put (fun _ => 0) 3 (ascii "\"a b\"  x\\\"y")) = some mem' ∧
      Tokenized 3 mem' [ascii "a b",ascii "x\"y"] :=
  tokenizeArgs_written someWritten (by decide) (by decide) (by decide) (by decide)

end Writing

end EmbedTemplate.Cli.Tokens
