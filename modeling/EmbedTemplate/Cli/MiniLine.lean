import EmbedTemplate.Library.Bytes
import EmbedTemplate.Library.LowestBit
import EmbedTemplate.Library.Machine
import EmbedTemplate.Library.WordSet

/-! # The line of the small command line

`cli_mini.c` collects a line together with a bitmap of its spaces, and splits it at the bits of
the map. Every access to an array is checked: outside of the array there is no next state.
-/
namespace EmbedTemplate.Cli.Mini
open Bytes LowestBit

section Memory
variable {α : Type*}

def load (size : ℕ) (a : ℕ → α) (i : ℕ) : Option α := if i < size then some (a i) else none

def store (size : ℕ) (a : ℕ → α) (i : ℕ) (v : α) : Option (ℕ → α) :=
  if i < size then some (Function.update a i v) else none

theorem load_of_lt {size i : ℕ} {a : ℕ → α} (h : i < size) : load size a i = some (a i) := if_pos h

theorem store_of_lt {size i : ℕ} {a : ℕ → α} {v : α} (h : i < size) :
    store size a i v = some (Function.update a i v) := if_pos h

end Memory

/-- `CHAR_SPACE`, `NULL_TOKEN` -/
def charSpace : UInt8 := 32
def nullToken : ℕ := 0xFF

/-- The words of `rxBitmap` -/
def bitmapWords : ℕ := 4

/-- `rxBuf`, `rxCount` and `rxBitmap` -/
structure Line where
  rxBuf : ℕ → UInt8
  rxCount : ℕ
  rxBitmap : ℕ → BitVec 32

/-- Bit `i` of a bitmap. -/
def bitAt (bitmap : ℕ → BitVec 32) (i : ℕ) : Bool := (bitmap (i / 32)).getLsbD (i % 32)

section Editing
variable (maxLine : ℕ)

/-- `cli_receive_char`, without the echo -/
def cliReceiveChar (l : Line) (c : UInt8) : Option Line :=
  if l.rxCount < maxLine then
    (if c = charSpace then
      (load bitmapWords l.rxBitmap (l.rxCount / 32)).bind fun word =>
        store bitmapWords l.rxBitmap (l.rxCount / 32) (word ||| 1#32 <<< (l.rxCount % 32))
    else some l.rxBitmap).bind fun bitmap =>
    (store maxLine l.rxBuf l.rxCount c).map fun buf => ⟨buf,u8 (l.rxCount + 1),bitmap⟩
  else some l

/-- `cli_clear_last_char`, without the echo -/
def cliClearLastChar (l : Line) : Option Line :=
  if l.rxCount ≠ 0 then
    let rxCount := l.rxCount - 1
    (load bitmapWords l.rxBitmap (rxCount / 32)).bind fun word =>
    (store bitmapWords l.rxBitmap (rxCount / 32) (word &&& ~~~(1#32 <<< (rxCount % 32)))).map fun bitmap =>
    { l with rxCount := rxCount, rxBitmap := bitmap }
  else some l

/-- A character that is received or taken back. -/
inductive Edit where
  | receive (c : UInt8)
  | clear
  deriving DecidableEq

def edit (l : Line) : Edit → Option Line
  | .receive c => cliReceiveChar maxLine l c
  | .clear => cliClearLastChar l

/-- The characters of a line. -/
def Line.text (l : Line) : List UInt8 := (List.range l.rxCount).map l.rxBuf

/-- What an edit makes of a text for which there is so much room. -/
def edited (text : List UInt8) : Edit → List UInt8
  | .receive c => if text.length < maxLine then text ++ [c] else text
  | .clear => text.dropLast

end Editing

section Tokenize

/-- The line and the local variables of `cli_tokenize` in its loop. -/
structure Scan where
  str : ℕ → UInt8
  tkn : ℕ → ℕ
  numTkns : ℕ
  token : ℕ

variable (size len : ℕ)

/-- The end of a token at a space, when there is a token. -/
def endToken (t : Scan) (idx : ℕ) : Option Scan :=
  if idx > t.token then
    (store size t.str idx 0).bind fun str =>
    (store 4 t.tkn t.numTkns (u8 t.token)).map fun tkn =>
    { t with str := str, tkn := tkn, numTkns := t.numTkns + 1 }
  else some t

/-- The inner loop over the bits of one word, of which there are no more than the fuel. -/
def tokenizeWord (i : ℕ) : ℕ → BitVec 32 → Scan → Option Scan
  | 0, _, t => some t
  | fuel + 1, mask, t =>
    if mask = 0#32 then some t
    else
      let idx := i * 32 + mask.ctz.toNat
      if idx ≥ len then some { t with token := len }
      else (endToken size t idx).bind fun t =>
        let t := { t with token := idx + 1 }
        if t.numTkns ≥ 4 then some t else tokenizeWord i fuel (mask &&& (mask - 1#32)) t

/-- The outer loop over the words of the bitmap. -/
def tokenizeWords (bitmap : ℕ → BitVec 32) : List ℕ → Scan → Option Scan
  | [], t => some t
  | i :: is, t =>
    (load bitmapWords bitmap i).bind fun mask =>
    (tokenizeWord size len i 32 mask t).bind fun t =>
    if t.numTkns ≥ 4 then some t else tokenizeWords bitmap is t

/-- `cli_tokenize` on a string in an array: the string behind it and the four tokens. -/
def cliTokenize (str : ℕ → UInt8) (bitmap : ℕ → BitVec 32) : Option ((ℕ → UInt8) × (ℕ → ℕ)) :=
  (tokenizeWords size len bitmap [0,1,2,3] ⟨str,fun _ => nullToken,0,0⟩).bind fun t =>
  if t.numTkns < 4 ∧ t.token < len then
    (store 4 t.tkn t.numTkns (u8 t.token)).map fun tkn => (t.str,tkn)
  else some (t.str,t.tkn)

end Tokenize

section Bitmap
variable (bitmap : ℕ → BitVec 32) (k i : ℕ)

theorem word_lt {k : ℕ} (h : k < 128) : k / 32 < bitmapWords := (Nat.div_lt_iff_lt_mul (by decide)).mpr h

theorem bitAt_set : bitAt (Function.update bitmap (k / 32) (bitmap (k / 32) ||| 1#32 <<< (k % 32))) i =
    (bitAt bitmap i || decide (i = k)) :=
  WordSet.has_add bitmap k i (by decide)

theorem bitAt_unset : bitAt (Function.update bitmap (k / 32) (bitmap (k / 32) &&& ~~~(1#32 <<< (k % 32)))) i =
    (bitAt bitmap i && decide (i ≠ k)) :=
  WordSet.has_remove bitmap k i (by decide)

end Bitmap

section Edits
variable {maxLine : ℕ} {l : Line}

/-- The bits of the bitmap are those of the spaces of the line. -/
def Mapped (l : Line) : Prop := ∀ i < 128, bitAt l.rxBitmap i = decide (i < l.rxCount ∧ l.rxBuf i = charSpace)

/-- The line before the first character, over what the buffer happens to hold. -/
def emptyLine (rxBuf : ℕ → UInt8) : Line := ⟨rxBuf,0,fun _ => 0#32⟩

theorem mapped_empty (rxBuf : ℕ → UInt8) : Mapped (emptyLine rxBuf) := by
  intro i _
  simp [bitAt,emptyLine]

theorem Mapped.receive (h : Mapped l) (hmax : maxLine ≤ 128) (hcount : l.rxCount ≤ maxLine) (c : UInt8) :
    ∃ t, cliReceiveChar maxLine l c = some t ∧ t.rxCount ≤ maxLine ∧ Mapped t := by
  unfold cliReceiveChar
  by_cases hroom : l.rxCount < maxLine
  · have hword : l.rxCount / 32 < bitmapWords := (Nat.div_lt_iff_lt_mul (by decide)).mpr (Nat.lt_of_lt_of_le hroom hmax)
    have hnext : u8 (l.rxCount + 1) = l.rxCount + 1 := u8_of_lt (by omega)
    rw [if_pos hroom,load_of_lt hword,Option.bind_some,store_of_lt hword,store_of_lt hroom,hnext]
    have hbits : ∀ bitmap, (∀ i, bitAt bitmap i = (bitAt l.rxBitmap i || decide (i = l.rxCount ∧ c = charSpace))) →
        Mapped ⟨Function.update l.rxBuf l.rxCount c,l.rxCount + 1,bitmap⟩ := by
      intro bitmap hbitmap i hi
      rw [hbitmap,h i hi,← Bool.decide_or]
      apply decide_eq_decide.mpr
      dsimp only
      rw [Function.update_apply]
      by_cases heq : i = l.rxCount
      · simp [heq]
      · have hlt : i < l.rxCount + 1 ↔ i < l.rxCount := by omega
        simp [heq,hlt]
    by_cases hc : c = charSpace
    · rw [if_pos hc,Option.bind_some,Option.map_some]
      exact ⟨_,rfl,hroom,hbits _ fun i => by rw [bitAt_set]; simp [hc]⟩
    · rw [if_neg hc,Option.bind_some,Option.map_some]
      exact ⟨_,rfl,hroom,hbits _ fun i => by simp [hc]⟩
  · rw [if_neg hroom]
    exact ⟨l,rfl,hcount,h⟩

theorem Mapped.clear (h : Mapped l) (hmax : maxLine ≤ 128) (hcount : l.rxCount ≤ maxLine) :
    ∃ t, cliClearLastChar l = some t ∧ t.rxCount ≤ maxLine ∧ Mapped t := by
  unfold cliClearLastChar
  by_cases hsome : l.rxCount ≠ 0
  · have hword : (l.rxCount - 1) / 32 < bitmapWords := word_lt (k := l.rxCount - 1) (by omega)
    rw [if_pos hsome]
    dsimp only
    rw [load_of_lt hword,Option.bind_some,store_of_lt hword,Option.map_some]
    refine ⟨_,rfl,by dsimp only; omega,fun i hi => ?_⟩
    dsimp only
    rw [bitAt_unset,h i hi,← Bool.decide_and]
    apply decide_eq_decide.mpr
    constructor
    · rintro ⟨⟨hlt,hspace⟩,hne⟩
      exact ⟨by omega,hspace⟩
    · rintro ⟨hlt,hspace⟩
      exact ⟨⟨by omega,hspace⟩,by omega⟩
  · rw [if_neg hsome]
    exact ⟨l,rfl,hcount,h⟩

theorem Mapped.edit (h : Mapped l) (hmax : maxLine ≤ 128) (hcount : l.rxCount ≤ maxLine) (e : Edit) :
    ∃ t, edit maxLine l e = some t ∧ t.rxCount ≤ maxLine ∧ Mapped t := by
  cases e with
  | receive c => exact h.receive hmax hcount c
  | clear => exact h.clear hmax hcount

theorem Line.length_text (l : Line) : l.text.length = l.rxCount := by
  unfold Line.text
  rw [List.length_map,List.length_range]

theorem text_push (l : Line) (c : UInt8) (bitmap : ℕ → BitVec 32) :
    (Line.mk (Function.update l.rxBuf l.rxCount c) (l.rxCount + 1) bitmap).text = l.text ++ [c] := by
  have hbefore : (List.range l.rxCount).map (Function.update l.rxBuf l.rxCount c) = l.text := by
    refine List.map_congr_left fun i hi => ?_
    rw [Function.update_of_ne (List.mem_range.mp hi).ne]
  unfold Line.text at hbefore ⊢
  dsimp only
  rw [List.range_succ,List.map_append,hbefore,List.map_singleton,Function.update_self]

theorem text_pop (l : Line) (bitmap : ℕ → BitVec 32) :
    (Line.mk l.rxBuf (l.rxCount - 1) bitmap).text = l.text.dropLast := by
  unfold Line.text
  rw [← List.map_dropLast]
  cases l.rxCount with
  | zero => rfl
  | succ n => rw [List.range_succ,List.dropLast_concat,Nat.add_sub_cancel]

theorem receive_text {t : Line} {c : UInt8} (hmax : maxLine ≤ 128) (h : cliReceiveChar maxLine l c = some t) :
    t.text = if l.rxCount < maxLine then l.text ++ [c] else l.text := by
  unfold cliReceiveChar at h
  by_cases hroom : l.rxCount < maxLine
  · have hnext : u8 (l.rxCount + 1) = l.rxCount + 1 := u8_of_lt (by omega)
    rw [if_pos hroom] at h ⊢
    obtain ⟨bitmap,-,h⟩ := Option.bind_eq_some_iff.mp h
    rw [store_of_lt hroom,Option.map_some,hnext] at h
    obtain rfl := Option.some.inj h
    exact text_push l c bitmap
  · rw [if_neg hroom] at h ⊢
    obtain rfl := Option.some.inj h
    rfl

theorem clear_text {t : Line} (h : cliClearLastChar l = some t) : t.text = l.text.dropLast := by
  unfold cliClearLastChar at h
  by_cases hsome : l.rxCount ≠ 0
  · rw [if_pos hsome] at h
    obtain ⟨word,-,h⟩ := Option.bind_eq_some_iff.mp h
    obtain ⟨bitmap,-,rfl⟩ := Option.map_eq_some_iff.mp h
    exact text_pop l bitmap
  · rw [if_neg hsome] at h
    obtain rfl := Option.some.inj h
    rw [List.eq_nil_of_length_eq_zero (l.length_text.trans (not_not.mp hsome)),List.dropLast_nil]

/-- One edit of the line is that edit of its text. -/
theorem edit_text {t : Line} {e : Edit} (hmax : maxLine ≤ 128) (h : Mini.edit maxLine l e = some t) :
    t.text = edited maxLine l.text e := by
  cases e with
  | receive c =>
    unfold edited
    rw [l.length_text]
    exact receive_text hmax h
  | clear => exact clear_text h

/-- A sequence of edits goes through and leaves the text that it spells, with its spaces in the bitmap. -/
theorem Mapped.exec (h : Mapped l) (hmax : maxLine ≤ 128) (hcount : l.rxCount ≤ maxLine) (edits : List Edit) :
    ∃ t, Machine.exec (Mini.edit maxLine) l edits = some t ∧ t.text = edits.foldl (edited maxLine) l.text ∧ Mapped t := by
  induction edits generalizing l with
  | nil => exact ⟨l,rfl,rfl,h⟩
  | cons e edits ih =>
    obtain ⟨u,hu,hinside,hmapped⟩ := h.edit hmax hcount e
    obtain ⟨t,ht,htext,hbits⟩ := ih hmapped hinside
    rw [edit_text hmax hu] at htext
    exact ⟨t,by rw [Machine.exec_cons,hu]; exact ht,htext,hbits⟩

end Edits

end EmbedTemplate.Cli.Mini
