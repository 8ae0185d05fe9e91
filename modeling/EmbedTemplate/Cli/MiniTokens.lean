import EmbedTemplate.Cli.MiniLine
import Mathlib.Data.Nat.Find

/-! # The tokens of the small command line

`cli_tokenize` visits the spaces of the line in ascending order. What it has found at a space is
what a plain splitter finds in the line up to there.
-/
namespace EmbedTemplate.Cli.Mini
open Bytes LowestBit

section Runs
variable (str : ℕ → UInt8)

/-- The positions at which a maximal run without spaces begins, in order. -/
def runStarts (len : ℕ) : List ℕ :=
  (List.range len).filter fun a => str a ≠ charSpace ∧ (a = 0 ∨ str (a - 1) = charSpace)

/-- The run from `a` on is still in the string, with a NUL behind it. -/
def Terminated (str' : ℕ → UInt8) (len a : ℕ) : Prop :=
  ∃ b, a < b ∧ b ≤ len ∧ (∀ p, a ≤ p → p < b → str p ≠ charSpace ∧ str' p = str p) ∧
    (b = len ∨ str b = charSpace) ∧ str' b = 0

/-- A space behind a run. -/
def EndsRun (q : ℕ) : Prop := str q = charSpace ∧ 0 < q ∧ str (q - 1) ≠ charSpace

instance (q : ℕ) : Decidable (EndsRun str q) :=
  inferInstanceAs (Decidable (str q = charSpace ∧ 0 < q ∧ str (q - 1) ≠ charSpace))

variable {str} {k n a : ℕ}

theorem mem_runStarts : a ∈ runStarts str n ↔ a < n ∧ str a ≠ charSpace ∧ (a = 0 ∨ str (a - 1) = charSpace) := by
  unfold runStarts
  rw [List.mem_filter,List.mem_range,decide_eq_true_iff]

/-- A stretch without spaces behind a space has a run when it is not empty. -/
theorem runStarts_plain (hafter : k = 0 ∨ str (k - 1) = charSpace) (hplain : ∀ q, k ≤ q → q < n → str q ≠ charSpace)
    (hk : k ≤ n) : runStarts str n = runStarts str k ++ if k < n then [k] else [] := by
  obtain ⟨m,rfl⟩ := Nat.exists_eq_add_of_le hk
  clear hk
  induction m with
  | zero => simp
  | succ m ih =>
    have hprev := ih fun q hq hlt => hplain q hq (by omega)
    have hlast := hplain (k + m) (by omega) (by omega)
    unfold runStarts at hprev ⊢
    rw [← Nat.add_assoc,List.range_succ,List.filter_append,hprev]
    cases m with
    | zero =>
      rw [Nat.add_zero] at hlast
      simp [hlast,hafter]
    | succ m =>
      have hbefore := hplain (k + m) (by omega) (by omega)
      rw [if_pos (by omega),if_pos (by omega)]
      simp [hbefore]

theorem runStarts_space (h : str n = charSpace) : runStarts str (n + 1) = runStarts str n := by
  unfold runStarts
  rw [List.range_succ,List.filter_append]
  simp [h]

theorem exists_runStarts (str : ℕ → UInt8) (h : k ≤ n) : ∃ rest, runStarts str n = runStarts str k ++ rest := by
  obtain ⟨m,rfl⟩ := Nat.exists_eq_add_of_le h
  unfold runStarts
  rw [List.range_add,List.filter_append]
  exact ⟨_,rfl⟩

/-- Where a run ends. -/
theorem exists_runEnd (h : a ∈ runStarts str n) : ∃ b, a < b ∧ b ≤ n ∧ (∀ p, a ≤ p → p < b → str p ≠ charSpace) ∧
    (b = n ∨ str b = charSpace) := by
  obtain ⟨hlt,hplain,-⟩ := mem_runStarts.mp h
  have hex : ∃ b, a < b ∧ (b = n ∨ str b = charSpace) := ⟨n,hlt,.inl rfl⟩
  have hspec := Nat.find_spec hex
  refine ⟨Nat.find hex,hspec.1,Nat.find_min' hex ⟨hlt,.inl rfl⟩,fun p hp hpb => ?_,hspec.2⟩
  rcases Nat.lt_or_eq_of_le hp with hap | rfl
  · exact fun hspace => Nat.find_min hex hpb ⟨hap,.inr hspace⟩
  · exact hplain

end Runs

section Scanning
variable {str : ℕ → UInt8} {size len : ℕ} {t : Scan}

/-- What the loop has found when no position below `p` is left to look at. -/
structure Scanned (str : ℕ → UInt8) (len p : ℕ) (t : Scan) : Prop where
  reached : t.token ≤ p
  inside : t.token ≤ len
  after : t.token = 0 ∨ str (t.token - 1) = charSpace
  plain : ∀ q, t.token ≤ q → q < p → q < len → str q ≠ charSpace
  count : t.numTkns = (runStarts str t.token).length
  tkn : ∀ i, t.tkn i = ((runStarts str t.token)[i]?).getD nullToken
  string : ∀ q, t.str q = if q < t.token ∧ EndsRun str q then 0 else str q

theorem scanned_start (str : ℕ → UInt8) (len : ℕ) : Scanned str len 0 ⟨str,fun _ => nullToken,0,0⟩ := by
  constructor <;> simp [runStarts]

theorem Scanned.weaken {p q : ℕ} (h : Scanned str len p t) (hpq : p ≤ q)
    (hplain : ∀ i, p ≤ i → i < q → i < len → str i ≠ charSpace) : Scanned str len q t := by
  refine ⟨h.reached.trans hpq,h.inside,h.after,fun i hi hlt hlen => ?_,h.count,h.tkn,h.string⟩
  rcases Nat.lt_or_ge i p with hip | hip
  · exact h.plain i hi hip hlen
  · exact hplain i hip hlt hlen

/-- The next token of a list of tokens. -/
theorem tkn_push {tkn : ℕ → ℕ} {starts : List ℕ} (h : ∀ i, tkn i = (starts[i]?).getD nullToken) (k i : ℕ) :
    Function.update tkn starts.length k i = ((starts ++ [k])[i]?).getD nullToken := by
  rw [Function.update_apply]
  split
  · simp [‹i = _›]
  · rw [h i]
    rcases Nat.lt_or_ge i starts.length with hlt | hge
    · rw [List.getElem?_append_left hlt]
    · rw [List.getElem?_eq_none hge,List.getElem?_eq_none]
      rw [List.length_append,List.length_singleton]
      omega

/-- One round of the inner loop, at the next space. -/
theorem Scanned.space {p idx : ℕ} (h : Scanned str len p t) (hfew : t.numTkns < 4) (hsize : len < size)
    (hlen : len ≤ 128) (hp : p ≤ idx) (hidx : idx < len) (hspace : str idx = charSpace)
    (hplain : ∀ q, p ≤ q → q < idx → str q ≠ charSpace) :
    ∃ u, endToken size t idx = some u ∧ Scanned str len (idx + 1) { u with token := idx + 1 } := by
  have hkeep := h.weaken (q := idx) hp fun i hi hlt _ => hplain i hi hlt
  have hrun : ∀ q, t.token ≤ q → q < idx → str q ≠ charSpace := fun q hq hlt => hkeep.plain q hq hlt (by omega)
  have hstarts := runStarts_plain h.after hrun (h.reached.trans hp)
  rw [← runStarts_space hspace] at hstarts
  have hends : ∀ q, q < idx + 1 ∧ EndsRun str q ↔ q < t.token ∧ EndsRun str q ∨ t.token < idx ∧ q = idx := by
    intro q
    constructor
    · rintro ⟨hlt,hq,hpos,hprev⟩
      rcases Nat.lt_or_ge q t.token with hlow | hhigh
      · exact .inl ⟨hlow,hq,hpos,hprev⟩
      · have hqidx : q = idx := by
          by_contra hne
          exact hrun q hhigh (by omega) hq
        refine .inr ⟨?_,hqidx⟩
        rcases Nat.lt_or_eq_of_le (hqidx ▸ hhigh) with hlt' | heq
        · exact hlt'
        · rcases h.after with hzero | hsp
          · omega
          · rw [heq,← hqidx] at hsp
            exact absurd hsp hprev
    · rintro (⟨hlt,hq⟩ | ⟨hlt,rfl⟩)
      · exact ⟨by have := h.reached; omega,hq⟩
      · exact ⟨Nat.lt_succ_self q,hspace,by omega,hrun (q - 1) (by omega) (by omega)⟩
  unfold endToken
  by_cases htoken : idx > t.token
  · have hsmall : u8 t.token = t.token := u8_of_lt (by omega)
    rw [if_pos htoken,store_of_lt (by omega),Option.bind_some,store_of_lt hfew,Option.map_some,hsmall]
    rw [if_pos htoken] at hstarts
    refine ⟨_,rfl,le_rfl,hidx,.inr hspace,fun q hq hlt _ => by dsimp only at hq; omega,?_,?_,?_⟩
    · dsimp only
      rw [hstarts,List.length_append,← h.count,List.length_singleton]
    · dsimp only
      rw [hstarts,h.count]
      exact tkn_push h.tkn t.token
    · intro q
      dsimp only
      rw [Function.update_apply,h.string q]
      simp only [hends q]
      by_cases hq : q = idx <;> simp [hq,htoken]
  · rw [if_neg htoken]
    rw [if_neg htoken,List.append_nil] at hstarts
    refine ⟨t,rfl,le_rfl,hidx,.inr hspace,fun q hq hlt _ => by dsimp only at hq; omega,?_,?_,?_⟩
    · dsimp only
      rw [hstarts,h.count]
    · dsimp only
      rw [hstarts]
      exact h.tkn
    · intro q
      dsimp only
      rw [h.string q]
      simp only [hends q]
      simp [htoken]

variable {bitmap : ℕ → BitVec 32}

/-- What holds when the loop over one word ends: the next word is to be looked at, or four tokens
are found. -/
def Done (str : ℕ → UInt8) (len p : ℕ) (t : Scan) : Prop :=
  t.numTkns < 4 ∧ Scanned str len p t ∨ 4 ≤ t.numTkns ∧ ∃ p', Scanned str len p' t

/-- A bit of a word of the bitmap, for its position in the line. -/
theorem getLsbD_word (hmap : ∀ i < 128, bitAt bitmap i = decide (i < len ∧ str i = charSpace)) {i : ℕ} (hi : i < 4) {q : ℕ}
    (hq : i * 32 ≤ q) (hlt : q < (i + 1) * 32) :
    (bitmap i).getLsbD (q - i * 32) = decide (q < len ∧ str q = charSpace) := by
  have hdiv : q / 32 = i := by omega
  have hmod : q % 32 = q - i * 32 := by omega
  rw [← hmap q (by omega),bitAt,hdiv,hmod]

/-- Where a word has no bits from some position on, there are no spaces up to its end. -/
theorem Scanned.done (hmap : ∀ i < 128, bitAt bitmap i = decide (i < len ∧ str i = charSpace)) {i : ℕ} (hi : i < 4) {p : ℕ}
    (hp : i * 32 ≤ p) (hend : p ≤ (i + 1) * 32) (h : Scanned str len p t) (hfew : t.numTkns < 4)
    (hzero : ∀ q, p ≤ q → q < (i + 1) * 32 → (bitmap i).getLsbD (q - i * 32) = false) :
    Done str len ((i + 1) * 32) t := by
  refine .inl ⟨hfew,h.weaken hend fun q hq hlt hin hspace => ?_⟩
  have hbit := hzero q hq hlt
  rw [getLsbD_word hmap hi (hp.trans hq) hlt] at hbit
  exact of_decide_eq_false hbit ⟨hin,hspace⟩

/-- The inner loop, on a word without the bits that it has been through. -/
theorem tokenizeWord_done (hmap : ∀ i < 128, bitAt bitmap i = decide (i < len ∧ str i = charSpace)) (hsize : len < size)
    (hlen : len ≤ 128) {i : ℕ} (hi : i < 4) {fuel j : ℕ} {mask : BitVec 32} (hj : j ≤ 32) (hfuel : 32 ≤ fuel + j)
    (hmask : ∀ b, mask.getLsbD b = (decide (j ≤ b) && (bitmap i).getLsbD b)) (h : Scanned str len (i * 32 + j) t)
    (hfew : t.numTkns < 4) :
    ∃ u, tokenizeWord size len i fuel mask t = some u ∧ Done str len ((i + 1) * 32) u := by
  induction fuel generalizing j mask t with
  | zero => exact ⟨t,rfl,h.done hmap hi (by omega) (by omega) hfew fun q hq hlt => by omega⟩
  | succ fuel ih =>
    unfold tokenizeWord
    by_cases hzero : mask = 0#32
    · rw [if_pos hzero]
      refine ⟨t,rfl,h.done hmap hi (by omega) (by omega) hfew fun q hq _ => ?_⟩
      have hbit := hmask (q - i * 32)
      rw [hzero,decide_eq_true (by omega),Bool.true_and] at hbit
      rw [← hbit]
      exact BitVec.getLsbD_zero
    · rw [if_neg hzero]
      have hlow := BitVec.getLsbD_true_ctz_of_ne_zero hzero
      have hbelow : ∀ b < mask.ctz.toNat, mask.getLsbD b = false := fun b hb => BitVec.getLsbD_false_of_lt_ctz hb
      have hrest := getLsbD_and_pred hzero
      have hctz : mask.ctz.toNat < 32 := BitVec.lt_of_getLsbD hlow
      generalize mask.ctz.toNat = c at *
      have hbit := getLsbD_word hmap hi (q := i * 32 + c) (by omega) (by omega)
      rw [Nat.add_sub_cancel_left] at hbit
      rw [hmask,Bool.and_eq_true,decide_eq_true_iff,hbit,decide_eq_true_iff] at hlow
      obtain ⟨hjc,hin,hspace⟩ := hlow
      have hplain : ∀ q, i * 32 + j ≤ q → q < i * 32 + c → str q ≠ charSpace := by
        intro q hq hlt hsp
        have hfree := hbelow (q - i * 32) (by omega)
        rw [hmask,decide_eq_true (by omega),Bool.true_and,getLsbD_word hmap hi (by omega) (by omega)] at hfree
        exact of_decide_eq_false hfree ⟨by omega,hsp⟩
      obtain ⟨u,hu,hscanned⟩ := h.space hfew hsize hlen (by omega) hin hspace hplain
      dsimp only
      rw [if_neg (by omega),hu,Option.bind_some]
      by_cases hmany : u.numTkns ≥ 4
      · rw [if_pos hmany]
        exact ⟨_,rfl,.inr ⟨hmany,_,hscanned⟩⟩
      · rw [if_neg hmany]
        refine ih (j := c + 1) (by omega) (by omega) (fun b => ?_) hscanned (Nat.not_le.mp hmany)
        rw [hrest,hmask]
        by_cases hbc : c + 1 ≤ b
        · have hjb : j ≤ b := by omega
          have hne : b ≠ c := by omega
          simp [hbc,hjb,hne]
        · rcases Nat.lt_or_eq_of_le (Nat.le_of_lt_succ (Nat.not_le.mp hbc)) with hlt | heq
          · have hfree := hbelow b hlt
            rw [hmask] at hfree
            simp [hfree,hbc]
          · simp [heq]

theorem tokenizeWords_done (hmap : ∀ i < 128, bitAt bitmap i = decide (i < len ∧ str i = charSpace)) (hsize : len < size)
    (hlen : len ≤ 128) {i n : ℕ} (hi : i + n = 4) (h : Scanned str len (i * 32) t) (hfew : t.numTkns < 4) :
    ∃ u, tokenizeWords size len bitmap (List.range' i n) t = some u ∧ Done str len 128 u := by
  induction n generalizing i t with
  | zero =>
    obtain rfl : i = 4 := hi
    exact ⟨t,rfl,.inl ⟨hfew,h⟩⟩
  | succ n ih =>
    have hstart : ∀ b, (bitmap i).getLsbD b = (decide (0 ≤ b) && (bitmap i).getLsbD b) := by simp
    have h' : Scanned str len (i * 32 + 0) t := by rwa [Nat.add_zero]
    obtain ⟨u,hu,hdone⟩ := tokenizeWord_done hmap hsize hlen (show i < 4 by omega) (Nat.zero_le 32)
      (show 32 ≤ 32 + 0 from le_rfl) hstart h' hfew
    rw [List.range'_succ]
    unfold tokenizeWords
    have hword : i < bitmapWords := by
      unfold bitmapWords
      omega
    rw [load_of_lt hword,Option.bind_some,hu,Option.bind_some]
    rcases hdone with ⟨hfew',hscanned⟩ | ⟨hmany,hscanned⟩
    · rw [if_neg (Nat.not_le.mpr hfew')]
      exact ih (by omega) hscanned hfew'
    · rw [if_pos hmany]
      exact ⟨u,rfl,.inr ⟨hmany,hscanned⟩⟩

/-- What `cli_tokenize` returns, and the string behind it. -/
structure Split (str str' : ℕ → UInt8) (len : ℕ) (tkn : ℕ → ℕ) : Prop where
  tokens : ∀ i < 4, tkn i = ((runStarts str len)[i]?).getD nullToken
  ends : ∀ i < 4, ∀ a, (runStarts str len)[i]? = some a → Terminated str str' len a

/-- The runs in front of the last space are terminated. -/
theorem Scanned.terminated {p a : ℕ} (h : Scanned str len p t) (ha : a ∈ runStarts str len) (hlt : a < t.token) :
    Terminated str t.str len a := by
  obtain ⟨b,hab,hb,hplain,hend⟩ := exists_runEnd ha
  have hspace : str (t.token - 1) = charSpace := h.after.resolve_left (by omega)
  have hbt : b < t.token := by
    by_contra hge
    exact hplain (t.token - 1) (by omega) (by omega) hspace
  have hinside := h.inside
  refine ⟨b,hab,hb,fun q hq hqb => ⟨hplain q hq hqb,?_⟩,hend,?_⟩
  · rw [h.string q,if_neg]
    exact fun hq' => hplain q hq hqb hq'.2.1
  · rw [h.string b,if_pos]
    exact ⟨hbt,hend.resolve_left (by omega),by omega,hplain (b - 1) (by omega) (by omega)⟩

theorem Done.split (h : Done str len 128 t) (hlen : len ≤ 128) (hnul : str len = 0) :
    ∃ tkn, (if t.numTkns < 4 ∧ t.token < len then (store 4 t.tkn t.numTkns (u8 t.token)).map fun tkn => (t.str,tkn)
      else some (t.str,t.tkn)) = some (t.str,tkn) ∧ Split str t.str len tkn := by
  rcases h with ⟨hfew,h⟩ | ⟨hmany,p,h⟩
  · have hinside := h.inside
    have hplain : ∀ q, t.token ≤ q → q < len → str q ≠ charSpace := fun q hq hlt => h.plain q hq (by omega) hlt
    have hstarts := runStarts_plain h.after hplain hinside
    by_cases hlast : t.token < len
    · have hsmall : u8 t.token = t.token := u8_of_lt (by omega)
      rw [if_pos ⟨hfew,hlast⟩,store_of_lt hfew,Option.map_some,hsmall]
      rw [if_pos hlast] at hstarts
      refine ⟨_,rfl,fun i _ => ?_,fun i _ a ha => ?_⟩
      · rw [hstarts,h.count]
        exact tkn_push h.tkn t.token i
      · have hmem := List.mem_of_getElem? ha
        rw [hstarts,List.mem_append,List.mem_singleton] at hmem
        rcases hmem with hmem | rfl
        · exact h.terminated (List.mem_of_getElem? ha) (mem_runStarts.mp hmem).1
        · refine ⟨len,hlast,le_rfl,fun q hq hlt => ⟨hplain q hq hlt,?_⟩,.inl rfl,?_⟩
          · rw [h.string q,if_neg (by omega)]
          · rw [h.string len,if_neg (by omega),hnul]
    · rw [if_neg fun hboth => hlast hboth.2]
      rw [if_neg hlast,List.append_nil] at hstarts
      refine ⟨_,rfl,fun i _ => ?_,fun i _ a ha => ?_⟩
      · rw [hstarts,h.tkn]
      · have hmem := List.mem_of_getElem? ha
        refine h.terminated hmem ?_
        rw [hstarts] at hmem
        exact (mem_runStarts.mp hmem).1
  · rw [if_neg fun hboth => Nat.not_lt.mpr hmany hboth.1]
    obtain ⟨rest,hrest⟩ := exists_runStarts str h.inside
    have hfront : ∀ i < 4, (runStarts str len)[i]? = (runStarts str t.token)[i]? := by
      intro i hi
      rw [hrest,List.getElem?_append_left]
      exact Nat.lt_of_lt_of_le hi (h.count ▸ hmany)
    refine ⟨_,rfl,fun i hi => ?_,fun i hi a ha => ?_⟩
    · rw [hfront i hi,h.tkn]
    · have hmem := List.mem_of_getElem? ha
      rw [hfront i hi] at ha
      exact h.terminated hmem (mem_runStarts.mp (List.mem_of_getElem? ha)).1

theorem cliTokenize_split (hmap : ∀ i < 128, bitAt bitmap i = decide (i < len ∧ str i = charSpace)) (hsize : len < size)
    (hlen : len ≤ 128) (hnul : str len = 0) :
    ∃ str' tkn, cliTokenize size len str bitmap = some (str',tkn) ∧ Split str str' len tkn := by
  have hstart : Scanned str len (0 * 32) ⟨str,fun _ => nullToken,0,0⟩ := by
    rw [Nat.zero_mul]
    exact scanned_start str len
  obtain ⟨t,ht,hdone⟩ := tokenizeWords_done hmap hsize hlen (Nat.zero_add 4) hstart (show 0 < 4 by decide)
  obtain ⟨tkn,htkn,hsplit⟩ := hdone.split hlen hnul
  refine ⟨t.str,tkn,?_,hsplit⟩
  unfold cliTokenize
  change (tokenizeWords size len bitmap [0,1,2,3] ⟨str,fun _ => nullToken,0,0⟩) = some t at ht
  rw [ht,Option.bind_some,htkn]

end Scanning

section Claims

/-- Any edits leave the text that they spell, the bits of the bitmap are those of its spaces, and a line with
such a bitmap is split at its spaces: the tokens are its first four maximal runs without spaces. -/
theorem cliTokenize_edits {maxLine : ℕ} (hmax : maxLine ≤ 128) :
    (∀ rxBuf edits, ∃ l, Machine.exec (edit maxLine) (emptyLine rxBuf) edits = some l ∧
      l.text = edits.foldl (edited maxLine) [] ∧
      ∀ i < 128, bitAt l.rxBitmap i = decide (i < l.rxCount ∧ l.rxBuf i = charSpace)) ∧
    ∀ size len str bitmap, len < size → len ≤ 128 → str len = 0 →
      (∀ i < 128, bitAt bitmap i = decide (i < len ∧ str i = charSpace)) →
      ∃ str' tkn, cliTokenize size len str bitmap = some (str',tkn) ∧ Split str str' len tkn := by
  constructor
  · intro rxBuf edits
    exact (mapped_empty rxBuf).exec hmax (Nat.zero_le maxLine) edits
  · intro size len str bitmap hsize hlen hnul hmap
    exact cliTokenize_split hmap hsize hlen hnul

/-- A second space is typed behind the first one and taken back, and the line is split. -/
theorem cliTokenize_edits_twelve :
    (∃ l, Machine.exec (edit 12) (emptyLine fun _ => 0) [.receive 115,.receive 32,.receive 32,.clear,.receive 116] =
      some l ∧ l.text = [115,32,116] ∧ l.rxCount = 3 ∧ bitAt l.rxBitmap 1 = true ∧ bitAt l.rxBitmap 2 = false) ∧
    ∃ str' tkn, cliTokenize 4 3 (fun i => if i = 1 then 32 else if i < 3 then 115 else 0) (fun i => if i = 0 then 2 else 0) =
      some (str',tkn) ∧ tkn 0 = 0 ∧ tkn 1 = 2 ∧ tkn 2 = nullToken ∧
      Split (fun i => if i = 1 then 32 else if i < 3 then 115 else 0) str' 3 tkn := by
  obtain ⟨hedits,htokens⟩ := @cliTokenize_edits 12 (by decide)
  constructor
  · obtain ⟨l,hl,htext,hbits⟩ :=
      hedits (fun _ => 0) [.receive 115,.receive 32,.receive 32,.clear,.receive 116]
    have hcount : l.rxCount = 3 := by rw [← l.length_text,htext]; rfl
    have hchars : l.rxBuf 0 = 115 ∧ l.rxBuf 1 = 32 ∧ l.rxBuf 2 = 116 := by
      unfold Line.text at htext
      rw [hcount] at htext
      simpa [List.range_succ,edited] using htext
    refine ⟨l,hl,htext,hcount,?_,?_⟩
    · rw [hbits 1 (by decide),hcount,hchars.2.1]
      decide
    · rw [hbits 2 (by decide),hcount,hchars.2.2]
      decide
  · obtain ⟨str',tkn,hsome,hsplit⟩ := htokens 4 3 (fun i => if i = 1 then 32 else if i < 3 then 115 else 0)
      (fun i => if i = 0 then 2 else 0) (by decide) (by decide) (by decide) (by decide +kernel)
    exact ⟨str',tkn,hsome,hsplit.tokens 0 (by decide),hsplit.tokens 1 (by decide),hsplit.tokens 2 (by decide),hsplit⟩

end Claims

end EmbedTemplate.Cli.Mini
