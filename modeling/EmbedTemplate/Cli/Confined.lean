import EmbedTemplate.Cli.Session

/-! # Inside the command buffer

Whatever bytes are received, as long as they fit into the receive buffer: the line ends inside the command buffer, the
cursor is in it, and behind the buffer with its eight spare bytes nothing is written. The cursor may be anywhere, since
the arrow keys move it, and a callback may complete more than one word.
-/
namespace EmbedTemplate.Cli.CommandLine
open Bytes Circular Tokens Bindings

section Drafts
variable {σ : Type*} {n : ℕ} {mem : ℕ → UInt8} {cli : Engine σ} {line name : List UInt8}

/-- The part of the engine that has the line. -/
structure Draft where
  cmdBuffer : ℕ → UInt8
  cmdSize : ℕ
  cmdMaxSize : ℕ
  inputLineLength : ℕ
  cursorPos : ℕ

def draft (cli : Engine σ) : Draft := ⟨cli.cmdBuffer,cli.cmdSize,cli.cmdMaxSize,cli.inputLineLength,cli.cursorPos⟩

/-- A line of at most `n` characters in a buffer that has room for `n + 1`, eight spare bytes and others behind them. -/
structure Drafts (n : ℕ) (mem : ℕ → UInt8) (d : Draft) (line : List UInt8) : Prop where
  maxSize : d.cmdMaxSize = n + 1
  small : n + 1 < 2 ^ 16
  spells : Spells d.cmdBuffer line
  size : d.cmdSize = line.length
  fits : line.length ≤ n
  noNul : 0 ∉ line
  behind : ∀ x, n + 9 ≤ x → d.cmdBuffer x = mem x

/-- The line between two characters, with the cursor in it. -/
structure Inside (n : ℕ) (mem : ℕ → UInt8) (d : Draft) (line : List UInt8) : Prop extends Drafts n mem d line where
  length : d.inputLineLength = line.length
  cursor : d.cursorPos ≤ line.length

theorem Drafts.front {d : Draft} (h : Drafts n mem d line) : Circular.get d.cmdBuffer 0 line.length = line :=
  Spells.front (by rw [List.append_nil]; exact h.spells)

theorem Drafts.text {d : Draft} (h : Drafts n mem d line) : cString d.cmdBuffer 0 = line :=
  cString_eq h.spells h.noNul (Nat.lt_trans (Nat.lt_succ_of_le h.fits) h.small)

theorem Drafts.ended {d : Draft} (h : Drafts n mem d line) : d.cmdBuffer line.length = 0 := by
  have hspells := h.spells
  unfold Spells at hspells
  rw [get_add] at hspells
  have hlast := List.append_inj_right hspells (get_length ..)
  rw [Nat.zero_add] at hlast
  exact List.head_eq_of_cons_eq hlast

/-- The NUL that a function stores behind the line is there. -/
theorem Drafts.closed (h : Drafts n mem (draft cli) line) : Function.update cli.cmdBuffer cli.cmdSize 0 = cli.cmdBuffer := by
  have hsize : cli.cmdSize = line.length := h.size
  rw [hsize]
  exact Function.update_eq_self_iff.mpr h.ended.symm

/-- A new text from some place of the line on. -/
theorem Drafts.rewrite {d d' : Draft} (h : Drafts n mem d line) {start : ℕ} (hstart : start ≤ line.length)
    {text : List UInt8} (hfits : start + text.length ≤ n) (hnul : 0 ∉ text) (hmax : d'.cmdMaxSize = d.cmdMaxSize)
    (hbuf : d'.cmdBuffer = put d.cmdBuffer start (text ++ [0])) (hsize : d'.cmdSize = start + text.length) :
    Drafts n mem d' (line.take start ++ text) := by
  have hlen : (line.take start).length = start := List.length_take_of_le hstart
  have hspells := h.spells
  rw [← List.take_append_drop start line] at hspells
  have hput := hspells.put text
  rw [hlen,← hbuf] at hput
  refine ⟨hmax.trans h.maxSize,h.small,hput,?_,?_,?_,fun x hx => ?_⟩
  · rw [List.length_append,hlen,hsize]
  · rw [List.length_append,hlen]
    exact hfits
  · rw [List.mem_append,not_or]
    exact ⟨fun hmem => h.noNul (List.mem_of_mem_take hmem),hnul⟩
  · rw [hbuf,put_outside _ _ _ (.inr (by rw [List.length_append,List.length_singleton]; omega))]
    exact h.behind x hx

/-- Printing a line again brings the cursor to its end. -/
theorem Drafts.refresh (h : Drafts n mem (draft cli) line) : Inside n mem (draft (embeddedCliRefresh cli)) line := by
  have hsize : cli.cmdSize = line.length := h.size
  have hbuf : (embeddedCliRefresh cli).cmdBuffer = cli.cmdBuffer := h.closed
  refine ⟨⟨h.maxSize,h.small,?_,h.size,h.fits,h.noNul,fun x hx => ?_⟩,hsize,hsize.le⟩
  · show Spells (embeddedCliRefresh cli).cmdBuffer line
    rw [hbuf]
    exact h.spells
  · show (embeddedCliRefresh cli).cmdBuffer x = mem x
    rw [hbuf]
    exact h.behind x hx

theorem tokenStart_spec (buf : ℕ → UInt8) (pos : ℕ) : tokenStart buf pos ≤ pos ∧
    (∀ i, tokenStart buf pos ≤ i → i < pos → buf i ≠ 0x20) ∧
    (tokenStart buf pos = 0 ∨ buf (tokenStart buf pos - 1) = 0x20) := by
  induction pos with
  | zero => exact ⟨le_rfl,fun i _ hi => absurd hi (Nat.not_lt_zero i),.inl rfl⟩
  | succ pos ih =>
    unfold tokenStart
    by_cases hblank : buf pos = 0x20
    · rw [if_pos hblank]
      exact ⟨le_rfl,fun i hlow hhigh => absurd hhigh (Nat.not_lt.mpr hlow),.inr hblank⟩
    · rw [if_neg hblank]
      refine ⟨Nat.le_succ_of_le ih.1,fun i hlow hhigh => ?_,ih.2.2⟩
      rcases Nat.lt_succ_iff_lt_or_eq.mp hhigh with hlt | rfl
      · exact ih.2.1 i hlow hlt
      · exact hblank

/-- No blank is between the end of the line and a cursor behind it. -/
def Reaches (cli : Engine σ) : Prop := ∀ i, cli.cmdSize ≤ i → i < cli.cursorPos → cli.cmdBuffer i ≠ 0x20

theorem tokenStart_le (h : Reaches cli) : tokenStart cli.cmdBuffer cli.cursorPos ≤ cli.cmdSize := by
  obtain ⟨hle,-,hblank⟩ := tokenStart_spec cli.cmdBuffer cli.cursorPos
  by_contra hlt
  rcases hblank with hzero | hblank
  · omega
  · exact h _ (by omega) (by omega) hblank

/-- A completed word, wherever the cursor is. -/
theorem Drafts.completion (h : Drafts n mem (draft cli) line) (hreach : Reaches cli) (hname : 0 ∉ name) :
    ∃ next, Drafts n mem (draft (embeddedCliCompletion cli name)) next ∧ Reaches (embeddedCliCompletion cli name) ∧
      next ⊆ 0x20 :: (line ++ name) := by
  have hstart := tokenStart_le hreach
  obtain ⟨-,hplain,-⟩ := tokenStart_spec cli.cmdBuffer cli.cursorPos
  have hmax : cli.cmdMaxSize = n + 1 := h.maxSize
  have hsmall := h.small
  have hsize : cli.cmdSize = line.length := h.size
  unfold embeddedCliCompletion
  dsimp only
  generalize tokenStart cli.cmdBuffer cli.cursorPos = start at hstart hplain
  split
  case isTrue => exact ⟨line,h,hreach,fun c hc => List.mem_cons_of_mem _ (List.mem_append_left _ hc)⟩
  case isFalse hroom =>
    have hwide : u16 (u16 (start + name.length) + 1) = start + (name ++ [0x20]).length := by
      rw [u16_of_lt (show start + name.length < 2 ^ 16 by omega),u16_of_lt (by omega),List.length_append]
      rfl
    have hnew : Drafts n mem (draft { cli with
        cmdBuffer := put cli.cmdBuffer start (name ++ [0x20,0])
        cmdSize := u16 (u16 (start + name.length) + 1) }) (line.take start ++ (name ++ [0x20])) := by
      apply h.rewrite (by omega)
      case hfits =>
        rw [List.length_append,List.length_singleton]
        omega
      case hnul => simp [hname]
      case hmax => rfl
      case hbuf => simp [draft]
      case hsize => exact hwide
    refine ⟨_,hnew,fun i hlow hhigh => ?_,fun c hc => ?_⟩
    case refine_2 =>
      rw [List.mem_append,List.mem_append,List.mem_singleton] at hc
      rw [List.mem_cons,List.mem_append]
      rcases hc with hc | hc | hc
      · exact .inr (.inl (List.mem_of_mem_take hc))
      · exact .inr (.inr hc)
      · exact .inl hc
    -- Behind the word is a NUL, and then what was there before.
    rcases Nat.eq_or_lt_of_le hlow with rfl | hlt
    · have hended := hnew.ended
      rw [← hnew.size] at hended
      exact fun hblank => absurd (hended.symm.trans hblank) (by decide)
    · dsimp only at hlt hhigh ⊢
      rw [hwide,List.length_append,List.length_singleton] at hlt
      rw [put_outside _ _ _ (.inr (by rw [List.length_append]; exact hlt))]
      exact hplain i (by omega) hhigh

theorem Drafts.completions (h : Drafts n mem (draft cli) line) (hreach : Reaches cli) {found : List (List UInt8)}
    (hfound : ∀ name ∈ found, 0 ∉ name) : ∃ next, Drafts n mem (draft (found.foldl embeddedCliCompletion cli)) next ∧
      next ⊆ 0x20 :: (line ++ found.flatten) := by
  induction found generalizing cli line with
  | nil => exact ⟨line,h,fun c hc => List.mem_cons_of_mem _ (List.mem_append_left _ hc)⟩
  | cons name found ih =>
    rw [List.forall_mem_cons] at hfound
    obtain ⟨next,hnext,hreach,hnew⟩ := h.completion hreach hfound.1
    obtain ⟨last,hlast,hrest⟩ := ih hnext hreach hfound.2
    refine ⟨last,hlast,fun c hc => ?_⟩
    have hc := hrest hc
    rw [List.mem_cons,List.mem_append] at hc
    rw [List.flatten_cons,List.mem_cons,List.mem_append,List.mem_append]
    rcases hc with hc | hc | hc
    · exact .inl hc
    · have hc := hnew hc
      rw [List.mem_cons,List.mem_append] at hc
      exact hc.imp_right fun hc => hc.imp_right .inl
    · exact .inr (.inr (.inr hc))

theorem Inside.reaches (h : Inside n mem (draft cli) line) : Reaches cli := by
  intro i hlow hhigh
  have hcursor : cli.cursorPos ≤ line.length := h.cursor
  have hsize : cli.cmdSize = line.length := h.size
  omega

end Drafts

section Keys
variable {σ : Type*} {n : ℕ} {mem : ℕ → UInt8} {cli : Engine σ} {line : List UInt8} (app : Application σ)

/-- The line of the engine stays in the command buffer. -/
def Bound (n : ℕ) (mem : ℕ → UInt8) (cli : Engine σ) : Prop := ∃ line, Inside n mem (draft cli) line

theorem Drafts.bound (h : Drafts n mem (draft cli) line) (hlength : cli.inputLineLength = line.length)
    (hcursor : cli.cursorPos ≤ line.length) : Bound n mem cli := ⟨line,h,hlength,hcursor⟩

theorem Drafts.rest {d : Draft} (h : Drafts n mem d line) {pos : ℕ} (hpos : pos ≤ line.length) :
    Circular.get d.cmdBuffer pos (line.length - pos) = line.drop pos := by
  have hfront := h.front
  rw [← Nat.add_sub_cancel' hpos,get_add,Nat.zero_add] at hfront
  exact (List.append_inj_right' (hfront.trans (List.take_append_drop pos line).symm)
    (by rw [get_length,List.length_drop]))

theorem Inside.append (h : Inside n mem (draft cli) line) {c : UInt8} (hc : c ≠ 0) (hroom : line.length < n)
    (hend : cli.cursorPos = line.length) : Inside n mem (draft (appendChar cli c)) (line ++ [c]) := by
  have hsmall := h.small
  have hsize : u16 (cli.cursorPos + 1) = line.length + 1 := by
    rw [hend]
    exact u16_of_lt (by omega)
  have hdraft : Drafts n mem (draft (appendChar cli c)) (line.take line.length ++ [c]) := by
    apply h.rewrite le_rfl
    case hfits => exact hroom
    case hnul => exact fun hmem => hc (List.mem_singleton.mp hmem).symm
    case hmax => rfl
    case hbuf =>
      unfold draft appendChar
      dsimp only
      rw [hsize,hend]
      rfl
    case hsize => exact hsize
  have hlen : (line ++ [c]).length = line.length + 1 := List.length_append
  rw [List.take_length] at hdraft
  exact ⟨hdraft,hsize.trans hlen.symm,(hsize.trans hlen.symm).le⟩

theorem Inside.insert (h : Inside n mem (draft cli) line) {c : UInt8} (hc : c ≠ 0) (hroom : line.length < n)
    (hinside : cli.cursorPos < line.length) :
    Inside n mem (draft (embeddedCliRefresh (insertChar cli c))) (line.take cli.cursorPos ++ c :: line.drop cli.cursorPos) := by
  have hsmall := h.small
  have hlength : cli.inputLineLength = line.length := h.length
  have hsize : cli.cmdSize = line.length := h.size
  have hrest := h.rest hinside.le
  have hgrown : u16 (cli.cmdSize + 1) = line.length + 1 := by
    rw [hsize]
    exact u16_of_lt (by omega)
  have hlen : (line.drop cli.cursorPos).length = line.length - cli.cursorPos := List.length_drop
  have hdraft : Drafts n mem (draft (embeddedCliRefresh (insertChar cli c)))
      (line.take cli.cursorPos ++ c :: line.drop cli.cursorPos) := by
    apply h.rewrite hinside.le
    case hfits =>
      rw [List.length_cons,hlen]
      omega
    case hnul =>
      rw [List.mem_cons,not_or]
      exact ⟨hc.symm,fun hmem => h.noNul (List.mem_of_mem_drop hmem)⟩
    case hmax => rfl
    case hbuf =>
      unfold draft embeddedCliRefresh insertChar
      dsimp only
      have hplace : cli.cursorPos + 1 + (line.drop cli.cursorPos).length = line.length + 1 := by omega
      rw [hlength,hgrown,show Circular.get cli.cmdBuffer cli.cursorPos (line.length - cli.cursorPos) = _ from hrest,
        ← put_update c (Nat.lt_succ_self _),List.cons_append,put,put_append,hplace]
      rfl
    case hsize =>
      rw [List.length_cons,hlen]
      show u16 (cli.cmdSize + 1) = _
      omega
  exact ⟨hdraft,hdraft.size,hdraft.size.le⟩

theorem Inside.onCharInput (h : Inside n mem (draft cli) line) {c : UInt8} (hc : c ≠ 0) :
    Bound n mem (onCharInput cli c) := by
  have hmax : cli.cmdMaxSize = n + 1 := h.maxSize
  have hsize : cli.cmdSize = line.length := h.size
  have hlength : cli.inputLineLength = line.length := h.length
  have hcursor : cli.cursorPos ≤ line.length := h.cursor
  unfold Cli.onCharInput
  dsimp only
  split
  case isTrue => exact ⟨line,h⟩
  case isFalse hroom =>
    have hroom : line.length < n := by omega
    split
    case isTrue hend =>
      have happend := h.append hc hroom (by omega)
      split
      · exact ⟨_,happend.refresh⟩
      · exact ⟨_,happend⟩
    case isFalse hinside => exact ⟨_,h.insert hc hroom (by omega)⟩

theorem Inside.delete (h : Inside n mem (draft cli) line) (hpos : 0 < cli.cursorPos) :
    Inside n mem (draft (deleteChar cli)) (line.take (cli.cursorPos - 1) ++ line.drop cli.cursorPos) := by
  have hfits := h.fits
  have hsmall := h.small
  have hlength : cli.inputLineLength = line.length := h.length
  have hcursor : cli.cursorPos ≤ line.length := h.cursor
  have hless : oneLess cli.inputLineLength = line.length - 1 := by
    unfold oneLess u16
    omega
  have hlen : (line.drop cli.cursorPos).length = line.length - cli.cursorPos := List.length_drop
  have hmoved : (if cli.cursorPos < cli.inputLineLength then
      put cli.cmdBuffer (cli.cursorPos - 1) (Circular.get cli.cmdBuffer cli.cursorPos (cli.inputLineLength - cli.cursorPos))
      else cli.cmdBuffer) = put cli.cmdBuffer (cli.cursorPos - 1) (line.drop cli.cursorPos) := by
    have hrest : Circular.get cli.cmdBuffer cli.cursorPos (line.length - cli.cursorPos) = _ := h.rest hcursor
    rw [hlength,hrest]
    split
    · rfl
    · rw [List.drop_eq_nil_of_le (by omega)]
      rfl
  have hdraft : Drafts n mem (draft (deleteChar cli)) (line.take (cli.cursorPos - 1) ++ line.drop cli.cursorPos) := by
    apply h.rewrite (by omega)
    case hfits => omega
    case hnul => exact fun hmem => h.noNul (List.mem_of_mem_drop hmem)
    case hmax => rfl
    case hbuf =>
      unfold draft deleteChar
      dsimp only
      rw [hmoved,hless,put_append,hlen,show cli.cursorPos - 1 + (line.length - cli.cursorPos) = line.length - 1 by omega]
      rfl
    case hsize =>
      show oneLess cli.inputLineLength = _
      omega
  have hshort : (line.take (cli.cursorPos - 1) ++ line.drop cli.cursorPos).length = line.length - 1 := by
    rw [List.length_append,List.length_take,hlen]
    omega
  refine ⟨hdraft,hless.trans hshort.symm,?_⟩
  rw [hshort]
  show cli.cursorPos - 1 ≤ line.length - 1
  omega

theorem Drafts.strlen {d : Draft} (h : Drafts n mem d line) : strlen d.cmdBuffer 0 = line.length :=
  strlenFrom_eq h.spells h.noNul (Nat.lt_trans (Nat.lt_succ_of_le h.fits) h.small)

theorem Inside.move {d : Draft} (h : Inside n mem d line) {pos : ℕ} (hpos : pos ≤ line.length) :
    Inside n mem { d with cursorPos := pos } line :=
  ⟨⟨h.maxSize,h.small,h.spells,h.size,h.fits,h.noNul,h.behind⟩,h.length,hpos⟩

theorem Drafts.elsewhere {d : Draft} (h : Drafts n mem d line) (length pos : ℕ) :
    Drafts n mem { d with inputLineLength := length, cursorPos := pos } line :=
  ⟨h.maxSize,h.small,h.spells,h.size,h.fits,h.noNul,h.behind⟩

/-- The arrow keys keep the cursor in the line. -/
theorem Inside.arrows (h : Inside n mem (draft cli) line) (c : UInt8) :
    Inside n mem (draft (onLeftArrow (onRightArrow cli c) c)) line := by
  have hright : Inside n mem (draft (onRightArrow cli c)) line := by
    unfold onRightArrow
    split
    · exact h.move ((Nat.sub_le ..).trans h.cursor)
    · exact h
  have hsmall := hright.small
  have hfits := hright.fits
  unfold onLeftArrow
  split
  case isTrue hleft =>
    have hlt : (onRightArrow cli c).cursorPos < line.length := by
      rw [← hright.strlen]
      exact hleft.2
    apply hright.move
    rw [u16_of_lt (by omega)]
    exact hlt
  case isFalse => exact hright

end Keys

section Completed
variable {σ : Type*} {n : ℕ} {mem : ℕ → UInt8} {cli : Engine σ} {line : List UInt8} {app : Application σ}

/-- The names that an application completes with are strings, and those of commands fit into the line. -/
structure NamesFit (app : Application σ) (n : ℕ) : Prop where
  commands : ∀ env line, ∀ name ∈ app.getAutocompletedCommand env line, 0 ∉ name ∧ name.length ≤ n
  args : ∀ env line help found, app.argsCompletion env line help = some found → ∀ name ∈ found, 0 ∉ name

theorem Inside.completeCommand (h : Inside n mem (draft cli) line) (hnames : NamesFit app n) :
    ∃ next, Drafts n mem (draft (completeCommand app cli)) next ∧
      next ⊆ 0x20 :: (line ++ (app.getAutocompletedCommand cli.env line).flatten) := by
  have htext : cString cli.cmdBuffer 0 = line := h.text
  unfold Cli.completeCommand
  rw [htext]
  dsimp only
  have hfound := hnames.commands cli.env line
  generalize app.getAutocompletedCommand cli.env line = found at hfound
  rcases found with _ | ⟨name,_ | ⟨other,names⟩⟩
  · exact ⟨line,h.toDrafts,fun c hc => List.mem_cons_of_mem _ (List.mem_append_left _ hc)⟩
  · obtain ⟨next,hnext,-,hnew⟩ := h.completion h.reaches (hfound name (List.mem_singleton_self name)).1
    rw [List.flatten_singleton]
    exact ⟨next,hnext,hnew⟩
  · obtain ⟨hnul,hfits⟩ := hfound name (List.mem_cons_self ..)
    have hstart := longestCommonPrefix_isPrefix name (other :: names)
    dsimp only
    split
    case isTrue =>
      have hsmall := h.small
      have hlen : (longestCommonPrefix (name :: other :: names)).length ≤ n := hstart.length_le.trans hfits
      have hreplaced : Drafts n mem (draft { cli with
          cmdBuffer := put cli.cmdBuffer 0 (longestCommonPrefix (name :: other :: names) ++ [0])
          cmdSize := u16 (longestCommonPrefix (name :: other :: names)).length }) _ :=
        h.rewrite (Nat.zero_le _) (by rwa [Nat.zero_add]) (fun hmem => hnul (hstart.subset hmem)) rfl rfl
          (by rw [Nat.zero_add]; exact u16_of_lt (by omega))
      refine ⟨_,hreplaced.elsewhere _ _,fun c hc => ?_⟩
      rw [List.take_zero,List.nil_append] at hc
      exact List.mem_cons_of_mem _ (List.mem_append_right _ (List.mem_append_left _ (hstart.subset hc)))
    case isFalse =>
      exact ⟨line,h.toDrafts.elsewhere _ _,fun c hc => List.mem_cons_of_mem _ (List.mem_append_left _ hc)⟩

theorem Inside.cutHelp (h : Inside n mem (draft cli) line) :
    ∃ rest, Inside n mem (draft (cutHelp cli)) rest ∧ rest ⊆ line := by
  have hsize : cli.cmdSize = line.length := h.size
  have hfits := h.fits
  unfold Cli.cutHelp
  split
  case isTrue hasks =>
    have hless : (line.take (line.length - 1) ++ []).length = line.length - 1 := by
      rw [List.append_nil,List.length_take]
      omega
    have hcut : Drafts n mem (draft { cli with
        cmdBuffer := Function.update cli.cmdBuffer (cli.cmdSize - 1) 0
        cmdSize := cli.cmdSize - 1 }) (line.take (line.length - 1) ++ []) :=
      h.rewrite (by omega) (by rw [List.length_nil]; omega) List.not_mem_nil rfl (by rw [← hsize]; rfl) (by rw [← hsize]; rfl)
    refine ⟨_,⟨hcut.elsewhere _ _,by rw [hless,← hsize]; rfl,by rw [hless,← hsize]; rfl⟩,fun c hc => ?_⟩
    rw [List.append_nil] at hc
    exact List.mem_of_mem_take hc
  case isFalse => exact ⟨line,h,List.Subset.refl line⟩

theorem Inside.autocomplete (h : Inside n mem (draft cli) line) (hnames : NamesFit app n) :
    Bound n mem (onAutocompleteRequest app cli) := by
  unfold onAutocompleteRequest
  split
  · exact ⟨line,h⟩
  split
  · obtain ⟨next,hnext,-⟩ := h.completeCommand hnames
    exact ⟨next,hnext.refresh⟩
  · obtain ⟨rest,hcut,-⟩ := h.cutHelp
    unfold completeArgument
    split
    · exact ⟨rest,hcut⟩
    · obtain ⟨next,hnext,-⟩ := hcut.completions hcut.reaches (hnames.args _ _ _ _ ‹_›)
      exact ⟨next,hnext.refresh⟩

end Completed

section Recalled
variable {σ : Type*} {n k : ℕ} {mem hmem : ℕ → UInt8} {cli : Engine σ} {line : List UInt8} {executed : List (List UInt8)}

/-- The commands to recall behind some command lines. -/
def storedBy (size : ℕ) (executed : List (List UInt8)) : List (List UInt8) := executed.foldl (keep size) []

/-- The history behind some command lines. -/
structure Past (n k : ℕ) (hmem : ℕ → UInt8) (history : CliHistory) (executed : List (List UInt8)) : Prop where
  storing : Storing k hmem history (storedBy (2 ^ k) executed)
  current : history.current ≤ history.itemsCount
  fits : ∀ str ∈ storedBy (2 ^ k) executed, str.length ≤ n

theorem mem_storedBy {size : ℕ} {str : List UInt8} (h : str ∈ storedBy size executed) : str ∈ executed := by
  induction executed using List.reverseRecOn with
  | nil => exact h
  | append_singleton executed line ih =>
    unfold storedBy at h ih
    rw [List.foldl_append,List.foldl_cons,List.foldl_nil] at h
    unfold keep at h
    rw [List.mem_append,List.mem_singleton]
    split at h
    · exact .inl (ih h)
    · rcases List.mem_cons.mp h with heq | hmem
      · exact .inr heq
      · exact .inl (ih hmem)

theorem tiled_keep {size : ℕ} {stored : List (List UInt8)} (h : Tiled size (keep size stored line)) : Tiled size stored := by
  unfold keep at h
  split at h
  · exact h
  · exact h.2.2

theorem tiled_storedBy {size : ℕ} {later : List (List UInt8)} (h : Tiled size (storedBy size (executed ++ later))) :
    Tiled size (storedBy size executed) := by
  induction later using List.reverseRecOn with
  | nil => rwa [List.append_nil] at h
  | append_singleton later line ih =>
    apply ih
    unfold storedBy at h ⊢
    rw [← List.append_assoc,List.foldl_append] at h
    exact tiled_keep h

/-- Past the ends of the history nothing is recalled, and else the item at the next place. -/
theorem navigateHistory_shows {up : Bool} (hsome : cli.history.itemsCount ≠ 0)
    (hnotOldest : ¬(up ∧ cli.history.current ≥ cli.history.itemsCount)) (hnotNewest : ¬(¬up ∧ cli.history.current = 0))
    (hcurrent : cli.history.current ≤ cli.history.itemsCount) (hcount : cli.history.itemsCount ≤ maxHistoryItems) :
    ∃ i ≤ cli.history.itemsCount, navigateHistory cli up = showItem cli i := by
  have hlimit : maxHistoryItems = 16 := rfl
  unfold navigateHistory
  rw [if_neg hsome,if_neg hnotOldest,if_neg hnotNewest]
  refine ⟨_,?_,rfl⟩
  cases up with
  | true =>
    have hless : cli.history.current < cli.history.itemsCount := by
      by_contra hge
      exact hnotOldest ⟨rfl,Nat.le_of_not_lt hge⟩
    rw [if_pos rfl,u16_of_lt (by omega)]
    exact hless
  | false =>
    rw [if_neg Bool.false_ne_true]
    omega

theorem navigateHistory_idle {up : Bool} (h : cli.history.itemsCount = 0 ∨
    (up ∧ cli.history.current ≥ cli.history.itemsCount) ∨ (¬up ∧ cli.history.current = 0)) : navigateHistory cli up = cli := by
  unfold navigateHistory
  split
  · rfl
  split
  · rfl
  rw [if_pos]
  rcases h with h | h | h
  · contradiction
  · contradiction
  · exact h

theorem navigateHistory_cases (hcurrent : cli.history.current ≤ cli.history.itemsCount)
    (hcount : cli.history.itemsCount ≤ maxHistoryItems) (up : Bool) :
    navigateHistory cli up = cli ∨ ∃ i ≤ cli.history.itemsCount, navigateHistory cli up = showItem cli i := by
  by_cases hidle : cli.history.itemsCount = 0 ∨ (up ∧ cli.history.current ≥ cli.history.itemsCount) ∨
      (¬up ∧ cli.history.current = 0)
  · exact .inl (navigateHistory_idle hidle)
  · rw [not_or,not_or] at hidle
    exact .inr (navigateHistory_shows hidle.1 hidle.2.1 hidle.2.2 hcurrent hcount)

theorem navigateHistory_executed (cli : Engine σ) (up : Bool) : (navigateHistory cli up).executed = cli.executed := by
  unfold navigateHistory
  split
  · rfl
  split
  · rfl
  split
  · rfl
  · rfl

/-- What the history returns is a command that has been kept. -/
theorem Past.item (h : Past n k hmem cli.history executed) (hk : k < 16) (ht : Tiled (2 ^ k) (storedBy (2 ^ k) executed))
    (hn : n < 2 ^ 16) {i : ℕ} (hi : i ≤ cli.history.itemsCount) :
    itemAt cli.history i = [] ∨ itemAt cli.history i ∈ storedBy (2 ^ k) executed := by
  rw [h.storing.itemsCount] at hi
  rw [itemAt_stored h.storing hk ht (fun str hmem => Nat.lt_of_le_of_lt (h.fits str hmem) hn) hi]
  split
  · exact .inl rfl
  · cases hstr : (storedBy (2 ^ k) executed)[i - 1]? with
    | none => exact .inl rfl
    | some str => exact .inr (List.mem_of_getElem? hstr)

theorem Past.item_fits (h : Past n k hmem cli.history executed) (hk : k < 16)
    (ht : Tiled (2 ^ k) (storedBy (2 ^ k) executed)) (hn : n < 2 ^ 16) {i : ℕ} (hi : i ≤ cli.history.itemsCount) :
    (itemAt cli.history i).length ≤ n ∧ 0 ∉ itemAt cli.history i := by
  rcases h.item hk ht hn hi with hnone | hmem
  · rw [hnone]
    exact ⟨Nat.zero_le n,List.not_mem_nil⟩
  · exact ⟨h.fits _ hmem,h.storing.noNul _ hmem⟩

/-- A command that is shown again. -/
theorem Inside.showItem (h : Inside n mem (draft cli) line) {i : ℕ} (hfits : (itemAt cli.history i).length ≤ n)
    (hnul : 0 ∉ itemAt cli.history i) : Inside n mem (draft (showItem cli i)) (itemAt cli.history i) := by
  have hsmall := h.small
  have hlen : u16 (itemAt cli.history i).length = (itemAt cli.history i).length := u16_of_lt (by omega)
  have hshown : Drafts n mem (draft (CommandLine.showItem cli i)) (line.take 0 ++ itemAt cli.history i) := by
    apply h.rewrite (Nat.zero_le _) (by rwa [Nat.zero_add]) hnul
    case hmax => rfl
    case hbuf =>
      unfold draft CommandLine.showItem clearCurrentLine
      dsimp only
      rw [hlen,List.take_length]
    case hsize => exact hlen.trans (Nat.zero_add _).symm
  exact ⟨hshown,hshown.size,hshown.size.le⟩

theorem Inside.navigate (h : Inside n mem (draft cli) line) (hp : Past n k hmem cli.history executed) (hk : k < 16)
    (ht : Tiled (2 ^ k) (storedBy (2 ^ k) executed)) (up : Bool) :
    Bound n mem (navigateHistory cli up) ∧ Past n k hmem (navigateHistory cli up).history executed := by
  have hsmall := h.small
  have hcount : cli.history.itemsCount ≤ maxHistoryItems := by
    rw [hp.storing.itemsCount]
    exact Nat.min_le_right ..
  rcases navigateHistory_cases hp.current hcount up with hsame | ⟨i,hi,hshow⟩
  · rw [hsame]
    exact ⟨⟨line,h⟩,hp⟩
  · obtain ⟨hfits,hnul⟩ := hp.item_fits hk ht (Nat.lt_of_succ_lt hsmall) hi
    rw [hshow]
    exact ⟨⟨_,h.showItem hfits hnul⟩,hp.storing.current i,hi,hp.fits⟩

end Recalled

section Run
variable {σ : Type*} {n k : ℕ} {mem hmem : ℕ → UInt8} {cli : Engine σ} {line : List UInt8} {world : World σ}
  {names : σ → List UInt8 → List (List UInt8)} {args : σ → List UInt8 → Bool → Option (List (List UInt8))}
  {app : Application σ}

/-- The functions of an application write nothing behind the command buffer. -/
def Respects (world : World σ) (size : ℕ) : Prop := ∀ env call buf x, size ≤ x → (world.run env call buf).2 x = buf x

/-- Should the line ask for a help, the byte that is zeroed for it is in the command buffer. -/
def HelpInside (world : World σ) (size : ℕ) (line : List UInt8) : Prop :=
  ∀ env name, request (world.commands env) line = .help name → helpAt line < size

/-- What has to hold of the lines that have been executed. -/
structure Fitting (world : World σ) (n k : ℕ) (executed : List (List UInt8)) : Prop where
  help : ∀ line ∈ executed, HelpInside world (n + 9) line
  tiled : Tiled (2 ^ k) (storedBy (2 ^ k) executed)

theorem Fitting.initial {executed later : List (List UInt8)} (h : Fitting world n k later) (hlater : executed <+: later) :
    Fitting world n k executed := by
  obtain ⟨rest,rfl⟩ := hlater
  exact ⟨fun line hline => h.help line (List.mem_append_left _ hline),tiled_storedBy h.tiled⟩

/-- The engine between two characters, with its line and its history in their buffers. -/
structure Safe (n k : ℕ) (mem hmem : ℕ → UInt8) (cli : Engine σ) : Prop where
  bound : Bound n mem cli
  past : Past n k hmem cli.history cli.executed

theorem Past.push {history : CliHistory} {executed : List (List UInt8)} (h : Past n k hmem history executed) (hk : k < 16)
    (hfits : line.length ≤ n) (hnul : 0 ∉ line) (htiled : Tiled (2 ^ k) (storedBy (2 ^ k) (executed ++ [line]))) :
    Storing k hmem (historyPut history line).1 (storedBy (2 ^ k) (executed ++ [line])) ∧
      ∀ str ∈ storedBy (2 ^ k) (executed ++ [line]), str.length ≤ n := by
  have hbefore := tiled_storedBy htiled
  have hsnoc : storedBy (2 ^ k) (executed ++ [line]) = keep (2 ^ k) (storedBy (2 ^ k) executed) line :=
    List.foldl_append
  rw [hsnoc] at htiled ⊢
  refine ⟨@Storing.put _ _ _ _ h.storing hk hbefore ⟨line,hnul⟩ htiled,?_⟩
  unfold keep
  split
  · exact h.fits
  · exact List.forall_mem_cons.mpr ⟨hfits,h.fits⟩

theorem parsed_behind (hspells : Spells cli.cmdBuffer line) (hnul : 0 ∉ line) (hfits : line.length ≤ n)
    (hsmall : n + 1 < 2 ^ 16) (hrespects : Respects world (n + 9)) (hhelp : HelpInside world (n + 9) line) {x : ℕ}
    (hx : n + 9 ≤ x) : ((world.application names args).execute cli.env cli.cmdBuffer line.length).2 x = cli.cmdBuffer x := by
  unfold World.application
  dsimp only
  cases hparse : parseCommand (world.commands cli.env) cli.cmdBuffer line.length with
  | none => rfl
  | some result =>
    obtain ⟨call,buf⟩ := result
    dsimp only
    rw [hrespects _ _ _ x hx]
    exact parseCommand_behind hspells hnul (by omega) hparse (by omega) fun name hrequest =>
      Nat.ne_of_gt (Nat.lt_of_lt_of_le (hhelp _ name hrequest) hx)

/-- The return key, in front of the new line. -/
theorem Safe.submit (h : Safe n k mem hmem cli) (hk : k < 16) (hrespects : Respects world (n + 9))
    (hfitting : Fitting world n k (submitLine (world.application names args) cli).executed) :
    (∀ x, n + 9 ≤ x → (submitLine (world.application names args) cli).cmdBuffer x = mem x) ∧
      (submitLine (world.application names args) cli).cmdMaxSize = n + 1 ∧
      Storing k hmem (submitLine (world.application names args) cli).history
        (storedBy (2 ^ k) (submitLine (world.application names args) cli).executed) ∧
      ∀ str ∈ storedBy (2 ^ k) (submitLine (world.application names args) cli).executed, str.length ≤ n := by
  obtain ⟨⟨line,hline⟩,hpast⟩ := h
  have hsize : cli.cmdSize = line.length := hline.size
  have hsame := hline.toDrafts.closed
  have htext : cString cli.cmdBuffer 0 = line := hline.text
  have hread : Circular.get cli.cmdBuffer 0 line.length = line := hline.front
  have hidle : (∀ x, n + 9 ≤ x → cli.cmdBuffer x = mem x) ∧ cli.cmdMaxSize = n + 1 ∧
      Storing k hmem cli.history (storedBy (2 ^ k) cli.executed) ∧
      ∀ str ∈ storedBy (2 ^ k) cli.executed, str.length ≤ n := ⟨hline.behind,hline.maxSize,hpast.storing,hpast.fits⟩
  unfold submitLine at hfitting ⊢
  by_cases hempty : cli.cmdSize > 0
  · rw [if_pos hempty,hsame] at hfitting ⊢
    unfold Engine.parseCommand at hfitting ⊢
    dsimp only at hfitting ⊢
    rw [hsize,hread] at hfitting ⊢
    by_cases hblank : (line.all fun c => c == 0x20) = true
    · rw [if_pos hblank] at hfitting ⊢
      exact hidle
    · rw [if_neg hblank] at hfitting ⊢
      dsimp only at hfitting ⊢
      rw [htext]
      obtain ⟨hstoring,hfits⟩ := hpast.push hk hline.fits hline.noNul hfitting.tiled
      refine ⟨fun x hx => ?_,hline.maxSize,hstoring,hfits⟩
      rw [parsed_behind hline.spells hline.noNul hline.fits hline.small hrespects
        (hfitting.help line (List.mem_append_right _ (List.mem_singleton_self line))) hx]
      exact hline.behind x hx
  · rw [if_neg hempty]
    exact hidle

theorem Safe.enter (h : Safe n k mem hmem cli) (hk : k < 16) (hrespects : Respects world (n + 9))
    (hfitting : Fitting world n k (submitLine (world.application names args) cli).executed) :
    Safe n k mem hmem (freshLine (submitLine (world.application names args) cli)) := by
  obtain ⟨hbehind,hmax,hstoring,hfits⟩ := h.submit hk hrespects hfitting
  obtain ⟨line,hline⟩ := h.bound
  refine ⟨⟨[],⟨hmax,hline.small,rfl,rfl,Nat.zero_le n,List.not_mem_nil,fun x hx => ?_⟩,rfl,le_rfl⟩,
    hstoring.current 0,Nat.zero_le _,hfits⟩
  exact (Function.update_of_ne (by omega : x ≠ 0) 0 _).trans (hbehind x hx)

/-- The history and the lines that have been executed. -/
def pastOf (cli : Engine σ) : CliHistory × List (List UInt8) := (cli.history,cli.executed)

theorem completions_past (cli : Engine σ) (found : List (List UInt8)) :
    pastOf (found.foldl embeddedCliCompletion cli) = pastOf cli := by
  induction found generalizing cli with
  | nil => rfl
  | cons name found ih =>
    rw [List.foldl_cons,ih]
    unfold embeddedCliCompletion
    dsimp only
    split
    · rfl
    · rfl

theorem autocomplete_past (cli : Engine σ) : pastOf (onAutocompleteRequest app cli) = pastOf cli := by
  have hcut : pastOf (cutHelp cli) = pastOf cli := by
    unfold Cli.cutHelp
    split
    · rfl
    · rfl
  unfold onAutocompleteRequest
  split
  · rfl
  split
  · show pastOf (completeCommand app cli) = pastOf cli
    unfold Cli.completeCommand
    dsimp only
    split
    · rfl
    · exact completions_past cli [_]
    · split
      · rfl
      · rfl
  · unfold completeArgument
    split
    · exact hcut
    · exact (completions_past _ _).trans hcut

theorem onCharInput_past (cli : Engine σ) (c : UInt8) : pastOf (onCharInput cli c) = pastOf cli := by
  unfold Cli.onCharInput
  split
  · rfl
  dsimp only
  split
  · split
    · rfl
    · rfl
  · rfl

theorem arrows_past (cli : Engine σ) (c : UInt8) : pastOf (onLeftArrow (onRightArrow cli c) c) = pastOf cli := by
  have hright : pastOf (onRightArrow cli c) = pastOf cli := by
    unfold onRightArrow
    split
    · rfl
    · rfl
  unfold onLeftArrow
  split
  · exact hright
  · exact hright

/-- The return key adds the line to those that have been executed, or not. -/
theorem submitLine_executed (cli : Engine σ) : (submitLine app cli).executed = cli.executed ∨
    (submitLine app cli).executed = cli.executed ++
      [Circular.get (Function.update cli.cmdBuffer cli.cmdSize 0) 0 cli.cmdSize] := by
  unfold submitLine Engine.parseCommand
  split
  · dsimp only
    split
    · exact .inl rfl
    · exact .inr rfl
  · exact .inl rfl

/-- Only the return key adds to them. -/
theorem processChar_submits (cli : Engine σ) (c : UInt8) : (processChar app cli c).executed = cli.executed ∨
    (processChar app cli c).executed = (submitLine app cli).executed := by
  have hsame : ∀ next : Engine σ, pastOf next = pastOf cli → next.executed = cli.executed := fun next hpast =>
    (Prod.mk.inj hpast).2
  unfold processChar handleChar
  dsimp only
  split
  · unfold Cli.onEscapedInput
    split
    · left
      show (pastOf (onLeftArrow (onRightArrow (onVerticalArrow { cli with escapeMode := false } c) c) c)).2 = cli.executed
      rw [arrows_past]
      unfold onVerticalArrow
      split
      · exact navigateHistory_executed { cli with escapeMode := false } (c = 0x41)
      · rfl
    · exact .inl rfl
  split
  · exact .inl rfl
  split
  · unfold Cli.onControlInput
    split
    · exact .inl rfl
    split
    · exact .inr rfl
    split
    · dsimp only
      split
      · exact .inl rfl
      · exact .inl rfl
    split
    · exact .inl (hsame _ ((autocomplete_past _).trans (by split <;> rfl)))
    · exact .inl rfl
  split
  · exact .inl (hsame _ (onCharInput_past cli c))
  · exact .inl rfl

theorem processChar_executed (cli : Engine σ) (c : UInt8) : cli.executed <+: (processChar app cli c).executed := by
  rcases @processChar_submits _ app cli c with hsame | hsubmit
  · rw [hsame]
  · rw [hsubmit]
    rcases @submitLine_executed _ app cli with hsame | hnew
    · rw [hsame]
    · rw [hnew]
      exact List.prefix_append ..

theorem typed_executed (cli : Engine σ) (cs : List UInt8) : cli.executed <+: (typed app cli cs).executed := by
  induction cs generalizing cli with
  | nil => exact List.prefix_rfl
  | cons c cs ih => exact (processChar_executed cli c).trans (ih _)

theorem Safe.of_past {next : Engine σ} (h : Safe n k mem hmem cli) (hbound : Bound n mem next)
    (hpast : pastOf next = pastOf cli) : Safe n k mem hmem next := by
  obtain ⟨hhistory,hexecuted⟩ := Prod.mk.inj hpast
  exact ⟨hbound,by rw [hhistory,hexecuted]; exact h.past⟩

/-- What a control character does. -/
theorem Safe.onControlInput (h : Safe n k mem hmem cli) (hk : k < 16) (hrespects : Respects world (n + 9))
    (hnames : NamesFit (world.application names args) n) (c : UInt8)
    (hfitting : Fitting world n k (onControlInput (world.application names args) cli c).executed) :
    Safe n k mem hmem (onControlInput (world.application names args) cli c) := by
  obtain ⟨line,hline⟩ := h.bound
  unfold Cli.onControlInput at hfitting ⊢
  dsimp only at hfitting ⊢
  split
  case isTrue => exact h
  case isFalse hfeed =>
    rw [if_neg hfeed] at hfitting
    split
    case isTrue hreturn =>
      rw [if_pos hreturn] at hfitting
      exact h.enter hk hrespects hfitting
    case isFalse =>
      split
      case isTrue hback =>
        have hdeleted := hline.delete hback.2
        split
        · exact h.of_past ⟨_,hdeleted⟩ rfl
        · exact h.of_past ⟨_,hdeleted.refresh⟩ rfl
      case isFalse =>
        split
        · split
          · exact h.of_past (@Inside.autocomplete _ _ _ { cli with lastChar := 0 } _ _ hline hnames) (autocomplete_past _)
          · exact h.of_past (hline.autocomplete hnames) (autocomplete_past _)
        · exact h

theorem Safe.onEscapedInput (h : Safe n k mem hmem cli) (hk : k < 16)
    (htiled : Tiled (2 ^ k) (storedBy (2 ^ k) cli.executed)) (c : UInt8) : Safe n k mem hmem (onEscapedInput cli c) := by
  obtain ⟨⟨line,hline⟩,hpast⟩ := h
  unfold Cli.onEscapedInput
  split
  case isFalse => exact ⟨⟨line,hline⟩,hpast⟩
  case isTrue =>
    have hvertical : Safe n k mem hmem (onVerticalArrow { cli with escapeMode := false } c) := by
      unfold onVerticalArrow
      split
      · obtain ⟨hbound,hnext⟩ := @Inside.navigate _ _ _ _ _ { cli with escapeMode := false } _ _ hline hpast hk htiled
          (c = 0x41)
        refine ⟨hbound,?_⟩
        rw [navigateHistory_executed]
        exact hnext
      · exact ⟨⟨line,hline⟩,hpast⟩
    obtain ⟨shown,hshown⟩ := hvertical.bound
    exact hvertical.of_past ⟨shown,hshown.arrows c⟩ (arrows_past _ c)

/-- What the engine does for one character, whichever it is. -/
theorem Safe.handled (h : Safe n k mem hmem cli) (hk : k < 16) (hrespects : Respects world (n + 9))
    (hnames : NamesFit (world.application names args) n) (c : UInt8)
    (hbefore : Tiled (2 ^ k) (storedBy (2 ^ k) cli.executed))
    (hfitting : Fitting world n k (processChar (world.application names args) cli c).executed) :
    Safe n k mem hmem (handleChar (world.application names args) cli c) := by
  unfold processChar handleChar at hfitting
  unfold handleChar
  obtain ⟨line,hline⟩ := h.bound
  split
  case isTrue => exact h.onEscapedInput hk hbefore c
  case isFalse hplain =>
    rw [if_neg hplain] at hfitting
    split
    case isTrue => exact ⟨⟨line,hline⟩,h.past⟩
    case isFalse hintroducer =>
      rw [if_neg hintroducer] at hfitting
      split
      case isTrue hcontrol =>
        rw [if_pos hcontrol] at hfitting
        exact h.onControlInput hk hrespects hnames c hfitting
      case isFalse =>
        split
        case isTrue hshown => exact h.of_past (hline.onCharInput (displayable_not_control hshown).2.2) (onCharInput_past cli c)
        case isFalse => exact h

theorem Safe.step (h : Safe n k mem hmem cli) (hk : k < 16) (hrespects : Respects world (n + 9))
    (hnames : NamesFit (world.application names args) n) (c : UInt8)
    (hbefore : Tiled (2 ^ k) (storedBy (2 ^ k) cli.executed))
    (hfitting : Fitting world n k (processChar (world.application names args) cli c).executed) :
    Safe n k mem hmem (processChar (world.application names args) cli c) := by
  obtain ⟨⟨line,hline⟩,hpast⟩ := h.handled hk hrespects hnames c hbefore hfitting
  exact ⟨⟨line,hline⟩,hpast⟩

theorem Safe.run (h : Safe n k mem hmem cli) (hk : k < 16) (hrespects : Respects world (n + 9))
    (hnames : NamesFit (world.application names args) n) (cs : List UInt8)
    (hfitting : Fitting world n k (typed (world.application names args) cli cs).executed) :
    Safe n k mem hmem (typed (world.application names args) cli cs) := by
  induction cs generalizing cli with
  | nil => exact h
  | cons c cs ih =>
    have hnext : Fitting world n k (processChar (world.application names args) cli c).executed :=
      hfitting.initial (typed_executed _ cs)
    exact ih (h.step hk hrespects hnames c (hnext.initial (processChar_executed cli c)).tiled hnext) hfitting

end Run

section Confined
variable {σ : Type*} {k : ℕ} {mem hmem : ℕ → UInt8} (world : World σ) (names : σ → List UInt8 → List (List UInt8))
  (args : σ → List UInt8 → Bool → Option (List (List UInt8)))

/-- A new engine whose two buffers lie in some memories. -/
def newIn (mem hmem : ℕ → UInt8) (rxBufferSize cmdBufferSize historyBufferSize : BitVec 16) (env : σ) : Engine σ :=
  { Cli.embeddedCliNew rxBufferSize cmdBufferSize historyBufferSize env with
    cmdBuffer := mem
    history := .new hmem historyBufferSize.toNat }

theorem safe_new {n : ℕ} (rxBufferSize cmdBufferSize historyBufferSize : BitVec 16) (env : σ)
    (hcmd : cmdBufferSize.toNat = n + 1) (hhistory : historyBufferSize.toNat = 2 ^ k) (hzero : mem 0 = 0)
    (hnew : ∀ x < 2 ^ k, hmem x = 0) :
    Safe n k mem hmem (newIn mem hmem rxBufferSize cmdBufferSize historyBufferSize env) := by
  have hsmall := cmdBufferSize.isLt
  refine ⟨⟨[],⟨hcmd,by omega,?_,rfl,Nat.zero_le n,List.not_mem_nil,fun _ _ => rfl⟩,rfl,le_rfl⟩,?_,Nat.zero_le _,
    fun _ hmem => absurd hmem List.not_mem_nil⟩
  · show [mem 0] = [0]
    rw [hzero]
  · show Storing k hmem (.new hmem historyBufferSize.toNat) []
    rw [hhistory]
    exact storing_new hnew

/-- Whatever is received in batches that fit into the receive buffer: as long as the commands have room in the history
and no help is asked for behind too many blanks, nothing is written behind the command buffer and its eight spare bytes
or behind the history, and the line ends inside the command buffer, with the cursor in it. -/
theorem engine_confined (rxBufferSize cmdBufferSize historyBufferSize : BitVec 16) (env : σ) (hcmd : 0 < cmdBufferSize.toNat)
    (hk : k < 16) (hhistory : historyBufferSize.toNat = 2 ^ k) (hzero : mem 0 = 0) (hnew : ∀ x < 2 ^ k, hmem x = 0)
    (hrespects : Respects world (cmdBufferSize.toNat + 8))
    (hnames : NamesFit (world.application names args) (cmdBufferSize.toNat - 1)) (batches : List (List UInt8))
    (hfit : ∀ batch ∈ batches, batch.length < rxBufferSize.toNat) :
    let cli := inBatches (world.application names args) (newIn mem hmem rxBufferSize cmdBufferSize historyBufferSize env) batches
    (∀ line ∈ cli.executed, HelpInside world (cmdBufferSize.toNat + 8) line) → Tiled (2 ^ k) (storedBy (2 ^ k) cli.executed) →
      (∀ x, cmdBufferSize.toNat + 8 ≤ x → cli.cmdBuffer x = mem x) ∧ (∀ x, 2 ^ k ≤ x → cli.history.buf x = hmem x) ∧
      cli.cmdSize < cmdBufferSize.toNat ∧ cli.cmdBuffer cli.cmdSize = 0 ∧ cli.inputLineLength = cli.cmdSize ∧
      cli.cursorPos ≤ cli.cmdSize := by
  intro cli hhelp htiled
  obtain ⟨n,hn⟩ := Nat.exists_eq_succ_of_ne_zero hcmd.ne'
  rw [hn] at hrespects hnames hhelp ⊢
  have hstart := safe_new rxBufferSize cmdBufferSize historyBufferSize env hn hhistory hzero hnew
  have hsafe : Safe n k mem hmem cli := by
    cases batches with
    | nil => exact hstart
    | cons batch batches =>
      have hidle := idle_new rxBufferSize cmdBufferSize historyBufferSize env
        (Nat.zero_lt_of_lt (hfit batch List.mem_cons_self))
      obtain ⟨left,hrun,-⟩ := @inBatches_survivors _ (world.application names args)
        (newIn mem hmem rxBufferSize cmdBufferSize historyBufferSize env) _ _ (batch :: batches) hidle hfit
      have hlast : cli = _ := hrun
      rw [hlast] at hhelp htiled ⊢
      obtain ⟨⟨line,hline⟩,hpast⟩ := hstart.run hk hrespects hnames _ ⟨hhelp,htiled⟩
      exact ⟨⟨line,hline⟩,hpast⟩
  obtain ⟨⟨line,hline⟩,hpast⟩ := hsafe
  have hsize : cli.cmdSize = line.length := hline.size
  refine ⟨hline.behind,hpast.storing.outside,?_,?_,?_,?_⟩
  · rw [hsize]
    exact Nat.lt_succ_of_le hline.fits
  · rw [hsize]
    exact hline.ended
  · rw [hsize]
    exact hline.length
  · rw [hsize]
    exact hline.cursor

/-- `s`, completed and run, recalled, edited in the middle and run again. -/
def editedBatches : List (List UInt8) :=
  [[0x73],[0x09],[0x0D],[0x1B,0x5B,0x41],[0x1B,0x5B,0x43],[0x1B,0x5B,0x43,0x7A],[0xFF,0x7F],[0x0D]]

theorem engine_confined_edited :
    let cli := inBatches (callLog.application (fun _ => fewNames) fun _ _ _ => none)
      (newIn (fun x => if x < 72 then 0 else 0xA5) (fun x => if x < 2 ^ 8 then 0 else 0xA5) 64 64 256 []) editedBatches
    cli.executed = [ascii "show ",ascii "shozw"] ∧ (∀ x, 72 ≤ x → cli.cmdBuffer x = if x < 72 then 0 else 0xA5) ∧
      (∀ x, 2 ^ 8 ≤ x → cli.history.buf x = if x < 2 ^ 8 then 0 else 0xA5) ∧
      cli.cmdSize < 64 ∧ cli.cmdBuffer cli.cmdSize = 0 ∧ cli.inputLineLength = cli.cmdSize ∧ cli.cursorPos ≤ cli.cmdSize := by
  intro cli
  have hlines : cli.executed = [ascii "show ",ascii "shozw"] := by decide +kernel
  have hnames : NamesFit (callLog.application (fun _ => fewNames) fun _ _ _ => none) 63 :=
    ⟨fun env line name hname => completes_few.names env line name hname,fun _ _ _ _ h => by cases h⟩
  refine ⟨hlines,?_⟩
  have hsize : (64 : BitVec 16).toNat = 64 := by decide
  have hconfined := @engine_confined _ 8 (fun x => if x < 72 then 0 else 0xA5) (fun x => if x < 2 ^ 8 then 0 else 0xA5)
    callLog (fun _ => fewNames) (fun _ _ _ => none) 64 64 256 [] (by decide) (by decide) rfl rfl (fun x hx => if_pos hx)
    (fun _ _ _ _ _ => rfl) hnames editedBatches (by decide)
  rw [hsize] at hconfined
  have hcli : inBatches (callLog.application (fun _ => fewNames) fun _ _ _ => none)
    (newIn (fun x => if x < 72 then 0 else 0xA5) (fun x => if x < 2 ^ 8 then 0 else 0xA5) 64 64 256 []) editedBatches =
      cli := rfl
  dsimp only at hconfined
  rw [hcli] at hconfined
  clear_value cli
  refine hconfined ?_ ?_
  · show ∀ line ∈ cli.executed, HelpInside callLog (64 + 8) line
    rw [hlines]
    have hplaces : ∀ line ∈ [ascii "show ",ascii "shozw"], helpAt line < 64 + 8 := by decide
    exact fun line hline _ _ _ => hplaces line hline
  · show Tiled (2 ^ 8) (storedBy (2 ^ 8) cli.executed)
    rw [hlines]
    decide

end Confined

end EmbedTemplate.Cli.CommandLine
