import EmbedTemplate.Cli.MiniTokens
import EmbedTemplate.Cli.Dispatch

/-! # The small command line

The commands of `cli_mini.c` on top of its line: what is typed goes into a line of twelve
characters, and a line that is entered is split and compared with the commands. A program that
has terminated does not touch its buffers any more.
-/
namespace EmbedTemplate.Cli.Mini
open Bytes

/-- `MAX_LINE` -/
def maxLine : ℕ := 12

section Commands
variable (size : ℕ)

/-- Whether `strcmp` finds the string at a place of an array equal to a constant. -/
def strcmpAt (str : ℕ → UInt8) : List UInt8 → ℕ → Option Bool
  | [], i => (load size str i).map fun d => d == 0
  | c :: cs, i => (load size str i).bind fun d => if d = c then strcmpAt str cs (i + 1) else some false

def cmds : List (List UInt8) := [ascii "set",ascii "show"]
def args : List (List UInt8) := [ascii "logs",ascii "stats"]

/-- The first of some names that is equal to the string, compared one after the other. -/
def findCommand (str : ℕ → UInt8) (i : ℕ) : List (List UInt8) → Option (Option (List UInt8))
  | [] => some none
  | name :: names => (strcmpAt size str name i).bind fun same => if same then some (some name) else findCommand str i names

/-- `cli_process_str`, without its output: whether it terminates the program -/
def cliProcessStr (len : ℕ) (str : ℕ → UInt8) (bitmap : ℕ → BitVec 32) : Option ((ℕ → UInt8) × Bool) :=
  if len = 1 then (load size str 0).map fun c => (str,c == 113)
  else (cliTokenize size len str bitmap).bind fun (str,tkn) =>
    if tkn 0 = nullToken then some (str,false)
    else (load size str (tkn 0)).bind fun c =>
      if c = 113 then some (str,true)
      else if c = 63 then some (str,false)
      else (findCommand size str (tkn 0) cmds).bind fun cmd =>
        (load size str (tkn 1)).bind fun c =>
          if c = 63 then some (str,false)
          else if cmd.isSome ∧ tkn 1 < len then
            (args.mapM fun arg => strcmpAt size str arg (tkn 1)).map fun _ => (str,false)
          else some (str,false)

end Commands

/-- The line, as long as the program runs. -/
structure State where
  line : Line
  running : Bool

/-- `cli_process` -/
def cliProcess (l : Line) : Option State :=
  if l.rxCount ≠ 0 then
    (store maxLine l.rxBuf l.rxCount 0).bind fun rxBuf =>
    (cliProcessStr maxLine l.rxCount rxBuf l.rxBitmap).bind fun (rxBuf,quits) =>
    if quits then some ⟨{ l with rxBuf := rxBuf },false⟩
    else some ⟨emptyLine rxBuf,true⟩
  else some ⟨l,true⟩

/-- `cli_run` with a character; where `char` is signed, the character 255 is `EOF`. -/
def cliRun (charSigned : Bool) (s : State) (c : UInt8) : Option State :=
  if !s.running then some s
  else if charSigned ∧ c = 255 then some { s with running := false }
  else if c = 13 ∨ c = 10 then cliProcess s.line
  else if c = 127 ∨ c = 8 then (cliClearLastChar s.line).map fun l => ⟨l,true⟩
  else if 32 ≤ c ∧ c ≤ 126 then (cliReceiveChar maxLine s.line c).map fun l => ⟨l,true⟩
  else some s

/-- The program at its start, over what the buffer happens to hold. -/
def boot (rxBuf : ℕ → UInt8) : State := ⟨emptyLine rxBuf,true⟩

section Bounds
variable {size : ℕ} {str : ℕ → UInt8}

/-- A comparison stays in front of a NUL. -/
theorem strcmpAt_total (cmd : List UInt8) (hcmd : ∀ c ∈ cmd, c ≠ 0) {i b : ℕ} (hib : i ≤ b) (hb : b < size)
    (hnul : str b = 0) : ∃ r, strcmpAt size str cmd i = some r := by
  induction cmd generalizing i with
  | nil => exact ⟨_,by rw [strcmpAt,load_of_lt (Nat.lt_of_le_of_lt hib hb),Option.map_some]⟩
  | cons c cmd ih =>
    rw [List.forall_mem_cons] at hcmd
    rw [strcmpAt,load_of_lt (Nat.lt_of_le_of_lt hib hb),Option.bind_some]
    split
    · rcases Nat.lt_or_eq_of_le hib with hlt | rfl
      · exact ih hcmd.2 hlt
      · exact absurd (‹str i = c› ▸ hnul) hcmd.1
    · exact ⟨false,rfl⟩

theorem findCommand_total {names : List (List UInt8)} (hnames : ∀ name ∈ names, ∀ c ∈ name, c ≠ 0) {i b : ℕ}
    (hib : i ≤ b) (hb : b < size) (hnul : str b = 0) : ∃ r, findCommand size str i names = some r := by
  induction names with
  | nil => exact ⟨none,rfl⟩
  | cons name names ih =>
    rw [List.forall_mem_cons] at hnames
    obtain ⟨same,hsame⟩ := strcmpAt_total name hnames.1 hib hb hnul
    rw [findCommand,hsame,Option.bind_some]
    split
    · exact ⟨some name,rfl⟩
    · exact ih hnames.2

end Bounds

section Guard

/-- A line that `cli_process_str` can split: one character, no token, a first token that begins
like `quit` or the question mark, or a second token. -/
def HasArgument (l : Line) : Prop :=
  l.rxCount = 1 ∨ runStarts l.rxBuf l.rxCount = [] ∨
    ∃ a rest, runStarts l.rxBuf l.rxCount = a :: rest ∧ (l.rxBuf a = 113 ∨ l.rxBuf a = 63 ∨ rest ≠ [])

/-- A line is entered only when it is empty, or not full and with what the commands look at. -/
def Enters (s : State) (c : UInt8) : Prop :=
  s.running = true → c = 13 ∨ c = 10 → s.line.rxCount ≠ 0 → s.line.rxCount < maxLine ∧ HasArgument s.line

theorem runStarts_congr {str str' : ℕ → UInt8} {len : ℕ} (h : ∀ i < len, str i = str' i) :
    runStarts str len = runStarts str' len := by
  unfold runStarts
  apply List.filter_congr
  intro a ha
  rw [List.mem_range] at ha
  rw [h a ha,h (a - 1) (by omega)]

variable {l : Line}

theorem cmds_nonzero : ∀ name ∈ cmds, ∀ c ∈ name, c ≠ 0 := by decide +kernel

/-- The second comparison, when there is a second token. -/
theorem compareArgs_total {size len : ℕ} {str : ℕ → UInt8} {i b : ℕ} (hib : i ≤ b) (hb : b < size) (hnul : str b = 0)
    (c : UInt8) (cmd : Option (List UInt8)) :
    ∃ r : (ℕ → UInt8) × Bool, (if c = 63 then some (str,false)
      else if cmd.isSome ∧ i < len then (args.mapM fun arg => strcmpAt size str arg i).map fun _ => (str,false)
      else some (str,false)) = some r := by
  split
  · exact ⟨_,rfl⟩
  · split
    · obtain ⟨logs,hlogs⟩ := strcmpAt_total (ascii "logs") (by decide +kernel) hib hb hnul
      obtain ⟨stats,hstats⟩ := strcmpAt_total (ascii "stats") (by decide +kernel) hib hb hnul
      refine ⟨(str,false),?_⟩
      simp [args,hlogs,hstats]
    · exact ⟨_,rfl⟩

/-- The bitmap is that of every string with the same characters in front of the count. -/
theorem Mapped.congr {str : ℕ → UInt8} (h : Mapped l) (hchars : ∀ i < l.rxCount, str i = l.rxBuf i) :
    ∀ i < 128, bitAt l.rxBitmap i = decide (i < l.rxCount ∧ str i = charSpace) := by
  intro i hi
  rw [h i hi]
  apply decide_eq_decide.mpr
  constructor
  · rintro ⟨hlt,hspace⟩
    exact ⟨hlt,(hchars i hlt).trans hspace⟩
  · rintro ⟨hlt,hspace⟩
    exact ⟨hlt,(hchars i hlt).symm.trans hspace⟩

/-- What `cli_process_str` needs of a line that is split. -/
theorem cliProcessStr_iff (hmapped : Mapped l) (hfits : l.rxCount < maxLine) :
    (∃ r, cliProcessStr maxLine l.rxCount (Function.update l.rxBuf l.rxCount 0) l.rxBitmap = some r) ↔ HasArgument l := by
  have hchars : ∀ i < l.rxCount, Function.update l.rxBuf l.rxCount 0 i = l.rxBuf i := by
    intro i hi
    rw [Function.update_of_ne]
    omega
  have hnul : Function.update l.rxBuf l.rxCount 0 l.rxCount = 0 := Function.update_self ..
  have hlen : l.rxCount ≤ 128 := hfits.le.trans (by decide)
  have hmap := hmapped.congr hchars
  have hstarts := runStarts_congr hchars
  generalize Function.update l.rxBuf l.rxCount 0 = str at hchars hnul hmap hstarts
  unfold HasArgument cliProcessStr
  by_cases hone : l.rxCount = 1
  · rw [if_pos hone,load_of_lt (by decide)]
    exact ⟨fun _ => .inl hone,fun _ => ⟨_,rfl⟩⟩
  · obtain ⟨str',tkn,htokens,hsplit⟩ := cliTokenize_split hmap hfits hlen hnul
    rw [if_neg hone,htokens,Option.bind_some]
    dsimp only
    have hfirst := hsplit.tokens 0 (by decide)
    have hsecond := hsplit.tokens 1 (by decide)
    rw [hstarts] at hfirst hsecond
    cases hruns : runStarts l.rxBuf l.rxCount with
    | nil =>
      rw [hruns] at hfirst
      have hnone : tkn 0 = nullToken := hfirst
      rw [if_pos hnone]
      exact ⟨fun _ => .inr (.inl rfl),fun _ => ⟨_,rfl⟩⟩
    | cons a rest =>
      rw [hruns] at hfirst hsecond
      have ha : a < l.rxCount := (mem_runStarts.mp (hruns ▸ List.mem_cons_self ..)).1
      obtain ⟨b,hab,hb,hrun,-,hbnul⟩ := hsplit.ends 0 (by decide) a (by rw [hstarts,hruns]; rfl)
      have htkn : tkn 0 = a := hfirst
      have hnotnull : a ≠ nullToken := (Nat.lt_trans ha (Nat.lt_trans hfits (by decide))).ne
      have hchar : str' a = l.rxBuf a := (hrun a le_rfl hab).2.trans (hchars a ha)
      have hsize : b < maxLine := Nat.lt_of_le_of_lt hb hfits
      obtain ⟨cmd,hcmd⟩ := findCommand_total cmds_nonzero hab.le hsize hbnul
      rw [htkn,if_neg hnotnull,load_of_lt (Nat.lt_trans ha hfits),Option.bind_some,hchar,hcmd,Option.bind_some]
      have hhas : (l.rxCount = 1 ∨ a :: rest = [] ∨
          ∃ a' rest', a :: rest = a' :: rest' ∧ (l.rxBuf a' = 113 ∨ l.rxBuf a' = 63 ∨ rest' ≠ [])) ↔
          (l.rxBuf a = 113 ∨ l.rxBuf a = 63 ∨ rest ≠ []) := by
        simp [hone]
      rw [hhas]
      by_cases hquit : l.rxBuf a = 113
      · rw [if_pos hquit]
        exact ⟨fun _ => .inl hquit,fun _ => ⟨_,rfl⟩⟩
      · rw [if_neg hquit]
        by_cases hhelp : l.rxBuf a = 63
        · rw [if_pos hhelp]
          exact ⟨fun _ => .inr (.inl hhelp),fun _ => ⟨_,rfl⟩⟩
        · rw [if_neg hhelp]
          cases rest with
          | nil =>
            have hmissing : tkn 1 = nullToken := hsecond
            have hout : load maxLine str' nullToken = none := if_neg (by decide)
            rw [hmissing,hout,Option.bind_none]
            simp [hquit,hhelp]
          | cons a' rest =>
            have htkn' : tkn 1 = a' := hsecond
            have hmem : a' ∈ runStarts l.rxBuf l.rxCount := by simp [hruns]
            have ha' := (mem_runStarts.mp hmem).1
            obtain ⟨b',hab',hb',-,-,hbnul'⟩ := hsplit.ends 1 (by decide) a' (by rw [hstarts,hruns]; rfl)
            rw [htkn',load_of_lt (Nat.lt_trans ha' hfits),Option.bind_some]
            refine ⟨fun _ => .inr (.inr (List.cons_ne_nil _ _)),fun _ => ?_⟩
            exact compareArgs_total hab'.le (Nat.lt_of_le_of_lt hb' hfits) hbnul' (str' a') cmd

end Guard

section Runs
variable {charSigned : Bool} {s t : State} {c : UInt8}

/-- The line fits its buffer and its bitmap, as long as the program runs. -/
def Fits (s : State) : Prop := s.running = true → s.line.rxCount ≤ maxLine ∧ Mapped s.line

theorem cliProcess_iff {l : Line} (hmapped : Mapped l) :
    (∃ t, cliProcess l = some t) ↔ (l.rxCount ≠ 0 → l.rxCount < maxLine ∧ HasArgument l) := by
  unfold cliProcess
  by_cases hsome : l.rxCount ≠ 0
  · rw [if_pos hsome]
    by_cases hfits : l.rxCount < maxLine
    · have hiff := cliProcessStr_iff hmapped hfits
      rw [store_of_lt hfits,Option.bind_some]
      constructor
      · rintro ⟨t,ht⟩ -
        obtain ⟨r,hr,-⟩ := Option.bind_eq_some_iff.mp ht
        exact ⟨hfits,hiff.mp ⟨r,hr⟩⟩
      · intro h
        obtain ⟨r,hr⟩ := hiff.mpr (h hsome).2
        rw [hr,Option.bind_some]
        dsimp only
        split
        · exact ⟨_,rfl⟩
        · exact ⟨_,rfl⟩
    · have hout : store maxLine l.rxBuf l.rxCount 0 = none := if_neg hfits
      rw [hout,Option.bind_none]
      simp [hsome,hfits]
  · rw [if_neg hsome]
    exact ⟨fun _ h => absurd h hsome,fun _ => ⟨_,rfl⟩⟩

theorem cliProcess_fits {l : Line} (hcount : l.rxCount ≤ maxLine) (hmapped : Mapped l) (h : cliProcess l = some t) :
    Fits t := by
  unfold cliProcess at h
  split at h
  · obtain ⟨rxBuf,-,h⟩ := Option.bind_eq_some_iff.mp h
    obtain ⟨⟨rxBuf',quits⟩,-,h⟩ := Option.bind_eq_some_iff.mp h
    dsimp only at h
    split at h
    · cases h
      exact fun hrun => absurd hrun Bool.false_ne_true
    · cases h
      exact fun _ => ⟨Nat.zero_le maxLine,mapped_empty rxBuf'⟩
  · cases h
    exact fun _ => ⟨hcount,hmapped⟩

theorem edited_fits {o : Option Line} (h : ∃ u, o = some u ∧ u.rxCount ≤ maxLine ∧ Mapped u)
    (ht : (o.map fun l => (⟨l,true⟩ : State)) = some t) : Fits t := by
  obtain ⟨u,rfl,hu⟩ := h
  cases ht
  exact fun _ => hu

theorem cliRun_fits (hfits : Fits s) (h : cliRun charSigned s c = some t) : Fits t := by
  unfold cliRun at h
  split at h
  · cases h
    exact hfits
  · obtain ⟨hcount,hmapped⟩ := hfits (by simpa using ‹¬(!s.running) = true›)
    split at h
    · cases h
      exact fun hrun => absurd hrun Bool.false_ne_true
    · split at h
      · exact cliProcess_fits hcount hmapped h
      · split at h
        · exact edited_fits (hmapped.clear (by decide) hcount) h
        · split at h
          · exact edited_fits (hmapped.receive (by decide) hcount c) h
          · cases h
            exact hfits

theorem cliRun_iff (hfits : Fits s) : (∃ t, cliRun charSigned s c = some t) ↔ Enters s c := by
  unfold cliRun Enters
  by_cases hrun : s.running = true
  · obtain ⟨hcount,hmapped⟩ := hfits hrun
    rw [hrun]
    by_cases henter : c = 13 ∨ c = 10
    · have hchar : ¬(charSigned = true ∧ c = 255) := by
        rintro ⟨-,rfl⟩
        exact absurd henter (by decide)
      simp only [Bool.not_true,if_neg Bool.false_ne_true,if_neg hchar,if_pos henter,cliProcess_iff hmapped]
      simp [henter]
    · simp only [Bool.not_true,if_neg Bool.false_ne_true,if_neg henter]
      refine ⟨fun _ _ h => absurd h henter,fun _ => ?_⟩
      obtain ⟨u,hu,-⟩ := hmapped.clear (show maxLine ≤ 128 by decide) hcount
      obtain ⟨v,hv,-⟩ := hmapped.receive (show maxLine ≤ 128 by decide) hcount c
      rw [hu,hv]
      split
      · exact ⟨_,rfl⟩
      · split
        · exact ⟨_,rfl⟩
        · split
          · exact ⟨_,rfl⟩
          · exact ⟨_,rfl⟩
  · simp [hrun]

/-- A run stays inside the buffers exactly when every line that is entered is empty, or short
enough and with a second token where the commands look at one. -/
theorem run_inside_iff (charSigned : Bool) (rxBuf : ℕ → UInt8) (cs : List UInt8) :
    (∃ t, Machine.exec (cliRun charSigned) (boot rxBuf) cs = some t) ↔
      Machine.Meets (cliRun charSigned) Enters (boot rxBuf) cs :=
  Machine.exec_iff_meets (cliRun charSigned) (I := Fits) (fun _ _ h => cliRun_iff h) (fun _ _ _ h ht => cliRun_fits h ht)
    (fun _ => ⟨Nat.zero_le maxLine,mapped_empty rxBuf⟩) cs

/-- A line that fills the buffer is terminated behind it. -/
example : (Machine.exec (cliRun false) (boot fun _ => 0) (ascii "abcdefghijkl" ++ [13])).isNone = true := by decide +kernel

/-- A command without an argument is looked at behind the buffer. -/
theorem set_outside : ¬∀ (charSigned : Bool) (rxBuf : ℕ → UInt8) (cs : List UInt8),
    ∃ t, Machine.exec (cliRun charSigned) (boot rxBuf) cs = some t := by
  intro h
  obtain ⟨t,ht⟩ := h false (fun _ => 0) (ascii "set" ++ [13])
  have hnone : (Machine.exec (cliRun false) (boot fun _ => 0) (ascii "set" ++ [13])).isNone = true := by decide +kernel
  rw [ht] at hnone
  cases hnone

end Runs

end EmbedTemplate.Cli.Mini
