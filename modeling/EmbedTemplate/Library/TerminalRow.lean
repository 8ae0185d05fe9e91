import Mathlib.Data.List.GetD
import Mathlib.Data.Nat.Digits.Defs
import Mathlib.Logic.Function.Basic

/-! # The row of a terminal

A terminal that interprets what is written to it: characters, the control characters that move the cursor, and the
sequences for the cursor and for erasing. Only the row of the cursor is kept; it is as long as what is written to it,
and the one that follows is empty.
-/
namespace EmbedTemplate.TerminalRow

/-- Between characters, behind the escape, or behind some characters of a control sequence -/
inductive Parser
  | ground
  | escape
  | csi (params : List UInt8)
  deriving DecidableEq

structure Tty where
  row : ℕ → UInt8
  col : ℕ
  parser : Parser

/-- A row that begins with a text and is blank behind it. -/
def cells (text : List UInt8) : ℕ → UInt8 := fun x => text.getD x 0x20

def isPrintable (c : UInt8) : Bool := 0x20 ≤ c ∧ c ≤ 0x7E

/-- The value of some decimal digits. -/
def value (params : List UInt8) : ℕ := params.foldl (fun n d => 10 * n + (d.toNat - 0x30)) 0

/-- Cursor right, cursor left, erase in line -/
def control (s : Tty) (params : List UInt8) (final : UInt8) : Tty :=
  if final = 0x43 then { s with col := s.col + max 1 (value params) }
  else if final = 0x44 then { s with col := s.col - max 1 (value params) }
  else if final = 0x4B then
    if value params = 0 then { s with row := fun x => if s.col ≤ x then 0x20 else s.row x }
    else if value params = 1 then { s with row := fun x => if x ≤ s.col then 0x20 else s.row x }
    else { s with row := cells [] }
  else s

def write (s : Tty) (c : UInt8) : Tty :=
  match s.parser with
  | .ground =>
    if c = 0x1B then { s with parser := .escape }
    else if c = 0x0D then { s with col := 0 }
    else if c = 0x0A then { s with row := cells [] }
    else if c = 0x08 then { s with col := s.col - 1 }
    else if isPrintable c then { s with row := Function.update s.row s.col c, col := s.col + 1 }
    else s
  | .escape => if c = 0x5B then { s with parser := .csi [] } else { s with parser := .ground }
  | .csi params =>
    if 0x20 ≤ c ∧ c < 0x40 then { s with parser := .csi (params ++ [c]) }
    else { control s params c with parser := .ground }

def writes (s : Tty) (cs : List UInt8) : Tty := cs.foldl write s

section Writing
variable {s : Tty} {text more : List UInt8} {c : UInt8} {row : ℕ → UInt8} {col : ℕ}

theorem writes_append (s : Tty) (cs ds : List UInt8) : writes s (cs ++ ds) = writes (writes s cs) ds :=
  List.foldl_append

/-- The cursor in a row, between characters. -/
def resting (row : ℕ → UInt8) (col : ℕ) : Tty := ⟨row,col,.ground⟩

theorem printable_plain (h : isPrintable c = true) : c ≠ 0x1B ∧ c ≠ 0x0D ∧ c ≠ 0x0A ∧ c ≠ 0x08 := by
  refine ⟨?_,?_,?_,?_⟩ <;> rintro rfl <;> exact absurd h (by decide)

theorem write_printable (h : isPrintable c = true) (row : ℕ → UInt8) (col : ℕ) :
    write (resting row col) c = resting (Function.update row col c) (col + 1) := by
  obtain ⟨hescape,hreturn,hfeed,hback⟩ := printable_plain h
  unfold write resting
  dsimp only
  rw [if_neg hescape,if_neg hreturn,if_neg hfeed,if_neg hback,if_pos h]

theorem cells_update (text : List UInt8) (c : UInt8) :
    Function.update (cells text) text.length c = cells (text ++ [c]) := by
  funext x
  unfold cells
  rw [Function.update_apply]
  split
  case isTrue hx =>
    rw [hx,List.getD_append_right _ _ _ _ le_rfl,Nat.sub_self]
    rfl
  case isFalse hx =>
    rcases Nat.lt_or_gt_of_ne hx with hlt | hgt
    · rw [List.getD_append _ _ _ _ hlt]
    · rw [List.getD_eq_default _ _ hgt.le,List.getD_eq_default]
      rw [List.length_append,List.length_singleton]
      exact hgt

/-- A blank behind a text is not to be seen. -/
theorem cells_blank (text : List UInt8) : cells (text ++ [0x20]) = cells text := by
  rw [← cells_update]
  apply Function.update_eq_self_iff.mpr
  exact (List.getD_eq_default _ _ le_rfl).symm

/-- A text behind another one. -/
theorem writes_text (h : ∀ c ∈ more, isPrintable c = true) :
    writes (resting (cells text) text.length) more = resting (cells (text ++ more)) (text ++ more).length := by
  induction more generalizing text with
  | nil =>
    rw [List.append_nil]
    rfl
  | cons c more ih =>
    rw [List.forall_mem_cons] at h
    have hstep : write (resting (cells text) text.length) c = resting (cells (text ++ [c])) (text ++ [c]).length := by
      rw [write_printable h.1,cells_update,List.length_append]
      rfl
    have hrest := @ih (text ++ [c]) h.2
    rw [List.append_assoc,List.singleton_append] at hrest
    rw [← hrest,← hstep]
    rfl

theorem writes_line (h : ∀ c ∈ more, isPrintable c = true) :
    writes (resting (cells []) 0) more = resting (cells more) more.length :=
  @writes_text [] more h

/-- Printable characters anywhere in the row. -/
theorem writes_printable (h : ∀ c ∈ more, isPrintable c = true) :
    ∃ row', writes (resting row col) more = resting row' (col + more.length) := by
  induction more generalizing row col with
  | nil => exact ⟨row,rfl⟩
  | cons c more ih =>
    rw [List.forall_mem_cons] at h
    obtain ⟨row',hrest⟩ := @ih (Function.update row col c) (col + 1) h.2
    refine ⟨row',?_⟩
    rw [List.length_cons,Nat.add_comm more.length,← Nat.add_assoc,← hrest,← write_printable h.1]
    rfl

theorem writes_blanks (m : ℕ) : writes (resting row col) (List.replicate m 0x20) =
    resting (fun x => if col ≤ x ∧ x < col + m then 0x20 else row x) (col + m) := by
  induction m generalizing row col with
  | zero =>
    have hrow : (fun x => if col ≤ x ∧ x < col + 0 then (0x20 : UInt8) else row x) = row := by
      funext x
      exact if_neg (by omega)
    rw [hrow]
    rfl
  | succ m ih =>
    rw [List.replicate_succ]
    have hstep : writes (resting row col) (0x20 :: List.replicate m 0x20) =
      writes (write (resting row col) 0x20) (List.replicate m 0x20) := rfl
    rw [hstep,write_printable (by decide),ih,Nat.add_assoc,Nat.add_comm 1 m]
    congr 1
    funext x
    rw [Function.update_apply]
    by_cases hx : x = col
    · rw [if_pos hx,if_pos (by omega : col ≤ x ∧ x < col + (m + 1))]
      split <;> rfl
    · rw [if_neg hx]
      by_cases hin : col ≤ x ∧ x < col + (m + 1)
      · rw [if_pos hin,if_pos (by omega)]
      · rw [if_neg hin,if_neg (by omega)]

/-- Blanks over a text, from the left margin and back to it. -/
theorem writes_over {m : ℕ} (h : text.length ≤ m) :
    writes (resting (cells text) col) (0x0D :: (List.replicate m 0x20 ++ [0x0D])) = resting (cells []) 0 := by
  have hstart : writes (resting (cells text) col) (0x0D :: (List.replicate m 0x20 ++ [0x0D])) =
    writes (writes (resting (cells text) 0) (List.replicate m 0x20)) [0x0D] := writes_append ..
  rw [hstart,writes_blanks]
  have hrow : (fun x => if 0 ≤ x ∧ x < 0 + m then 0x20 else cells text x) = cells [] := by
    funext x
    split
    · rfl
    · exact List.getD_eq_default _ _ (by omega)
  rw [hrow]
  rfl

theorem writes_erase (row : ℕ → UInt8) (col : ℕ) :
    writes (resting row col) [0x0D,0x1B,0x5B,0x32,0x4B] = resting (cells []) 0 := rfl

theorem writes_newline (row : ℕ → UInt8) (col : ℕ) : writes (resting row col) [0x0D,0x0A] = resting (cells []) 0 := rfl

theorem writes_right (row : ℕ → UInt8) (col : ℕ) : writes (resting row col) [0x1B,0x5B,0x43] = resting row (col + 1) := rfl

theorem writes_left (row : ℕ → UInt8) (col : ℕ) : writes (resting row col) [0x1B,0x5B,0x44] = resting row (col - 1) := rfl

theorem writes_rubout (text : List UInt8) (c : UInt8) :
    writes (resting (cells (text ++ [c])) (text ++ [c]).length) [0x08,0x20,0x08] = resting (cells text) text.length := by
  have hlen : (text ++ [c]).length = text.length + 1 := List.length_append
  have hback : writes (resting (cells (text ++ [c])) (text ++ [c]).length) [0x08,0x20,0x08] =
      resting (Function.update (cells (text ++ [c])) text.length 0x20) text.length := by
    rw [hlen]
    rfl
  rw [hback,← cells_update,Function.update_idem,cells_update,cells_blank]

end Writing

section Counted

/-- A number in decimal digits. -/
def decimal (n : ℕ) : List UInt8 := (Nat.digits 10 n).reverse.map fun d => UInt8.ofNat (0x30 + d)

theorem decimal_digit {n : ℕ} : ∀ d ∈ Nat.digits 10 n, d < 10 := fun _ hd => Nat.digits_lt_base (by decide) hd

theorem ofNat_digit {d : ℕ} (h : d < 10) : (UInt8.ofNat (0x30 + d)).toNat = 0x30 + d := by
  rw [UInt8.toNat_ofNat']
  omega

theorem value_decimal (n : ℕ) : value (decimal n) = n := by
  unfold value decimal
  rw [List.foldl_map,List.foldl_reverse]
  conv_rhs => rw [← Nat.ofDigits_digits 10 n]
  have hdigits := @decimal_digit n
  revert hdigits
  generalize Nat.digits 10 n = ds
  intro hdigits
  induction ds with
  | nil => rfl
  | cons d ds ih =>
    rw [List.forall_mem_cons] at hdigits
    rw [List.foldr_cons,ih hdigits.2,ofNat_digit hdigits.1,Nat.ofDigits_cons]
    omega

theorem writes_params {row : ℕ → UInt8} {col : ℕ} {params more : List UInt8} (h : ∀ c ∈ more, 0x20 ≤ c ∧ c < 0x40) :
    writes ⟨row,col,.csi params⟩ more = ⟨row,col,.csi (params ++ more)⟩ := by
  induction more generalizing params with
  | nil =>
    rw [List.append_nil]
    rfl
  | cons c more ih =>
    rw [List.forall_mem_cons] at h
    have hstep : write ⟨row,col,.csi params⟩ c = ⟨row,col,.csi (params ++ [c])⟩ := if_pos h.1
    have hrest := @ih (params ++ [c]) h.2
    rw [List.append_assoc,List.singleton_append] at hrest
    rw [← hrest,← hstep]
    rfl

/-- The cursor some characters to the left. -/
theorem writes_leftBy (row : ℕ → UInt8) (col : ℕ) {n : ℕ} (hn : 0 < n) :
    writes (resting row col) (0x1B :: 0x5B :: (decimal n ++ [0x44])) = resting row (col - n) := by
  have hparams : ∀ c ∈ decimal n, 0x20 ≤ c ∧ c < (0x40 : UInt8) := by
    intro c hc
    obtain ⟨d,hd,rfl⟩ := List.mem_map.mp hc
    have hdigit := decimal_digit d (List.mem_reverse.mp hd)
    rw [UInt8.le_iff_toNat_le,UInt8.lt_iff_toNat_lt,ofNat_digit hdigit]
    exact ⟨Nat.le_add_right_of_le (by decide),Nat.lt_of_lt_of_le (Nat.add_lt_add_left hdigit _) (by decide)⟩
  have hstart : writes (resting row col) (0x1B :: 0x5B :: (decimal n ++ [0x44])) =
    writes (writes ⟨row,col,.csi []⟩ (decimal n)) [0x44] := writes_append ..
  have hend : writes ⟨row,col,.csi (decimal n)⟩ [0x44] = resting row (col - max 1 (value (decimal n))) := rfl
  rw [hstart,writes_params hparams,List.nil_append,hend,value_decimal,max_eq_right hn]

end Counted

section Sequences
variable {cs ds : List UInt8}

/-- Behind it the terminal is between characters again, wherever the cursor was. -/
def Complete (cs : List UInt8) : Prop := ∀ row col, ∃ row' col', writes (resting row col) cs = resting row' col'

theorem Complete.append (hcs : Complete cs) (hds : Complete ds) : Complete (cs ++ ds) := by
  intro row col
  obtain ⟨row',col',hfirst⟩ := hcs row col
  obtain ⟨row'',col'',hsecond⟩ := hds row' col'
  exact ⟨row'',col'',by rw [writes_append,hfirst,hsecond]⟩

theorem complete_nil : Complete [] := fun row col => ⟨row,col,rfl⟩

theorem complete_printable (h : ∀ c ∈ cs, isPrintable c = true) : Complete cs := fun row col =>
  have ⟨row',hrow⟩ := @writes_printable cs row col h
  ⟨row',_,hrow⟩

theorem complete_return : Complete [0x0D] := fun row _ => ⟨row,0,rfl⟩

theorem complete_newline : Complete [0x0D,0x0A] := fun row col => ⟨_,_,writes_newline row col⟩

theorem complete_leftBy {n : ℕ} (hn : 0 < n) : Complete (0x1B :: 0x5B :: (decimal n ++ [0x44])) := fun row col =>
  ⟨row,_,writes_leftBy row col hn⟩

end Sequences

end EmbedTemplate.TerminalRow
