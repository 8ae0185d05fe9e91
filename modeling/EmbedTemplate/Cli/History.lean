import EmbedTemplate.Library.Bytes
import EmbedTemplate.Library.StringRing

/-! # The command history

`historyPut` and `historyGet` of `embedded_cli.c`. The commands lie back to back in a
buffer whose size is a power of two; an older command is found by going backwards over the
terminators. The memory behind the buffer belongs to others.
-/
namespace EmbedTemplate.Cli
open Bytes Circular StringRing

def maxHistoryItems : ℕ := 16

/-- `CliHistory`; the memory starts at the buffer. -/
structure CliHistory where
  buf : ℕ → UInt8
  bufferSize : ℕ
  current : ℕ
  itemsCount : ℕ
  head : ℕ

/-- `strlen`, of a string below 64 KB. -/
def strlenFrom (buf : ℕ → UInt8) : ℕ → ℕ → ℕ
  | 0, _ => 0
  | fuel + 1, pos => if buf pos = 0 then 0 else strlenFrom buf fuel (pos + 1) + 1

def strlen (buf : ℕ → UInt8) (pos : ℕ) : ℕ := strlenFrom buf (2 ^ 16) pos

section Operations
variable (h : CliHistory)

def CliHistory.mask : ℕ := h.bufferSize - 1

/-- `(pos - 1) & mask` -/
def CliHistory.back (pos : ℕ) : ℕ := u16 (pos + 2 ^ 16 - 1) &&& h.mask

/-- The loop to the end of the next older item; in as many rounds as there are bytes it is back at the head. -/
def seekEnd : ℕ → ℕ → Option ℕ
  | 0, _ => none
  | rounds + 1, pos =>
    if h.buf pos ≠ 0 then
      let pos := h.back pos
      if pos = h.head then none else seekEnd rounds pos
    else some pos

/-- The loop to the byte in front of an item. -/
def seekStart (endOfTarget : ℕ) : ℕ → ℕ → ℕ
  | 0, pos => pos
  | rounds + 1, pos =>
    if h.buf pos ≠ 0 then
      let pos := h.back pos
      if pos = endOfTarget then pos else seekStart endOfTarget rounds pos
    else pos

/-- One round of the loop over the items. -/
def olderItem (pos : ℕ) : Option ℕ := do
  let endOfTarget ← seekEnd h h.bufferSize (h.back pos)
  let pos := seekStart h endOfTarget h.bufferSize (h.back endOfTarget)
  some ((pos + 1) &&& h.mask)

def olderItems : ℕ → ℕ → Option ℕ
  | 0, pos => some pos
  | rounds + 1, pos => (olderItem h pos).bind (olderItems rounds)

/-- `historyGet`, the place of the string in the buffer. -/
def historyGet (index : ℕ) : Option ℕ :=
  if index = 0 ∨ index > h.itemsCount then none else olderItems h (index - 1) h.head

/-- `historyPut` of a string without its terminator. -/
def historyPut (str : List UInt8) : CliHistory × Bool :=
  let required := str.length + 1
  if required > h.bufferSize then (h,false)
  else if h.itemsCount > 0 ∧ Circular.get h.buf h.head required = str ++ [0] then ({ h with current := 0 },true)
  else
    let prevLen := if h.itemsCount > 0 then u16 (u16 (strlen h.buf h.head) + 1) else 0
    let head := (h.head + prevLen) &&& h.mask
    ({ h with
        head := head
        buf := put h.buf head (str ++ [0])
        itemsCount := if h.itemsCount < maxHistoryItems then h.itemsCount + 1 else h.itemsCount
        current := 0 },true)

end Operations

/-- The history of a new command line interface, in a memory whose buffer is zeroed. -/
def CliHistory.new (buf : ℕ → UInt8) (bufferSize : ℕ) : CliHistory := ⟨buf,bufferSize,0,0,0⟩

/-- A string without terminator. -/
structure CString where
  bytes : List UInt8
  noNul : 0 ∉ bytes

def historyPuts (h : CliHistory) (puts : List CString) : CliHistory :=
  puts.foldl (fun h str => (historyPut h str.bytes).1) h

/-- The commands to recall, the most recent one first: those that fit, immediate repetitions once. -/
def remember (bufferSize : ℕ) (stored : List (List UInt8)) (str : CString) : List (List UInt8) :=
  if str.bytes.length + 1 > bufferSize ∨ stored.head? = some str.bytes then stored else str.bytes :: stored

def remembered (bufferSize : ℕ) (puts : List CString) : List (List UInt8) := puts.foldl (remember bufferSize) []

/-- Every item up to the count is the command to recall. -/
def Recalls (h : CliHistory) (stored : List (List UInt8)) : Prop :=
  ∀ i, 1 ≤ i → i ≤ h.itemsCount → ∃ pos str, historyGet h i = some pos ∧ stored[i - 1]? = some str ∧
    Circular.get h.buf pos (str.length + 1) = str ++ [0]

/-- Every stored command ends inside the buffer, and fits in it with the older ones that are counted. -/
def Tiled (bufferSize : ℕ) : List (List UInt8) → Prop
  | [] => True
  | str :: older => widths older % bufferSize + (str.length + 1) ≤ bufferSize ∧
      widths ((str :: older).take maxHistoryItems) ≤ bufferSize ∧ Tiled bufferSize older

instance decidableTiled (bufferSize : ℕ) : (stored : List (List UInt8)) → Decidable (Tiled bufferSize stored)
  | [] => inferInstanceAs (Decidable True)
  | _ :: older => @instDecidableAnd _ _ _ (@instDecidableAnd _ _ _ (decidableTiled bufferSize older))

section Positions
variable {h : CliHistory} {k pos x : ℕ}

theorem and_mask (hsize : h.bufferSize = 2 ^ k) (x : ℕ) : x &&& h.mask = x % 2 ^ k := by
  unfold CliHistory.mask
  rw [hsize]
  exact Nat.and_two_pow_sub_one_eq_mod ..

theorem back_mod (hsize : h.bufferSize = 2 ^ k) (hk : k ≤ 16) (hx : 0 < x) : h.back (x % 2 ^ k) = (x - 1) % 2 ^ k := by
  have hdvd : 2 ^ k ∣ 2 ^ 16 := Nat.pow_dvd_pow 2 hk
  obtain ⟨j,hj⟩ := hdvd
  have hwide : x % 2 ^ k + 2 ^ 16 ≡ x [MOD 2 ^ k] := by
    rw [hj]
    exact (Nat.add_mul_mod_self_left ..).trans (Nat.mod_mod ..)
  unfold CliHistory.back u16
  rw [and_mask hsize,Nat.mod_mod_of_dvd _ ⟨j,hj⟩]
  apply Nat.ModEq.add_right_cancel' 1
  rw [Nat.sub_add_cancel hx,Nat.sub_add_cancel (Nat.le_add_left_of_le (by decide))]
  exact hwide

theorem strlenFrom_eq {buf : ℕ → UInt8} {s : List UInt8} (hs : Circular.get buf pos (s.length + 1) = s ++ [0])
    (hnul : 0 ∉ s) {fuel : ℕ} (hfuel : s.length < fuel) : strlenFrom buf fuel pos = s.length := by
  induction s generalizing pos fuel with
  | nil =>
    obtain ⟨fuel,rfl⟩ := Nat.exists_eq_succ_of_ne_zero (Nat.ne_of_gt hfuel)
    have hzero : buf pos = 0 := List.head_eq_of_cons_eq hs
    unfold strlenFrom
    exact if_pos hzero
  | cons b s ih =>
    obtain ⟨fuel,rfl⟩ := Nat.exists_eq_succ_of_ne_zero (Nat.ne_of_gt (Nat.zero_lt_of_lt hfuel))
    obtain ⟨hb,hrest⟩ := List.cons.inj hs
    rw [List.mem_cons,not_or] at hnul
    unfold strlenFrom
    rw [if_neg (by rw [hb]; exact Ne.symm hnul.1),ih hrest hnul.2 (Nat.lt_of_succ_lt_succ hfuel)]
    rfl

/-- The loop over the bytes of an item, when its first `j` bytes are still to go. -/
theorem seekStart_item {base j : ℕ} {t : List UInt8} (hsize : h.bufferSize = 2 ^ k) (hk : k ≤ 16) (hbase : 0 < base)
    (hheld : Holds (2 ^ k) h.buf base (t ++ [0])) (hbefore : h.buf ((base - 1) % 2 ^ k) = 0) (hnul : 0 ∉ t)
    (hfits : t.length + 1 ≤ 2 ^ k) (hj : j ≤ t.length) {rounds : ℕ} (hrounds : j ≤ rounds) :
    seekStart h ((base + t.length) % 2 ^ k) rounds ((base + j - 1) % 2 ^ k) = (base - 1) % 2 ^ k := by
  induction j generalizing rounds with
  | zero =>
    cases rounds with
    | zero => rfl
    | succ rounds =>
      unfold seekStart
      exact if_neg (not_not.mpr hbefore)
  | succ j ih =>
    obtain ⟨rounds,rfl⟩ := Nat.exists_eq_succ_of_ne_zero (Nat.ne_of_gt (Nat.zero_lt_of_lt hrounds))
    have hbyte : h.buf ((base + (j + 1) - 1) % 2 ^ k) ≠ 0 := by
      have hread := hheld j t[j] (by rw [List.getElem?_append_left hj]; exact List.getElem?_eq_getElem hj)
      intro hzero
      apply hnul
      rw [← hzero,← Nat.add_assoc,Nat.add_sub_cancel,hread]
      exact List.getElem_mem hj
    have hback : h.back ((base + (j + 1) - 1) % 2 ^ k) = (base + j - 1) % 2 ^ k := by
      rw [← Nat.add_assoc,Nat.add_sub_cancel]
      exact back_mod hsize hk (by omega)
    unfold seekStart
    rw [if_pos hbyte]
    dsimp only
    rw [hback]
    split
    case isTrue hend =>
      -- Only an item that fills the buffer comes back to its own end, in front of its first byte.
      cases j with
      | zero => rfl
      | succ j =>
        have hsame : j = t.length := @position_inj (2 ^ k) base j t.length (by omega) (by omega) (by rw [← hend]; rfl)
        omega
    case isFalse => exact ih (by omega) (by omega)

end Positions

/-- The invariant of the history: the stored commands, the most recent one first. -/
structure Storing (k : ℕ) (mem : ℕ → UInt8) (h : CliHistory) (stored : List (List UInt8)) : Prop where
  bufferSize : h.bufferSize = 2 ^ k
  laid : Laid (2 ^ k) 0 h.buf stored
  itemsCount : h.itemsCount = min stored.length maxHistoryItems
  head : h.head = widths stored.tail % 2 ^ k
  noNul : ∀ str ∈ stored, 0 ∉ str
  outside : ∀ x, 2 ^ k ≤ x → h.buf x = mem x

section Recall
variable {k : ℕ} {mem : ℕ → UInt8} {h : CliHistory} {stored newer older : List (List UInt8)} {t : List UInt8}

theorem olderItem_eq (hs : Storing k mem h (newer ++ t :: older)) (hk : k ≤ 16)
    (hfits : widths newer + (t.length + 1) ≤ 2 ^ k) :
    olderItem h (widths (t :: older) % 2 ^ k) = some (widths older % 2 ^ k) := by
  obtain ⟨hheld,hbefore⟩ := hs.laid.item hfits
  have hend : h.back (widths (t :: older) % 2 ^ k) = (2 ^ k + widths older + t.length) % 2 ^ k := by
    rw [back_mod hs.bufferSize hk (by rw [widths_cons]; omega),widths_cons]
    rw [Nat.add_assoc,Nat.add_mod_left]
    rfl
  have hzero : h.buf ((2 ^ k + widths older + t.length) % 2 ^ k) = 0 := hheld t.length 0 (by simp)
  have hpos := Nat.two_pow_pos k
  have hseek : seekEnd h h.bufferSize (h.back (widths (t :: older) % 2 ^ k)) =
      some ((2 ^ k + widths older + t.length) % 2 ^ k) := by
    obtain ⟨rounds,hrounds⟩ := Nat.exists_eq_succ_of_ne_zero hpos.ne'
    rw [hend,hs.bufferSize,hrounds]
    unfold seekEnd
    rw [← hrounds]
    exact if_neg (not_not.mpr hzero)
  unfold olderItem
  rw [hseek,Option.bind_eq_bind,Option.bind_some,back_mod hs.bufferSize hk (by omega),
    seekStart_item hs.bufferSize hk (by omega) hheld hbefore (hs.noNul t (by simp)) (by omega) le_rfl
      (by rw [hs.bufferSize]; omega)]
  dsimp only
  rw [and_mask hs.bufferSize,Nat.mod_add_mod,Nat.sub_add_cancel (by omega),Nat.add_mod_left]

/-- The place of an item, counted from the most recent one. -/
def place (k : ℕ) (stored : List (List UInt8)) (i : ℕ) : ℕ := widths (stored.drop (i + 1)) % 2 ^ k

theorem split_at {i : ℕ} {str : List UInt8} (hi : stored[i]? = some str) :
    stored = stored.take i ++ str :: stored.drop (i + 1) := by
  obtain ⟨hlt,rfl⟩ := List.getElem?_eq_some_iff.mp hi
  rw [← List.drop_eq_getElem_cons hlt,List.take_append_drop]

theorem widths_take_mono {i j : ℕ} (hij : i ≤ j) (stored : List (List UInt8)) :
    widths (stored.take i) ≤ widths (stored.take j) := by
  have hsplit := List.take_append_drop i (stored.take j)
  rw [List.take_take,min_eq_left hij] at hsplit
  rw [← hsplit,widths_append]
  exact Nat.le_add_right ..

theorem widths_take_succ {i : ℕ} {str : List UInt8} (hi : stored[i]? = some str) :
    widths (stored.take (i + 1)) = widths (stored.take i) + (str.length + 1) := by
  rw [List.take_add_one,hi,widths_append]
  simp [widths]

theorem olderItem_place {i : ℕ} (hs : Storing k mem h stored) (hk : k ≤ 16) (hi : i + 1 < stored.length)
    (hfits : widths (stored.take (i + 2)) ≤ 2 ^ k) : olderItem h (place k stored i) =
        some (place k stored (i + 1)) := by
  have hnext := List.getElem?_eq_getElem hi
  have hsplit := split_at hnext
  rw [widths_take_succ hnext] at hfits
  have hround := olderItem_eq (hsplit ▸ hs) hk hfits
  unfold place
  rw [List.drop_eq_getElem_cons hi]
  exact hround

theorem olderItems_place {count i j : ℕ} (hs : Storing k mem h stored) (hk : k ≤ 16) (hcount : count ≤ stored.length)
    (hfits : widths (stored.take count) ≤ 2 ^ k) (hij : i + j < count) :
    olderItems h j (place k stored i) = some (place k stored (i + j)) := by
  induction j generalizing i with
  | zero => rfl
  | succ j ih =>
    unfold olderItems
    rw [olderItem_place hs hk (by omega) ((widths_take_mono (by omega) stored).trans hfits),Option.bind_some,ih (by omega)]
    congr 2
    omega

theorem Tiled.end_le {newer older : List (List UInt8)} {size : ℕ} (ht : Tiled size (newer ++ t :: older)) :
    widths older % size + (t.length + 1) ≤ size := by
  induction newer with
  | nil => exact ht.1
  | cons s newer ih => exact ih ht.2.2

theorem Tiled.counted {size : ℕ} (ht : Tiled size stored) : widths (stored.take maxHistoryItems) ≤ size := by
  cases stored with
  | nil => exact Nat.zero_le _
  | cons s older => exact ht.2.1

theorem get_place {i : ℕ} {str : List UInt8} (hs : Storing k mem h stored) (ht : Tiled (2 ^ k) stored)
    (hi : stored[i]? = some str) (hfits : widths (stored.take (i + 1)) ≤ 2 ^ k) :
    Circular.get h.buf (place k stored i) (str.length + 1) = str ++ [0] := by
  have hsplit := split_at hi
  rw [widths_take_succ hi] at hfits
  obtain ⟨hheld,-⟩ := (hsplit ▸ hs.laid : Laid (2 ^ k) 0 h.buf (stored.take i ++ str :: stored.drop (i + 1))).item hfits
  have hend := (hsplit ▸ ht : Tiled (2 ^ k) (stored.take i ++ str :: stored.drop (i + 1))).end_le
  have hlinear := hheld.get_linear (by
    rw [Nat.add_mod_left,List.length_append]
    exact hend)
  rwa [Nat.add_mod_left,List.length_append] at hlinear

theorem Storing.recalls (hs : Storing k mem h stored) (hk : k ≤ 16) (ht : Tiled (2 ^ k) stored) : Recalls h stored := by
  intro i hone hcount
  have hle := hcount
  rw [hs.itemsCount,le_min_iff] at hle
  have hlt : i - 1 < stored.length := by omega
  have hfits : widths (stored.take i) ≤ 2 ^ k := (widths_take_mono hle.2 stored).trans ht.counted
  refine ⟨place k stored (i - 1),stored[i - 1],?_,List.getElem?_eq_getElem hlt,?_⟩
  · unfold historyGet
    have hhead : h.head = place k stored 0 := by
      rw [hs.head,← List.drop_one]
      rfl
    rw [if_neg (by omega),hhead,olderItems_place hs hk hle.1 hfits (by omega),Nat.zero_add]
  · apply get_place hs ht (List.getElem?_eq_getElem hlt)
    rwa [Nat.sub_add_cancel hone]

theorem newest_iff (hs : Storing k mem h stored) (ht : Tiled (2 ^ k) stored) (str : CString) :
    (h.itemsCount > 0 ∧ Circular.get h.buf h.head (str.bytes.length + 1) = str.bytes ++ [0]) ↔
      stored.head? = some str.bytes := by
  rw [hs.itemsCount]
  cases stored with
  | nil => simp
  | cons newest older =>
    have hcounted := ht.counted
    have hread : Circular.get h.buf h.head (newest.length + 1) = newest ++ [0] := by
      rw [hs.head]
      exact get_place (i := 0) hs ht rfl ((widths_take_mono (by decide) _).trans hcounted)
    rw [List.head?_cons,Option.some_inj]
    constructor
    · rintro ⟨-,hstr⟩
      exact terminated_inj hread hstr (hs.noNul newest (List.mem_cons_self ..)) str.noNul
    · rintro rfl
      exact ⟨by rw [List.length_cons]; exact lt_min (Nat.succ_pos _) (by decide),hread⟩

theorem next_head (hs : Storing k mem h stored) (ht : Tiled (2 ^ k) stored) (hk : k < 16) :
    (h.head + if h.itemsCount > 0 then u16 (u16 (strlen h.buf h.head) + 1) else 0) &&& h.mask =
        widths stored % 2 ^ k := by
  rw [and_mask hs.bufferSize,hs.itemsCount,hs.head]
  cases stored with
  | nil => rfl
  | cons newest older =>
    have hread := get_place (i := 0) hs ht rfl ((widths_take_mono (by decide) _).trans ht.counted)
    have hsmall : newest.length + 1 ≤ 2 ^ k := Nat.le_of_add_left_le ht.1
    have hlt : 2 ^ k < 2 ^ 16 := Nat.pow_lt_pow_right (by decide) hk
    have hlen : strlen h.buf (widths older % 2 ^ k) = newest.length :=
      strlenFrom_eq hread (hs.noNul newest (List.mem_cons_self ..)) (by omega)
    have hpos : min (newest :: older).length maxHistoryItems > 0 := lt_min (Nat.succ_pos _) (by decide)
    rw [if_pos hpos,List.tail_cons,hlen,u16_of_lt (by omega : newest.length < 2 ^ 16),u16_of_lt (by omega),Nat.mod_add_mod]
    rfl

theorem Storing.current (hs : Storing k mem h stored) (n : ℕ) : Storing k mem { h with current := n } stored :=
  ⟨hs.bufferSize,hs.laid,hs.itemsCount,hs.head,hs.noNul,hs.outside⟩

theorem Storing.put (hs : Storing k mem h stored) (hk : k < 16) (ht : Tiled (2 ^ k) stored) {str : CString}
    (ht' : Tiled (2 ^ k) (remember (2 ^ k) stored str)) :
    Storing k mem (historyPut h str.bytes).1 (remember (2 ^ k) stored str) := by
  unfold historyPut remember
  dsimp only
  by_cases hlarge : str.bytes.length + 1 > 2 ^ k
  · rw [if_pos (hs.bufferSize ▸ hlarge),if_pos (.inl hlarge)]
    exact hs
  · rw [if_neg (hs.bufferSize ▸ hlarge)]
    by_cases hsame : stored.head? = some str.bytes
    · rw [if_pos ((newest_iff hs ht str).mpr hsame),if_pos (.inr hsame)]
      exact hs.current 0
    · have hnew : ¬(str.bytes.length + 1 > 2 ^ k ∨ stored.head? = some str.bytes) := not_or.mpr ⟨hlarge,hsame⟩
      rw [if_neg hnew,if_neg fun hnewest => hsame ((newest_iff hs ht str).mp hnewest),next_head hs ht hk]
      unfold remember at ht'
      rw [if_neg hnew] at ht'
      constructor
      case bufferSize => exact hs.bufferSize
      case laid => exact hs.laid.push ht'.1
      case itemsCount =>
        dsimp only
        rw [hs.itemsCount,List.length_cons]
        split <;> omega
      case head => rfl
      case noNul =>
        intro s hmem
        rcases List.mem_cons.mp hmem with rfl | hmem
        · exact str.noNul
        · exact hs.noNul s hmem
      case outside =>
        intro x hx
        have hend := ht'.1
        refine (put_outside _ _ _ (.inr ?_)).trans (hs.outside x hx)
        rw [List.length_append,List.length_singleton]
        omega

theorem tiled_remember {size : ℕ} {str : CString} (ht : Tiled size (remember size stored str)) : Tiled size stored := by
  unfold remember at ht
  split at ht
  case isTrue => exact ht
  case isFalse => exact ht.2.2

theorem tiled_remembered {size : ℕ} {puts : List CString} (ht : Tiled size (puts.foldl (remember size) stored)) :
    Tiled size stored := by
  induction puts generalizing stored with
  | nil => exact ht
  | cons str puts ih => exact tiled_remember (ih ht)

theorem storing_new (hzero : ∀ x < 2 ^ k, mem x = 0) : Storing k mem (.new mem (2 ^ k)) [] := by
  constructor
  case bufferSize => rfl
  case laid => exact laid_nil hzero (Nat.two_pow_pos k)
  case itemsCount => rfl
  case head => exact (Nat.zero_mod _).symm
  case noNul => exact fun str hmem => absurd hmem List.not_mem_nil
  case outside => exact fun x _ => rfl

theorem storing_puts {puts : List CString} (hs : Storing k mem h stored) (hk : k < 16)
    (ht : Tiled (2 ^ k) (puts.foldl (remember (2 ^ k)) stored)) :
    Storing k mem (historyPuts h puts) (puts.foldl (remember (2 ^ k)) stored) := by
  induction puts generalizing h stored with
  | nil => exact hs
  | cons str puts ih =>
    have ht' : Tiled (2 ^ k) (remember (2 ^ k) stored str) := tiled_remembered ht
    exact ih (hs.put hk (tiled_remember ht') ht') ht

/-- As long as the commands end inside the buffer and the counted ones fit in it together, every item is the command to
recall, the items are those commands up to sixteen of them, and no byte behind the buffer is written. -/
theorem history_recalls (hk : k < 16) (hzero : ∀ x < 2 ^ k, mem x = 0) (puts : List CString)
    (ht : Tiled (2 ^ k) (remembered (2 ^ k) puts)) :
    Recalls (historyPuts (.new mem (2 ^ k)) puts) (remembered (2 ^ k) puts) ∧
      (historyPuts (.new mem (2 ^ k)) puts).itemsCount = min (remembered (2 ^ k) puts).length maxHistoryItems ∧
      ∀ x, 2 ^ k ≤ x → (historyPuts (.new mem (2 ^ k)) puts).buf x = mem x := by
  have hs := storing_puts (storing_new hzero) hk ht
  exact ⟨hs.recalls hk.le ht,hs.itemsCount,hs.outside⟩

/-- A zeroed buffer of 16 bytes, and foreign bytes behind it. -/
def smallMemory (x : ℕ) : UInt8 := if x < 2 ^ 4 then 0 else 0xA5

theorem smallMemory_zero : ∀ x < 2 ^ 4, smallMemory x = 0 := fun _ hx => if_pos hx

/-- "ls", "ls" and "show". -/
def shortCommands : List CString := [⟨[0x6C,0x73],by decide⟩,⟨[0x6C,0x73],by decide⟩,⟨[0x73,0x68,0x6F,0x77],by decide⟩]

theorem history_recalls_short : Recalls (historyPuts (.new smallMemory (2 ^ 4)) shortCommands) (remembered (2 ^ 4) shortCommands) ∧
    (historyPuts (.new smallMemory (2 ^ 4)) shortCommands).itemsCount = 2 ∧
    ∀ x, 2 ^ 4 ≤ x → (historyPuts (.new smallMemory (2 ^ 4)) shortCommands).buf x = smallMemory x := by
  obtain ⟨hrecalls,hcount,hkept⟩ := history_recalls (by decide) smallMemory_zero shortCommands (by decide)
  exact ⟨hrecalls,hcount.trans (by decide),hkept⟩

/-- "show sys" and "version" -/
def longCommands : List CString := [⟨[0x73,0x68,0x6F,0x77,0x20,0x73,0x79,0x73],by decide⟩,
  ⟨[0x76,0x65,0x72,0x73,0x69,0x6F,0x6E],by decide⟩]

/-- The second command is written over the end of the buffer. -/
theorem history_overruns : ¬(Recalls (historyPuts (.new smallMemory (2 ^ 4)) longCommands) (remembered (2 ^ 4) longCommands) ∧
    ∀ x, 2 ^ 4 ≤ x → (historyPuts (.new smallMemory (2 ^ 4)) longCommands).buf x = smallMemory x) := by
  rintro ⟨-,hkept⟩
  have hbehind := hkept (2 ^ 4) le_rfl
  revert hbehind
  decide

end Recall

end EmbedTemplate.Cli
