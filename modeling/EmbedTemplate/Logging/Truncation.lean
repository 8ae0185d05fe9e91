import EmbedTemplate.Logging.Wrap
import EmbedTemplate.Logging.RoundTrip
import Mathlib.Data.List.TakeWhile

/-! # The length and the truncation of a message

What the writer callback receives as a string, for texts of any length. `vsnprintf` keeps
one character less than `MAX_DATA_SIZE` for its terminator, the length is cut to
`MAX_DATA_SIZE` itself: a text that does not fit arrives with a length that counts the terminator.
-/
namespace EmbedTemplate.Logging
open Circular Bytes EvictingQueue Machine
variable {n : BufSize}

/-- The characters up to the first NUL. -/
def stringOf (bytes : List UInt8) : List UInt8 := bytes.takeWhile (· ≠ 0)

/-- The callback receives as much of the text as a buffer of this capacity holds, as a terminated
string, and the number of its characters. -/
structure RightCallback (capacity : ℕ) (m : LogArgs) (line : LogLine) : Prop where
  terminated : 0 ∈ line.msg
  msg : stringOf line.msg = (stringOf m.text).take capacity
  len : line.len = (stringOf line.msg).length

/-- A dispatch leaves a record of its message, and a flash calls back for every pending record in order,
with the string and the length of its message. -/
def Receives (capacity : ℕ) (t : Tally n) : LogOp → Prop
  | .dispatch m => ∃ u, tallyStep t (.dispatch m) = some u ∧ ⟨t.logged,m⟩ ∈ u.pending
  | .flash true => ∃ s lines, logStep t.sys (.flash true) = some s ∧ s.events = t.sys.events ++ lines.map some ∧
      List.Forall₂ (RightCallback capacity) (t.pending.map Placed.msg) lines
  | _ => True

/-- The text fits, and its first word does not lie behind the end of the ring. -/
def Placed.Fits (n : BufSize) (guard : List UInt8) (p : Placed) : Prop :=
  p.msg.text.length ≤ 254 ∧ 0 ∉ p.msg.text ∧
    (p.pos % n.val = n.val - 8 → guard.take p.msg.text.length = p.msg.text.take 4)

instance (guard : List UInt8) (p : Placed) : Decidable (p.Fits n guard) := inferInstanceAs (Decidable (_ ∧ _ ∧ _))

/-- The formatter has a text to log; a flash does not start across the wrap, and the texts of its records fit. -/
def Fitting (guard : List UInt8) (t : Tally n) : LogOp → Prop
  | .dispatch m => m.Accepted
  | .flash true => total Placed.size t.pending ≤ u32 t.logged ∧ ∀ p ∈ t.pending, p.Fits n guard
  | _ => True

instance (guard : List UInt8) (t : Tally n) : ∀ op, Decidable (Fitting guard t op)
  | .dispatch m => inferInstanceAs (Decidable m.Accepted)
  | .flash true =>
    inferInstanceAs (Decidable (total Placed.size t.pending ≤ u32 t.logged ∧ ∀ p ∈ t.pending, p.Fits n guard))
  | .flash false => inferInstanceAs (Decidable True)
  | .getStats => inferInstanceAs (Decidable True)

section Strings
variable {bytes : List UInt8}

theorem stringOf_eq_self : stringOf bytes = bytes ↔ 0 ∉ bytes := by
  rw [stringOf,List.takeWhile_eq_self_iff]
  simp only [decide_eq_true_eq]
  exact ⟨fun h hmem => h 0 hmem rfl,fun h x hx hzero => h (hzero ▸ hx)⟩

theorem stringOf_length_le (bytes : List UInt8) : (stringOf bytes).length ≤ bytes.length := (List.takeWhile_sublist _).length_le

theorem stringOf_eq_of_length (h : bytes.length ≤ (stringOf bytes).length) : stringOf bytes = bytes :=
  (List.takeWhile_sublist _).eq_of_length_le h

/-- The string in front of a terminator ends no later than there. -/
theorem stringOf_terminated : stringOf (bytes ++ [0]) = stringOf bytes := by
  unfold stringOf
  rw [List.takeWhile_append]
  split
  next h => rw [List.takeWhile_cons_of_neg (by simp),List.append_nil,(List.takeWhile_sublist _).eq_of_length h]
  next => rfl

end Strings

section Callback
variable {capacity : ℕ} {guard : List UInt8} {p : Placed}

theorem LogArgs.payloadAt_length (m : LogArgs) (hg : guard.length = 4) (pos : ℕ) :
    (m.payloadAt n guard pos).length = m.len := by
  unfold LogArgs.payloadAt
  split
  · rw [List.length_take,List.length_append,List.length_drop,m.payload_length,hg]
    omega
  · exact m.payload_length

/-- A text that does not fit is cut, and its terminator is counted in. -/
theorem LogArgs.payload_of_long (m : LogArgs) (h : 255 ≤ m.text.length) : m.payload = m.text.take 254 ++ [0] := by
  have hlen : m.len = (m.text.take 254 ++ [0]).length := by
    rw [List.length_append,List.length_take,List.length_singleton,LogArgs.len,maxDataSize]
    omega
  have hget := get_put_left m.stack 0 (m.text.take 254 ++ [0]) []
  rw [List.append_nil] at hget
  rw [LogArgs.payload,hlen]
  exact hget

theorem LogArgs.zero_mem_payloadAt (m : LogArgs) (h : 255 ≤ m.text.length) (hg : guard.length = 4) (pos : ℕ) :
    0 ∈ m.payloadAt n guard pos := by
  have hpayload := m.payload_of_long h
  have hcut : (m.text.take 254).length = 254 := by
    rw [List.length_take]
    omega
  unfold LogArgs.payloadAt
  split
  · have hwhole : (guard ++ m.payload.drop 4).length ≤ m.len := by
      rw [List.length_append,List.length_drop,m.payload_length,hg,LogArgs.len,maxDataSize]
      omega
    rw [List.take_of_length_le hwhole,hpayload,List.drop_append_of_le_length (by omega)]
    simp
  · rw [hpayload]
    simp

/-- The callback for a record is right exactly if the text of its message fits. -/
theorem rightCallback_iff (hcapacity : 254 ≤ capacity) (hg : guard.length = 4) :
    RightCallback capacity p.msg (p.msg.lineAt n guard p.pos) ↔ p.Fits n guard := by
  have hlength := p.msg.payloadAt_length (n := n) hg p.pos
  have hmsg : (p.msg.lineAt n guard p.pos).msg = p.msg.payloadAt n guard p.pos ++ [0] := rfl
  constructor
  · rintro ⟨_,hstring,hlen⟩
    rw [hmsg,stringOf_terminated] at hstring hlen
    have hlen' : p.msg.len = (stringOf (p.msg.payloadAt n guard p.pos)).length := hlen
    have hpayload : stringOf (p.msg.payloadAt n guard p.pos) = p.msg.payloadAt n guard p.pos :=
      stringOf_eq_of_length (by omega)
    have hshort : p.msg.text.length ≤ 254 := by
      by_contra hlong
      exact stringOf_eq_self.mp hpayload (p.msg.zero_mem_payloadAt (by omega) hg p.pos)
    have htextLen : p.msg.len = p.msg.text.length := Nat.min_eq_left (by rw [maxDataSize]; omega)
    have hle := stringOf_length_le p.msg.text
    rw [List.take_of_length_le (by omega)] at hstring
    have htext : stringOf p.msg.text = p.msg.text := by
      apply stringOf_eq_of_length
      rw [← hstring]
      omega
    refine ⟨hshort,stringOf_eq_self.mp htext,(callback_iff p hshort hg).mp ?_⟩
    rw [← p.msg.line_eq_callback hshort]
    unfold LogArgs.lineAt
    rw [← hpayload,hstring,htext,← p.msg.payload_eq hshort]
    rfl
  · rintro ⟨hshort,hzero,hstraddle⟩
    rw [(callback_iff p hshort hg).mpr hstraddle]
    have htext : stringOf p.msg.text = p.msg.text := stringOf_eq_self.mpr hzero
    have hstring : stringOf (p.msg.text ++ [0]) = p.msg.text := stringOf_terminated.trans htext
    refine ⟨List.mem_append_right _ (List.mem_singleton_self _),?_,?_⟩
    · rw [LogArgs.callback,hstring,htext,List.take_of_length_le (by omega)]
    · rw [LogArgs.callback,hstring]

end Callback

section Run
variable {capacity : ℕ} {guard : List UInt8} {t : Tally n}

/-- The pending records lie in front of what is logged next. -/
theorem Tallied.pos_lt (h : Tallied guard t) {p : Placed} (hp : p ∈ t.pending) : p.pos < t.logged := by
  obtain ⟨start,ms,_,hpending,hlogged⟩ := h.ring
  rw [hpending] at hp
  obtain ⟨before,later,rfl,hpos⟩ := mem_place_iff.mp hp
  have hsize := p.msg.sixteen_le_size
  rw [bytesOf_append,bytesOf_cons] at hlogged
  omega

theorem Tallied.receives_dispatch (h : Tallied guard t) (m : LogArgs) :
    Receives capacity t (.dispatch m) ↔ m.Accepted := by
  constructor
  · rintro ⟨u,hu,hmem⟩
    by_contra hm
    rw [tallyStep,logStep,logDispatch_rejected _ hm,Option.map_some,Option.map_some,if_neg hm,Option.some.injEq] at hu
    subst hu
    exact absurd (h.pos_lt hmem) (Nat.lt_irrefl _)
  · intro hm
    obtain ⟨u,hu,_,_,hpending⟩ := h.dispatch hm
    refine ⟨u,hu,?_⟩
    rw [hpending]
    exact List.mem_append_right _ (List.mem_singleton_self _)

theorem Tallied.receives_flash (h : Tallied guard t) (hcapacity : 254 ≤ capacity) :
    Receives capacity t (.flash true) ↔ Fitting guard t (.flash true) := by
  have hg : guard.length = 4 := h.guard_eq ▸ t.sys.ring.guardWord_length
  obtain ⟨s,hs,⟨hle,hevents,_⟩ | ⟨hlt,hevents,_⟩⟩ := h.flash true
  · have hlines : s.events = t.sys.events ++ (t.pending.map fun p => p.msg.lineAt n guard p.pos).map some := by
      rw [hevents,List.map_map]
      rfl
    have hright : List.Forall₂ (RightCallback capacity) (t.pending.map Placed.msg)
        (t.pending.map fun p => p.msg.lineAt n guard p.pos) ↔ ∀ p ∈ t.pending, p.Fits n guard := by
      rw [List.forall₂_map_left_iff,List.forall₂_map_right_iff,List.forall₂_same]
      exact forall₂_congr fun p _ => rightCallback_iff hcapacity hg
    constructor
    · rintro ⟨s',lines,hs',hevents',hall⟩
      obtain rfl : s = s' := Option.some.inj (hs.symm.trans hs')
      rw [hlines,List.append_cancel_left_eq] at hevents'
      have hsame := List.map_injective_iff.mpr (Option.some_injective _) hevents'
      rw [← hsame] at hall
      exact ⟨hle,hright.mp hall⟩
    · rintro ⟨_,hall⟩
      exact ⟨s,_,hs,hlines,hright.mpr hall⟩
  · refine iff_of_false ?_ fun hfit => Nat.not_lt_of_le hfit.1 hlt
    rintro ⟨s',lines,hs',hevents',hall⟩
    obtain rfl : s = s' := Option.some.inj (hs.symm.trans hs')
    rw [hevents,List.self_eq_append_right,List.map_eq_nil_iff] at hevents'
    rw [hevents',List.forall₂_nil_right_iff,List.map_eq_nil_iff] at hall
    rw [hall] at hlt
    exact Nat.not_lt_zero _ hlt

theorem Tallied.receives_iff (h : Tallied guard t) (hcapacity : 254 ≤ capacity) (op : LogOp) :
    Receives capacity t op ↔ Fitting guard t op := by
  rcases op with m | writer | _
  · exact h.receives_dispatch m
  · cases writer with
    | false => exact Iff.rfl
    | true => exact h.receives_flash hcapacity
  · exact Iff.rfl

end Run

/-- In a run of any length every message is received exactly if every text fits, has its first word inside of the
ring, and is flushed on its side of the wrap. -/
theorem received_iff {r : LogRing n} (hr : Boot r) {capacity : ℕ} (hcapacity : 254 ≤ capacity) (ops : List LogOp) :
    Meets tallyStep (Receives capacity) (Tally.boot r) ops ↔
      Meets tallyStep (Fitting r.guardWord) (Tally.boot r) ops := by
  refine meets_congr (I := Tallied r.guardWord) tallyStep ?_ (fun _ op h => h.receives_iff hcapacity op)
    (Tallied.boot hr) ops
  exact fun _ _ _ h hu => h.of_step hu

theorem received_iff_greeting :
    Meets tallyStep (Receives maxDataSize) (Tally.boot (initialRing bufSize512))
      [.dispatch greeting,.dispatch greeting,.flash true] :=
  (received_iff (boot_initialRing bufSize512) (by decide) _).mpr (by decide +kernel)

theorem longText_length : longText.text.length = 255 := List.length_replicate

/-- A text of one character more than `vsnprintf` leaves room for, flushed at once. -/
theorem longText_not_received :
    ¬Meets tallyStep (Receives maxDataSize) (Tally.boot (initialRing bufSize512)) [.dispatch longText,.flash true] := by
  intro h
  have haccepted : longText.Accepted := by
    rw [LogArgs.Accepted,longText_length]
    decide
  obtain ⟨u,hu,htally,_,hpending⟩ := (Tallied.boot (boot_initialRing bufSize512)).dispatch haccepted
  have hfit := (htally.receives_flash (by decide)).mp (h.2 u hu).1
  have hmem : ⟨0,longText⟩ ∈ u.pending := by
    rw [hpending]
    exact List.mem_append_right _ (List.mem_singleton_self _)
  have hshort : longText.text.length ≤ 254 := (hfit.2 _ hmem).1
  rw [longText_length] at hshort
  omega

end EmbedTemplate.Logging
