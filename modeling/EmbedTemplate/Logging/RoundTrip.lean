import EmbedTemplate.Logging.Sequence

/-! # Round trips through the log ring

Over a whole sequence of calls the callback sees exactly the entries that the queue
delivers, in order. Each message arrives intact unless its header straddles the
physical end: the reader then takes the first word from behind the guard.
-/
namespace EmbedTemplate.Logging
open Circular EvictingQueue
variable {n : BufSize}

/-- The callback invocation that carries the message as it was dispatched. -/
def LogArgs.callback (m : LogArgs) : LogLine where
  domain := m.domain
  entity := m.entity
  level := m.level
  ts := m.ts.val
  msg := m.text ++ [0]
  len := m.text.length

/-- The messages that were dispatched, flushed to a writer and not dropped before. -/
def delivered (n : BufSize) (ops : List LogOp) : List Placed := (queueAfter n ops).fated .delivered

/-- The calls run and the callback is invoked for exactly the delivered messages. -/
def RoundTrip (r : LogRing n) (ops : List LogOp) : Prop :=
  ∃ s, Machine.exec logStep (LogSys.boot r) ops = some s ∧
    s.lines = (delivered n ops).map fun p => p.msg.callback

/-- Every formatted text has 1 to 254 characters. -/
def PlainTexts (ops : List LogOp) : Prop :=
  ∀ m, .dispatch m ∈ ops → 1 ≤ m.text.length ∧ m.text.length ≤ 254

/-- Nothing is lost or duplicated: in dispatch order, every accepted message has left the
queue in one way or is still pending. -/
theorem queueAfter_history (n : BufSize) (ops : List LogOp) :
    (queueAfter n ops).history.map Prod.fst ++ (queueAfter n ops).pending = place 0 (accepted ops) := by
  rw [queueAfter,run_history,pushed_queueOps]

theorem delivered_sublist (n : BufSize) (ops : List LogOp) :
    (delivered n ops).Sublist (place 0 (accepted ops)) := by
  rw [← pushed_queueOps]
  exact fated_sublist_pushed _ _ _ _

theorem mem_place {start : ℕ} {ms : List LogArgs} {p : Placed} (h : p ∈ place start ms) : p.msg ∈ ms := by
  rw [← place_map_msg start ms]
  exact List.mem_map_of_mem h

theorem mem_accepted {ops : List LogOp} {m : LogArgs} (h : m ∈ accepted ops) : .dispatch m ∈ ops := by
  induction ops with
  | nil => cases h
  | cons op ops ih =>
    cases op with
    | dispatch m' =>
      rw [accepted] at h
      split at h
      · rcases List.mem_cons.mp h with rfl | h
        · exact List.mem_cons_self
        · exact List.mem_cons_of_mem _ (ih h)
      · exact List.mem_cons_of_mem _ (ih h)
    | flash b => exact List.mem_cons_of_mem _ (ih h)
    | getStats => exact List.mem_cons_of_mem _ (ih h)

theorem LogArgs.payload_eq (m : LogArgs) (h : m.text.length ≤ 254) : m.payload = m.text := by
  have hlen : m.len = m.text.length := Nat.min_eq_left (by rw [maxDataSize]; omega)
  have hbuf : m.buf = put m.stack 0 (m.text ++ [0]) := by
    rw [LogArgs.buf,vsnprintf,List.take_of_length_le (by rw [maxDataSize]; omega)]
  rw [LogArgs.payload,hbuf,hlen,get_put_left]

theorem LogArgs.line_eq_callback (m : LogArgs) (h : m.text.length ≤ 254) : m.line = m.callback := by
  have hlen : m.len = m.text.length := Nat.min_eq_left (by rw [maxDataSize]; omega)
  rw [LogArgs.line,LogArgs.callback,m.payload_eq h,hlen]

/-- The callback invocations of a run, as the reader makes them. -/
theorem lines_eq {r : LogRing n} (hr : Boot r) {ops : List LogOp} (hres : reserved ops < 2 ^ 32) :
    ∃ s, Machine.exec logStep (LogSys.boot r) ops = some s ∧
      s.lines = (delivered n ops).map fun p => p.msg.lineAt n r.guardWord p.pos := by
  obtain ⟨s,hs,ht⟩ := tracks_boot hr ops hres
  refine ⟨s,hs,?_⟩
  rw [LogSys.lines,ht.events,delivered,State.fated,List.filterMap_filterMap,List.map_filterMap]
  congr 1
  funext e
  rcases e with ⟨p,f⟩
  cases f <;> rfl

/-- A delivered message arrives intact exactly if it does not lie at the last word pair of
the ring, or starts with the bytes found behind the guard. -/
theorem callback_iff (p : Placed) (h : p.msg.text.length ≤ 254) {guard : List UInt8}
    (hg : guard.length = 4) : p.msg.lineAt n guard p.pos = p.msg.callback ↔
      (p.pos % n.val = n.val - 8 → guard.take p.msg.text.length = p.msg.text.take 4) := by
  have hlen : p.msg.len = p.msg.text.length := Nat.min_eq_left (by rw [maxDataSize]; omega)
  rw [← p.msg.line_eq_callback h,LogArgs.lineAt_eq_line hg,hlen,p.msg.payload_eq h]

theorem roundTrip_iff {r : LogRing n} (hr : Boot r) {ops : List LogOp} (htext : PlainTexts ops)
    (hres : reserved ops < 2 ^ 32) : RoundTrip r ops ↔
      ∀ p ∈ delivered n ops, p.pos % n.val = n.val - 8 →
        r.guardWord.take p.msg.text.length = p.msg.text.take 4 := by
  obtain ⟨s,hs,hl⟩ := lines_eq hr hres
  have hrt : RoundTrip r ops ↔ s.lines = (delivered n ops).map fun p => p.msg.callback := by
    rw [RoundTrip,hs]
    simp
  rw [hrt,hl,List.map_inj_left]
  refine forall₂_congr fun p hp => callback_iff p ?_ r.guardWord_length
  exact (htext _ (mem_accepted (mem_place ((delivered_sublist n ops).subset hp)))).2

theorem guardWord_initialRing (n : BufSize) : (initialRing n).guardWord = [0xEC,0xEC,0xEC,0xEC] :=
  get_put_right (fun _ => 0) n.val [0xEF,0xBE,0xAD,0xDE] [0xEC,0xEC,0xEC,0xEC]

/-- Two records of 504 bytes together, then a short one behind them. -/
def straddlingCalls : List LogOp :=
  let text (len : ℕ) : LogArgs := { greeting with text := List.replicate len 65 }
  [.dispatch (text 236),.dispatch (text 244),.dispatch (text 2),.flash true]

set_option maxRecDepth 4000 in
theorem roundTrip_iff_initial : RoundTrip (initialRing bufSize512) (straddlingCalls.take 2 ++ [.flash true]) :=
  (roundTrip_iff (boot_initialRing _) (by
    intro m hm
    simp [straddlingCalls] at hm
    rcases hm with rfl | rfl <;> simp) (by decide)).mpr (by decide)

set_option maxRecDepth 4000 in
theorem straddling_not_roundTrip : PlainTexts straddlingCalls ∧ reserved straddlingCalls < 2 ^ 32 ∧
    Boot (initialRing bufSize512) ∧ ¬RoundTrip (initialRing bufSize512) straddlingCalls := by
  refine ⟨?_,by decide,boot_initialRing _,?_⟩
  · intro m hm
    simp [straddlingCalls] at hm
    rcases hm with rfl | rfl | rfl <;> simp
  · rintro ⟨s,hs,hl⟩
    obtain ⟨s',hs',hl'⟩ := lines_eq (boot_initialRing bufSize512) (show reserved straddlingCalls < 2 ^ 32 by decide)
    obtain rfl : s = s' := Option.some.inj (hs.symm.trans hs')
    rw [hl,List.map_inj_left,guardWord_initialRing] at hl'
    have hlast := hl' ⟨504,⟨1,2,3,4,List.replicate 2 65,fun _ => 0⟩⟩ (by
      rw [show delivered bufSize512 straddlingCalls = [_,_] from rfl]
      exact List.mem_cons_of_mem _ List.mem_cons_self)
    have hmsg := congrArg LogLine.msg hlast
    revert hmsg
    decide

end EmbedTemplate.Logging
