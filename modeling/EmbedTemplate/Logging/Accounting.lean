import EmbedTemplate.Logging.RoundTrip

/-! # The representation invariant of the log ring and its counters

In every state that a sequence of calls reaches, the ring between tail and head is a
concatenation of sealed records, a dispatch stays inside the record it reserves, and
the counters account for every record.
-/
namespace EmbedTemplate.Logging
open Circular Bytes EvictingQueue
variable {n : BufSize}

/-- The bytes between tail and head are the sealed records of `ms`, and every one starts
8-aligned with a header that gives its size. -/
structure WellFormed (r : LogRing n) (ms : List LogArgs) : Prop where
  head_eq : r.head = r.tail + bytesOf ms
  room : r.head - r.tail ≤ n.val
  bytes : Holds n.val r.data r.tail (ms.flatMap LogArgs.sealed)
  records : ∀ p ∈ place r.tail ms, p.pos % 8 = 0 ∧ r.data (p.pos % n.val) = logTagSeal ∧
    (loadHdr n r.data p.pos).size = p.msg.size ∧ p.msg.size % 8 = 0

/-- What one more dispatch does: it returns, it writes no byte outside its record, and its
drop loop stops on the boundary behind the first few records. -/
structure DispatchLocal (r : LogRing n) (ms : List LogArgs) (m : LogArgs) : Prop where
  returns : ∃ r', logDispatch r m = some r' ∧
    ∀ x, (∀ i < m.size, (r.head + i) % n.val ≠ x) → r'.data x = r.data x
  boundary : m.Accepted → ∃ r', dropLoop m.size n.val r = some r' ∧
    ∃ k, r'.tail = r.tail + bytesOf (ms.take k)

theorem Holds.records {r : LogRing n} {start : ℕ} {ms : List LogArgs} (hs : start % 8 = 0)
    (h : Holds n.val r.data start (ms.flatMap LogArgs.sealed)) :
    ∀ p ∈ place start ms, p.pos % 8 = 0 ∧ RecordAt n r.data p.pos logTagSeal p.msg := by
  induction ms generalizing start with
  | nil => simp [place]
  | cons m ms ih =>
    rw [List.flatMap_cons,holds_append,m.sealed_length] at h
    rintro p hp
    rcases List.mem_cons.mp hp with rfl | hp
    · exact ⟨hs,h.1⟩
    · have := m.size_mod
      exact ih (by omega) h.2 p hp

theorem Pending.wellFormed {r : LogRing n} {start : ℕ} {ms : List LogArgs} (h : Pending r start 0 ms)
    (he : start + bytesOf ms < 2 ^ 32) : WellFormed r ms := by
  have htail : r.tail = start := by rw [h.tail_eq,u32_of_lt (by omega)]
  have hhead : r.head = start + bytesOf ms := by rw [h.head_eq,Nat.add_zero,u32_of_lt he]
  have hroom := h.room
  refine ⟨by rw [hhead,htail],by omega,by rw [htail]; exact h.bytes,?_⟩
  rintro p hp
  rw [htail] at hp
  obtain ⟨hpos,hrec⟩ := Holds.records h.start_mod h.bytes p hp
  exact ⟨hpos,Holds.head hrec,by rw [hrec.loadHdr_eq,p.msg.taggedHdr_size],p.msg.size_mod⟩

theorem Pending.dispatchLocal {r : LogRing n} {start : ℕ} {ms : List LogArgs} (h : Pending r start 0 ms)
    (he : start + bytesOf ms < 2 ^ 32) (m : LogArgs) : DispatchLocal r ms m := by
  have hn := n.le_val
  have hroom := h.room
  have htail : r.tail = start := by rw [h.tail_eq,u32_of_lt (by omega)]
  have hhead : r.head = start + bytesOf ms := by rw [h.head_eq,Nat.add_zero,u32_of_lt he]
  constructor
  · by_cases hm : m.Accepted
    · obtain ⟨r',_,_,hr,hd⟩ := h.logDispatch hm (clean_min_zero _ _ _)
      refine ⟨r',hr,fun x hx => ?_⟩
      rw [hd.data]
      apply store_outside
      intro i hi
      rw [m.sealed_length] at hi
      have := hx i hi
      rwa [hhead] at this
    · exact ⟨r,logDispatch_rejected r hm,fun _ _ => rfl⟩
  · intro _
    obtain ⟨r',start',gap',hr,hd⟩ := h.dropLoop m.size_le n.val (clean_min_zero _ _ _) (by omega)
    obtain rfl : gap' = 0 := Nat.le_zero.mp hd.gap_le
    obtain ⟨pre,hpre⟩ := kept_suffix n m.size ms
    have htake : ms.take pre.length = pre := by
      rw [← hpre]
      exact List.take_left
    have hend := hd.end_eq
    have hbytes := congrArg bytesOf hpre
    rw [bytesOf_append] at hbytes
    refine ⟨r',hr,pre.length,?_⟩
    rw [htake,hd.pending.tail_eq,u32_of_lt (by omega),htail]
    omega

theorem report_length (guard : List UInt8) (q : State Placed) :
    (q.history.filterMap (report n guard)).length =
      (q.fated .delivered).length + (q.fated .skipped).length := by
  unfold State.fated
  induction q.history with
  | nil => rfl
  | cons e es ih =>
    rcases e with ⟨p,f⟩
    cases f <;> simp [List.filterMap_cons,report,ih] <;> omega

/-- The representation invariant, locality of a dispatch and the accounting, in every state
that a sequence of calls reaches. What is in the ring are the last of the messages that were
dispatched, those that the queue holds. -/
theorem reachable_wellFormed {r : LogRing n} (hr : Boot r) {ops : List LogOp}
    (hres : reserved ops < 2 ^ 32) :
    ∃ s ms, Machine.exec logStep (LogSys.boot r) ops = some s ∧ WellFormed s.ring ms ∧
      ms = (queueAfter n ops).pending.map Placed.msg ∧ ms <:+ accepted ops ∧
      (∀ m, DispatchLocal s.ring ms m) ∧
      (logGetStats s.ring).1 = s.events.length + (logGetStats s.ring).2 + ms.length ∧
      (logGetStats s.ring).1 < 2 ^ 32 ∧ (logGetStats s.ring).2 < 2 ^ 32 := by
  obtain ⟨s,hs,ht⟩ := tracks_boot hr ops hres
  obtain ⟨start,ms,hp,hq,hnext⟩ := ht.ring
  have hplaced := queueAfter_history n ops
  have hhist : (queueAfter n ops).history.length + (queueAfter n ops).pending.length =
      (accepted ops).length := by
    have := congrArg List.length hplaced
    rw [place_length,List.length_append,List.length_map] at this
    exact this
  have hmsgs : ms = (queueAfter n ops).pending.map Placed.msg := by rw [hq,place_map_msg]
  have hlast : ms <:+ accepted ops := by
    have hall := congrArg (List.map Placed.msg) hplaced
    rw [List.map_append,place_map_msg,← hmsgs] at hall
    exact ⟨_,hall⟩
  have hcount := length_le_bytesOf (accepted ops)
  have hlen := history_length (queueAfter n ops)
  have hevents : s.events.length =
      ((queueAfter n ops).fated .delivered).length + ((queueAfter n ops).fated .skipped).length := by
    rw [ht.events,report_length]
  rw [hq,place_length] at hhist
  have hres' : bytesOf (accepted ops) < 2 ^ 32 := hres
  have hsum : s.ring.sum = (queueAfter n ops).history.length + ms.length := by
    rw [ht.sum,hq,place_length,u32_of_lt (by omega)]
  have hdrops : s.ring.dropCnt = ((queueAfter n ops).fated .dropped).length := by
    rw [ht.drops,u32_of_lt (by omega)]
  refine ⟨s,ms,hs,hp.wellFormed (by omega),hmsgs,hlast,hp.dispatchLocal (by omega),?_,?_,?_⟩ <;>
    simp only [logGetStats] <;> omega

/-- The second greeting is pending behind the flash. -/
theorem reachable_wellFormed_greeting :
    ∃ s, Machine.exec logStep (LogSys.boot (initialRing bufSize512))
        [.dispatch greeting,.flash true,.dispatch greeting] = some s ∧ WellFormed s.ring [greeting] ∧
      (logGetStats s.ring).1 = s.events.length + (logGetStats s.ring).2 + 1 := by
  obtain ⟨s,ms,hs,hwell,hms,-,-,hcount,-⟩ := @reachable_wellFormed _ _ (boot_initialRing bufSize512)
    [.dispatch greeting,.flash true,.dispatch greeting] (by decide)
  have hpending : (queueAfter bufSize512 [.dispatch greeting,.flash true,.dispatch greeting]).pending.map Placed.msg =
      [greeting] := rfl
  obtain rfl := hms.trans hpending
  exact ⟨s,hs,hwell,hcount⟩

end EmbedTemplate.Logging
