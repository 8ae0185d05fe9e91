import EmbedTemplate.Logging.Sequence

/-! # The log across the wrap of its counters

Runs of any total length. A dispatch measures the ring by the difference of the counters
modulo 2^32 and is exact everywhere; a flash compares the counters themselves and finds
nothing to deliver when the wrap lies between tail and head.
-/
namespace EmbedTemplate.Logging
open Circular Bytes EvictingQueue Machine
variable {n : BufSize}

/-- The log, the number of bytes logged so far and the records that are pending: dispatched,
and neither dropped nor reported since. -/
structure Tally (n : BufSize) where
  sys : LogSys n
  logged : ℕ
  pending : List Placed

def Tally.boot (r : LogRing n) : Tally n := ⟨LogSys.boot r,0,[]⟩

/-- A dispatch drops the oldest pending records until its own fits, a flash takes off the
records that it reports. -/
def tallyStep (t : Tally n) : LogOp → Option (Tally n)
  | .dispatch m => (logStep t.sys (.dispatch m)).map fun s =>
    if m.Accepted then ⟨s,t.logged + m.size,evict Placed.size n.val m.size t.pending ++ [⟨t.logged,m⟩]⟩
    else { t with sys := s }
  | .flash writer => (logStep t.sys (.flash writer)).map fun s =>
    { t with sys := s, pending := t.pending.drop (s.events.length - t.sys.events.length) }
  | .getStats => (logStep t.sys .getStats).map fun s => { t with sys := s }

/-- The fullness test admits a record exactly when it fits behind the pending bytes, and a
flash reports all pending records in order. -/
def Agrees (guard : List UInt8) (t : Tally n) : LogOp → Prop
  | .dispatch m => m.Accepted →
      (isFull n t.sys.ring.head t.sys.ring.tail m.size = false ↔ total Placed.size t.pending + m.size ≤ n.val)
  | .flash writer => ∃ s, logStep t.sys (.flash writer) = some s ∧
      s.events = t.sys.events ++ t.pending.map (Placed.event n guard writer)
  | .getStats => True

/-- A flash starts while all pending bytes have been logged since the head counter was last
zero. -/
def Unwrapped (t : Tally n) : LogOp → Prop
  | .flash _ => total Placed.size t.pending ≤ u32 t.logged
  | _ => True

instance (t : Tally n) (op : LogOp) : Decidable (Unwrapped t op) := by
  cases op <;> unfold Unwrapped <;> infer_instance

/-- The ring holds the pending records, at their positions up to the width of the counters. -/
structure Tallied (guard : List UInt8) (t : Tally n) : Prop where
  ring : ∃ start ms, Pending t.sys.ring start 0 ms ∧ t.pending = place start ms ∧ start + bytesOf ms = t.logged
  guard_eq : t.sys.ring.guardWord = guard

theorem Tallied.boot {r : LogRing n} (h : Boot r) : Tallied r.guardWord (Tally.boot r) where
  ring := ⟨0,[],h.pending,rfl,rfl⟩
  guard_eq := rfl

section Steps
variable {guard : List UInt8} {t : Tally n}

theorem Tallied.dispatch (h : Tallied guard t) {m : LogArgs} (hm : m.Accepted) :
    ∃ u, tallyStep t (.dispatch m) = some u ∧ Tallied guard u ∧ u.logged = t.logged + m.size ∧
      u.pending = evict Placed.size n.val m.size t.pending ++ [⟨t.logged,m⟩] := by
  obtain ⟨start,ms,hp,hpending,hlogged⟩ := h.ring
  obtain ⟨r',start',hr,hd,hevict,hg⟩ := hp.dispatchPlaced hm
  have hend := hd.end_eq
  refine ⟨_,by rw [tallyStep,logStep,hr,Option.map_some,Option.map_some,if_pos hm],⟨⟨start',_,hd.pending,?_,?_⟩,?_⟩,rfl,rfl⟩
  · rw [hpending,hevict,place_append,show start' + bytesOf (kept n m.size ms) = t.logged by omega]
    rfl
  · change start' + bytesOf (kept n m.size ms ++ [m]) = t.logged + m.size
    rw [bytesOf_append,bytesOf_cons,bytesOf_nil]
    omega
  · exact hg.guardWord.trans h.guard_eq

theorem Tallied.dispatch_rejected (h : Tallied guard t) {m : LogArgs} (hm : ¬m.Accepted) :
    ∃ u, tallyStep t (.dispatch m) = some u ∧ Tallied guard u :=
  ⟨_,by rw [tallyStep,logStep,logDispatch_rejected _ hm,Option.map_some,Option.map_some,if_neg hm],h⟩

theorem Tallied.flash (h : Tallied guard t) (writer : Bool) :
    ∃ s, logStep t.sys (.flash writer) = some s ∧
      (total Placed.size t.pending ≤ u32 t.logged ∧
          s.events = t.sys.events ++ t.pending.map (Placed.event n guard writer) ∧
          Tallied guard { t with sys := s, pending := [] } ∨
        u32 t.logged < total Placed.size t.pending ∧ s.events = t.sys.events ∧ Tallied guard { t with sys := s }) := by
  obtain ⟨start,ms,hp,hpending,hlogged⟩ := h.ring
  have hroom := hp.room
  have hval := n.val_le
  have htotal : total Placed.size t.pending = bytesOf ms := by rw [hpending,total_place]
  by_cases hle : total Placed.size t.pending ≤ u32 t.logged
  · obtain ⟨r',hr,hd⟩ := hp.logFlash_u32 (by simp only [u32] at *; omega) writer
    refine ⟨_,by rw [logStep,hr,Option.map_some],.inl ⟨hle,?_,⟨_,[],hd.pending,rfl,hlogged⟩,?_⟩⟩
    · rw [hpending,← h.guard_eq]
    · exact hd.guard.guardWord.trans h.guard_eq
  · have hhead : t.sys.ring.head ≤ t.sys.ring.tail := by
      rw [hp.head_eq,hp.tail_eq]
      simp only [u32] at *
      omega
    refine ⟨_,by rw [logStep,logFlash_of_le hhead,Option.map_some],.inr ⟨by omega,List.append_nil _,?_⟩⟩
    exact ⟨⟨start,ms,⟨hp.1,hp.2,hp.3,hp.4,hp.5,hp.6,hp.7⟩,hpending,hlogged⟩,h.guard_eq⟩

/-- A flash that starts within the period leaves nothing pending. -/
theorem Tallied.flash_empties (h : Tallied guard t) (hle : total Placed.size t.pending ≤ u32 t.logged) (writer : Bool) :
    ∃ u, tallyStep t (.flash writer) = some u ∧ Tallied guard u ∧ u.logged = t.logged ∧ u.pending = [] := by
  obtain ⟨s,hs,⟨_,hevents,ht⟩ | ⟨hlt,_,_⟩⟩ := h.flash writer
  · have hdrop : t.pending.drop (s.events.length - t.sys.events.length) = [] := by
      rw [hevents,List.length_append,List.length_map,Nat.add_sub_cancel_left,List.drop_length]
    refine ⟨_,by rw [tallyStep,hs,Option.map_some,hdrop],ht,rfl,rfl⟩
  · exact absurd hle (Nat.not_le_of_lt hlt)

theorem Tallied.step (h : Tallied guard t) (op : LogOp) : ∃ u, tallyStep t op = some u ∧ Tallied guard u := by
  cases op with
  | dispatch m =>
    by_cases hm : m.Accepted
    · obtain ⟨u,hu,ht,_⟩ := h.dispatch hm
      exact ⟨u,hu,ht⟩
    · exact h.dispatch_rejected hm
  | flash writer =>
    obtain ⟨s,hs,⟨hle,_,_⟩ | ⟨_,hevents,ht⟩⟩ := h.flash writer
    · obtain ⟨u,hu,ht,_⟩ := h.flash_empties hle writer
      exact ⟨u,hu,ht⟩
    · refine ⟨_,by rw [tallyStep,hs,Option.map_some],?_⟩
      rw [hevents,Nat.sub_self,List.drop_zero]
      exact ht
  | getStats => exact ⟨t,rfl,h⟩

theorem Tallied.of_step {u : Tally n} {op : LogOp} (h : Tallied guard t) (hu : tallyStep t op = some u) : Tallied guard u := by
  obtain ⟨v,hv,ht⟩ := h.step op
  obtain rfl := Option.some.inj (hu.symm.trans hv)
  exact ht

/-- The two sides agree unless a flash starts across the wrap. -/
theorem Tallied.agrees_unwrapped (h : Tallied guard t) (op : LogOp) : Agrees guard t op ↔ Unwrapped t op := by
  cases op with
  | dispatch m =>
    refine iff_of_true (fun _ => ?_) trivial
    obtain ⟨start,ms,hp,hpending,_⟩ := h.ring
    rw [← Bool.not_eq_true,hp.isFull_iff m.size_le,hpending,total_place]
    omega
  | flash writer =>
    obtain ⟨s,hs,⟨hle,hevents,_⟩ | ⟨hlt,hevents,_⟩⟩ := h.flash writer
    · exact iff_of_true ⟨s,hs,hevents⟩ hle
    · refine iff_of_false ?_ (Nat.not_le_of_lt hlt)
      rintro ⟨s',hs',hall⟩
      obtain rfl : s = s' := Option.some.inj (hs.symm.trans hs')
      rw [hevents,List.self_eq_append_right,List.map_eq_nil_iff] at hall
      rw [hall] at hlt
      exact Nat.not_lt_zero _ hlt
  | getStats => exact Iff.rfl

end Steps

/-- Every run goes to its end, and throughout it the dispatches and the flashes agree on what
is pending if and only if no flash starts while the wrap lies among the pending bytes. -/
theorem wrap_agrees_iff {r : LogRing n} (hr : Boot r) (ops : List LogOp) :
    (exec tallyStep (Tally.boot r) ops).isSome ∧
      (Meets tallyStep (Agrees r.guardWord) (Tally.boot r) ops ↔ Meets tallyStep Unwrapped (Tally.boot r) ops) := by
  have hboot := Tallied.boot hr
  constructor
  · obtain ⟨t,ht,_⟩ := exec_total tallyStep (fun _ op h => Tallied.step h op) hboot ops
    rw [ht]
    rfl
  · refine meets_congr (I := Tallied r.guardWord) tallyStep ?_ (fun _ op h => Tallied.agrees_unwrapped h op) hboot ops
    exact fun _ _ _ h hu => h.of_step hu

theorem wrap_agrees_iff_greeting :
    Meets tallyStep (Agrees (initialRing bufSize512).guardWord) (Tally.boot (initialRing bufSize512))
      [.dispatch greeting,.flash true,.dispatch longText,.dispatch longText,.flash true] :=
  (wrap_agrees_iff (boot_initialRing bufSize512) _).2.mpr (by decide +kernel)

/-- Greetings of sixteen bytes, each flashed before the next. -/
def greetings (k : ℕ) : List LogOp := (List.replicate k [.dispatch greeting,.flash true]).flatten

theorem greetings_succ (k : ℕ) : greetings (k + 1) = greetings k ++ [.dispatch greeting,.flash true] := by
  rw [greetings,List.replicate_succ',List.flatten_append]
  rfl

theorem greeting_placed {t : Tally n} {guard : List UInt8} (h : Tallied guard t) (hpending : t.pending = []) :
    ∃ u, tallyStep t (.dispatch greeting) = some u ∧ Tallied guard u ∧ u.logged = t.logged + 16 ∧
      u.pending = [⟨t.logged,greeting⟩] := by
  obtain ⟨u,hu,ht,hlogged,hnew⟩ := h.dispatch (m := greeting) (by decide)
  refine ⟨u,hu,ht,hlogged,?_⟩
  rw [hnew,hpending]
  rfl

/-- As long as the counters have not wrapped, every greeting is delivered. -/
theorem greetings_delivered {r : LogRing n} (hr : Boot r) (k : ℕ) (hk : 16 * k < 2 ^ 32) :
    ∃ t, exec tallyStep (Tally.boot r) (greetings k) = some t ∧ Tallied r.guardWord t ∧ t.logged = 16 * k ∧
      t.pending = [] := by
  induction k with
  | zero => exact ⟨_,rfl,Tallied.boot hr,rfl,rfl⟩
  | succ k ih =>
    obtain ⟨t,ht,htally,hlogged,hpending⟩ := ih (by omega)
    obtain ⟨u,hu,hutally,hulogged,hupending⟩ := greeting_placed htally hpending
    have hle : total Placed.size u.pending ≤ u32 u.logged := by
      rw [hupending,hulogged,hlogged,u32_of_lt (by omega)]
      have hsize : greeting.size = 16 := by decide
      have htotal : total Placed.size [⟨16 * k,greeting⟩] = 16 := by simp [total,Placed.size,hsize]
      omega
    obtain ⟨v,hv,hvtally,hvlogged,hvpending⟩ := hutally.flash_empties hle true
    refine ⟨v,?_,hvtally,by rw [hvlogged,hulogged,hlogged]; omega,hvpending⟩
    rw [greetings_succ,exec_append,ht,Option.bind_some,exec_cons,hu,Option.bind_some,exec_cons,hv]
    rfl

/-- After 2^32 bytes the head counter is zero again, and the last greeting is not delivered. -/
theorem greetings_not_agrees :
    ¬Meets tallyStep (Agrees (initialRing bufSize512).guardWord) (Tally.boot (initialRing bufSize512))
      (greetings (2 ^ 28)) := by
  intro h
  obtain ⟨t,ht,htally,hlogged,hpending⟩ := greetings_delivered (boot_initialRing bufSize512) (2 ^ 28 - 1) (by norm_num)
  obtain ⟨u,hu,hutally,hulogged,hupending⟩ := greeting_placed htally hpending
  rw [show (2 ^ 28 : ℕ) = 2 ^ 28 - 1 + 1 by norm_num,greetings_succ,meets_append] at h
  have hflash := ((h.2 t ht).2 u hu).1
  have hwithin := (hutally.agrees_unwrapped _).mp hflash
  rw [Unwrapped,hupending,hulogged,hlogged] at hwithin
  revert hwithin
  decide

end EmbedTemplate.Logging
