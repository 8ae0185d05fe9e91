import EmbedTemplate.Library.Machine
import EmbedTemplate.Logging.Drain

/-! # Sequences of calls and the queue they implement

The log as a machine whose steps are whole calls, and the evicting queue of placed
messages that it refines: the ring holds the pending messages, and what the flashes
report follows the history of the queue.
-/
namespace EmbedTemplate.Logging
open Circular Bytes EvictingQueue
variable {n : BufSize}

/-- The calls of the logger's interface that touch the ring. -/
inductive LogOp where
  | dispatch (m : LogArgs)
  | flash (writer : Bool)
  | getStats

/-- The ring and what the flashes reported: an entry for each record consumed. -/
structure LogSys (n : BufSize) where
  ring : LogRing n
  events : List (Option LogLine)

def logStep (s : LogSys n) : LogOp → Option (LogSys n)
  | .dispatch m => (logDispatch s.ring m).map fun r => { s with ring := r }
  | .flash writer => (logFlash writer s.ring).map fun (r,outs) => ⟨r,s.events ++ outs⟩
  | .getStats => some s

/-- The callback invocations of a run. -/
def LogSys.lines (s : LogSys n) : List LogLine := s.events.filterMap id

def LogSys.boot (r : LogRing n) : LogSys n := ⟨r,[]⟩

/-- The messages that the calls get past the formatter. -/
def accepted : List LogOp → List LogArgs
  | [] => []
  | .dispatch m :: ops => if m.Accepted then m :: accepted ops else accepted ops
  | .flash _ :: ops => accepted ops
  | .getStats :: ops => accepted ops

def reserved (ops : List LogOp) : ℕ := bytesOf (accepted ops)

/-- The queue operations that the calls stand for. A message is placed behind all
messages accepted before it. -/
def queueOps : ℕ → List LogOp → List (Op Placed)
  | _, [] => []
  | next, .dispatch m :: ops =>
    if m.Accepted then .push ⟨next,m⟩ :: queueOps (next + m.size) ops else queueOps next ops
  | next, .flash writer :: ops => .flush writer :: queueOps next ops
  | next, .getStats :: ops => queueOps next ops

def Placed.size (p : Placed) : ℕ := p.msg.size

/-- The queue after a sequence of calls. -/
def queueAfter (n : BufSize) (ops : List LogOp) : State Placed :=
  run Placed.size n.val empty (queueOps 0 ops)

theorem pushed_queueOps (next : ℕ) (ops : List LogOp) :
    pushed (queueOps next ops) = place next (accepted ops) := by
  induction ops generalizing next with
  | nil => rfl
  | cons op ops ih =>
    cases op with
    | dispatch m =>
      rw [queueOps,accepted]
      split
      · rw [pushed,ih,place]
      · exact ih next
    | flash b => exact ih next
    | getStats => exact ih next

theorem total_place (start : ℕ) (ms : List LogArgs) : total Placed.size (place start ms) = bytesOf ms := by
  induction ms generalizing start with
  | nil => rfl
  | cons m ms ih => rw [place,total_cons,ih,bytesOf_cons,Placed.size]

theorem evict_place (tot start : ℕ) (ms : List LogArgs) :
    ∃ start', start' + bytesOf (kept n tot ms) = start + bytesOf ms ∧
      evict Placed.size n.val tot (place start ms) = place start' (kept n tot ms) := by
  induction ms generalizing start with
  | nil => exact ⟨start,rfl,rfl⟩
  | cons m ms ih =>
    have htot := total_place start (m :: ms)
    rw [place] at htot
    rw [kept_cons,place,evict,htot]
    by_cases hfit : bytesOf (m :: ms) + tot ≤ n.val
    · rw [if_pos hfit,if_pos hfit]
      exact ⟨start,rfl,rfl⟩
    · rw [if_neg hfit,if_neg hfit]
      obtain ⟨start',hs,he⟩ := ih (start + m.size)
      exact ⟨start',by rw [bytesOf_cons,← Nat.add_assoc]; exact hs,he⟩

/-- A dispatch behind a gapless ring evicts the oldest records and appends its own. -/
theorem Pending.dispatchPlaced {r : LogRing n} {start : ℕ} {ms : List LogArgs} (h : Pending r start 0 ms)
    {m : LogArgs} (hm : m.Accepted) :
    ∃ r' start', Logging.logDispatch r m = some r' ∧ Dispatched r r' m start 0 ms start' 0 ∧
      evict Placed.size n.val m.size (place start ms) = place start' (kept n m.size ms) ∧
      SameGuard n r.data r'.data := by
  obtain ⟨r',start',gap',hr,hd⟩ := h.logDispatch hm (clean_min_zero _ _ _)
  obtain rfl : gap' = 0 := Nat.le_zero.mp hd.gap_le
  obtain ⟨start₂,hs₂,he₂⟩ := evict_place (n := n) m.size start ms
  have hend := hd.end_eq
  obtain rfl : start₂ = start' := by omega
  refine ⟨r',start₂,hr,hd,he₂,?_⟩
  rw [hd.data]
  exact sameGuard_store _ _ _

/-- What the flashes report about an entry that left the queue. -/
def report (n : BufSize) (guard : List UInt8) : Placed × Fate → Option (Option LogLine)
  | (_,.dropped) => none
  | (p,.delivered) => some (p.event n guard true)
  | (p,.skipped) => some (p.event n guard false)

/-- The ring implements the queue. -/
structure Tracks (guard : List UInt8) (next : ℕ) (s : LogSys n) (q : State Placed) : Prop where
  ring : ∃ start ms, Pending s.ring start 0 ms ∧ q.pending = place start ms ∧ start + bytesOf ms = next
  events : s.events = q.history.filterMap (report n guard)
  guard_eq : s.ring.guardWord = guard
  sum : s.ring.sum = u32 (q.history.length + q.pending.length)
  drops : s.ring.dropCnt = u32 (q.fated .dropped).length
  dirty : q.pending ≠ [] → s.ring.dirty = true

theorem Tracks.boot {r : LogRing n} (h : Boot r) : Tracks r.guardWord 0 (LogSys.boot r) empty where
  ring := ⟨0,[],h.pending,rfl,rfl⟩
  events := rfl
  guard_eq := rfl
  sum := h.sum
  drops := h.drops
  dirty := fun hne => absurd rfl hne

section Steps
variable {guard : List UInt8} {next : ℕ} {s : LogSys n} {q : State Placed}

theorem Tracks.dispatch (h : Tracks guard next s q) {m : LogArgs} (hm : m.Accepted) :
    ∃ s', logStep s (.dispatch m) = some s' ∧
      Tracks guard (next + m.size) s' (push Placed.size n.val q ⟨next,m⟩) := by
  obtain ⟨start,ms,hp,hq,hnext⟩ := h.ring
  obtain ⟨r',start',hr,hd,hevict,hg⟩ := hp.dispatchPlaced hm
  rw [← hq] at hevict
  have hend := hd.end_eq
  have hsplit := congrArg List.length (evicted_append_evict Placed.size n.val m.size q.pending)
  have hdropped : (evicted Placed.size n.val m.size q.pending).length = ms.length - (kept n m.size ms).length := by
    rw [List.length_append,hevict,place_length,hq,place_length] at hsplit
    rw [hq]
    omega
  refine ⟨{ s with ring := r' },by rw [logStep,hr]; rfl,⟨start',_,hd.pending,?_,?_⟩,?_,?_,?_,?_,fun _ => hd.dirty⟩
  · change evict Placed.size n.val m.size q.pending ++ [⟨next,m⟩] = _
    rw [hevict,place_append,show start' + bytesOf (kept n m.size ms) = next by omega]
    rfl
  · rw [bytesOf_append,bytesOf_cons,bytesOf_nil]
    omega
  · rw [h.events]
    simp [push,List.filterMap_append,List.filterMap_map,Function.comp_def,report]
  · rw [hg.guardWord,h.guard_eq]
  · rw [hd.sum,h.sum]
    simp only [push,List.length_append,List.length_map,List.length_singleton,Placed.size]
    have := congrArg List.length hq
    rw [List.length_append] at hsplit
    simp only [u32]
    omega
  · rw [hd.drops,h.drops,← hdropped,fated_push,if_pos rfl,List.length_append]
    simp only [Placed.size,u32]
    omega

theorem Tracks.flash (h : Tracks guard next s q) (hnext : next < 2 ^ 32) (writer : Bool) :
    ∃ s', logStep s (.flash writer) = some s' ∧ Tracks guard next s' (flush q writer) := by
  obtain ⟨start,ms,hp,hq,he⟩ := h.ring
  obtain ⟨r',hr,hd,hdirty⟩ := hp.logFlash (by omega) writer
  have hfate : (if writer then Fate.delivered else Fate.skipped) ≠ Fate.dropped := by
    cases writer <;> simp
  refine ⟨⟨r',s.events ++ _⟩,by rw [logStep,hr]; rfl,⟨next,[],?_,rfl,rfl⟩,?_,?_,?_,?_,fun hne => absurd rfl hne⟩
  · rw [← he]
    exact hd.pending
  · rw [h.events,h.guard_eq]
    simp only [flush,List.filterMap_append,hq,List.filterMap_map]
    congr 1
    rw [← List.filterMap_eq_map]
    congr 1
    funext p
    cases writer <;> rfl
  · rw [hd.guard.guardWord,h.guard_eq]
  · rw [hd.sum,h.sum]
    simp [flush]
  · rw [hd.drops,h.drops,fated_flush,if_neg hfate.symm,List.append_nil]

end Steps

/-- Every sequence of calls runs to its end, and the ring implements the queue throughout. -/
theorem Tracks.exec {guard : List UInt8} {next : ℕ} {s : LogSys n} {q : State Placed}
    (h : Tracks guard next s q) (ops : List LogOp) (hres : next + reserved ops < 2 ^ 32) :
    ∃ s', Machine.exec logStep s ops = some s' ∧
      Tracks guard (next + reserved ops) s' (run Placed.size n.val q (queueOps next ops)) := by
  induction ops generalizing next s q with
  | nil => exact ⟨s,rfl,h⟩
  | cons op ops ih =>
    rw [Machine.exec_cons]
    cases op with
    | dispatch m =>
      by_cases hm : m.Accepted
      · have hcons : reserved (.dispatch m :: ops) = m.size + reserved ops := by
          rw [reserved,accepted,if_pos hm,bytesOf_cons,reserved]
        rw [hcons,← Nat.add_assoc] at hres ⊢
        obtain ⟨t,ht,htr⟩ := h.dispatch hm
        rw [ht,queueOps,if_pos hm]
        exact ih htr hres
      · have hcons : reserved (.dispatch m :: ops) = reserved ops := by
          rw [reserved,accepted,if_neg hm,reserved]
        rw [hcons] at hres ⊢
        rw [logStep,logDispatch_rejected _ hm,queueOps,if_neg hm]
        exact ih h hres
    | flash writer =>
      change next + reserved ops < _ at hres
      obtain ⟨t,ht,htr⟩ := h.flash (by omega) writer
      rw [ht]
      exact ih htr hres
    | getStats => exact ih h hres

theorem tracks_boot {r : LogRing n} (hr : Boot r) (ops : List LogOp) (hres : reserved ops < 2 ^ 32) :
    ∃ s, Machine.exec logStep (LogSys.boot r) ops = some s ∧
      Tracks r.guardWord (reserved ops) s (queueAfter n ops) := by
  have := (Tracks.boot hr).exec ops (by omega)
  rwa [Nat.zero_add] at this

end EmbedTemplate.Logging
