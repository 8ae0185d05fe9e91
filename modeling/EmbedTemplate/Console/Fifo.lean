import EmbedTemplate.Library.BoundedQueue
import EmbedTemplate.Library.Circular
import Mathlib.Data.UInt

/-! # The console FIFO between one pusher and one popper

`fifo_push` and `fifo_pop` as machines whose steps are their loads and stores of the
shared indices and of the buffer. The interrupt side and the task side interleave at
every step. The events of the calls form a run of a bounded queue.
-/
namespace EmbedTemplate.Console
open Circular Machine BoundedQueue

def fifoSize : ℕ := 256
def fifoMask : ℕ := fifoSize - 1

structure Fifo where
  buffer : ℕ → UInt8
  head : ℕ
  tail : ℕ

/-- The access that `fifo_push` makes next. -/
inductive PushPc where
  | idle
  | loadHead
  | loadTail
  | storeData
  | storeHead
  deriving DecidableEq

structure Pusher where
  pc : PushPc
  c : UInt8
  head : ℕ
  next : ℕ

/-- The access that `fifo_pop` makes next. -/
inductive PopPc where
  | idle
  | loadTail
  | loadHead
  | loadData
  | storeTail
  deriving DecidableEq

structure Popper where
  pc : PopPc
  tail : ℕ
  c : UInt8

/-- The buffer with both sides, what the calls did to the queue in the order of the deciding
accesses, what the pops returned, and the array indices used so far. -/
structure FifoSys where
  fifo : Fifo
  pusher : Pusher
  popper : Popper
  events : List (Event UInt8)
  results : List ℤ
  indices : List ℕ

/-- After `fifo_init`, with any bytes in the buffer. -/
def FifoSys.init (buffer : ℕ → UInt8) : FifoSys :=
  ⟨⟨buffer,0,0⟩,⟨.idle,0,0,0⟩,⟨.idle,0,0⟩,[],[],[]⟩

/-- The next access of the `fifo_push` in progress. -/
def FifoSys.pushAccess (s : FifoSys) : Option FifoSys :=
  let f := s.fifo
  let w := s.pusher
  match w.pc with
  | .idle => none
  | .loadHead =>
    some { s with pusher := { w with pc := .loadTail, head := f.head, next := (f.head + 1) &&& fifoMask } }
  | .loadTail =>
    if w.next ≠ f.tail then some { s with pusher := { w with pc := .storeData } }
    else some { s with pusher := { w with pc := .idle }, events := s.events ++ [.refuse] }
  | .storeData =>
    some { s with
      fifo := { f with buffer := Function.update f.buffer w.head w.c }
      pusher := { w with pc := .storeHead }
      indices := s.indices ++ [w.head] }
  | .storeHead =>
    some { s with
      fifo := { f with head := w.next }
      pusher := { w with pc := .idle }
      events := s.events ++ [.push w.c] }

/-- The next access of the `fifo_pop` in progress. -/
def FifoSys.popAccess (s : FifoSys) : Option FifoSys :=
  let f := s.fifo
  let r := s.popper
  match r.pc with
  | .idle => none
  | .loadTail => some { s with popper := { r with pc := .loadHead, tail := f.tail } }
  | .loadHead =>
    if r.tail = f.head then
      some { s with popper := { r with pc := .idle }, events := s.events ++ [.empty], results := s.results ++ [-1] }
    else some { s with popper := { r with pc := .loadData } }
  | .loadData =>
    some { s with
      popper := { r with pc := .storeTail, c := f.buffer r.tail }
      indices := s.indices ++ [r.tail] }
  | .storeTail =>
    some { s with
      fifo := { f with tail := (r.tail + 1) &&& fifoMask }
      popper := { r with pc := .idle }
      events := s.events ++ [.pop r.c]
      results := s.results ++ [(r.c.toNat : ℤ)] }

/-- Either side starts a call or goes on with the one in progress. -/
inductive FifoLabel where
  | push (c : UInt8)
  | pushAccess
  | pop
  | popAccess

def fifoStep (s : FifoSys) : FifoLabel → Option FifoSys
  | .push c =>
    if s.pusher.pc = .idle then some { s with pusher := { s.pusher with pc := .loadHead, c := c } } else none
  | .pushAccess => s.pushAccess
  | .pop => if s.popper.pc = .idle then some { s with popper := { s.popper with pc := .loadTail } } else none
  | .popAccess => s.popAccess

/-- What a pop returns for an event, when the event ends a pop. -/
def returned : Event UInt8 → Option ℤ
  | .pop c => some c.toNat
  | .empty => some (-1)
  | .push _ | .refuse => none

/-- How a push ended, with its byte in the queue or refused. -/
def outcome : Event UInt8 → Option (Option UInt8)
  | .push c => some (some c)
  | .refuse => some none
  | .pop _ | .empty => none

/-- The byte of a call of `fifo_push`. -/
def offered : FifoLabel → Option UInt8
  | .push c => some c
  | .pushAccess | .pop | .popAccess => none

/-- The call of `fifo_push` in progress. -/
def Pusher.current (w : Pusher) : List UInt8 := if w.pc = .idle then [] else [w.c]

/-- Each call but the one in progress has ended, with its own byte in the queue or refused. -/
def Settles (s : FifoSys) (calls : List UInt8) : Prop :=
  ∃ ended, calls = ended ++ s.pusher.current ∧
    List.Forall₂ (fun ending c => ending = some c ∨ ending = none) (s.events.filterMap outcome) ended

theorem and_fifoMask (i : ℕ) : i &&& fifoMask = i % fifoSize := Nat.and_two_pow_sub_one_eq_mod i 8

theorem next_mod (i : ℕ) : (i % fifoSize + 1) &&& fifoMask = (i + 1) % fifoSize := by
  rw [and_fifoMask,Nat.mod_add_mod]

theorem next_eq_iff {t k : ℕ} (hk : k < fifoSize) : (t + k + 1) % fifoSize = t % fifoSize ↔ k = fifoSize - 1 := by
  unfold fifoSize at hk ⊢
  omega

theorem tail_eq_iff {t k : ℕ} (hk : k < fifoSize) : t % fifoSize = (t + k) % fifoSize ↔ k = 0 := by
  unfold fifoSize at hk ⊢
  omega

/-- The queue `q` lies in the buffer behind `t` elements popped so far. -/
structure FifoInv (s : FifoSys) (t : ℕ) (q : List UInt8) : Prop where
  run : exec (step (fifoSize - 1)) [] s.events = some q
  tail_eq : s.fifo.tail = t % fifoSize
  head_eq : s.fifo.head = (t + q.length) % fifoSize
  room : q.length < fifoSize
  bytes : Holds fifoSize s.fifo.buffer t q
  pushing : match s.pusher.pc with
    | .idle | .loadHead => True
    | .loadTail => s.pusher.head = s.fifo.head ∧ s.pusher.next = (t + q.length + 1) % fifoSize
    | .storeData =>
      s.pusher.head = s.fifo.head ∧ s.pusher.next = (t + q.length + 1) % fifoSize ∧ q.length + 1 < fifoSize
    | .storeHead =>
      s.pusher.next = (t + q.length + 1) % fifoSize ∧ q.length + 1 < fifoSize ∧
        s.fifo.buffer ((t + q.length) % fifoSize) = s.pusher.c
  popping : match s.popper.pc with
    | .idle | .loadTail => True
    | .loadHead => s.popper.tail = s.fifo.tail
    | .loadData => s.popper.tail = s.fifo.tail ∧ q ≠ []
    | .storeTail => s.popper.tail = s.fifo.tail ∧ ∃ q', q = s.popper.c :: q'
  results_eq : s.results = s.events.filterMap returned
  inside : ∀ i ∈ s.indices, i < fifoSize

variable {s u : FifoSys} {t : ℕ} {q : List UInt8}

theorem fifoInv_init (buffer : ℕ → UInt8) : FifoInv (FifoSys.init buffer) 0 [] :=
  ⟨rfl,rfl,rfl,by decide,holds_nil _ _ _,trivial,trivial,rfl,fun i hi => by cases hi⟩

theorem index_inside {is : List ℕ} (h : ∀ i ∈ is, i < fifoSize) (p : ℕ) :
    ∀ i ∈ is ++ [p % fifoSize], i < fifoSize := by
  intro i hi
  rcases List.mem_append.mp hi with hi | hi
  · exact h i hi
  · rw [List.mem_singleton.mp hi]
    exact Nat.mod_lt p (by decide)

theorem FifoInv.run_append (h : FifoInv s t q) {e : Event UInt8} {q' : List UInt8}
    (he : step (fifoSize - 1) q e = some q') : exec (step (fifoSize - 1)) [] (s.events ++ [e]) = some q' := by
  rw [exec_append,h.run,Option.bind_some,exec_cons,he]
  rfl

theorem FifoInv.results_append (h : FifoInv s t q) (e : Event UInt8) :
    s.results ++ (returned e).toList = (s.events ++ [e]).filterMap returned := by
  rw [h.results_eq,List.filterMap_append]
  cases he : returned e <;> simp [he]

theorem FifoInv.pushAccess (h : FifoInv s t q) (hs : s.pushAccess = some u) : ∃ q', FifoInv u t q' := by
  have hroom := h.room
  have hpush := h.pushing
  unfold FifoSys.pushAccess at hs
  cases hpc : s.pusher.pc <;> simp only [hpc] at hs hpush
  case idle => cases hs
  case loadHead =>
    cases hs
    exact ⟨q,h.run,h.tail_eq,h.head_eq,hroom,h.bytes,⟨rfl,by rw [h.head_eq,next_mod]⟩,h.popping,h.results_eq,h.inside⟩
  case loadTail =>
    obtain ⟨hhead,hnext⟩ := hpush
    split at hs <;> cases hs
    · rename_i hne
      rw [hnext,h.tail_eq,Ne,next_eq_iff hroom] at hne
      have hlt : q.length + 1 < fifoSize := by omega
      exact ⟨q,h.run,h.tail_eq,h.head_eq,hroom,h.bytes,⟨hhead,hnext,hlt⟩,h.popping,h.results_eq,h.inside⟩
    · rename_i heq
      rw [Ne,not_not,hnext,h.tail_eq,next_eq_iff hroom] at heq
      have hresults := h.results_append .refuse
      rw [returned,Option.toList_none,List.append_nil] at hresults
      exact ⟨q,h.run_append (step_refuse heq),h.tail_eq,h.head_eq,hroom,h.bytes,trivial,h.popping,hresults,h.inside⟩
  case storeData =>
    obtain ⟨hhead,hnext,hlt⟩ := hpush
    cases hs
    rw [hhead,h.head_eq]
    have hbytes : Holds fifoSize (store fifoSize s.fifo.buffer (t + q.length) [s.pusher.c]) t q :=
      h.bytes.store_after le_rfl (by rw [List.length_singleton]; omega)
    exact ⟨q,h.run,h.tail_eq,rfl,hroom,hbytes,⟨hnext,hlt,Function.update_self _ _ _⟩,h.popping,h.results_eq,
      index_inside h.inside _⟩
  case storeHead =>
    obtain ⟨hnext,hlt,hbyte⟩ := hpush
    cases hs
    have hpushed : step (fifoSize - 1) q (.push s.pusher.c) = some (q ++ [s.pusher.c]) := step_push _ (by omega)
    have hlen : (q ++ [s.pusher.c]).length = q.length + 1 := List.length_append
    have hbytes : Holds fifoSize s.fifo.buffer t (q ++ [s.pusher.c]) := by
      rw [holds_append,holds_singleton]
      exact ⟨h.bytes,hbyte⟩
    have hresults := h.results_append (.push s.pusher.c)
    rw [returned,Option.toList_none,List.append_nil] at hresults
    refine ⟨q ++ [s.pusher.c],h.run_append hpushed,h.tail_eq,?_,by rw [hlen]; exact hlt,hbytes,trivial,?_,hresults,h.inside⟩
    · rw [hlen]
      exact hnext
    · have hpop := h.popping
      cases hpc' : s.popper.pc <;> simp only [hpc'] at hpop ⊢
      case loadHead => exact hpop
      case loadData => exact ⟨hpop.1,by simp⟩
      case storeTail =>
        obtain ⟨htail,q',rfl⟩ := hpop
        exact ⟨htail,q' ++ [s.pusher.c],rfl⟩

theorem FifoInv.popAccess (h : FifoInv s t q) (hs : s.popAccess = some u) : ∃ t' q', FifoInv u t' q' := by
  have hroom := h.room
  have hpop := h.popping
  unfold FifoSys.popAccess at hs
  cases hpc : s.popper.pc <;> simp only [hpc] at hs hpop
  case idle => cases hs
  case loadTail =>
    cases hs
    exact ⟨t,q,h.run,h.tail_eq,h.head_eq,hroom,h.bytes,h.pushing,rfl,h.results_eq,h.inside⟩
  case loadHead =>
    split at hs <;> cases hs
    · rename_i heq
      rw [hpop,h.tail_eq,h.head_eq,tail_eq_iff hroom,List.length_eq_zero_iff] at heq
      subst heq
      exact ⟨t,[],h.run_append (step_empty _),h.tail_eq,h.head_eq,hroom,h.bytes,h.pushing,trivial,
        h.results_append .empty,h.inside⟩
    · rename_i hne
      rw [hpop,h.tail_eq,h.head_eq,tail_eq_iff hroom,List.length_eq_zero_iff] at hne
      exact ⟨t,q,h.run,h.tail_eq,h.head_eq,hroom,h.bytes,h.pushing,⟨hpop,hne⟩,h.results_eq,h.inside⟩
  case loadData =>
    obtain ⟨htail,hne⟩ := hpop
    cases hs
    obtain ⟨b,q',rfl⟩ := List.exists_cons_of_ne_nil hne
    rw [htail,h.tail_eq,h.bytes.head]
    exact ⟨t,b :: q',h.run,h.tail_eq,h.head_eq,hroom,h.bytes,h.pushing,⟨h.tail_eq.symm,q',rfl⟩,h.results_eq,index_inside h.inside _⟩
  case storeTail =>
    obtain ⟨htail,q',hq⟩ := hpop
    cases hs
    have hlen : t + q.length = t + 1 + q'.length := by
      rw [hq,List.length_cons]
      omega
    have hle : q'.length + 1 = q.length := by rw [hq,List.length_cons]
    have hpopped : step (fifoSize - 1) q (.pop s.popper.c) = some q' := by rw [hq,step_pop]
    have hbytes : Holds fifoSize s.fifo.buffer (t + 1) q' := by
      have hall := h.bytes
      rw [hq,← List.singleton_append,holds_append] at hall
      exact hall.2
    refine ⟨t + 1,q',h.run_append hpopped,?_,?_,by omega,hbytes,?_,trivial,h.results_append (.pop s.popper.c),h.inside⟩
    · rw [htail,h.tail_eq,next_mod]
    · rw [← hlen]
      exact h.head_eq
    · have hpush := h.pushing
      cases hpc' : s.pusher.pc <;> simp only [hpc'] at hpush ⊢
      case loadTail =>
        rw [← hlen]
        exact hpush
      case storeData =>
        rw [← hlen]
        exact ⟨hpush.1,hpush.2.1,by omega⟩
      case storeHead =>
        rw [← hlen]
        exact ⟨hpush.1,by omega,hpush.2.2⟩

theorem FifoInv.step {label : FifoLabel} (h : FifoInv s t q) (hs : fifoStep s label = some u) :
    ∃ t' q', FifoInv u t' q' := by
  cases label with
  | push c =>
    rw [fifoStep] at hs
    split at hs <;> cases hs
    exact ⟨t,q,h.run,h.tail_eq,h.head_eq,h.room,h.bytes,trivial,h.popping,h.results_eq,h.inside⟩
  | pushAccess => exact ⟨t,h.pushAccess hs⟩
  | pop =>
    rw [fifoStep] at hs
    split at hs <;> cases hs
    exact ⟨t,q,h.run,h.tail_eq,h.head_eq,h.room,h.bytes,h.pushing,trivial,h.results_eq,h.inside⟩
  | popAccess => exact h.popAccess hs

section Calls
variable {calls : List UInt8} {label : FifoLabel}

theorem Settles.same (h : Settles s calls) (hcurrent : u.pusher.current = s.pusher.current)
    (hevents : u.events.filterMap outcome = s.events.filterMap outcome) : Settles u calls := by
  unfold Settles
  rw [hcurrent,hevents]
  exact h

/-- The call in progress ends. -/
theorem Settles.ends (h : Settles s calls) {e : Event UInt8} {ending : Option UInt8} (hbusy : s.pusher.pc ≠ .idle)
    (hidle : u.pusher.pc = .idle) (hevents : u.events = s.events ++ [e]) (hend : outcome e = some ending)
    (hown : ending = some s.pusher.c ∨ ending = none) : Settles u calls := by
  obtain ⟨ended,hcalls,hends⟩ := h
  unfold Pusher.current at hcalls
  rw [if_neg hbusy] at hcalls
  refine ⟨ended ++ [s.pusher.c],?_,?_⟩
  · unfold Pusher.current
    rw [if_pos hidle,List.append_nil,hcalls]
  · rw [hevents,List.filterMap_append,List.filterMap_cons_some hend]
    exact List.rel_append hends (.cons hown .nil)

theorem Settles.pushAccess (h : Settles s calls) (hs : s.pushAccess = some u) : Settles u calls := by
  unfold FifoSys.pushAccess at hs
  cases hpc : s.pusher.pc <;> simp only [hpc] at hs
  case idle => cases hs
  case loadHead =>
    cases hs
    exact h.same (by simp [Pusher.current,hpc]) rfl
  case loadTail =>
    split at hs <;> cases hs
    · exact h.same (by simp [Pusher.current,hpc]) rfl
    · exact h.ends (by simp [hpc]) rfl rfl rfl (.inr rfl)
  case storeData =>
    cases hs
    exact h.same (by simp [Pusher.current,hpc]) rfl
  case storeHead =>
    cases hs
    exact h.ends (by simp [hpc]) rfl rfl rfl (.inl rfl)

theorem Settles.popAccess (h : Settles s calls) (hs : s.popAccess = some u) : Settles u calls := by
  unfold FifoSys.popAccess at hs
  cases hpc : s.popper.pc <;> simp only [hpc] at hs
  case idle => cases hs
  case loadTail =>
    cases hs
    exact h.same rfl rfl
  case loadHead =>
    split at hs <;> cases hs
    · exact h.same rfl (by simp [outcome])
    · exact h.same rfl rfl
  case loadData =>
    cases hs
    exact h.same rfl rfl
  case storeTail =>
    cases hs
    exact h.same rfl (by simp [outcome])

theorem Settles.step (h : Settles s calls) (hs : fifoStep s label = some u) :
    Settles u (calls ++ (offered label).toList) := by
  cases label with
  | push c =>
    rw [fifoStep] at hs
    split at hs
    case isFalse => cases hs
    case isTrue hidle =>
      cases hs
      obtain ⟨ended,hcalls,hends⟩ := h
      unfold Pusher.current at hcalls
      rw [if_pos hidle,List.append_nil] at hcalls
      refine ⟨ended,?_,hends⟩
      rw [hcalls]
      rfl
  | pushAccess =>
    rw [offered,Option.toList_none,List.append_nil]
    exact h.pushAccess hs
  | pop =>
    rw [fifoStep] at hs
    rw [offered,Option.toList_none,List.append_nil]
    split at hs <;> cases hs
    exact h.same rfl rfl
  | popAccess =>
    rw [offered,Option.toList_none,List.append_nil]
    exact h.popAccess hs

theorem settles_run (buffer : ℕ → UInt8) {labels : List FifoLabel}
    (hs : exec fifoStep (FifoSys.init buffer) labels = some s) : Settles s (labels.filterMap offered) := by
  induction labels using List.reverseRecOn generalizing s with
  | nil =>
    cases hs
    exact ⟨[],rfl,.nil⟩
  | append_singleton labels label ih =>
    rw [exec_append] at hs
    obtain ⟨mid,hmid,hs⟩ := Option.bind_eq_some_iff.mp hs
    rw [exec_cons] at hs
    obtain ⟨last,hlast,hs⟩ := Option.bind_eq_some_iff.mp hs
    cases hs
    have hstep := (ih hmid).step hlast
    rw [List.filterMap_append]
    cases hlabel : offered label with
    | none =>
      rw [hlabel,Option.toList_none] at hstep
      rwa [List.filterMap_cons_none hlabel]
    | some c =>
      rw [hlabel,Option.toList_some] at hstep
      rwa [List.filterMap_cons_some hlabel]

end Calls

/-- Every interleaving of a pusher and a popper is a run of a queue of 255 bytes: the bytes
popped are a prefix of those accepted, in what the calls return as well, and pushes and
pops fail only on a full and on an empty queue. What a push accepts is the byte it was
called with, and all calls but the one in progress have ended, in their order. -/
theorem fifo_refines (buffer : ℕ → UInt8) {labels : List FifoLabel} {s : FifoSys}
    (hs : exec fifoStep (FifoSys.init buffer) labels = some s) :
    Settles s (labels.filterMap offered) ∧
      popped s.events <+: pushed s.events ∧ s.results = s.events.filterMap returned ∧
      (∀ before after, s.events = before ++ .refuse :: after → queued before = 255) ∧
      (∀ before after, s.events = before ++ .empty :: after → queued before = 0) ∧
      ∀ i ∈ s.indices, i < 256 := by
  obtain ⟨t,q,h⟩ := Machine.reachable fifoStep (I := fun s => ∃ t q, FifoInv s t q)
    (fun _ _ _ ⟨_,_,h⟩ hs => h.step hs) ⟨0,[],fifoInv_init buffer⟩ hs
  refine ⟨settles_run buffer hs,popped_front h.run,h.results_eq,fun before after he => ?_,fun before after he => ?_,h.inside⟩
  · have hrun := h.run
    rw [he] at hrun
    exact refused_full hrun
  · have hrun := h.run
    rw [he] at hrun
    exact empty_queued hrun

/-- A pop that finds nothing while 0xFF is on its way in, and then two more while a second byte is pushed. -/
def crossing : List FifoLabel :=
  [.push 0xFF,.pushAccess,.pop,.popAccess,.pushAccess,.pushAccess,.popAccess,.pushAccess,.pop,.popAccess,.push 0x41,
    .popAccess,.pushAccess,.pushAccess,.popAccess,.pushAccess,.popAccess,.pop,.popAccess,.pushAccess,.popAccess,
    .popAccess,.popAccess]

theorem fifo_refines_crossing : ∃ s, exec fifoStep (FifoSys.init fun _ => 0) crossing = some s ∧
    s.events = [.empty,.push 0xFF,.pop 0xFF,.push 0x41,.pop 0x41] ∧ s.results = [-1,255,65] ∧
    Settles s [0xFF,0x41] ∧ popped s.events <+: pushed s.events := by
  have hrun : (exec fifoStep (FifoSys.init fun _ => 0) crossing).map (fun s => (s.events,s.results)) =
      some ([.empty,.push 0xFF,.pop 0xFF,.push 0x41,.pop 0x41],[-1,255,65]) := by decide
  obtain ⟨s,hs,hresults⟩ := Option.map_eq_some_iff.mp hrun
  obtain ⟨hevents,hresults⟩ := Prod.mk.inj hresults
  obtain ⟨hsettles,hfront,-⟩ := fifo_refines _ hs
  exact ⟨s,hs,hevents,hresults,hsettles,hfront⟩

end EmbedTemplate.Console
