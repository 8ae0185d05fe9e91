import EmbedTemplate.Library.Machine
import EmbedTemplate.Logging.Drain

/-! # Writers that interrupt each other

`log_dispatch` as a machine whose steps are its accesses to the shared ring. The calls
in progress form a stack: an interrupt starts a call on top of it, and only the topmost
call takes steps until it returns. A compare-and-exchange is weak, so it may fail for no
reason. When nothing interrupts a call, its steps compute `logDispatch`.
-/
namespace EmbedTemplate.Logging
open Circular Bytes Machine
variable {n : BufSize}

/-- The access that a call makes next. -/
inductive WriterPc where
  | loadTail
  | loadHead
  | loadTag
  | loadOldHdr
  | casTail
  | countDrop
  | casHead
  | reloadTail
  | storeHdr
  | storePayload
  | storeSeal
  | setDirty
  | addSum
  deriving DecidableEq

/-- A call in progress with its local variables. `id` numbers the calls. -/
structure Writer where
  id : ℕ
  msg : LogArgs
  pc : WriterPc
  tail : ℕ
  head : ℕ
  retries : ℕ
  next : ℕ × Bool
  startPos : ℕ

def Writer.enter (id : ℕ) (m : LogArgs) : Writer := ⟨id,m,.loadTail,0,0,120,(0,false),0⟩

/-- The fullness test on the local head and tail. -/
def Writer.test (n : BufSize) (w : Writer) : Writer :=
  { w with pc := if isFull n w.head w.tail w.msg.size then .loadTag else .casHead }

theorem Writer.test_full {w : Writer} (h : isFull n w.head w.tail w.msg.size = true) :
    w.test n = { w with pc := .loadTag } := by
  rw [Writer.test,if_pos h]

theorem Writer.test_fits {w : Writer} (h : ¬isFull n w.head w.tail w.msg.size = true) :
    w.test n = { w with pc := .casHead } := by
  rw [Writer.test,if_neg h]

/-- The ring, the calls in progress with the topmost first, the number of calls so far, the
calls that reserved a record in the order of their reservations, and those that bailed out. -/
structure WriteSys (n : BufSize) where
  ring : LogRing n
  stack : List Writer
  calls : ℕ
  reserved : List (ℕ × LogArgs)
  bailed : List ℕ

def WriteSys.boot (r : LogRing n) : WriteSys n := ⟨r,[],0,[],[]⟩

/-- The next access of the call `w` on top of the calls `rest`. -/
def WriteSys.access (s : WriteSys n) (w : Writer) (rest : List Writer) (spurious : Bool) : WriteSys n :=
  let r := s.ring
  match w.pc with
  | .loadTail => { s with stack := { w with pc := .loadHead, tail := r.tail } :: rest }
  | .loadHead => { s with stack := Writer.test n { w with head := r.head } :: rest }
  | .loadTag =>
    if r.data (index n w.tail) = logTagSeal then { s with stack := { w with pc := .loadOldHdr } :: rest }
    else { s with stack := { w with pc := .casTail, next := unsealedNext w.tail } :: rest }
  | .loadOldHdr => { s with stack := { w with pc := .casTail, next := sealedNext n r.data w.tail } :: rest }
  | .casTail =>
    if r.tail = w.tail ∧ spurious = false then
      { s with
        ring := { r with tail := w.next.1 }
        stack := (if w.next.2 then { w with pc := .countDrop, tail := w.next.1 }
          else Writer.test n { w with tail := w.next.1 }) :: rest }
    else { s with stack := Writer.test n { w with tail := r.tail } :: rest }
  | .countDrop => { s with ring := { r with dropCnt := u32 (r.dropCnt + 1) }, stack := Writer.test n w :: rest }
  | .casHead =>
    if r.head = w.head ∧ spurious = false then
      { s with
        ring := r.reserve w.msg.size
        stack := { w with pc := .storeHdr, startPos := w.head } :: rest
        reserved := s.reserved ++ [(w.id,w.msg)] }
    else if w.retries - 1 = 0 then { s with stack := rest, bailed := s.bailed ++ [w.id] }
    else { s with stack := { w with pc := .reloadTail, head := r.head, retries := w.retries - 1 } :: rest }
  | .reloadTail => { s with stack := Writer.test n { w with tail := r.tail } :: rest }
  | .storeHdr =>
    { s with
      ring := { r with data := storeHdr n r.data w.startPos (w.msg.hdr w.msg.len) }
      stack := { w with pc := .storePayload } :: rest }
  | .storePayload =>
    { s with
      ring := { r with data := storePayload n r.data w.startPos w.msg.len w.msg.buf }
      stack := { w with pc := .storeSeal } :: rest }
  | .storeSeal =>
    { s with
      ring := { r with data := storeSeal n r.data w.startPos }
      stack := { w with pc := .setDirty } :: rest }
  | .setDirty => { s with ring := { r with dirty := true }, stack := { w with pc := .addSum } :: rest }
  | .addSum => { s with ring := { r with sum := u32 (r.sum + 1) }, stack := rest }

/-- An interrupt calls `log_dispatch`, the topmost call makes its next access (an exchange
may fail spuriously), or a flash runs while no call is in progress. -/
inductive WriteLabel where
  | call (m : LogArgs)
  | access (spurious : Bool)
  | flash (writer : Bool)

def writeStep (s : WriteSys n) : WriteLabel → Option (WriteSys n)
  | .call m =>
    if m.Accepted then some { s with stack := Writer.enter s.calls m :: s.stack, calls := s.calls + 1 } else some s
  | .access spurious =>
    match s.stack with
    | [] => none
    | w :: rest => some (s.access w rest spurious)
  | .flash writer =>
    match s.stack with
    | [] => (logFlash writer s.ring).map fun (r,_) => { s with ring := r }
    | _ :: _ => none

section Cases
variable {s t : WriteSys n}

/-- A call begins, or is turned down. -/
theorem writeStep_call {m : LogArgs} (h : writeStep s (.call m) = some t) :
    t = { s with stack := Writer.enter s.calls m :: s.stack, calls := s.calls + 1 } ∨ t = s := by
  rw [writeStep] at h
  split at h
  · exact .inl (Option.some.inj h).symm
  · exact .inr (Option.some.inj h).symm

/-- An access is one of the innermost call. -/
theorem writeStep_access {spurious : Bool} (h : writeStep s (.access spurious) = some t) :
    ∃ w rest, s.stack = w :: rest ∧ t = s.access w rest spurious := by
  rw [writeStep] at h
  cases hstack : s.stack with
  | nil =>
    rw [hstack] at h
    cases h
  | cons w rest =>
    rw [hstack] at h
    exact ⟨w,rest,rfl,(Option.some.inj h).symm⟩

/-- A flash runs while no call is in progress. -/
theorem writeStep_flash {writer : Bool} (h : writeStep s (.flash writer) = some t) :
    s.stack = [] ∧ ∃ out, logFlash writer s.ring = some out ∧ t = { s with ring := out.1 } := by
  rw [writeStep] at h
  cases hstack : s.stack with
  | nil =>
    rw [hstack] at h
    obtain ⟨out,hout,rfl⟩ := Option.map_eq_some_iff.mp h
    exact ⟨rfl,out,hout,rfl⟩
  | cons w rest =>
    rw [hstack] at h
    cases h

end Cases

/-- Accesses without interruption and without spurious failures. -/
def Runs (s t : WriteSys n) : Prop := Repeats writeStep (.access false) s t

theorem Runs.access {s t : WriteSys n} {w : Writer} {rest : List Writer} (h : s.stack = w :: rest)
    (ht : Runs (s.access w rest false) t) : Runs s t :=
  Repeats.head (by rw [writeStep,h]) ht

theorem Runs.refl (s : WriteSys n) : Runs s s := Repeats.refl writeStep _ s

theorem runs_moveTail (s : WriteSys n) (w : Writer) (rest : List Writer) (htail : w.tail = s.ring.tail)
    (hfull : isFull n w.head w.tail w.msg.size = true) :
    let next := nextTail n s.ring.data s.ring.tail
    ∃ w' : Writer, w'.id = w.id ∧ w'.msg = w.msg ∧ w'.head = w.head ∧ w'.tail = next.1 ∧
      Runs { s with stack := w.test n :: rest } { s with ring := s.ring.moveTail next, stack := w'.test n :: rest } := by
  rw [Writer.test_full hfull]
  by_cases hseal : s.ring.data (index n w.tail) = logTagSeal
  · have hcount : (sealedNext n s.ring.data w.tail).2 = true := rfl
    refine ⟨{ w with pc := .countDrop, tail := (sealedNext n s.ring.data w.tail).1, next := sealedNext n s.ring.data w.tail },
      rfl,rfl,rfl,?_,?_⟩
    · simp only [nextTail,← htail,if_pos hseal]
    refine Runs.access rfl ?_
    simp only [WriteSys.access,if_pos hseal]
    refine Runs.access rfl (Runs.access rfl ?_)
    simp only [WriteSys.access,htail.symm,true_and,if_true,hcount]
    refine Runs.access rfl ?_
    simp only [WriteSys.access,nextTail,if_pos hseal]
    exact Runs.refl _
  · refine ⟨{ w with pc := .casTail, tail := (unsealedNext w.tail).1, next := unsealedNext w.tail },rfl,rfl,rfl,?_,?_⟩
    · simp only [nextTail,← htail,if_neg hseal]
    refine Runs.access rfl ?_
    simp only [WriteSys.access,if_neg hseal]
    refine Runs.access rfl ?_
    simp only [WriteSys.access,htail.symm,true_and,if_true,nextTail,if_neg hseal]
    exact Runs.refl _

theorem runs_dropLoop (rounds : ℕ) (s : WriteSys n) (w : Writer) (rest : List Writer) {r : LogRing n}
    (hhead : w.head = s.ring.head) (htail : w.tail = s.ring.tail)
    (h : dropLoop w.msg.size rounds s.ring = some r) :
    ∃ w' : Writer, w'.id = w.id ∧ w'.msg = w.msg ∧ w'.pc = .casHead ∧ w'.head = r.head ∧
      Runs { s with stack := w.test n :: rest } { s with ring := r, stack := w' :: rest } := by
  induction rounds generalizing s w with
  | zero => cases h
  | succ rounds ih =>
    rw [dropLoop,← hhead,← htail] at h
    by_cases hfull : isFull n w.head w.tail w.msg.size = true
    · rw [if_pos hfull] at h
      obtain ⟨w₁,hid,hmsg,hh,ht,hto⟩ := runs_moveTail s w rest htail hfull
      rw [htail,← hmsg] at h
      obtain ⟨w',hid',hmsg',hpc',hh',hto'⟩ := ih { s with ring := s.ring.moveTail _ } w₁ (hh.trans hhead) ht h
      exact ⟨w',hid'.trans hid,hmsg'.trans hmsg,hpc',hh',hto.trans hto'⟩
    · rw [if_neg hfull] at h
      cases h
      rw [Writer.test_fits hfull]
      exact ⟨{ w with pc := .casHead },rfl,rfl,rfl,hhead,Runs.refl _⟩

theorem runs_logDispatch (s : WriteSys n) {m : LogArgs} (hm : m.Accepted) {r' : LogRing n}
    (h : logDispatch s.ring m = some r') : ∃ t, writeStep s (.call m) = some t ∧
      Runs t { s with ring := r', calls := s.calls + 1, reserved := s.reserved ++ [(s.calls,m)] } := by
  rw [logDispatch,m.len?_eq,if_pos hm] at h
  obtain ⟨r,hdrop,rfl⟩ := Option.map_eq_some_iff.mp h
  refine ⟨_,by rw [writeStep,if_pos hm],Runs.access rfl (Runs.access rfl ?_)⟩
  obtain ⟨w',hid,hmsg,hpc,hhead,hto⟩ := runs_dropLoop n.val { s with calls := s.calls + 1 }
    { Writer.enter s.calls m with pc := .loadHead, tail := s.ring.tail, head := s.ring.head } s.stack rfl rfl hdrop
  refine hto.trans (Runs.access rfl ?_)
  simp only [WriteSys.access,hpc,hhead,true_and,if_true]
  refine Runs.access rfl (Runs.access rfl (Runs.access rfl (Runs.access rfl (Runs.access rfl ?_))))
  simp only [WriteSys.access,hid,hmsg]
  exact Runs.refl _

end EmbedTemplate.Logging
