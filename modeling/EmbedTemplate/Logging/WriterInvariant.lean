import EmbedTemplate.Logging.Writers

/-! # The invariant of writers that interrupt each other

Between tail and head lie the records reserved last, in the order of their reservations.
Each of them is sealed or owned by a call in progress. A call relies on the calls above
it for little: they only move tail and head on, and leave what it owns alone.
-/
namespace EmbedTemplate.Logging
open Circular Bytes Machine
variable {n : BufSize}

/-- The records reserved so far, with their positions. -/
def WriteSys.placed (s : WriteSys n) : List Placed := place 0 (s.reserved.map Prod.snd)

/-- A call owns its record from the reservation to the seal. -/
def Writer.owns (w : Writer) : Prop := w.pc = .storeHdr ∨ w.pc = .storePayload ∨ w.pc = .storeSeal

instance (w : Writer) : Decidable w.owns := inferInstanceAs (Decidable (_ ∨ _))

/-- What makes the tail exchange safe: the drop loop trusts its test only while the tail it
knows is not ahead of the reservation it wants, and the tail never moves into the record
of a call that has not sealed it. -/
def Complete (s : WriteSys n) : WriteLabel → Prop
  | .access spurious => ∀ w ∈ s.stack.head?,
      (w.pc = .loadTag → w.tail ≤ w.head + w.msg.size) ∧
      (w.pc = .casTail → spurious = false → s.ring.tail = w.tail →
        ∀ v ∈ s.stack.tail, v.owns → v.startPos ≠ w.tail)
  | _ => True

instance (s : WriteSys n) (label : WriteLabel) : Decidable (Complete s label) := by
  cases label <;> unfold Complete <;> infer_instance

/-- The records between tail and head: the `gone` ones lie behind the tail. -/
structure WriteLayout (guard : List UInt8) (s : WriteSys n) (gone live : List (ℕ × LogArgs)) : Prop where
  reserved : s.reserved = gone ++ live
  tail_eq : s.ring.tail = bytesOf (gone.map Prod.snd)
  head_eq : s.ring.head = bytesOf (s.reserved.map Prod.snd)
  room : s.ring.head ≤ s.ring.tail + n.val
  bound : bytesOf (s.reserved.map Prod.snd) < 2 ^ 32
  guard_eq : s.ring.guardWord = guard
  words : s.ring.sum < 2 ^ 32 ∧ s.ring.dropCnt < 2 ^ 32
  sealed : ∀ p ∈ s.placed, s.ring.tail ≤ p.pos →
    (∃ v ∈ s.stack, v.owns ∧ v.startPos = p.pos) ∨ RecordAt n s.ring.data p.pos logTagSeal p.msg

/-- The record of a call that has reserved it. Calls further down have reserved earlier. -/
structure Owned (s : WriteSys n) (rest : List Writer) (w : Writer) : Prop where
  placed : ⟨w.startPos,w.msg⟩ ∈ s.placed
  le : s.ring.tail ≤ w.startPos
  above : ∀ v ∈ rest, v.owns → v.startPos < w.startPos

/-- Where the tail exchange would lead, if it succeeded now: it starts at a record that a
call further down has not sealed, or it leads over a whole record. -/
def NextOk (s : WriteSys n) (rest : List Writer) (w : Writer) : Prop :=
  s.ring.tail = w.tail → (∃ v ∈ rest, v.owns ∧ v.startPos = w.tail) ∨
    ∃ m, ⟨w.tail,m⟩ ∈ s.placed ∧ w.next = (w.tail + m.size,true)

/-- What a call in progress knows about the ring, `rest` being the calls further down. -/
structure FrameOk (s : WriteSys n) (rest : List Writer) (w : Writer) : Prop where
  tail_le : w.tail ≤ s.ring.tail
  head_le : w.head ≤ s.ring.head
  stage : match w.pc with
    | .loadTag => isFull n w.head w.tail w.msg.size = true
    | .loadOldHdr => w.tail < w.head
    | .casTail => NextOk s rest w
    | .casHead => ¬isFull n w.head w.tail w.msg.size = true
    | .storeHdr => Owned s rest w
    | .storePayload => Owned s rest w ∧
        Holds n.val s.ring.data w.startPos (w.msg.taggedHdr logTagFree).toBytes
    | .storeSeal => Owned s rest w ∧ RecordAt n s.ring.data w.startPos logTagFree w.msg
    | _ => True

def StackOk (s : WriteSys n) : List Writer → Prop
  | [] => True
  | w :: rest => FrameOk s rest w ∧ StackOk s rest

def WriteInv (guard : List UInt8) (s : WriteSys n) : Prop :=
  ∃ gone live, WriteLayout guard s gone live ∧ StackOk s s.stack

/-- What the calls of `fs` rely on while calls above them run. -/
structure Rely (s t : WriteSys n) (fs : List Writer) : Prop where
  tail_le : s.ring.tail ≤ t.ring.tail
  head_le : s.ring.head ≤ t.ring.head
  placed : ∀ p ∈ s.placed, p ∈ t.placed
  kept : ∀ v ∈ fs, v.owns → s.ring.tail ≤ v.startPos → ⟨v.startPos,v.msg⟩ ∈ s.placed → t.ring.tail ≤ v.startPos
  bytes : ∀ v ∈ fs, v.owns → s.ring.tail ≤ v.startPos → ⟨v.startPos,v.msg⟩ ∈ s.placed → ∀ i < v.msg.size,
    t.ring.data ((v.startPos + i) % n.val) = s.ring.data ((v.startPos + i) % n.val)

theorem Rely.mono {s t : WriteSys n} {fs fs' : List Writer} (h : Rely s t fs) (hsub : ∀ v ∈ fs', v ∈ fs) :
    Rely s t fs' :=
  ⟨h.tail_le,h.head_le,h.placed,fun v hv => h.kept v (hsub v hv),fun v hv => h.bytes v (hsub v hv)⟩

theorem Owned.stable {s t : WriteSys n} {rest fs : List Writer} {w : Writer} (h : Owned s rest w)
    (hr : Rely s t fs) (hw : w ∈ fs) (howns : w.owns) : Owned t rest w :=
  ⟨hr.placed _ h.placed,hr.kept w hw howns h.le h.placed,h.above⟩

theorem FrameOk.stable {s t : WriteSys n} {rest fs : List Writer} {w : Writer} (h : FrameOk s rest w)
    (hr : Rely s t fs) (hw : w ∈ fs) : FrameOk t rest w := by
  have htail := hr.tail_le
  have hhead := hr.head_le
  refine ⟨h.tail_le.trans htail,h.head_le.trans hhead,?_⟩
  have hst := h.stage
  cases hpc : w.pc <;> simp only [hpc] at hst ⊢
  case loadTag | loadOldHdr | casHead => exact hst
  case casTail =>
    intro he
    have := h.tail_le
    rcases hst (by omega) with hv | ⟨m,hm,hnext⟩
    · exact .inl hv
    · exact .inr ⟨m,hr.placed _ hm,hnext⟩
  case storeHdr => exact hst.stable hr hw (.inl hpc)
  case storePayload =>
    obtain ⟨ho,hb⟩ := hst
    have howns : w.owns := .inr (.inl hpc)
    refine ⟨ho.stable hr hw howns,Holds.congr hb fun i hi => ?_⟩
    have := w.msg.le_size
    rw [LogHdr.toBytes_length] at hi
    exact hr.bytes w hw howns ho.le ho.placed i (by omega)
  case storeSeal =>
    obtain ⟨ho,hb⟩ := hst
    have howns : w.owns := .inr (.inr hpc)
    refine ⟨ho.stable hr hw howns,Holds.congr hb fun i hi => ?_⟩
    rw [w.msg.record_length] at hi
    exact hr.bytes w hw howns ho.le ho.placed i hi

theorem StackOk.stable {s t : WriteSys n} {fs : List Writer} (h : StackOk s fs) (hr : Rely s t fs) :
    StackOk t fs := by
  induction fs with
  | nil => trivial
  | cons w rest ih =>
    exact ⟨h.1.stable hr List.mem_cons_self,ih h.2 (hr.mono fun v hv => List.mem_cons_of_mem w hv)⟩

theorem FrameOk.owned {s : WriteSys n} {rest : List Writer} {w : Writer} (h : FrameOk s rest w) (hw : w.owns) :
    Owned s rest w := by
  have hst := h.stage
  rcases hw with hpc | hpc | hpc <;> simp only [hpc] at hst
  · exact hst
  · exact hst.1
  · exact hst.1

theorem StackOk.owned {s : WriteSys n} {fs : List Writer} (h : StackOk s fs) {v : Writer} (hv : v ∈ fs)
    (howns : v.owns) : ∃ rest, Owned s rest v := by
  induction fs with
  | nil => cases hv
  | cons w rest ih =>
    rcases List.mem_cons.mp hv with rfl | hv
    · exact ⟨rest,h.1.owned howns⟩
    · exact ih h.2 hv

end EmbedTemplate.Logging
