import EmbedTemplate.Library.Machine
import EmbedTemplate.Logging.Drain

/-! # The reader of the log ring, one shared access at a time

`log_flash` as a machine whose steps are its accesses to the ring, with complete
`log_dispatch` calls between any two of them. Header and payload are loaded byte by
byte, which covers every wider access. When no call comes in between, the steps
compute `logFlash`.
-/
namespace EmbedTemplate.Logging
open Circular Bytes Machine
variable {n : BufSize}

/-- The access that a flash makes next. -/
inductive ReaderPc where
  | idle
  | loadTail
  | loadPending
  | loadTag
  | loadFresh
  | search
  | storeSync
  | loadHdr
  | checkTail
  | reload
  | loadPayload
  | verify
  | call
  | storeFree
  | loadPending2
  | storeTail
  | clear
  deriving DecidableEq

/-- The local state of a flash: its snapshots and the bytes loaded so far. -/
structure Reader where
  pc : ReaderPc
  writer : Bool
  head : ℕ
  tail : ℕ
  hdr : List UInt8
  buf : List UInt8

def Reader.idle : Reader := ⟨.idle,false,0,0,[],[]⟩

/-- The loop test with a new local tail. -/
def Reader.loop (f : Reader) (tail : ℕ) : Reader :=
  { f with pc := if tail < f.head then .loadPending else .clear, tail := tail, hdr := [], buf := [] }

/-- The address of byte `i` of a `copy_from_ring` at `startPos`. -/
def copyAddr (n : BufSize) (startPos i : ℕ) : ℕ :=
  if i < n.val - index n startPos then index n startPos + i else i - (n.val - index n startPos)

/-- The address of byte `i` of the header. -/
def hdrAddr (n : BufSize) (tail i : ℕ) : ℕ :=
  if index n tail ≤ n.val - hdrSize then index n tail + i else copyAddr n tail i

/-- The address of byte `i` of the payload: the first word lies right behind the header. -/
def payloadAddr (n : BufSize) (tail i : ℕ) : ℕ :=
  if i < 4 then index n tail + hdrSize + i else copyAddr n (tail + hdrSize + 4) (i - 4)

def Reader.header (f : Reader) : LogHdr := LogHdr.ofBytes f.hdr

/-- The ring with the reader, what the flashes consumed so far with its position, the
positions whose tag the reader has freed, and the messages accepted so far. -/
structure ReadSys (n : BufSize) where
  ring : LogRing n
  reader : Reader
  events : List (ℕ × Option LogLine)
  freed : List ℕ
  dispatched : List LogArgs

def ReadSys.boot (r : LogRing n) : ReadSys n := ⟨r,Reader.idle,[],[],[]⟩

/-- The next access of the flash in progress. -/
def ReadSys.access (s : ReadSys n) : ReadSys n :=
  let r := s.ring
  let f := s.reader
  match f.pc with
  | .idle => s
  | .loadTail => { s with reader := f.loop r.tail }
  | .loadPending =>
    if r.tail > f.tail then { s with reader := f.loop r.tail } else { s with reader := { f with pc := .loadTag } }
  | .loadTag =>
    { s with reader := { f with pc := if r.data (index n f.tail) = logTagSeal then .loadHdr else .loadFresh } }
  | .loadFresh =>
    if r.tail > f.tail then { s with reader := f.loop r.tail } else { s with reader := { f with pc := .search } }
  | .search =>
    if r.data (index n f.tail) = logTagSeal ∧ index n f.tail &&& 7 = 0 then
      { s with reader := { f with pc := .storeSync } }
    else { s with reader := { f with pc := if f.tail + 1 < f.head then .search else .clear, tail := f.tail + 1 } }
  | .storeSync => { s with ring := { r with tail := f.tail }, reader := { f with pc := .loadHdr } }
  | .loadHdr =>
    { s with
      reader := { f with
        pc := if f.hdr.length + 1 < hdrSize then .loadHdr else .checkTail
        hdr := f.hdr ++ [r.data (hdrAddr n f.tail f.hdr.length)] } }
  | .checkTail => { s with reader := { f with pc := if r.tail ≠ f.tail then .reload else .loadPayload } }
  | .reload => { s with reader := f.loop r.tail }
  | .loadPayload =>
    { s with
      reader := { f with
        pc := if f.buf.length + 1 < max 4 f.header.len.toNat then .loadPayload else .verify
        buf := f.buf ++ [r.data (payloadAddr n f.tail f.buf.length)] } }
  | .verify =>
    { s with reader := { f with pc := if r.data (index n f.tail) ≠ logTagSeal then .reload else .call } }
  | .call =>
    { s with
      reader := { f with pc := .storeFree }
      events := s.events ++ [(f.tail,if f.writer then some (f.header.line f.buf) else none)] }
  | .storeFree =>
    { s with
      ring := { r with data := put r.data (index n f.tail) [logTagFree] }
      reader := { f with pc := .loadPending2 }
      freed := s.freed ++ [f.tail] }
  | .loadPending2 =>
    if r.tail ≤ f.tail then
      { s with reader := { f with pc := .storeTail, tail := u32 (f.tail + f.header.size) } }
    else { s with reader := f.loop r.tail }
  | .storeTail => { s with ring := { r with tail := f.tail }, reader := f.loop f.tail }
  | .clear => { s with ring := { r with dirty := false }, reader := Reader.idle }

/-- A complete call of the writer side, the start of a flash (its load of the head), or the
next access of the flash in progress. -/
inductive ReadLabel where
  | dispatch (m : LogArgs)
  | flash (writer : Bool)
  | access

def readStep (s : ReadSys n) : ReadLabel → Option (ReadSys n)
  | .dispatch m => (logDispatch s.ring m).map fun r =>
      { s with ring := r, dispatched := if m.Accepted then s.dispatched ++ [m] else s.dispatched }
  | .flash writer =>
    if s.reader.pc = .idle then some { s with reader := ⟨.loadTail,writer,s.ring.head,0,[],[]⟩ } else none
  | .access => if s.reader.pc = .idle then none else some s.access

end EmbedTemplate.Logging
