import EmbedTemplate.Logging.Dispatch

/-! # The reader side of the log ring

`log_flash` as it runs when nothing interrupts it. The parts that load from the
ring are separate definitions, shared with the interruptible reader.
-/
namespace EmbedTemplate.Logging
open Circular Bytes
variable {n : BufSize}

/-- One invocation of the writer callback. The message is the content of
`read_data.buf` up to and including the terminator at `hdr.len`. -/
structure LogLine where
  domain : UInt8
  entity : UInt8
  level : UInt8
  ts : ℕ
  msg : List UInt8
  len : ℕ

/-- The header load: a 64-bit and a 32-bit load, or a wrapped copy. -/
def loadHdr (n : BufSize) (data : ℕ → UInt8) (tail : ℕ) : LogHdr :=
  let tid := index n tail
  if tid ≤ n.val - hdrSize then LogHdr.ofBytes (get data tid 8 ++ get data (tid + 8) 4)
  else LogHdr.ofBytes (copyFromRing n data tail hdrSize)

/-- The first payload load: one 32-bit word right behind the header, taken at its
linear address wherever the header lies. -/
def loadFirst (n : BufSize) (data : ℕ → UInt8) (tail : ℕ) : List UInt8 :=
  get data (index n tail + hdrSize) 4

/-- The load of the payload from the fifth byte on. -/
def loadRest (n : BufSize) (data : ℕ → UInt8) (tail len : ℕ) : List UInt8 :=
  if 4 < len then copyFromRing n data (tail + hdrSize + 4) (len - 4) else []

/-- The callback arguments made from a header and the loaded payload. -/
def LogHdr.line (hdr : LogHdr) (payload : List UInt8) : LogLine where
  domain := hdr.dom
  entity := hdr.ent
  level := hdr.lvl
  ts := hdr.tsHigh * 2 ^ 32 + hdr.tsLow
  msg := payload.take hdr.len.toNat ++ [0]
  len := hdr.len.toNat

/-- The scan for the next sealed, 8-aligned tag below `head`. -/
def syncSearch (n : BufSize) (data : ℕ → UInt8) : ℕ → ℕ → ℕ
  | 0, tail => tail
  | left + 1, tail =>
    if data (index n tail) = logTagSeal ∧ index n tail &&& 7 = 0 then tail
    else syncSearch n data left (tail + 1)

/-- The size the reader steps over. -/
def LogHdr.size (hdr : LogHdr) : ℕ := hdrSize + hdr.len.toNat + hdr.pad.toNat

/-- A round from the header load on: the ring and the local tail after it, and what
was consumed. A consumed record yields its callback invocation, or nothing without a
writer. -/
def deliver (writer : Bool) (r : LogRing n) (tail : ℕ) :
    LogRing n × ℕ × List (Option LogLine) :=
  let hdr := loadHdr n r.data tail
  if r.tail ≠ tail then (r,r.tail,[])
  else
    let payload := loadFirst n r.data tail ++ loadRest n r.data tail hdr.len.toNat
    if r.data (index n tail) ≠ logTagSeal then (r,r.tail,[])
    else
      let out := if writer then some (hdr.line payload) else none
      let r := { r with data := put r.data (index n tail) [logTagFree] }
      if r.tail ≤ tail then ({ r with tail := u32 (tail + hdr.size) },u32 (tail + hdr.size),[out])
      else (r,r.tail,[out])

/-- One round of the delivery loop, or nothing when the loop is left. -/
def flashRound (writer : Bool) (head : ℕ) (r : LogRing n) (tail : ℕ) :
    Option (LogRing n × ℕ × List (Option LogLine)) :=
  if tail < head then
    if r.tail > tail then some (r,r.tail,[])
    else if r.data (index n tail) ≠ logTagSeal then
      if r.tail > tail then some (r,r.tail,[])
      else
        let found := syncSearch n r.data (head - tail) tail
        if found < head then some (deliver writer { r with tail := found } found) else none
    else some (deliver writer r tail)
  else none

/-- The delivery loop within a number of rounds. -/
def flashLoop (writer : Bool) (head : ℕ) :
    ℕ → LogRing n → ℕ → Option (LogRing n × List (Option LogLine))
  | 0, _, _ => none
  | rounds + 1, r, tail =>
    match flashRound writer head r tail with
    | none => some (r,[])
    | some (r,tail,outs) => (flashLoop writer head rounds r tail).map fun (r,rest) => (r,outs ++ rest)

/-- `log_flash` without interruption. Every round but the last consumes a record, so
as many rounds as the ring has bytes suffice. -/
def logFlash (writer : Bool) (r : LogRing n) : Option (LogRing n × List (Option LogLine)) :=
  (flashLoop writer r.head n.val r r.tail).map fun (r,outs) => ({ r with dirty := false },outs)

def logIsDirty (r : LogRing n) : Bool := r.dirty

end EmbedTemplate.Logging
