import EmbedTemplate.Logging.Ring

/-! # The writer side of the log ring

`log_dispatch` formats a message, makes room by dropping the oldest records,
reserves a range and fills it before the seal makes it visible. The steps of the
reservation are separate definitions: a call that nothing interrupts runs them in
sequence here, the interruptible writer takes them one at a time.
-/
namespace EmbedTemplate.Logging
open Circular Bytes
variable {n : BufSize}

/-- The arguments of one `log_dispatch` call: the formatted text stands for format
and arguments, `ts` is what `get_timestamp48` returns during the call (every port
masks it to 48 bits), and `stack` is what the uninitialised `write_data.buf` holds. -/
structure LogArgs where
  domain : UInt8
  entity : UInt8
  level : UInt8
  ts : Fin (2 ^ 48)
  text : List UInt8
  stack : ℕ → UInt8

/-- `vsnprintf` into a buffer of `size` bytes: the would-be length, or a negative
result when `int` cannot hold it, and the truncated, terminated text. -/
def vsnprintf (size : ℕ) (buf : ℕ → UInt8) (text : List UInt8) : ℤ × (ℕ → UInt8) :=
  (if text.length < 2 ^ 31 then text.length else -1, put buf 0 (text.take (size - 1) ++ [0]))

/-- The `len` that `log_dispatch` makes of the formatter's result, absent when it gives
up at once. -/
def clampLen (ret : ℤ) : Option ℕ := if ret ≤ 0 then none else some (min ret maxDataSize).toNat

def LogArgs.len? (m : LogArgs) : Option ℕ := clampLen (vsnprintf maxDataSize m.stack m.text).1

def LogArgs.buf (m : LogArgs) : ℕ → UInt8 := (vsnprintf maxDataSize m.stack m.text).2

def totSize (len : ℕ) : ℕ := alignUp (hdrSize + len) 8
def padLen (len : ℕ) : ℕ := totSize len - (hdrSize + len)

/-- `(head + tot_size - tail) > log_ring.size` in 32-bit arithmetic. -/
def isFull (n : BufSize) (head tail tot : ℕ) : Bool := u32 (head + tot + 2 ^ 32 - tail) > n.val

/-- The header of the record at the tail, as the drop loop reads it. -/
def oldHdr (n : BufSize) (data : ℕ → UInt8) (tail : ℕ) : LogHdr :=
  if index n tail ≤ n.val - hdrSize then LogHdr.ofBytes (get data (index n tail) hdrSize)
  else LogHdr.ofBytes (copyFromRing n data tail hdrSize)

/-- Where the drop loop wants to move the tail behind a sealed record: by the size in its
header. Such a move counts as a drop. -/
def sealedNext (n : BufSize) (data : ℕ → UInt8) (tail : ℕ) : ℕ × Bool :=
  let hdr := oldHdr n data tail
  (u32 (tail + hdrSize + hdr.len.toNat + hdr.pad.toNat),true)

/-- Anything else is stepped over by eight bytes, and not counted. -/
def unsealedNext (tail : ℕ) : ℕ × Bool := (alignUp (tail + 8) 8,false)

def nextTail (n : BufSize) (data : ℕ → UInt8) (tail : ℕ) : ℕ × Bool :=
  if data (index n tail) = logTagSeal then sealedNext n data tail else unsealedNext tail

/-- The tail exchange of the drop loop when it finds the tail it expects. -/
def LogRing.moveTail (r : LogRing n) (next : ℕ × Bool) : LogRing n :=
  { r with tail := next.1, dropCnt := if next.2 then u32 (r.dropCnt + 1) else r.dropCnt }

/-- The drop loop of a call that nothing interrupts, within a number of rounds. -/
def dropLoop (tot : ℕ) : ℕ → LogRing n → Option (LogRing n)
  | 0, _ => none
  | rounds + 1, r =>
    if isFull n r.head r.tail tot then dropLoop tot rounds (r.moveTail (nextTail n r.data r.tail))
    else some r

/-- The head exchange. -/
def LogRing.reserve (r : LogRing n) (tot : ℕ) : LogRing n := { r with head := u32 (r.head + tot) }

/-- The header of a message: it is written unsealed. -/
def LogArgs.hdr (m : LogArgs) (len : ℕ) : LogHdr where
  tag := logTagFree
  lvl := m.level
  dom := m.domain
  ent := m.entity
  len := UInt8.ofNat len
  pad := UInt8.ofNat (padLen len)
  tsHigh := u16 (m.ts.val / 2 ^ 32)
  tsLow := u32 m.ts.val

/-- The header store: a 64-bit and a 32-bit store, or a wrapped copy. -/
def storeHdr (n : BufSize) (data : ℕ → UInt8) (startPos : ℕ) (hdr : LogHdr) : ℕ → UInt8 :=
  let hid := index n startPos
  if hid ≤ n.val - hdrSize then
    put (put data hid (hdr.toBytes.take 8)) (hid + 8) (hdr.toBytes.drop 8)
  else copyToRing n data startPos hdr.toBytes

/-- The payload stores: the first four bytes, the rest, and the padding. -/
def storePayload (n : BufSize) (data : ℕ → UInt8) (startPos len : ℕ) (buf : ℕ → UInt8) :
    ℕ → UInt8 :=
  let hid := index n startPos
  let data :=
    if hid ≤ n.val - totSize len then put data (hid + hdrSize) (get buf 0 4)
    else if hid ≤ n.val - (hdrSize + 4) then put data (hid + hdrSize) (get buf 0 4)
    else copyToRing n data (startPos + hdrSize) (get buf 0 4)
  let data := if 4 < len then copyToRing n data (startPos + hdrSize + 4) (get buf 4 (len - 4)) else data
  alignedZeroPadding n data (startPos + hdrSize + len) (padLen len)

/-- The seal store. -/
def storeSeal (n : BufSize) (data : ℕ → UInt8) (startPos : ℕ) : ℕ → UInt8 :=
  put data (index n startPos) [logTagSeal]

/-- Everything a call does after its reservation at `startPos`. -/
def LogRing.fill (r : LogRing n) (startPos len : ℕ) (m : LogArgs) : LogRing n :=
  { r with
    data := storeSeal n (storePayload n (storeHdr n r.data startPos (m.hdr len)) startPos len m.buf) startPos
    dirty := true
    sum := u32 (r.sum + 1) }

/-- `log_dispatch` without interruption: every exchange finds what it expects. The
drop loop gets as many rounds as the ring has bytes. -/
def logDispatch (r : LogRing n) (m : LogArgs) : Option (LogRing n) :=
  match m.len? with
  | none => some r
  | some len =>
    (dropLoop (totSize len) n.val r).map fun r =>
      (r.reserve (totSize len)).fill r.head len m

def logGetStats (r : LogRing n) : ℕ × ℕ := (r.sum,r.dropCnt)

end EmbedTemplate.Logging
