import EmbedTemplate.Library.Circular
import EmbedTemplate.Library.Bytes

/-! # The log ring and its byte-level accesses

The data model of `log_infra.c` and the functions that move bytes in and out of
the ring. Memory is addressed from `log_buf.data`, so the addresses from the ring
size on are the guard words that follow it in `log_buf`. Their contents, like those
of the ring itself, are whatever the section holds at start-up.
-/
namespace EmbedTemplate.Logging
open Circular Bytes

/-- `LOG_BUF_SIZE`: a power of two of at least 512 bytes that a 32-bit size holds. -/
structure BufSize where
  val : ℕ
  pow : ∃ k, 9 ≤ k ∧ k ≤ 31 ∧ val = 2 ^ k

/-- `log_ring_t` and `log_stats_atomic_t`. -/
structure LogRing (n : BufSize) where
  data : ℕ → UInt8
  head : ℕ
  tail : ℕ
  dirty : Bool
  sum : ℕ
  dropCnt : ℕ

def logTagSeal : UInt8 := 0xAC
def logTagFree : UInt8 := 0xDF
def maxDataSize : ℕ := 255
def hdrSize : ℕ := 12

/-- `ALIGN_UP` on a 32-bit operand. -/
def alignUp (n align : ℕ) : ℕ := u32 (n + align - 1) &&& (2 ^ 32 - 1 - (align - 1))

variable {n : BufSize}

def BufSize.mask (n : BufSize) : ℕ := n.val - 1

/-- `pos & log_ring.mask` for a 32-bit position. -/
def index (n : BufSize) (pos : ℕ) : ℕ := u32 pos &&& n.mask

/-- `log_hdr_t`. -/
structure LogHdr where
  tag : UInt8
  lvl : UInt8
  dom : UInt8
  ent : UInt8
  len : UInt8
  pad : UInt8
  tsHigh : ℕ
  tsLow : ℕ

/-- The twelve bytes of a header in memory order. -/
def LogHdr.toBytes (h : LogHdr) : List UInt8 :=
  [h.tag,h.lvl,h.dom,h.ent,h.len,h.pad] ++ leBytes 2 h.tsHigh ++ leBytes 4 h.tsLow

def LogHdr.ofBytes (bs : List UInt8) : LogHdr where
  tag := bs.getD 0 0
  lvl := bs.getD 1 0
  dom := bs.getD 2 0
  ent := bs.getD 3 0
  len := bs.getD 4 0
  pad := bs.getD 5 0
  tsHigh := leNat ((bs.drop 6).take 2)
  tsLow := leNat ((bs.drop 8).take 4)

/-- The remainder copies of `copy_u64`: 4, 2 and 1 bytes. -/
def copyRemainder (m : ℕ → UInt8) (d : ℕ) (src : List UInt8) : ℕ → UInt8 :=
  let (m,d,src) := if 4 ≤ src.length then (put m d (src.take 4),d + 4,src.drop 4) else (m,d,src)
  let (m,d,src) := if 2 ≤ src.length then (put m d (src.take 2),d + 2,src.drop 2) else (m,d,src)
  if 0 < src.length then put m d (src.take 1) else m

/-- `copy_u64` to address `d`: eight bytes at a time, then the remainder. -/
def copyU64 (m : ℕ → UInt8) (d : ℕ) : List UInt8 → ℕ → UInt8
  | b0 :: b1 :: b2 :: b3 :: b4 :: b5 :: b6 :: b7 :: rest =>
    copyU64 (put m d [b0,b1,b2,b3,b4,b5,b6,b7]) (d + 8) rest
  | src => copyRemainder m d src

def copyToRing (n : BufSize) (m : ℕ → UInt8) (startPos : ℕ) (src : List UInt8) : ℕ → UInt8 :=
  let hid := index n startPos
  let spaceToEnd := n.val - hid
  if src.length ≤ spaceToEnd then copyU64 m hid src
  else copyU64 (copyU64 m hid (src.take spaceToEnd)) 0 (src.drop spaceToEnd)

/-- The bytes that `copy_from_ring` leaves in its destination. -/
def copyFromRing (n : BufSize) (m : ℕ → UInt8) (startPos len : ℕ) : List UInt8 :=
  let tid := index n startPos
  let spaceToEnd := n.val - tid
  if len ≤ spaceToEnd then get m tid len
  else get m tid spaceToEnd ++ get m 0 (len - spaceToEnd)

/-- `zero_padding`: the fallthrough switch over single bytes. -/
def zeroPadding (n : BufSize) (m : ℕ → UInt8) (endPos padLen : ℕ) : ℕ → UInt8 :=
  let m := if padLen = 3 then put m (index n (endPos + 2)) [0] else m
  let m := if padLen = 3 ∨ padLen = 2 then put m (index n (endPos + 1)) [0] else m
  if padLen = 3 ∨ padLen = 2 ∨ padLen = 1 then put m (index n endPos) [0] else m

/-- `aligned_zero_padding`: up to a 4-byte boundary by one and two bytes, then one
word, then the fallthrough switch over what is left. -/
def alignedZeroPadding (n : BufSize) (m : ℕ → UInt8) (endPos padLen : ℕ) : ℕ → UInt8 :=
  let hid := index n endPos
  if hid + padLen > n.val then zeroPadding n m endPos padLen
  else
    let misalignment := hid &&& 3
    let alignBytes := (4 - misalignment) &&& 3
    let (m,hid,padLen) :=
      if alignBytes ≤ padLen then
        let (m,hid) := if alignBytes &&& 1 ≠ 0 then (put m hid [0],hid + 1) else (m,hid)
        let (m,hid) := if 2 ≤ alignBytes then (put m hid [0,0],hid + 2) else (m,hid)
        (m,hid,padLen - alignBytes)
      else (m,hid,padLen)
    let (m,hid,padLen) :=
      if 4 ≤ padLen then (put m hid [0,0,0,0],hid + 4,padLen - 4) else (m,hid,padLen)
    let m := if padLen = 3 then put m (hid + 2) [0] else m
    let m := if padLen = 3 ∨ padLen = 2 then put m (hid + 1) [0] else m
    if padLen = 3 ∨ padLen = 2 ∨ padLen = 1 then put m hid [0] else m

end EmbedTemplate.Logging
