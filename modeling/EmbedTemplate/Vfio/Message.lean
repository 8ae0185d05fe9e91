import EmbedTemplate.Library.Layout
import EmbedTemplate.Vfio.Dissector

/-! # Messages and what the dissector makes of them

A well-formed message fixes its header fields. One packet that starts at a message is shown
as its whole messages, with the flag of the first, and a rest of at least a header goes into
the fragment record.
-/
namespace EmbedTemplate.Vfio
open Bytes Layout

/-- A well-formed message: the size field gives its length and the command is a valid one. -/
structure Message where
  bytes : List UInt8
  size_eq : leUint bytes 4 4 = bytes.length
  hdr : validHdr (leUint bytes 2 2) bytes.length = true

def Message.size (m : Message) : ℕ := m.bytes.length

/-- The request/reply flag in the flags word. -/
def Message.isReply (m : Message) : Bool := replyFlag (leUint m.bytes 8 4)

/-- What the dissector is to show of a message. -/
def Message.parsed (m : Message) : Parsed := parseProtoFields (some m.isReply) m.bytes 0 m.size

theorem Message.hdrLen_le (m : Message) : hdrLen ≤ m.size := by
  have h := m.hdr
  rw [validHdr,Bool.and_eq_true,decide_eq_true_eq,decide_eq_true_eq] at h
  exact h.2.1

theorem Message.le_max (m : Message) : m.size ≤ maxMsgSize := by
  have h := m.hdr
  rw [validHdr,Bool.and_eq_true,decide_eq_true_eq,decide_eq_true_eq] at h
  exact h.2.2

section Header
variable {xs ys : List UInt8} {offset len : ℕ}

theorem leUint_take {k : ℕ} (h : offset + len ≤ k) : leUint (xs.take k) offset len = leUint xs offset len := by
  rw [leUint,leUint,List.drop_take,List.take_take,Nat.min_eq_left (by omega)]

theorem leUint_congr (hhdr : xs.take hdrLen = ys.take hdrLen) (h : offset + len ≤ hdrLen) :
    leUint xs offset len = leUint ys offset len := by
  rw [← leUint_take h,hhdr,leUint_take h]

theorem leUint_append (h : hdrLen ≤ xs.length) (hfield : offset + len ≤ hdrLen) :
    leUint (xs ++ ys) offset len = leUint xs offset len :=
  leUint_congr (List.take_append_of_le_length h) hfield

/-- The bytes begin with the header of the message. -/
def Starts (xs : List UInt8) (m : Message) : Prop := xs.take hdrLen = m.bytes.take hdrLen

theorem starts_append (m : Message) : Starts (m.bytes ++ ys) m := List.take_append_of_le_length m.hdrLen_le

theorem starts_of_append {m : Message} {zs : List UInt8} (h : xs ++ ys = m.bytes ++ zs) (hlen : hdrLen ≤ xs.length) :
    Starts xs m := by
  have htake : (xs ++ ys).take hdrLen = xs.take hdrLen := List.take_append_of_le_length hlen
  rw [Starts,← htake,h]
  exact starts_append m

section Starts
variable {m : Message} (h : Starts xs m)
include h

theorem Starts.msgSize : leUint xs 4 4 = m.size := (leUint_congr h (by decide)).trans m.size_eq

theorem Starts.validHdr : validHdr (leUint xs 2 2) (leUint xs 4 4) = true := by
  rw [h.msgSize,leUint_congr h (by decide : 2 + 2 ≤ hdrLen)]
  exact m.hdr

theorem Starts.replyFlag : replyFlag (leUint xs 8 4) = m.isReply :=
  congrArg Vfio.replyFlag (leUint_congr h (by decide))

end Starts

theorem parseProtoFields_append (m : Message) (isReply : Bool) :
    parseProtoFields (some isReply) (m.bytes ++ ys) 0 m.size = parseProtoFields (some isReply) m.bytes 0 m.size := by
  have hfield {offset len : ℕ} (h : offset + len ≤ hdrLen) :
      leUint (m.bytes ++ ys) offset len = leUint m.bytes offset len := leUint_append m.hdrLen_le h
  have hbytes : ((m.bytes ++ ys).drop 0).take m.size = (m.bytes.drop 0).take m.size :=
    List.take_append_of_le_length le_rfl
  simp only [parseProtoFields,Option.getD_some,hbytes,hfield (by decide : 0 + 0 + 2 ≤ hdrLen),
    hfield (by decide : 0 + 2 + 2 ≤ hdrLen),hfield (by decide : 0 + 4 + 4 ≤ hdrLen),
    hfield (by decide : 0 + 8 + 4 ≤ hdrLen),hfield (by decide : 0 + 12 + 4 ≤ hdrLen)]

end Header

section Scan
variable {m : Message} {isReply : Bool} {rounds : ℕ} {rest : List UInt8}

theorem scan_whole (m : Message) :
    (scan false true (some isReply) (rounds + 1) (m.bytes ++ rest)).parsed =
        parseProtoFields (some isReply) m.bytes 0 m.size :: (scan false true (some isReply) rounds rest).parsed ∧
      (scan false true (some isReply) (rounds + 1) (m.bytes ++ rest)).frag =
        (scan false true (some isReply) rounds rest).frag := by
  have hs : Starts (m.bytes ++ rest) m := starts_append m
  have hlen := m.hdrLen_le
  have hdrop : (m.bytes ++ rest).drop m.size = rest := List.drop_left
  rw [Message.size] at hlen
  rw [scan,if_neg (by rw [List.length_append]; omega)]
  dsimp only
  rw [if_neg (not_not_intro hs.validHdr),hs.msgSize,
    if_neg (by rw [List.length_append,Message.size]; omega),hdrop,parseProtoFields_append]
  exact ⟨rfl,rfl⟩

/-- The rest of a packet that is at least a header goes into the fragment record. -/
theorem scan_part (hs : Starts rest m) (hlen : hdrLen ≤ rest.length) (hpart : rest.length < m.size) {isFullMsg : Bool} :
    (scan false isFullMsg (some isReply) (rounds + 1) rest).parsed = [] ∧
      (scan false isFullMsg (some isReply) (rounds + 1) rest).frag =
        if isFullMsg then some ⟨rest,m.size,m.isReply⟩ else none := by
  rw [scan,if_neg (Nat.not_lt.mpr hlen)]
  dsimp only
  rw [if_neg (not_not_intro hs.validHdr),hs.msgSize,if_pos hpart,hs.replyFlag]
  exact ⟨rfl,by cases isFullMsg <;> rfl⟩

/-- The messages that a packet holds as a whole are all shown with the packet's flag. -/
theorem scan_messages (done : List Message) (tail : List UInt8)
    (hrounds : (done.flatMap Message.bytes ++ tail).length ≤ rounds) :
    ∃ left, tail.length ≤ left ∧
      (scan false true (some isReply) rounds (done.flatMap Message.bytes ++ tail)).parsed =
        (done.map fun m => parseProtoFields (some isReply) m.bytes 0 m.size) ++
          (scan false true (some isReply) left tail).parsed ∧
      (scan false true (some isReply) rounds (done.flatMap Message.bytes ++ tail)).frag =
        (scan false true (some isReply) left tail).frag := by
  induction done generalizing rounds with
  | nil => exact ⟨rounds,hrounds,rfl,rfl⟩
  | cons m done ih =>
    have hlen := m.hdrLen_le
    rw [List.flatMap_cons,List.append_assoc] at hrounds ⊢
    obtain ⟨rounds,rfl⟩ : ∃ k, rounds = k + 1 := ⟨rounds - 1,by
      rw [List.length_append] at hrounds
      rw [Message.size,hdrLen] at hlen
      omega⟩
    obtain ⟨hparsed,hfrag⟩ := scan_whole m
    have hrest : (done.flatMap Message.bytes ++ tail).length ≤ rounds := by
      rw [List.length_append] at hrounds
      rw [Message.size,hdrLen] at hlen
      omega
    obtain ⟨left,hleft,hparsed',hfrag'⟩ := ih hrest
    exact ⟨left,hleft,by rw [hparsed,hparsed']; rfl,by rw [hfrag,hfrag']⟩

end Scan

end EmbedTemplate.Vfio
