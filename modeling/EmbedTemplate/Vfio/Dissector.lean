import EmbedTemplate.Library.Bytes
import Mathlib.Logic.Function.Basic

/-! # The vfio-user dissector

`vfio_user.lua`: captured segments go through `process_msg_frags`, which keeps the state of
each packet and one record for a message that is still incomplete, and through the scan for
headers of the dissector itself.
-/
namespace EmbedTemplate.Vfio
open Bytes

def hdrLen : ℕ := 16
/-- 1 MiB. -/
def maxMsgSize : ℕ := 1048576

/-- `tvbuf(offset, len):le_uint()`. -/
def leUint (tvbuf : List UInt8) (offset len : ℕ) : ℕ := leNat ((tvbuf.drop offset).take len)

/-- `(flags & 1) == 1`. -/
def replyFlag (flags : ℕ) : Bool := flags &&& 1 == 1

/-- What `parse_proto_fields` shows of a message: the bytes that it covers and the fields of
its header. -/
structure Parsed where
  bytes : List UInt8
  isReply : Bool
  msgId : ℕ
  cmd : ℕ
  msgSize : ℕ
  flags : ℕ
  errNo : ℕ
  deriving DecidableEq

def parseProtoFields (forceReplyState : Option Bool) (tvbuf : List UInt8) (offset length : ℕ) : Parsed where
  bytes := (tvbuf.drop offset).take length
  isReply := forceReplyState.getD (replyFlag (leUint tvbuf (offset + 8) 1))
  msgId := leUint tvbuf (offset + 0) 2
  cmd := leUint tvbuf (offset + 2) 2
  msgSize := leUint tvbuf (offset + 4) 4
  flags := leUint tvbuf (offset + 8) 4
  errNo := leUint tvbuf (offset + 12) 4

/-- `packet_states[f_num]`. The buffer of a message that is still incomplete is that of the
fragment record. -/
inductive PacketState where
  | zeroLen
  | subLen
  | fullMsg (isReply : Bool)
  | fragHdr (expected : ℕ) (isReply : Bool)
  | fragMsg (expected : ℕ) (isReply : Bool)
  | reassembled (buffer : List UInt8) (length : ℕ) (isReply : Bool)

def PacketState.isReply : PacketState → Option Bool
  | .zeroLen => none
  | .subLen => none
  | .fullMsg isReply => isReply
  | .fragHdr _ isReply => isReply
  | .fragMsg _ isReply => isReply
  | .reassembled _ _ isReply => isReply

def PacketState.isFullMsg : PacketState → Bool
  | .fullMsg _ => true
  | _ => false

/-- The fragment record `frag_hdr`. -/
structure Frag where
  buffer : List UInt8
  expected : ℕ
  isReply : Bool

structure Dissector where
  packetStates : ℕ → Option PacketState
  fragHdr : Option Frag

def Dissector.init : Dissector := ⟨fun _ => none,none⟩

def Dissector.set (d : Dissector) (fNum : ℕ) (state : PacketState) : Dissector :=
  { d with packetStates := Function.update d.packetStates fNum (some state) }

def processMsgFrags (d : Dissector) (visited : Bool) (tvbuf : List UInt8) (fNum : ℕ) : Dissector :=
  if visited then d
  else
    let pktlen := tvbuf.length
    let start :=
      if pktlen = 0 then d.set fNum .zeroLen
      else if pktlen < hdrLen then d.set fNum .subLen
      else
        let msgSize := leUint tvbuf 4 4
        let replyState := replyFlag (leUint tvbuf 8 4)
        if pktlen < msgSize ∧ msgSize ≤ maxMsgSize then
          { d.set fNum (.fragHdr msgSize replyState) with fragHdr := some ⟨tvbuf,msgSize,replyState⟩ }
        else d.set fNum (.fullMsg replyState)
    match d.fragHdr with
    | some frag =>
      if frag.expected > frag.buffer.length then
        let buffer := frag.buffer ++ tvbuf
        if buffer.length ≥ frag.expected then
          { d.set fNum (.reassembled buffer frag.expected frag.isReply) with fragHdr := none }
        else
          { d.set fNum (.fragMsg frag.expected frag.isReply) with fragHdr := some { frag with buffer := buffer } }
      else start
    | none => start

/-- `is_valid_hdr`. -/
def validHdr (cmd msgSize : ℕ) : Bool :=
  decide (1 ≤ cmd ∧ cmd ≤ 18 ∧ cmd ≠ 14) && decide (hdrLen ≤ msgSize ∧ msgSize ≤ maxMsgSize)

/-- What the scan of a packet leaves: the messages it has parsed, the fragment record that it
starts, where it has stopped and whether it has found a header. -/
structure Scan where
  parsed : List Parsed
  frag : Option Frag
  offset : ℕ
  hdrLocked : Bool

/-- The scan loop over the bytes from its offset on. Every round passes at least one byte, so
as many rounds as there are bytes suffice. -/
def scan (visited isFullMsg : Bool) (isReply : Option Bool) : ℕ → List UInt8 → Scan
  | 0, _ => ⟨[],none,0,false⟩
  | rounds + 1, rest =>
    if rest.length < hdrLen then ⟨[],none,0,false⟩
    else
      let cmd := leUint rest 2 2
      let msgSize := leUint rest 4 4
      let flags := leUint rest 8 4
      if ¬validHdr cmd msgSize then
        let r := scan visited isFullMsg isReply rounds (rest.drop 1)
        { r with offset := 1 + r.offset }
      else if rest.length < msgSize then
        { parsed := []
          frag := if !visited && isFullMsg then some ⟨rest,msgSize,replyFlag flags⟩ else none
          offset := rest.length
          hdrLocked := true }
      else
        let r := scan visited isFullMsg isReply rounds (rest.drop msgSize)
        { r with
          parsed := parseProtoFields isReply rest 0 msgSize :: r.parsed
          offset := msgSize + r.offset
          hdrLocked := true }

/-- `vfio_user_proto.dissector`: the messages it parses and the number of bytes it returns. -/
def dissector (d : Dissector) (visited : Bool) (tvbuf : List UInt8) (fNum : ℕ) : Dissector × List Parsed × ℕ :=
  let pktlen := tvbuf.length
  let d := processMsgFrags d visited tvbuf fNum
  match d.packetStates fNum with
  | none => (d,[],0)
  | some .zeroLen => (d,[],0)
  | some (.reassembled buffer length isReply) => (d,[parseProtoFields (some isReply) buffer 0 length],pktlen)
  | some (.fragMsg ..) => (d,[],pktlen)
  | some state =>
    let r := scan visited state.isFullMsg state.isReply pktlen tvbuf
    let d :=
      match r.frag with
      | some frag => { d.set fNum (.fragHdr frag.expected frag.isReply) with fragHdr := some frag }
      | none => d
    (d,r.parsed,if !r.hdrLocked && decide (0 < r.offset) then pktlen else r.offset)

/-- The segments of a capture in order, each for the first time: the messages parsed. -/
def feed (d : Dissector) (fNum : ℕ) : List (List UInt8) → List Parsed
  | [] => []
  | seg :: segs =>
    let r := dissector d false seg fNum
    r.2.1 ++ feed r.1 (fNum + 1) segs

/-- How the fragment record goes through a packet that starts afresh. -/
def fresh (frag : Option Frag) (seg : List UInt8) : Option Frag × List Parsed :=
  if seg.length < hdrLen then (frag,[])
  else
    let msgSize := leUint seg 4 4
    let replyState := replyFlag (leUint seg 8 4)
    if seg.length < msgSize ∧ msgSize ≤ maxMsgSize then
      (some ⟨seg,msgSize,replyState⟩,(scan false false (some replyState) seg.length seg).parsed)
    else
      let r := scan false true (some replyState) seg.length seg
      (r.frag.or frag,r.parsed)

/-- The dissector in terms of its fragment record alone. -/
def step (frag : Option Frag) (seg : List UInt8) : Option Frag × List Parsed :=
  match frag with
  | some f =>
    if f.buffer.length < f.expected then
      if f.expected ≤ (f.buffer ++ seg).length then
        (none,[parseProtoFields (some f.isReply) (f.buffer ++ seg) 0 f.expected])
      else (some { f with buffer := f.buffer ++ seg },[])
    else fresh frag seg
  | none => fresh frag seg

def reassemble (frag : Option Frag) : List (List UInt8) → List Parsed
  | [] => []
  | seg :: segs => (step frag seg).2 ++ reassemble (step frag seg).1 segs

/-- Only a packet that is taken for a full message starts a fragment record in the scan. -/
theorem scan_frag_none (isReply : Option Bool) (rounds : ℕ) (rest : List UInt8) :
    (scan false false isReply rounds rest).frag = none := by
  induction rounds generalizing rest with
  | zero => rfl
  | succ rounds ih =>
    rw [scan]
    split
    · rfl
    · dsimp only
      split
      · exact ih _
      · split
        · rfl
        · exact ih _

theorem scan_short {visited isFullMsg : Bool} {isReply : Option Bool} {rounds : ℕ} {rest : List UInt8}
    (h : rest.length < hdrLen) : scan visited isFullMsg isReply rounds rest = ⟨[],none,0,false⟩ := by
  cases rounds with
  | zero => rfl
  | succ rounds => rw [scan,if_pos h]

theorem dissector_of_fullMsg {d d' : Dissector} {seg : List UInt8} {fNum : ℕ} {isReply : Bool}
    (h : processMsgFrags d false seg fNum = d') (hstate : d'.packetStates fNum = some (.fullMsg isReply)) :
    (dissector d false seg fNum).1.fragHdr =
        (scan false true (some isReply) seg.length seg).frag.or d'.fragHdr ∧
      (dissector d false seg fNum).2.1 = (scan false true (some isReply) seg.length seg).parsed := by
  simp only [dissector,h,hstate,PacketState.isFullMsg,PacketState.isReply]
  refine ⟨?_,trivial⟩
  cases (scan false true (some isReply) seg.length seg).frag with
  | none => rfl
  | some frag => rfl

theorem dissector_of_fragHdr {d d' : Dissector} {seg : List UInt8} {fNum expected : ℕ} {isReply : Bool}
    (h : processMsgFrags d false seg fNum = d') (hstate : d'.packetStates fNum = some (.fragHdr expected isReply)) :
    (dissector d false seg fNum).1.fragHdr = d'.fragHdr ∧
      (dissector d false seg fNum).2.1 = (scan false false (some isReply) seg.length seg).parsed := by
  have hfrag := scan_frag_none (some isReply) seg.length seg
  simp only [dissector,h,hstate,PacketState.isFullMsg,PacketState.isReply]
  rw [hfrag]
  exact ⟨rfl,trivial⟩

theorem dissector_fresh (d : Dissector) {seg : List UInt8} (hseg : seg ≠ []) (fNum : ℕ)
    (hfrag : ∀ frag, d.fragHdr = some frag → frag.expected ≤ frag.buffer.length) :
    (dissector d false seg fNum).1.fragHdr = (fresh d.fragHdr seg).1 ∧
      (dissector d false seg fNum).2.1 = (fresh d.fragHdr seg).2 := by
  have hlen : seg.length ≠ 0 := fun h => hseg (List.length_eq_zero_iff.mp h)
  obtain ⟨start,hstart⟩ : ∃ start, processMsgFrags d false seg fNum = start := ⟨_,rfl⟩
  have hprocess := hstart
  unfold processMsgFrags at hprocess
  rw [if_neg Bool.false_ne_true] at hprocess
  dsimp only at hprocess
  rw [if_neg hlen] at hprocess
  have hother : (if seg.length < hdrLen then d.set fNum .subLen
      else if seg.length < leUint seg 4 4 ∧ leUint seg 4 4 ≤ maxMsgSize then
        { d.set fNum (.fragHdr (leUint seg 4 4) (replyFlag (leUint seg 8 4))) with
          fragHdr := some ⟨seg,leUint seg 4 4,replyFlag (leUint seg 8 4)⟩ }
      else d.set fNum (.fullMsg (replyFlag (leUint seg 8 4)))) = start := by
    cases hf : d.fragHdr with
    | none =>
      rw [hf] at hprocess
      exact hprocess
    | some frag =>
      rw [hf] at hprocess
      dsimp only at hprocess
      rwa [if_neg (Nat.not_lt.mpr (hfrag frag hf))] at hprocess
  rw [fresh]
  split at hother
  next hshort =>
    subst hother
    rw [if_pos hshort]
    simp [dissector,hstart,Dissector.set,PacketState.isFullMsg,scan_short hshort]
  next hshort =>
    rw [if_neg hshort]
    dsimp only
    split at hother
    next hpart =>
      rw [if_pos hpart]
      subst hother
      exact dissector_of_fragHdr hstart (Function.update_self ..)
    next hpart =>
      rw [if_neg hpart]
      subst hother
      have hfull : processMsgFrags d false seg fNum = d.set fNum _ := hstart
      have hspec := dissector_of_fullMsg hfull (Function.update_self ..)
      exact hspec

theorem dissector_eq (d : Dissector) {seg : List UInt8} (hseg : seg ≠ []) (fNum : ℕ) :
    (dissector d false seg fNum).1.fragHdr = (step d.fragHdr seg).1 ∧
      (dissector d false seg fNum).2.1 = (step d.fragHdr seg).2 := by
  cases hf : d.fragHdr with
  | none =>
    have hfresh := dissector_fresh d hseg fNum (by simp [hf])
    rw [hf] at hfresh
    exact hfresh
  | some frag =>
    by_cases hopen : frag.buffer.length < frag.expected
    · rw [step,if_pos hopen]
      by_cases hdone : frag.expected ≤ (frag.buffer ++ seg).length
      · rw [if_pos hdone]
        simp [dissector,processMsgFrags,hf,hopen,Dissector.set,-List.length_append,hdone]
      · rw [if_neg hdone]
        simp [dissector,processMsgFrags,hf,hopen,Dissector.set,-List.length_append,hdone]
    · have hfresh := dissector_fresh d hseg fNum (by
        intro f hs
        rw [hf] at hs
        cases hs
        exact Nat.le_of_not_lt hopen)
      rw [hf] at hfresh
      rw [step,if_neg hopen]
      exact hfresh

/-- What a capture shows depends on the fragment record only. -/
theorem feed_eq (d : Dissector) (fNum : ℕ) {segs : List (List UInt8)} (hsegs : ∀ seg ∈ segs, seg ≠ []) :
    feed d fNum segs = reassemble d.fragHdr segs := by
  induction segs generalizing d fNum with
  | nil => rfl
  | cons seg segs ih =>
    obtain ⟨hfrag,hparsed⟩ := dissector_eq d (hsegs seg (List.mem_cons_self ..)) fNum
    rw [feed,reassemble,hparsed,ih _ _ fun s hs => hsegs s (List.mem_cons_of_mem _ hs),hfrag]

end EmbedTemplate.Vfio
