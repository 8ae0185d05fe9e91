import EmbedTemplate.Vfio.Message

/-! # Reassembly of a cut stream

The dissector shows a stream as its messages exactly when every cut leaves the headers
whole, a segment that starts inside a message does not go beyond it, and the messages of
one segment carry one flag. Otherwise bytes are lost, and lost bytes are never made up for.
-/
namespace EmbedTemplate.Vfio
open Bytes Layout

abbrev stream (msgs : List Message) : List UInt8 := msgs.flatMap Message.bytes

/-- A message lies within a segment. -/
def Within (s : Piece (List UInt8)) (m : Piece Message) : Prop :=
  s.start ≤ m.start ∧ m.stop Message.size ≤ s.stop List.length

/-- A segment that the dissector can handle: it does not end inside a header, it ends with the
message that it starts inside of, and its whole messages carry one flag. -/
structure SegmentOk (msgs : List (Piece Message)) (s : Piece (List UInt8)) : Prop where
  header : ∀ m ∈ msgs, ¬(m.start < s.stop List.length ∧ s.stop List.length < m.start + hdrLen)
  tail : ∀ m ∈ msgs, m.start < s.start → s.start < m.stop Message.size → s.stop List.length ≤ m.stop Message.size
  flag : ∀ m ∈ msgs, ∀ m' ∈ msgs, Within s m → Within s m' → m.item.isReply = m'.item.isReply

/-- The cuts of the stream of messages leave all segments in order. -/
def WellCut (msgs : List Message) (segs : List (List UInt8)) : Prop :=
  ∀ s ∈ lay List.length 0 segs, SegmentOk (lay Message.size 0 msgs) s

section Segment
variable {m : Message} {ms done later : List Message} {seg tail : List UInt8} {q k : ℕ}

theorem Message.stop_eq (x : Piece Message) : x.start + hdrLen ≤ x.stop Message.size :=
  Nat.add_le_add_left x.item.hdrLen_le _

theorem segmentOk_append {before after : List (Piece Message)} {s : Piece (List UInt8)}
    (h : ∀ m ∈ before, m.stop Message.size ≤ s.start) : SegmentOk (before ++ after) s ↔ SegmentOk after s := by
  have hstop : s.start ≤ s.stop List.length := Nat.le_add_right _ _
  have hwithin (m : Piece Message) (hm : m ∈ before) : ¬Within s m := by
    intro hw
    have hle := h m hm
    have hlen := Message.stop_eq m
    have hstart := hw.1
    rw [hdrLen] at hlen
    omega
  constructor
  · intro hok
    refine ⟨fun m hm => hok.header m (List.mem_append_right _ hm),fun m hm => hok.tail m (List.mem_append_right _ hm),?_⟩
    intro m hm m' hm'
    exact hok.flag m (List.mem_append_right _ hm) m' (List.mem_append_right _ hm')
  · intro hok
    refine ⟨fun m hm => ?_,fun m hm => ?_,fun m hm m' hm' hw hw' => ?_⟩
    · rcases List.mem_append.mp hm with hm | hm
      · have hle := h m hm
        have hlen := Message.stop_eq m
        omega
      · exact hok.header m hm
    · rcases List.mem_append.mp hm with hm | hm
      · have hle := h m hm
        omega
      · exact hok.tail m hm
    · rcases List.mem_append.mp hm with hm | hm
      · exact absurd hw (hwithin m hm)
      · rcases List.mem_append.mp hm' with hm' | hm'
        · exact absurd hw' (hwithin m' hm')
        · exact hok.flag m hm m' hm' hw hw'

/-- What is left of the condition after whole messages have gone by. -/
theorem segmentsOk_drop {segs : List (List UInt8)} :
    (∀ s ∈ lay List.length (q + extent Message.size done + k) segs, SegmentOk (lay Message.size q (done ++ later)) s) ↔
      ∀ s ∈ lay List.length (q + extent Message.size done + k) segs,
        SegmentOk (lay Message.size (q + extent Message.size done) later) s := by
  refine forall₂_congr fun s hs => ?_
  rw [lay_append]
  refine segmentOk_append fun m hm => ?_
  have hstop := lay_stop_le hm
  have hstart := lay_start_le hs
  omega

/-- A segment within one message, behind its header or with the whole of it. -/
theorem segmentOk_inside (h16 : hdrLen ≤ k + seg.length) (hle : k + seg.length ≤ m.size) (hseg : seg ≠ []) :
    SegmentOk (lay Message.size q (m :: ms)) ⟨q + k,seg⟩ := by
  have hpos : 0 < seg.length := List.length_pos_iff.mpr hseg
  have hstop : (Piece.mk (q + k) seg).stop List.length = q + k + seg.length := rfl
  have hlater {m' : Piece Message} (hm' : m' ∈ lay Message.size (q + m.size) ms) : q + k + seg.length ≤ m'.start := by
    have hstart := lay_start_le hm'
    omega
  have hnot {m' : Piece Message} (hm' : m' ∈ lay Message.size (q + m.size) ms) : ¬Within ⟨q + k,seg⟩ m' := by
    intro hw
    have hstart := hlater hm'
    have hend := hw.2
    have hlen := Message.stop_eq m'
    rw [hstop] at hend
    rw [hdrLen] at hlen
    omega
  refine ⟨fun m' hm' => ?_,fun m' hm' => ?_,fun m' hm' m'' hm'' hw hw' => ?_⟩
  · rw [hstop]
    rcases List.mem_cons.mp hm' with rfl | hm'
    · dsimp only
      omega
    · have hstart := hlater hm'
      omega
  · rw [hstop]
    rcases List.mem_cons.mp hm' with rfl | hm'
    · intro _ _
      change q + k + seg.length ≤ q + m.size
      omega
    · intro hlt
      have hstart := hlater hm'
      dsimp only at hlt
      omega
  · rcases List.mem_cons.mp hm' with rfl | hm'
    · rcases List.mem_cons.mp hm'' with rfl | hm''
      · rfl
      · exact absurd hw' (hnot hm'')
    · exact absurd hw (hnot hm')

theorem stop_whole : (Piece.mk q (stream done ++ tail)).stop List.length =
    q + extent Message.size done + tail.length := by
  rw [Piece.stop,List.length_append,length_flatMap_eq,← Nat.add_assoc]
  rfl

/-- The messages behind the whole ones of a segment are not within it. -/
theorem later_start {m : Piece Message} (hm : m ∈ lay Message.size (q + extent Message.size done) later)
    (htail : ∀ x ∈ later.head?, tail.length < x.size) :
    m.start = q + extent Message.size done ∧ tail.length < m.item.size ∨
      q + extent Message.size done + tail.length < m.start := by
  cases later with
  | nil => cases hm
  | cons x later =>
    have hlt := htail x rfl
    rcases List.mem_cons.mp hm with rfl | hm
    · exact .inl ⟨rfl,hlt⟩
    · have hstart := lay_start_le hm
      exact .inr (by omega)

/-- A segment that starts at a message and holds whole messages. -/
theorem segmentOk_whole (htail : ∀ x ∈ later.head?, tail.length < x.size) (hlater : later = [] → tail = []) :
    SegmentOk (lay Message.size q (done ++ later)) ⟨q,stream done ++ tail⟩ ↔
      (tail = [] ∨ hdrLen ≤ tail.length) ∧ ∀ m ∈ done, ∀ m' ∈ done, m.isReply = m'.isReply := by
  have hwithin {m : Piece Message} (hm : m ∈ lay Message.size q done) : Within ⟨q,stream done ++ tail⟩ m := by
    refine ⟨lay_start_le hm,?_⟩
    have hstop := lay_stop_le hm
    rw [stop_whole]
    omega
  constructor
  · intro hok
    constructor
    · cases later with
      | nil => exact .inl (hlater rfl)
      | cons x later =>
        have hheader := hok.header ⟨q + extent Message.size done,x⟩ (by
          rw [lay_append]
          exact List.mem_append_right _ (List.mem_cons_self ..))
        rw [stop_whole] at hheader
        dsimp only at hheader
        rw [← List.length_eq_zero_iff]
        omega
    · intro m hm m' hm'
      obtain ⟨piece,hpiece,rfl⟩ : ∃ piece ∈ lay Message.size q done, piece.item = m := exists_lay hm
      obtain ⟨piece',hpiece',rfl⟩ : ∃ piece ∈ lay Message.size q done, piece.item = m' := exists_lay hm'
      rw [lay_append] at hok
      exact hok.flag piece (List.mem_append_left _ hpiece) piece' (List.mem_append_left _ hpiece') (hwithin hpiece)
        (hwithin hpiece')
  · rintro ⟨hrest,hflag⟩
    rw [← List.length_eq_zero_iff] at hrest
    rw [lay_append]
    have hdone {m : Piece Message} (hm : m ∈ lay Message.size q done ++ lay Message.size (q + extent Message.size done) later)
        (hw : Within ⟨q,stream done ++ tail⟩ m) : m.item ∈ done := by
      rcases List.mem_append.mp hm with hm | hm
      · exact mem_of_lay hm
      · have hstop := hw.2
        have hlen := Message.stop_eq m
        rw [stop_whole] at hstop
        rw [Piece.stop] at hstop hlen
        have hstart := later_start hm htail
        omega
    refine ⟨fun m hm => ?_,fun m hm => ?_,fun m hm m' hm' hw hw' => hflag _ (hdone hm hw) _ (hdone hm' hw')⟩
    · rw [stop_whole]
      rcases List.mem_append.mp hm with hm | hm
      · have hstop := lay_stop_le hm
        have hlen := Message.stop_eq m
        omega
      · have hstart := later_start hm htail
        omega
    · intro hlt
      rw [← lay_append] at hm
      exact absurd hlt (Nat.not_lt.mpr (lay_start_le hm))

end Segment

section Lost

/-- The bytes of the messages shown. -/
def shown (outs : List Parsed) : ℕ := extent (fun o => o.bytes.length) outs

/-- A message shown with a header that a message can have. -/
def Parsed.Valid (o : Parsed) : Prop := validHdr o.cmd o.msgSize = true

/-- The bytes of the fragment record that may still become such a message. -/
def held : Option Frag → ℕ
  | none => 0
  | some f => if validHdr (leUint f.buffer 2 2) (leUint f.buffer 4 4) then f.buffer.length else 0

/-- A fragment record holds at least a header. -/
def Headed (frag : Option Frag) : Prop := ∀ f, frag = some f → hdrLen ≤ f.buffer.length

theorem held_le (f : Frag) : held (some f) ≤ f.buffer.length := by
  rw [held]
  split
  · exact le_rfl
  · exact Nat.zero_le _

theorem parsed_valid (m : Message) : m.parsed.Valid := by
  have h := m.hdr
  rw [← m.size_eq] at h
  exact h

theorem shown_parsed (msgs : List Message) : shown (msgs.map Message.parsed) = (stream msgs).length := by
  rw [length_flatMap_eq,shown,extent,List.map_map,extent]
  congr 1
  refine List.map_congr_left fun m _ => ?_
  change ((m.bytes.drop 0).take m.size).length = m.bytes.length
  rw [List.drop_zero,List.length_take,Message.size,Nat.min_self]

/-- The scan shows no byte twice, and none of those that it puts into the fragment record. -/
theorem scan_shown (visited isFullMsg : Bool) (isReply : Option Bool) (rounds : ℕ) (rest : List UInt8) :
    let r := scan visited isFullMsg isReply rounds rest
    shown r.parsed + (r.frag.map fun f => f.buffer.length).getD 0 ≤ rest.length ∧ Headed r.frag := by
  induction rounds generalizing rest with
  | zero => exact ⟨Nat.zero_le _,fun f hf => (by cases hf)⟩
  | succ rounds ih =>
    dsimp only
    rw [scan]
    split
    · exact ⟨Nat.zero_le _,fun f hf => (by cases hf)⟩
    next hlen =>
      dsimp only
      split
      · obtain ⟨hshown,hheaded⟩ := ih (rest.drop 1)
        refine ⟨hshown.trans ?_,hheaded⟩
        rw [List.length_drop]
        exact Nat.sub_le _ _
      · split
        · refine ⟨?_,?_⟩
          · change 0 + _ ≤ _
            split <;> simp
          · intro f hf
            split at hf
            · cases hf
              exact Nat.le_of_not_lt hlen
            · cases hf
        next hpart =>
          obtain ⟨hshown,hheaded⟩ := ih (rest.drop (leUint rest 4 4))
          refine ⟨?_,hheaded⟩
          rw [List.length_drop] at hshown
          have hbytes : ((rest.drop 0).take (leUint rest 4 4)).length = leUint rest 4 4 := by
            rw [List.drop_zero,List.length_take]
            omega
          change extent (fun o : Parsed => o.bytes.length) (_ :: _) + _ ≤ _
          rw [extent_cons]
          change ((rest.drop 0).take (leUint rest 4 4)).length + shown _ + _ ≤ _
          rw [hbytes]
          dsimp only
          omega

/-- A packet adds to what is shown and held no more than its own bytes, as long as only
messages are shown. -/
theorem fresh_shown {frag : Option Frag} (hfrag : Headed frag) (seg : List UInt8) :
    shown (fresh frag seg).2 + held (fresh frag seg).1 ≤ held frag + seg.length ∧ Headed (fresh frag seg).1 := by
  rw [fresh]
  split
  · exact ⟨by change 0 + held frag ≤ _; omega,hfrag⟩
  next hlen =>
    dsimp only
    split
    next hpart =>
      refine ⟨?_,fun f hf => by cases hf; exact Nat.le_of_not_lt hlen⟩
      rw [held]
      split
      next hvalid =>
        obtain ⟨k,hk⟩ : ∃ k, seg.length = k + 1 := ⟨seg.length - 1,by rw [hdrLen] at hlen; omega⟩
        have hnone : (scan false false (some (replyFlag (leUint seg 8 4))) seg.length seg).parsed = [] := by
          rw [hk,scan,if_neg hlen]
          dsimp only
          rw [if_neg (not_not_intro hvalid),if_pos hpart.1]
        rw [hnone]
        exact Nat.le_of_eq (Nat.zero_add _) |>.trans (Nat.le_add_left _ _)
      · have hscan := (scan_shown false false (some (replyFlag (leUint seg 8 4))) seg.length seg).1
        dsimp only at hscan ⊢
        omega
    · obtain ⟨hscan,hheaded⟩ := scan_shown false true (some (replyFlag (leUint seg 8 4))) seg.length seg
      cases hf : (scan false true (some (replyFlag (leUint seg 8 4))) seg.length seg).frag with
      | none =>
        rw [hf,Option.map_none,Option.getD_none] at hscan
        rw [Option.none_or]
        exact ⟨by dsimp only; omega,hfrag⟩
      | some f =>
        rw [hf,Option.map_some,Option.getD_some] at hscan
        rw [hf] at hheaded
        have hheld := held_le f
        rw [Option.some_or]
        exact ⟨by dsimp only; omega,hheaded⟩

theorem step_shown {frag : Option Frag} (hfrag : Headed frag) (seg : List UInt8)
    (hvalid : ∀ o ∈ (step frag seg).2, o.Valid) :
    shown (step frag seg).2 + held (step frag seg).1 ≤ held frag + seg.length ∧ Headed (step frag seg).1 := by
  cases frag with
  | none => exact fresh_shown hfrag seg
  | some f =>
    have hlen := hfrag f rfl
    have hfield {offset len : ℕ} (h : offset + len ≤ hdrLen) :
        leUint (f.buffer ++ seg) offset len = leUint f.buffer offset len := leUint_append hlen h
    rw [step] at hvalid ⊢
    by_cases hopen : f.buffer.length < f.expected
    · rw [if_pos hopen] at hvalid ⊢
      by_cases hdone : f.expected ≤ (f.buffer ++ seg).length
      · rw [if_pos hdone] at hvalid ⊢
        refine ⟨?_,fun f hf => by cases hf⟩
        have hhdr := hvalid _ (List.mem_singleton_self _)
        change validHdr (leUint (f.buffer ++ seg) 2 2) (leUint (f.buffer ++ seg) 4 4) = true at hhdr
        rw [hfield (by decide),hfield (by decide)] at hhdr
        have hshown : shown [parseProtoFields (some f.isReply) (f.buffer ++ seg) 0 f.expected] ≤
            (f.buffer ++ seg).length := by
          rw [shown,extent_cons,extent_nil,Nat.add_zero]
          change ((_ : List UInt8).take f.expected).length ≤ _
          rw [List.length_take]
          exact Nat.min_le_right _ _
        rw [List.length_append] at hshown
        rw [held,held,if_pos hhdr]
        exact hshown
      · rw [if_neg hdone]
        refine ⟨?_,fun f hf => ?_⟩
        · change 0 + held (some _) ≤ _
          rw [held,held,hfield (by decide),hfield (by decide),List.length_append]
          split <;> omega
        · cases hf
          rw [List.length_append]
          exact hlen.trans (Nat.le_add_right _ _)
    · rw [if_neg hopen]
      exact fresh_shown hfrag seg

/-- A run that shows nothing but messages shows no more bytes than it is fed. -/
theorem reassemble_shown {frag : Option Frag} (hfrag : Headed frag) {segs : List (List UInt8)}
    (hvalid : ∀ o ∈ reassemble frag segs, o.Valid) : shown (reassemble frag segs) ≤
      held frag + segs.flatten.length := by
  induction segs generalizing frag with
  | nil => exact Nat.zero_le _
  | cons seg segs ih =>
    rw [reassemble] at hvalid ⊢
    obtain ⟨hstep,hnext⟩ := step_shown hfrag seg fun o ho => hvalid o (List.mem_append_left _ ho)
    have hrest := ih hnext fun o ho => hvalid o (List.mem_append_right _ ho)
    rw [shown,extent_append,List.flatten_cons,List.length_append]
    rw [shown] at hstep hrest
    omega

/-- Lost bytes are not made up for: what is left of the stream is more than the segments to
come can show. -/
theorem reassemble_ne {segs : List (List UInt8)} {msgs : List Message}
    (h : segs.flatten.length < (stream msgs).length) :
    reassemble none segs ≠ msgs.map Message.parsed := by
  intro heq
  have hvalid : ∀ o ∈ reassemble none segs, o.Valid := by
    rw [heq]
    intro o ho
    obtain ⟨m,_,rfl⟩ := List.mem_map.mp ho
    exact parsed_valid m
  have hheaded : Headed none := fun f hf => by cases hf
  have hle := reassemble_shown hheaded hvalid
  rw [heq,shown_parsed] at hle
  change _ ≤ 0 + _ at hle
  omega

end Lost

section Steps
variable {m : Message} {ms done later : List Message} {front seg tail : List UInt8}

theorem step_short (h : seg.length < hdrLen) : step none seg = (none,[]) := by
  rw [step,fresh,if_pos h]

theorem step_more (h : (front ++ seg).length < m.size) :
    step (some ⟨front,m.size,m.isReply⟩) seg = (some ⟨front ++ seg,m.size,m.isReply⟩,[]) := by
  rw [step,if_pos (by rw [List.length_append] at h; dsimp only; omega),if_neg (Nat.not_le.mpr h)]

/-- The segment that completes a message shows it, whatever else it brings. -/
theorem step_complete (hopen : front.length < m.size) (h : front ++ seg = m.bytes ++ tail) :
    step (some ⟨front,m.size,m.isReply⟩) seg = (none,[m.parsed]) := by
  rw [step,if_pos hopen]
  dsimp only
  rw [h,if_pos (by rw [List.length_append]; exact Nat.le_add_right _ _),parseProtoFields_append]
  rfl

theorem step_begin (hs : Starts seg m) (hlen : hdrLen ≤ seg.length) (hpart : seg.length < m.size) :
    step none seg = (some ⟨seg,m.size,m.isReply⟩,[]) := by
  obtain ⟨k,hk⟩ : ∃ k, seg.length = k + 1 := ⟨seg.length - 1,by rw [hdrLen] at hlen; omega⟩
  rw [step,fresh,if_neg (Nat.not_lt.mpr hlen)]
  dsimp only
  rw [hs.msgSize,hs.replyFlag,if_pos ⟨hpart,m.le_max⟩]
  have hscan : (scan false false (some m.isReply) (k + 1) seg).parsed = [] := (scan_part hs hlen hpart).1
  rw [← hk] at hscan
  rw [hscan]

theorem step_whole (m : Message) (done : List Message) (tail : List UInt8) :
    ∃ left, tail.length ≤ left ∧ step none (stream (m :: done) ++ tail) =
      ((scan false true (some m.isReply) left tail).frag,
        ((m :: done).map fun x => parseProtoFields (some m.isReply) x.bytes 0 x.size) ++
          (scan false true (some m.isReply) left tail).parsed) := by
  have hseg : stream (m :: done) ++ tail = m.bytes ++ (stream done ++ tail) := by
    rw [stream,List.flatMap_cons,List.append_assoc]
  have hs : Starts (stream (m :: done) ++ tail) m := hseg ▸ starts_append m
  have hlen : m.size ≤ (stream (m :: done) ++ tail).length := by
    rw [hseg,List.length_append]
    exact Nat.le_add_right _ _
  obtain ⟨left,hleft,hparsed,hfrag⟩ := @scan_messages m.isReply _ (m :: done) tail le_rfl
  refine ⟨left,hleft,?_⟩
  rw [step,fresh,if_neg (Nat.not_lt.mpr (m.hdrLen_le.trans hlen))]
  dsimp only
  rw [hs.msgSize,hs.replyFlag,if_neg fun h => absurd h.1 (Nat.not_lt.mpr hlen),Option.or_none,hparsed,hfrag]

theorem step_whole_short (m : Message) (done : List Message) (h : tail.length < hdrLen) :
    step none (stream (m :: done) ++ tail) =
      (none,(m :: done).map fun x => parseProtoFields (some m.isReply) x.bytes 0 x.size) := by
  obtain ⟨left,_,hstep⟩ := step_whole m done tail
  rw [hstep,scan_short h,List.append_nil]

theorem step_whole_part (m : Message) (done : List Message) {x : Message} (hs : Starts tail x)
    (hlen : hdrLen ≤ tail.length) (hpart : tail.length < x.size) :
    step none (stream (m :: done) ++ tail) = (some ⟨tail,x.size,x.isReply⟩,
      (m :: done).map fun x => parseProtoFields (some m.isReply) x.bytes 0 x.size) := by
  obtain ⟨left,hleft,hstep⟩ := step_whole m done tail
  obtain ⟨k,rfl⟩ : ∃ k, left = k + 1 := ⟨left - 1,by rw [hdrLen] at hlen; omega⟩
  obtain ⟨hparsed,hfrag⟩ : (scan false true (some m.isReply) (k + 1) tail).parsed = [] ∧
      (scan false true (some m.isReply) (k + 1) tail).frag = if true then some ⟨tail,x.size,x.isReply⟩ else none :=
    scan_part hs hlen hpart
  rw [hstep,hparsed,hfrag,List.append_nil]
  rfl

/-- The messages of a packet are shown with their own flags if they have one in common. -/
theorem shown_flags (m : Message) (done : List Message) :
    ((m :: done).map fun x => parseProtoFields (some m.isReply) x.bytes 0 x.size) = (m :: done).map Message.parsed ↔
      ∀ x ∈ m :: done, ∀ y ∈ m :: done, x.isReply = y.isReply := by
  rw [List.map_inj_left]
  constructor
  · intro h x hx y hy
    exact (congrArg Parsed.isReply (h x hx)).symm.trans (congrArg Parsed.isReply (h y hy))
  · intro h x hx
    rw [h m (List.mem_cons_self ..) x hx]
    rfl

end Steps

/-- The fragment record between two segments, when the next one starts at a number of bytes
into the messages to come. -/
inductive Aligned : Option Frag → List Message → ℕ → Prop where
  | boundary (ms : List Message) : Aligned none ms 0
  | inside {m : Message} (ms : List Message) {k : ℕ} (hlen : hdrLen ≤ k) (hpart : k < m.size) :
      Aligned (some ⟨m.bytes.take k,m.size,m.isReply⟩) (m :: ms) k

/-- Segments that are shown as the messages they carry exactly when they are in order. -/
def Handled (segs : List (List UInt8)) : Prop :=
  ∀ frag ms k q, Aligned frag ms k → segs.flatten = (stream ms).drop k →
    (reassemble frag segs = ms.map Message.parsed ↔
      ∀ s ∈ lay List.length (q + k) segs, SegmentOk (lay Message.size q ms) s)

section Segments
variable {m : Message} {ms done later : List Message} {seg tail : List UInt8} {segs : List (List UInt8)} {q k : ℕ}

theorem stream_eq_nil {msgs : List Message} (h : stream msgs = []) : msgs = [] := by
  cases msgs with
  | nil => rfl
  | cons m msgs =>
    have hlen := m.hdrLen_le
    have hzero := congrArg List.length h
    rw [stream,List.flatMap_cons,List.length_append,List.length_nil] at hzero
    rw [Message.size,hdrLen] at hlen
    omega

theorem handled_nil : Handled [] := by
  intro frag ms k q h hstream
  cases h with
  | boundary =>
    rw [stream_eq_nil hstream.symm]
    exact iff_of_true rfl fun s hs => by cases hs
  | inside ms hlen hpart =>
    have hzero := congrArg List.length hstream
    rw [List.flatten_nil,List.length_nil,List.length_drop,stream,List.flatMap_cons,List.length_append] at hzero
    rw [Message.size] at hpart
    omega

/-- What the rest of the segments has to be once a first part of the messages has gone by. -/
theorem Handled.rest (ih : Handled segs) {frag : Option Frag} (h : Aligned frag later k)
    (hstream : segs.flatten = (stream later).drop k) :
    reassemble frag segs = later.map Message.parsed ↔
      ∀ s ∈ lay List.length (q + extent Message.size done + k) segs, SegmentOk (lay Message.size q (done ++ later)) s :=
  (ih frag later k (q + extent Message.size done) h hstream).trans segmentsOk_drop.symm

theorem Handled.inside (ih : Handled segs) (hseg : seg ≠ []) (hlen : hdrLen ≤ k) (hpart : k < m.size)
    (hstream : seg ++ segs.flatten = m.bytes.drop k ++ stream ms) :
    reassemble (some ⟨m.bytes.take k,m.size,m.isReply⟩) (seg :: segs) = (m :: ms).map Message.parsed ↔
      ∀ s ∈ lay List.length (q + k) (seg :: segs), SegmentOk (lay Message.size q (m :: ms)) s := by
  have htake : (m.bytes.take k).length = k := by
    rw [List.length_take,Nat.min_eq_left]
    exact Nat.le_of_lt hpart
  have hdrop : (m.bytes.drop k).length = m.size - k := List.length_drop
  rw [lay,List.forall_mem_cons]
  have hsplit : (∃ left, m.bytes.drop k = seg ++ left ∧ segs.flatten = left ++ stream ms) ∨
      ∃ more, more ≠ [] ∧ seg = m.bytes.drop k ++ more ∧ stream ms = more ++ segs.flatten := by
    rcases List.append_eq_append_iff.mp hstream with hleft | ⟨more,hmore,hrest⟩
    · exact .inl hleft
    · by_cases hnil : more = []
      · subst hnil
        exact .inl ⟨[],by rw [hmore,List.append_nil,List.append_nil],hrest.symm⟩
      · exact .inr ⟨more,hnil,hmore,hrest⟩
  rcases hsplit with ⟨left,hleft,hrest⟩ | ⟨more,hnil,hmore,hrest⟩
  · have hsize := congrArg List.length hleft
    rw [hdrop,List.length_append] at hsize
    have hok : SegmentOk (lay Message.size q (m :: ms)) ⟨q + k,seg⟩ :=
      segmentOk_inside (by omega) (by omega) hseg
    rw [and_iff_right hok,reassemble]
    by_cases hnil : left = []
    · subst hnil
      rw [List.append_nil] at hleft
      rw [List.length_nil] at hsize
      have hfront : m.bytes.take k ++ seg = m.bytes ++ [] := by rw [← hleft,List.take_append_drop,List.append_nil]
      rw [step_complete (by rw [htake]; exact hpart) hfront,List.map_cons,List.singleton_append,List.cons_inj_right]
      have hpos : q + k + seg.length = q + extent Message.size [m] + 0 := by
        rw [extent_cons,extent_nil]
        omega
      rw [hpos]
      have hiff : _ ↔ ∀ s ∈ lay List.length (q + extent Message.size [m] + 0) segs,
          SegmentOk (lay Message.size q ([m] ++ ms)) s :=
        ih.rest (.boundary ms) hrest
      exact hiff
    · have hpos := List.length_pos_iff.mpr hnil
      have hfront : m.bytes.take k ++ seg = m.bytes.take (k + seg.length) := by
        rw [List.take_add,hleft,List.take_left]
      rw [step_more (by rw [List.length_append,htake]; omega),hfront,Nat.add_assoc q]
      refine ih _ (m :: ms) (k + seg.length) q (.inside ms (by omega) (by omega)) ?_
      have hbytes : m.bytes.drop (k + seg.length) = left := by
        rw [← List.drop_drop,hleft,List.drop_left]
      rw [stream,List.flatMap_cons,List.drop_append_of_le_length (by rw [Message.size] at hsize; omega),hbytes]
      exact hrest
  · have hpos := List.length_pos_iff.mpr hnil
    have hfront : m.bytes.take k ++ seg = m.bytes ++ more := by
      rw [hmore,← List.append_assoc,List.take_append_drop]
    rw [reassemble,step_complete (by rw [htake]; exact hpart) hfront,List.map_cons,List.singleton_append,List.cons_inj_right]
    refine iff_of_false (reassemble_ne (by rw [hrest,List.length_append]; omega)) fun hok => ?_
    have htail := hok.1.tail ⟨q,m⟩ (List.mem_cons_self ..) (show q < q + k by rw [hdrLen] at hlen; omega)
      (show q + k < q + m.size by omega)
    change q + k + seg.length ≤ q + m.size at htail
    rw [hmore,List.length_append,hdrop] at htail
    omega

/-- A segment that starts at a message and is shorter than a header. -/
theorem Handled.short (hseg : seg ≠ []) (hshort : seg.length < hdrLen) (hstream : seg ++ segs.flatten = stream ms) :
    reassemble none (seg :: segs) = ms.map Message.parsed ↔
      ∀ s ∈ lay List.length q (seg :: segs), SegmentOk (lay Message.size q ms) s := by
  have hpos := List.length_pos_iff.mpr hseg
  rw [lay,List.forall_mem_cons,reassemble,step_short hshort,List.nil_append]
  refine iff_of_false (reassemble_ne (by rw [← hstream,List.length_append]; omega)) fun hok => ?_
  cases ms with
  | nil => exact hseg (List.append_eq_nil_iff.mp hstream).1
  | cons m ms =>
    have hheader := hok.1.header ⟨q,m⟩ (List.mem_cons_self ..)
    change ¬(q < q + seg.length ∧ q + seg.length < q + hdrLen) at hheader
    omega

/-- A segment that starts at a message and holds a first part of it. -/
theorem Handled.begin (ih : Handled segs) (hseg : seg ≠ []) (hlen : hdrLen ≤ seg.length) (hpart : seg.length < m.size)
    (hstream : seg ++ segs.flatten = stream (m :: ms)) :
    reassemble none (seg :: segs) = (m :: ms).map Message.parsed ↔
      ∀ s ∈ lay List.length q (seg :: segs), SegmentOk (lay Message.size q (m :: ms)) s := by
  rw [stream,List.flatMap_cons] at hstream
  have hs : Starts seg m := starts_of_append hstream hlen
  have htake : seg = m.bytes.take seg.length := by
    have h := congrArg (List.take seg.length) hstream
    rwa [List.take_left,List.take_append_of_le_length (Nat.le_of_lt hpart)] at h
  have hok : SegmentOk (lay Message.size q (m :: ms)) ⟨q + 0,seg⟩ := segmentOk_inside (by omega) (by omega) hseg
  rw [lay,List.forall_mem_cons,and_iff_right (by simpa using hok),reassemble,step_begin hs hlen hpart,List.nil_append]
  refine (ih _ (m :: ms) seg.length q (by
    nth_rewrite 1 [htake]
    exact .inside ms hlen hpart) ?_)
  rw [stream,List.flatMap_cons,← hstream,List.drop_left]

theorem map_append_eq_iff {α β : Type*} {f g : α → β} {xs ys : List α} {rest : List β} :
    xs.map f ++ rest = (xs ++ ys).map g ↔ xs.map f = xs.map g ∧ rest = ys.map g := by
  rw [List.map_append]
  constructor
  · intro h
    exact List.append_inj h (by rw [List.length_map,List.length_map])
  · rintro ⟨hxs,hys⟩
    rw [hxs,hys]

/-- A segment that starts at a message and holds whole messages and a rest. -/
theorem Handled.whole (ih : Handled segs) (hrest : tail ++ segs.flatten = stream later)
    (htail : ∀ x ∈ later.head?, tail.length < x.size) :
    reassemble none ((stream (m :: done) ++ tail) :: segs) = (m :: done ++ later).map Message.parsed ↔
      ∀ s ∈ lay List.length q ((stream (m :: done) ++ tail) :: segs),
        SegmentOk (lay Message.size q (m :: done ++ later)) s := by
  have hlater : later = [] → tail = [] := by
    rintro rfl
    exact (List.append_eq_nil_iff.mp hrest).1
  have hlength : q + (stream (m :: done) ++ tail).length = q + extent Message.size (m :: done) + tail.length :=
    stop_whole (q := q)
  rw [lay,List.forall_mem_cons,segmentOk_whole htail hlater,hlength,reassemble]
  by_cases hshort : tail.length < hdrLen
  · rw [step_whole_short m done hshort,map_append_eq_iff,shown_flags]
    by_cases hnil : tail = []
    · subst hnil
      rw [and_iff_right (Or.inl rfl)]
      exact and_congr_right fun _ => ih.rest (.boundary later) hrest
    · have hpos := List.length_pos_iff.mpr hnil
      refine iff_of_false (fun h => ?_) fun h => ?_
      · exact reassemble_ne (by rw [← hrest,List.length_append]; omega) h.2
      · exact h.1.1.elim hnil fun hle => absurd hshort (Nat.not_lt.mpr hle)
  · have hlen := Nat.le_of_not_lt hshort
    cases later with
    | nil =>
      rw [hlater rfl,hdrLen] at hlen
      exact absurd hlen (by decide)
    | cons x later =>
      have hpart := htail x rfl
      rw [stream,List.flatMap_cons] at hrest
      have htake : tail = x.bytes.take tail.length := by
        have h := congrArg (List.take tail.length) hrest
        rwa [List.take_left,List.take_append_of_le_length (Nat.le_of_lt hpart)] at h
      have hdrop : segs.flatten = (stream (x :: later)).drop tail.length := by
        rw [stream,List.flatMap_cons,← hrest,List.drop_left]
      have haligned : Aligned (some ⟨tail,x.size,x.isReply⟩) (x :: later) tail.length := by
        nth_rewrite 1 [htake]
        exact .inside later hlen hpart
      rw [step_whole_part m done (starts_of_append hrest hlen) hlen hpart,map_append_eq_iff,shown_flags,
        and_iff_right (Or.inr hlen)]
      exact and_congr_right fun _ => ih.rest haligned hdrop

theorem Handled.cons (ih : Handled segs) (hseg : seg ≠ []) : Handled (seg :: segs) := by
  intro frag ms k q h hstream
  rw [List.flatten_cons] at hstream
  cases h with
  | boundary =>
    rw [List.drop_zero] at hstream
    rw [Nat.add_zero]
    by_cases hshort : seg.length < hdrLen
    · exact Handled.short hseg hshort hstream
    · obtain ⟨done,later,tail,rfl,rfl,hrest,htail⟩ := split_flatMap Message.bytes hstream
      cases done with
      | nil =>
        cases later with
        | nil => exact absurd (List.append_eq_nil_iff.mp hrest).1 hseg
        | cons m later =>
          exact Handled.begin ih hseg (Nat.le_of_not_lt hshort) (htail m rfl) hstream
      | cons m done => exact Handled.whole ih hrest htail
  | inside ms hlen hpart =>
    rename_i m
    rw [stream,List.flatMap_cons,List.drop_append_of_le_length (Nat.le_of_lt hpart)] at hstream
    exact Handled.inside ih hseg hlen hpart hstream

theorem handled (hsegs : ∀ seg ∈ segs, seg ≠ []) : Handled segs := by
  induction segs with
  | nil => exact handled_nil
  | cons seg segs ih =>
    exact Handled.cons (ih fun s hs => hsegs s (List.mem_cons_of_mem _ hs)) (hsegs seg (List.mem_cons_self ..))

end Segments

/-- A cut stream of messages is shown as these messages, each once, in order and with its own
flag, if and only if it is well cut. -/
theorem dissector_reassembles_iff {msgs : List Message} {segs : List (List UInt8)} (hsegs : ∀ seg ∈ segs, seg ≠ [])
    (hstream : segs.flatten = stream msgs) (fNum : ℕ) :
    feed Dissector.init fNum segs = msgs.map Message.parsed ↔ WellCut msgs segs := by
  rw [feed_eq Dissector.init fNum hsegs]
  exact handled hsegs none msgs 0 0 (.boundary msgs) hstream

/-- DEVICE_RESET, a header without payload, and VERSION with a payload of four bytes. -/
def deviceReset : Message := ⟨[1,0,13,0,16,0,0,0,0,0,0,0,0,0,0,0],by decide,by decide⟩
def deviceResetReply : Message := ⟨[1,0,13,0,16,0,0,0,1,0,0,0,0,0,0,0],by decide,by decide⟩
def version : Message := ⟨[0,0,1,0,20,0,0,0,0,0,0,0,0,0,0,0,9,9,9,9],by decide,by decide⟩

/-- A payload cut in two, then two messages in one segment. -/
theorem dissector_reassembles_iff_version : WellCut [version,deviceReset,deviceReset]
    [version.bytes.take 18,version.bytes.drop 18,deviceReset.bytes ++ deviceReset.bytes] :=
  (dissector_reassembles_iff (by decide) (by decide) 1).mp (by decide)

/-- A cut inside the header: both parts are dropped. -/
theorem cutHeader_not_reassembled :
    [deviceReset.bytes.take 8,deviceReset.bytes.drop 8].flatten = stream [deviceReset] ∧
    feed Dissector.init 1 [deviceReset.bytes.take 8,deviceReset.bytes.drop 8] = [] ∧
    [deviceReset].map Message.parsed ≠ [] := by decide

/-- The end of one message and the next in one segment: the second is dropped. -/
example : feed Dissector.init 1 [version.bytes.take 18,version.bytes.drop 18 ++ deviceReset.bytes] =
    [version.parsed] := by decide

/-- A request and a reply in one segment: the reply is shown as a request. -/
example : feed Dissector.init 1 [deviceReset.bytes ++ deviceResetReply.bytes] =
    [deviceReset.parsed,{ deviceResetReply.parsed with isReply := false }] := by decide

end EmbedTemplate.Vfio
