import EmbedTemplate.Logging.ReaderInvariant

/-! # What an interrupted flash delivers

Each access of a flash leads from its stage to the next one, as long as it finds what
the reader relies on. So every callback invocation carries one dispatched message, none
is made twice, and the reader writes only into the record it has just delivered.
-/
namespace EmbedTemplate.Logging
open Circular Bytes Machine
variable {n : BufSize} {guard : List UInt8} {s t : ReadSys n} {start gap g : ℕ} {pre ms : List LogArgs}

theorem Layout.reader (h : Layout guard s start gap g pre ms) {f : Reader} (hf : f.head ≤ s.ring.head) :
    Layout guard { s with reader := f } start gap g pre ms :=
  ⟨h.dispatched,h.edge,h.pending,h.bound,h.guard_eq,hf,h.lines,h.sorted,h.from_freed⟩

/-- A reader that takes the tail for its position settles there. -/
theorem stage_loop (h : EventsBelow s start ∧ (gap ≠ 0 → g < start)) (f : Reader) :
    Stage guard { s with reader := f.loop start } start gap g ms := by
  unfold Stage Reader.loop
  by_cases hlt : start < f.head
  · simp only [if_pos hlt]
    exact ⟨h,⟨trivial,trivial⟩,le_rfl,hlt⟩
  · simp only [if_neg hlt]
    exact h

theorem Layout.loop (h : Layout guard s start gap g pre ms) (hset : EventsBelow s start ∧ (gap ≠ 0 → g < start)) :
    ReadInv guard { s with reader := s.reader.loop s.ring.tail } := by
  rw [h.tail_eq]
  exact ⟨start,gap,g,pre,ms,h.reader h.snapshot,stage_loop hset s.reader⟩

/-- Where the gap ends a live record begins, unless the head is reached. -/
theorem Layout.edge_record (h : Layout guard s start gap g pre ms) (hlt : start + gap < s.ring.head) :
    ∃ m ms', ms = m :: ms' ∧ RecordAt n s.ring.data (start + gap) logTagSeal m := by
  cases ms with
  | nil =>
    have := h.head_end
    rw [bytesOf_nil] at this
    omega
  | cons m ms' =>
    have hb := h.pending.bytes
    rw [List.flatMap_cons] at hb
    exact ⟨m,ms',rfl,(holds_append.mp hb).1⟩

/-- A tail store that moves on within the gap, or to its end. -/
theorem Layout.moveTail (h : Layout guard s start gap g pre ms) {tail : ℕ} (hle : start ≤ tail)
    (hedge : tail ≤ start + gap) (hmod : tail % 8 = 0) {f : Reader} (hf : f.head ≤ s.ring.head)
    (hgap : tail < start + gap → g < start) :
    Layout guard ({ s with ring := { s.ring with tail := tail }, reader := f } : ReadSys n) tail
      (start + gap - tail) g pre ms := by
  have hp := h.pending
  have hs := hp.start_mod
  have hg := hp.gap_mod
  have hb := h.bound
  have hroom := hp.room
  have hmove : tail + (start + gap - tail) = start + gap := by omega
  rw [h.dispatched,bytesOf_append,h.edge] at hb
  refine ⟨h.dispatched,by rw [hmove]; exact h.edge,⟨?_,?_,hmod,by omega,by omega,?_,hp.words⟩,h.bound,h.guard_eq,hf,
    h.lines,h.sorted,fun hne => ?_⟩
  · exact (u32_of_lt (by omega : tail < 2 ^ 32)).symm
  · rw [hmove]
    exact hp.head_eq
  · rw [hmove]
    exact hp.bytes
  · obtain ⟨hfreed,_,_,hq⟩ := h.from_freed (by omega)
    have := hgap (by omega)
    exact ⟨hfreed,by omega,by omega,hq⟩

/-- The tag store of a record that is still the oldest one leaves it behind as a gap. -/
theorem Layout.storeFree_front {m : LogArgs} (h : Layout guard s start 0 g pre (m :: ms)) {f : Reader}
    (hf : f.head ≤ s.ring.head) :
    Layout guard ({ s with
      ring := { s.ring with data := put s.ring.data (index n start) [logTagFree] }
      reader := f
      freed := s.freed ++ [start] } : ReadSys n) start m.size start (pre ++ [m]) ms := by
  have hn := n.le_val
  have hp := h.pending
  have hroom := hp.room
  have hm := m.size_mod
  have h16 := m.sixteen_le_size
  have hedge := h.edge
  have hb := hp.bytes
  rw [List.flatMap_cons,holds_append,m.sealed_length] at hb
  rw [bytesOf_cons] at hroom
  have hput := put_index n s.ring.data start logTagFree
  have hout : SameGuard n s.ring.data (put s.ring.data (index n start) [logTagFree]) := by
    rw [hput]
    exact sameGuard_store _ _ _
  have hhead := hp.head_eq
  refine ⟨by rw [h.dispatched,List.append_assoc]; rfl,?_,⟨hp.tail_eq,?_,hp.start_mod,hm,by omega,?_,hp.words⟩,
    h.bound,?_,hf,h.lines,h.sorted,fun _ => ⟨by simp,le_rfl,fun _ => ?_,pre,m,rfl,?_⟩⟩
  · rw [bytesOf_append,bytesOf_cons,bytesOf_nil]
    omega
  · rw [bytesOf_cons] at hhead
    change s.ring.head = _
    rw [hhead]
    congr 1
    omega
  · change Holds n.val (put _ _ _) _ _
    rw [hput]
    refine hb.2.store_before ?_ ?_
    · rw [List.length_singleton]
      omega
    · rw [length_flatMap_sealed]
      omega
  · change LogRing.guardWord { s.ring with data := _ } = _
    rw [← h.guard_eq]
    exact SameGuard.guardWord (r := s.ring) (t := { s.ring with data := put s.ring.data (index n start) [logTagFree] }) hout
  · change put _ _ _ _ ≠ _
    rw [put,put_nil,Function.update_self]
    decide
  · omega

/-- The tag store of a record that has been dropped meanwhile hits free space. -/
theorem Layout.storeFree_behind (h : Layout guard s start 0 g pre ms) {tail : ℕ} (hlt : tail < start)
    (hroom : s.ring.head ≤ tail + n.val) {f : Reader} (hf : f.head ≤ s.ring.head) :
    Layout guard ({ s with
      ring := { s.ring with data := put s.ring.data (index n tail) [logTagFree] }
      reader := f
      freed := s.freed ++ [tail] } : ReadSys n) start 0 g pre ms := by
  have hp := h.pending
  have hhead := h.head_end
  have hput := put_index n s.ring.data tail logTagFree
  have hout : SameGuard n s.ring.data (put s.ring.data (index n tail) [logTagFree]) := by
    rw [hput]
    exact sameGuard_store _ _ _
  refine ⟨h.dispatched,h.edge,⟨hp.tail_eq,hp.head_eq,hp.start_mod,hp.gap_mod,hp.room,?_,hp.words⟩,h.bound,?_,hf,
    h.lines,h.sorted,fun hne => absurd rfl hne⟩
  · change Holds n.val (put _ _ _) _ _
    rw [hput]
    refine hp.bytes.store_before ?_ ?_
    · rw [List.length_singleton]
      omega
    · rw [length_flatMap_sealed]
      omega
  · rw [← h.guard_eq]
    exact SameGuard.guardWord (r := s.ring)
      (t := { s.ring with data := put s.ring.data (index n tail) [logTagFree] }) hout

theorem Layout.call (h : Layout guard s start gap g pre ms) {tail : ℕ} {out : Option LogLine}
    (hev : EventsBelow s tail) (hout : ∀ line, out = some line → ∃ m, ⟨tail,m⟩ ∈ place 0 s.dispatched ∧ line = m.line)
    {f : Reader} (hf : f.head ≤ s.ring.head) :
    Layout guard ({ s with reader := f, events := s.events ++ [(tail,out)] } : ReadSys n) start gap g pre ms := by
  refine ⟨h.dispatched,h.edge,h.pending,h.bound,h.guard_eq,hf,?_,?_,h.from_freed⟩
  · intro e he line hl
    rcases List.mem_append.mp he with he | he
    · exact h.lines e he line hl
    · obtain rfl := List.mem_singleton.mp he
      exact hout line hl
  · rw [List.map_append,List.pairwise_append]
    refine ⟨h.sorted,List.pairwise_singleton _ _,fun x hx y hy => ?_⟩
    obtain ⟨e,he,rfl⟩ := List.mem_map.mp hx
    obtain rfl : y = tail := by simpa using hy
    exact hev e he

theorem Held.reader {m : LogArgs} (h : Held s start gap ms m) {f : Reader} (htail : f.tail = s.reader.tail)
    (hhdr : f.hdr = s.reader.hdr) : Held ({ s with reader := f } : ReadSys n) start gap ms m := by
  have hheader : f.header = s.reader.header := by rw [Reader.header,hhdr,Reader.header]
  refine ⟨?_,?_,h.gap_eq,?_,?_,?_⟩ <;> simp only [htail,hheader]
  · exact h.placed
  · exact h.le
  · exact h.front
  · exact h.hdr
  · exact h.intact

theorem Held.tail_mod {m : LogArgs} (h : Held s start gap ms m) : s.reader.tail % 8 = 0 := place_mod h.placed

/-- A verified record yields its callback invocation, whatever happens to it afterwards. -/
theorem Held.line {m : LogArgs} (h : Held s start gap ms m) (hguard : s.ring.guardWord = guard)
    (hp : PayloadLoaded s) (hlen : s.reader.buf.length = max 4 m.len) (hroom : s.ring.head ≤ s.reader.tail + n.val) :
    s.reader.header.line s.reader.buf = m.lineAt n guard s.reader.tail := by
  rw [hp hroom,hlen,payloadBytes_eq,h.hdr,(h.intact hroom).line_eq h.tail_mod]
  rw [← hguard]
  rfl

/-- What passes the tail check is the oldest live record, with its header. -/
theorem Layout.held (h : Layout guard s start gap g pre ms) (hset : gap ≠ 0 → g < start)
    (htail : start = s.reader.tail) (hlt : s.reader.tail < s.reader.head)
    (hlen : s.reader.hdr.length = hdrSize) (hh : HdrLoaded s start gap) (hG : ¬InsideFreed s s.reader.tail) :
    ∃ m, Held s start gap ms m := by
  have hsnap := h.snapshot
  have hgap : gap = 0 := by
    by_contra hne
    obtain ⟨hfreed,hle,_,q,m,hq,hgq⟩ := h.from_freed hne
    have hedge := h.edge
    rw [hq,bytesOf_append,bytesOf_cons,bytesOf_nil] at hedge
    refine hG ⟨⟨g,m⟩,?_,hfreed,?_,?_⟩
    · rw [h.dispatched,hq,List.append_assoc]
      exact mem_place_iff.mpr ⟨q,ms,rfl,by rw [Nat.zero_add]; exact hgq.symm⟩
    · have := hset hne
      change g < _
      omega
    · change _ < g + m.size
      omega
  obtain ⟨m,ms',hms,hrec⟩ := h.edge_record (by omega)
  have hedge := h.edge
  rw [hgap,Nat.add_zero,htail] at hrec
  refine ⟨m,?_,by omega,hgap,fun _ => ⟨ms',hms⟩,?_,fun _ => hrec⟩
  · rw [h.dispatched,hms]
    exact mem_place_iff.mpr ⟨pre,ms',rfl,by rw [Nat.zero_add]; change s.reader.tail = bytesOf pre; omega⟩
  · rw [Reader.header,hh ⟨htail,hgap⟩,hlen,ofBytes_hdrBytes,hrec.loadHdr_eq]

theorem ReadInv.access (h : ReadInv guard s) (hG : Found s) (hne : s.reader.pc ≠ .idle) : ReadInv guard s.access := by
  obtain ⟨start,gap,g,pre,ms,hl,hst⟩ := h
  have htail := hl.tail_eq
  have hsnap := hl.snapshot
  unfold Stage at hst
  unfold Found at hG
  cases hpc : s.reader.pc <;> simp only [hpc,ReadSys.access] at hst hG ⊢
  case idle => exact absurd hpc hne
  case loadTail => exact hl.loop hst
  case reload => exact hl.loop hst
  case loadPending =>
    obtain ⟨hset,hblank,hle,hlt⟩ := hst
    split
    · exact hl.loop hset
    · exact ⟨start,gap,g,pre,ms,hl.reader hsnap,hset,hblank,hle,hlt⟩
  case loadFresh =>
    obtain ⟨hset,hblank,hle,hlt⟩ := hst
    split
    · exact hl.loop hset
    · exact ⟨start,gap,g,pre,ms,hl.reader hsnap,hset,hblank,Nat.le_add_right_of_le hle,hlt⟩
  case loadTag =>
    obtain ⟨hset,hblank,hle,hlt⟩ := hst
    refine ⟨start,gap,g,pre,ms,hl.reader hsnap,?_⟩
    split
    · refine ⟨hset,hblank.2,hle,hlt,?_,fun _ => ?_⟩
      · simp only [hblank.1,List.length_nil,hdrSize]
        omega
      · simp only [hblank.1]
        rfl
    · exact ⟨hset,hblank,hle,hlt⟩
  case search =>
    obtain ⟨hset,hblank,hle,hlt⟩ := hst
    have hand : index n s.reader.tail &&& 7 = s.reader.tail % 8 := by
      rw [← index_mod_eight n]
      exact Nat.and_two_pow_sub_one_eq_mod _ 3
    refine ⟨start,gap,g,pre,ms,?_⟩
    split
    · rename_i hseal
      exact ⟨hl.reader hsnap,hset,hblank,hle,hlt,by rw [← hand]; exact hseal.2⟩
    · rename_i hnext
      have hinside : s.reader.tail < start + gap := by
        refine hle.lt_of_ne fun hedge => hnext ?_
        obtain ⟨m,ms',_,hrec⟩ := hl.edge_record (by omega)
        have hmod := hl.pending.start_mod
        have hgmod := hl.pending.gap_mod
        rw [← hedge] at hrec
        exact ⟨hrec.tag_eq,by omega⟩
      refine ⟨hl.reader hsnap,?_⟩
      split
      · rename_i hmore
        exact ⟨hset,hblank,hinside,hmore⟩
      · exact hset
  case storeSync =>
    obtain ⟨hset,hblank,hle,hlt,hmod⟩ := hst
    have hstart : start ≤ s.reader.tail := by omega
    refine ⟨s.reader.tail,_,g,pre,ms,hl.moveTail hstart hle hmod hsnap fun _ => hset.2 (by omega),?_⟩
    refine ⟨⟨hset.1.mono hstart,fun hne => ?_⟩,hblank.2,le_rfl,hlt,?_,fun _ => ?_⟩
    · have := hset.2 (by omega)
      omega
    · simp only [hblank.1,List.length_nil,hdrSize]
      omega
    · simp only [hblank.1]
      rfl
  case loadHdr =>
    obtain ⟨hset,hbuf,hle,hlt,hlen,hh⟩ := hst
    refine ⟨start,gap,g,pre,ms,hl.reader hsnap,?_⟩
    have hh' : start = s.reader.tail ∧ gap = 0 → s.reader.hdr ++ [s.ring.data (hdrAddr n s.reader.tail s.reader.hdr.length)] =
        hdrBytes n s.ring.data s.reader.tail (s.reader.hdr.length + 1) := by
      intro hfront
      rw [hdrBytes_succ,← hh hfront]
    split
    · rename_i hmore
      exact ⟨hset,hbuf,hle,hlt,by simpa using hmore,by simpa only [HdrLoaded,List.length_append,List.length_singleton] using hh'⟩
    · rename_i hdone
      refine ⟨hset,hbuf,hle,hlt,?_,by simpa only [HdrLoaded,List.length_append,List.length_singleton] using hh'⟩
      simp only [List.length_append,List.length_singleton]
      omega
  case checkTail =>
    obtain ⟨hset,hbuf,hle,hlt,hlen,hh⟩ := hst
    refine ⟨start,gap,g,pre,ms,hl.reader hsnap,?_⟩
    split
    · exact hset
    · rename_i hpass
      have hfront : start = s.reader.tail := by omega
      obtain ⟨m,hm⟩ := hl.held hset.2 hfront hlt hlen hh (hG (by omega))
      refine ⟨hset.1.mono hfront.le,fun _ => ?_,m,hm.reader rfl rfl,?_⟩
      · simp only [hbuf]
        rfl
      · simp only [hbuf,List.length_nil]
        omega
  case loadPayload =>
    obtain ⟨hev,hp,m,hm,hlen⟩ := hst
    have hp' : s.ring.head ≤ s.reader.tail + n.val →
        s.reader.buf ++ [s.ring.data (payloadAddr n s.reader.tail s.reader.buf.length)] =
        payloadBytes n s.ring.data s.reader.tail (s.reader.buf.length + 1) := by
      intro hroom
      rw [payloadBytes_succ,← hp hroom]
    have hlen' : s.reader.header.len.toNat = m.len := by rw [hm.hdr,m.taggedHdr_len]
    refine ⟨start,gap,g,pre,ms,hl.reader hsnap,?_⟩
    rw [hlen']
    split
    · rename_i hmore
      refine ⟨hev,by simpa only [PayloadLoaded,List.length_append,List.length_singleton] using hp',m,hm.reader rfl rfl,?_⟩
      simpa using hmore
    · rename_i hdone
      refine ⟨hev,by simpa only [PayloadLoaded,List.length_append,List.length_singleton] using hp',m,hm.reader rfl rfl,?_⟩
      simp only [List.length_append,List.length_singleton]
      omega
  case verify =>
    obtain ⟨hev,hp,m,hm,hlen⟩ := hst
    refine ⟨start,gap,g,pre,ms,hl.reader hsnap,?_⟩
    split
    · exact ⟨hev.mono hm.le,fun hne => absurd hm.gap_eq hne⟩
    · rename_i hseal
      exact ⟨hev,m,hm.reader rfl rfl,hm.line hl.guard_eq hp hlen (hG (not_not.mp hseal))⟩
  case call =>
    obtain ⟨hev,m,hm,hline⟩ := hst
    refine ⟨start,gap,g,pre,ms,hl.call hev ?_ hsnap,?_,by simp,m,?_⟩
    · intro line hout
      split at hout
      · rename_i hw
        obtain rfl := Option.some.inj hout
        refine ⟨m,hm.placed,?_⟩
        rw [hline,LogArgs.lineAt_eq_line (by rw [← hl.guard_eq]; exact s.ring.guardWord_length),← hl.guard_eq]
        exact hG hw _ hm.placed rfl
      · cases hout
    · intro e he
      rcases List.mem_append.mp he with he | he
      · exact Nat.lt_succ_of_lt (hev e he)
      · obtain rfl := List.mem_singleton.mp he
        exact Nat.lt_succ_self _
    · exact ⟨hm.placed,hm.le,hm.gap_eq,hm.front,hm.hdr,hm.intact⟩
  case storeFree =>
    obtain ⟨hev,hmem,m,hm⟩ := hst
    obtain rfl := hm.gap_eq
    rcases hm.le.eq_or_lt with hfront | hbehind
    · obtain ⟨ms',rfl⟩ := hm.front hfront.symm
      subst hfront
      exact ⟨s.reader.tail,m.size,s.reader.tail,pre ++ [m],ms',hl.storeFree_front hsnap,hev,fun _ => rfl,m,hm.placed,
        hm.hdr,le_rfl,fun _ => rfl⟩
    · exact ⟨start,0,g,pre,ms,hl.storeFree_behind hbehind hG hsnap,hev,fun hne => absurd rfl hne,m,hm.placed,hm.hdr,
        hm.le,fun he => absurd he hbehind.ne'⟩
  case loadPending2 =>
    obtain ⟨hev,hg,m,hp,hhdr,hle,hgap⟩ := hst
    have hend : s.reader.tail + m.size ≤ bytesOf s.dispatched := place_end_le hp
    have hb := hl.bound
    have h16 := m.sixteen_le_size
    split
    · have hfront : start = s.reader.tail := by omega
      have hsize := hgap hfront
      have hstop : u32 (s.reader.tail + s.reader.header.size) = s.reader.tail + m.size := by
        rw [hhdr,m.taggedHdr_size]
        exact u32_of_lt (by omega)
      rw [hstop]
      exact ⟨start,gap,g,pre,ms,hl.reader hsnap,hev.mono (by omega : s.reader.tail + 1 ≤ s.reader.tail + m.size),
        (by omega : s.reader.tail + m.size ≤ start + gap),fun _ => (by omega : start + gap = s.reader.tail + m.size)⟩
    · refine hl.loop ⟨hev.mono (by omega),fun hne => ?_⟩
      have := hg hne
      omega
  case storeTail =>
    obtain ⟨hev,hle,hgap⟩ := hst
    have hmod := hl.pending.start_mod
    have hgmod := hl.pending.gap_mod
    have hedge : start + gap = s.reader.tail := by
      rcases Nat.eq_zero_or_pos gap with h0 | hpos
      · omega
      · exact hgap hpos.ne'
    exact ⟨s.reader.tail,_,g,pre,ms,hl.moveTail (by omega) hle (by omega) hsnap fun hlt => absurd hedge hlt.ne',
      stage_loop (s := { s with ring := { s.ring with tail := s.reader.tail } })
        ⟨hev,fun hne => absurd (Nat.sub_eq_zero_of_le hedge.le) hne⟩ s.reader⟩
  case clear =>
    have hp := hl.pending
    exact ⟨start,gap,g,pre,ms,⟨hl.dispatched,hl.edge,⟨hp.1,hp.2,hp.3,hp.4,hp.5,hp.6,hp.7⟩,hl.bound,hl.guard_eq,
      Nat.zero_le _,hl.lines,hl.sorted,hl.from_freed⟩,hst⟩

theorem access_frame (s : ReadSys n) : s.access.dispatched = s.dispatched ∧
    (s.reader.pc ≠ .storeFree → s.access.ring.data = s.ring.data) := by
  cases hpc : s.reader.pc <;> simp only [ReadSys.access,hpc] <;> try split
  all_goals simp

theorem readStep_dispatched {label : ReadLabel} (hs : readStep s label = some t) :
    bytesOf s.dispatched ≤ bytesOf t.dispatched := by
  cases label with
  | dispatch m =>
    obtain ⟨r,_,rfl⟩ := Option.map_eq_some_iff.mp hs
    by_cases hm : m.Accepted
    · simp only [if_pos hm,bytesOf_append]
      omega
    · simp only [if_neg hm]
      exact le_rfl
  | flash writer =>
    rw [readStep] at hs
    split at hs
    · cases hs
      exact le_rfl
    · cases hs
  | access =>
    rw [readStep] at hs
    split at hs
    · cases hs
    · cases hs
      rw [(access_frame s).1]

theorem ReadInv.step {label : ReadLabel} (h : ReadInv guard s) (hG : Harmless s label)
    (hs : readStep s label = some t) (hb : bytesOf t.dispatched < 2 ^ 32) : ReadInv guard t := by
  cases label with
  | dispatch m =>
    by_cases hm : m.Accepted
    · obtain ⟨start,gap,g,pre,ms,hl,hst⟩ := h
      obtain ⟨start',gap',pre',ms',hl',hadv⟩ := hl.dispatch hm (hG hm) hs hb
      exact ⟨start',gap',g,pre',ms',hl',hadv.stage hl hst⟩
    · rw [readStep,logDispatch_rejected _ hm,if_neg hm] at hs
      cases hs
      exact h
  | flash writer =>
    rw [readStep] at hs
    split at hs
    · rename_i hpc
      obtain ⟨start,gap,g,pre,ms,hl,hst⟩ := h
      unfold Stage at hst
      simp only [hpc] at hst
      cases hs
      exact ⟨start,gap,g,pre,ms,hl.reader le_rfl,hst⟩
    · cases hs
  | access =>
    by_cases hpc : s.reader.pc = .idle
    · rw [readStep,if_pos hpc] at hs
      cases hs
    · rw [readStep_access hpc] at hs
      cases hs
      exact h.access hG hpc

theorem readInv_boot {r : LogRing n} (hr : Boot r) : ReadInv r.guardWord (ReadSys.boot r) :=
  ⟨0,0,0,[],[],⟨rfl,rfl,hr.pending,by simp [ReadSys.boot],rfl,Nat.zero_le _,by simp [ReadSys.boot],
    by simp [ReadSys.boot],fun hne => absurd rfl hne⟩,by simp [Stage,ReadSys.boot,Reader.idle,EventsBelow]⟩

/-- Every callback invocation carries one dispatched message, and no message two of them. -/
structure Delivers (s : ReadSys n) : Prop where
  intact : ∀ e ∈ s.events, ∀ line, e.2 = some line → ∃ m, ⟨e.1,m⟩ ∈ place 0 s.dispatched ∧ line = m.line
  once : (s.events.map Prod.fst).Nodup

/-- No byte of a live record that the flash has not delivered changes. -/
def Spares (s t : ReadSys n) : Prop :=
  ∀ p ∈ place 0 s.dispatched, p.pos ∉ s.events.map Prod.fst → s.ring.tail ≤ p.pos →
    ∀ i < p.msg.size, t.ring.data ((p.pos + i) % n.val) = s.ring.data ((p.pos + i) % n.val)

theorem ReadInv.delivers (h : ReadInv guard s) : Delivers s := by
  obtain ⟨start,gap,g,pre,ms,hl,_⟩ := h
  exact ⟨hl.lines,hl.sorted.imp fun hlt => hlt.ne⟩

theorem ReadInv.spares (h : ReadInv guard s) (hG : Found s) (hs : readStep s .access = some t) : Spares s t := by
  obtain ⟨start,gap,g,pre,ms,hl,hst⟩ := h
  by_cases hpc : s.reader.pc = .idle
  · rw [readStep,if_pos hpc] at hs
    cases hs
  rw [readStep_access hpc] at hs
  cases hs
  by_cases hfree : s.reader.pc = .storeFree
  · unfold Stage at hst
    unfold Found at hG
    simp only [hfree] at hst hG
    obtain ⟨_,hmem,m,hm⟩ := hst
    intro p hp hnew hlive i hi
    have hend := place_end_le hp
    have hhead := hl.head_eq
    have hle := hm.le
    have htail := hl.tail_eq
    have hne : p.pos ≠ s.reader.tail := fun he => hnew (he ▸ hmem)
    have hdata : s.access.ring.data = put s.ring.data (index n s.reader.tail) [logTagFree] := by
      unfold ReadSys.access
      simp only [hfree]
    rw [hdata,put,put_nil,index_eq]
    refine Function.update_of_ne (fun he => ?_) _ _
    have := position_inj (n := n.val) (p := s.reader.tail) (i := p.pos + i - s.reader.tail) (j := 0) (by omega)
      (by omega) (by rw [Nat.add_zero,← he]; congr 1; omega)
    omega
  · intro p _ _ _ i _
    rw [(access_frame s).2 hfree]

/-- In every run whose steps all find what the reader relies on, the deliveries are right,
and the next access spares what has not been delivered. -/
theorem harmless_delivers {r : LogRing n} (hr : Boot r) {labels : List ReadLabel}
    (hG : Meets readStep Harmless (ReadSys.boot r) labels)
    (hs : exec readStep (ReadSys.boot r) labels = some s) (hres : bytesOf s.dispatched < 2 ^ 32) :
    Delivers s ∧ (Harmless s .access → ∀ t, readStep s .access = some t → Spares s t) := by
  have hinv : bytesOf s.dispatched < 2 ^ 32 → ReadInv r.guardWord s :=
    Machine.invariant readStep (I := fun s => bytesOf s.dispatched < 2 ^ 32 → ReadInv r.guardWord s)
      (fun _ _ _ h hG hs hb => (h ((readStep_dispatched hs).trans_lt hb)).step hG hs hb)
      (fun _ => readInv_boot hr) hG hs
  exact ⟨(hinv hres).delivers,fun hf t ht => (hinv hres).spares hf ht⟩

/-- A message arrives while the flash of another one is under way. -/
def quietFlash : List ReadLabel :=
  [.dispatch greeting,.flash true] ++ List.replicate 10 .access ++ [.dispatch greeting] ++ List.replicate 16 .access

theorem harmless_delivers_greetings : ∃ s,
    exec readStep (ReadSys.boot (initialRing bufSize512)) quietFlash = some s ∧ Delivers s ∧
      (Harmless s .access → ∀ t, readStep s .access = some t → Spares s t) := by
  obtain ⟨s,hs⟩ := Option.isSome_iff_exists.mp
    (show (exec readStep (ReadSys.boot (initialRing bufSize512)) quietFlash).isSome by decide)
  have hmsg : (exec readStep (ReadSys.boot (initialRing bufSize512)) quietFlash).map ReadSys.dispatched =
      some [greeting,greeting] := rfl
  rw [hs] at hmsg
  refine ⟨s,hs,harmless_delivers (boot_initialRing _) (by decide) hs ?_⟩
  rw [Option.some.inj hmsg]
  decide

/-- Two long messages arrive after the callback: they lap the record whose tag is freed next. -/
def lappedFlash : List ReadLabel :=
  [.dispatch greeting,.flash true] ++ List.replicate 22 .access ++ [.dispatch longText,.dispatch longText]

set_option maxRecDepth 10000 in
theorem lapped_not_spares : ∃ s t,
    exec readStep (ReadSys.boot (initialRing bufSize512)) lappedFlash = some s ∧ bytesOf s.dispatched < 2 ^ 32 ∧
      readStep s .access = some t ∧ ¬Spares s t := by
  have hrun : (exec readStep (ReadSys.boot (initialRing bufSize512)) lappedFlash).map (fun s =>
      (s.reader.pc,s.ring.tail,s.ring.data 0,s.access.ring.data 0,s.events.map Prod.fst)) =
      some (.storeFree,288,65,0xDF,[0]) := by decide +kernel
  have hmsg : (exec readStep (ReadSys.boot (initialRing bufSize512)) lappedFlash).map ReadSys.dispatched =
      some [greeting,longText,longText] := rfl
  obtain ⟨s,hs,hrun⟩ := Option.map_eq_some_iff.mp hrun
  rw [hs] at hmsg
  simp only [Prod.mk.injEq,Option.map_some,Option.some.injEq] at hrun hmsg
  obtain ⟨hpc,htail,hbefore,hafter,hev⟩ := hrun
  refine ⟨s,s.access,hs,by rw [hmsg]; decide,readStep_access (by rw [hpc]; decide),fun h => ?_⟩
  have hbyte := h ⟨288,longText⟩ (by rw [hmsg]; exact mem_place_iff.mpr ⟨[greeting,longText],[],rfl,by decide⟩)
    (by rw [hev]; decide) htail.le 224 (by decide)
  rw [show (288 + 224) % bufSize512.val = 0 from rfl,hbefore,hafter] at hbyte
  cases hbyte

end EmbedTemplate.Logging
