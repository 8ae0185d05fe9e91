import EmbedTemplate.Logging.ReaderRun

/-! # The invariant of a reader that writers interrupt

Between two accesses of a flash any number of messages may be dispatched, which drops
records under the reader and reuses their bytes. The layout describes the ring at any
such moment: live records up to the head, and in front of them what is left of a record
whose tag the reader has freed but not yet stepped over. Each access of the flash has
its own stage, and a dispatch keeps every stage.
-/
namespace EmbedTemplate.Logging
open Circular Bytes Machine
variable {n : BufSize}

theorem copyAddr_eq {i : ℕ} (hi : i < n.val) (p : ℕ) : copyAddr n p i = (p + i) % n.val := by
  have hlt := index_lt n p
  have hmod : (p + i) % n.val = (index n p + i) % n.val := by
    rw [index_eq,Nat.add_mod,Nat.mod_eq_of_lt hi]
  rw [copyAddr,hmod]
  split
  · rw [Nat.mod_eq_of_lt (by omega)]
  · rw [Nat.mod_eq_sub_mod (by omega),Nat.mod_eq_of_lt (by omega)]
    omega

theorem hdrAddr_eq {i : ℕ} (hi : i < 12) (tail : ℕ) : hdrAddr n tail i = (tail + i) % n.val := by
  have hn := n.le_val
  rw [hdrAddr]
  split
  · rename_i hfit
    rw [hdrSize] at hfit
    rw [← copyAddr_eq (by omega),copyAddr,if_pos (by omega)]
  · exact copyAddr_eq (by omega) tail

/-- A payload byte is loaded from its position, or from behind the ring. -/
theorem payloadAddr_eq {i : ℕ} (hi : i < n.val) (tail : ℕ) :
    payloadAddr n tail i = (tail + 12 + i) % n.val ∨ n.val ≤ payloadAddr n tail i := by
  rw [payloadAddr]
  split
  · rw [index_eq,hdrSize]
    by_cases hfit : tail % n.val + 12 + i < n.val
    · left
      rw [Nat.add_assoc,Nat.add_assoc,Nat.add_mod tail,Nat.mod_eq_of_lt (by omega : 12 + i < n.val),
        Nat.mod_eq_of_lt (by omega : tail % n.val + (12 + i) < n.val)]
    · exact .inr (by omega)
  · left
    rw [copyAddr_eq (by omega),hdrSize]
    congr 1
    omega

theorem hdrBytes_congr {d d' : ℕ → UInt8} {tail k : ℕ} (hk : k ≤ 12)
    (h : ∀ i < 12, d' ((tail + i) % n.val) = d ((tail + i) % n.val)) :
    hdrBytes n d' tail k = hdrBytes n d tail k := by
  refine List.map_congr_left fun i hi => ?_
  have hlt : i < 12 := by have := List.mem_range.mp hi; omega
  rw [hdrAddr_eq hlt,h i hlt]

theorem payloadBytes_congr {d d' : ℕ → UInt8} {tail k size : ℕ} (hk : 12 + k ≤ size) (hsize : size ≤ n.val)
    (h : ∀ i < size, d' ((tail + i) % n.val) = d ((tail + i) % n.val)) (hout : SameGuard n d d') :
    payloadBytes n d' tail k = payloadBytes n d tail k := by
  refine List.map_congr_left fun i hi => ?_
  have hlt := List.mem_range.mp hi
  rcases payloadAddr_eq (n := n) (by omega : i < n.val) tail with haddr | haddr
  · rw [haddr,Nat.add_assoc]
    exact h (12 + i) (by omega)
  · exact hout _ haddr

theorem LogArgs.max_len_le (m : LogArgs) : 12 + max 4 m.len ≤ m.size := by
  rw [m.size_eq]
  omega

/-- Strictly inside a record whose tag the reader has freed. -/
def InsideFreed (s : ReadSys n) (pos : ℕ) : Prop :=
  ∃ p ∈ place 0 s.dispatched, p.pos ∈ s.freed ∧ p.pos < pos ∧ pos < p.pos + p.msg.size

instance (s : ReadSys n) (pos : ℕ) : Decidable (InsideFreed s pos) :=
  inferInstanceAs (Decidable (∃ p ∈ place 0 s.dispatched, _))

/-- What a dispatch that comes in must not meet: its drop loop finds no seal byte at an
8-aligned place inside a freed record. -/
def CleanDrop (s : ReadSys n) (m : LogArgs) : Prop :=
  ∀ p ∈ place 0 s.dispatched, p.pos ∈ s.freed → ∀ i < p.msg.size,
    0 < i ∧ i % 8 = 0 ∧ s.ring.tail ≤ p.pos + i ∧ p.pos + i + n.val < s.ring.head + m.size →
      s.ring.data (index n (p.pos + i)) ≠ logTagSeal

instance (s : ReadSys n) (m : LogArgs) : Decidable (CleanDrop s m) := by
  unfold CleanDrop
  infer_instance

/-- What each access must find, where the reader does not check it or checks it by a tag
byte alone: the record has not been reused, the tail is not moved backwards, what passes
the tail check is a record, and its first word does not lie behind the guard. -/
def Found (s : ReadSys n) : Prop :=
  match s.reader.pc with
  | .storeSync => s.ring.tail ≤ s.reader.tail
  | .checkTail => s.ring.tail = s.reader.tail → ¬InsideFreed s s.reader.tail
  | .verify => s.ring.data (index n s.reader.tail) = logTagSeal → s.ring.head ≤ s.reader.tail + n.val
  | .call => s.reader.writer = true → ∀ p ∈ place 0 s.dispatched, p.pos = s.reader.tail →
      p.pos % n.val = n.val - 8 → s.ring.guardWord.take p.msg.len = p.msg.payload.take 4
  | .storeFree => s.ring.head ≤ s.reader.tail + n.val
  | .storeTail => s.ring.tail ≤ s.reader.tail
  | _ => True

instance (s : ReadSys n) : Decidable (Found s) := by
  unfold Found
  cases s.reader.pc <;> infer_instance

/-- The guard of the runs in which the reader's checks suffice. -/
def Harmless (s : ReadSys n) : ReadLabel → Prop
  | .dispatch m => m.Accepted → CleanDrop s m
  | .flash _ => True
  | .access => Found s

instance (s : ReadSys n) (label : ReadLabel) : Decidable (Harmless s label) := by
  cases label <;> unfold Harmless <;> infer_instance

/-- Every event lies in front of a position. -/
def EventsBelow (s : ReadSys n) (bound : ℕ) : Prop := ∀ e ∈ s.events, e.1 < bound

theorem EventsBelow.mono {s : ReadSys n} {b b' : ℕ} (h : EventsBelow s b) (hle : b ≤ b') : EventsBelow s b' :=
  fun e he => (h e he).trans_le hle

/-- What lies in the ring: behind the tail position `start` a gap left over from a freed
record, if any, that starts at `g`, and then the live records of `ms`. The messages of
`pre` have gone. -/
structure Layout (guard : List UInt8) (s : ReadSys n) (start gap g : ℕ) (pre ms : List LogArgs) : Prop where
  dispatched : s.dispatched = pre ++ ms
  edge : bytesOf pre = start + gap
  pending : Pending s.ring start gap ms
  bound : bytesOf s.dispatched < 2 ^ 32
  guard_eq : s.ring.guardWord = guard
  snapshot : s.reader.head ≤ s.ring.head
  lines : ∀ e ∈ s.events, ∀ line, e.2 = some line → ∃ m, ⟨e.1,m⟩ ∈ place 0 s.dispatched ∧ line = m.line
  sorted : (s.events.map Prod.fst).Pairwise (· < ·)
  from_freed : gap ≠ 0 → g ∈ s.freed ∧ g ≤ start ∧
    (g = start → s.ring.data (index n start) ≠ logTagSeal) ∧ ∃ q m, pre = q ++ [m] ∧ bytesOf q = g

/-- The header bytes loaded so far, as long as the record at the tail is still there. -/
def HdrLoaded (s : ReadSys n) (start gap : ℕ) : Prop :=
  start = s.reader.tail ∧ gap = 0 →
    s.reader.hdr = hdrBytes n s.ring.data s.reader.tail s.reader.hdr.length

/-- The reader has the header of message `m`. The record may have been dropped, but it is
intact unless the head has come round to it. -/
structure Held (s : ReadSys n) (start gap : ℕ) (ms : List LogArgs) (m : LogArgs) : Prop where
  placed : ⟨s.reader.tail,m⟩ ∈ place 0 s.dispatched
  le : s.reader.tail ≤ start
  gap_eq : gap = 0
  front : start = s.reader.tail → ∃ ms', ms = m :: ms'
  hdr : s.reader.header = m.taggedHdr logTagSeal
  intact : s.ring.head ≤ s.reader.tail + n.val → RecordAt n s.ring.data s.reader.tail logTagSeal m

/-- The payload bytes loaded so far. -/
def PayloadLoaded (s : ReadSys n) : Prop :=
  s.ring.head ≤ s.reader.tail + n.val →
    s.reader.buf = payloadBytes n s.ring.data s.reader.tail s.reader.buf.length

/-- The stages of a flash, by the access it makes next. -/
def Stage (guard : List UInt8) (s : ReadSys n) (start gap g : ℕ) (ms : List LogArgs) : Prop :=
  let f := s.reader
  let settled := EventsBelow s start ∧ (gap ≠ 0 → g < start)
  let blank := f.hdr = [] ∧ f.buf = []
  match f.pc with
  | .idle | .loadTail | .reload | .clear => settled
  | .loadPending | .loadTag | .loadFresh => settled ∧ blank ∧ f.tail ≤ start ∧ f.tail < f.head
  | .search => settled ∧ blank ∧ f.tail ≤ start + gap ∧ f.tail < f.head
  | .storeSync => settled ∧ blank ∧ f.tail ≤ start + gap ∧ f.tail < f.head ∧ f.tail % 8 = 0
  | .loadHdr => settled ∧ f.buf = [] ∧ f.tail ≤ start ∧ f.tail < f.head ∧ f.hdr.length < hdrSize ∧
      HdrLoaded s start gap
  | .checkTail => settled ∧ f.buf = [] ∧ f.tail ≤ start ∧ f.tail < f.head ∧ f.hdr.length = hdrSize ∧
      HdrLoaded s start gap
  | .loadPayload => EventsBelow s f.tail ∧ PayloadLoaded s ∧
      ∃ m, Held s start gap ms m ∧ f.buf.length < max 4 m.len
  | .verify => EventsBelow s f.tail ∧ PayloadLoaded s ∧
      ∃ m, Held s start gap ms m ∧ f.buf.length = max 4 m.len
  | .call => EventsBelow s f.tail ∧
      ∃ m, Held s start gap ms m ∧ f.header.line f.buf = m.lineAt n guard f.tail
  | .storeFree => EventsBelow s (f.tail + 1) ∧ f.tail ∈ s.events.map Prod.fst ∧
      ∃ m, Held s start gap ms m
  | .loadPending2 => EventsBelow s (f.tail + 1) ∧ (gap ≠ 0 → g = f.tail) ∧
      ∃ m, ⟨f.tail,m⟩ ∈ place 0 s.dispatched ∧ f.header = m.taggedHdr logTagSeal ∧ f.tail ≤ start ∧
        (start = f.tail → gap = m.size)
  | .storeTail => EventsBelow s f.tail ∧ f.tail ≤ start + gap ∧ (gap ≠ 0 → start + gap = f.tail)

def ReadInv (guard : List UInt8) (s : ReadSys n) : Prop :=
  ∃ start gap g pre ms, Layout guard s start gap g pre ms ∧ Stage guard s start gap g ms

section Dispatch
variable {guard : List UInt8} {s t : ReadSys n} {start gap g start' gap' : ℕ} {pre ms ms' : List LogArgs}
  {m : LogArgs}

theorem Layout.head_eq (h : Layout guard s start gap g pre ms) : s.ring.head = bytesOf s.dispatched := by
  have hb := h.bound
  have hd : bytesOf s.dispatched = start + gap + bytesOf ms := by rw [h.dispatched,bytesOf_append,h.edge]
  rw [h.pending.head_eq,hd,u32_of_lt (by omega)]

theorem Layout.head_end (h : Layout guard s start gap g pre ms) : s.ring.head = start + gap + bytesOf ms := by
  rw [h.head_eq,h.dispatched,bytesOf_append,h.edge]

theorem Layout.tail_eq (h : Layout guard s start gap g pre ms) : s.ring.tail = start := by
  have hb := h.bound
  rw [h.dispatched,bytesOf_append,h.edge] at hb
  rw [h.pending.tail_eq,u32_of_lt (by omega)]

/-- What a dispatch between two accesses can do to the ring: the tail and the edge of the
live records only move on, and the bytes less than one capacity behind the head stay. -/
structure Advance (s t : ReadSys n) (start gap : ℕ) (ms : List LogArgs) (start' gap' : ℕ)
    (ms' : List LogArgs) : Prop where
  start_le : start ≤ start'
  edge_le : start + gap ≤ start' + gap'
  gap_zero : gap = 0 → gap' = 0
  gap_edge : gap' ≠ 0 → start' + gap' = start + gap
  still : start' = start → gap' = gap ∧ ∃ x, ms' = ms ++ [x]
  reader_eq : t.reader = s.reader
  events_eq : t.events = s.events
  freed_eq : t.freed = s.freed
  dispatched : ∃ x, t.dispatched = s.dispatched ++ [x]
  head_le : s.ring.head ≤ t.ring.head
  room : t.ring.head ≤ start' + n.val
  bytes : ∀ pos < s.ring.head, t.ring.head ≤ pos + n.val → t.ring.data (pos % n.val) = s.ring.data (pos % n.val)
  outside : SameGuard n s.ring.data t.ring.data

/-- What the dispatch meets in front of the live records does not look like a seal. -/
theorem Layout.clean (h : Layout guard s start gap g pre ms) (hG : CleanDrop s m) :
    Clean s.ring start (min gap (gap + bytesOf ms + m.size - n.val)) := by
  intro k hk
  obtain ⟨hfreed,hg,htag,q,x,hq,hgq⟩ := h.from_freed (by omega)
  have hedge := h.edge
  have hstart := h.pending.start_mod
  have hqmod := bytesOf_mod q
  rw [hq,bytesOf_append,bytesOf_cons,bytesOf_nil] at hedge
  rcases Nat.eq_zero_or_pos (start + 8 * k - g) with h0 | hpos
  · obtain rfl : k = 0 := by omega
    exact htag (by omega)
  · have hx : (⟨g,x⟩ : Placed) ∈ place 0 s.dispatched := by
      rw [h.dispatched,hq,List.append_assoc]
      exact mem_place_iff.mpr ⟨q,ms,rfl,by rw [Nat.zero_add]; exact hgq.symm⟩
    have hfree : ∀ i < x.size, 0 < i ∧ i % 8 = 0 ∧ s.ring.tail ≤ g + i ∧ g + i + n.val < s.ring.head + m.size →
        s.ring.data (index n (g + i)) ≠ logTagSeal := hG ⟨g,x⟩ hx hfreed
    have hne := hfree (start + 8 * k - g) (by omega)
      ⟨hpos,by omega,by rw [h.tail_eq]; omega,by rw [h.head_end]; omega⟩
    rwa [show g + (start + 8 * k - g) = start + 8 * k by omega] at hne

theorem Layout.dispatch (h : Layout guard s start gap g pre ms) (hm : m.Accepted) (hG : CleanDrop s m)
    (hs : readStep s (.dispatch m) = some t) (hb : bytesOf t.dispatched < 2 ^ 32) :
    ∃ start' gap' pre' ms', Layout guard t start' gap' g pre' ms' ∧
      Advance s t start gap ms start' gap' ms' := by
  obtain ⟨r',start',gap',hr,hd⟩ := h.pending.logDispatch hm (h.clean hG)
  rw [readStep,hr,if_pos hm] at hs
  cases hs
  obtain ⟨gone,hgone⟩ := kept_suffix n m.size ms
  have hend := hd.end_eq
  have hfits := hd.fits
  have hgap := hd.gap_le
  have hle := bytesOf_kept_le n m.size ms
  have hedge := h.edge
  have hhead := h.head_end
  have hsplit := congrArg bytesOf hgone
  rw [bytesOf_append] at hsplit
  have hout : SameGuard n s.ring.data r'.data := by
    rw [hd.data]
    exact sameGuard_store _ _ _
  have hhead' : r'.head = s.ring.head + m.size := by
    change bytesOf (s.dispatched ++ [m]) < _ at hb
    rw [h.dispatched,bytesOf_append,bytesOf_append,bytesOf_cons,bytesOf_nil] at hb
    rw [hd.pending.head_eq,bytesOf_append,bytesOf_cons,bytesOf_nil,u32_of_lt (by omega)]
    omega
  have hbytes : ∀ pos < s.ring.head, r'.head ≤ pos + n.val →
      r'.data (pos % n.val) = s.ring.data (pos % n.val) := by
    intro pos hpos hroom
    have := store_ahead (n := n.val) s.ring.data (p := pos) (q := s.ring.head) (i := 0) m.sealed
      (by omega) (by rw [m.sealed_length]; omega)
    rw [hd.data,← hhead]
    exact this
  have hstill : start' = start → gap' = gap ∧ kept n m.size ms = ms := by
    intro he
    have hk : kept n m.size ms = ms := kept_eq_self (by omega)
    rw [hk] at hend
    exact ⟨by omega,hk⟩
  have hedge' : gap' ≠ 0 → start' + gap' = start + gap := by
    intro hne
    rw [hd.gap_first hne] at hend
    omega
  refine ⟨start',gap',pre ++ gone,_,⟨?_,?_,hd.pending,hb,?_,?_,?_,h.sorted,?_⟩,⟨by omega,by omega,by omega,
    hedge',?_,rfl,rfl,rfl,⟨m,rfl⟩,by change _ ≤ r'.head; omega,
    by change r'.head ≤ _; omega,hbytes,hout⟩⟩
  · change s.dispatched ++ [m] = _
    nth_rewrite 1 [h.dispatched,← hgone]
    simp only [List.append_assoc]
  · rw [bytesOf_append]
    omega
  · change LogRing.guardWord r' = _
    rw [hout.guardWord,h.guard_eq]
  · have := h.snapshot
    change s.reader.head ≤ r'.head
    omega
  · intro e he line hl
    obtain ⟨x,hx,hline⟩ := h.lines e he line hl
    exact ⟨x,mem_place_append hx _,hline⟩
  · intro hne
    obtain ⟨hfreed,hg,htag,q,x,hq,hgq⟩ := h.from_freed (by omega)
    have hgone0 : gone = [] := by
      have hk := hd.gap_first hne
      rw [hk] at hgone
      simpa using hgone
    refine ⟨hfreed,by omega,fun he => ?_,q,x,by rw [hgone0,List.append_nil,hq],hgq⟩
    have hs' : start' = start := by omega
    have hdata := hbytes start (by omega) (by omega)
    have := htag (by omega)
    rw [index_eq] at this ⊢
    change r'.data _ ≠ _
    rwa [hs',hdata]
  · intro he
    obtain ⟨hg,hk⟩ := hstill he
    exact ⟨hg,m,by rw [hk]⟩

theorem Advance.events (h : Advance s t start gap ms start' gap' ms') {b b' : ℕ} (he : EventsBelow s b)
    (hle : b ≤ b') : EventsBelow t b' := by
  rw [EventsBelow,h.events_eq]
  exact he.mono hle

theorem Advance.settled (h : Advance s t start gap ms start' gap' ms')
    (hs : EventsBelow s start ∧ (gap ≠ 0 → g < start)) :
    EventsBelow t start' ∧ (gap' ≠ 0 → g < start') := by
  refine ⟨h.events hs.1 h.start_le,fun hne => ?_⟩
  have := hs.2 fun h0 => hne (h.gap_zero h0)
  have := h.start_le
  omega

theorem Advance.placed (h : Advance s t start gap ms start' gap' ms') {p : Placed}
    (hp : p ∈ place 0 s.dispatched) : p ∈ place 0 t.dispatched := by
  obtain ⟨x,hx⟩ := h.dispatched
  rw [hx]
  exact mem_place_append hp [x]

theorem Advance.hdrLoaded (h : Advance s t start gap ms start' gap' ms') (hl : Layout guard s start gap g pre ms)
    (hle : s.reader.tail ≤ start) (hlt : s.reader.tail < s.reader.head) (hlen : s.reader.hdr.length ≤ 12)
    (hh : HdrLoaded s start gap) : HdrLoaded t start' gap' := by
  rintro ⟨htail,h0⟩
  rw [h.reader_eq] at htail ⊢
  have hstart := h.start_le
  have hroom := h.room
  have hsnap := hl.snapshot
  have hhead := hl.head_end
  obtain ⟨hgap,_⟩ := h.still (by omega)
  have h16 : 12 ≤ bytesOf ms := by
    cases ms with
    | nil =>
      rw [bytesOf_nil] at hhead
      omega
    | cons m ms =>
      have := m.sixteen_le_size
      rw [bytesOf_cons]
      omega
  rw [hh ⟨by omega,by omega⟩,hdrBytes_length]
  exact (hdrBytes_congr hlen fun i hi => h.bytes _ (by omega) (by omega)).symm

theorem Held.end_le (h : Held s start gap ms m) (hl : Layout guard s start gap g pre ms) :
    s.reader.tail + m.size ≤ s.ring.head := by
  rw [hl.head_eq]
  exact place_end_le h.placed

theorem Advance.record (h : Advance s t start gap ms start' gap' ms') {tail : ℕ} {tag : UInt8}
    (hend : tail + m.size ≤ s.ring.head) (hroom : t.ring.head ≤ tail + n.val)
    (hr : RecordAt n s.ring.data tail tag m) : RecordAt n t.ring.data tail tag m := by
  refine Holds.congr hr fun i hi => ?_
  rw [m.record_length] at hi
  exact h.bytes _ (by omega) (by omega)

theorem Advance.held (h : Advance s t start gap ms start' gap' ms') (hl : Layout guard s start gap g pre ms)
    (hh : Held s start gap ms m) : Held t start' gap' ms' m := by
  have hstart := h.start_le
  have hle := hh.le
  have hhead := h.head_le
  have htail : t.reader.tail = s.reader.tail := by rw [h.reader_eq]
  refine ⟨?_,by rw [htail]; omega,h.gap_zero hh.gap_eq,?_,by rw [h.reader_eq]; exact hh.hdr,?_⟩
  · rw [htail]
    exact h.placed hh.placed
  · intro he
    obtain ⟨_,x,hx⟩ := h.still (by omega)
    obtain ⟨rest,hrest⟩ := hh.front (by omega)
    exact ⟨rest ++ [x],by rw [hx,hrest,List.cons_append]⟩
  · rw [htail]
    intro hroom
    exact h.record (hh.end_le hl) hroom (hh.intact (by omega))

theorem Advance.payloadLoaded (h : Advance s t start gap ms start' gap' ms')
    (hl : Layout guard s start gap g pre ms) (hh : Held s start gap ms m)
    (hlen : s.reader.buf.length ≤ max 4 m.len) (hp : PayloadLoaded s) : PayloadLoaded t := by
  rw [PayloadLoaded,h.reader_eq]
  intro hroom
  have hhead := h.head_le
  have hend := hh.end_le hl
  have hsize := m.size_le
  have hmax := m.max_len_le
  have hn := n.le_val
  nth_rewrite 1 [hp (by omega)]
  rw [payloadBytes_congr (by omega : 12 + s.reader.buf.length ≤ m.size) (by omega)
    (fun i hi => h.bytes _ (by omega) (by omega)) h.outside]

theorem Advance.stage (h : Advance s t start gap ms start' gap' ms') (hl : Layout guard s start gap g pre ms)
    (hst : Stage guard s start gap g ms) : Stage guard t start' gap' g ms' := by
  have hstart := h.start_le
  have hedge := h.edge_le
  unfold Stage at hst ⊢
  simp only [h.reader_eq] at hst ⊢
  cases hpc : s.reader.pc <;> simp only [hpc] at hst ⊢
  case idle | loadTail | reload | clear => exact h.settled hst
  case loadPending | loadTag | loadFresh =>
    obtain ⟨hset,hblank,hle,hlt⟩ := hst
    exact ⟨h.settled hset,hblank,by omega,hlt⟩
  case search =>
    obtain ⟨hset,hblank,hle,hlt⟩ := hst
    exact ⟨h.settled hset,hblank,by omega,hlt⟩
  case storeSync =>
    obtain ⟨hset,hblank,hle,hlt,hmod⟩ := hst
    exact ⟨h.settled hset,hblank,by omega,hlt,hmod⟩
  case loadHdr =>
    obtain ⟨hset,hbuf,hle,hlt,hlen,hh⟩ := hst
    exact ⟨h.settled hset,hbuf,by omega,hlt,hlen,h.hdrLoaded hl hle hlt (by rw [hdrSize] at hlen; omega) hh⟩
  case checkTail =>
    obtain ⟨hset,hbuf,hle,hlt,hlen,hh⟩ := hst
    exact ⟨h.settled hset,hbuf,by omega,hlt,hlen,h.hdrLoaded hl hle hlt (by rw [hlen,hdrSize]) hh⟩
  case loadPayload =>
    obtain ⟨hev,hp,m,hh,hlen⟩ := hst
    exact ⟨h.events hev le_rfl,h.payloadLoaded hl hh hlen.le hp,m,h.held hl hh,hlen⟩
  case verify =>
    obtain ⟨hev,hp,m,hh,hlen⟩ := hst
    exact ⟨h.events hev le_rfl,h.payloadLoaded hl hh hlen.le hp,m,h.held hl hh,hlen⟩
  case call =>
    obtain ⟨hev,m,hh,hline⟩ := hst
    exact ⟨h.events hev le_rfl,m,h.held hl hh,hline⟩
  case storeFree =>
    obtain ⟨hev,hmem,m,hh⟩ := hst
    exact ⟨h.events hev le_rfl,by rwa [h.events_eq],m,h.held hl hh⟩
  case loadPending2 =>
    obtain ⟨hev,hg,m,hp,hhdr,hle,hgap⟩ := hst
    refine ⟨h.events hev le_rfl,fun hne => hg fun h0 => hne (h.gap_zero h0),m,h.placed hp,hhdr,by omega,fun he => ?_⟩
    rw [(h.still (by omega)).1]
    exact hgap (by omega)
  case storeTail =>
    obtain ⟨hev,hle,hgap⟩ := hst
    refine ⟨h.events hev le_rfl,by omega,fun hne => ?_⟩
    rw [h.gap_edge hne]
    exact hgap fun h0 => hne (h.gap_zero h0)

end Dispatch

end EmbedTemplate.Logging
