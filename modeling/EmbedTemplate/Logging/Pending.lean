import EmbedTemplate.Logging.Record
import EmbedTemplate.Library.EvictingQueue

/-! # The pending part of the ring and what a dispatch does to it

Between tail and head lie sealed records, possibly behind a gap: the rest of a
record that is no longer sealed. Positions are unbounded here and the counters are
their 32-bit remainders. A dispatch consumes the gap in 8-byte steps, then the
oldest records, and appends its own.
-/
namespace EmbedTemplate.Logging
open Circular Bytes EvictingQueue
variable {n : BufSize}

/-- The total size of the records of some messages. -/
def bytesOf (ms : List LogArgs) : ℕ := total LogArgs.size ms

@[simp] theorem bytesOf_nil : bytesOf [] = 0 := rfl
@[simp] theorem bytesOf_cons (m : LogArgs) (ms : List LogArgs) :
    bytesOf (m :: ms) = m.size + bytesOf ms := total_cons ..
@[simp] theorem bytesOf_append (ms ms' : List LogArgs) :
    bytesOf (ms ++ ms') = bytesOf ms + bytesOf ms' := total_append ..

@[simp] theorem length_flatMap_sealed (ms : List LogArgs) :
    (ms.flatMap LogArgs.sealed).length = bytesOf ms := by
  simp [bytesOf,total,List.length_flatMap]

/-- From `start` on lie `gap` bytes and then the sealed records of `ms`, up to the head. -/
structure Pending (r : LogRing n) (start gap : ℕ) (ms : List LogArgs) : Prop where
  tail_eq : r.tail = u32 start
  head_eq : r.head = u32 (start + gap + bytesOf ms)
  start_mod : start % 8 = 0
  gap_mod : gap % 8 = 0
  room : gap + bytesOf ms ≤ n.val
  bytes : Holds n.val r.data (start + gap) (ms.flatMap LogArgs.sealed)
  words : r.sum < 2 ^ 32 ∧ r.dropCnt < 2 ^ 32

/-- The start-up values of `log_ring` and `log_stats`; the buffer holds anything. -/
structure Boot (r : LogRing n) : Prop where
  head : r.head = 0
  tail : r.tail = 0
  dirty : r.dirty = false
  sum : r.sum = 0
  drops : r.dropCnt = 0

theorem Boot.pending {r : LogRing n} (h : Boot r) : Pending r 0 0 [] :=
  ⟨h.tail,h.head,rfl,rfl,Nat.zero_le _,holds_nil _ _ _,by rw [h.sum,h.drops]; norm_num⟩

/-- `log_buf` and `log_ring` as they are initialised, the guard words included. -/
def initialRing (n : BufSize) : LogRing n where
  data := put (fun _ => 0) n.val [0xEF,0xBE,0xAD,0xDE,0xEC,0xEC,0xEC,0xEC]
  head := 0
  tail := 0
  dirty := false
  sum := 0
  dropCnt := 0

theorem boot_initialRing (n : BufSize) : Boot (initialRing n) := ⟨rfl,rfl,rfl,rfl,rfl⟩

def bufSize512 : BufSize := ⟨512,9,by decide⟩

/-- A greeting of two characters. -/
def greeting : LogArgs := ⟨1,2,3,4,[72,105],fun _ => 0⟩

/-- A message whose record fills more than half of the smallest ring. -/
def longText : LogArgs := ⟨1,2,3,4,List.replicate 255 65,fun _ => 0⟩

/-- No 8-aligned byte of the gap looks like the seal of a record. -/
def Clean (r : LogRing n) (start gap : ℕ) : Prop :=
  ∀ k, 8 * k < gap → r.data (index n (start + 8 * k)) ≠ logTagSeal

@[simp] theorem clean_zero (r : LogRing n) (start : ℕ) : Clean r start 0 := by
  intro k hk
  omega

theorem clean_min_zero (r : LogRing n) (start need : ℕ) : Clean r start (min 0 need) := by simp

theorem bytesOf_mod (ms : List LogArgs) : bytesOf ms % 8 = 0 := by
  induction ms with
  | nil => rfl
  | cons m ms ih =>
    have hm := m.size_mod
    rw [bytesOf_cons]
    omega

/-- The positions are determined up to the width of the counters. -/
theorem Pending.congr {r : LogRing n} {start start' gap : ℕ} {ms : List LogArgs} (h : Pending r start gap ms)
    (hs : u32 start = u32 start') : Pending r start' gap ms where
  tail_eq := h.tail_eq.trans hs
  head_eq := by rw [h.head_eq]; simp only [u32] at hs ⊢; omega
  start_mod := by have := h.start_mod; simp only [u32] at hs; omega
  gap_mod := h.gap_mod
  room := h.room
  bytes := h.bytes.shift ((((u32_modEq n start').symm.trans (hs ▸ u32_modEq n start))).add_right gap)
  words := h.words

theorem Pending.of_u32 {r : LogRing n} {start gap : ℕ} {ms : List LogArgs} (h : Pending r start gap ms) :
    Pending r (u32 start) gap ms := h.congr (Nat.mod_mod start _).symm

theorem Pending.head_record {r : LogRing n} {start : ℕ} {m : LogArgs} {ms : List LogArgs}
    (h : Pending r start 0 (m :: ms)) : RecordAt n r.data r.tail logTagSeal m := by
  rw [h.tail_eq]
  apply RecordAt.of_u32
  have hb := h.bytes
  rw [List.flatMap_cons] at hb
  exact (holds_append.mp hb).1

theorem RecordAt.sealedNext_eq {data : ℕ → UInt8} {p : ℕ} {m : LogArgs}
    (h : RecordAt n data p logTagSeal m) : sealedNext n data p = (u32 (p + m.size),true) := by
  have hsz : hdrSize + (m.taggedHdr logTagSeal).len.toNat + (m.taggedHdr logTagSeal).pad.toNat = m.size :=
    m.taggedHdr_size logTagSeal
  rw [sealedNext,h.oldHdr_eq,Nat.add_assoc,Nat.add_assoc,← Nat.add_assoc hdrSize,hsz]

theorem isFull_iff {start len tot : ℕ} (hlen : len ≤ n.val) (htot : tot ≤ 272) :
    isFull n (u32 (start + len)) (u32 start) tot = true ↔ n.val < len + tot := by
  have hn := n.val_le
  rw [isFull,decide_eq_true_eq]
  have he : u32 (u32 (start + len) + tot + 2 ^ 32 - u32 start) = len + tot := by
    simp only [u32]
    omega
  rw [he]

theorem Pending.isFull_iff {r : LogRing n} {start gap : ℕ} {ms : List LogArgs}
    (h : Pending r start gap ms) {tot : ℕ} (htot : tot ≤ 272) :
    isFull n r.head r.tail tot = true ↔ n.val < gap + bytesOf ms + tot := by
  rw [h.head_eq,h.tail_eq,Nat.add_assoc]
  exact Logging.isFull_iff h.room htot

theorem Pending.moveTail_gap {r : LogRing n} {start gap : ℕ} {ms : List LogArgs}
    (h : Pending r start (gap + 8) ms) (htag : r.data (index n start) ≠ logTagSeal) :
    let r' := r.moveTail (nextTail n r.data r.tail)
    Pending r' (start + 8) gap ms ∧ r' = { r with tail := u32 (start + 8) } := by
  have hnext : nextTail n r.data r.tail = (u32 (start + 8),false) := by
    have hs := h.start_mod
    rw [nextTail,if_neg (by rwa [h.tail_eq,index_u32]),unsealedNext,alignUp_eight,h.tail_eq]
    simp only [u32,Prod.mk.injEq,and_true]
    omega
  have hr : r.moveTail (nextTail n r.data r.tail) = { r with tail := u32 (start + 8) } := by
    rw [hnext]
    rfl
  simp only [hr]
  refine ⟨⟨rfl,?_,?_,?_,?_,?_,h.words⟩,trivial⟩
  · rw [h.head_eq]
    congr 1
    omega
  · have := h.start_mod; omega
  · have := h.gap_mod; omega
  · have := h.room; omega
  · have hb := h.bytes
    rwa [show start + (gap + 8) = start + 8 + gap by omega] at hb

theorem Pending.moveTail_record {r : LogRing n} {start : ℕ} {m : LogArgs} {ms : List LogArgs}
    (h : Pending r start 0 (m :: ms)) :
    let r' := r.moveTail (nextTail n r.data r.tail)
    Pending r' (start + m.size) 0 ms ∧
      r' = { r with tail := u32 (start + m.size), dropCnt := u32 (r.dropCnt + 1) } := by
  have hrec := h.head_record
  have hnext : nextTail n r.data r.tail = (u32 (start + m.size),true) := by
    rw [nextTail,if_pos hrec.tag_eq,hrec.sealedNext_eq,h.tail_eq]
    simp only [u32,Prod.mk.injEq,and_true]
    omega
  have hr : r.moveTail (nextTail n r.data r.tail) =
      { r with tail := u32 (start + m.size), dropCnt := u32 (r.dropCnt + 1) } := by
    rw [hnext]
    rfl
  have hb := h.bytes
  rw [List.flatMap_cons] at hb
  have hb' := (holds_append.mp hb).2
  have hroom := h.room
  simp only [bytesOf_cons,m.sealed_length,Nat.add_zero,Nat.zero_add] at hb' hroom
  simp only [hr]
  refine ⟨⟨rfl,?_,?_,rfl,?_,?_,h.words.1,u32_lt _⟩,trivial⟩
  · rw [h.head_eq]
    congr 1
    simp only [bytesOf_cons]
    omega
  · have := h.start_mod
    have := m.size_mod
    omega
  · simp only [Nat.zero_add]
    omega
  · exact hb'

/-- The messages that stay pending when room for `tot` bytes is made. -/
def kept (n : BufSize) (tot : ℕ) (ms : List LogArgs) : List LogArgs := evict LogArgs.size n.val tot ms

theorem kept_cons (n : BufSize) (tot : ℕ) (m : LogArgs) (ms : List LogArgs) :
    kept n tot (m :: ms) = if bytesOf (m :: ms) + tot ≤ n.val then m :: ms else kept n tot ms := rfl

theorem kept_suffix (n : BufSize) (tot : ℕ) (ms : List LogArgs) : kept n tot ms <:+ ms :=
  evict_suffix LogArgs.size n.val tot ms

theorem bytesOf_kept_le (n : BufSize) (tot : ℕ) (ms : List LogArgs) :
    bytesOf (kept n tot ms) ≤ bytesOf ms := by
  obtain ⟨pre,hpre⟩ := kept_suffix n tot ms
  nth_rewrite 2 [← hpre]
  rw [bytesOf_append]
  omega

theorem kept_eq_self {tot : ℕ} {ms : List LogArgs} (h : bytesOf (kept n tot ms) = bytesOf ms) :
    kept n tot ms = ms := by
  obtain ⟨pre,hpre⟩ := kept_suffix n tot ms
  cases pre with
  | nil => simpa using hpre
  | cons m pre =>
    have hb := congrArg bytesOf hpre
    have := m.sixteen_le_size
    rw [bytesOf_append,bytesOf_cons] at hb
    omega

/-- What making room for `tot` bytes achieves: only tail and drop count change, and the
gap is used up before any record is dropped. -/
structure MadeRoom (r r' : LogRing n) (tot start gap : ℕ) (ms : List LogArgs)
    (start' gap' : ℕ) : Prop where
  pending : Pending r' start' gap' (kept n tot ms)
  end_eq : start' + gap' + bytesOf (kept n tot ms) = start + gap + bytesOf ms
  fits : gap' + bytesOf (kept n tot ms) + tot ≤ n.val
  gap_le : gap' ≤ gap
  gap_first : gap' ≠ 0 → kept n tot ms = ms
  frame : r' = { r with tail := r'.tail, dropCnt := r'.dropCnt }
  drops : r'.dropCnt = u32 (r.dropCnt + (ms.length - (kept n tot ms).length))

/-- The drop loop terminates on every pending ring and makes room, when nothing that it
steps over looks like a seal. -/
theorem Pending.dropLoop {tot : ℕ} (htot : tot ≤ 272) (rounds : ℕ) {r : LogRing n} {start gap : ℕ}
    {ms : List LogArgs} (h : Pending r start gap ms)
    (hc : Clean r start (min gap (gap + bytesOf ms + tot - n.val)))
    (hrounds : gap + bytesOf ms < 8 * rounds) :
    ∃ r' start' gap', Logging.dropLoop tot rounds r = some r' ∧
      MadeRoom r r' tot start gap ms start' gap' := by
  have hn := n.le_val
  induction rounds generalizing r start gap ms with
  | zero => omega
  | succ rounds ih =>
    rw [Logging.dropLoop]
    by_cases hfit : gap + bytesOf ms + tot ≤ n.val
    · rw [if_neg (by rw [h.isFull_iff htot]; omega)]
      have hk : kept n tot ms = ms := evict_eq_self LogArgs.size n.val (by
        change bytesOf ms + tot ≤ n.val
        omega)
      refine ⟨r,start,gap,rfl,⟨by rwa [hk],by rw [hk],by rwa [hk],le_rfl,fun _ => hk,rfl,?_⟩⟩
      rw [hk,Nat.sub_self,Nat.add_zero,u32_of_lt h.words.2]
    · rw [if_pos ((h.isFull_iff htot).mpr (by omega))]
      have hg8 := h.gap_mod
      match gap, ms with
      | g + 1, ms =>
        obtain ⟨g,rfl⟩ : ∃ g', g = g' + 7 := ⟨g - 7,by omega⟩
        have htag : r.data (index n start) ≠ logTagSeal := hc 0 (by omega)
        obtain ⟨hp,he⟩ := h.moveTail_gap htag
        rw [he] at hp ⊢
        have hcl : Clean ({ r with tail := u32 (start + 8) } : LogRing n) (start + 8)
            (min g (g + bytesOf ms + tot - n.val)) := by
          intro k hk
          have := hc (k + 1) (by omega)
          rwa [show start + 8 * (k + 1) = start + 8 + 8 * k by omega] at this
        obtain ⟨r',s',g',hl,hm⟩ := ih hp hcl (by omega)
        exact ⟨r',s',g',hl,⟨hm.pending,by have := hm.end_eq; omega,hm.fits,
          by have := hm.gap_le; omega,hm.gap_first,hm.frame,hm.drops⟩⟩
      | 0, [] =>
        rw [bytesOf_nil] at hfit
        omega
      | 0, m :: ms =>
        obtain ⟨hp,he⟩ := h.moveTail_record
        rw [he] at hp ⊢
        have hsz := m.sixteen_le_size
        rw [bytesOf_cons] at hrounds
        obtain ⟨r',s',g',hl,hm⟩ := ih hp (clean_min_zero _ _ _) (by omega)
        have hk : kept n tot (m :: ms) = kept n tot ms := by rw [kept_cons,if_neg (by omega)]
        have hg0 : g' = 0 := by have := hm.gap_le; omega
        refine ⟨r',s',g',hl,⟨by rw [hk]; exact hm.pending,?_,by rw [hk]; exact hm.fits,hm.gap_le,
          fun hne => absurd hg0 hne,hm.frame,?_⟩⟩
        · have := hm.end_eq
          rw [hk,bytesOf_cons]
          omega
        · have hle := (kept_suffix n tot ms).length_le
          rw [hm.drops,hk,List.length_cons]
          simp only [u32]
          omega

/-- What a dispatch that is not interrupted does to a pending ring. -/
structure Dispatched (r r' : LogRing n) (m : LogArgs) (start gap : ℕ) (ms : List LogArgs)
    (start' gap' : ℕ) : Prop where
  pending : Pending r' start' gap' (kept n m.size ms ++ [m])
  end_eq : start' + gap' + bytesOf (kept n m.size ms) = start + gap + bytesOf ms
  fits : gap' + bytesOf (kept n m.size ms) + m.size ≤ n.val
  gap_le : gap' ≤ gap
  gap_first : gap' ≠ 0 → kept n m.size ms = ms
  data : r'.data = store n.val r.data (start + gap + bytesOf ms) m.sealed
  dirty : r'.dirty = true
  sum : r'.sum = u32 (r.sum + 1)
  drops : r'.dropCnt = u32 (r.dropCnt + (ms.length - (kept n m.size ms).length))

theorem logDispatch_rejected (r : LogRing n) {m : LogArgs} (hm : ¬m.Accepted) :
    logDispatch r m = some r := by
  rw [logDispatch,m.len?_eq,if_neg hm]

/-- A dispatch terminates, makes room and appends its record. -/
theorem Pending.logDispatch {r : LogRing n} {start gap : ℕ} {ms : List LogArgs}
    (h : Pending r start gap ms) {m : LogArgs} (hm : m.Accepted)
    (hc : Clean r start (min gap (gap + bytesOf ms + m.size - n.val))) :
    ∃ r' start' gap', Logging.logDispatch r m = some r' ∧
      Dispatched r r' m start gap ms start' gap' := by
  have hn := n.le_val
  have hroom := h.room
  obtain ⟨r₁,start',gap',hl,hr⟩ := h.dropLoop m.size_le n.val hc (by omega)
  have hend := hr.end_eq
  have hfits := hr.fits
  have hmod := hr.pending.start_mod
  have hgmod := hr.pending.gap_mod
  have hbmod := bytesOf_mod (kept n m.size ms)
  have hframe : r₁.data = r.data ∧ r₁.sum = r.sum := by rw [hr.frame]; exact ⟨rfl,rfl⟩
  have hhead : r₁.head = u32 (start + gap + bytesOf ms) := by rw [hr.pending.head_eq,hend]
  have hdata : ((r₁.reserve m.size).fill r₁.head m.len m).data =
      store n.val r.data (start + gap + bytesOf ms) m.sealed := by
    rw [fill_data _ (by rw [hhead,u32]; omega),← hframe.1,hhead]
    exact store_shift _ _ (u32_modEq n _)
  refine ⟨(r₁.reserve m.size).fill r₁.head m.len m,start',gap',?_,?_⟩
  · rw [Logging.logDispatch,m.len?_eq,if_pos hm]
    change (Logging.dropLoop m.size n.val r).map _ = _
    rw [hl]
    rfl
  refine ⟨⟨hr.pending.tail_eq,?_,hmod,hgmod,?_,?_,u32_lt _,hr.pending.words.2⟩,hend,hfits,hr.gap_le,
    hr.gap_first,hdata,rfl,by rw [← hframe.2]; rfl,hr.drops⟩
  · change u32 (r₁.head + m.size) = _
    rw [hhead,bytesOf_append,bytesOf_cons,bytesOf_nil]
    simp only [u32]
    omega
  · rw [bytesOf_append,bytesOf_cons,bytesOf_nil]
    omega
  · rw [hdata,List.flatMap_append,holds_append,length_flatMap_sealed,hend]
    have hb := hr.pending.bytes
    rw [hframe.1] at hb
    refine ⟨hb.store_after ?_ ?_,?_⟩
    · rw [length_flatMap_sealed]
      omega
    · rw [m.sealed_length]
      omega
    · rw [List.flatMap_singleton]
      exact holds_store _ _ _ _ (by rw [m.sealed_length]; omega)

end EmbedTemplate.Logging
