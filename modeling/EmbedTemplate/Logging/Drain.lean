import EmbedTemplate.Logging.Pending

/-! # What a flash that is not interrupted does to a pending ring

Every round consumes the oldest record, so the flash terminates with an empty ring
after it has handled the pending records in order, each at its own position.
-/
namespace EmbedTemplate.Logging
open Circular Bytes
variable {n : BufSize}

/-- A message and the position its record was reserved at. -/
structure Placed where
  pos : ℕ
  msg : LogArgs

/-- Messages laid out one behind the other. -/
def place : ℕ → List LogArgs → List Placed
  | _, [] => []
  | start, m :: ms => ⟨start,m⟩ :: place (start + m.size) ms

@[simp] theorem place_map_msg (start : ℕ) (ms : List LogArgs) : (place start ms).map Placed.msg = ms := by
  induction ms generalizing start with
  | nil => rfl
  | cons m ms ih => simp [place,ih]

@[simp] theorem place_length (start : ℕ) (ms : List LogArgs) : (place start ms).length = ms.length := by
  rw [← place_map_msg start ms,List.length_map,place_map_msg]

theorem place_append (start : ℕ) (xs ys : List LogArgs) :
    place start (xs ++ ys) = place start xs ++ place (start + bytesOf xs) ys := by
  induction xs generalizing start with
  | nil => rfl
  | cons x xs ih => simp [place,ih,Nat.add_assoc]

theorem mem_place_iff {start : ℕ} {ms : List LogArgs} {p : Placed} :
    p ∈ place start ms ↔ ∃ xs ys, ms = xs ++ p.msg :: ys ∧ p.pos = start + bytesOf xs := by
  induction ms generalizing start with
  | nil => simp [place]
  | cons m ms ih =>
    rw [place,List.mem_cons,ih]
    constructor
    · rintro (rfl | ⟨xs,ys,rfl,hpos⟩)
      · exact ⟨[],ms,rfl,rfl⟩
      · exact ⟨m :: xs,ys,rfl,by rw [hpos,bytesOf_cons,Nat.add_assoc]⟩
    · rintro ⟨xs,ys,he,hpos⟩
      cases xs with
      | nil =>
        obtain ⟨rfl,rfl⟩ := List.cons.inj he
        exact .inl (by cases p; simp_all)
      | cons x xs =>
        obtain ⟨rfl,rfl⟩ := List.cons.inj he
        exact .inr ⟨xs,ys,rfl,by rw [hpos,bytesOf_cons,Nat.add_assoc]⟩

theorem mem_place_append {ms : List LogArgs} {p : Placed} (h : p ∈ place 0 ms) (ms' : List LogArgs) :
    p ∈ place 0 (ms ++ ms') := by
  rw [place_append]
  exact List.mem_append_left _ h

theorem place_end_le {ms : List LogArgs} {p : Placed} (h : p ∈ place 0 ms) :
    p.pos + p.msg.size ≤ bytesOf ms := by
  obtain ⟨xs,ys,rfl,hpos⟩ := mem_place_iff.mp h
  rw [bytesOf_append,bytesOf_cons]
  omega

theorem place_mod {ms : List LogArgs} {p : Placed} (h : p ∈ place 0 ms) : p.pos % 8 = 0 := by
  obtain ⟨xs,ys,rfl,hpos⟩ := mem_place_iff.mp h
  have := bytesOf_mod xs
  omega

theorem place_start_le {start : ℕ} {ms : List LogArgs} {p : Placed} (h : p ∈ place start ms) : start ≤ p.pos := by
  obtain ⟨xs,ys,_,hpos⟩ := mem_place_iff.mp h
  omega

theorem place_le_of_lt {start : ℕ} {ms : List LogArgs} {p q : Placed} (hp : p ∈ place start ms)
    (hq : q ∈ place start ms) (hlt : p.pos < q.pos) : p.pos + p.msg.size ≤ q.pos := by
  induction ms generalizing start with
  | nil => cases hp
  | cons m ms ih =>
    rcases List.mem_cons.mp hp with rfl | hp <;> rcases List.mem_cons.mp hq with rfl | hq
    · omega
    · exact place_start_le hq
    · have := place_start_le hp
      dsimp only at hlt
      omega
    · exact ih hp hq

theorem place_unique {start : ℕ} {ms : List LogArgs} {p q : Placed} (hp : p ∈ place start ms)
    (hq : q ∈ place start ms) (heq : p.pos = q.pos) : p = q := by
  induction ms generalizing start with
  | nil => cases hp
  | cons m ms ih =>
    have h16 := m.sixteen_le_size
    rcases List.mem_cons.mp hp with rfl | hp <;> rcases List.mem_cons.mp hq with rfl | hq
    · rfl
    · have := place_start_le hq
      dsimp only at heq
      omega
    · have := place_start_le hp
      dsimp only at heq
      omega
    · exact ih hp hq

/-- The word that lies four bytes behind the ring, `log_buf.pad2`. -/
def LogRing.guardWord (r : LogRing n) : List UInt8 := get r.data (n.val + 4) 4

@[simp] theorem LogRing.guardWord_length (r : LogRing n) : r.guardWord.length = 4 := get_length _ _ _

/-- What a flash reports for a record. -/
def Placed.event (n : BufSize) (guard : List UInt8) (writer : Bool) (p : Placed) : Option LogLine :=
  if writer then some (p.msg.lineAt n guard p.pos) else none

/-- Only bytes of the ring itself have changed. -/
def SameGuard (n : BufSize) (data data' : ℕ → UInt8) : Prop := ∀ x, n.val ≤ x → data' x = data x

theorem SameGuard.trans {d₁ d₂ d₃ : ℕ → UInt8} (h : SameGuard n d₁ d₂) (h' : SameGuard n d₂ d₃) :
    SameGuard n d₁ d₃ := fun x hx => (h' x hx).trans (h x hx)

theorem SameGuard.guardWord {r t : LogRing n} (h : SameGuard n r.data t.data) :
    t.guardWord = r.guardWord := get_congr fun x hx => h x (by omega)

theorem sameGuard_store (data : ℕ → UInt8) (p : ℕ) (bs : List UInt8) :
    SameGuard n data (store n.val data p bs) := by
  intro x hx
  apply store_outside
  intro i _ he
  have hn := n.le_val
  have := Nat.mod_lt (p + i) (by omega : 0 < n.val)
  omega

/-- A record that has been consumed: its tag is freed and the tail stands behind it. -/
def LogRing.consume (r : LogRing n) (start : ℕ) (m : LogArgs) : LogRing n :=
  { r with data := store n.val r.data start [logTagFree], tail := start + m.size }

theorem Pending.consume {r : LogRing n} {start : ℕ} {m : LogArgs} {ms : List LogArgs}
    (h : Pending r start 0 (m :: ms)) (he : start + bytesOf (m :: ms) < 2 ^ 32) :
    Pending (r.consume start m) (start + m.size) 0 ms := by
  have hb := h.bytes
  have hroom := h.room
  have hs := h.start_mod
  have hm := m.size_mod
  have h16 := m.sixteen_le_size
  rw [List.flatMap_cons,holds_append,m.sealed_length] at hb
  rw [bytesOf_cons] at hroom he
  refine ⟨?_,?_,by omega,rfl,by omega,?_,h.words⟩
  · exact (u32_of_lt (by omega : start + m.size < 2 ^ 32)).symm
  · change r.head = _
    rw [h.head_eq,bytesOf_cons]
    congr 1
    omega
  · refine hb.2.store_before ?_ ?_
    · rw [List.length_singleton]
      omega
    · rw [length_flatMap_sealed]
      omega

theorem Pending.flashRound {r : LogRing n} {start : ℕ} {m : LogArgs} {ms : List LogArgs}
    (h : Pending r start 0 (m :: ms)) (he : start + bytesOf (m :: ms) < 2 ^ 32) (writer : Bool) :
    Logging.flashRound writer (start + bytesOf (m :: ms)) r start =
      some (r.consume start m,start + m.size,[(Placed.mk start m).event n r.guardWord writer]) := by
  have h16 := m.sixteen_le_size
  rw [bytesOf_cons] at he
  have htail : r.tail = start := by rw [h.tail_eq,u32_of_lt (by omega)]
  have hrec := h.head_record
  rw [htail] at hrec
  have hline := hrec.line_eq h.start_mod
  have hput := put_index n r.data start logTagFree
  have hout : (if writer then some ((m.taggedHdr logTagSeal).line
      (loadFirst n r.data start ++ loadRest n r.data start m.len)) else none) =
      (Placed.mk start m).event n r.guardWord writer := by
    rw [hline]
    rfl
  rw [Logging.flashRound,if_pos (by rw [bytesOf_cons]; omega),if_neg (by omega),
    if_neg (not_not.mpr hrec.tag_eq),deliver]
  simp only [hrec.loadHdr_eq,m.taggedHdr_len,m.taggedHdr_size,htail,ne_eq,not_true_eq_false,if_false,
    hrec.tag_eq,le_refl,if_true,hput,hout,u32_of_lt (by omega : start + m.size < 2 ^ 32)]
  rfl

/-- What a flash leaves of a ring whose pending records end at `stop`. -/
structure Drained (r r' : LogRing n) (stop : ℕ) : Prop where
  pending : Pending r' stop 0 []
  sum : r'.sum = r.sum
  drops : r'.dropCnt = r.dropCnt
  guard : SameGuard n r.data r'.data

theorem Drained.clear {r r' : LogRing n} {stop : ℕ} (h : Drained r r' stop) :
    Drained r { r' with dirty := false } stop :=
  ⟨⟨h.pending.1,h.pending.2,h.pending.3,h.pending.4,h.pending.5,h.pending.6,h.pending.7⟩,h.sum,h.drops,h.guard⟩

theorem Pending.flashLoop (rounds : ℕ) {r : LogRing n} {start : ℕ} {ms : List LogArgs}
    (h : Pending r start 0 ms) (he : start + bytesOf ms < 2 ^ 32) (hrounds : ms.length < rounds)
    (writer : Bool) :
    ∃ r', Logging.flashLoop writer (start + bytesOf ms) rounds r start =
        some (r',(place start ms).map (Placed.event n r.guardWord writer)) ∧
      Drained r r' (start + bytesOf ms) := by
  induction rounds generalizing r start ms with
  | zero => omega
  | succ rounds ih =>
    cases ms with
    | nil =>
      refine ⟨r,?_,h,rfl,rfl,fun _ _ => rfl⟩
      rw [Logging.flashLoop,Logging.flashRound,if_neg (by simp)]
      rfl
    | cons m ms =>
      have hg : SameGuard n r.data (r.consume start m).data := sameGuard_store _ _ _
      have hstop : start + bytesOf (m :: ms) = start + m.size + bytesOf ms := by
        rw [bytesOf_cons,Nat.add_assoc]
      obtain ⟨r',hl,hd⟩ := ih (h.consume he) (by omega) (by simpa using hrounds)
      rw [← hstop,hg.guardWord] at hl
      refine ⟨r',?_,by rw [hstop]; exact hd.pending,hd.sum,hd.drops,hg.trans hd.guard⟩
      rw [Logging.flashLoop,h.flashRound he]
      simp only [hl,Option.map_some,place,List.map_cons,List.singleton_append]

theorem length_le_bytesOf (ms : List LogArgs) : 16 * ms.length ≤ bytesOf ms := by
  induction ms with
  | nil => simp
  | cons m ms ih =>
    have := m.sixteen_le_size
    rw [List.length_cons,bytesOf_cons]
    omega

/-- A flash terminates, reports every pending record in order and leaves the ring empty. -/
theorem Pending.logFlash {r : LogRing n} {start : ℕ} {ms : List LogArgs} (h : Pending r start 0 ms)
    (he : start + bytesOf ms < 2 ^ 32) (writer : Bool) :
    ∃ r', Logging.logFlash writer r =
        some (r',(place start ms).map (Placed.event n r.guardWord writer)) ∧
      Drained r r' (start + bytesOf ms) ∧ r'.dirty = false := by
  have hn := n.le_val
  have hlen := length_le_bytesOf ms
  have hroom := h.room
  obtain ⟨r',hl,hd⟩ := h.flashLoop n.val he (by omega) writer
  have htail : r.tail = start := by rw [h.tail_eq,u32_of_lt (by omega)]
  have hhead : r.head = start + bytesOf ms := by rw [h.head_eq,Nat.add_zero,u32_of_lt he]
  refine ⟨{ r' with dirty := false },?_,hd.clear,rfl⟩
  rw [Logging.logFlash,htail,hhead,hl]
  rfl

/-- Where a record is reported from matters up to the ring size only. -/
theorem event_congr {guard : List UInt8} {writer : Bool} {start start' : ℕ} (ms : List LogArgs)
    (h : start ≡ start' [MOD n.val]) :
    (place start ms).map (Placed.event n guard writer) = (place start' ms).map (Placed.event n guard writer) := by
  induction ms generalizing start start' with
  | nil => rfl
  | cons m ms ih =>
    have hline : (Placed.mk start m).event n guard writer = (Placed.mk start' m).event n guard writer := by
      simp only [Placed.event,LogArgs.lineAt,LogArgs.payloadAt]
      rw [show start % n.val = start' % n.val from h]
    rw [place,place,List.map_cons,List.map_cons,hline,ih (h.add_right m.size)]

/-- The same at any position, as long as the counters do not wrap between tail and head. -/
theorem Pending.logFlash_u32 {r : LogRing n} {start : ℕ} {ms : List LogArgs} (h : Pending r start 0 ms)
    (he : u32 start + bytesOf ms < 2 ^ 32) (writer : Bool) :
    ∃ r', Logging.logFlash writer r =
        some (r',(place start ms).map (Placed.event n r.guardWord writer)) ∧
      Drained r r' (start + bytesOf ms) := by
  obtain ⟨r',hr,hd,_⟩ := h.of_u32.logFlash he writer
  refine ⟨r',hr.trans (by rw [event_congr ms (u32_modEq n start)]),?_,hd.sum,hd.drops,hd.guard⟩
  refine hd.pending.congr ?_
  simp only [u32]
  omega

/-- Otherwise the head counter is below the tail counter, and the flash finds nothing to do. -/
theorem logFlash_of_le {r : LogRing n} (h : r.head ≤ r.tail) (writer : Bool) :
    Logging.logFlash writer r = some ({ r with dirty := false },[]) := by
  obtain ⟨k,hk⟩ : ∃ k, n.val = k + 1 := ⟨n.val - 1,by have := n.le_val; omega⟩
  rw [Logging.logFlash,hk,Logging.flashLoop,Logging.flashRound,if_neg (by omega)]
  rfl

end EmbedTemplate.Logging
