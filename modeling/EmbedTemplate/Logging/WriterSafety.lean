import EmbedTemplate.Logging.WriterInvariant

/-! # What interrupting writers store and deliver

Every access of the topmost call keeps the invariant as long as the tail moves over
complete records only. The stores of a call then stay inside the record it reserved, and
once all calls have returned the next flash hands out every record between tail and head.
-/
namespace EmbedTemplate.Logging
open Circular Bytes Machine
variable {n : BufSize} {guard : List UInt8} {s t : WriteSys n} {gone live : List (ℕ × LogArgs)}
  {w w' : Writer} {rest : List Writer}

theorem WriteLayout.end_le (h : WriteLayout guard s gone live) {p : Placed} (hp : p ∈ s.placed) :
    p.pos + p.msg.size ≤ s.ring.head := by
  rw [h.head_eq]
  exact place_end_le hp

/-- Different records between tail and head have no address in common. -/
theorem WriteLayout.apart (h : WriteLayout guard s gone live) {p q : Placed} (hp : p ∈ s.placed)
    (hq : q ∈ s.placed) (htp : s.ring.tail ≤ p.pos) (htq : s.ring.tail ≤ q.pos) (hne : p.pos ≠ q.pos) {i j : ℕ}
    (hi : i < p.msg.size) (hj : j < q.msg.size) : (p.pos + i) % n.val ≠ (q.pos + j) % n.val := by
  intro he
  have hpe := h.end_le hp
  have hqe := h.end_le hq
  have hroom := h.room
  have heq := position_inj (n := n.val) (p := s.ring.tail) (i := p.pos + i - s.ring.tail)
    (j := q.pos + j - s.ring.tail) (by omega) (by omega) (by
      rw [Nat.add_sub_cancel' (by omega),Nat.add_sub_cancel' (by omega)]
      exact he)
  rcases Nat.lt_or_gt_of_ne hne with hlt | hlt
  · have := place_le_of_lt hp hq hlt
    omega
  · have := place_le_of_lt hq hp hlt
    omega

/-- What a call stores into its own record does not show in any other. -/
theorem WriteLayout.store_apart (h : WriteLayout guard s gone live) (ho : Owned s rest w) {off : ℕ}
    {bs : List UInt8} (hlen : off + bs.length ≤ w.msg.size) {p : Placed} (hp : p ∈ s.placed)
    (htp : s.ring.tail ≤ p.pos) (hne : p.pos ≠ w.startPos) {i : ℕ} (hi : i < p.msg.size) :
    store n.val s.ring.data (w.startPos + off) bs ((p.pos + i) % n.val) = s.ring.data ((p.pos + i) % n.val) := by
  apply store_outside
  intro j hj
  rw [Nat.add_assoc]
  exact h.apart ho.placed hp ho.le htp (Ne.symm hne) (i := off + j) (by change off + j < w.msg.size; omega) hi

/-- Accesses that change neither the records nor what owns them. -/
theorem WriteLayout.congr (h : WriteLayout guard s gone live) (hres : t.reserved = s.reserved)
    (hdata : t.ring.data = s.ring.data) (htail : t.ring.tail = s.ring.tail) (hhead : t.ring.head = s.ring.head)
    (hwords : t.ring.sum < 2 ^ 32 ∧ t.ring.dropCnt < 2 ^ 32)
    (howners : ∀ v ∈ s.stack, v.owns → v ∈ t.stack) : WriteLayout guard t gone live where
  reserved := by rw [hres,h.reserved]
  tail_eq := by rw [htail,h.tail_eq]
  head_eq := by rw [hhead,h.head_eq,hres]
  room := by rw [hhead,htail]; exact h.room
  bound := by rw [hres]; exact h.bound
  guard_eq := by
    rw [← h.guard_eq,LogRing.guardWord,hdata]
    rfl
  words := hwords
  sealed := by
    intro p hp hle
    rw [WriteSys.placed,hres] at hp
    rw [htail] at hle
    rw [hdata]
    exact (h.sealed p hp hle).imp_left fun ⟨v,hv,howns,hpos⟩ => ⟨v,howners v hv howns,howns,hpos⟩

theorem Rely.congr {fs : List Writer} (hres : t.reserved = s.reserved) (hdata : t.ring.data = s.ring.data)
    (htail : t.ring.tail = s.ring.tail) (hhead : t.ring.head = s.ring.head) : Rely s t fs :=
  ⟨htail.ge,hhead.ge,fun p hp => by rwa [WriteSys.placed,hres],fun v _ _ hle _ => by rwa [htail],
    fun v _ _ _ _ i _ => by rw [hdata]⟩

theorem not_owns_of_pc (h : w.pc ≠ .storeHdr ∧ w.pc ≠ .storePayload ∧ w.pc ≠ .storeSeal) : ¬w.owns := by
  rintro (h' | h' | h')
  · exact h.1 h'
  · exact h.2.1 h'
  · exact h.2.2 h'

/-- The owners of a stack whose topmost call owns nothing are further down. -/
theorem owner_mem_rest (hstack : s.stack = w :: rest) (hw : ¬w.owns) {v : Writer} (hv : v ∈ s.stack)
    (howns : v.owns) : v ∈ rest := by
  rw [hstack] at hv
  rcases List.mem_cons.mp hv with rfl | hv
  · exact absurd howns hw
  · exact hv

/-- The topmost call changes its local variables, or only a counter of the ring. -/
theorem WriteInv.congr (h : WriteInv guard s) (hstack : s.stack = w :: rest) (hw : ¬w.owns)
    (ht : t.stack = rest ∨ ∃ w', t.stack = w' :: rest ∧ FrameOk s rest w') (hres : t.reserved = s.reserved)
    (hdata : t.ring.data = s.ring.data) (htail : t.ring.tail = s.ring.tail) (hhead : t.ring.head = s.ring.head)
    (hwords : t.ring.sum < 2 ^ 32 ∧ t.ring.dropCnt < 2 ^ 32) : WriteInv guard t := by
  obtain ⟨gone,live,hl,hso⟩ := h
  rw [hstack] at hso
  have hrely : ∀ fs, Rely s t fs := fun fs => Rely.congr hres hdata htail hhead
  refine ⟨gone,live,hl.congr hres hdata htail hhead hwords fun v hv howns => ?_,?_⟩
  · have hmem := owner_mem_rest hstack hw hv howns
    rcases ht with ht | ⟨w',ht,_⟩ <;> rw [ht]
    · exact hmem
    · exact List.mem_cons_of_mem _ hmem
  · rcases ht with ht | ⟨w',ht,hw'⟩ <;> rw [ht]
    · exact hso.2.stable (hrely rest)
    · exact ⟨hw'.stable (hrely [w']) List.mem_cons_self,hso.2.stable (hrely rest)⟩

theorem FrameOk.test (htail : w.tail ≤ s.ring.tail) (hhead : w.head ≤ s.ring.head) : FrameOk s rest (w.test n) := by
  by_cases hfull : isFull n w.head w.tail w.msg.size = true
  · rw [Writer.test_full hfull]
    exact ⟨htail,hhead,hfull⟩
  · rw [Writer.test_fits hfull]
    exact ⟨htail,hhead,hfull⟩

theorem isFull_false {head tail tot : ℕ} (h : ¬isFull n head tail tot = true) (hlt : head + tot < 2 ^ 32) :
    head + tot ≤ tail + n.val := by
  rw [isFull,decide_eq_true_eq,u32] at h
  omega

theorem isFull_true {head tail tot : ℕ} (h : isFull n head tail tot = true) (hle : tail ≤ head + tot)
    (htot : tot ≤ 272) : tail < head := by
  have hn := n.le_val
  rw [isFull,decide_eq_true_eq,u32] at h
  omega

theorem WriteLayout.tail_record (h : WriteLayout guard s gone live) (hlt : s.ring.tail < s.ring.head) :
    ∃ m, ⟨s.ring.tail,m⟩ ∈ s.placed := by
  have htail := h.tail_eq
  have hhead := h.head_eq
  rw [h.reserved,List.map_append,bytesOf_append] at hhead
  cases live with
  | nil =>
    rw [List.map_nil,bytesOf_nil] at hhead
    omega
  | cons e live =>
    refine ⟨e.2,mem_place_iff.mpr ⟨gone.map Prod.snd,live.map Prod.snd,?_,?_⟩⟩
    · rw [h.reserved,List.map_append,List.map_cons]
    · rw [Nat.zero_add]
      exact htail

/-- The record at the tail is owned further down, or it is sealed. -/
theorem WriteLayout.tail_sealed (h : WriteLayout guard s gone live) (hstack : s.stack = w :: rest) (hw : ¬w.owns)
    (hlt : s.ring.tail < s.ring.head) : (∃ v ∈ rest, v.owns ∧ v.startPos = s.ring.tail) ∨
      ∃ m, ⟨s.ring.tail,m⟩ ∈ s.placed ∧ RecordAt n s.ring.data s.ring.tail logTagSeal m := by
  obtain ⟨m,hm⟩ := h.tail_record hlt
  rcases h.sealed _ hm le_rfl with ⟨v,hv,howns,hpos⟩ | hrec
  · exact .inl ⟨v,owner_mem_rest hstack hw hv howns,howns,hpos⟩
  · exact .inr ⟨m,hm,hrec⟩

/-- The loads of the drop loop yield a move that is right if the tail is still there. -/
theorem WriteLayout.nextOk (h : WriteLayout guard s gone live) (hstack : s.stack = w :: rest) (hw : ¬w.owns)
    (hlt : w.tail < s.ring.head) {next : ℕ × Bool}
    (hnext : ∀ m, RecordAt n s.ring.data w.tail logTagSeal m → w.tail + m.size < 2 ^ 32 →
      next = (w.tail + m.size,true)) : NextOk s rest { w with pc := .casTail, next := next } := by
  intro he
  have he' : s.ring.tail = w.tail := he
  rcases h.tail_sealed hstack hw (by omega) with ⟨v,hv,howns,hpos⟩ | ⟨m,hm,hrec⟩
  · exact .inl ⟨v,hv,howns,hpos.trans he⟩
  · have hend : s.ring.tail + m.size ≤ s.ring.head := h.end_le hm
    have hbound := h.bound
    have hhead := h.head_eq
    rw [he'] at hm hrec
    exact .inr ⟨m,hm,hnext m hrec (by omega)⟩

theorem WriteLayout.moveTail (h : WriteLayout guard s gone live) {m : LogArgs}
    (hm : ⟨s.ring.tail,m⟩ ∈ s.placed) (hstack : s.stack = w :: rest) (hw : ¬w.owns)
    (hres : t.reserved = s.reserved) (hdata : t.ring.data = s.ring.data) (htail : t.ring.tail = s.ring.tail + m.size)
    (hhead : t.ring.head = s.ring.head) (hwords : t.ring.sum < 2 ^ 32 ∧ t.ring.dropCnt < 2 ^ 32)
    (ht : t.stack = w' :: rest) :
    ∃ gone' live', WriteLayout guard t gone' live' := by
  have hend := h.end_le hm
  have hroom := h.room
  cases live with
  | nil =>
    have hhead' := h.head_eq
    have htail' := h.tail_eq
    have h16 := m.sixteen_le_size
    rw [h.reserved,List.append_nil] at hhead'
    dsimp only at hend
    omega
  | cons e live =>
    have hfirst : (⟨s.ring.tail,e.2⟩ : Placed) ∈ s.placed := by
      refine mem_place_iff.mpr ⟨gone.map Prod.snd,live.map Prod.snd,?_,?_⟩
      · rw [h.reserved,List.map_append,List.map_cons]
      · rw [Nat.zero_add]
        exact h.tail_eq
    have hem : e.2 = m := congrArg Placed.msg (place_unique hfirst hm rfl)
    refine ⟨gone ++ [e],live,by rw [hres,h.reserved,List.append_assoc]; rfl,?_,by rw [hhead,h.head_eq,hres],by omega,
      by rw [hres]; exact h.bound,?_,hwords,fun p hp hle => ?_⟩
    · rw [htail,h.tail_eq,List.map_append,bytesOf_append,← hem]
      simp
    · rw [← h.guard_eq,LogRing.guardWord,hdata]
      rfl
    · rw [WriteSys.placed,hres] at hp
      rw [hdata,ht]
      refine (h.sealed p hp (by omega)).imp_left fun ⟨v,hv,howns,hpos⟩ => ⟨v,?_,howns,hpos⟩
      exact List.mem_cons_of_mem _ (owner_mem_rest hstack hw hv howns)

theorem WriteInv.casTail (h : WriteInv guard s) (hstack : s.stack = w :: rest) (hpc : w.pc = .casTail)
    (hG : ∀ v ∈ rest, v.owns → v.startPos ≠ w.tail) (htail : s.ring.tail = w.tail)
    (hring : t.ring = { s.ring with tail := w.next.1 }) (hres : t.reserved = s.reserved) (ht : t.stack = w' :: rest)
    (hw' : ∀ u : WriteSys n, w.next.1 ≤ u.ring.tail → s.ring.head ≤ u.ring.head → FrameOk u rest w') :
    WriteInv guard t := by
  obtain ⟨gone,live,hl,hso⟩ := h
  rw [hstack] at hso
  have hst := hso.1.stage
  have hw : ¬w.owns := not_owns_of_pc (by rw [hpc]; decide)
  simp only [hpc] at hst
  rcases hst htail with ⟨v,hv,howns,hpos⟩ | ⟨m,hm,hnext⟩
  · exact absurd hpos (hG v hv howns)
  have hmove : t.ring.tail = s.ring.tail + m.size := by rw [hring,hnext,htail]
  have hdata : t.ring.data = s.ring.data := by rw [hring]
  have hhead : t.ring.head = s.ring.head := by rw [hring]
  rw [← htail] at hm
  obtain ⟨gone',live',hl'⟩ := hl.moveTail hm hstack hw hres hdata hmove hhead (by rw [hring]; exact hl.words) ht
  refine ⟨gone',live',hl',?_⟩
  rw [ht]
  refine ⟨hw' t (by rw [hring]) hhead.ge,hso.2.stable ⟨by omega,hhead.ge,fun p hp => by rwa [WriteSys.placed,hres],
    fun v hv howns hle hp => ?_,fun v _ _ _ _ i _ => by rw [hdata]⟩⟩
  have hne := hG v hv howns
  have hstep : s.ring.tail + m.size ≤ v.startPos :=
    place_le_of_lt hm hp (by change s.ring.tail < v.startPos; omega)
  omega

theorem WriteInv.casHead (h : WriteInv guard s) (hstack : s.stack = w :: rest) (hpc : w.pc = .casHead)
    (hhead : s.ring.head = w.head) (hb : bytesOf ((s.reserved ++ [(w.id,w.msg)]).map Prod.snd) < 2 ^ 32) :
    WriteInv guard ({ s with
      ring := s.ring.reserve w.msg.size
      stack := { w with pc := .storeHdr, startPos := w.head } :: rest
      reserved := s.reserved ++ [(w.id,w.msg)] } : WriteSys n) := by
  obtain ⟨gone,live,hl,hso⟩ := h
  rw [hstack] at hso
  have hst := hso.1.stage
  have hw : ¬w.owns := not_owns_of_pc (by rw [hpc]; decide)
  simp only [hpc] at hst
  have hheq := hl.head_eq
  have htail := hso.1.tail_le
  have hle : s.ring.tail ≤ s.ring.head := by
    rw [hl.tail_eq,hl.head_eq,hl.reserved,List.map_append,bytesOf_append]
    omega
  have hsum : bytesOf ((s.reserved ++ [(w.id,w.msg)]).map Prod.snd) = s.ring.head + w.msg.size := by
    rw [List.map_append,bytesOf_append,hheq]
    simp
  have hfits := isFull_false hst (by omega)
  have hplaced : ∀ p ∈ s.placed, p ∈ place 0 ((s.reserved ++ [(w.id,w.msg)]).map Prod.snd) := by
    intro p hp
    rw [List.map_append]
    exact mem_place_append hp _
  have hnew : (s.ring.reserve w.msg.size).head = s.ring.head + w.msg.size := u32_of_lt (by omega)
  refine ⟨gone,live ++ [(w.id,w.msg)],⟨by rw [hl.reserved,List.append_assoc],hl.tail_eq,hnew.trans hsum.symm,?_,hb,
    hl.guard_eq,hl.words,fun p hp hpt => ?_⟩,⟨htail,?_,?_,?_,?_⟩,hso.2.stable ⟨le_rfl,?_,hplaced,
    fun v _ _ hle _ => hle,fun v _ _ _ _ i _ => rfl⟩⟩
  · rw [hnew]
    change _ ≤ s.ring.tail + n.val
    omega
  · change p ∈ place 0 ((s.reserved ++ [(w.id,w.msg)]).map Prod.snd) at hp
    rw [List.map_append,place_append] at hp
    rcases List.mem_append.mp hp with hp | hp
    · refine (hl.sealed p hp hpt).imp_left fun ⟨v,hv,howns,hpos⟩ => ⟨v,?_,howns,hpos⟩
      exact List.mem_cons_of_mem _ (owner_mem_rest hstack hw hv howns)
    · rw [Nat.zero_add] at hp
      obtain rfl := List.mem_singleton.mp hp
      exact .inl ⟨_,List.mem_cons_self,.inl rfl,by rw [← hheq]; exact hhead.symm⟩
  · rw [hnew,← hhead]
    exact Nat.le_add_right _ _
  · change _ ∈ place 0 ((s.reserved ++ [(w.id,w.msg)]).map Prod.snd)
    rw [List.map_append,place_append]
    refine List.mem_append_right _ (List.mem_singleton.mpr ?_)
    rw [Nat.zero_add,← hheq,hhead]
  · change s.ring.tail ≤ w.head
    omega
  · intro v hv howns
    obtain ⟨rest',ho⟩ := hso.2.owned hv howns
    have hend : v.startPos + v.msg.size ≤ s.ring.head := hl.end_le ho.placed
    have h16 := v.msg.sixteen_le_size
    change v.startPos < w.head
    omega
  · rw [hnew]
    exact Nat.le_add_right _ _

theorem WriteInv.storeOwn (h : WriteInv guard s) (hstack : s.stack = w :: rest) (howns : w.owns) (off : ℕ)
    (bs : List UInt8) (hlen : off + bs.length ≤ w.msg.size)
    (hring : t.ring = { s.ring with data := store n.val s.ring.data (w.startPos + off) bs })
    (hres : t.reserved = s.reserved) (ht : t.stack = w' :: rest)
    (hown : w'.owns ∧ w'.startPos = w.startPos ∨ RecordAt n t.ring.data w.startPos logTagSeal w.msg)
    (hw' : FrameOk t rest w') : WriteInv guard t := by
  obtain ⟨gone,live,hl,hso⟩ := h
  rw [hstack] at hso
  have ho : Owned s rest w := hso.1.owned howns
  have hdata : t.ring.data = store n.val s.ring.data (w.startPos + off) bs := by rw [hring]
  have htail : t.ring.tail = s.ring.tail := by rw [hring]
  have hhead : t.ring.head = s.ring.head := by rw [hring]
  have hbytes : ∀ p ∈ s.placed, s.ring.tail ≤ p.pos → p.pos ≠ w.startPos → ∀ i < p.msg.size,
      t.ring.data ((p.pos + i) % n.val) = s.ring.data ((p.pos + i) % n.val) := by
    intro p hp hpt hne i hi
    rw [hdata]
    exact hl.store_apart ho hlen hp hpt hne hi
  have hout : SameGuard n s.ring.data t.ring.data := by
    rw [hdata]
    exact sameGuard_store _ _ _
  refine ⟨gone,live,⟨by rw [hres,hl.reserved],by rw [htail,hl.tail_eq],by rw [hhead,hl.head_eq,hres],
    by rw [hhead,htail]; exact hl.room,by rw [hres]; exact hl.bound,by rw [hout.guardWord,hl.guard_eq],
    by rw [hring]; exact hl.words,fun p hp hpt => ?_⟩,?_⟩
  · rw [WriteSys.placed,hres] at hp
    rw [htail] at hpt
    rw [ht]
    by_cases hpos : p.pos = w.startPos
    · obtain rfl : p = ⟨w.startPos,w.msg⟩ := place_unique hp ho.placed hpos
      exact hown.imp_left fun ⟨ho',hs'⟩ => ⟨w',List.mem_cons_self,ho',hs'⟩
    · rcases hl.sealed p hp hpt with ⟨v,hv,hvo,hvp⟩ | hrec
      · rw [hstack] at hv
        rcases List.mem_cons.mp hv with rfl | hv
        · exact absurd hvp.symm hpos
        · exact .inl ⟨v,List.mem_cons_of_mem _ hv,hvo,hvp⟩
      · refine .inr (Holds.congr hrec fun i hi => ?_)
        rw [p.msg.record_length] at hi
        exact hbytes p hp hpt hpos i hi
  · rw [ht]
    refine ⟨hw',hso.2.stable ⟨htail.ge,hhead.ge,fun p hp => by rwa [WriteSys.placed,hres],
      fun v _ _ hle _ => by rwa [htail],fun v hv hvo hle hp i hi => hbytes _ hp hle ?_ i hi⟩⟩
    exact (ho.above v hv hvo).ne

theorem RecordAt.retag {data : ℕ → UInt8} {p : ℕ} {tag : UInt8} {m : LogArgs} (h : RecordAt n data p tag m)
    (tag' : UInt8) : RecordAt n (store n.val data p [tag']) p tag' m := by
  have hn := n.le_val
  have hsize := m.size_le
  have hcons : ∀ tag, m.record tag = [tag] ++ (m.record tag).tail := fun _ => rfl
  have htail : (m.record tag').tail = (m.record tag).tail := rfl
  have hlen : (m.record tag).tail.length < n.val := by
    rw [List.length_tail,m.record_length]
    omega
  rw [RecordAt,hcons tag,holds_append] at h
  have hrest := h.2
  rw [RecordAt,hcons tag',htail,holds_append]
  refine ⟨holds_store _ _ _ _ (by simp; omega),hrest.store_before le_rfl ?_⟩
  rw [List.length_singleton]
  omega

theorem WriteInv.access {spurious : Bool} (h : WriteInv guard s) (hstack : s.stack = w :: rest)
    (hG : Complete s (.access spurious))
    (hb : bytesOf ((s.access w rest spurious).reserved.map Prod.snd) < 2 ^ 32) :
    WriteInv guard (s.access w rest spurious) := by
  obtain ⟨gone,live,hl,hso⟩ := h
  have hinv : WriteInv guard s := ⟨gone,live,hl,hso⟩
  rw [hstack] at hso
  have htop := hso.1
  have htail := htop.tail_le
  have hhead := htop.head_le
  have hst := htop.stage
  obtain ⟨hGload,hGcas⟩ := hG w (by rw [hstack]; rfl)
  rw [hstack,List.tail_cons] at hGcas
  -- an access that leaves the records alone and the call on the stack
  have hkeep : ∀ {w' : Writer}, ¬w.owns → FrameOk s rest w' → WriteInv guard { s with stack := w' :: rest } :=
    fun hw hw' => hinv.congr hstack hw (.inr ⟨_,rfl,hw'⟩) rfl rfl rfl rfl hl.words
  cases hpc : w.pc <;> simp only [hpc,WriteSys.access] at hst hb ⊢
  case loadTail => exact hkeep (not_owns_of_pc (by rw [hpc]; decide)) ⟨le_rfl,hhead,trivial⟩
  case loadHead =>
    exact hkeep (not_owns_of_pc (by rw [hpc]; decide)) (FrameOk.test htail le_rfl)
  case loadTag =>
    have hw : ¬w.owns := not_owns_of_pc (by rw [hpc]; decide)
    have hlt := isFull_true hst (hGload hpc) w.msg.size_le
    split
    · exact hkeep hw ⟨htail,hhead,hlt⟩
    · rename_i hseal
      refine hkeep hw ⟨htail,hhead,hl.nextOk hstack hw (hlt.trans_le hhead) fun m hrec => ?_⟩
      exact absurd hrec.tag_eq hseal
  case loadOldHdr =>
    have hw : ¬w.owns := not_owns_of_pc (by rw [hpc]; decide)
    refine hkeep hw ⟨htail,hhead,hl.nextOk hstack hw (hst.trans_le hhead) fun m hrec hlt => ?_⟩
    rw [hrec.sealedNext_eq,u32_of_lt hlt]
  case casTail =>
    have hw : ¬w.owns := not_owns_of_pc (by rw [hpc]; decide)
    split
    · rename_i hcas
      refine hinv.casTail hstack hpc (hGcas hpc hcas.2 hcas.1) hcas.1 rfl rfl rfl fun u hut huh => ?_
      split
      · exact ⟨hut,hhead.trans huh,trivial⟩
      · exact FrameOk.test hut (hhead.trans huh)
    · exact hkeep hw (FrameOk.test le_rfl hhead)
  case countDrop =>
    exact hinv.congr hstack (not_owns_of_pc (by rw [hpc]; decide)) (.inr ⟨_,rfl,FrameOk.test htail hhead⟩) rfl rfl rfl rfl
      ⟨hl.words.1,u32_lt _⟩
  case casHead =>
    have hw : ¬w.owns := not_owns_of_pc (by rw [hpc]; decide)
    split
    · rename_i hcas
      rw [if_pos hcas] at hb
      exact hinv.casHead hstack hpc hcas.1 hb
    · split
      · exact hinv.congr hstack hw (.inl rfl) rfl rfl rfl rfl hl.words
      · exact hkeep hw ⟨htail,le_rfl,trivial⟩
  case reloadTail =>
    exact hkeep (not_owns_of_pc (by rw [hpc]; decide)) (FrameOk.test le_rfl hhead)
  case storeHdr =>
    have hle := w.msg.le_size
    have hlen := LogHdr.toBytes_length (w.msg.hdr w.msg.len)
    have hdata := storeHdr_eq (n := n) s.ring.data w.startPos (w.msg.hdr w.msg.len)
    have hn := n.le_val
    refine hinv.storeOwn hstack (.inl hpc) 0 _ (by rw [hlen]; omega) (by rw [hdata]; rfl) rfl rfl
      (.inl ⟨.inr (.inl rfl),rfl⟩) ⟨htail,hhead,⟨hst.placed,hst.le,hst.above⟩,?_⟩
    change Holds n.val (storeHdr n s.ring.data w.startPos (w.msg.hdr w.msg.len)) w.startPos _
    rw [hdata]
    exact holds_store _ _ _ _ (by rw [hlen]; omega)
  case storePayload =>
    obtain ⟨ho,hhdr⟩ := hst
    have hn := n.le_val
    have hsize := w.msg.size_le
    have hdata := storePayload_eq (n := n) s.ring.data (place_mod ho.placed) w.msg
    have hlen : 12 + (w.msg.payload ++ List.replicate (padLen w.msg.len) 0).length = w.msg.size := by
      have := w.msg.record_length logTagFree
      rwa [LogArgs.record,List.length_append,LogHdr.toBytes_length] at this
    dsimp only at hdata
    refine hinv.storeOwn hstack (.inr (.inl hpc)) _ _ hlen.le (by rw [hdata]) rfl rfl
      (.inl ⟨.inr (.inr rfl),rfl⟩) ⟨htail,hhead,⟨ho.placed,ho.le,ho.above⟩,?_⟩
    change Holds n.val (storePayload n s.ring.data w.startPos w.msg.len w.msg.buf) w.startPos _
    rw [hdata,LogArgs.record,holds_append,LogHdr.toBytes_length]
    refine ⟨hhdr.store_after ?_ ?_,holds_store _ _ _ _ (by omega)⟩
    · rw [LogHdr.toBytes_length]
    · omega
  case storeSeal =>
    obtain ⟨ho,hrec⟩ := hst
    have hdata : storeSeal n s.ring.data w.startPos = store n.val s.ring.data w.startPos [logTagSeal] := by
      rw [storeSeal,index_eq]
      rfl
    have h16 := w.msg.sixteen_le_size
    refine hinv.storeOwn hstack (.inr (.inr hpc)) 0 [logTagSeal] (by simp; omega)
      (by rw [hdata]; rfl) rfl rfl (.inr ?_) ⟨htail,hhead,trivial⟩
    change RecordAt n (storeSeal n s.ring.data w.startPos) w.startPos logTagSeal w.msg
    rw [hdata]
    exact hrec.retag logTagSeal
  case setDirty =>
    exact hinv.congr hstack (not_owns_of_pc (by rw [hpc]; decide)) (.inr ⟨_,rfl,⟨htail,hhead,trivial⟩⟩) rfl rfl rfl rfl
      hl.words
  case addSum =>
    exact hinv.congr hstack (not_owns_of_pc (by rw [hpc]; decide)) (.inl rfl) rfl rfl rfl rfl ⟨u32_lt _,hl.words.2⟩

end EmbedTemplate.Logging
