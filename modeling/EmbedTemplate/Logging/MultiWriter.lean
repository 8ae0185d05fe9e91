import EmbedTemplate.Logging.WriterSafety

/-! # Multi-writer runs of the log ring

Runs of interrupting writers from start-up. As long as the tail moves over complete
records only, no store reaches a foreign record, and whatever has neither been dropped
nor bailed out is handed out by the next flash. Otherwise two records may share bytes.
-/
namespace EmbedTemplate.Logging
open Circular Bytes Machine
variable {n : BufSize} {guard : List UInt8} {s t : WriteSys n}

/-- The addresses that the next access of a call stores to. -/
def Writer.footprint (n : BufSize) (w : Writer) : List ℕ :=
  match w.pc with
  | .storeHdr => (List.range hdrSize).map fun i => (w.startPos + i) % n.val
  | .storePayload => (List.range (w.msg.size - hdrSize)).map fun i => (w.startPos + hdrSize + i) % n.val
  | .storeSeal => [w.startPos % n.val]
  | _ => []

/-- The next access stores within its footprint, and the footprint meets no other record
that lies between tail and head or that another call has reserved. -/
structure StoresApart (s : WriteSys n) : Prop where
  within : ∀ w rest, s.stack = w :: rest → ∀ spurious, ∀ x, x ∉ w.footprint n →
    (s.access w rest spurious).ring.data x = s.ring.data x
  apart : ∀ w rest, s.stack = w :: rest → ∀ p ∈ s.placed, p.pos ≠ w.startPos →
    (s.ring.tail ≤ p.pos ∨ ∃ v ∈ rest, v.owns ∧ v.startPos = p.pos) →
      ∀ i < p.msg.size, (p.pos + i) % n.val ∉ w.footprint n

/-- A call has yet to reserve its record. -/
def Writer.waiting (w : Writer) : Bool :=
  match w.pc with
  | .storeHdr | .storePayload | .storeSeal | .setDirty | .addSum => false
  | _ => true

/-- Every call has bailed out, reserved a record or is still about to, each exactly once. -/
def Accounted (s : WriteSys n) : Prop :=
  (s.bailed ++ s.reserved.map Prod.fst ++ (s.stack.filter Writer.waiting).map Writer.id).Perm (List.range s.calls)

/-- The records that the tail has not passed, which are those neither dropped nor flashed. -/
def WriteSys.live (s : WriteSys n) : List Placed := s.placed.filter fun p => s.ring.tail ≤ p.pos

/-- The next flash hands out exactly the live messages, intact and in order. -/
def AllDelivered (s : WriteSys n) : Prop :=
  ∃ r', logFlash true s.ring = some (r',s.live.map fun p => some p.msg.line)

/-- No live record starts at the last word pair, or it starts with the bytes behind the guard. -/
def FirstWordsAgree (s : WriteSys n) : Prop :=
  ∀ p ∈ s.live, p.pos % n.val = n.val - 8 → s.ring.guardWord.take p.msg.len = p.msg.payload.take 4

@[simp] theorem Writer.test_waiting (w : Writer) : (w.test n).waiting = true := by
  by_cases hfull : isFull n w.head w.tail w.msg.size = true
  · rw [Writer.test_full hfull]
    rfl
  · rw [Writer.test_fits hfull]
    rfl

@[simp] theorem Writer.test_id (w : Writer) : (w.test n).id = w.id := by
  by_cases hfull : isFull n w.head w.tail w.msg.size = true
  · rw [Writer.test_full hfull]
  · rw [Writer.test_fits hfull]

section Accounting
variable {w w' : Writer} {rest : List Writer}

theorem Accounted.replace (h : Accounted s) (hstack : s.stack = w :: rest) (ht : t.stack = w' :: rest)
    (hid : w'.id = w.id) (hwait : w'.waiting = w.waiting) (hb : t.bailed = s.bailed) (hr : t.reserved = s.reserved)
    (hc : t.calls = s.calls) : Accounted t := by
  rw [Accounted,hstack,List.filter_cons] at h
  rw [Accounted,ht,List.filter_cons,hwait,hb,hr,hc]
  cases hw : w.waiting <;> simp only [hw,if_true,List.map_cons,hid] at h ⊢ <;> exact h

theorem Accounted.test (h : Accounted s) (hstack : s.stack = w :: rest) (hw : w.waiting = true)
    (ht : t.stack = w'.test n :: rest) (hid : w'.id = w.id) (hb : t.bailed = s.bailed) (hr : t.reserved = s.reserved)
    (hc : t.calls = s.calls) : Accounted t :=
  h.replace hstack ht (by rw [Writer.test_id,hid]) (by rw [Writer.test_waiting,hw]) hb hr hc

theorem Accounted.access (h : Accounted s) (hstack : s.stack = w :: rest) (spurious : Bool) :
    Accounted (s.access w rest spurious) := by
  have hmove : ∀ {w' : Writer} {t : WriteSys n}, t.stack = w' :: rest → w'.id = w.id → w'.waiting = w.waiting →
      t.bailed = s.bailed → t.reserved = s.reserved → t.calls = s.calls → Accounted t :=
    fun ht hid hwait hb hr hc => h.replace hstack ht hid hwait hb hr hc
  have hwait : w.waiting = true → (s.bailed ++ s.reserved.map Prod.fst ++
      (w.id :: (rest.filter Writer.waiting).map Writer.id)).Perm (List.range s.calls) := by
    intro hw
    rw [Accounted,hstack,List.filter_cons,if_pos hw,List.map_cons] at h
    exact h
  cases hpc : w.pc <;> simp only [hpc,WriteSys.access]
  case loadTail => exact hmove rfl rfl (by simp [Writer.waiting,hpc]) rfl rfl rfl
  case loadHead => exact h.test hstack (by simp [Writer.waiting,hpc]) rfl rfl rfl rfl rfl
  case loadTag => split <;> exact hmove rfl rfl (by simp [Writer.waiting,hpc]) rfl rfl rfl
  case loadOldHdr => exact hmove rfl rfl (by simp [Writer.waiting,hpc]) rfl rfl rfl
  case casTail =>
    have hw : w.waiting = true := by simp [Writer.waiting,hpc]
    split
    · split
      · exact hmove rfl rfl hw.symm rfl rfl rfl
      · exact h.test hstack hw rfl rfl rfl rfl rfl
    · exact h.test hstack hw rfl rfl rfl rfl rfl
  case countDrop => exact h.test hstack (by simp [Writer.waiting,hpc]) rfl rfl rfl rfl rfl
  case casHead =>
    have hp := hwait (by simp [Writer.waiting,hpc])
    split
    · rw [Accounted,List.filter_cons,if_neg (by simp [Writer.waiting])]
      simpa [List.append_assoc] using hp
    · split
      · rw [Accounted]
        refine List.Perm.trans ?_ hp
        rw [List.append_assoc,List.append_assoc,List.append_assoc]
        refine List.Perm.append_left _ ?_
        rw [List.singleton_append]
        exact List.perm_middle.symm
      · exact hmove rfl rfl (by simp [Writer.waiting,hpc]) rfl rfl rfl
  case reloadTail => exact h.test hstack (by simp [Writer.waiting,hpc]) rfl rfl rfl rfl rfl
  case storeHdr | storePayload | storeSeal | setDirty =>
    exact hmove rfl rfl (by simp [Writer.waiting,hpc]) rfl rfl rfl
  case addSum =>
    rw [Accounted,hstack,List.filter_cons,if_neg (by simp [Writer.waiting,hpc])] at h
    exact h

end Accounting

theorem Accounted.step {label : WriteLabel} (h : Accounted s) (hs : writeStep s label = some t) : Accounted t := by
  cases label with
  | call m =>
    rcases writeStep_call hs with rfl | rfl
    · rw [Accounted,List.filter_cons,if_pos (show (Writer.enter s.calls m).waiting = true from rfl),List.map_cons,
        List.range_succ]
      exact List.perm_middle.trans ((h.cons _).trans (List.perm_append_singleton _ _).symm)
    · exact h
  | access spurious =>
    obtain ⟨w,rest,hstack,rfl⟩ := writeStep_access hs
    exact h.access hstack spurious
  | flash writer =>
    obtain ⟨hstack,out,_,rfl⟩ := writeStep_flash hs
    rw [Accounted,hstack] at h ⊢
    exact h

theorem holds_records {data : ℕ → UInt8} {start : ℕ} {ms : List LogArgs}
    (h : ∀ p ∈ place start ms, RecordAt n data p.pos logTagSeal p.msg) :
    Holds n.val data start (ms.flatMap LogArgs.sealed) := by
  induction ms generalizing start with
  | nil => exact holds_nil _ _ _
  | cons m ms ih =>
    rw [List.flatMap_cons,holds_append,m.sealed_length]
    exact ⟨h _ List.mem_cons_self,ih fun p hp => h p (List.mem_cons_of_mem _ hp)⟩

section Layout
variable {gone live : List (ℕ × LogArgs)}

theorem WriteLayout.placed_eq (h : WriteLayout guard s gone live) :
    s.placed = place 0 (gone.map Prod.snd) ++ place s.ring.tail (live.map Prod.snd) := by
  rw [WriteSys.placed,h.reserved,List.map_append,place_append,Nat.zero_add,h.tail_eq]

theorem WriteLayout.live_eq (h : WriteLayout guard s gone live) :
    s.live = place s.ring.tail (live.map Prod.snd) := by
  rw [WriteSys.live,h.placed_eq,List.filter_append,List.filter_eq_nil_iff.mpr,List.nil_append,List.filter_eq_self.mpr]
  · intro p hp
    exact decide_eq_true (place_start_le hp)
  · intro p hp
    have hend := place_end_le hp
    have h16 := p.msg.sixteen_le_size
    rw [← h.tail_eq] at hend
    simp only [decide_eq_true_eq]
    omega

/-- With no call in progress the live records are pending in the sense of the sequential ring. -/
theorem WriteLayout.pending (h : WriteLayout guard s gone live) (hstack : s.stack = []) :
    Pending s.ring s.ring.tail 0 (live.map Prod.snd) := by
  have hbound := h.bound
  have hroom := h.room
  have htail := h.tail_eq
  have hmod := bytesOf_mod (gone.map Prod.snd)
  have hhead : s.ring.head = s.ring.tail + bytesOf (live.map Prod.snd) := by
    rw [h.head_eq,h.reserved,List.map_append,bytesOf_append,h.tail_eq]
  have hheq := h.head_eq
  refine ⟨(u32_of_lt (by omega)).symm,by rw [Nat.add_zero,← hhead,u32_of_lt (by omega)],by omega,rfl,by omega,
    holds_records fun p hp => ?_,h.words⟩
  rw [Nat.add_zero] at hp
  have hp' : p ∈ s.placed := by
    rw [h.placed_eq]
    exact List.mem_append_right _ hp
  refine (h.sealed p hp' (place_start_le hp)).resolve_left ?_
  rw [hstack]
  rintro ⟨v,hv,_⟩
  cases hv

theorem WriteLayout.flash (h : WriteLayout guard s gone live) (hstack : s.stack = []) (writer : Bool) :
    ∃ r', logFlash writer s.ring = some (r',s.live.map (Placed.event n s.ring.guardWord writer)) ∧
      WriteLayout guard { s with ring := r' } s.reserved [] := by
  have hbound := h.bound
  have hheq := h.head_eq
  have hhead : s.ring.head = s.ring.tail + bytesOf (live.map Prod.snd) := by
    rw [h.head_eq,h.reserved,List.map_append,bytesOf_append,h.tail_eq]
  obtain ⟨r',hr,hd,_⟩ := (h.pending hstack).logFlash (by omega) writer
  have htail : r'.tail = s.ring.head := by
    rw [hd.pending.tail_eq,← hhead,u32_of_lt (by omega)]
  have hhead' : r'.head = s.ring.head := by
    rw [hd.pending.head_eq,← hhead,bytesOf_nil,Nat.add_zero,u32_of_lt (by omega)]
  refine ⟨r',by rw [hr,h.live_eq],⟨by rw [List.append_nil],htail.trans hheq,hhead'.trans hheq,?_,hbound,?_,
    hd.pending.words,fun p hp hle => ?_⟩⟩
  · change r'.head ≤ r'.tail + n.val
    omega
  · rw [← h.guard_eq]
    exact hd.guard.guardWord
  · have hend : p.pos + p.msg.size ≤ s.ring.head := h.end_le hp
    have h16 := p.msg.sixteen_le_size
    change r'.tail ≤ p.pos at hle
    omega

end Layout

theorem writeStep_reserved {label : WriteLabel} (hs : writeStep s label = some t) :
    bytesOf (s.reserved.map Prod.snd) ≤ bytesOf (t.reserved.map Prod.snd) := by
  cases label with
  | call m => rcases writeStep_call hs with rfl | rfl <;> exact le_rfl
  | access spurious =>
    obtain ⟨w,rest,hstack,rfl⟩ := writeStep_access hs
    have hgrow : (s.access w rest spurious).reserved = s.reserved ∨
        (s.access w rest spurious).reserved = s.reserved ++ [(w.id,w.msg)] := by
      cases hpc : w.pc <;> simp only [WriteSys.access,hpc] <;> (try split) <;> (try split) <;> simp
    rcases hgrow with hgrow | hgrow <;> rw [hgrow]
    rw [List.map_append,bytesOf_append]
    exact Nat.le_add_right _ _
  | flash writer =>
    obtain ⟨_,out,_,rfl⟩ := writeStep_flash hs
    exact le_rfl

theorem WriteInv.step {label : WriteLabel} (h : WriteInv guard s) (hG : Complete s label)
    (hs : writeStep s label = some t) (hb : bytesOf (t.reserved.map Prod.snd) < 2 ^ 32) : WriteInv guard t := by
  cases label with
  | call m =>
    rcases writeStep_call hs with rfl | rfl
    · obtain ⟨gone,live,hl,hso⟩ := h
      have hrely : ∀ fs, Rely s { s with stack := Writer.enter s.calls m :: s.stack, calls := s.calls + 1 } fs :=
        fun fs => Rely.congr rfl rfl rfl rfl
      exact ⟨gone,live,hl.congr rfl rfl rfl rfl hl.words fun v hv _ => List.mem_cons_of_mem _ hv,
        ⟨Nat.zero_le _,Nat.zero_le _,trivial⟩,hso.stable (hrely s.stack)⟩
    · exact h
  | access spurious =>
    obtain ⟨w,rest,hstack,rfl⟩ := writeStep_access hs
    exact h.access hstack hG hb
  | flash writer =>
    obtain ⟨hstack,out,hout,rfl⟩ := writeStep_flash hs
    obtain ⟨gone,live,hl,_⟩ := h
    obtain ⟨r',hr,hl'⟩ := hl.flash hstack writer
    obtain rfl := Option.some.inj (hout.symm.trans hr)
    refine ⟨s.reserved,[],hl',?_⟩
    change StackOk _ s.stack
    rw [hstack]
    trivial

theorem WriteInv.boot {r : LogRing n} (hr : Boot r) : WriteInv r.guardWord (WriteSys.boot r) :=
  ⟨[],[],⟨rfl,hr.tail,hr.head,by rw [WriteSys.boot,hr.head]; exact Nat.zero_le _,by simp [WriteSys.boot],rfl,hr.pending.words,
    fun p hp => by cases hp⟩,trivial⟩

/-- Under the invariant a store stays inside the record of its call. -/
theorem WriteInv.storesApart (h : WriteInv guard s) : StoresApart s := by
  obtain ⟨gone,live,hl,hso⟩ := h
  have hn := n.le_val
  constructor
  · intro w rest hstack spurious x hx
    rw [hstack] at hso
    have hst := hso.1.stage
    cases hpc : w.pc <;> simp only [hpc,WriteSys.access,Writer.footprint] at hst hx ⊢
    case storeHdr =>
      rw [storeHdr_eq]
      refine store_outside _ _ _ _ fun i hi he => hx ?_
      rw [LogHdr.toBytes_length] at hi
      exact List.mem_map.mpr ⟨i,List.mem_range.mpr hi,he⟩
    case storePayload =>
      have hle := w.msg.le_size
      rw [storePayload_eq _ (place_mod hst.1.placed)]
      refine store_outside _ _ _ _ fun i hi he => hx ?_
      have hlen : 12 + (w.msg.payload ++ List.replicate (padLen w.msg.len) 0).length = w.msg.size := by
        have := w.msg.record_length logTagFree
        rwa [LogArgs.record,List.length_append,LogHdr.toBytes_length] at this
      exact List.mem_map.mpr ⟨i,List.mem_range.mpr (by rw [hdrSize]; omega),he⟩
    case storeSeal =>
      rw [storeSeal,index_eq,put,put_nil]
      exact Function.update_of_ne (fun he => hx (List.mem_singleton.mpr he)) _ _
    all_goals (try split) <;> (try split) <;> rfl
  · intro w rest hstack p hp hne hp' i hi hx
    rw [hstack] at hso
    have hle : s.ring.tail ≤ p.pos := by
      rcases hp' with hle | ⟨v,hv,howns,hpos⟩
      · exact hle
      · obtain ⟨rest',ho⟩ := hso.2.owned hv howns
        rw [← hpos]
        exact ho.le
    have hsep : ∀ j < w.msg.size, w.owns → (w.startPos + j) % n.val ≠ (p.pos + i) % n.val := fun j hj howns =>
      hl.apart (hso.1.owned howns).placed hp (hso.1.owned howns).le hle (Ne.symm hne) hj hi
    have h16 := w.msg.sixteen_le_size
    cases hpc : w.pc <;> simp only [hpc,Writer.footprint] at hx
    case storeHdr =>
      obtain ⟨j,hj,he⟩ := List.mem_map.mp hx
      have hj := List.mem_range.mp hj
      rw [hdrSize] at hj
      exact hsep j (by omega) (.inl hpc) he
    case storePayload =>
      obtain ⟨j,hj,he⟩ := List.mem_map.mp hx
      have hj := List.mem_range.mp hj
      rw [hdrSize] at hj he
      exact hsep (12 + j) (by omega) (.inr (.inl hpc)) (by rw [← Nat.add_assoc]; exact he)
    case storeSeal => exact hsep 0 (by omega) (.inr (.inr hpc)) (List.mem_singleton.mp hx).symm
    all_goals cases hx

/-- What the next flash hands out once all calls have returned. -/
theorem WriteInv.allDelivered (h : WriteInv guard s) (hstack : s.stack = []) : AllDelivered s ↔ FirstWordsAgree s := by
  obtain ⟨gone,live,hl,_⟩ := h
  obtain ⟨r',hr,_⟩ := hl.flash hstack true
  have hiff : AllDelivered s ↔ s.live.map (Placed.event n s.ring.guardWord true) = s.live.map
      fun p => some p.msg.line := by
    rw [AllDelivered,hr]
    simp
  rw [hiff,List.map_inj_left,FirstWordsAgree]
  refine forall₂_congr fun p _ => ?_
  rw [Placed.event,if_pos rfl,Option.some_inj]
  exact LogArgs.lineAt_eq_line s.ring.guardWord_length

/-- In every run whose tail exchanges move over complete records, stores stay apart, and
once all calls have returned every message has been dropped, has bailed out, or is handed
out by the next flash. -/
theorem complete_storesApart {r : LogRing n} (hr : Boot r) {labels : List WriteLabel}
    (hG : Meets writeStep Complete (WriteSys.boot r) labels) (hs : exec writeStep (WriteSys.boot r) labels = some s)
    (hres : bytesOf (s.reserved.map Prod.snd) < 2 ^ 32) :
    StoresApart s ∧ (s.stack = [] →
      (s.bailed ++ s.reserved.map Prod.fst).Perm (List.range s.calls) ∧ (AllDelivered s ↔ FirstWordsAgree s)) := by
  have hinv : bytesOf (s.reserved.map Prod.snd) < 2 ^ 32 → WriteInv r.guardWord s :=
    Machine.invariant writeStep (I := fun s => bytesOf (s.reserved.map Prod.snd) < 2 ^ 32 → WriteInv r.guardWord s)
      (fun _ _ _ h hG hs hb => (h ((writeStep_reserved hs).trans_lt hb)).step hG hs hb) (fun _ => WriteInv.boot hr) hG hs
  have hacc : Accounted s := Machine.reachable writeStep (fun _ _ _ h hs => Accounted.step h hs)
    (show Accounted (WriteSys.boot r) from List.Perm.refl _) hs
  refine ⟨(hinv hres).storesApart,fun hstack => ⟨?_,(hinv hres).allDelivered hstack⟩⟩
  rw [Accounted,hstack] at hacc
  simpa using hacc

/-- Two calls, the second of which interrupts the first between its reservation and its
header store. -/
def nestedCalls : List WriteLabel :=
  [.call greeting] ++ List.replicate 3 (.access false) ++ [.call greeting] ++ List.replicate 13 (.access false)

theorem complete_storesApart_nested : ∃ s,
    exec writeStep (WriteSys.boot (initialRing bufSize512)) nestedCalls = some s ∧ StoresApart s ∧
      (s.stack = [] → (s.bailed ++ s.reserved.map Prod.fst).Perm (List.range s.calls) ∧
        (AllDelivered s ↔ FirstWordsAgree s)) := by
  have hrun : (exec writeStep (WriteSys.boot (initialRing bufSize512)) nestedCalls).map
      (fun s => bytesOf (s.reserved.map Prod.snd)) = some 32 := by decide +kernel
  obtain ⟨s,hs,hbytes⟩ := Option.map_eq_some_iff.mp hrun
  exact ⟨s,hs,complete_storesApart (boot_initialRing _) (by decide +kernel) hs (by rw [hbytes]; decide)⟩

/-- Two long calls interrupt a short one behind its reservation. The second of them makes
room by stepping over the record that the short call has yet to write. -/
def steppedOverCalls : List WriteLabel :=
  [.call greeting] ++ List.replicate 3 (.access false) ++ [.call longText] ++ List.replicate 8 (.access false) ++
    [.call longText] ++ List.replicate 12 (.access false)

theorem steppedOver_not_storesApart : ∃ s,
    exec writeStep (WriteSys.boot (initialRing bufSize512)) steppedOverCalls = some s ∧
      bytesOf (s.reserved.map Prod.snd) < 2 ^ 32 ∧ ¬StoresApart s := by
  have hrun : (exec writeStep (WriteSys.boot (initialRing bufSize512)) steppedOverCalls).map (fun s =>
      (s.stack.map fun w => (w.pc,w.startPos,w.msg.size),s.placed.map Placed.pos,bytesOf (s.reserved.map Prod.snd))) =
      some ([(.storePayload,288,272),(.storeHdr,0,16)],[0,16,288],560) := by decide +kernel
  obtain ⟨s,hs,hrun⟩ := Option.map_eq_some_iff.mp hrun
  simp only [Prod.mk.injEq] at hrun
  obtain ⟨hcalls,hpos,hbytes⟩ := hrun
  refine ⟨s,hs,by rw [hbytes]; decide,fun h => ?_⟩
  obtain ⟨w,rest,hstack,hw,hrest⟩ := List.map_eq_cons_iff.mp hcalls
  obtain ⟨v,_,rfl,hv,hnil⟩ := List.map_eq_cons_iff.mp hrest
  simp only [Prod.mk.injEq] at hw hv
  obtain ⟨hpc,hstart,hsize⟩ := hw
  obtain ⟨hvpc,hvstart,_⟩ := hv
  obtain ⟨p,_,hplaced,hp,_⟩ := List.map_eq_cons_iff.mp hpos
  have hmem : p ∈ s.placed := by
    rw [hplaced]
    exact List.mem_cons_self
  have h16 := p.msg.sixteen_le_size
  refine h.apart w _ hstack p hmem (by rw [hp,hstart]; decide)
    (.inr ⟨v,List.mem_cons_self,.inl hvpc,by rw [hvstart,hp]⟩) 0 (by omega) ?_
  simp only [Writer.footprint,hpc,hstart,hsize,hp]
  exact List.mem_map.mpr ⟨212,by decide,rfl⟩

end EmbedTemplate.Logging
