import EmbedTemplate.Logging.Reader

/-! # A reader that nothing interrupts

The single accesses of a flash, taken without any call in between, compute
`logFlash`: the byte loads add up to the header and the payload, the search finds
what `syncSearch` finds, and each round of the loop is a `flashRound`.
-/
namespace EmbedTemplate.Logging
open Circular Bytes Machine
variable {n : BufSize}

/-- The accesses of one flash lead from one state to another. -/
def Flashes (s t : ReadSys n) : Prop := Repeats readStep .access s t

theorem readStep_access {s : ReadSys n} (h : s.reader.pc ≠ .idle) : readStep s .access = some s.access := by
  rw [readStep,if_neg h]

theorem Flashes.access {s t : ReadSys n} (h : s.reader.pc ≠ .idle) (ht : Flashes s.access t) : Flashes s t :=
  Repeats.head (readStep_access h) ht

theorem Flashes.refl (s : ReadSys n) : Flashes s s := Repeats.refl readStep _ s

theorem copyFromRing_eq_map (data : ℕ → UInt8) (startPos len : ℕ) :
    copyFromRing n data startPos len = (List.range len).map fun i => data (copyAddr n startPos i) := by
  simp only [copyFromRing]
  split
  · rename_i hfit
    rw [get_eq_map]
    refine List.map_congr_left fun i hi => ?_
    rw [copyAddr,if_pos (by have := List.mem_range.mp hi; omega)]
  · rename_i hsplit
    rw [get_eq_map,get_eq_map]
    obtain ⟨k,hk⟩ := Nat.exists_eq_add_of_le (Nat.le_of_not_le hsplit)
    rw [hk,Nat.add_sub_cancel_left,List.range_add,List.map_append,List.map_map]
    congr 1
    · refine List.map_congr_left fun i hi => ?_
      rw [copyAddr,if_pos (List.mem_range.mp hi)]
    · refine List.map_congr_left fun i _ => ?_
      simp [copyAddr]

/-- The header bytes that a flash collects. -/
def hdrBytes (n : BufSize) (data : ℕ → UInt8) (tail k : ℕ) : List UInt8 :=
  (List.range k).map fun i => data (hdrAddr n tail i)

/-- The payload bytes that a flash collects. -/
def payloadBytes (n : BufSize) (data : ℕ → UInt8) (tail k : ℕ) : List UInt8 :=
  (List.range k).map fun i => data (payloadAddr n tail i)

theorem hdrBytes_succ (data : ℕ → UInt8) (tail k : ℕ) :
    hdrBytes n data tail (k + 1) = hdrBytes n data tail k ++ [data (hdrAddr n tail k)] := by
  rw [hdrBytes,List.range_succ,List.map_append]
  rfl

theorem payloadBytes_succ (data : ℕ → UInt8) (tail k : ℕ) :
    payloadBytes n data tail (k + 1) = payloadBytes n data tail k ++ [data (payloadAddr n tail k)] := by
  rw [payloadBytes,List.range_succ,List.map_append]
  rfl

@[simp] theorem hdrBytes_length (data : ℕ → UInt8) (tail k : ℕ) : (hdrBytes n data tail k).length = k := by
  simp [hdrBytes]

@[simp] theorem payloadBytes_length (data : ℕ → UInt8) (tail k : ℕ) :
    (payloadBytes n data tail k).length = k := by
  simp [payloadBytes]

theorem ofBytes_hdrBytes (data : ℕ → UInt8) (tail : ℕ) :
    LogHdr.ofBytes (hdrBytes n data tail hdrSize) = loadHdr n data tail := by
  simp only [loadHdr]
  split
  · rename_i hfit
    rw [← get_add,get_eq_map]
    congr 1
    refine List.map_congr_left fun i _ => ?_
    rw [hdrAddr,if_pos hfit]
  · rename_i hsplit
    rw [copyFromRing_eq_map]
    congr 1
    refine List.map_congr_left fun i _ => ?_
    rw [hdrAddr,if_neg hsplit]

theorem payloadBytes_eq (data : ℕ → UInt8) (tail len : ℕ) :
    payloadBytes n data tail (max 4 len) = loadFirst n data tail ++ loadRest n data tail len := by
  have hfirst : payloadBytes n data tail 4 = loadFirst n data tail := by
    rw [loadFirst,get_eq_map]
    refine List.map_congr_left fun i hi => ?_
    rw [payloadAddr,if_pos (List.mem_range.mp hi)]
  rw [loadRest]
  split
  · rename_i h4
    obtain ⟨k,rfl⟩ := Nat.exists_eq_add_of_lt h4
    have hmax : max 4 (4 + k + 1) = 4 + (k + 1) := by omega
    rw [hmax,show 4 + k + 1 - 4 = k + 1 by omega,copyFromRing_eq_map,← hfirst,payloadBytes,List.range_add,
      List.map_append,List.map_map]
    congr 1
    refine List.map_congr_left fun i _ => ?_
    simp [payloadAddr]
  · rename_i h4
    rw [Nat.max_eq_left (by omega),hfirst,List.append_nil]

theorem flashes_hdr (s : ReadSys n) (writer : Bool) (head tail : ℕ) :
    Flashes { s with reader := ⟨.loadHdr,writer,head,tail,[],[]⟩ }
      { s with reader := ⟨.checkTail,writer,head,tail,hdrBytes n s.ring.data tail hdrSize,[]⟩ } := by
  refine Repeats.chain (fun k => { s with
    reader := ⟨if k < hdrSize then .loadHdr else .checkTail,writer,head,tail,hdrBytes n s.ring.data tail k,[]⟩ })
    (Nat.zero_le hdrSize) fun k _ hk => ?_
  simp only [if_pos hk]
  rw [readStep_access (by simp)]
  simp [ReadSys.access,hdrBytes_succ]

theorem flashes_payload (s : ReadSys n) (writer : Bool) (head tail : ℕ) (hdr : List UInt8) :
    Flashes { s with reader := ⟨.loadPayload,writer,head,tail,hdr,[]⟩ }
      { s with
        reader := ⟨.verify,writer,head,tail,hdr,
          payloadBytes n s.ring.data tail (max 4 (LogHdr.ofBytes hdr).len.toNat)⟩ } := by
  have hpos : 0 < max 4 (LogHdr.ofBytes hdr).len.toNat := by omega
  have hchain := @Repeats.chain _ _ readStep .access (fun k => { s with
    reader := ⟨if k < max 4 (LogHdr.ofBytes hdr).len.toNat then .loadPayload else .verify,writer,head,tail,hdr,
      payloadBytes n s.ring.data tail k⟩ }) _ _ (Nat.zero_le (max 4 (LogHdr.ofBytes hdr).len.toNat)) fun k _ hk => by
    simp only [if_pos hk]
    rw [readStep_access (by simp)]
    simp [ReadSys.access,payloadBytes_succ,Reader.header]
  simp only [if_pos hpos,lt_irrefl,if_false] at hchain
  exact hchain

theorem flashes_search (s : ReadSys n) (writer : Bool) (head : ℕ) {left : ℕ} (hleft : 0 < left) (tail : ℕ)
    (hhead : tail + left = head) :
    let found := syncSearch n s.ring.data left tail
    Flashes { s with reader := ⟨.search,writer,head,tail,[],[]⟩ }
      { s with reader := ⟨if found < head then .storeSync else .clear,writer,head,found,[],[]⟩ } := by
  induction left generalizing tail with
  | zero => omega
  | succ left ih =>
    apply Flashes.access (by simp)
    by_cases hseal : s.ring.data (index n tail) = logTagSeal ∧ index n tail &&& 7 = 0
    · simp only [ReadSys.access,syncSearch,if_pos hseal,if_pos (by omega : tail < head)]
      exact Flashes.refl _
    · simp only [ReadSys.access,syncSearch,if_neg hseal]
      cases left with
      | zero =>
        have hend : ¬tail + 1 < head := by omega
        rw [syncSearch,if_neg hend,if_neg hend]
        exact Flashes.refl _
      | succ left =>
        rw [if_pos (by omega)]
        exact ih (Nat.succ_pos left) (tail + 1) (by omega)

/-- A reader at the loop test. -/
def Reader.at (writer : Bool) (head tail : ℕ) : Reader :=
  ⟨if tail < head then .loadPending else .clear,writer,head,tail,[],[]⟩

@[simp] theorem Reader.loop_mk (pc : ReaderPc) (writer : Bool) (head tail tail' : ℕ) (hdr buf : List UInt8) :
    (Reader.mk pc writer head tail hdr buf).loop tail' = Reader.at writer head tail' := rfl

/-- A flash on its way has consumed some records and stands at the loop test again. -/
def Consumes (s : ReadSys n) (writer : Bool) (head : ℕ) (out : LogRing n × ℕ × List (Option LogLine)) : Prop :=
  ∃ ev fr, ev.map Prod.snd = out.2.2 ∧
    Flashes s { s with
      ring := out.1
      reader := .at writer head out.2.1
      events := s.events ++ ev
      freed := s.freed ++ fr }

theorem Consumes.of_flashes {s t : ReadSys n} {writer : Bool} {head : ℕ}
    {out : LogRing n × ℕ × List (Option LogLine)} (h : Flashes s t) (he : t.events = s.events)
    (hf : t.freed = s.freed) (hd : t.dispatched = s.dispatched) (hc : Consumes t writer head out) :
    Consumes s writer head out := by
  obtain ⟨ev,fr,hev,ht⟩ := hc
  rw [he,hf,hd] at ht
  exact ⟨ev,fr,hev,h.trans ht⟩

theorem Consumes.of_access {s : ReadSys n} {writer : Bool} {head : ℕ}
    {out : LogRing n × ℕ × List (Option LogLine)} (h : s.reader.pc ≠ .idle) (he : s.access.events = s.events)
    (hf : s.access.freed = s.freed) (hd : s.access.dispatched = s.dispatched)
    (hc : Consumes s.access writer head out) : Consumes s writer head out :=
  hc.of_flashes (Flashes.access h (Flashes.refl _)) he hf hd

theorem consumes_loop (s : ReadSys n) (writer : Bool) (head tail : ℕ) :
    Consumes { s with reader := .at writer head tail } writer head (s.ring,tail,[]) := by
  refine ⟨[],[],rfl,?_⟩
  simp only [List.append_nil]
  exact Flashes.refl _

theorem consumes_reload (s : ReadSys n) (writer : Bool) (head tail : ℕ) (hdr buf : List UInt8) :
    Consumes { s with reader := ⟨.reload,writer,head,tail,hdr,buf⟩ } writer head (s.ring,s.ring.tail,[]) :=
  Consumes.of_access (by simp) rfl rfl rfl (consumes_loop s writer head s.ring.tail)

theorem consumes_call (s : ReadSys n) (writer : Bool) (head tail : ℕ) (hdr buf : List UInt8) :
    let r := { s.ring with data := put s.ring.data (index n tail) [logTagFree] }
    let stop := u32 (tail + (LogHdr.ofBytes hdr).size)
    let out := if writer then some ((LogHdr.ofBytes hdr).line buf) else none
    Consumes { s with reader := ⟨.call,writer,head,tail,hdr,buf⟩ } writer head
      (if r.tail ≤ tail then ({ r with tail := stop },stop,[out]) else (r,r.tail,[out])) := by
  by_cases hle : s.ring.tail ≤ tail
  · simp only [if_pos hle]
    refine ⟨[(tail,_)],[tail],rfl,?_⟩
    refine Flashes.access (by simp) (Flashes.access (by simp [ReadSys.access])
      (Flashes.access (by simp [ReadSys.access]) ?_))
    simp only [ReadSys.access,if_pos hle]
    exact Flashes.access (by simp) (Flashes.refl _)
  · simp only [if_neg hle]
    refine ⟨[(tail,_)],[tail],rfl,?_⟩
    refine Flashes.access (by simp) (Flashes.access (by simp [ReadSys.access])
      (Flashes.access (by simp [ReadSys.access]) ?_))
    simp only [ReadSys.access,if_neg hle]
    exact Flashes.refl _

theorem consumes_deliver (s : ReadSys n) (writer : Bool) (head tail : ℕ) :
    Consumes { s with reader := ⟨.loadHdr,writer,head,tail,[],[]⟩ } writer head (deliver writer s.ring tail) := by
  refine (Consumes.of_flashes (flashes_hdr s writer head tail) rfl rfl rfl ?_)
  rw [deliver]
  by_cases htail : s.ring.tail ≠ tail
  · rw [if_pos htail]
    refine Consumes.of_access (by simp) rfl rfl rfl ?_
    simp only [ReadSys.access,if_pos htail]
    exact consumes_reload s writer head tail _ _
  rw [if_neg htail]
  refine Consumes.of_access (by simp) rfl rfl rfl ?_
  simp only [ReadSys.access,if_neg htail]
  refine Consumes.of_flashes (flashes_payload s writer head tail _) rfl rfl rfl ?_
  rw [ofBytes_hdrBytes,payloadBytes_eq]
  by_cases hseal : s.ring.data (index n tail) ≠ logTagSeal
  · simp only [if_pos hseal]
    refine Consumes.of_access (by simp) rfl rfl rfl ?_
    simp only [ReadSys.access,if_pos hseal]
    exact consumes_reload s writer head tail _ _
  simp only [if_neg hseal]
  refine Consumes.of_access (by simp) rfl rfl rfl ?_
  simp only [ReadSys.access,if_neg hseal]
  have hcall := consumes_call s writer head tail (hdrBytes n s.ring.data tail hdrSize)
    (loadFirst n s.ring.data tail ++ loadRest n s.ring.data tail (loadHdr n s.ring.data tail).len.toNat)
  rw [ofBytes_hdrBytes] at hcall
  exact hcall

theorem consumes_round (s : ReadSys n) (writer : Bool) (head tail : ℕ) :
    match flashRound writer head s.ring tail with
    | some out => Consumes { s with reader := .at writer head tail } writer head out
    | none => Flashes { s with reader := .at writer head tail }
        { s with ring := { s.ring with dirty := false }, reader := Reader.idle } := by
  rw [flashRound]
  by_cases hlt : tail < head
  · rw [if_pos hlt,Reader.at,if_pos hlt]
    by_cases hpend : s.ring.tail > tail
    · rw [if_pos hpend]
      refine Consumes.of_access (by simp) ?_ ?_ ?_ ?_ <;> simp only [ReadSys.access,if_pos hpend]
      exact consumes_loop s writer head _
    rw [if_neg hpend]
    have htest : Flashes { s with reader := ⟨.loadPending,writer,head,tail,[],[]⟩ }
        { s with reader := ⟨.loadTag,writer,head,tail,[],[]⟩ } := by
      refine Flashes.access (by simp) ?_
      simp only [ReadSys.access,if_neg hpend]
      exact Flashes.refl _
    by_cases htag : s.ring.data (index n tail) ≠ logTagSeal
    · rw [if_pos htag,if_neg hpend]
      have hsearch : Flashes { s with reader := ⟨.loadTag,writer,head,tail,[],[]⟩ }
          { s with reader := ⟨.search,writer,head,tail,[],[]⟩ } := by
        refine Flashes.access (by simp) ?_
        simp only [ReadSys.access,if_neg htag]
        refine Flashes.access (by simp) ?_
        simp only [ReadSys.access,if_neg hpend]
        exact Flashes.refl _
      have hto := htest.trans (hsearch.trans
        (flashes_search s writer head (by omega : 0 < head - tail) tail (by omega)))
      by_cases hfound : syncSearch n s.ring.data (head - tail) tail < head
      · simp only [if_pos hfound] at hto ⊢
        refine Consumes.of_flashes hto rfl rfl rfl (Consumes.of_access (by simp) rfl rfl rfl ?_)
        exact consumes_deliver { s with ring := { s.ring with tail := _ } } writer head _
      · simp only [if_neg hfound] at hto ⊢
        exact hto.trans (Flashes.access (by simp) (Flashes.refl _))
    · rw [if_neg htag]
      refine Consumes.of_flashes htest rfl rfl rfl (Consumes.of_access (by simp) rfl rfl rfl ?_)
      simp only [ReadSys.access,if_pos (not_not.mp htag)]
      exact consumes_deliver s writer head tail
  · rw [if_neg hlt,Reader.at,if_neg hlt]
    exact Flashes.access (by simp) (Flashes.refl _)

theorem flashes_loop (writer : Bool) (head : ℕ) {rounds : ℕ} (s : ReadSys n) (tail : ℕ)
    {r' : LogRing n} {outs : List (Option LogLine)}
    (h : flashLoop writer head rounds s.ring tail = some (r',outs)) :
    ∃ ev fr, ev.map Prod.snd = outs ∧ Flashes { s with reader := .at writer head tail } { s with
      ring := { r' with dirty := false }
      reader := Reader.idle
      events := s.events ++ ev
      freed := s.freed ++ fr } := by
  induction rounds generalizing s tail outs with
  | zero => cases h
  | succ rounds ih =>
    have hround := consumes_round s writer head tail
    rw [flashLoop] at h
    cases hr : flashRound writer head s.ring tail with
    | none =>
      rw [hr] at h hround
      cases h
      exact ⟨[],[],rfl,by simpa using hround⟩
    | some out =>
      obtain ⟨r₁,tail₁,outs₁⟩ := out
      rw [hr] at h hround
      obtain ⟨ev,fr,hev,hto⟩ := hround
      simp only [Option.map_eq_some_iff,Prod.mk.injEq,Prod.exists] at h
      obtain ⟨r₂,outs₂,hl,rfl,rfl⟩ := h
      obtain ⟨ev',fr',hev',hto'⟩ := ih { s with ring := r₁, events := s.events ++ ev, freed := s.freed ++ fr } tail₁ hl
      refine ⟨ev ++ ev',fr ++ fr',by rw [List.map_append,hev,hev'],hto.trans ?_⟩
      simp only [List.append_assoc] at hto'
      exact hto'

theorem flashes_logFlash {s : ReadSys n} (hs : s.reader.pc = .idle) {writer : Bool} {r' : LogRing n}
    {outs : List (Option LogLine)} (h : logFlash writer s.ring = some (r',outs)) :
    ∃ t, readStep s (.flash writer) = some t ∧ ∃ ev fr, ev.map Prod.snd = outs ∧ Flashes t { s with
      ring := r'
      reader := Reader.idle
      events := s.events ++ ev
      freed := s.freed ++ fr } := by
  simp only [logFlash,Option.map_eq_some_iff,Prod.mk.injEq,Prod.exists] at h
  obtain ⟨r₁,outs₁,hl,rfl,rfl⟩ := h
  obtain ⟨ev,fr,hev,hto⟩ := flashes_loop writer s.ring.head s s.ring.tail hl
  refine ⟨{ s with reader := ⟨.loadTail,writer,s.ring.head,0,[],[]⟩ },by rw [readStep,if_pos hs],ev,fr,hev,?_⟩
  exact Flashes.access (by simp) hto

end EmbedTemplate.Logging
