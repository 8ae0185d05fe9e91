import EmbedTemplate.Logging.ReaderRun

/-! # The wake-up flag of the log ring

The CLI loop flashes the ring only while `log_is_dirty` holds. A flash looks no further
than the head it loaded first and clears the flag last, so a message dispatched in
between stays behind a cleared flag.
-/
namespace EmbedTemplate.Logging
open Circular Bytes Machine
variable {n : BufSize}

/-- A sealed record of some message lies between tail and head. -/
def HasRecord (s : ReadSys n) : Prop :=
  ∃ k m, m ∈ s.dispatched ∧ k + m.size ≤ u32 (s.ring.head + 2 ^ 32 - s.ring.tail) ∧
    RecordAt n s.ring.data (s.ring.tail + k) logTagSeal m

/-- Between flashes a pending record is announced. -/
def Announced (s : ReadSys n) : Prop :=
  s.reader.pc = .idle → HasRecord s → logIsDirty s.ring = true

/-- No message is dispatched while a flash is on its way, and no flash starts while the
head counter has wrapped and the tail counter has not. -/
def Calm (s : ReadSys n) : ReadLabel → Prop
  | .dispatch m => m.Accepted → s.reader.pc = .idle
  | .flash _ => s.ring.tail ≤ s.ring.head
  | .access => True

instance (s : ReadSys n) : (label : ReadLabel) → Decidable (Calm s label)
  | .dispatch m => inferInstanceAs (Decidable (m.Accepted → s.reader.pc = .idle))
  | .flash _ => inferInstanceAs (Decidable (s.ring.tail ≤ s.ring.head))
  | .access => inferInstanceAs (Decidable True)

/-- Between flashes: the pending records, and the flag that announces them. -/
structure Quiet (s : ReadSys n) : Prop where
  pc : s.reader.pc = .idle
  ring : ∃ start ms, Pending s.ring start 0 ms ∧ (ms ≠ [] → s.ring.dirty = true)

/-- The flash in progress, if there is one, leads to a quiet state. -/
def Finishing (s : ReadSys n) : Prop := ∃ t, Flashes s t ∧ Quiet t

theorem readStep_idle {s : ReadSys n} (h : s.reader.pc = .idle) : readStep s .access = none := by
  rw [readStep,if_pos h]

theorem Quiet.finishing {s : ReadSys n} (h : Quiet s) : Finishing s := ⟨s,Flashes.refl s,h⟩

theorem Finishing.quiet {s : ReadSys n} (h : Finishing s) (hpc : s.reader.pc = .idle) : Quiet s := by
  obtain ⟨t,hto,ht⟩ := h
  rwa [Repeats.eq_of_stopped hto (readStep_idle hpc)]

theorem Quiet.announced {s : ReadSys n} (h : Quiet s) : Announced s := by
  obtain ⟨start,ms,hp,hd⟩ := h.ring
  rintro - ⟨k,m,_,hk,_⟩
  apply hd
  rintro rfl
  have h16 := m.sixteen_le_size
  rw [hp.tail_eq,hp.head_eq,bytesOf_nil] at hk
  simp only [u32] at hk
  omega

theorem Quiet.dispatch {s t : ReadSys n} (h : Quiet s) {m : LogArgs} (hm : m.Accepted)
    (hs : readStep s (.dispatch m) = some t) : Quiet t := by
  obtain ⟨start,ms,hp,_⟩ := h.ring
  obtain ⟨r',start',gap',hr,hd⟩ := hp.logDispatch hm (clean_min_zero _ _ _)
  obtain rfl : gap' = 0 := Nat.le_zero.mp hd.gap_le
  rw [readStep,hr] at hs
  cases hs
  exact ⟨h.pc,start',_,hd.pending,fun _ => hd.dirty⟩

/-- A flash that is left alone empties the ring, so the flag may be cleared. -/
theorem Quiet.flash {s t : ReadSys n} (h : Quiet s) (hle : s.ring.tail ≤ s.ring.head) {writer : Bool}
    (hs : readStep s (.flash writer) = some t) : Finishing t := by
  obtain ⟨start,ms,hp,_⟩ := h.ring
  have hroom := hp.room
  have hn := n.val_le
  obtain ⟨r',hr,hd,_⟩ := hp.of_u32.logFlash (by
    rw [hp.tail_eq,hp.head_eq] at hle
    simp only [u32] at hle ⊢
    omega) writer
  obtain ⟨t',ht',ev,fr,_,hto⟩ := flashes_logFlash h.pc hr
  obtain rfl : t = t' := Option.some.inj (hs.symm.trans ht')
  exact ⟨_,hto,rfl,_,[],hd.pending,fun hne => absurd rfl hne⟩

theorem Finishing.step {s t : ReadSys n} {label : ReadLabel} (h : Finishing s) (hG : Calm s label)
    (hs : readStep s label = some t) : Finishing t := by
  cases label with
  | dispatch m =>
    by_cases hm : m.Accepted
    · exact ((h.quiet (hG hm)).dispatch hm hs).finishing
    · rw [readStep,logDispatch_rejected _ hm,if_neg hm] at hs
      cases hs
      exact h
  | flash writer =>
    have hpc : s.reader.pc = .idle := by
      rw [readStep] at hs
      by_contra hne
      rw [if_neg hne] at hs
      cases hs
    exact (h.quiet hpc).flash hG hs
  | access =>
    obtain ⟨u,hto,hu⟩ := h
    exact ⟨u,Repeats.next hto hs (readStep_idle hu.pc),hu⟩

theorem quiet_boot {r : LogRing n} (hr : Boot r) : Quiet (ReadSys.boot r) where
  pc := rfl
  ring := ⟨0,[],hr.pending,fun hne => absurd rfl hne⟩

/-- In every run whose flashes are left alone, a pending record is announced whenever no
flash is on its way. -/
theorem calm_announced {r : LogRing n} (hr : Boot r) {labels : List ReadLabel} {s : ReadSys n}
    (hG : Meets readStep Calm (ReadSys.boot r) labels)
    (hs : exec readStep (ReadSys.boot r) labels = some s) : Announced s := by
  have hfin : Finishing s := Machine.invariant readStep (fun _ _ _ h hG hs => Finishing.step h hG hs)
    (quiet_boot hr).finishing hG hs
  intro hpc
  exact (hfin.quiet hpc).announced hpc

/-- A message is dispatched behind the first access of a flash that has another to deliver. -/
def overtakenFlash : List ReadLabel :=
  [.dispatch greeting,.flash true,.dispatch greeting] ++ List.replicate 26 .access

theorem calm_announced_once : ∃ s,
    exec readStep (ReadSys.boot (initialRing bufSize512))
      ([.dispatch greeting,.flash true] ++ List.replicate 26 .access ++ [.dispatch greeting]) = some s ∧
    Announced s := by
  obtain ⟨s,hs⟩ := Option.isSome_iff_exists.mp (show (exec readStep (ReadSys.boot (initialRing bufSize512))
    ([.dispatch greeting,.flash true] ++ List.replicate 26 .access ++ [.dispatch greeting])).isSome by decide)
  exact ⟨s,hs,calm_announced (boot_initialRing _) (by decide) hs⟩

theorem overtaken_not_announced : ∃ s,
    exec readStep (ReadSys.boot (initialRing bufSize512)) overtakenFlash = some s ∧ ¬Announced s := by
  have hrun : (exec readStep (ReadSys.boot (initialRing bufSize512)) overtakenFlash).map (fun s =>
      (s.reader.pc,s.ring.dirty,s.ring.head,s.ring.tail,get s.ring.data 16 16)) =
      some (.idle,false,32,16,greeting.sealed) := by decide
  have hmsg : (exec readStep (ReadSys.boot (initialRing bufSize512)) overtakenFlash).map
      ReadSys.dispatched = some [greeting,greeting] := rfl
  obtain ⟨s,hs,hrun⟩ := Option.map_eq_some_iff.mp hrun
  rw [hs] at hmsg
  simp only [Prod.mk.injEq,Option.map_some,Option.some.injEq] at hrun hmsg
  obtain ⟨hpc,hdirty,hhead,htail,hget⟩ := hrun
  refine ⟨s,hs,fun h => ?_⟩
  have hrec : HasRecord s := by
    refine ⟨0,greeting,by simp [hmsg],by rw [hhead,htail]; decide,?_⟩
    rw [htail]
    exact holds_of_get hget (by decide)
  have := h hpc hrec
  rw [logIsDirty,hdirty] at this
  cases this

end EmbedTemplate.Logging
