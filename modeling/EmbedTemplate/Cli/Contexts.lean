import EmbedTemplate.Cli.Bindings
import EmbedTemplate.Library.Occurrences
import Mathlib.Data.List.Find

/-! # Commands of application contexts

Bindings with an application context may share a name. They are chained in the order of their
registration, and the lookup of the name chooses the one that the current application context lists.
`resolve` is this choice over the list of the bindings alone.
-/
namespace EmbedTemplate.Cli.Bindings
open Bytes LinearProbe ProbedIndex

section Listed

/-- The array and the map hold the bindings in their order, but for the contexts. -/
structure Listed (s : State) (all : List Binding) : Prop where
  count : s.bindingsCount = all.length
  name : ∀ i b, all[i]? = some b → (s.bindings i).name = b.name
  flags : ∀ i b, all[i]? = some b → (s.bindings i).flags = b.flags
  inuse : ∀ idx < bindingMapSize, isInUse s.inuseBindings idx = (slots (all.map Binding.name) idx).isSome
  map : ∀ idx < bindingMapSize, ∀ k, slots (all.map Binding.name) idx = some k → s.bindingMap idx = k.2

/-- A binding with an application context. -/
def Binding.inContexts (b : Binding) : Bool := isFlagSet b.flags bindingFlagAppContext

def Binding.wide (b : Binding) : Bool := isFlagSet b.flags bindingFlagWide

/-- Bindings that share a name all have an application context. -/
def Unambiguous (all : List Binding) : Prop :=
  ∀ (i j : ℕ) (b c : Binding), all[i]? = some b → all[j]? = some c → b.name = c.name → i ≠ j → b.inContexts = true

/-- The context of a binding with an application context is the next one under its name. -/
structure Linked (s : State) (all : List Binding) : Prop extends Listed s all where
  chain : ∀ i b, all[i]? = some b → b.inContexts = true →
    (s.bindings i).context = Occurrences.next (all.map Binding.name) i

variable {s t : State} {all : List Binding} {b : Binding}

theorem Unambiguous.initial {later : List Binding} (h : Unambiguous (all ++ later)) : Unambiguous all := by
  intro i j b c hi hj hname hne
  have hil : i < all.length := (List.getElem?_eq_some_iff.mp hi).1
  have hjl : j < all.length := (List.getElem?_eq_some_iff.mp hj).1
  exact h i j b c (by rwa [List.getElem?_append_left hil]) (by rwa [List.getElem?_append_left hjl]) hname hne

theorem Listed.inContexts (h : Listed s all) {i : ℕ} (hb : all[i]? = some b) :
    isFlagSet (s.bindings i).flags bindingFlagAppContext = b.inContexts := by
  rw [h.flags i b hb]
  rfl

end Listed

section Step
variable {s t : State} {all : List Binding} {b : Binding}

/-- The first binding of a name, as `embeddedCliAddBinding` looks for it. -/
def firstDuplicate (s : State) (name : List UInt8) : Option ℕ :=
  (List.range s.bindingsCount).find? fun i => (s.bindings i).name = name

/-- The array with a binding linked behind another one. -/
def linked (s : State) (first : ℕ) : ℕ → Binding :=
  let last := (lastDuplicate s.bindings s.bindingsCount first 0).1
  Function.update s.bindings last { s.bindings last with context := some s.bindingsCount }

theorem linkDuplicate_cases (h : linkDuplicate s b = some t) : b.context = none ∧
    (firstDuplicate s b.name = none ∧ t = s ∨
      ∃ first, firstDuplicate s b.name = some first ∧ t = { s with bindings := linked s first }) := by
  by_cases hcontext : b.context = none
  · refine ⟨hcontext,?_⟩
    unfold firstDuplicate
    cases hfirst : (List.range s.bindingsCount).find? fun i => (s.bindings i).name = b.name with
    | none =>
      simp only [linkDuplicate,hcontext,hfirst] at h
      exact .inl ⟨rfl,by simp_all⟩
    | some first =>
      simp only [linkDuplicate,hcontext,hfirst] at h
      refine .inr ⟨first,rfl,?_⟩
      by_cases hwide : (lastDuplicate s.bindings s.bindingsCount first 0).2 < 2
      · simp only [hwide] at h
        simp_all [linked]
      · simp [hwide] at h
  · simp [linkDuplicate,hcontext] at h

theorem countWide_cases (h : countWide s b = some t) :
    t = { s with wideBindingsCount := s.wideBindingsCount + if b.wide then 1 else 0 } := by
  unfold countWide at h
  unfold Binding.wide
  split at h
  case isTrue hwide =>
    rw [if_pos hwide]
    split at h
    · exact (Option.some_inj.mp h).symm
    · cases h
  case isFalse hwide =>
    rw [if_neg hwide]
    exact (Option.some_inj.mp h).symm

/-- A call that does not find the array full. -/
theorem addBinding_cases (h : embeddedCliAddBinding s b = some t)
    (hroom : s.bindingsCount < s.maxBindingsCount - cliInternalBindingCount) :
    ∃ bindings u,
      (bindings = s.bindings ∧ (b.inContexts = true → b.context = none ∧ firstDuplicate s b.name = none) ∨
        ∃ first, b.inContexts = true ∧ b.context = none ∧ firstDuplicate s b.name = some first ∧
          bindings = linked s first) ∧
      registerBindingIndex { s with
        wideBindingsCount := s.wideBindingsCount + if b.wide then 1 else 0
        bindings := Function.update bindings s.bindingsCount b } b.name s.bindingsCount = some u ∧
      t = { u with bindingsCount := u.bindingsCount + 1 } := by
  unfold embeddedCliAddBinding at h
  rw [if_neg (Nat.not_le.mpr hroom)] at h
  obtain ⟨v,hv,h⟩ := Option.bind_eq_some_iff.mp h
  obtain ⟨w,hw,h⟩ := Option.bind_eq_some_iff.mp h
  obtain ⟨u,hu,rfl⟩ := Option.map_eq_some_iff.mp h
  obtain rfl := countWide_cases hw
  split at hv
  case isTrue hin =>
    obtain ⟨hcontext,⟨hnone,rfl⟩ | ⟨first,hfirst,rfl⟩⟩ := linkDuplicate_cases hv
    · exact ⟨v.bindings,u,.inl ⟨rfl,fun _ => ⟨hcontext,hnone⟩⟩,hu,rfl⟩
    · exact ⟨_,u,.inr ⟨first,hin,hcontext,hfirst,rfl⟩,hu,rfl⟩
  case isFalse hout =>
    obtain rfl := Option.some_inj.mp hv
    exact ⟨s.bindings,u,.inl ⟨rfl,fun hin => absurd hin hout⟩,hu,rfl⟩

theorem linked_name (first i : ℕ) : (linked s first i).name = (s.bindings i).name := by
  unfold linked
  rw [Function.update_apply]
  split
  · rw [‹i = _›]
  · rfl

theorem linked_flags (first i : ℕ) : (linked s first i).flags = (s.bindings i).flags := by
  unfold linked
  rw [Function.update_apply]
  split
  · rw [‹i = _›]
  · rfl

theorem firstDuplicate_eq_some {name : List UInt8} {first : ℕ} : firstDuplicate s name = some first ↔
    first < s.bindingsCount ∧ (s.bindings first).name = name ∧ ∀ i < first, (s.bindings i).name ≠ name := by
  unfold firstDuplicate
  rw [List.find?_range_eq_some]
  simp only [List.mem_range,decide_eq_true_eq,Bool.not_eq_true',decide_eq_false_iff_not]
  tauto

theorem firstDuplicate_eq_none {name : List UInt8} :
    firstDuplicate s name = none ↔ ∀ i < s.bindingsCount, (s.bindings i).name ≠ name := by
  unfold firstDuplicate
  rw [List.find?_eq_none]
  simp only [List.mem_range,decide_eq_true_eq]

/-- The walk to the end of a chain stops at the last binding of the name. -/
theorem lastDuplicate_spec {names : List (List UInt8)} {name : List UInt8}
    (hchain : ∀ i, names[i]? = some name → (s.bindings i).context = Occurrences.next names i) {fuel i : ℕ}
    (hi : names[i]? = some name) (hfuel : names.length ≤ i + fuel) (wide : ℕ) :
    ∃ last, (lastDuplicate s.bindings fuel i wide).1 = last ∧ names[last]? = some name ∧
      Occurrences.next names last = none := by
  induction fuel generalizing i wide with
  | zero => exact absurd (List.getElem?_eq_some_iff.mp hi).1 (by omega)
  | succ fuel ih =>
    cases hnext : Occurrences.next names i with
    | none => exact ⟨i,by rw [lastDuplicate,hchain i hi,hnext],hi,hnext⟩
    | some j =>
      obtain ⟨-,⟨hlt,hsame⟩,-⟩ := Occurrences.next_eq_some.mp hnext
      have hstep : ∀ w, (lastDuplicate s.bindings (fuel + 1) i w).1 = (lastDuplicate s.bindings fuel j
          (if isFlagSet (s.bindings i).flags bindingFlagWide then w + 1 else w)).1 := by
        intro w
        rw [lastDuplicate,hchain i hi,hnext]
      rw [hstep]
      exact ih (hsame.trans hi) (by omega) _

/-- What a registration that succeeds leaves. -/
theorem Listed.register (h : Listed s all) (hlen : all.length < maxBindings) {bindings : ℕ → Binding} {wide : ℕ}
    {u : State} (hname : ∀ i, (bindings i).name = (s.bindings i).name)
    (hflags : ∀ i, (bindings i).flags = (s.bindings i).flags)
    (hu : registerBindingIndex { s with
      wideBindingsCount := wide
      bindings := Function.update bindings s.bindingsCount b } b.name s.bindingsCount = some u) :
    Listed { u with bindingsCount := u.bindingsCount + 1 } (all ++ [b]) ∧
      u.bindings = Function.update bindings all.length b ∧ u.maxBindingsCount = s.maxBindingsCount ∧
      u.wideBindingsCount = wide := by
  obtain ⟨map,inuse,hreg,hinuse,hmap⟩ := @register_slots
    { s with wideBindingsCount := wide, bindings := Function.update bindings s.bindingsCount b }
    (all.map Binding.name) h.inuse h.map b.name (by rwa [List.length_map])
  rw [List.length_map,← h.count,hu] at hreg
  obtain rfl := Option.some_inj.mp hreg
  have hold : ∀ i c, (all ++ [b])[i]? = some c →
      i < all.length ∧ all[i]? = some c ∨ i = all.length ∧ c = b := by
    intro i c hi
    rcases Nat.lt_trichotomy i all.length with hlt | rfl | hgt
    · rw [List.getElem?_append_left hlt] at hi
      exact .inl ⟨hlt,hi⟩
    · rw [List.getElem?_append_right le_rfl,Nat.sub_self] at hi
      exact .inr ⟨rfl,(Option.some_inj.mp hi).symm⟩
    · rw [List.getElem?_eq_none (by rw [List.length_append,List.length_singleton]; omega)] at hi
      cases hi
  refine ⟨⟨?_,fun i c hi => ?_,fun i c hi => ?_,?_,?_⟩,?_,rfl,rfl⟩
  · rw [h.count,List.length_append,List.length_singleton]
  · show (Function.update bindings s.bindingsCount b i).name = c.name
    rw [h.count]
    rcases hold i c hi with ⟨hlt,hi⟩ | ⟨rfl,rfl⟩
    · rw [Function.update_of_ne hlt.ne,hname]
      exact h.name i c hi
    · rw [Function.update_self]
  · show (Function.update bindings s.bindingsCount b i).flags = c.flags
    rw [h.count]
    rcases hold i c hi with ⟨hlt,hi⟩ | ⟨rfl,rfl⟩
    · rw [Function.update_of_ne hlt.ne,hflags]
      exact h.flags i c hi
    · rw [Function.update_self]
  · rwa [List.map_append,List.map_singleton]
  · rwa [List.map_append,List.map_singleton]
  · rw [h.count]

theorem Listed.add (h : Listed s all) (hlen : all.length < maxBindings)
    (hroom : s.bindingsCount < s.maxBindingsCount - cliInternalBindingCount)
    (hadd : embeddedCliAddBinding s b = some t) :
    Listed t (all ++ [b]) ∧ t.maxBindingsCount = s.maxBindingsCount ∧
      t.wideBindingsCount = s.wideBindingsCount + if b.wide then 1 else 0 := by
  obtain ⟨bindings,u,hcase,hu,rfl⟩ := addBinding_cases hadd hroom
  have hsame : ∀ i, (bindings i).name = (s.bindings i).name ∧ (bindings i).flags = (s.bindings i).flags := by
    intro i
    rcases hcase with ⟨rfl,-⟩ | ⟨first,-,-,-,rfl⟩
    · exact ⟨rfl,rfl⟩
    · exact ⟨linked_name first i,linked_flags first i⟩
  obtain ⟨hlisted,-,hmax,hwide⟩ := h.register hlen (fun i => (hsame i).1) (fun i => (hsame i).2) hu
  exact ⟨hlisted,hmax,hwide⟩

theorem getElem?_names (i : ℕ) : (all.map Binding.name)[i]? = (all[i]?).map Binding.name := List.getElem?_map ..

/-- A binding that shares its name with a new one has an application context. -/
theorem Unambiguous.shares (h : Unambiguous (all ++ [b])) {i : ℕ} {c : Binding} (hi : all[i]? = some c)
    (hname : c.name = b.name) : c.inContexts = true ∧ b.inContexts = true := by
  have hlt : i < all.length := (List.getElem?_eq_some_iff.mp hi).1
  have hold : (all ++ [b])[i]? = some c := by rwa [List.getElem?_append_left hlt]
  have hnew : (all ++ [b])[all.length]? = some b := by simp
  exact ⟨h i all.length c b hold hnew hname hlt.ne,h all.length i b c hnew hold hname.symm hlt.ne'⟩

/-- The last binding of a name that is linked to a new one. -/
theorem Linked.last (h : Linked s all) (hsame : Unambiguous (all ++ [b])) {first : ℕ}
    (hfirst : firstDuplicate s b.name = some first) :
    ∃ last, (lastDuplicate s.bindings s.bindingsCount first 0).1 = last ∧
      (all.map Binding.name)[last]? = some b.name ∧ Occurrences.next (all.map Binding.name) last = none := by
  obtain ⟨hlt,hname,-⟩ := firstDuplicate_eq_some.mp hfirst
  rw [h.count] at hlt
  apply lastDuplicate_spec
  · intro i hi
    rw [getElem?_names] at hi
    obtain ⟨c,hc,hcname⟩ := Option.map_eq_some_iff.mp hi
    exact h.chain i c hc (hsame.shares hc hcname).1
  · rw [getElem?_names,List.getElem?_eq_getElem hlt,Option.map_some,
      ← h.name first _ (List.getElem?_eq_getElem hlt),hname]
  · rw [List.length_map,h.count]
    omega

theorem Linked.context_linked (h : Linked s all) (hsame : Unambiguous (all ++ [b])) {first i : ℕ} {c : Binding}
    (hfirst : firstDuplicate s b.name = some first) (hi : all[i]? = some c) (hin : c.inContexts = true) :
    (linked s first i).context = Occurrences.next (all.map Binding.name ++ [b.name]) i := by
  have hlt : i < all.length := (List.getElem?_eq_some_iff.mp hi).1
  obtain ⟨last,hlast,hname,hnext⟩ := h.last hsame hfirst
  have hlastlt := (List.getElem?_eq_some_iff.mp hname).1
  rw [Occurrences.next_snoc (by rwa [List.length_map]),List.length_map]
  unfold linked
  rw [hlast,Function.update_apply,h.count]
  by_cases hat : i = last
  · rw [if_pos hat,if_pos ⟨hat ▸ hnext,hat ▸ hname⟩]
  · rw [if_neg hat,if_neg,h.chain i c hi hin]
    rintro ⟨hnone,hkey⟩
    exact hat (Occurrences.last_unique hnone hnext (by rwa [List.length_map]) hlastlt (hkey.trans hname.symm))

theorem Linked.context_unlinked (h : Linked s all) (hsame : Unambiguous (all ++ [b])) {i : ℕ} {c : Binding}
    (hnone : b.inContexts = true → firstDuplicate s b.name = none) (hi : all[i]? = some c) (hin : c.inContexts = true) :
    (s.bindings i).context = Occurrences.next (all.map Binding.name ++ [b.name]) i := by
  have hlt : i < all.length := (List.getElem?_eq_some_iff.mp hi).1
  rw [Occurrences.next_snoc (by rwa [List.length_map]),if_neg,h.chain i c hi hin]
  rintro ⟨-,hkey⟩
  rw [getElem?_names,hi,Option.map_some,Option.some_inj] at hkey
  have hfree := firstDuplicate_eq_none.mp (hnone (hsame.shares hi hkey).2) i (by rwa [h.count])
  exact hfree ((h.name i c hi).trans hkey)

theorem Linked.add (h : Linked s all) (hsame : Unambiguous (all ++ [b])) (hlen : all.length < maxBindings)
    (hroom : s.bindingsCount < s.maxBindingsCount - cliInternalBindingCount)
    (hadd : embeddedCliAddBinding s b = some t) : Linked t (all ++ [b]) := by
  refine ⟨(h.toListed.add hlen hroom hadd).1,fun i c hi hin => ?_⟩
  obtain ⟨bindings,u,hcase,hu,rfl⟩ := addBinding_cases hadd hroom
  have hbindings : u.bindings = Function.update bindings all.length b := by
    have hkept : ∀ i, (bindings i).name = (s.bindings i).name ∧ (bindings i).flags = (s.bindings i).flags := by
      intro i
      rcases hcase with ⟨rfl,-⟩ | ⟨first,-,-,-,rfl⟩
      · exact ⟨rfl,rfl⟩
      · exact ⟨linked_name first i,linked_flags first i⟩
    exact (h.toListed.register hlen (fun i => (hkept i).1) (fun i => (hkept i).2) hu).2.1
  show (u.bindings i).context = _
  rw [hbindings,List.map_append,List.map_singleton]
  rcases Nat.lt_or_ge i all.length with hlt | hge
  · rw [List.getElem?_append_left hlt] at hi
    rw [Function.update_of_ne hlt.ne]
    rcases hcase with ⟨rfl,hnone⟩ | ⟨first,-,-,hfirst,rfl⟩
    · exact h.context_unlinked hsame (fun hin => (hnone hin).2) hi hin
    · exact h.context_linked hsame hfirst hi hin
  · have hlast : i = all.length := by
      have hle := (List.getElem?_eq_some_iff.mp hi).1
      rw [List.length_append,List.length_singleton] at hle
      omega
    rw [hlast,List.getElem?_append_right le_rfl,Nat.sub_self] at hi
    obtain rfl := Option.some_inj.mp hi
    rw [hlast,Function.update_self,Occurrences.next_of_le (by simp)]
    rcases hcase with ⟨-,hnone⟩ | ⟨first,-,hcontext,-,-⟩
    · exact (hnone hin).1
    · exact hcontext

end Step

section Runs
variable {m : ℕ} {s t : State} {done bs : List Binding} {b : Binding}

/-- What holds after some calls that the assertions let pass: the bindings that fit are there. -/
structure Holds (m : ℕ) (done : List Binding) (s : State) : Prop where
  listed : Listed s (done.take m)
  limit : s.maxBindingsCount = m + cliInternalBindingCount
  linked : Unambiguous (done.take m) → Linked s (done.take m)

theorem Holds.room (h : Holds m done s) (hlt : done.length < m) :
    Listed s done ∧ s.bindingsCount < s.maxBindingsCount - cliInternalBindingCount := by
  have hlisted := h.listed
  rw [List.take_of_length_le hlt.le] at hlisted
  exact ⟨hlisted,by rwa [h.limit,Nat.add_sub_cancel,hlisted.count]⟩

theorem Holds.full (h : Holds m done s) (hge : m ≤ done.length) (hadd : embeddedCliAddBinding s b = some t) : t = s := by
  have hfull : s.bindingsCount ≥ s.maxBindingsCount - cliInternalBindingCount := by
    rw [h.limit,Nat.add_sub_cancel,h.listed.count,List.length_take]
    omega
  unfold embeddedCliAddBinding at hadd
  rw [if_pos hfull] at hadd
  exact (Option.some_inj.mp hadd).symm

theorem take_snoc_lt (hlt : done.length < m) : (done ++ [b]).take m = done ++ [b] :=
  List.take_of_length_le (by rw [List.length_append,List.length_singleton]; exact hlt)

theorem Holds.add (h : Holds m done s) (hm : m ≤ maxBindings) (hadd : embeddedCliAddBinding s b = some t) :
    Holds m (done ++ [b]) t := by
  rcases Nat.lt_or_ge done.length m with hlt | hge
  · obtain ⟨hlisted,hroom⟩ := h.room hlt
    have hlen : done.length < maxBindings := Nat.lt_of_lt_of_le hlt hm
    obtain ⟨hnew,hmax,-⟩ := hlisted.add hlen hroom hadd
    refine ⟨by rwa [take_snoc_lt hlt],hmax.trans h.limit,fun hsame => ?_⟩
    rw [take_snoc_lt hlt] at hsame ⊢
    have hlinked := h.linked
    rw [List.take_of_length_le hlt.le] at hlinked
    exact (hlinked hsame.initial).add hsame hlen hroom hadd
  · have hnext : (done ++ [b]).take m = done.take m := List.take_append_of_le_length hge
    obtain rfl := h.full hge hadd
    exact ⟨by rw [hnext]; exact h.listed,h.limit,by rw [hnext]; exact h.linked⟩

theorem Holds.exec (h : Holds m done s) (hm : m ≤ maxBindings)
    (hexec : Machine.exec embeddedCliAddBinding s bs = some t) : Holds m (done ++ bs) t := by
  induction bs generalizing done s with
  | nil =>
    obtain rfl := Option.some_inj.mp hexec
    rwa [List.append_nil]
  | cons b bs ih =>
    rw [Machine.exec_cons] at hexec
    obtain ⟨u,hu,hexec⟩ := Option.bind_eq_some_iff.mp hexec
    rw [List.append_cons]
    exact ih (h.add hm hu) hexec

theorem holds_new (bindings : ℕ → Binding) (hm : m ≤ maxBindings) :
    Holds m [] ⟨bindings,0,u16 (m + cliInternalBindingCount),fun _ => 0,fun _ => 0,0⟩ := by
  have hlisted : Listed ⟨bindings,0,u16 (m + cliInternalBindingCount),fun _ => 0,fun _ => 0,0⟩ [] := by
    refine ⟨rfl,by simp,by simp,fun idx _ => ?_,fun idx _ k hk => ?_⟩
    · simp [isInUse,slots,table]
    · simp [slots,table] at hk
  refine ⟨by rwa [List.take_nil],?_,fun _ => ?_⟩
  · exact Nat.mod_eq_of_lt (Nat.lt_of_le_of_lt (Nat.add_le_add_right hm _) (by decide))
  · rw [List.take_nil]
    exact ⟨hlisted,by simp⟩

theorem holds_run {bindings : ℕ → Binding} (hm : m ≤ maxBindings) (hrun : run bindings m bs = some s) :
    Holds m (help :: bs) s := by
  unfold run embeddedCliNew at hrun
  rw [if_neg (Nat.not_lt.mpr hm)] at hrun
  exact (holds_new bindings hm).exec hm hrun

end Runs

section First
variable {s : State} {all : List Binding} {b c : Binding} {cmdName : List UInt8} {i first : ℕ} {ρ : Type*}
  {stop : ℕ → Option ρ} {free : ρ} {found : ℕ → ρ}

/-- The binding of a name that was registered first. -/
theorem find_zipIdx_eq_some
    (h : (all.zipIdx.find? fun b => b.1.name = cmdName) = some (b,first)) :
    ∃ before after, all = before ++ b :: after ∧ before.length = first ∧ b.name = cmdName ∧
      cmdName ∉ before.map Binding.name := by
  obtain ⟨hname,before,after,hsplit,hbefore⟩ := List.find?_eq_some_iff_append.mp h
  have hall := congrArg (List.map Prod.fst) hsplit
  rw [List.zipIdx_map_fst,List.map_append,List.map_cons] at hall
  have hlen : before.length = first := by
    have hget : all.zipIdx[before.length]? = some (b,first) := by
      rw [hsplit,List.getElem?_append_right le_rfl,Nat.sub_self,List.getElem?_cons_zero]
    rw [List.getElem?_zipIdx] at hget
    obtain ⟨c,-,hc⟩ := Option.map_eq_some_iff.mp hget
    simpa using congrArg Prod.snd hc
  refine ⟨before.map Prod.fst,after.map Prod.fst,hall,by rwa [List.length_map],of_decide_eq_true hname,fun hmem => ?_⟩
  rw [List.map_map] at hmem
  obtain ⟨c,hc,hcname⟩ := List.mem_map.mp hmem
  simpa [← hcname] using hbefore c hc

theorem find_zipIdx_eq_none
    (h : (all.zipIdx.find? fun b => b.1.name = cmdName) = none) : cmdName ∉ all.map Binding.name := by
  intro hmem
  obtain ⟨b,hb,hname⟩ := List.mem_map.mp hmem
  obtain ⟨i,hi⟩ := List.getElem?_of_mem hb
  have hnone := List.find?_eq_none.mp h (b,i) (List.mk_mem_zipIdx_iff_getElem?.mpr hi)
  exact hnone (decide_eq_true hname)

theorem find_zipIdx_of_getElem? (hc : all[i]? = some c) :
    ∃ b first, (all.zipIdx.find? fun b => b.1.name = c.name) = some (b,first) := by
  cases hfind : all.zipIdx.find? fun b => b.1.name = c.name with
  | none => exact absurd (List.mem_map_of_mem (List.mem_of_getElem? hc)) (find_zipIdx_eq_none hfind)
  | some found => exact ⟨found.1,found.2,rfl⟩

/-- What the binding of a name that was registered first is. -/
theorem find_zipIdx_first
    (h : (all.zipIdx.find? fun b => b.1.name = cmdName) = some (b,first)) :
    all[first]? = some b ∧ b.name = cmdName ∧ ∀ i c, all[i]? = some c → c.name = cmdName → first ≤ i := by
  obtain ⟨before,after,rfl,rfl,hname,hnew⟩ := find_zipIdx_eq_some h
  refine ⟨by rw [List.getElem?_append_right le_rfl,Nat.sub_self,List.getElem?_cons_zero],hname,fun i c hc hcname => ?_⟩
  by_contra hlt
  rw [List.getElem?_append_left (Nat.lt_of_not_le hlt)] at hc
  exact hnew (List.mem_map.mpr ⟨c,List.mem_of_getElem? hc,hcname⟩)

/-- Every name is near enough to its home when it is registered first. -/
def NearEnough (all : List Binding) : Prop :=
  ∀ before b after, all = before ++ b :: after → b.name ∉ before.map Binding.name →
    WithinLimit (before.map Binding.name) b.name

/-- Up to 32 bindings leave each other room. -/
theorem nearEnough_of_length (hlen : all.length ≤ 32) : NearEnough all := by
  rintro before b after rfl -
  rw [List.length_append,List.length_cons] at hlen
  have hbefore : (before.map Binding.name).length < 32 := by
    rw [List.length_map]
    omega
  have hroom : (before.map Binding.name ++ [b.name]).length ≤ maxBindings := by
    rw [List.length_append,List.length_singleton]
    exact Nat.le_trans hbefore (by decide)
  obtain ⟨d,hd,hat⟩ := @ProbedIndex.exists_near _ bindingMapSize home _ [] b.name home_lt (Nat.lt_trans hbefore (by decide))
  exact (slots_near_iff hroom).mp ⟨d,Nat.lt_of_le_of_lt hd hbefore,hat⟩

/-- A search for a name gives the binding of the name that was registered first. -/
theorem probe_eq (h : Searches bindingMapSize home (all.map Binding.name) cmdName stop free found)
    (hnear : NearEnough all) (hroom : all.length ≤ maxBindings) :
    (probe bindingMapSize stop 32 (home cmdName)).getD free =
      (all.zipIdx.find? fun b => b.1.name = cmdName).elim free fun b => found b.2 := by
  have hlen : (all.map Binding.name).length ≤ maxBindings := by rwa [List.length_map]
  cases hfind : all.zipIdx.find? fun b => b.1.name = cmdName with
  | none => exact h.absent home_lt (Nat.le_trans hlen (by decide)) (find_zipIdx_eq_none hfind) 32
  | some b =>
    obtain ⟨before,after,hsplit,hat,hname,hnew⟩ := find_zipIdx_eq_some hfind
    have hnames : all.map Binding.name = before.map Binding.name ++ cmdName :: after.map Binding.name := by
      rw [hsplit,List.map_append,List.map_cons,hname]
    rw [hnames] at h hlen
    have hnear := (slots_near_iff hlen).mpr (hname ▸ hnear before b.1 after hsplit (hname ▸ hnew))
    rw [h.first home_lt (Nat.le_trans hlen (by decide)) hnew hnear,List.length_map,hat]
    rfl

end First

section Resolve

/-- Only the first 16 entries of a context can be disabled. -/
def AppContext.enabled (ctx : AppContext) (i : ℕ) : Bool := 16 ≤ i || ctx.stride.testBit i

/-- The indices of the enabled entries. -/
def AppContext.entries (ctx : AppContext) : List ℕ :=
  ((List.range ctx.count).filter ctx.enabled).map fun i => (ctx.base i).toNat

/-- A context that lists registered bindings, at most as many as there are bits to shift through. -/
structure AppContext.Lists (ctx : AppContext) (bindingsCount : ℕ) : Prop where
  nonempty : 0 < ctx.count
  few : ctx.count ≤ 31
  registered : ∀ i < ctx.count, (ctx.base i).toNat < bindingsCount

instance (ctx : AppContext) (bindingsCount : ℕ) : Decidable (ctx.Lists bindingsCount) :=
  decidable_of_iff (0 < ctx.count ∧ ctx.count ≤ 31 ∧ ∀ i < ctx.count, (ctx.base i).toNat < bindingsCount)
    ⟨fun h => ⟨h.1,h.2.1,h.2.2⟩,fun h => ⟨h.nonempty,h.few,h.registered⟩⟩

/-- The binding that a name means in a context: its only one, or the one that the context lists first,
or else the one registered first if it is wide. -/
def resolve (all : List Binding) (ctx : AppContext) (cmdName : List UInt8) : BindingIndex :=
  match all.zipIdx.find? fun b => b.1.name = cmdName with
  | none => .noMatch
  | some (b,first) =>
    if b.inContexts then
      match ctx.entries.find? fun i => (all[i]?).any fun c => c.name = cmdName with
      | some i => .index i
      | none => if b.wide then .index first else .noMatch
    else .index first

variable {s : State} {all : List Binding} {b : Binding} {ctx : AppContext} {cmdName : List UInt8} {first : ℕ}

theorem enabled_eq (ctx : AppContext) (i : ℕ) : (!(2 ^ 16 - 1 - u16 ctx.stride).testBit i) = ctx.enabled i := by
  have hlt : u16 ctx.stride < 2 ^ 16 := Nat.mod_lt _ (by decide)
  have hbit := Nat.testBit_two_pow_sub_succ hlt i
  have hmod : (u16 ctx.stride).testBit i = (decide (i < 16) && ctx.stride.testBit i) := Nat.testBit_mod_two_pow ..
  rw [show 2 ^ 16 - 1 - u16 ctx.stride = 2 ^ 16 - (u16 ctx.stride + 1) by omega,hbit,hmod]
  unfold AppContext.enabled
  by_cases hi : i < 16
  · simp [hi,Nat.not_le.mpr hi]
  · simp [hi,Nat.not_lt.mp hi]

/-- The entry that `selectInContext` looks for. -/
theorem candidate_eq (h : Listed s all) (hentries : ∀ i < ctx.count, (ctx.base i).toNat < s.bindingsCount)
    (hname : (s.bindings first).name = cmdName) :
    ((List.range ctx.count).find? fun i => !(2 ^ 16 - 1 - u16 ctx.stride).testBit i &&
      (s.bindings (ctx.base i).toNat).name == (s.bindings first).name).map (fun i => (ctx.base i).toNat) =
      ctx.entries.find? fun i => (all[i]?).any fun c => c.name = cmdName := by
  unfold AppContext.entries
  rw [List.find?_map,List.find?_filter]
  refine congrArg _ (List.find?_congr fun i hi => ?_)
  have hlt := hentries i (List.mem_range.mp hi)
  rw [h.count] at hlt
  have hget := List.getElem?_eq_getElem hlt
  rw [enabled_eq,h.name _ _ hget,hname]
  by_cases hsame : all[(ctx.base i).toNat].name = cmdName <;> simp [hget,hsame]

/-- The walk through a chain reaches every later binding of the name. -/
theorem walkDuplicates_spec {names : List (List UInt8)}
    (hchain : ∀ i, names[i]? = some cmdName → (s.bindings i).context = Occurrences.next names i) {fuel start bid : ℕ}
    (hstart : names[start]? = some cmdName) (hbid : names[bid]? = some cmdName) (hle : start ≤ bid)
    (hfuel : bid < start + fuel) (fid : ℕ) : (walkDuplicates s.bindings bid fuel (some start) fid).1 = bid := by
  induction fuel generalizing start fid with
  | zero => omega
  | succ fuel ih =>
    rw [walkDuplicates]
    by_cases hat : start = bid
    · simp only [if_pos hat]
    · obtain ⟨next,hnext,hlt,hnextle,hsame⟩ := Occurrences.exists_next (Nat.lt_of_le_of_ne hle hat)
        (List.getElem?_eq_some_iff.mp hbid).1 (hbid.trans hstart.symm)
      simp only [if_neg hat,hchain start hstart,hnext]
      exact ih (hsame.trans hstart) hnextle (by omega) _

theorem Linked.chain_of (h : Linked s all) (hsame : Unambiguous all) (hb : all[first]? = some b)
    (hin : b.inContexts = true) (i : ℕ) (hi : (all.map Binding.name)[i]? = some b.name) :
    (s.bindings i).context = Occurrences.next (all.map Binding.name) i := by
  rw [getElem?_names] at hi
  obtain ⟨c,hc,hname⟩ := Option.map_eq_some_iff.mp hi
  apply h.chain i c hc
  by_cases hat : i = first
  · rw [hat,hb] at hc
    rwa [← Option.some_inj.mp hc]
  · exact hsame i first c b hc hb hname hat

/-- The choice among the bindings of one name, from the one that was registered first. -/
theorem Linked.select (h : Linked s all) (hsame : Unambiguous all) (hzero : ∀ c, all[0]? = some c → c.inContexts = false)
    (hctx : 0 < ctx.count) (hentries : ∀ i < ctx.count, (ctx.base i).toNat < s.bindingsCount)
    (hb : all[first]? = some b) (hin : b.inContexts = true)
    (hfirst : ∀ i c, all[i]? = some c → c.name = b.name → first ≤ i) :
    selectInContext s ctx first =
      match ctx.entries.find? fun i => (all[i]?).any fun c => c.name = b.name with
      | some i => .index i
      | none => if b.wide then .index first else .noMatch := by
  have hpos : first ≠ 0 := by
    rintro rfl
    rw [hzero b hb] at hin
    cases hin
  have hflags : isFlagSet (s.bindings first).flags bindingFlagWide = b.wide :=
    congrArg (isFlagSet · bindingFlagWide) (h.flags first b hb)
  unfold selectInContext
  dsimp only
  rw [if_neg hctx.ne',candidate_eq h.toListed hentries (h.name first b hb),hflags]
  cases hfind : ctx.entries.find? fun i => (all[i]?).any fun c => c.name = b.name with
  | none => cases b.wide <;> simp [hpos]
  | some bid =>
    have hany := List.find?_some hfind
    obtain ⟨c,hc,hname⟩ := (Option.any_eq_true _ _).mp hany
    have hname := of_decide_eq_true hname
    have hle := hfirst bid c hc hname
    have hbid : bid ≠ 0 := Nat.ne_of_gt (Nat.lt_of_lt_of_le (Nat.pos_of_ne_zero hpos) hle)
    by_cases hat : first = bid
    · simp [hat,hbid]
    · have hbidlt := (List.getElem?_eq_some_iff.mp hc).1
      have hfirstname : (all.map Binding.name)[first]? = some b.name := by rw [getElem?_names,hb,Option.map_some]
      have hbidname : (all.map Binding.name)[bid]? = some b.name := by rw [getElem?_names,hc,Option.map_some,hname]
      obtain ⟨next,hnext,hlt,hnextle,hnextname⟩ := Occurrences.exists_next (Nat.lt_of_le_of_ne hle hat)
        (by rwa [List.length_map]) (hbidname.trans hfirstname.symm)
      have hwalk : ∀ fid, (walkDuplicates s.bindings bid s.bindingsCount (some next) fid).1 = bid :=
        walkDuplicates_spec (h.chain_of hsame hb hin) (hnextname.trans hfirstname) hbidname hnextle
          (by rw [h.count]; omega)
      simp [hat,hbid,h.chain first b hb hin,hnext,hwalk]

theorem Listed.searches (h : Listed s all) (ctx : AppContext) (cmdName : List UInt8) :
    Searches bindingMapSize home (all.map Binding.name) cmdName (bindingAt s ctx cmdName) .noMatch fun i =>
      if isFlagSet (s.bindings i).flags bindingFlagAppContext then selectInContext s ctx i else .index i := by
  constructor
  · intro idx hidx (hfree : slots (all.map Binding.name) idx = none)
    unfold bindingAt
    rw [h.inuse idx hidx,hfree]
    rfl
  · intro idx hidx k (hk : slots (all.map Binding.name) idx = some k) hget
    rw [getElem?_names] at hget
    obtain ⟨b,hb,hname⟩ := Option.map_eq_some_iff.mp hget
    unfold bindingAt
    dsimp only
    rw [h.inuse idx hidx,hk,h.map idx hidx k hk,h.name k.2 b hb,hname]
    rfl

/-- Only the names of bindings are found. -/
theorem Listed.mem_of_find (h : Listed s all) (hroom : all.length ≤ maxBindings) {cmdName : List UInt8} {i : ℕ}
    (hfind : findBindingIndex s ctx cmdName = .index i) : cmdName ∈ all.map Binding.name := by
  have hlen : (all.map Binding.name).length ≤ bindingMapSize := by
    rw [List.length_map]
    exact Nat.le_trans hroom (by decide)
  by_contra habsent
  have hnone := (h.searches ctx cmdName).absent home_lt hlen habsent 32
  unfold findBindingIndex at hfind
  rw [hash_and_mask,hnone] at hfind
  cases hfind

theorem Linked.find_eq (h : Linked s all) (hsame : Unambiguous all) (hnear : NearEnough all)
    (hroom : all.length ≤ maxBindings) (hzero : ∀ c, all[0]? = some c → c.inContexts = false)
    (hctx : 0 < ctx.count) (hentries : ∀ i < ctx.count, (ctx.base i).toNat < s.bindingsCount) (cmdName : List UInt8) :
    findBindingIndex s ctx cmdName = resolve all ctx cmdName := by
  unfold findBindingIndex resolve
  rw [hash_and_mask,probe_eq (h.toListed.searches ctx cmdName) hnear hroom]
  cases hfind : all.zipIdx.find? fun b => b.1.name = cmdName with
  | none => rfl
  | some b =>
    obtain ⟨hb,rfl,hleast⟩ := find_zipIdx_first hfind
    show (if isFlagSet (s.bindings b.2).flags bindingFlagAppContext = true then selectInContext s ctx b.2
      else .index b.2) = if b.1.inContexts = true then _ else .index b.2
    rw [h.inContexts hb]
    by_cases hin : b.1.inContexts = true
    · rw [if_pos hin,if_pos hin]
      exact h.select hsame hzero hctx hentries hb hin hleast
    · rw [if_neg hin,if_neg hin]

end Resolve

section Duplicates
variable {s : State} {all : List Binding} {b : Binding} {ctx : AppContext} {cmdName : List UInt8} {i first : ℕ}

/-- One round of the inner loop of `embeddedCliCheckBindingDuplicates`, when it is the last one: whether a binding
counts as a duplicate. -/
def duplicateAt (s : State) (i idx : ℕ) : Option Bool :=
  if !isInUse s.inuseBindings idx then some false
  else
    let actualIdx := s.bindingMap idx
    if (s.bindings actualIdx).name = (s.bindings i).name then
      some (decide (actualIdx < i) && !(isFlagSet (s.bindings actualIdx).flags bindingFlagAppContext &&
        isFlagSet (s.bindings i).flags bindingFlagAppContext))
    else none

def embeddedCliCheckBindingDuplicates (s : State) : ℕ :=
  if s.bindingsCount < 2 then 0
  else (List.range s.bindingsCount).countP fun i =>
    (probe bindingMapSize (duplicateAt s i) 32 (cliHash (s.bindings i).name &&& bindingMapMask)).getD false

/-- A binding whose name was registered before, unless both have an application context. -/
def isDuplicate (all : List Binding) (i : ℕ) : Bool :=
  match all[i]? with
  | none => false
  | some c =>
    match all.zipIdx.find? fun b => b.1.name = c.name with
    | none => false
    | some (b,first) => decide (first < i) && !(b.inContexts && c.inContexts)

theorem unambiguous_iff : Unambiguous all ↔ ∀ i < all.length, isDuplicate all i = false := by
  constructor
  · intro h i hi
    have hc := List.getElem?_eq_getElem hi
    obtain ⟨b,first,hfind⟩ := find_zipIdx_of_getElem? hc
    obtain ⟨hb,hname,-⟩ := find_zipIdx_first hfind
    unfold isDuplicate
    rw [hc]
    dsimp only
    rw [hfind]
    by_cases hlt : first < i
    · simp [h first i b _ hb hc hname hlt.ne,h i first _ b hc hb hname.symm hlt.ne']
    · simp [hlt]
  · intro h i j b c hi hj hname hne
    obtain ⟨a,first,hfind⟩ := find_zipIdx_of_getElem? hi
    obtain ⟨ha,haname,hleast⟩ := find_zipIdx_first hfind
    have hboth : ∀ k d, all[k]? = some d → d.name = b.name → first < k → a.inContexts = true ∧ d.inContexts = true := by
      intro k d hd hdname hlt
      have hnot := h k (List.getElem?_eq_some_iff.mp hd).1
      unfold isDuplicate at hnot
      rw [hd] at hnot
      dsimp only at hnot
      rw [hdname,hfind] at hnot
      simpa [hlt] using hnot
    rcases Nat.lt_or_eq_of_le (hleast i b hi rfl) with hlt | rfl
    · exact (hboth i b hi rfl hlt).2
    · rw [hi] at ha
      obtain rfl := Option.some_inj.mp ha
      exact (hboth j c hj hname.symm (Nat.lt_of_le_of_ne (hleast j c hj hname.symm) hne)).1

instance (all : List Binding) : Decidable (Unambiguous all) := decidable_of_iff _ unambiguous_iff.symm

theorem Listed.searches_duplicate (h : Listed s all) (i : ℕ) :
    Searches bindingMapSize home (all.map Binding.name) (s.bindings i).name (duplicateAt s i) false fun k =>
      decide (k < i) && !(isFlagSet (s.bindings k).flags bindingFlagAppContext &&
        isFlagSet (s.bindings i).flags bindingFlagAppContext) := by
  constructor
  · intro idx hidx (hfree : slots (all.map Binding.name) idx = none)
    unfold duplicateAt
    rw [h.inuse idx hidx,hfree]
    rfl
  · intro idx hidx k (hk : slots (all.map Binding.name) idx = some k) hget
    rw [getElem?_names] at hget
    obtain ⟨b,hb,hname⟩ := Option.map_eq_some_iff.mp hget
    unfold duplicateAt
    dsimp only
    rw [h.inuse idx hidx,hk,h.map idx hidx k hk,h.name k.2 b hb,hname]
    simp only [eq_comm]
    rfl

theorem Listed.check_eq (h : Listed s all) (hnear : NearEnough all) (hroom : all.length ≤ maxBindings) :
    embeddedCliCheckBindingDuplicates s = (List.range all.length).countP (isDuplicate all) := by
  unfold embeddedCliCheckBindingDuplicates
  rw [h.count]
  have hround : ∀ i < all.length, (probe bindingMapSize (duplicateAt s i) 32
      (cliHash (s.bindings i).name &&& bindingMapMask)).getD false = isDuplicate all i := by
    intro i hi
    have hc := List.getElem?_eq_getElem hi
    rw [hash_and_mask,probe_eq (h.searches_duplicate i) hnear hroom,h.name i _ hc,h.flags i _ hc]
    unfold isDuplicate
    rw [hc]
    dsimp only
    cases hfind : all.zipIdx.find? fun b => b.1.name = all[i].name with
    | none => rfl
    | some b =>
      obtain ⟨hb,-,-⟩ := find_zipIdx_first hfind
      rw [Option.elim_some,h.inContexts hb]
      rfl
  split
  case isTrue hfew =>
    refine (List.countP_eq_zero.mpr fun i hi => ?_).symm
    have hzero : i = 0 := by
      have hlt := List.mem_range.mp hi
      omega
    unfold isDuplicate
    cases all[i]? with
    | none => simp
    | some c =>
      dsimp only
      cases all.zipIdx.find? fun b => b.1.name = c.name <;> simp [hzero]
  case isFalse =>
    exact List.countP_congr fun i hi => by rw [hround i (List.mem_range.mp hi)]

theorem Listed.check_eq_zero (h : Listed s all) (hnear : NearEnough all) (hroom : all.length ≤ maxBindings) :
    embeddedCliCheckBindingDuplicates s = 0 ↔ Unambiguous all := by
  rw [h.check_eq hnear hroom,unambiguous_iff,List.countP_eq_zero]
  simp

end Duplicates

section Menu
variable {s : State} {bindings : ℕ → Binding} {m : ℕ} {bs : List Binding}

theorem length_take_le (hm : m ≤ maxBindings) : ((help :: bs).take m).length ≤ maxBindings := by
  rw [List.length_take]
  omega

/-- Two commands `temp` of different contexts, the second of them wide. -/
def menuBindings : List Binding :=
  [⟨ascii "temp",bindingFlagAppContext,none⟩,⟨ascii "temp",bindingFlagAppContext + bindingFlagWide,none⟩,
   ⟨ascii "quit",bindingFlagWide,none⟩]

theorem Holds.find_eq (h : Holds m (help :: bs) s) (hm : m ≤ maxBindings) (hnear : NearEnough ((help :: bs).take m))
    (hcheck : embeddedCliCheckBindingDuplicates s = 0) {ctx : AppContext} (hctx : ctx.Lists s.bindingsCount)
    (cmdName : List UInt8) :
    findBindingIndex s ctx cmdName = resolve ((help :: bs).take m) ctx cmdName := by
  have hroom := @length_take_le m bs hm
  have hsame := (h.listed.check_eq_zero hnear hroom).mp hcheck
  refine (h.linked hsame).find_eq hsame hnear hroom (fun c hc => ?_) hctx.nonempty hctx.registered cmdName
  rcases Nat.eq_zero_or_pos m with rfl | hpos
  · simp at hc
  · rw [List.getElem?_take_of_lt hpos] at hc
    obtain rfl := Option.some_inj.mp hc
    decide

/-- After any registrations that the assertions let pass and the check for duplicates accepts, the lookup of every
string in every application context gives the binding that the string means there. -/
theorem findBindingIndex_resolve (hm : m ≤ maxBindings) (hrun : run bindings m bs = some s)
    (hnear : NearEnough ((help :: bs).take m)) (hcheck : embeddedCliCheckBindingDuplicates s = 0) {ctx : AppContext}
    (hctx : ctx.Lists s.bindingsCount) (cmdName : List UInt8) :
    findBindingIndex s ctx cmdName = resolve ((help :: bs).take m) ctx cmdName :=
  (holds_run hm hrun).find_eq hm hnear hcheck hctx cmdName

/-- The context that lists the second command `temp`, with its first entry disabled. -/
def menuContext : AppContext := ⟨fun i => if i = 0 then 1 else 2,2,2⟩

theorem findBindingIndex_resolve_menu : ∃ s, run (fun _ => help) 79 menuBindings = some s ∧
    ∀ cmdName, findBindingIndex s menuContext cmdName = resolve ((help :: menuBindings).take 79) menuContext cmdName := by
  obtain ⟨s,hs⟩ := Option.isSome_iff_exists.mp
    (by decide +kernel : (run (fun _ => help) 79 menuBindings).isSome = true)
  have hcheck : (run (fun _ => help) 79 menuBindings).map embeddedCliCheckBindingDuplicates = some 0 := by decide +kernel
  have hcount : (run (fun _ => help) 79 menuBindings).map State.bindingsCount = some 4 := by decide +kernel
  rw [hs,Option.map_some,Option.some_inj] at hcheck hcount
  refine ⟨s,hs,findBindingIndex_resolve (by decide) hs (nearEnough_of_length (by decide)) hcheck ?_⟩
  rw [hcount]
  decide

example : resolve (help :: menuBindings) menuContext (ascii "temp") = .index 2 := by decide

end Menu

end EmbedTemplate.Cli.Bindings
