import EmbedTemplate.Cli.Contexts
import EmbedTemplate.Cli.Session

/-! # What the tabulator key offers

`getAutocompletedCommand` looks through the names of the current context, the enabled bindings of the application
context and the wide bindings. What it offers is compared with what the lookup of a command finds.
-/
namespace EmbedTemplate.Cli.Bindings
open Bytes

section Source

/-- The bindings, with `wideBindingsIdx` next to them. -/
structure Bound where
  state : State
  wideBindingsIdx : ℕ → ℕ

/-- `embeddedCliAddBinding`, with the index of a wide binding stored. -/
def Bound.add (s : Bound) (binding : Binding) : Option Bound :=
  (embeddedCliAddBinding s.state binding).map fun t =>
    { state := t
      wideBindingsIdx :=
        if s.state.wideBindingsCount < t.wideBindingsCount then
          Function.update s.wideBindingsIdx s.state.wideBindingsCount (u8 s.state.bindingsCount)
        else s.wideBindingsIdx }

/-- `embeddedCliNew` and some calls of `embeddedCliAddBinding`. -/
def boundRun (bindings : ℕ → Binding) (m : ℕ) (bs : List Binding) : Option Bound :=
  if m > maxBindings then none
  else Machine.exec Bound.add
    ⟨⟨bindings,0,u16 (m + cliInternalBindingCount),fun _ => 0,fun _ => 0,0⟩,fun _ => 0⟩ (help :: bs)

/-- The room for matches. -/
def maxMatches : ℕ := 8

/-- The loop over the names of the current context, from the matches so far on. -/
def offerContext (typed : List UInt8) : List (List UInt8) → List (List UInt8) → List (List UInt8)
  | [], found => found
  | name :: names, found =>
    if typed.isPrefixOf name then
      if found.length < maxMatches then offerContext typed names (found ++ [name]) else found
    else offerContext typed names found

/-- The loop over indices of bindings; a name with an application context is offered once. -/
def offerBindings (s : State) (typed : List UInt8) : List ℕ → List (List UInt8) → List (List UInt8)
  | [], found => found
  | idx :: rest, found =>
    let name := (s.bindings idx).name
    if typed.isPrefixOf name then
      if found.length < maxMatches then
        let duplicate := isFlagSet (s.bindings idx).flags bindingFlagAppContext && found.contains name
        offerBindings s typed rest (if duplicate then found else found ++ [name])
      else found
    else offerBindings s typed rest found

/-- The indices of the application context that the map does not disable. -/
def contextIndices (ctx : AppContext) : List ℕ :=
  ((List.range ctx.count).filter fun i => !(2 ^ 16 - 1 - u16 ctx.stride).testBit i).map fun i => (ctx.base i).toNat

def wideIndices (s : Bound) : List ℕ := (List.range s.state.wideBindingsCount).map s.wideBindingsIdx

/-- `getAutocompletedCommand`; without an application context there is nothing to read. -/
def getAutocompletedCommand (s : Bound) (context : List (List UInt8)) (ctx : AppContext) (typed : List UInt8) :
    Option (List (List UInt8)) :=
  if s.state.bindingsCount = 0 ∨ typed = [] then some []
  else
    let found := offerContext typed context []
    if found.length > 0 then some found
    else if ctx.count = 0 then none
    else some (offerBindings s.state typed (wideIndices s) (offerBindings s.state typed (contextIndices ctx) []))

end Source

section Wide
variable {m : ℕ} {done bs : List Binding} {s t : Bound} {b : Binding}

/-- The wide ones of some bindings. -/
def wideOf (all : List Binding) : List ℕ := (List.range all.length).filter fun i => (all[i]?).any Binding.wide

theorem wideOf_snoc (all : List Binding) (b : Binding) :
    wideOf (all ++ [b]) = wideOf all ++ if b.wide then [all.length] else [] := by
  unfold wideOf
  rw [List.length_append,List.length_singleton,List.range_succ,List.filter_append]
  congr 1
  · refine List.filter_congr fun i hi => ?_
    rw [List.getElem?_append_left (List.mem_range.mp hi)]
  · cases hwide : b.wide <;> simp [hwide]

structure HoldsWide (m : ℕ) (done : List Binding) (s : Bound) : Prop where
  holds : Holds m done s.state
  wide : wideIndices s = wideOf (done.take m)

theorem HoldsWide.add (h : HoldsWide m done s) (hm : m ≤ maxBindings) (hadd : s.add b = some t) :
    HoldsWide m (done ++ [b]) t := by
  obtain ⟨u,hu,rfl⟩ := Option.map_eq_some_iff.mp hadd
  refine ⟨h.holds.add hm hu,?_⟩
  have hwide := h.wide
  rcases Nat.lt_or_ge done.length m with hlt | hge
  · obtain ⟨hlisted,hroom⟩ := h.holds.room hlt
    obtain ⟨-,-,hcount⟩ := hlisted.add (Nat.lt_of_lt_of_le hlt hm) hroom hu
    rw [List.take_of_length_le hlt.le] at hwide
    rw [take_snoc_lt hlt,wideOf_snoc,← hwide]
    unfold wideIndices
    dsimp only
    rw [hcount]
    cases b.wide with
    | false => simp
    | true =>
      have hsmall : u8 s.state.bindingsCount = done.length := by
        rw [hlisted.count]
        exact Nat.mod_eq_of_lt (Nat.lt_of_lt_of_le hlt (Nat.le_trans hm (by decide)))
      rw [if_pos rfl,if_pos rfl,if_pos (Nat.lt_succ_self _),List.range_succ,List.map_append,List.map_singleton,
        Function.update_self,hsmall]
      congr 1
      refine List.map_congr_left fun _ hi => Function.update_of_ne ?_ _ _
      exact (List.mem_range.mp hi).ne
  · obtain rfl := h.holds.full hge hu
    rw [List.take_append_of_le_length hge,← hwide]
    unfold wideIndices
    dsimp only
    rw [if_neg (Nat.lt_irrefl _)]

theorem HoldsWide.exec (h : HoldsWide m done s) (hm : m ≤ maxBindings) (hexec : Machine.exec Bound.add s bs = some t) :
    HoldsWide m (done ++ bs) t := by
  induction bs generalizing done s with
  | nil =>
    obtain rfl := Option.some_inj.mp hexec
    rwa [List.append_nil]
  | cons b bs ih =>
    rw [Machine.exec_cons] at hexec
    obtain ⟨u,hu,hexec⟩ := Option.bind_eq_some_iff.mp hexec
    rw [List.append_cons]
    exact ih (h.add hm hu) hexec

theorem holdsWide_run {bindings : ℕ → Binding} (hm : m ≤ maxBindings) (hrun : boundRun bindings m bs = some s) :
    HoldsWide m (help :: bs) s := by
  have hstart : HoldsWide m [] ⟨⟨bindings,0,u16 (m + cliInternalBindingCount),fun _ => 0,fun _ => 0,0⟩,fun _ => 0⟩ :=
    ⟨holds_new bindings hm,by rw [List.take_nil]; rfl⟩
  unfold boundRun at hrun
  rw [if_neg (Nat.not_lt.mpr hm)] at hrun
  exact hstart.exec hm hrun

end Wide

section Offered
variable {s : State} {all : List Binding} {ctx : AppContext} {typed name : List UInt8} {idxs : List ℕ}
  {found : List (List UInt8)}

/-- What a loop over bindings offers: the matches before, then names of the bindings, and all of them while there is
room. -/
structure Offers (s : State) (typed : List UInt8) (idxs : List ℕ) (found offered : List (List UInt8)) : Prop where
  first : found <+: offered
  room : offered.length ≤ maxMatches
  sound : ∀ name ∈ offered, name ∈ found ∨ typed <+: name ∧ ∃ i ∈ idxs, (s.bindings i).name = name
  complete : offered.length < maxMatches → ∀ i ∈ idxs, typed <+: (s.bindings i).name → (s.bindings i).name ∈ offered

theorem offers_nil (hroom : found.length ≤ maxMatches) : Offers s typed [] found found :=
  ⟨List.prefix_rfl,hroom,fun _ h => .inl h,fun _ _ hi => absurd hi List.not_mem_nil⟩

theorem offers_full (hfull : ¬found.length < maxMatches) (hroom : found.length ≤ maxMatches) :
    Offers s typed idxs found found :=
  ⟨List.prefix_rfl,hroom,fun _ h => .inl h,fun h => absurd h hfull⟩

/-- A binding whose name does not match, or is there already. -/
theorem Offers.skip {offered : List (List UInt8)} {idx : ℕ} (h : Offers s typed idxs found offered)
    (hskip : typed <+: (s.bindings idx).name → (s.bindings idx).name ∈ found) :
    Offers s typed (idx :: idxs) found offered := by
  refine ⟨h.first,h.room,fun name hname => ?_,fun hlt i hi hmatch => ?_⟩
  · rcases h.sound name hname with hold | ⟨hmatch,i,hi,heq⟩
    · exact .inl hold
    · exact .inr ⟨hmatch,i,List.mem_cons_of_mem _ hi,heq⟩
  · rcases List.mem_cons.mp hi with rfl | hi
    · exact h.first.subset (hskip hmatch)
    · exact h.complete hlt i hi hmatch

theorem Offers.take {offered : List (List UInt8)} {idx : ℕ}
    (h : Offers s typed idxs (found ++ [(s.bindings idx).name]) offered) (hmatch : typed <+: (s.bindings idx).name) :
    Offers s typed (idx :: idxs) found offered := by
  refine ⟨(List.prefix_append ..).trans h.first,h.room,fun name hname => ?_,fun hlt i hi hother => ?_⟩
  · rcases h.sound name hname with hold | ⟨hmatch,i,hi,heq⟩
    · rcases List.mem_append.mp hold with hold | hnew
      · exact .inl hold
      · exact .inr ⟨List.mem_singleton.mp hnew ▸ hmatch,idx,List.mem_cons_self ..,(List.mem_singleton.mp hnew).symm⟩
    · exact .inr ⟨hmatch,i,List.mem_cons_of_mem _ hi,heq⟩
  · rcases List.mem_cons.mp hi with rfl | hi
    · exact h.first.subset (List.mem_append_right _ (List.mem_singleton_self _))
    · exact h.complete hlt i hi hother

theorem offerBindings_offers (hroom : found.length ≤ maxMatches) :
    Offers s typed idxs found (offerBindings s typed idxs found) := by
  induction idxs generalizing found with
  | nil => exact offers_nil hroom
  | cons idx idxs ih =>
    unfold offerBindings
    dsimp only
    split
    case isFalse hmiss => exact (ih hroom).skip fun hmatch => absurd (List.isPrefixOf_iff_prefix.mpr hmatch) hmiss
    case isTrue hmatch =>
      have hmatch := List.isPrefixOf_iff_prefix.mp hmatch
      split
      case isFalse hfull => exact offers_full hfull hroom
      case isTrue hlt =>
        split
        case isTrue hduplicate =>
          rw [Bool.and_eq_true,List.contains_iff_mem] at hduplicate
          exact (ih hroom).skip fun _ => hduplicate.2
        case isFalse =>
          refine Offers.take (ih ?_) hmatch
          rw [List.length_append,List.length_singleton]
          exact hlt

/-- The loop over a context offers its first names that match. -/
theorem offerContext_eq {names : List (List UInt8)} (hroom : found.length ≤ maxMatches) :
    offerContext typed names found = (found ++ names.filter fun name => typed.isPrefixOf name).take maxMatches := by
  induction names generalizing found with
  | nil => rw [List.filter_nil,List.append_nil,List.take_of_length_le hroom]; rfl
  | cons name names ih =>
    unfold offerContext
    by_cases hmatch : typed.isPrefixOf name = true
    · rw [if_pos hmatch,List.filter_cons_of_pos hmatch]
      by_cases hlt : found.length < maxMatches
      · have hnext : (found ++ [name]).length ≤ maxMatches := by
          rw [List.length_append,List.length_singleton]
          exact hlt
        rw [if_pos hlt,ih hnext,List.append_assoc,List.singleton_append]
      · rw [if_neg hlt,List.take_append_of_le_length (Nat.le_of_not_lt hlt),List.take_of_length_le hroom]
    · rw [if_neg hmatch,List.filter_cons_of_neg hmatch,ih hroom]

theorem offerContext_nil {names : List (List UInt8)} (h : ∀ name ∈ names, ¬typed <+: name) :
    offerContext typed names found = found := by
  induction names with
  | nil => rfl
  | cons name names ih =>
    rw [List.forall_mem_cons] at h
    unfold offerContext
    rw [if_neg fun hmatch => h.1 (List.isPrefixOf_iff_prefix.mp hmatch)]
    exact ih h.2

theorem contextIndices_eq (ctx : AppContext) : contextIndices ctx = ctx.entries :=
  congrArg (List.map _) (List.filter_congr fun _ _ => enabled_eq ctx _)

end Offered

section Lookup
variable {s : Bound} {bindings : ℕ → Binding} {m : ℕ} {bs all : List Binding} {ctx : AppContext}
  {typed name : List UInt8} {context found : List (List UInt8)}

/-- A name that begins with what has been typed, of a binding that the context enables or that is wide. -/
def Candidate (all : List Binding) (ctx : AppContext) (typed name : List UInt8) : Prop :=
  typed <+: name ∧ ∃ i b, i ∈ ctx.entries ++ wideOf all ∧ all[i]? = some b ∧ b.name = name

theorem mem_entries {i : ℕ} (h : i ∈ ctx.entries) : ∃ j < ctx.count, (ctx.base j).toNat = i := by
  obtain ⟨j,hj,hij⟩ := List.mem_map.mp h
  exact ⟨j,List.mem_range.mp (List.mem_of_mem_filter hj),hij⟩

theorem mem_wideOf {i : ℕ} : i ∈ wideOf all ↔ ∃ b, all[i]? = some b ∧ b.wide = true := by
  unfold wideOf
  rw [List.mem_filter,List.mem_range,Option.any_eq_true]
  exact ⟨fun h => h.2,fun ⟨b,hb,hwide⟩ => ⟨(List.getElem?_eq_some_iff.mp hb).1,b,hb,hwide⟩⟩

theorem AppContext.Lists.some_bindings {count : ℕ} (h : ctx.Lists count) (htyped : typed ≠ []) :
    ¬(count = 0 ∨ typed = []) := by
  have hpos := h.registered 0 h.nonempty
  rintro (hzero | hnil)
  · omega
  · exact htyped hnil

/-- What is offered when a name of the current context matches. -/
theorem getAutocompletedCommand_context (hctx : ctx.Lists s.state.bindingsCount) (htyped : typed ≠ [])
    (hcontext : ∃ name ∈ context, typed <+: name) : getAutocompletedCommand s context ctx typed =
      some ((context.filter fun name => typed.isPrefixOf name).take maxMatches) := by
  have hpos : 0 < ((context.filter fun name => typed.isPrefixOf name).take maxMatches).length := by
    obtain ⟨name,hname,hmatch⟩ := hcontext
    have hsome := List.length_pos_of_mem (List.mem_filter.mpr ⟨hname,List.isPrefixOf_iff_prefix.mpr hmatch⟩)
    rw [List.length_take]
    exact lt_min (by decide) hsome
  unfold getAutocompletedCommand
  dsimp only
  rw [if_neg (hctx.some_bindings htyped),offerContext_eq (Nat.zero_le _),List.nil_append,if_pos hpos]

/-- What is offered, from the two loops. -/
theorem getAutocompletedCommand_eq (h : HoldsWide m (help :: bs) s) (hctx : ctx.Lists s.state.bindingsCount)
    (htyped : typed ≠ []) (hcontext : ∀ name ∈ context, ¬typed <+: name) :
    ∃ first offered, getAutocompletedCommand s context ctx typed = some offered ∧
      Offers s.state typed ctx.entries [] first ∧ Offers s.state typed (wideOf ((help :: bs).take m)) first offered := by
  have hfirst := @offerBindings_offers s.state typed ctx.entries [] (Nat.zero_le _)
  refine ⟨_,_,?_,hfirst,offerBindings_offers hfirst.room⟩
  unfold getAutocompletedCommand
  dsimp only
  rw [if_neg (hctx.some_bindings htyped),offerContext_nil hcontext,
    if_neg (show ¬([] : List (List UInt8)).length > 0 from Nat.lt_irrefl 0),if_neg hctx.nonempty.ne',contextIndices_eq,h.wide]

theorem HoldsWide.offered (h : HoldsWide m (help :: bs) s) (hctx : ctx.Lists s.state.bindingsCount) (htyped : typed ≠ [])
    (hcontext : ∀ name ∈ context, ¬typed <+: name) :
    ∃ offered, getAutocompletedCommand s context ctx typed = some offered ∧ offered.length ≤ maxMatches ∧
      (∀ name ∈ offered, Candidate ((help :: bs).take m) ctx typed name) ∧
      (offered.length < maxMatches → ∀ name, Candidate ((help :: bs).take m) ctx typed name → name ∈ offered) := by
  have hlisted := h.holds.listed
  obtain ⟨first,offered,hoffered,hentry,hwide⟩ := getAutocompletedCommand_eq h hctx htyped hcontext
  have hname : ∀ i b, ((help :: bs).take m)[i]? = some b → (s.state.bindings i).name = b.name := hlisted.name
  refine ⟨offered,hoffered,hwide.room,fun name hmem => ?_,fun hlt name hcandidate => ?_⟩
  · rcases hwide.sound name hmem with hmem | ⟨hmatch,i,hi,rfl⟩
    · rcases hentry.sound name hmem with hmem | ⟨hmatch,i,hi,rfl⟩
      · exact absurd hmem List.not_mem_nil
      · obtain ⟨j,hj,rfl⟩ := mem_entries hi
        have hlt := hctx.registered j hj
        rw [hlisted.count] at hlt
        have hb := List.getElem?_eq_getElem hlt
        exact ⟨hmatch,_,_,List.mem_append_left _ hi,hb,(hname _ _ hb).symm⟩
    · obtain ⟨b,hb,-⟩ := mem_wideOf.mp hi
      exact ⟨hmatch,i,b,List.mem_append_right _ hi,hb,(hname i b hb).symm⟩
  · obtain ⟨hmatch,i,b,hi,hb,rfl⟩ := hcandidate
    have heq := hname i b hb
    have hfirst : first.length < maxMatches := Nat.lt_of_le_of_lt hwide.first.length_le hlt
    rcases List.mem_append.mp hi with hi | hi
    · rw [← heq]
      exact hwide.first.subset (hentry.complete hfirst i hi (heq ▸ hmatch))
    · rw [← heq]
      exact hwide.complete hlt i hi (heq ▸ hmatch)

theorem bound_menu : ∃ s, boundRun (fun _ => help) 79 menuBindings = some s ∧ s.state.bindingsCount = 4 ∧
    embeddedCliCheckBindingDuplicates s.state = 0 := by
  obtain ⟨s,hs⟩ := Option.isSome_iff_exists.mp
    (by decide +kernel : (boundRun (fun _ => help) 79 menuBindings).isSome = true)
  have hcount : (boundRun (fun _ => help) 79 menuBindings).map (fun s => s.state.bindingsCount) = some 4 := by
    decide +kernel
  have hcheck : (boundRun (fun _ => help) 79 menuBindings).map
      (fun s => embeddedCliCheckBindingDuplicates s.state) = some 0 := by decide +kernel
  rw [hs,Option.map_some,Option.some_inj] at hcount hcheck
  exact ⟨s,hs,hcount,hcheck⟩

/-- The first binding of a name belongs to application contexts and is not wide, and this context does not list the
name. -/
def Shadowed (all : List Binding) (ctx : AppContext) (name : List UInt8) : Prop :=
  ∃ b first, (all.zipIdx.find? fun b => b.1.name = name) = some (b,first) ∧ b.inContexts = true ∧ b.wide = false ∧
    ∀ i ∈ ctx.entries, ∀ c, all[i]? = some c → c.name ≠ name

/-- What the lookup makes of a candidate. -/
theorem resolve_candidate (hsame : Unambiguous all) (hcandidate : Candidate all ctx typed name) :
    (resolve all ctx name = .noMatch ↔ Shadowed all ctx name) ∧
      (¬Shadowed all ctx name → ∃ i b, resolve all ctx name = .index i ∧ all[i]? = some b ∧ b.name = name ∧
        (i ∈ ctx.entries ∨ b.wide = true)) := by
  obtain ⟨-,j,c,hj,hc,rfl⟩ := hcandidate
  obtain ⟨b,first,hfind⟩ := find_zipIdx_of_getElem? hc
  obtain ⟨hb,hname,-⟩ := find_zipIdx_first hfind
  have hshadowed : Shadowed all ctx c.name ↔ b.inContexts = true ∧ b.wide = false ∧
      ∀ i ∈ ctx.entries, ∀ d, all[i]? = some d → d.name ≠ c.name := by
    constructor
    · rintro ⟨b',first',hfind',h⟩
      rw [hfind] at hfind'
      cases hfind'
      exact h
    · exact fun h => ⟨b,first,hfind,h⟩
  rw [hshadowed]
  unfold resolve
  rw [hfind]
  dsimp only
  by_cases hin : b.inContexts = true
  · rw [if_pos hin]
    cases hentry : ctx.entries.find? fun i => (all[i]?).any fun d => d.name = c.name with
    | some i =>
      have hany := List.find?_some hentry
      obtain ⟨d,hd,hdname⟩ := (Option.any_eq_true _ _).mp hany
      have hmem := List.mem_of_find?_eq_some hentry
      have hdname := of_decide_eq_true hdname
      exact ⟨iff_of_false (by simp) fun h => h.2.2 i hmem d hd hdname,fun _ => ⟨i,d,rfl,hd,hdname,.inl hmem⟩⟩
    | none =>
      have hnone : ∀ i ∈ ctx.entries, ∀ d, all[i]? = some d → d.name ≠ c.name := by
        intro i hi d hd hdname
        exact List.find?_eq_none.mp hentry i hi ((Option.any_eq_true _ _).mpr ⟨d,hd,decide_eq_true hdname⟩)
      cases hwide : b.wide with
      | true =>
        exact ⟨iff_of_false (by simp) fun h => by simp at h,fun _ => ⟨first,b,rfl,hb,hname,.inr hwide⟩⟩
      | false => exact ⟨iff_of_true rfl ⟨hin,rfl,hnone⟩,fun h => absurd ⟨hin,rfl,hnone⟩ h⟩
  · rw [if_neg hin]
    refine ⟨iff_of_false (by simp) fun h => hin h.1,fun _ => ?_⟩
    have hat : first = j := by
      by_contra hne
      exact hin (hsame first j b c hb hc hname hne)
    rw [hat,hc] at hb
    obtain rfl := Option.some_inj.mp hb
    refine ⟨first,c,rfl,hat ▸ hc,rfl,?_⟩
    rcases List.mem_append.mp hj with hj | hj
    · exact .inl (hat ▸ hj)
    · obtain ⟨d,hd,hwide⟩ := mem_wideOf.mp hj
      rw [hc] at hd
      exact .inr (Option.some_inj.mp hd ▸ hwide)

/-- After any registrations that the assertions let pass and the check for duplicates accepts, an offered name that is
not one of the current context is found as a binding that the application context enables or that is wide, unless it is
shadowed; then the lookup does not know it. -/
theorem offered_found (hm : m ≤ maxBindings) (hrun : boundRun bindings m bs = some s)
    (hnear : NearEnough ((help :: bs).take m)) (hcheck : embeddedCliCheckBindingDuplicates s.state = 0)
    (hctx : ctx.Lists s.state.bindingsCount) {offered : List (List UInt8)}
    (hoffered : getAutocompletedCommand s context ctx typed = some offered) :
    ∀ name ∈ offered, name ∉ context →
      (findBindingIndex s.state ctx name = .noMatch ↔ Shadowed ((help :: bs).take m) ctx name) ∧
      (¬Shadowed ((help :: bs).take m) ctx name → ∃ i b, findBindingIndex s.state ctx name = .index i ∧
        ((help :: bs).take m)[i]? = some b ∧ b.name = name ∧ (i ∈ ctx.entries ∨ b.wide = true)) := by
  intro name hname hother
  have hholds := holdsWide_run hm hrun
  have hsome : typed ≠ [] := by
    rintro rfl
    unfold getAutocompletedCommand at hoffered
    rw [if_pos (.inr rfl)] at hoffered
    rw [← Option.some_inj.mp hoffered] at hname
    exact List.not_mem_nil hname
  have hcontext : ∀ name ∈ context, ¬typed <+: name := by
    intro own hown hmatch
    rw [getAutocompletedCommand_context hctx hsome ⟨own,hown,hmatch⟩] at hoffered
    rw [← Option.some_inj.mp hoffered] at hname
    exact hother (List.mem_of_mem_filter (List.mem_of_mem_take hname))
  obtain ⟨all,hall,-,hsound,-⟩ := hholds.offered hctx hsome hcontext
  rw [hoffered] at hall
  obtain rfl := Option.some_inj.mp hall
  have hsame := (hholds.holds.listed.check_eq_zero hnear (length_take_le hm)).mp hcheck
  rw [hholds.holds.find_eq hm hnear hcheck hctx]
  exact resolve_candidate hsame (hsound name hname)

/-- The second command `temp` is wide and offered, but in a context of its own neither is found. -/
theorem offered_found_menu : ∃ s, boundRun (fun _ => help) 79 menuBindings = some s ∧
    getAutocompletedCommand s [ascii "set"] ⟨fun _ => 3,1,1⟩ (ascii "te") = some [ascii "temp"] ∧
    findBindingIndex s.state ⟨fun _ => 3,1,1⟩ (ascii "temp") = .noMatch := by
  obtain ⟨s,hs,hcount,hcheck⟩ := bound_menu
  have hoffered : (boundRun (fun _ => help) 79 menuBindings).map
      (fun s => getAutocompletedCommand s [ascii "set"] ⟨fun _ => 3,1,1⟩ (ascii "te")) = some (some [ascii "temp"]) := by
    decide +kernel
  rw [hs,Option.map_some,Option.some_inj] at hoffered
  have hctx : AppContext.Lists ⟨fun _ => 3,1,1⟩ s.state.bindingsCount := by
    rw [hcount]
    decide
  have hshadowed : Shadowed ((help :: menuBindings).take 79) ⟨fun _ => 3,1,1⟩ (ascii "temp") :=
    ⟨⟨ascii "temp",bindingFlagAppContext,none⟩,1,by decide +kernel,by decide,by decide,by decide⟩
  refine ⟨s,hs,hoffered,?_⟩
  exact (offered_found (by decide) hs (nearEnough_of_length (by decide)) hcheck hctx hoffered (ascii "temp")
    (List.mem_singleton_self _) (by decide)).1.mpr hshadowed

end Lookup

end EmbedTemplate.Cli.Bindings
