import EmbedTemplate.Profiler.Calls
import Mathlib.Algebra.Group.Action.Defs
import Mathlib.Algebra.Order.BigOperators.Group.List

/-! # What the read-out says of the calls

Count, minimum, maximum and truncated average of the durations of a function's completed
calls, and when the read-out after a well-nested trace reports them.
-/
namespace EmbedTemplate.Profiling
open Bytes

/-- Count, minimum, maximum and average of some durations. -/
structure Summary where
  count : ℕ
  least : ℕ
  greatest : ℕ
  average : ℕ
  deriving DecidableEq

def summaryOf (durations : List ℕ) : Option Summary :=
  match durations.min?, durations.max? with
  | some least, some greatest => some ⟨durations.length,least,greatest,durations.sum / durations.length⟩
  | _, _ => none

def Stats.summary (s : Stats) : Summary := ⟨s.sampleCount,s.minDuration,s.maxDuration,s.avgDuration⟩

/-- The durations of the completed calls of a function. -/
def durationsOf (f : ℕ) (trace : List Event) : List ℕ :=
  (completedOf f trace).reverse.map fun call => call.2 - call.1

/-- The tracked functions are reported with the summary of their completed calls, and no others are. -/
def Reports (funcList : List ℕ) (trace : List Event) (stats : List Stats) : Prop := ∀ f,
  (stats.filter fun s => s.funcAddr = f).map Stats.summary =
    if f ∈ funcList then (summaryOf (durationsOf f trace)).toList else []

section Tally
variable {t : Tally} {log : Log}

/-- A log whose exits are not before their entries, at times other than zero. -/
def Log.Ordered (log : Log) : Prop := ∀ sample ∈ log, sample.2 ≠ 0 → sample.1 ≠ 0 ∧ sample.1 ≤ sample.2

/-- The durations of the closed samples of a log, oldest first. -/
def closedDurations (log : Log) : List ℕ := (closedOf log).reverse.map fun sample => sample.2 - sample.1

theorem count_foldl {samples : List (ℕ × ℕ)}
    (hordered : ∀ sample ∈ samples, sample.2 ≠ 0 ∧ sample.1 ≠ 0 ∧ sample.1 ≤ sample.2)
    (hcount : t.sampleCount + samples.length < 2 ^ 32) :
    (samples.foldl (fun t sample => t.add sample.1 sample.2) t).sampleCount = t.sampleCount + samples.length := by
  induction samples generalizing t with
  | nil => rfl
  | cons sample samples ih =>
    rw [List.length_cons] at hcount
    obtain ⟨hexit,hentry,hle⟩ := hordered sample (List.mem_cons_self ..)
    have hone : (t.add sample.1 sample.2).sampleCount = t.sampleCount + 1 := by
      unfold Tally.add
      rw [if_pos ⟨hentry,hexit,hle⟩]
      exact u32_of_lt (by omega)
    rw [List.foldl_cons,ih (fun s hs => hordered s (List.mem_cons_of_mem _ hs)) (by rw [hone]; omega),hone,
      List.length_cons]
    omega

/-- The loop variables behind some durations. -/
structure Tallied (durations : List ℕ) (t u : Tally) : Prop where
  totalDuration : u.totalDuration = t.totalDuration + durations.sum
  maxDuration : u.maxDuration = durations.foldl max t.maxDuration
  minDuration : u.minDuration = durations.foldl min t.minDuration

theorem tallied_add {entryTs exitTs : ℕ} (hexit : exitTs ≠ 0) (hentry : entryTs ≠ 0 ∧ entryTs ≤ exitTs)
    (htotal : t.totalDuration + (exitTs - entryTs) < 2 ^ 64) :
    Tallied [exitTs - entryTs] t (t.add entryTs exitTs) := by
  unfold Tally.add
  rw [if_pos ⟨hentry.1,hexit,hentry.2⟩]
  constructor
  case totalDuration => exact (Nat.mod_eq_of_lt htotal).trans (by simp)
  case maxDuration =>
    dsimp only [List.foldl_cons,List.foldl_nil]
    split <;> omega
  case minDuration =>
    dsimp only [List.foldl_cons,List.foldl_nil]
    split <;> omega

theorem tallied_foldl {samples : List (ℕ × ℕ)} (hordered : ∀ sample ∈ samples, sample.2 ≠ 0 ∧ sample.1 ≠ 0 ∧ sample.1 ≤ sample.2)
    (htotal : t.totalDuration + (samples.map fun sample => sample.2 - sample.1).sum < 2 ^ 64) :
    Tallied (samples.map fun sample => sample.2 - sample.1) t
      (samples.foldl (fun t sample => t.add sample.1 sample.2) t) := by
  induction samples generalizing t with
  | nil => exact ⟨rfl,rfl,rfl⟩
  | cons sample samples ih =>
    rw [List.map_cons,List.sum_cons] at htotal
    obtain ⟨hexit,hentry⟩ := hordered sample (List.mem_cons_self ..)
    have hone := tallied_add (t := t) hexit hentry (by omega)
    have hrest := ih (t := t.add sample.1 sample.2) (fun s hs => hordered s (List.mem_cons_of_mem _ hs))
      (by rw [hone.totalDuration]; simp only [List.sum_cons,List.sum_nil]; omega)
    rw [List.foldl_cons,List.map_cons]
    constructor
    case totalDuration =>
      rw [hrest.totalDuration,hone.totalDuration]
      simp only [List.sum_cons,List.sum_nil]
      omega
    case maxDuration =>
      rw [hrest.maxDuration,hone.maxDuration]
      rfl
    case minDuration =>
      rw [hrest.minDuration,hone.minDuration]
      rfl

theorem tallyOf_closed (log : Log) :
    tallyOf log = (closedOf log).reverse.foldl (fun t sample => t.add sample.1 sample.2) .zero := by
  unfold tallyOf closedOf
  rw [← List.filter_reverse,List.foldl_filter]
  congr 1
  funext t sample
  by_cases hzero : sample.2 = 0
  · simp [Tally.add,hzero]
  · simp [hzero]

theorem Log.Ordered.closed (h : log.Ordered) :
    ∀ sample ∈ (closedOf log).reverse, sample.2 ≠ 0 ∧ sample.1 ≠ 0 ∧ sample.1 ≤ sample.2 := by
  intro sample hmem
  rw [List.mem_reverse,closedOf,List.mem_filter] at hmem
  have hexit : sample.2 ≠ 0 := by simpa using hmem.2
  exact ⟨hexit,h sample hmem.1 hexit⟩

theorem length_closed_le (log : Log) : (closedOf log).length ≤ log.length := List.length_filter_le _ _

theorem tallyOf_count (hordered : log.Ordered) (hlen : log.length ≤ maxProfSamples) :
    (tallyOf log).sampleCount = (closedOf log).length := by
  have hclosed := (length_closed_le log).trans hlen
  unfold maxProfSamples at hclosed
  rw [tallyOf_closed,count_foldl hordered.closed]
  · exact (Nat.zero_add _).trans List.length_reverse
  · rw [List.length_reverse]
    exact Nat.lt_of_le_of_lt (Nat.add_le_add_left hclosed _) (by decide)

theorem tallyOf_tallied (hordered : log.Ordered) (hlen : log.length ≤ maxProfSamples)
    (hshort : ∀ duration ∈ closedDurations log, duration < 2 ^ 32) :
    Tallied (closedDurations log) .zero (tallyOf log) := by
  have hsum : (closedDurations log).sum ≤ maxProfSamples * 2 ^ 32 := by
    have hcard := List.sum_le_card_nsmul (closedDurations log) (2 ^ 32) fun d hd => (hshort d hd).le
    have hlength : (closedDurations log).length = (closedOf log).length := by
      rw [closedDurations,List.length_map,List.length_reverse]
    rw [hlength,smul_eq_mul] at hcard
    exact hcard.trans (Nat.mul_le_mul_right _ ((length_closed_le log).trans hlen))
  rw [tallyOf_closed]
  apply tallied_foldl hordered.closed
  exact Nat.lt_of_le_of_lt (Nat.add_le_add_left hsum _) (by decide)

theorem foldl_lt {op : ℕ → ℕ → ℕ} {bound d : ℕ} {durations : List ℕ}
    (hop : ∀ x y, x < bound → y < bound → op x y < bound) (hd : d < bound) (hall : ∀ x ∈ durations, x < bound) :
    durations.foldl op d < bound := by
  induction durations generalizing d with
  | nil => exact hd
  | cons x durations ih =>
    exact ih (hop d x hd (hall x (List.mem_cons_self ..))) fun y hy => hall y (List.mem_cons_of_mem _ hy)

/-- What is reported of a log with few samples and short durations. -/
theorem reportOf_summary (f : ℕ) (hordered : log.Ordered) (hlen : log.length ≤ maxProfSamples)
    (hshort : ∀ duration ∈ closedDurations log, duration < 2 ^ 32) :
    (reportOf f log).map Stats.summary = summaryOf (closedDurations log) := by
  have hcount := tallyOf_count hordered hlen
  obtain ⟨htotal,hmax,hmin⟩ := tallyOf_tallied hordered hlen hshort
  have hlength : (closedDurations log).length = (closedOf log).length := by
    rw [closedDurations,List.length_map,List.length_reverse]
  rw [← hlength] at hcount
  unfold reportOf
  generalize closedDurations log = durations at hcount htotal hmax hmin hshort
  cases durations with
  | nil =>
    rw [hcount]
    rfl
  | cons d durations =>
    have hpos : 0 < (tallyOf log).sampleCount := by
      rw [hcount]
      exact Nat.succ_pos _
    have hd : d < 2 ^ 32 := hshort d (List.mem_cons_self ..)
    have hall : ∀ x ∈ durations, x < 2 ^ 32 := fun x hx => hshort x (List.mem_cons_of_mem _ hx)
    have hleast : (tallyOf log).minDuration = durations.foldl min d := by
      have hbig : d ≤ Tally.zero.minDuration := hd.le.trans (by decide)
      rw [hmin,List.foldl_cons,min_eq_right hbig]
    have hgreatest : (tallyOf log).maxDuration = durations.foldl max d := by
      have hsmall : Tally.zero.maxDuration ≤ d := Nat.zero_le _
      rw [hmax,List.foldl_cons,max_eq_right hsmall]
    have hleastLt : durations.foldl min d < 2 ^ 32 := foldl_lt (fun x y hx _ => by omega) hd hall
    have hgreatestLt : durations.foldl max d < 2 ^ 32 := foldl_lt (fun x y hx hy => by omega) hd hall
    have hsum : (tallyOf log).totalDuration = (d :: durations).sum := htotal.trans (Nat.zero_add _)
    have haverage : (d :: durations).sum / (d :: durations).length < 2 ^ 32 := by
      have hcard := List.sum_le_card_nsmul (d :: durations) (2 ^ 32 - 1) fun x hx => by
        have hlt := hshort x hx
        omega
      rw [smul_eq_mul] at hcard
      apply Nat.div_lt_of_lt_mul
      rw [List.length_cons] at hcard ⊢
      omega
    rw [if_pos hpos,Option.map_some]
    unfold Tally.stats Stats.summary summaryOf
    rw [hleast,hgreatest,hsum,hcount,u32_of_lt hleastLt,u32_of_lt hgreatestLt,u32_of_lt haverage]
    rfl

end Tally

section Reports
variable {funcList : List ℕ} {trace : List Event} {p : Profiler}

/-- The times of a log are times of the trace, and no exit is before its entry. -/
theorem logOf_ordered (f : ℕ) (ht : Timed trace) :
    (logOf f trace).Ordered ∧ ∀ sample ∈ logOf f trace, ∃ e ∈ trace, e.ts = sample.1 := by
  induction trace using List.reverseRecOn with
  | nil => exact ⟨fun sample hmem => absurd hmem List.not_mem_nil,fun sample hmem => absurd hmem List.not_mem_nil⟩
  | append_singleton trace e ih =>
    obtain ⟨htimed,hlater,hts⟩ := ht.snoc
    obtain ⟨hordered,htimes⟩ := ih htimed
    have hmem : ∀ sample ∈ logOf f trace, ∃ e' ∈ trace ++ [e], e'.ts = sample.1 := fun sample hsample =>
      (htimes sample hsample).imp fun e' he' => ⟨List.mem_append_left _ he'.1,he'.2⟩
    have hlast : e ∈ trace ++ [e] := List.mem_append_right _ (List.mem_cons_self ..)
    rw [logOf_snoc]
    cases e with
    | enter g ts =>
      simp only [record]
      split
      case isFalse => exact ⟨hordered,hmem⟩
      case isTrue =>
        constructor
        · intro sample hsample hexit
          rcases List.mem_cons.mp hsample with rfl | hsample
          · exact absurd rfl hexit
          · exact hordered sample hsample hexit
        · intro sample hsample
          rcases List.mem_cons.mp hsample with rfl | hsample
          · exact ⟨_,hlast,rfl⟩
          · exact hmem sample hsample
    | exit g ts =>
      simp only [record]
      split
      case isFalse => exact ⟨hordered,hmem⟩
      case isTrue =>
        cases hlog : logOf f trace with
        | nil =>
          exact ⟨fun sample hsample => absurd hsample List.not_mem_nil,fun sample hsample =>
            absurd hsample List.not_mem_nil⟩
        | cons newest older =>
          rw [hlog] at hordered htimes hmem
          obtain ⟨e',he',hentry⟩ := htimes newest (List.mem_cons_self ..)
          constructor
          · intro sample hsample hexit
            rcases List.mem_cons.mp hsample with rfl | hsample
            · dsimp only
              rw [← hentry]
              exact ⟨htimed.nonzero e' he',hlater e' he'⟩
            · exact hordered sample (List.mem_cons_of_mem _ hsample) hexit
          · intro sample hsample
            rcases List.mem_cons.mp hsample with rfl | hsample
            · exact hmem newest (List.mem_cons_self ..)
            · exact hmem sample (List.mem_cons_of_mem _ hsample)

theorem Indexed.nodup (h : Indexed funcList p) : funcList.Nodup := by
  rw [List.nodup_iff_pairwise_ne,List.pairwise_iff_getElem]
  intro i j hi hj hij heq
  exact hij.ne (h.injective (List.getElem?_eq_getElem hi) (List.getElem?_eq_getElem hj) heq)

theorem reportOf_addr {f : ℕ} {log : Log} {s : Stats} (h : reportOf f log = some s) : s.funcAddr = f := by
  unfold reportOf at h
  split at h
  case isTrue =>
    obtain rfl := Option.some.inj h
    rfl
  case isFalse => cases h

theorem filter_reports {report : ℕ → Option Stats} (haddr : ∀ g s, report g = some s → s.funcAddr = g)
    (hnodup : funcList.Nodup) (f : ℕ) :
    ((funcList.filterMap report).filter fun s => s.funcAddr = f) = if f ∈ funcList then (report f).toList else [] := by
  induction funcList with
  | nil => rfl
  | cons g fs ih =>
    rw [List.nodup_cons] at hnodup
    have hrest := ih hnodup.2
    by_cases hg : g = f
    · subst hg
      rw [if_neg hnodup.1] at hrest
      rw [if_pos (List.mem_cons_self ..)]
      cases hreport : report g with
      | none =>
        rw [List.filterMap_cons_none hreport,hrest]
        rfl
      | some s =>
        rw [List.filterMap_cons_some hreport,List.filter_cons_of_pos (by simpa using haddr g s hreport),hrest]
        rfl
    · have hmem : f ∈ g :: fs ↔ f ∈ fs := by simp [Ne.symm hg]
      simp only [hmem]
      rw [← hrest]
      cases hreport : report g with
      | none => rw [List.filterMap_cons_none hreport]
      | some s =>
        have hother : s.funcAddr ≠ f := fun h => hg ((haddr g s hreport).symm.trans h)
        rw [List.filterMap_cons_some hreport,List.filter_cons_of_neg (by simpa using hother)]

theorem toList_map_eq_iff {α β : Type*} {o : Option α} {o' : Option β} {g : α → β} :
    o.toList.map g = o'.toList ↔ o.map g = o' := by
  cases o <;> cases o' <;> simp

theorem summaryOf_count (durations : List ℕ) : ((summaryOf durations).map Summary.count).getD 0 = durations.length := by
  cases durations with
  | nil => rfl
  | cons d durations => rfl

theorem reportOf_count (f : ℕ) {log : Log} (hordered : log.Ordered) (hlen : log.length ≤ maxProfSamples) :
    (((reportOf f log).map Stats.summary).map Summary.count).getD 0 = (closedOf log).length := by
  rw [← tallyOf_count hordered hlen]
  unfold reportOf
  split
  case isTrue => rfl
  case isFalse hnone => exact (Nat.eq_zero_of_not_pos hnone).symm

/-- One function is reported as it was called exactly if no call of it completed around another one. -/
theorem report_iff (f : ℕ) (hn : WellNested trace) (ht : Timed trace) (hlen : (logOf f trace).length ≤ maxProfSamples)
    (hshort : ∀ duration ∈ durationsOf f trace, duration < 2 ^ 32) :
    (reportOf f (logOf f trace)).map Stats.summary = summaryOf (durationsOf f trace) ↔ Simple f trace := by
  have hmatched := matched f hn ht
  have hordered := (logOf_ordered f ht).1
  constructor
  · intro h
    by_contra hs
    have hcount := summaryOf_count (durationsOf f trace)
    rw [← h,reportOf_count f hordered hlen,durationsOf,List.length_map,List.length_reverse] at hcount
    exact absurd hcount (hmatched.lt hs).ne
  · intro hs
    have hsame : closedDurations (logOf f trace) = durationsOf f trace := by
      unfold closedDurations durationsOf
      rw [hmatched.closed hs]
    rw [← hsame] at hshort ⊢
    exact reportOf_summary f hordered hlen hshort

theorem length_logOf_le (hp : Started funcList p) (hroom : trackedEntries funcList trace ≤ maxProfSamples) {f : ℕ}
    (hf : f ∈ funcList) : (logOf f trace).length ≤ maxProfSamples := by
  obtain ⟨slots,logs,hchains,hlogs,-⟩ := profile_chains hp hroom
  obtain ⟨i,hi⟩ := List.getElem?_of_mem hf
  have hheld := hchains.held i f hi
  rw [← hlogs f hf,← hheld.samples,List.length_map]
  exact hheld.length_le.trans hchains.room

/-- The read-out reports the calls exactly if no call of a tracked function completed around another one of the
same function. -/
theorem profGetStats_reports_iff (hp : Started funcList p) (hn : WellNested trace) (ht : Timed trace)
    (hroom : trackedEntries funcList trace ≤ maxProfSamples)
    (hshort : ∀ f ∈ funcList, ∀ duration ∈ durationsOf f trace, duration < 2 ^ 32) {fuel count : ℕ}
    (hcount : funcList.length ≤ count) (hfuel : maxProfSamples ≤ fuel) :
    (∃ q stats, profGetStats fuel count (profile p trace) = some (q,stats) ∧ Reports funcList trace stats) ↔
      ∀ f ∈ funcList, Simple f trace := by
  obtain ⟨q,hstats⟩ := profGetStats_profile hp hroom hcount hfuel
  have hreports : Reports funcList trace (funcList.filterMap fun f => reportOf f (logOf f trace)) ↔
      ∀ f ∈ funcList, Simple f trace := by
    unfold Reports
    refine forall_congr' fun f => ?_
    rw [filter_reports (fun g s => reportOf_addr) hp.indexed.nodup]
    by_cases hf : f ∈ funcList
    · rw [if_pos hf,if_pos hf,toList_map_eq_iff,report_iff f hn ht (length_logOf_le hp hroom hf) (hshort f hf)]
      exact ⟨fun h _ => h,fun h => h hf⟩
    · rw [if_neg hf,if_neg hf]
      exact iff_of_true rfl fun hf' => absurd hf' hf
  rw [← hreports]
  constructor
  · rintro ⟨q',stats,heq,hr⟩
    obtain rfl := (Prod.mk.inj (Option.some.inj (hstats.symm.trans heq))).2
    exact hr
  · exact fun hr => ⟨q,_,hstats,hr⟩

/-- Two tracked functions. -/
def bootFuncList : List ℕ := [0x1000,0x2000]

theorem boot_isSome : (initProfiler true bootFuncList).isSome = true := by decide +kernel

def bootProfiler : Profiler := (initProfiler true bootFuncList).get boot_isSome

theorem bootProfiler_started : Started bootFuncList bootProfiler :=
  initProfiler_started (Option.some_get boot_isSome).symm

/-- A call inside another one, of another function. -/
def nestedTrace : List Event := [.enter 0x1000 10,.enter 0x2000 20,.enter 0x3000 25,.exit 0x3000 28,.exit 0x2000 30,
  .exit 0x1000 50,.enter 0x2000 60,.exit 0x2000 70]

theorem profGetStats_reports_iff_nested :
    (∃ q stats, profGetStats 1024 2 (profile bootProfiler nestedTrace) = some (q,stats) ∧
      Reports bootFuncList nestedTrace stats) ↔ ∀ f ∈ bootFuncList, Simple f nestedTrace :=
  profGetStats_reports_iff bootProfiler_started (by decide) ⟨by decide,by decide⟩ (by decide) (by decide) (by decide)
    (by decide)

/-- A function that calls itself. -/
def recursiveTrace : List Event := [.enter 0x1000 10,.enter 0x1000 20,.exit 0x1000 30,.exit 0x1000 40]

theorem recursive_not_reported : ¬∃ q stats, profGetStats 1024 2 (profile bootProfiler recursiveTrace) =
    some (q,stats) ∧
    Reports bootFuncList recursiveTrace stats := by
  rintro ⟨q,stats,hstats,hreports⟩
  obtain ⟨q',hread⟩ : ∃ q', profGetStats 1024 2 (profile bootProfiler recursiveTrace) =
      some (q',bootFuncList.filterMap fun f => reportOf f (logOf f recursiveTrace)) :=
    profGetStats_profile bootProfiler_started (by decide) (by decide) (by decide)
  obtain rfl := (Prod.mk.inj (Option.some.inj (hread.symm.trans hstats))).2
  have hfirst := hreports 0x1000
  revert hfirst
  decide

end Reports

end EmbedTemplate.Profiling
