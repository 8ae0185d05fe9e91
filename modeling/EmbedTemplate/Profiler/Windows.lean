import EmbedTemplate.Profiler.Statistics

/-! # The windows between read-outs

A read-out closes a window of calls and starts the next one, on empty lists and a pool that is
clean again. The read-out of a window without a sample returns early and leaves the profiling
stopped.
-/
namespace EmbedTemplate.Profiling
open Bytes

/-- The events of calls that do not overlap. -/
def traceOf (window : List Call) : List Event :=
  window.flatMap fun call => [.enter call.funcAddr call.entryTs,.exit call.funcAddr call.exitTs]

/-- The calls of a window that find a sample: the first tracked ones. -/
def sampled (funcList : List ℕ) (window : List Call) : List Call :=
  (window.filter fun call => call.funcAddr ∈ funcList).take maxProfSamples

/-- The durations of the calls of a function. -/
def windowDurations (f : ℕ) (window : List Call) : List ℕ :=
  (window.filter fun call => call.funcAddr = f).map fun call => call.exitTs - call.entryTs

/-- Each function is reported with the summary of its calls that have found a sample, and no others are. -/
def ReportsWindow (funcList : List ℕ) (window : List Call) (stats : List Stats) : Prop := ∀ f,
  (stats.filter fun s => s.funcAddr = f).map Stats.summary =
    (summaryOf (windowDurations f (sampled funcList window))).toList

/-- Profiling is running on empty lists. -/
structure Running (funcList : List ℕ) (p : Profiler) : Prop where
  nextSample : p.nextSample ≠ profStopMark
  head : ∀ i < funcList.length, (p.profTable i).head = none
  tail : ∀ i < funcList.length, (p.profTable i).tail = none

/-- Every read-out reports the calls of its window, and leaves the profiling running. -/
def Accounts (funcList : List ℕ) (fuel count : ℕ) : Profiler → List (List Call) → Prop
  | _, [] => True
  | p, window :: windows => ∃ q stats, profGetStats fuel count (profile p (traceOf window)) = some (q,stats) ∧
      ReportsWindow funcList window stats ∧ Running funcList q ∧ Accounts funcList fuel count q windows

/-- The times of a call are not zero, its exit is not before its entry, and it takes less than 2 ^ 32. -/
def Call.Measured (call : Call) : Prop :=
  call.entryTs ≠ 0 ∧ call.exitTs ≠ 0 ∧ call.entryTs ≤ call.exitTs ∧ call.exitTs - call.entryTs < 2 ^ 32

instance (call : Call) : Decidable call.Measured := by
  unfold Call.Measured
  infer_instance

/-- A window with a tracked call, and with proper times of those that find a sample. -/
def Accountable (funcList : List ℕ) (window : List Call) : Prop :=
  (∃ call ∈ window, call.funcAddr ∈ funcList) ∧ ∀ call ∈ sampled funcList window, call.Measured

instance (funcList : List ℕ) (window : List Call) : Decidable (Accountable funcList window) := by
  unfold Accountable
  infer_instance

/-- The calls of a function as a log, newest first. -/
def logFor (f : ℕ) (window : List Call) : Log :=
  ((window.filter fun call => call.funcAddr = f).map fun call => (call.entryTs,call.exitTs)).reverse

def Profiler.stopped (p : Profiler) : Profiler := { p with nextSample := profStopMark }

/-- A call as the two events that it is. -/
def Profiler.call (p : Profiler) (call : Call) : Profiler :=
  cygProfileFuncExit call.funcAddr call.exitTs (cygProfileFuncEnter call.funcAddr call.entryTs p)

section Window
variable {funcList : List ℕ} {p q : Profiler} {slots : ℕ → List ℕ} {logs : ℕ → Log} {window : List Call} {call : Call}

theorem profile_snoc (p : Profiler) (window : List Call) (call : Call) :
    profile p (traceOf (window ++ [call])) = (profile p (traceOf window)).call call := by
  unfold profile traceOf
  rw [List.flatMap_append,List.foldl_append]
  rfl

theorem logFor_snoc (f : ℕ) (window : List Call) (call : Call) : logFor f (window ++ [call]) =
    if call.funcAddr = f then (call.entryTs,call.exitTs) :: logFor f window else logFor f window := by
  unfold logFor
  by_cases hf : call.funcAddr = f
  · simp [hf]
  · simp [hf]

/-- The counter and the lists behind the calls of a window. -/
structure Windowed (funcList : List ℕ) (window : List Call) (p q : Profiler) (logs : ℕ → Log) : Prop where
  logs : ∀ f ∈ funcList, logs f = logFor f (sampled funcList window)
  nextSample : q.nextSample = (sampled funcList window).length
  state : p = if (window.filter fun call => call.funcAddr ∈ funcList).length ≤ maxProfSamples then q else q.stopped

theorem call_untracked (h : getFuncNodeIndex p call.funcAddr = none) : p.call call = p := by
  unfold Profiler.call
  rw [enter_untracked h,exit_untracked h]

theorem call_stopped (h : p.nextSample = profStopMark) (call : Call) : p.call call = p := by
  have henter : ∀ ts, cygProfileFuncEnter call.funcAddr ts p = p := by
    intro ts
    unfold cygProfileFuncEnter
    split
    · rfl
    · exact if_pos h
  unfold Profiler.call
  rw [henter]
  unfold cygProfileFuncExit
  split
  · rfl
  · exact if_pos h

theorem call_full {i : ℕ} (hlook : getFuncNodeIndex p call.funcAddr = some i) (h : p.nextSample = maxProfSamples) :
    p.call call = p.stopped := by
  have henter : cygProfileFuncEnter call.funcAddr call.entryTs p = p.stopped := by
    unfold cygProfileFuncEnter
    have hne : maxProfSamples ≠ profStopMark := by decide
    simp only [hlook,h,if_neg hne,ge_iff_le,le_refl,if_true]
    rfl
  unfold Profiler.call
  rw [henter]
  unfold cygProfileFuncExit
  split
  · rfl
  · exact if_pos rfl

/-- A call that finds a sample is the newest one of its function. -/
theorem Chains.called (h : Chains funcList q slots logs) (hcall : call.funcAddr ∈ funcList)
    (hroom : q.nextSample < maxProfSamples) : ∃ slots' logs', Chains funcList (q.call call) slots' logs' ∧
      (∀ f ∈ funcList, logs' f = if call.funcAddr = f then (call.entryTs,call.exitTs) :: logs f else logs f) ∧
      (q.call call).nextSample = q.nextSample + 1 := by
  obtain ⟨i,hi⟩ := List.getElem?_of_mem hcall
  have hentered := h.enter hi hroom call.entryTs
  refine ⟨_,_,hentered.exit hi call.exitTs,fun f _ => ?_,?_⟩
  · by_cases hf : call.funcAddr = f
    · subst hf
      rw [Function.update_self,Function.update_self,if_pos rfl]
      exact if_pos rfl
    · rw [Function.update_of_ne (Ne.symm hf),Function.update_of_ne (Ne.symm hf),if_neg hf]
  · unfold Profiler.call
    rw [exit_nextSample]
    exact (h.entered hi hroom call.entryTs).nextSample

theorem sampled_full (hcall : call.funcAddr ∉ funcList ∨
    maxProfSamples ≤ (window.filter fun call => call.funcAddr ∈ funcList).length) :
    sampled funcList (window ++ [call]) = sampled funcList window := by
  unfold sampled
  rw [List.filter_append,List.take_append]
  rcases hcall with hcall | hfull
  · simp [hcall]
  · simp [Nat.sub_eq_zero_of_le hfull]

theorem sampled_room (hcall : call.funcAddr ∈ funcList)
    (hroom : (window.filter fun call => call.funcAddr ∈ funcList).length < maxProfSamples) :
    sampled funcList (window ++ [call]) = sampled funcList window ++ [call] := by
  unfold sampled
  rw [List.filter_append,List.take_append]
  congr 1
  rw [List.filter_cons_of_pos (by simpa using hcall)]
  apply List.take_of_length_le
  simp only [List.length_cons,List.filter_nil,List.length_nil]
  omega

theorem Windowed.unsampled {r : Profiler} (h : Windowed funcList window p q logs)
    (hsame : sampled funcList (window ++ [call]) = sampled funcList window)
    (hstate : r = if ((window ++ [call]).filter fun call => call.funcAddr ∈ funcList).length ≤ maxProfSamples then q
      else q.stopped) : Windowed funcList (window ++ [call]) r q logs := by
  refine ⟨fun f hf => ?_,?_,hstate⟩
  · rw [h.logs f hf,hsame]
  · rw [h.nextSample,hsame]

theorem windowed_profile (hp : Started funcList p) (window : List Call) :
    ∃ q slots logs, Chains funcList q slots logs ∧ Windowed funcList window (profile p (traceOf window)) q logs := by
  induction window using List.reverseRecOn with
  | nil => exact ⟨p,_,_,hp.chains,fun f _ => rfl,hp.nextSample,rfl⟩
  | append_singleton window call ih =>
    obtain ⟨q,slots,logs,hchains,hwindow⟩ := ih
    have hlogs := hwindow.logs
    have hnext := hwindow.nextSample
    have hstate := hwindow.state
    have hlength : (window ++ [call]).filter (fun call => call.funcAddr ∈ funcList) =
        window.filter (fun call => call.funcAddr ∈ funcList) ++ if call.funcAddr ∈ funcList then [call] else [] := by
      rw [List.filter_append]
      by_cases hcall : call.funcAddr ∈ funcList <;> simp [hcall]
    have hmin : (sampled funcList window).length =
        min maxProfSamples (window.filter fun call => call.funcAddr ∈ funcList).length := List.length_take ..
    rw [profile_snoc]
    by_cases hcall : call.funcAddr ∈ funcList
    · rw [if_pos hcall] at hlength
      obtain ⟨i,hi⟩ := List.getElem?_of_mem hcall
      rcases Nat.lt_trichotomy (window.filter fun call => call.funcAddr ∈ funcList).length maxProfSamples with
        hroom | hfull | hover
      · rw [if_pos hroom.le] at hstate
        obtain ⟨slots',logs',hchains',hlogs',hnext'⟩ := hchains.called hcall (by omega)
        refine ⟨_,slots',logs',hchains',fun f hf => ?_,?_,?_⟩
        · rw [hlogs' f hf,hlogs f hf,sampled_room hcall hroom,logFor_snoc]
        · rw [hnext',hnext,sampled_room hcall hroom,List.length_append]
          rfl
        · rw [hlength,hstate,if_pos]
          rw [List.length_append]
          exact hroom
      · rw [if_pos hfull.le] at hstate
        refine ⟨q,slots,logs,hchains,hwindow.unsampled (sampled_full (.inr hfull.ge)) ?_⟩
        rw [hstate,call_full ((hchains.indexed.lookup i _).mpr hi) (by omega),hlength,if_neg]
        rw [List.length_append,hfull]
        exact Nat.not_succ_le_self _
      · rw [if_neg (Nat.not_le_of_lt hover)] at hstate
        refine ⟨q,slots,logs,hchains,hwindow.unsampled (sampled_full (.inr hover.le)) ?_⟩
        rw [hstate,call_stopped rfl,hlength,if_neg]
        rw [List.length_append]
        exact Nat.not_le_of_lt (Nat.lt_succ_of_lt hover)
    · rw [if_neg hcall,List.append_nil] at hlength
      have hnone : getFuncNodeIndex q call.funcAddr = none := hchains.indexed.untracked hcall
      refine ⟨q,slots,logs,hchains,hwindow.unsampled (sampled_full (.inl hcall)) ?_⟩
      rw [hlength,← hstate]
      apply call_untracked
      rw [hstate]
      split
      · exact hnone
      · exact hnone

/-- The read-out of a full pool does not depend on whether the counter was stopped. -/
theorem profGetStats_stopped (h : q.nextSample = maxProfSamples) (fuel count : ℕ) :
    profGetStats fuel count q.stopped = profGetStats fuel count q := by
  unfold profGetStats profStop Profiler.stopped
  have hge : profStopMark ≥ maxProfSamples := by decide
  simp only [h,if_pos hge,ge_iff_le,le_refl,if_true]

theorem Chains.restarted (h : Chains funcList q slots logs) :
    Started funcList (profStart q.nextSample q.stopped) := by
  have hroom := h.room
  have hin : ∀ i < funcList.length, i < q.stopped.numFunctions := fun i hi =>
    hi.trans_eq h.indexed.numFunctions.symm
  unfold profStart
  rw [if_pos (show q.stopped.nextSample = profStopMark from rfl)]
  constructor
  case indexed =>
    apply SameIndex.indexed _ h.indexed
    refine SameIndex.mk' ⟨rfl,rfl,rfl,rfl,rfl⟩ fun i => ?_
    dsimp only
    split <;> rfl
  case nextSample => rfl
  case head =>
    intro i hi
    dsimp only
    rw [if_pos (hin i hi)]
  case tail =>
    intro i hi
    dsimp only
    rw [if_pos (hin i hi)]
  case clean =>
    intro k
    dsimp only
    split
    · split
      · rfl
      · exact h.clean k (by omega)
    · split
      · rfl
      · exact h.clean k (by omega)

/-- No call of a window has a sample exactly if none of its functions is tracked. -/
theorem sampled_eq_nil : sampled funcList window = [] ↔ ¬∃ call ∈ window, call.funcAddr ∈ funcList := by
  unfold sampled
  rw [List.take_eq_nil_iff,or_iff_right (by decide),List.filter_eq_nil_iff]
  simp

/-- The samples that the read-out counts. -/
def timedOf (log : Log) : Log := log.filter fun sample => sample.1 ≠ 0 ∧ sample.2 ≠ 0 ∧ sample.2 ≥ sample.1

theorem tallyOf_timed (log : Log) : tallyOf (timedOf log) = tallyOf log := by
  unfold tallyOf timedOf
  rw [← List.filter_reverse,List.foldl_filter]
  congr 1
  funext t sample
  by_cases hproper : sample.1 ≠ 0 ∧ sample.2 ≠ 0 ∧ sample.2 ≥ sample.1
  · rw [if_pos (decide_eq_true hproper)]
  · rw [if_neg fun h => hproper (of_decide_eq_true h)]
    exact (if_neg hproper).symm

theorem timedOf_spec {log : Log} {sample : ℕ × ℕ} (h : sample ∈ timedOf log) :
    sample.1 ≠ 0 ∧ sample.2 ≠ 0 ∧ sample.2 ≥ sample.1 := of_decide_eq_true (List.mem_filter.mp h).2

theorem timedOf_ordered (log : Log) : (timedOf log).Ordered := fun _ hsample _ =>
  have hproper := timedOf_spec hsample
  ⟨hproper.1,hproper.2.2⟩

theorem closedOf_timed (log : Log) : closedOf (timedOf log) = timedOf log :=
  List.filter_eq_self.mpr fun _ hsample => decide_eq_true (timedOf_spec hsample).2.1

/-- The count that is reported is that of the samples with proper times. -/
theorem reportOf_timed (f : ℕ) {log : Log} (hlen : log.length ≤ maxProfSamples) :
    (((reportOf f log).map Stats.summary).map Summary.count).getD 0 = (timedOf log).length := by
  have hsame : reportOf f (timedOf log) = reportOf f log := by
    unfold reportOf
    rw [tallyOf_timed]
  rw [← hsame,reportOf_count f (timedOf_ordered log) ((List.length_filter_le ..).trans hlen),closedOf_timed]

/-- Minimum and maximum are reported in 32 bits. -/
theorem reportOf_greatest {f : ℕ} {log : Log} {summary : Summary} (h : (reportOf f log).map Stats.summary = some summary) :
    summary.greatest < 2 ^ 32 := by
  obtain ⟨s,hs,rfl⟩ := Option.map_eq_some_iff.mp h
  unfold reportOf at hs
  split at hs
  case isTrue =>
    obtain rfl := Option.some.inj hs
    exact Nat.mod_lt _ (by decide)
  case isFalse => cases hs

theorem le_greatest {durations : List ℕ} {duration : ℕ} (h : duration ∈ durations) :
    ∃ summary, summaryOf durations = some summary ∧ duration ≤ summary.greatest := by
  have hne := List.ne_nil_of_mem h
  obtain ⟨least,hleast⟩ := Option.isSome_iff_exists.mp (List.isSome_min?_iff.mpr hne)
  obtain ⟨greatest,hgreatest⟩ := Option.isSome_iff_exists.mp (List.isSome_max?_iff.mpr hne)
  refine ⟨⟨durations.length,least,greatest,durations.sum / durations.length⟩,?_,?_⟩
  · unfold summaryOf
    rw [hleast,hgreatest]
  · exact (List.max?_eq_some_iff.mp hgreatest).2 duration h

theorem mem_logFor {f : ℕ} {sample : ℕ × ℕ} :
    sample ∈ logFor f window ↔ ∃ call ∈ window, call.funcAddr = f ∧ (call.entryTs,call.exitTs) = sample := by
  unfold logFor
  rw [List.mem_reverse,List.mem_map]
  simp only [List.mem_filter,decide_eq_true_eq,and_assoc]

theorem logFor_durations (f : ℕ) (window : List Call) :
    (logFor f window).reverse.map (fun sample => sample.2 - sample.1) = windowDurations f window := by
  unfold logFor windowDurations
  rw [List.reverse_reverse,List.map_map]
  rfl

/-- A function is reported with the summary of its calls exactly if all of them have proper times. -/
theorem report_window_iff (f : ℕ) (hlen : window.length ≤ maxProfSamples) :
    (reportOf f (logFor f window)).map Stats.summary = summaryOf (windowDurations f window) ↔
      ∀ call ∈ window, call.funcAddr = f → call.Measured := by
  have hshort : (logFor f window).length ≤ maxProfSamples := by
    unfold logFor
    rw [List.length_reverse,List.length_map]
    exact (List.length_filter_le ..).trans hlen
  constructor
  · intro hreport call hcall hf
    have hmem : (call.entryTs,call.exitTs) ∈ logFor f window := mem_logFor.mpr ⟨call,hcall,hf,rfl⟩
    have hcount := reportOf_timed f hshort
    rw [hreport,summaryOf_count,← logFor_durations,List.length_map,List.length_reverse] at hcount
    have hproper : call.entryTs ≠ 0 ∧ call.exitTs ≠ 0 ∧ call.exitTs ≥ call.entryTs :=
      of_decide_eq_true (List.length_filter_eq_length_iff.mp hcount.symm _ hmem)
    have hduration : call.exitTs - call.entryTs ∈ windowDurations f window := by
      rw [← logFor_durations]
      exact List.mem_map.mpr ⟨_,List.mem_reverse.mpr hmem,rfl⟩
    obtain ⟨summary,hsummary,hle⟩ := le_greatest hduration
    exact ⟨hproper.1,hproper.2.1,hproper.2.2,hle.trans_lt (reportOf_greatest (hreport.trans hsummary))⟩
  · intro hmeasured
    have hall : ∀ sample ∈ logFor f window, sample.1 ≠ 0 ∧ sample.2 ≠ 0 ∧ sample.1 ≤ sample.2 ∧
        sample.2 - sample.1 < 2 ^ 32 := by
      intro sample hsample
      obtain ⟨call,hcall,hf,rfl⟩ := mem_logFor.mp hsample
      exact hmeasured call hcall hf
    have hclosed : closedDurations (logFor f window) = windowDurations f window := by
      have hself : closedOf (logFor f window) = logFor f window :=
        List.filter_eq_self.mpr fun sample hsample => decide_eq_true (hall sample hsample).2.1
      unfold closedDurations
      rw [hself,logFor_durations]
    rw [← hclosed]
    refine reportOf_summary f (fun sample hsample _ => ⟨(hall sample hsample).1,(hall sample hsample).2.2.1⟩) hshort ?_
    intro duration hduration
    rw [hclosed,← logFor_durations] at hduration
    obtain ⟨sample,hsample,rfl⟩ := List.mem_map.mp hduration
    exact (hall sample (List.mem_reverse.mp hsample)).2.2.2

theorem sampled_tracked (h : call ∈ sampled funcList window) : call.funcAddr ∈ funcList := by
  unfold sampled at h
  exact of_decide_eq_true (List.mem_filter.mp (List.mem_of_mem_take h)).2

/-- The statistics of the logs are those of the window exactly if the times of its sampled calls are proper. -/
theorem reportsWindow_iff (hnodup : funcList.Nodup) (window : List Call) :
    ReportsWindow funcList window (funcList.filterMap fun f => reportOf f (logFor f (sampled funcList window))) ↔
      ∀ call ∈ sampled funcList window, call.Measured := by
  have hlen : (sampled funcList window).length ≤ maxProfSamples := List.length_take_le ..
  have hone : ∀ f, (((funcList.filterMap fun f => reportOf f (logFor f (sampled funcList window))).filter
      fun s => s.funcAddr = f).map Stats.summary = (summaryOf (windowDurations f (sampled funcList window))).toList ↔
        ∀ call ∈ sampled funcList window, call.funcAddr = f → call.Measured) := by
    intro f
    rw [filter_reports (fun g s => reportOf_addr) hnodup]
    by_cases hf : f ∈ funcList
    · rw [if_pos hf,toList_map_eq_iff,report_window_iff f hlen]
    · rw [if_neg hf]
      have hnone : (sampled funcList window).filter (fun call => call.funcAddr = f) = [] := by
        rw [List.filter_eq_nil_iff]
        intro call hcall hfor
        exact hf (of_decide_eq_true hfor ▸ sampled_tracked hcall)
      refine iff_of_true ?_ fun call hcall hfor => absurd (hfor ▸ sampled_tracked hcall) hf
      unfold windowDurations
      rw [hnone]
      rfl
  unfold ReportsWindow
  simp only [hone]
  exact ⟨fun h call hcall => h call.funcAddr call hcall rfl,fun h f call hcall _ => h call hcall⟩

/-- The read-out of a window with a tracked call reads the logs of the window and starts the next one. -/
theorem readOut_tracked (hp : Started funcList p) (htracked : ∃ call ∈ window, call.funcAddr ∈ funcList) {fuel count : ℕ}
    (hcount : funcList.length ≤ count) (hfuel : maxProfSamples ≤ fuel) :
    ∃ q, profGetStats fuel count (profile p (traceOf window)) =
      some (q,funcList.filterMap fun f => reportOf f (logFor f (sampled funcList window))) ∧ Started funcList q := by
  obtain ⟨q,slots,logs,hchains,hlogs,hnext,hstate⟩ := windowed_profile hp window
  have hsome : q.nextSample ≠ 0 := by
    rw [hnext]
    intro hzero
    exact sampled_eq_nil.mp (List.length_eq_zero_iff.mp hzero) htracked
  have hsame : profGetStats fuel count (profile p (traceOf window)) = profGetStats fuel count q := by
    rw [hstate]
    split
    case isTrue => rfl
    case isFalse hover =>
      apply profGetStats_stopped
      rw [hnext,sampled,List.length_take]
      exact min_eq_left (Nat.le_of_not_le hover)
  have hstats : (funcList.filterMap fun f => reportOf f (logs f)) =
      funcList.filterMap fun f => reportOf f (logFor f (sampled funcList window)) := by
    apply List.filterMap_congr
    intro f hf
    rw [hlogs f hf]
  refine ⟨_,?_,hchains.restarted⟩
  rw [hsame,hchains.profGetStats hsome hcount hfuel,hstats]
  rfl

/-- The read-out of a window without a tracked call leaves the profiling stopped. -/
theorem readOut_untracked (hp : Started funcList p) (hnone : ¬∃ call ∈ window, call.funcAddr ∈ funcList)
    (fuel count : ℕ) :
    ∃ q, profGetStats fuel count (profile p (traceOf window)) = some (q,[]) ∧ q.nextSample = profStopMark := by
  obtain ⟨q,slots,logs,hchains,hlogs,hnext,hstate⟩ := windowed_profile hp window
  have hzero : q.nextSample = 0 := by
    rw [hnext,sampled_eq_nil.mpr hnone]
    rfl
  have hshort : (window.filter fun call => call.funcAddr ∈ funcList).length ≤ maxProfSamples := by
    have hnil : (window.filter fun call => call.funcAddr ∈ funcList) = [] := by
      rw [List.filter_eq_nil_iff]
      simpa using hnone
    rw [hnil]
    exact Nat.zero_le _
  rw [hstate,if_pos hshort]
  refine ⟨q.stopped,?_,rfl⟩
  unfold profGetStats profStop
  simp only [hzero]
  rfl

theorem Started.running (hp : Started funcList p) : Running funcList p := by
  refine ⟨?_,hp.head,hp.tail⟩
  rw [hp.nextSample]
  decide

/-- The windows partition the run exactly if each of them has a tracked call, and proper times. -/
theorem accounts_iff (hp : Started funcList p) {fuel count : ℕ} (hcount : funcList.length ≤ count)
    (hfuel : maxProfSamples ≤ fuel) (windows : List (List Call)) : Accounts funcList fuel count p windows ↔
      ∀ window ∈ windows, Accountable funcList window := by
  induction windows generalizing p with
  | nil => exact ⟨fun _ window hmem => absurd hmem List.not_mem_nil,fun _ => trivial⟩
  | cons window windows ih =>
    rw [List.forall_mem_cons]
    constructor
    · rintro ⟨q,stats,hread,hreports,hrunning,hrest⟩
      have htracked : ∃ call ∈ window, call.funcAddr ∈ funcList := by
        by_contra hnone
        obtain ⟨q',hstop,hmark⟩ := readOut_untracked hp hnone fuel count
        obtain rfl := (Prod.mk.inj (Option.some.inj (hread.symm.trans hstop))).1
        exact hrunning.nextSample hmark
      obtain ⟨q',hstart,hq⟩ := readOut_tracked hp htracked hcount hfuel
      obtain ⟨rfl,rfl⟩ := Prod.mk.inj (Option.some.inj (hread.symm.trans hstart))
      exact ⟨⟨htracked,(reportsWindow_iff hp.indexed.nodup window).mp hreports⟩,(ih hq).mp hrest⟩
    · rintro ⟨⟨htracked,hmeasured⟩,hrest⟩
      obtain ⟨q,hread,hq⟩ := readOut_tracked hp htracked hcount hfuel
      exact ⟨q,_,hread,(reportsWindow_iff hp.indexed.nodup window).mpr hmeasured,hq.running,(ih hq).mpr hrest⟩

end Window

/-- Two windows with calls of both functions, and of a function that is not tracked. -/
def busyWindows : List (List Call) := [[⟨0x1000,10,20⟩,⟨0x3000,25,30⟩],[⟨0x2000,40,50⟩,⟨0x1000,60,65⟩]]

theorem accounts_iff_busy : Accounts bootFuncList 1024 2 bootProfiler busyWindows :=
  (accounts_iff bootProfiler_started (by decide) (by decide) busyWindows).mpr (by decide)

/-- A query before the first call stops the profiling, and the next query misses a call. -/
theorem early_query_misses : ¬Accounts bootFuncList 1024 2 bootProfiler [[],[⟨0x1000,10,20⟩]] := by
  rintro ⟨q,stats,hread,-,hrunning,-⟩
  obtain ⟨q',hstop,hmark⟩ := @readOut_untracked _ _ [] bootProfiler_started (by simp) 1024 2
  obtain rfl := (Prod.mk.inj (Option.some.inj (hread.symm.trans hstop))).1
  exact hrunning.nextSample hmark

end EmbedTemplate.Profiling
