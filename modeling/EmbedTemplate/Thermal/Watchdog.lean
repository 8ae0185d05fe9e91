import EmbedTemplate.Thermal.Frame

/-! # The timeout of the watchdog

The driver turns a timeout into a prescaler and a reload value of eight bits; the simulated
hardware counts the reload value down in every tick of a millisecond, whatever the prescaler says.
-/
namespace EmbedTemplate.Thermal
open Gpio Bytes

/-- What happens to a watchdog that has been set up. -/
inductive WdtEvent
  | tick
  | kick
  deriving DecidableEq

def wdtStep (p : Plant) : WdtEvent → Plant
  | .tick => tick p
  | .kick => { p with gpio := gpioWdtKick p.gpio }

def armed (p : Plant) (timeoutMs : BitVec 32) : Plant := { p with gpio := gpioWdtSetup p.gpio timeoutMs }

/-- The plant behind some events. -/
def watched (p : Plant) (events : List WdtEvent) : Plant := events.foldl wdtStep p

/-- The milliseconds since the last kick, or since the setup. -/
def sinceKick (events : List WdtEvent) : ℕ :=
  events.foldl (fun elapsed event => match event with | .tick => elapsed + 1 | .kick => 0) 0

/-- The tick of the prescaler in milliseconds: 1, 10 or 100. -/
def tickMs (r : GpioCtrl) : ℕ := 10 ^ (load 2 r.wdtCfg).toNat

/-- A timeout down to whole ticks of the prescaler. -/
def roundedMs (p : Plant) (timeoutMs : BitVec 32) : ℕ :=
  timeoutMs.toNat / tickMs (armed p timeoutMs).gpio * tickMs (armed p timeoutMs).gpio

/-- The outputs are forced once the timeout is over, and no later than one tick of the prescaler behind it. -/
structure TimesOut (p : Plant) (timeoutMs : BitVec 32) (events : List WdtEvent) : Prop where
  early : ∀ before after, events = before ++ .tick :: after → (watched (armed p timeoutMs) before).fires = true →
    roundedMs p timeoutMs ≤ sinceKick before
  late : ∀ before after, events = before ++ .tick :: after →
    timeoutMs.toNat + tickMs (armed p timeoutMs).gpio ≤ sinceKick before + 1 →
      (watched (armed p timeoutMs) before).fires = true

section Registers
variable (r : GpioCtrl) (timeoutMs : BitVec 32)

/-- The reload value of a timeout, which is cut to eight bits. -/
def reloadFor : ℕ := if timeoutMs.toNat < 255 then timeoutMs.toNat else timeoutMs.toNat / 10 % 256

theorem load_load (v : BitVec 32) (width : ℕ) : load width (load width v) = load width v := by
  unfold load
  rw [BitVec.and_assoc,BitVec.and_self]

theorem gpioWdtSetup_reload : (load 8 (gpioWdtSetup r timeoutMs).wdtReload).toNat = reloadFor timeoutMs := by
  have hlt := timeoutMs.isLt
  unfold gpioWdtSetup reloadFor
  by_cases hms : timeoutMs.toNat < 255
  · simp only [hms,if_true]
    rw [load_store,toNat_load]
    omega
  · simp only [hms,if_false]
    rw [load_store,toNat_load,BitVec.toNat_ofNat]
    omega

theorem gpioWdtSetup_timer : load 8 (gpioWdtSetup r timeoutMs).wdtVal =
    load 8 (gpioWdtSetup r timeoutMs).wdtReload := by
  unfold gpioWdtSetup
  rw [load_store,load_load]

theorem gpioWdtSetup_enabled : wdtEn (gpioWdtSetup r timeoutMs) = true := by
  simp [wdtEn,gpioWdtSetup,storeBit]

theorem gpioWdtSetup_tickMs : tickMs (gpioWdtSetup r timeoutMs) = if timeoutMs.toNat < 255 then 1 else 10 := by
  unfold tickMs gpioWdtSetup
  rw [load_storeBit _ _ (by decide),load_store]
  have hzero : 10 ^ (load 2 0).toNat = 1 := by decide
  have hone : 10 ^ (load 2 1).toNat = 10 := by decide
  split
  · exact hzero
  · exact hone

theorem tick_wdtReload (p : Plant) : (tick p).gpio.wdtReload = p.gpio.wdtReload := by
  have halarm : ∀ p : Plant, (alarm p).1.gpio.wdtReload = p.gpio.wdtReload := by
    intro p
    unfold alarm
    dsimp only
    split
    · split <;> rfl
    · rfl
  have hwatch : ∀ p : Plant, (watchdog p).gpio.wdtReload = p.gpio.wdtReload := by
    intro p
    unfold watchdog
    split
    · split <;> rfl
    · rfl
  rw [tick_eq,hwatch,(sensor_kept _ _).2,halarm]
  rfl

end Registers

section Countdown
variable {p : Plant} {timeoutMs : BitVec 32} {events : List WdtEvent}

/-- The timer holds what is left of `n` ticks since the last kick. -/
structure Counting (n elapsed : ℕ) (p : Plant) : Prop where
  enabled : wdtEn p.gpio = true
  reload : (load 8 p.gpio.wdtReload).toNat = n
  timer : (load 8 p.gpio.wdtVal).toNat = n - elapsed

theorem Counting.tick {n elapsed : ℕ} (h : Counting n elapsed p) : Counting n (elapsed + 1) (tick p) where
  enabled := tick_wdt.1.trans h.enabled
  reload := by
    rw [tick_wdtReload]
    exact h.reload
  timer := by
    rw [tick_wdt.2 h.enabled,h.timer]
    omega

theorem Counting.kick {n elapsed : ℕ} (h : Counting n elapsed p) : Counting n 0 (wdtStep p .kick) := by
  have hkick : gpioWdtKick p.gpio = { p.gpio with wdtVal := store 8 p.gpio.wdtVal (load 8 p.gpio.wdtReload) } :=
    if_pos h.enabled
  unfold wdtStep
  rw [hkick]
  refine ⟨h.enabled,h.reload,?_⟩
  rw [load_store,load_load]
  exact h.reload

theorem sinceKick_tick : sinceKick (events ++ [.tick]) = sinceKick events + 1 := by
  unfold sinceKick
  rw [List.foldl_append]
  rfl

theorem sinceKick_kick : sinceKick (events ++ [.kick]) = 0 := by
  unfold sinceKick
  rw [List.foldl_append]
  rfl

theorem counting_watched (p : Plant) (timeoutMs : BitVec 32) (events : List WdtEvent) :
    Counting (reloadFor timeoutMs) (sinceKick events) (watched (armed p timeoutMs) events) := by
  induction events using List.reverseRecOn with
  | nil =>
    refine ⟨gpioWdtSetup_enabled _ _,gpioWdtSetup_reload _ _,?_⟩
    have htimer := gpioWdtSetup_timer p.gpio timeoutMs
    exact (congrArg BitVec.toNat htimer).trans (gpioWdtSetup_reload _ _)
  | append_singleton events event ih =>
    unfold watched at ih ⊢
    rw [List.foldl_append]
    cases event with
    | tick =>
      rw [sinceKick_tick]
      exact ih.tick
    | kick =>
      rw [sinceKick_kick]
      exact ih.kick

/-- The outputs are forced once the reload value has been counted down. -/
theorem fires_iff (p : Plant) (timeoutMs : BitVec 32) (events : List WdtEvent) :
    (watched (armed p timeoutMs) events).fires = true ↔ reloadFor timeoutMs ≤ sinceKick events := by
  have h := counting_watched p timeoutMs events
  have hzero : load 8 (watched (armed p timeoutMs) events).gpio.wdtVal = 0 ↔
      (load 8 (watched (armed p timeoutMs) events).gpio.wdtVal).toNat = 0 :=
    ⟨fun hz => congrArg BitVec.toNat hz,fun hz => BitVec.eq_of_toNat_eq hz⟩
  unfold Plant.fires
  rw [h.enabled,Bool.true_and,decide_eq_true_iff,hzero,h.timer]
  omega

/-- A tick late behind a kick has one before it at any earlier moment. -/
theorem earlier_tick {before after : List WdtEvent} {n : ℕ} (hevents : events = before ++ .tick :: after)
    (hn : n ≤ sinceKick before) : ∃ before' after', events = before' ++ .tick :: after' ∧ sinceKick before' = n := by
  induction before using List.reverseRecOn generalizing after with
  | nil => exact ⟨[],after,hevents,(Nat.le_zero.mp hn).symm⟩
  | append_singleton before event ih =>
    by_cases heq : sinceKick (before ++ [event]) = n
    · exact ⟨_,_,hevents,heq⟩
    · cases event with
      | tick =>
        rw [sinceKick_tick] at hn heq
        refine @ih (.tick :: after) ?_ (by omega)
        rw [hevents,List.append_assoc]
        rfl
      | kick =>
        rw [sinceKick_kick] at hn heq
        omega

end Countdown

/-- The timeout is met exactly if it is one of milliseconds, or no tick comes so late behind a kick that
the reload value has been counted down. -/
theorem timesOut_iff (p : Plant) (timeoutMs : BitVec 32) (events : List WdtEvent) :
    TimesOut p timeoutMs events ↔ timeoutMs.toNat < 255 ∨
      ∀ before after, events = before ++ .tick :: after → sinceKick before < timeoutMs.toNat / 10 % 256 := by
  have htick : tickMs (armed p timeoutMs).gpio = if timeoutMs.toNat < 255 then 1 else 10 := gpioWdtSetup_tickMs _ _
  by_cases hms : timeoutMs.toNat < 255
  · refine iff_of_true ?_ (.inl hms)
    have hreload : reloadFor timeoutMs = timeoutMs.toNat := if_pos hms
    rw [if_pos hms] at htick
    constructor
    · intro before after _ hfires
      rw [fires_iff,hreload] at hfires
      unfold roundedMs
      rw [htick,Nat.div_one,Nat.mul_one]
      exact hfires
    · intro before after _ hlate
      rw [fires_iff,hreload]
      omega
  · have hreload : reloadFor timeoutMs = timeoutMs.toNat / 10 % 256 := if_neg hms
    have hrounded : roundedMs p timeoutMs = timeoutMs.toNat / 10 * 10 := by
      unfold roundedMs
      rw [htick,if_neg hms]
    rw [or_iff_right hms]
    constructor
    · intro h before after hevents
      by_contra hlate
      obtain ⟨before',after',hevents',helapsed⟩ := earlier_tick hevents (Nat.le_of_not_lt hlate)
      have hearly := h.early before' after' hevents' ((fires_iff p timeoutMs before').mpr (by omega))
      rw [hrounded] at hearly
      omega
    · intro h
      constructor
      · intro before after hevents hfires
        rw [fires_iff,hreload] at hfires
        exact absurd (h before after hevents) (by omega)
      · intro before after hevents hlate
        rw [htick,if_neg hms] at hlate
        have hbefore := h before after hevents
        omega

/-- A timeout of 300 ms is over after 30. -/
theorem threeHundred_not_timesOut : ¬TimesOut (Plant.init (startUp [])) 300 (List.replicate 31 .tick) := by
  intro h
  have hsplit : List.replicate 31 WdtEvent.tick = List.replicate 30 .tick ++ .tick :: [] := by decide
  have hearly := h.early _ _ hsplit ((fires_iff _ _ _).mpr (by decide))
  have hrounded : roundedMs (Plant.init (startUp [])) 300 = 300 := by
    unfold roundedMs armed
    rw [gpioWdtSetup_tickMs]
    rfl
  rw [hrounded] at hearly
  revert hearly
  decide

end EmbedTemplate.Thermal
