import EmbedTemplate.Gpio.Hardware

/-! # Interrupts between their latch and their report

The hardware latches interrupts of sixteen bits; `gpio_get_and_clear_irq_status` clears all of
them and returns eight.
-/
namespace EmbedTemplate.Gpio

/-- What happens to the interrupt status. -/
inductive IrqEvent
  | latch (pin : Fin 16)
  | read
  deriving DecidableEq

def irqStep (r : GpioCtrl) : IrqEvent → GpioCtrl
  | .latch pin => { r with intSts := assign 16 r.intSts (bit pin) true }
  | .read => (gpioGetAndClearIrqStatus r).1

def irqRun (r : GpioCtrl) (events : List IrqEvent) : GpioCtrl := events.foldl irqStep r

/-- An interrupt is latched and not yet cleared. -/
def pending (r : GpioCtrl) (pin : Fin 16) : Bool := r.view.status.getLsbD pin

/-- A call returns the bit of an interrupt. -/
def returns (r : GpioCtrl) (pin : Fin 16) : Bool := (gpioGetAndClearIrqStatus r).2.getLsbD pin

/-- How often an interrupt is latched that was not pending. -/
def latches (pin : Fin 16) : GpioCtrl → List IrqEvent → ℕ
  | _, [] => 0
  | r, .latch pin' :: events => (if pin' = pin ∧ pending r pin = false then 1 else 0) +
    latches pin (irqStep r (.latch pin')) events
  | r, .read :: events => latches pin (irqStep r .read) events

/-- How often an interrupt is reported. -/
def reports (pin : Fin 16) : GpioCtrl → List IrqEvent → ℕ
  | _, [] => 0
  | r, .latch pin' :: events => reports pin (irqStep r (.latch pin')) events
  | r, .read :: events => (if returns r pin then 1 else 0) + reports pin (irqStep r .read) events

/-- Every interrupt that a call clears is reported by it, and so each latched one once. -/
structure NoneLost (r : GpioCtrl) (events : List IrqEvent) : Prop where
  reported : ∀ before after, events = before ++ .read :: after → ∀ pin, pending (irqRun r before) pin = true →
    pending (irqRun r (before ++ [.read])) pin = false → returns (irqRun r before) pin = true
  once : ∀ pin, (if pending r pin then 1 else 0) + latches pin r events =
    reports pin r events + if pending (irqRun r events) pin then 1 else 0

/-- No interrupt above the returned bits is pending at a call. -/
def LowOnly (r : GpioCtrl) (events : List IrqEvent) : Prop :=
  ∀ before after, events = before ++ .read :: after → ∀ pin : Fin 16, 8 ≤ pin.val →
    pending (irqRun r before) pin = false

section Steps
variable (r : GpioCtrl) (pin pin' : Fin 16)

theorem pending_latch : pending (irqStep r (.latch pin')) pin = (pending r pin || decide (pin' = pin)) := by
  have hpin := pin.isLt
  have h32 : pin.val < 32 := by omega
  have heq : decide (pin.val = pin'.val) = decide (pin' = pin) := by
    rw [decide_eq_decide,Fin.ext_iff,eq_comm]
  unfold pending irqStep GpioCtrl.view assign
  simp [h32,heq]

theorem pending_read : pending (irqStep r .read) pin = false := by
  have hclear : (irqStep r .read).view.status = 0 := status_clearStatus r (load 16 r.intSts)
  unfold pending
  rw [hclear]
  exact BitVec.getLsbD_zero

theorem returns_eq : returns r pin = (pending r pin && decide (pin.val < 8)) := by
  have hpin := pin.isLt
  have h32 : pin.val < 32 := by omega
  unfold returns pending gpioGetAndClearIrqStatus GpioCtrl.view
  by_cases hlow : pin.val < 8
  · simp [h32,hlow]
  · simp [hlow]

end Steps

section Runs
variable {r : GpioCtrl} {events : List IrqEvent} {event : IrqEvent}

theorem irqRun_snoc : irqRun r (events ++ [event]) = irqStep (irqRun r events) event := by
  unfold irqRun
  rw [List.foldl_append]
  rfl

theorem LowOnly.tail (h : LowOnly r (event :: events)) : LowOnly (irqStep r event) events := by
  intro before after hevents pin hpin
  exact h (event :: before) after (by rw [hevents]; rfl) pin hpin

/-- Every latched interrupt is reported once or still pending. -/
theorem LowOnly.once (h : LowOnly r events) (pin : Fin 16) : (if pending r pin then 1 else 0) + latches pin r events =
    reports pin r events + if pending (irqRun r events) pin then 1 else 0 := by
  induction events generalizing r with
  | nil => exact Nat.add_comm _ _
  | cons event events ih =>
    have htail := ih h.tail
    have hrun : irqRun r (event :: events) = irqRun (irqStep r event) events := rfl
    rw [hrun]
    cases event with
    | latch pin' =>
      unfold latches reports
      rw [pending_latch] at htail
      rw [← htail]
      by_cases hpin : pin' = pin <;> cases pending r pin <;> simp [hpin]
    | read =>
      unfold latches reports
      rw [pending_read] at htail
      have hlow : 8 ≤ pin.val → pending r pin = false := h [] events rfl pin
      have hreturned : returns r pin = pending r pin := by
        rw [returns_eq]
        by_cases hpin : pin.val < 8
        · rw [decide_eq_true hpin,Bool.and_true]
        · rw [hlow (Nat.le_of_not_lt hpin),Bool.false_and]
      rw [if_neg Bool.false_ne_true,Nat.zero_add] at htail
      rw [hreturned,htail,Nat.add_assoc]

end Runs

/-- Nothing is lost exactly if no interrupt above the returned bits is pending at a call. -/
theorem noneLost_iff (r : GpioCtrl) (events : List IrqEvent) : NoneLost r events ↔ LowOnly r events := by
  have hcleared : ∀ before pin, pending (irqRun r (before ++ [.read])) pin = false := by
    intro before pin
    rw [irqRun_snoc]
    exact pending_read _ _
  constructor
  · intro h before after hevents pin hpin
    by_contra hpending
    rw [Bool.not_eq_false] at hpending
    have hreturned := h.reported before after hevents pin hpending (hcleared before pin)
    rw [returns_eq,decide_eq_false (Nat.not_lt.mpr hpin),Bool.and_false] at hreturned
    cases hreturned
  · intro h
    refine ⟨?_,h.once⟩
    intro before after hevents pin hpending _
    rw [returns_eq,hpending,Bool.true_and,decide_eq_true_iff]
    by_contra hpin
    rw [h before after hevents pin (Nat.le_of_not_lt hpin)] at hpending
    cases hpending

/-- Behind the initialisation of the controller, the alarm is cleared without a report. -/
theorem alarm_lost : ¬NoneLost (gpioInitController ⟨0,0,0,0,0,0,0,0,0,0,0,0⟩) [.latch 8,.read] := by
  intro h
  have hreturned := h.reported [.latch 8] [] rfl 8
  revert hreturned
  decide

end EmbedTemplate.Gpio
