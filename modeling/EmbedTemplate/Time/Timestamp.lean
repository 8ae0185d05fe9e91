import EmbedTemplate.Library.Bytes
import EmbedTemplate.Library.Machine

/-! # The cycle counter and its timestamps

`time.c` extends the 32-bit cycle counter to 64 bits. A call of `get_timestamp` reads the
counter, disables interrupts, adds the cycles since the last call and restores the
interrupts; an interrupt handler may make calls of its own wherever interrupts are enabled,
so that the calls in progress form a stack.
-/
namespace EmbedTemplate.Time
open Bytes Machine

/-- The globals of `time.c`. -/
structure Timer where
  bootTs : ℕ
  ticksToUs : ℕ
  totalCycles : ℕ
  lastCycles : ℕ

def initTimestamp (timerHz cycles : ℕ) : Timer :=
  let ticksToUs := u64 (1000000 * 2 ^ 32 / timerHz)
  { ticksToUs := ticksToUs
    totalCycles := cycles
    lastCycles := cycles
    bootTs := u64 (cycles * ticksToUs) / 2 ^ 32 }

/-- The accumulation of a counter value. -/
def Timer.accumulate (t : Timer) (cycles : ℕ) : Timer :=
  let delta := u32 (cycles + 2 ^ 32 - t.lastCycles)
  { t with totalCycles := u64 (t.totalCycles + delta), lastCycles := cycles }

/-- The microseconds since the start that a cycle total stands for. -/
def Timer.timestamp (t : Timer) (total : ℕ) : ℕ :=
  let now := u64 (total * t.ticksToUs) / 2 ^ 32
  u64 (now + 2 ^ 64 - t.bootTs)

/-- A call of `get_timestamp` in progress, with its local variables. -/
inductive Call where
  | entered
  | sampled (cycles : ℕ)
  | masked (cycles : ℕ) (primask : Bool)
  | updated (localTotalCycles : ℕ) (primask : Bool)

/-- The processor: the globals, the interrupt mask, the calls in progress with the innermost
first, and the totals and timestamps of the completed calls. The cycles elapsed and the
elapsed cycles at the newest counter value are not seen by the code. -/
structure Cpu where
  timer : Timer
  primask : Bool
  calls : List Call
  totals : List ℕ
  returned : List ℕ
  now : ℕ
  newest : ℕ

def Cpu.init (timerHz : ℕ) (cycles : BitVec 32) : Cpu :=
  ⟨initTimestamp timerHz cycles.toNat,false,[],[],[],cycles.toNat,cycles.toNat⟩

/-- Time passes, the program or an interrupt handler calls `get_timestamp`, or the innermost
call makes its next step. -/
inductive CpuLabel where
  | elapse (cycles : ℕ)
  | call
  | read
  | disable
  | update
  | restore

def cpuStep (s : Cpu) : CpuLabel → Option Cpu
  | .elapse cycles => some { s with now := s.now + cycles }
  | .call => if s.calls.isEmpty || !s.primask then some { s with calls := .entered :: s.calls } else none
  | .read =>
    match s.calls with
    | .entered :: rest => some { s with calls := .sampled (u32 s.now) :: rest, newest := s.now }
    | _ => none
  | .disable =>
    match s.calls with
    | .sampled cycles :: rest => some { s with calls := .masked cycles s.primask :: rest, primask := true }
    | _ => none
  | .update =>
    match s.calls with
    | .masked cycles primask :: rest =>
      let timer := s.timer.accumulate cycles
      some { s with calls := .updated timer.totalCycles primask :: rest, timer := timer }
    | _ => none
  | .restore =>
    match s.calls with
    | .updated total primask :: rest =>
      some { s with
        calls := rest
        primask := primask
        totals := s.totals ++ [total]
        returned := s.returned ++ [s.timer.timestamp total] }
    | _ => none

end EmbedTemplate.Time
