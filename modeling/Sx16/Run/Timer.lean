/-
# The timer

Whenever the period that the configuration cell selects has passed since the last tick, the timer
ticks and requests its interrupt. Time is in milliseconds from the start of a run.

Key definitions: `Timer`, `Timer.due`, `Timer.after`.
-/
import Sx16.Processor.State

namespace Sx16

/-- A timer with the time of its last tick. -/
structure Timer where
  last : Nat := 0
  deriving DecidableEq

namespace Timer

/-- What is printed when a run starts. -/
def banner : String :=
  " * Timer: cfg=" ++ Text.hex 4 timerConfig.toNat

/-- Whether a period has passed; if so the timer ticks. -/
def due (t : Timer) (now : Nat) (config : UInt16) : Timer × Bool :=
  if now - t.last < timerPeriod config then (t, false) else ({ last := now }, true)

/-- What the timer does after an instruction. -/
def after (t : Timer) (now : Nat) (c : Cpu) : Timer × Cpu :=
  match t.due now (c.memory.word timerConfig) with
  | (t, true) => (t, c.request Line.timer)
  | (t, false) => (t, c)

end Timer
end Sx16
