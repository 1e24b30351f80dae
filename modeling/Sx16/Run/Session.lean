/-
# Running a program

A run executes instructions until the processor halts, an error stops it, or a limit on their number
is reached. After every instruction but the halting one the hooks act in their order, and then a
requested interrupt is taken. A fault of the processor ends a run at once, and so does a terminal whose
output is refused; otherwise the hooks print their last lines, of which one may be refused too. The clock
is a function from the number of an instruction to the milliseconds that have passed when it has been
executed.

Key definitions: `RunError`, `Session`, `Session.cycle`, `Session.finish`, `Session.steps`, `run`.
-/
import Sx16.Processor.Interrupt
import Sx16.Run.Hook

namespace Sx16

/-- What goes wrong in a run. -/
inductive RunError where
  | processor (f : Fault)
  /-- The output of a terminal has been refused. -/
  | terminal (cause : String)
  deriving DecidableEq

namespace RunError

/-- The text of the complaint. -/
def message : RunError → String
  | processor f => f.message
  | terminal _ => "Failed to write terminal output"

/-- What caused the error, where that is known. -/
def cause? : RunError → Option String
  | processor _ => none
  | terminal cause => some cause

end RunError

/-- A run in progress. -/
structure Session where
  cpu : Cpu
  hooks : List Hook
  /-- What has been printed so far. -/
  output : Array Output := #[]

/-- The run after more characters have been typed at its terminals. -/
def Session.type (s : Session) (typed : List UInt8) : Session :=
  { s with
    hooks := s.hooks.map fun h =>
      match h with
      | .terminal t => .terminal { t with input := t.input ++ typed }
      | .timer _ | .script _ | .dump _ | .trace => h }

/-- What an instruction makes of a run. -/
inductive Progress where
  | running (s : Session)
  | halted (s : Session)
  | faulty (e : RunError) (s : Session)

/-- A run that has ended, and its error, if there is one. -/
structure Ended where
  session : Session
  fault : Option RunError

namespace Session

/-- A run with the lines that its hooks print at the start. -/
def start (cpu : Cpu) (hooks : List Hook) : Session :=
  { cpu, hooks, output := ((hooks.flatMap Hook.banner).map Output.line).toArray }

/-- One instruction, what the hooks do after it, and the interrupt that is taken then. -/
def cycle (s : Session) (now time : Nat) : Progress :=
  match Cpu.step s.cpu with
  | .error f cpu => .faulty (.processor f) { s with cpu }
  | .ok r cpu =>
    if cpu.halted then .halted { s with cpu }
    else
      let (hooks, cpu, out, refusal) := Hook.afterAll now time r cpu s.hooks
      let output := s.output ++ out
      match refusal with
      | some cause => .faulty (.terminal cause) { cpu, hooks, output }
      | none =>
        match Cpu.checkInterrupts cpu with
        | .error f cpu => .faulty (.processor f) { cpu, hooks, output }
        | .ok _ cpu => .running { cpu, hooks, output }

/-- The end of a run, with what its hooks print then. -/
def finish (s : Session) : Ended :=
  let (out, refusal) := Hook.endAll s.hooks
  ⟨{ s with output := s.output ++ out }, refusal.map .terminal⟩

/-- At most `left` further instructions, the first of them with number `time`. -/
def steps (clock : Nat → Nat) : (left time : Nat) → Session → Ended
  | 0, _, s => s.finish
  | left + 1, time, s =>
    match s.cycle (clock time) time with
    | .running s => steps clock left (time + 1) s
    | .halted s => s.finish
    | .faulty e s => ⟨s, some e⟩

end Session

/-- The number of instructions after which a run without a limit ends. -/
def defaultLimit : Nat := 0xFFFFFFFFFFFFFFFF

/-- Runs a program with hooks up to a limit on the number of instructions. -/
def run (cpu : Cpu) (hooks : List Hook) (limit : Option Nat) (clock : Nat → Nat) : Ended :=
  (Session.start cpu hooks).steps clock (limit.getD defaultLimit) 0

end Sx16
