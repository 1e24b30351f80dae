/-
# Hooks

A hook takes part in a run: it prints when the run starts, acts after every instruction, and prints
when the run has ended. Terminal, timer and script act on the processor; dump and trace only print.
Hooks act one after the other. Where one of them is refused its output, which only a terminal can be, the
hooks behind it do not act.

Key definitions: `Hook`, `Hook.banner`, `Hook.after`, `Hook.afterAll`, `Hook.endAll`, `Script`.
-/
import Sx16.Run.Dump
import Sx16.Run.Terminal
import Sx16.Run.Timer

namespace Sx16

/-- Interrupt requests by the number of the instruction after which they are made. -/
structure Script where
  /-- The file that the requests were read from. -/
  file : Option String := none
  requests : Keyed Nat UInt8 := []
  deriving DecidableEq

namespace Script

/-- What is printed when a run starts. -/
def banner (s : Script) : List String :=
  (s.file.map (fileBanner "Intr" s.requests.length)).toList

/-- The state after the requests for an instruction. -/
def after (s : Script) (time : Nat) (c : Cpu) : Cpu :=
  match s.requests.lookup time with
  | some line => c.request (Line.ofByte line)
  | none => c

end Script

/-- The line of an instruction in a trace. -/
def traceLine (time : Nat) (r : Retired) (c : Cpu) : String :=
  stepHeading time r.address ++ Text.alignLeft 5 r.opcode.name ++ " -> pc=" ++
    Text.hex 4 c.pc.toNat ++ " sp=" ++ Text.hex 4 c.sp.toNat ++ " psw=" ++ Text.hex 4 c.psw.toNat

/-- A participant of a run. -/
inductive Hook where
  | terminal (t : Terminal)
  | timer (t : Timer)
  | script (s : Script)
  | dump (d : Dump)
  | trace
  deriving DecidableEq

namespace Hook

/-- The lines at the start of a run. -/
def banner : Hook → List String
  | terminal _ => [Terminal.banner]
  | timer _ => [Timer.banner]
  | script s => s.banner
  | dump d => d.banner
  | trace => []

/-- What a hook does after the instruction with number `time`, at `now` milliseconds, and the cause if it
has been refused. -/
def after (now time : Nat) (r : Retired) (c : Cpu) : Hook → Hook × Cpu × List Output × Option String
  | terminal t =>
    let (t, c, out, refusal) := t.after c
    (terminal t, c, out, refusal)
  | timer t =>
    let (t, c) := t.after now c
    (timer t, c, [], none)
  | script s => (script s, s.after time c, [], none)
  | dump d => (dump d, c, (d.after time r c).map Output.line, none)
  | trace => (trace, c, [Output.line (traceLine time r c)], none)

/-- What a hook prints when the run has ended, or the cause if that is refused. -/
def ending : Hook → List Output × Option String
  | terminal t => t.ending
  | timer _ | script _ | dump _ | trace => ([], none)

/-- What hooks do after an instruction, one after the other up to the first that is refused. -/
def afterAll (now time : Nat) (r : Retired) (c : Cpu) :
    List Hook → List Hook × Cpu × List Output × Option String
  | [] => ([], c, [], none)
  | h :: hs =>
    match h.after now time r c with
    | (h, c, out, some cause) => (h :: hs, c, out, some cause)
    | (h, c, out, none) =>
      let (hs, c, rest, refusal) := afterAll now time r c hs
      (h :: hs, c, out ++ rest, refusal)

/-- What hooks print when the run has ended, one after the other up to the first that is refused. -/
def endAll : List Hook → List Output × Option String
  | [] => ([], none)
  | h :: hs =>
    match h.ending with
    | (out, some cause) => (out, some cause)
    | (out, none) => (out ++ (endAll hs).1, (endAll hs).2)

end Hook
end Sx16
