/-
# The terminal

After every instruction a word in the output cell that is not zero is printed, as the character of
its low byte, and the cell is cleared. Then one typed character, if there is one, goes to the input
cell and requests the terminal's interrupt. A terminal that has printed anything ends its output with a
line feed.

What a terminal prints goes to a writer in calls: one for each byte, and after each character one that
flushes. A writer may refuse a call. The byte of a refused call is not printed, the one before a refused
flush is, and in both cases the terminal does nothing further: the output cell keeps its word, and no
typed character is read.

Key definitions: `Writer`, `Terminal`, `Terminal.after`, `Terminal.ending`.
-/
import Sx16.Processor.State
import Sx16.Run.Output

namespace Sx16

/-- What a terminal prints to. Nothing is printed after a refusal, so a writer is known by the call that
it refuses first. -/
structure Writer where
  /-- How many more calls are accepted before one is refused, and the cause of that; none if no call is
  refused. -/
  refusal : Option (Nat × String) := none
  deriving DecidableEq

/-- A call: the writer after it, and the cause if it is refused. -/
def Writer.call (w : Writer) : Writer × Option String :=
  match w.refusal with
  | none => (w, none)
  | some (0, cause) => (w, some cause)
  | some (n + 1, cause) => ({ refusal := some (n, cause) }, none)

/-- A terminal with the characters that are typed but not read yet. -/
structure Terminal where
  input : List UInt8 := []
  wrote : Bool := false
  writer : Writer := {}
  deriving DecidableEq

namespace Terminal

/-- What is printed when a run starts. -/
def banner : String :=
  " * Terminal: out=" ++ Text.hex 4 terminalOut.toNat ++ " in=" ++ Text.hex 4 terminalIn.toNat

/-- Prints and clears the output cell, unless the writer refuses the byte or the flush. -/
def printOut (t : Terminal) (c : Cpu) : Terminal × Cpu × List Output × Option String :=
  let w := c.memory.word terminalOut
  if w = 0 then (t, c, [], none)
  else
    match t.writer.call with
    | (writer, some cause) => ({ t with writer }, c, [], some cause)
    | (writer, none) =>
      let out := [.terminal (Word.low w)]
      match writer.call with
      | (writer, some cause) => ({ t with writer }, c, out, some cause)
      | (writer, none) => ({ t with writer, wrote := true }, c.putWord terminalOut 0, out, none)

/-- Hands the next typed character to the program. -/
def readIn (t : Terminal) (c : Cpu) : Terminal × Cpu :=
  match t.input with
  | [] => (t, c)
  | b :: r => ({ t with input := r }, (c.putWord terminalIn b.toUInt16).request Line.terminal)

/-- What the terminal does after an instruction, and the cause if it has been refused. -/
def after (t : Terminal) (c : Cpu) : Terminal × Cpu × List Output × Option String :=
  match t.printOut c with
  | (t, c, out, some cause) => (t, c, out, some cause)
  | (t, c, out, none) => ((t.readIn c).1, (t.readIn c).2, out, none)

/-- What is printed when a run has ended, or the cause if that is refused. -/
def ending (t : Terminal) : List Output × Option String :=
  if t.wrote then
    match t.writer.call with
    | (_, some cause) => ([], some cause)
    | (_, none) => ([.terminal 10], none)
  else ([], none)

end Terminal
end Sx16
