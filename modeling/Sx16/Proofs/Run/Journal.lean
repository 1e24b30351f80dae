/-
# The journal of a run

A run executes instructions one after the other. Its journal has an entry for each of them: the
instruction, the processor just after it, and the run once the hooks have acted, when interrupts are
about to be checked. After the instruction with which the processor halts no hook acts, after one where
a terminal is refused no interrupts are checked, and an instruction that fails has no entry. A run is the
same as a chain of such entries, link by link, up to what ended it: the limit, a fault of an instruction, a
halt, a refused terminal, or a check without room for a frame. A run without timers is the same by every
clock.

Key definitions: `Entry`, `Session.acted`, `Session.refusal?`, `Session.journal`, `journal`, `Runs`.
Key theorems: `Session.runs`, `Runs.eq`, `Runs.untimed`, `Cpu.halted_of_step`.
-/
import Sx16.Proofs.Processor.Touched
import Sx16.Proofs.Run.Hooks

namespace Sx16

/-! ### The journal -/

/-- An instruction that a run has executed. -/
structure Entry where
  retired : Retired
  /-- The processor just after the instruction. -/
  cpu : Cpu
  /-- The run when the hooks have acted and the check for interrupts begins; there is none if the
  processor has halted or a terminal has been refused. -/
  acted? : Option Session

namespace Session

/-- A run after an instruction, when the hooks have acted. -/
def acted (s : Session) (now time : Nat) (r : Retired) (c : Cpu) : Session :=
  let (hooks, cpu, out, _) := Hook.afterAll now time r c s.hooks
  { cpu, hooks, output := s.output ++ out }

/-- The cause for which a terminal has been refused after an instruction, if one has. -/
def refusal? (s : Session) (now time : Nat) (r : Retired) (c : Cpu) : Option String :=
  (Hook.afterAll now time r c s.hooks).2.2.2

theorem acted_untimed {s : Session} (hs : HookKind.timer ∉ s.hooks.map Hook.kind)
    (now now' time : Nat) (r : Retired) (c : Cpu) :
    s.acted now time r c = s.acted now' time r c ∧ s.refusal? now time r c = s.refusal? now' time r c := by
  unfold acted refusal?
  rw [Hook.afterAll_untimed now time r hs now']
  exact ⟨rfl, rfl⟩

/-- The journal of at most `left` instructions, the first of them with number `time`. -/
def journal (clock : Nat → Nat) : (left time : Nat) → Session → List Entry
  | 0, _, _ => []
  | left + 1, time, s =>
    match Cpu.step.run s.cpu with
    | .error _ _ => []
    | .ok r c =>
      if c.halted || (s.refusal? (clock time) time r c).isSome then [⟨r, c, none⟩]
      else
        ⟨r, c, some (s.acted (clock time) time r c)⟩ ::
          match s.cycle (clock time) time with
          | .running s' => journal clock left (time + 1) s'
          | .halted _ | .faulty _ _ => []

end Session

/-- The journal of a run up to a limit. -/
def journal (cpu : Cpu) (hooks : List Hook) (limit : Option Nat) (clock : Nat → Nat) : List Entry :=
  (Session.start cpu hooks).journal clock (limit.getD defaultLimit) 0

/-! ### Runs link by link -/

/-- The ways in which a run of at most `left` instructions goes on and ends, with its journal. -/
inductive Runs (clock : Nat → Nat) : (left time : Nat) → Session → List Entry → Ended → Prop where
  /-- The limit is reached. -/
  | limit (time : Nat) (s : Session) : Runs clock 0 time s [] s.finish
  /-- The instruction fails. -/
  | faulted {left time : Nat} {s : Session} {f : Fault} {c : Cpu}
    (h : Cpu.step.run s.cpu = .error f c) :
    Runs clock (left + 1) time s [] ⟨{ s with cpu := c }, some (.processor f)⟩
  /-- The processor halts. -/
  | halted {left time : Nat} {s : Session} {r : Retired} {c : Cpu}
    (h : Cpu.step.run s.cpu = .ok r c) (hc : c.halted = true) :
    Runs clock (left + 1) time s [⟨r, c, none⟩] ({ s with cpu := c } : Session).finish
  /-- A terminal is refused its output. -/
  | broke {left time : Nat} {s : Session} {r : Retired} {cause : String} {c : Cpu}
    (h : Cpu.step.run s.cpu = .ok r c) (hc : c.halted = false)
    (hrefusal : s.refusal? (clock time) time r c = some cause) :
    Runs clock (left + 1) time s [⟨r, c, none⟩]
      ⟨s.acted (clock time) time r c, some (.terminal cause)⟩
  /-- An interrupt cannot be taken. -/
  | refused {left time : Nat} {s : Session} {r : Retired} {f : Fault} {c c' : Cpu}
    (h : Cpu.step.run s.cpu = .ok r c) (hc : c.halted = false)
    (hrefusal : s.refusal? (clock time) time r c = none)
    (hcheck : Cpu.checkInterrupts.run (s.acted (clock time) time r c).cpu = .error f c') :
    Runs clock (left + 1) time s [⟨r, c, some (s.acted (clock time) time r c)⟩]
      ⟨{ s.acted (clock time) time r c with cpu := c' }, some (.processor f)⟩
  /-- The run goes on. -/
  | next {left time : Nat} {s : Session} {r : Retired} {line : Option Line} {c c' : Cpu}
    {es : List Entry} {ended : Ended} (h : Cpu.step.run s.cpu = .ok r c) (hc : c.halted = false)
    (hrefusal : s.refusal? (clock time) time r c = none)
    (hcheck : Cpu.checkInterrupts.run (s.acted (clock time) time r c).cpu = .ok line c')
    (hrest : Runs clock left (time + 1) { s.acted (clock time) time r c with cpu := c' } es ended) :
    Runs clock (left + 1) time s (⟨r, c, some (s.acted (clock time) time r c)⟩ :: es) ended

section Links

variable (clock : Nat → Nat) (left time : Nat) {s : Session} {r : Retired} {f : Fault} {c c' : Cpu}
  {line : Option Line} {cause : String}

namespace Session

theorem journal_faulted (h : Cpu.step.run s.cpu = .error f c) :
    s.journal clock (left + 1) time = [] ∧
      s.steps clock (left + 1) time = ⟨{ s with cpu := c }, some (.processor f)⟩ := by
  have hcycle : s.cycle (clock time) time = .faulty (.processor f) { s with cpu := c } := by
    rw [cycle, show Cpu.step s.cpu = .error f c from h]
  rw [journal, h, steps, hcycle]
  exact ⟨rfl, rfl⟩

theorem journal_halted (h : Cpu.step.run s.cpu = .ok r c) (hc : c.halted = true) :
    s.journal clock (left + 1) time = [⟨r, c, none⟩] ∧
      s.steps clock (left + 1) time = ({ s with cpu := c } : Session).finish := by
  have hcycle : s.cycle (clock time) time = .halted { s with cpu := c } := by
    rw [cycle, show Cpu.step s.cpu = .ok r c from h]
    exact if_pos hc
  rw [journal, h, steps, hcycle]
  exact ⟨if_pos (by simp [hc]), rfl⟩

theorem cycle_acted (now : Nat) (h : Cpu.step.run s.cpu = .ok r c) (hc : c.halted = false) :
    s.cycle now time = match s.refusal? now time r c with
      | some cause => .faulty (.terminal cause) (s.acted now time r c)
      | none => match Cpu.checkInterrupts.run (s.acted now time r c).cpu with
        | .error f c' => .faulty (.processor f) { s.acted now time r c with cpu := c' }
        | .ok _ c' => .running { s.acted now time r c with cpu := c' } := by
  rw [cycle, show Cpu.step s.cpu = .ok r c from h]
  exact if_neg (by simp [hc])

theorem journal_broke (h : Cpu.step.run s.cpu = .ok r c) (hc : c.halted = false)
    (hrefusal : s.refusal? (clock time) time r c = some cause) :
    s.journal clock (left + 1) time = [⟨r, c, none⟩] ∧
      s.steps clock (left + 1) time = ⟨s.acted (clock time) time r c, some (.terminal cause)⟩ := by
  have hcycle := cycle_acted time (clock time) h hc
  rw [hrefusal] at hcycle
  rw [journal, h, steps, hcycle]
  exact ⟨if_pos (by simp [hrefusal]), rfl⟩

section

variable (h : Cpu.step.run s.cpu = .ok r c) (hc : c.halted = false)
  (hrefusal : s.refusal? (clock time) time r c = none)
include h hc hrefusal

theorem journal_refused
    (hcheck : Cpu.checkInterrupts.run (s.acted (clock time) time r c).cpu = .error f c') :
    s.journal clock (left + 1) time = [⟨r, c, some (s.acted (clock time) time r c)⟩] ∧
      s.steps clock (left + 1) time =
        ⟨{ s.acted (clock time) time r c with cpu := c' }, some (.processor f)⟩ := by
  have hcycle := cycle_acted time (clock time) h hc
  simp only [hrefusal, hcheck] at hcycle
  rw [journal, h, steps, hcycle]
  exact ⟨if_neg (by simp [hc, hrefusal]), rfl⟩

theorem journal_next
    (hcheck : Cpu.checkInterrupts.run (s.acted (clock time) time r c).cpu = .ok line c') :
    let s' : Session := { s.acted (clock time) time r c with cpu := c' }
    s.journal clock (left + 1) time =
        ⟨r, c, some (s.acted (clock time) time r c)⟩ :: s'.journal clock left (time + 1) ∧
      s.steps clock (left + 1) time = s'.steps clock left (time + 1) := by
  have hcycle := cycle_acted time (clock time) h hc
  simp only [hrefusal, hcheck] at hcycle
  rw [journal, h, steps, hcycle]
  exact ⟨if_neg (by simp [hc, hrefusal]), rfl⟩

end

end Session

/-- A run goes link by link. -/
theorem Session.runs (s : Session) :
    Runs clock left time s (s.journal clock left time) (s.steps clock left time) := by
  induction left generalizing time s with
  | zero => exact .limit time s
  | succ left ih =>
    cases hstep : Cpu.step.run s.cpu with
    | error f c =>
      obtain ⟨hjournal, hsteps⟩ := journal_faulted clock left time hstep
      rw [hjournal, hsteps]
      exact .faulted hstep
    | ok r c =>
      cases hc : c.halted with
      | true =>
        obtain ⟨hjournal, hsteps⟩ := journal_halted clock left time hstep hc
        rw [hjournal, hsteps]
        exact .halted hstep hc
      | false =>
        cases hrefusal : s.refusal? (clock time) time r c with
        | some cause =>
          obtain ⟨hjournal, hsteps⟩ := journal_broke clock left time hstep hc hrefusal
          rw [hjournal, hsteps]
          exact .broke hstep hc hrefusal
        | none =>
          cases hcheck : Cpu.checkInterrupts.run (s.acted (clock time) time r c).cpu with
          | error f c' =>
            obtain ⟨hjournal, hsteps⟩ := journal_refused clock left time hstep hc hrefusal hcheck
            rw [hjournal, hsteps]
            exact .refused hstep hc hrefusal hcheck
          | ok line c' =>
            obtain ⟨hjournal, hsteps⟩ := journal_next clock left time hstep hc hrefusal hcheck
            rw [hjournal, hsteps]
            exact .next hstep hc hrefusal hcheck (ih _ _)

end Links

namespace Runs

variable {clock : Nat → Nat} {left time : Nat} {s : Session} {es : List Entry} {ended : Ended}

/-- There is no other way to run. -/
theorem eq (h : Runs clock left time s es ended) :
    s.journal clock left time = es ∧ s.steps clock left time = ended := by
  induction h with
  | limit => exact ⟨rfl, rfl⟩
  | faulted h => exact Session.journal_faulted clock _ _ h
  | halted h hc => exact Session.journal_halted clock _ _ h hc
  | broke h hc hrefusal => exact Session.journal_broke clock _ _ h hc hrefusal
  | refused h hc hrefusal hcheck => exact Session.journal_refused clock _ _ h hc hrefusal hcheck
  | next h hc hrefusal hcheck _ ih =>
    obtain ⟨hjournal, hsteps⟩ := Session.journal_next clock _ _ h hc hrefusal hcheck
    exact ⟨hjournal.trans (congrArg _ ih.1), hsteps.trans ih.2⟩

/-- **A run without timers** is the same by every clock. -/
theorem untimed (h : Runs clock left time s es ended)
    (hs : HookKind.timer ∉ s.hooks.map Hook.kind) (clock' : Nat → Nat) :
    Runs clock' left time s es ended := by
  have hclock := fun time r c =>
    Session.acted_untimed hs (clock time) (clock' time) time r c
  induction h with
  | limit time s => exact .limit time s
  | faulted h => exact .faulted h
  | halted h hc => exact .halted h hc
  | @broke left time s r cause c h hc hrefusal =>
    obtain ⟨hacted, hsame⟩ := hclock time r c
    rw [hsame] at hrefusal
    rw [hacted]
    exact .broke h hc hrefusal
  | @refused left time s r f c c' h hc hrefusal hcheck =>
    obtain ⟨hacted, hsame⟩ := hclock time r c
    rw [hsame] at hrefusal
    rw [hacted] at hcheck ⊢
    exact .refused h hc hrefusal hcheck
  | @next left time s r line c c' es ended h hc hrefusal hcheck hrest ih =>
    have hkinds : HookKind.timer ∉ (s.acted (clock time) time r c).hooks.map Hook.kind := by
      rwa [Session.acted, Hook.kinds_afterAll]
    have hrest' := ih hkinds fun time r c => Session.acted_untimed hkinds _ _ time r c
    obtain ⟨hacted, hsame⟩ := hclock time r c
    rw [hsame] at hrefusal
    rw [hacted] at hcheck hrest' ⊢
    exact .next h hc hrefusal hcheck hrest'

end Runs

/-! ### The halted flag -/

namespace Cpu

/-- A processor has halted after an instruction if it had before or the instruction is a `HALT`. -/
theorem halted_of_step {c c' : Cpu} {r : Retired} (h : step.run c = .ok r c') :
    c'.halted = (c.halted || r.opcode == .halt) := by
  by_cases hop : r.opcode = .halt
  · obtain ⟨-, -, hrun⟩ := ok_of_step h
    rw [hop] at hrun
    cases hrun
    rw [hop]
    exact (Bool.or_true _).symm
  · have hkept : c'.halted = c.halted := by
      by_contra hchanged
      have hhalt := halts_of_step (by rwa [Exec.endState_of_ok h])
      exact hop (congrArg Retired.opcode (EStateM.Result.ok.inj (h.symm.trans hhalt)).1)
    rw [hkept, beq_eq_false_iff_ne.mpr hop, Bool.or_false]

theorem halted_checkInterrupts {c c' : Cpu} {line : Option Line}
    (h : checkInterrupts.run c = .ok line c') : c'.halted = c.halted := by
  rw [← Exec.endState_of_ok h]
  exact keeps_checkInterrupts halted_setReg (fun _ _ _ => rfl) (fun _ _ => rfl) c

end Cpu

namespace Session

theorem halted_acted (s : Session) (now time : Nat) (r : Retired) (c : Cpu) :
    (s.acted now time r c).cpu.halted = c.halted :=
  Hook.view_afterAll now time r (fun _ _ _ => rfl) (fun _ _ => rfl) c s.hooks

/-- A run goes on after an instruction without a halt, hooks that are not refused and a check. -/
theorem of_running {s s' : Session} {now time : Nat} (h : s.cycle now time = .running s') :
    ∃ r line c c', Cpu.step.run s.cpu = .ok r c ∧ c.halted = false ∧ s.refusal? now time r c = none ∧
      Cpu.checkInterrupts.run (s.acted now time r c).cpu = .ok line c' ∧
      s' = { s.acted now time r c with cpu := c' } := by
  cases hstep : Cpu.step.run s.cpu with
  | error f c =>
    rw [cycle, show Cpu.step s.cpu = .error f c from hstep] at h
    cases h
  | ok r c =>
    cases hc : c.halted with
    | true =>
      rw [cycle, show Cpu.step s.cpu = .ok r c from hstep] at h
      simp only [hc, if_true] at h
      cases h
    | false =>
      rw [cycle_acted time now hstep hc] at h
      cases hrefusal : s.refusal? now time r c with
      | some cause =>
        simp only [hrefusal] at h
        cases h
      | none =>
        cases hcheck : Cpu.checkInterrupts.run (s.acted now time r c).cpu with
        | error f c' =>
          simp only [hrefusal, hcheck] at h
          cases h
        | ok line c' =>
          simp only [hrefusal, hcheck] at h
          cases h
          exact ⟨r, line, c, c', rfl, hc, hrefusal, hcheck, rfl⟩

theorem going_of_check {s : Session} {now time : Nat} {r : Retired} {line : Option Line} {c c' : Cpu}
    (hc : c.halted = false) (hcheck : Cpu.checkInterrupts.run (s.acted now time r c).cpu = .ok line c') :
    c'.halted = false := by
  rw [Cpu.halted_checkInterrupts hcheck, halted_acted, hc]

end Session

/-! ### A program that prints -/

/-- A processor with a program that stores a letter into the terminal's output cell and halts. -/
def Cpu.greeting : Cpu := (Cpu.holding 0x10 [0xB0, 0x0F, 0x04, 0x00, 0xFF]).setReg .r0 0x68

end Sx16
