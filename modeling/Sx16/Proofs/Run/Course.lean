/-
# The course of a run

Hooks open a run; then instructions, the hooks that act on them and checks for interrupts follow each
other, until the processor halts, an error occurs or the limit is reached; and hooks close the run. A
course is a sequence of such events with the states between them. What hooks do to the processor is a
parameter, so that a course may have hooks of every kind; any of them may fail instead, which ends the
run with the state before it. The runs with terminals, timers, scripts, dumps and traces have courses in
which hooks do what these five do, and fail where a terminal's output is refused.

Key definitions: `Phase`, `Event`, `Point`, `Turn`, `Course`, `Hook.lines`, `Hook.Acts`.
Key theorems: `Course.append`, `Course.exists_turn`, `exists_course_of_run`.
-/
import Sx16.Proofs.Run.Hooks

namespace Sx16

/-- Where a run stands. -/
inductive Phase where
  /-- Hooks prepare the run. -/
  | opening
  /-- An instruction has been executed, and hooks act on it. -/
  | acting
  /-- Interrupts have been checked, and the next instruction follows. -/
  | checked
  /-- Hooks close the run. -/
  | closing
  /-- An error has ended the run. -/
  | failed (e : RunError)
  deriving DecidableEq

/-- The error that ended the run. -/
def Phase.fault? : Phase → Option RunError
  | failed e => some e
  | opening | acting | checked | closing => none

/-- The phase in which hooks leave a run: the one in which they found it, unless one of them has been
refused its output. -/
def Phase.unless (p : Phase) : (refusal : Option String) → Phase
  | none => p
  | some cause => failed (.terminal cause)

/-- What happens in a run. -/
inductive Event where
  /-- A hook has acted and requested lines. -/
  | acted (lines : List Line)
  /-- A hook has failed. -/
  | broke (e : RunError)
  | executed (t : Retired)
  /-- An instruction could not be executed. -/
  | faulted (e : Fault)
  /-- Interrupts have been checked, and the line has been taken, if any. -/
  | checked (line : Option Line)
  /-- A line could have been taken, but its frame has no room on the stack. -/
  | refused (e : Fault)
  deriving DecidableEq

/-- A point of a run. -/
structure Point where
  phase : Phase
  cpu : Cpu

variable {acts : Cpu → List Line → Cpu → Prop}

/-- What may happen next at a point of a run, and where it leads. Hooks that act may leave a state and
request lines as `acts` tells. -/
inductive Turn (acts : Cpu → List Line → Cpu → Prop) : Point → Event → Point → Prop where
  | opened {lines : List Line} {c c' : Cpu} (h : acts c lines c') :
    Turn acts ⟨.opening, c⟩ (.acted lines) ⟨.opening, c'⟩
  | executed {p : Phase} {t : Retired} {c c' : Cpu} (hp : p = .opening ∨ p = .checked)
    (h : Cpu.step.run c = .ok t c') :
    Turn acts ⟨p, c⟩ (.executed t) ⟨if c'.halted then .closing else .acting, c'⟩
  | faulted {p : Phase} {e : Fault} {c c' : Cpu} (hp : p = .opening ∨ p = .checked)
    (h : Cpu.step.run c = .error e c') : Turn acts ⟨p, c⟩ (.faulted e) ⟨.failed (.processor e), c'⟩
  | acted {lines : List Line} {c c' : Cpu} (h : acts c lines c') :
    Turn acts ⟨.acting, c⟩ (.acted lines) ⟨.acting, c'⟩
  | checked {line : Option Line} {c c' : Cpu} (h : Cpu.checkInterrupts.run c = .ok line c') :
    Turn acts ⟨.acting, c⟩ (.checked line) ⟨.checked, c'⟩
  | refused {e : Fault} {c c' : Cpu} (h : Cpu.checkInterrupts.run c = .error e c') :
    Turn acts ⟨.acting, c⟩ (.refused e) ⟨.failed (.processor e), c'⟩
  | closed {p : Phase} {lines : List Line} {c c' : Cpu}
    (hp : p = .opening ∨ p = .checked ∨ p = .closing) (h : acts c lines c') :
    Turn acts ⟨p, c⟩ (.acted lines) ⟨.closing, c'⟩
  | broke {p : Phase} {e : RunError} {c : Cpu} (hp : p.fault? = none) :
    Turn acts ⟨p, c⟩ (.broke e) ⟨.failed e, c⟩

/-- What happens in a run from one point to another. -/
inductive Course (acts : Cpu → List Line → Cpu → Prop) : Point → List Event → Point → Prop where
  | refl (a : Point) : Course acts a [] a
  | cons {a b d : Point} {e : Event} {es : List Event} (h : Turn acts a e b) (hr : Course acts b es d) :
    Course acts a (e :: es) d

namespace Course

variable {a b d : Point} {es fs : List Event}

theorem append (h : Course acts a es b) (h' : Course acts b fs d) : Course acts a (es ++ fs) d := by
  induction h with
  | refl => exact h'
  | cons hturn _ ih => exact .cons hturn (ih h')

/-- What holds at the start of a course and not at its end was lost in one of its turns. -/
theorem exists_turn {P : Cpu → Prop} (h : Course acts a es b) (ha : P a.cpu) (hb : ¬ P b.cpu) :
    ∃ es1 e es2 x y, es = es1 ++ e :: es2 ∧ Course acts a es1 x ∧ Turn acts x e y ∧
      Course acts y es2 b ∧ P x.cpu ∧ ¬ P y.cpu := by
  induction h with
  | refl => exact absurd ha hb
  | @cons a y d e es hturn hrest ih =>
    by_cases hy : P y.cpu
    · obtain ⟨es1, e', es2, x', y', rfl, hbefore, hturn', hafter, hx, hy'⟩ := ih hy hb
      exact ⟨e :: es1, e', es2, x', y', rfl, .cons hturn hbefore, hturn', hafter, hx, hy'⟩
    · exact ⟨[], e, es, a, y, rfl, .refl a, hturn, hrest, ha, hy⟩

/-- Nothing happens after an error. -/
theorem eq_of_failed {e : RunError} {c : Cpu} (h : Course acts ⟨.failed e, c⟩ es b) :
    b = ⟨.failed e, c⟩ := by
  cases h with
  | refl => rfl
  | cons hturn _ =>
    cases hturn with
    | executed hp | faulted hp => simp at hp
    | closed hp => simp at hp
    | broke hp => cases hp

end Course

/-! ### Terminals, timers, scripts, dumps and traces -/

namespace Hook

/-- The lines that a hook requests after the instruction with number `time`, at `now` milliseconds. -/
def lines (now time : Nat) (c : Cpu) : Hook → List Line
  | terminal t => if t.input = [] then [] else [Line.terminal]
  | timer t => if (t.due now (c.memory.word timerConfig)).2 then [Line.timer] else []
  | script s => ((s.requests.lookup time).map Line.ofByte).toList
  | dump _ | trace => []

/-- What one of the five hooks may do to the processor. -/
inductive Acts : Cpu → List Line → Cpu → Prop where
  | after (hook : Hook) (now time : Nat) (r : Retired) (c : Cpu)
    (h : (hook.after now time r c).2.2.2 = none) :
    Acts c (hook.lines now time c) (hook.after now time r c).2.1

variable (now time : Nat) (r : Retired)

theorem exists_course_afterAll (hooks : List Hook) (c : Cpu) :
    let all := afterAll now time r c hooks
    ∃ es, Course Acts ⟨.acting, c⟩ es ⟨Phase.acting.unless all.2.2.2, all.2.1⟩ := by
  induction hooks generalizing c with
  | nil => exact ⟨[], .refl _⟩
  | cons hook hooks ih =>
    cases hrefusal : (hook.after now time r c).2.2.2 with
    | some cause =>
      rw [afterAll_cons_of_some now time r hrefusal]
      simp only [cpu_of_refused now time r hrefusal]
      exact ⟨_, .cons (.broke rfl) (.refl _)⟩
    | none =>
      obtain ⟨es, hrest⟩ := ih (hook.after now time r c).2.1
      rw [afterAll_cons_of_none now time r hrefusal]
      exact ⟨_, .cons (.acted (.after hook now time r c hrefusal)) hrest⟩

end Hook

/-- The course of one instruction with its hooks and its check. -/
theorem Session.exists_course_cycle {p : Phase} (hp : p = .opening ∨ p = .checked) (s : Session)
    (now time : Nat) : ∃ es,
      match s.cycle now time with
      | .running s' => Course Hook.Acts ⟨p, s.cpu⟩ es ⟨.checked, s'.cpu⟩
      | .halted s' => Course Hook.Acts ⟨p, s.cpu⟩ es ⟨.closing, s'.cpu⟩
      | .faulty e s' => Course Hook.Acts ⟨p, s.cpu⟩ es ⟨.failed e, s'.cpu⟩ := by
  unfold Session.cycle
  cases hstep : Cpu.step s.cpu with
  | error f c => exact ⟨_, .cons (.faulted hp hstep) (.refl _)⟩
  | ok r c =>
    have hturn : Turn Hook.Acts ⟨p, s.cpu⟩ (.executed r)
        ⟨if c.halted then .closing else .acting, c⟩ := .executed hp hstep
    by_cases hhalted : c.halted = true
    · simp only [hhalted, if_true] at hturn ⊢
      exact ⟨_, .cons hturn (.refl _)⟩
    · simp only [hhalted] at hturn ⊢
      obtain ⟨es, hhooks⟩ := Hook.exists_course_afterAll now time r s.hooks c
      generalize Hook.afterAll now time r c s.hooks = all at hhooks ⊢
      obtain ⟨hooks, c1, out, _ | cause⟩ := all
      · cases hcheck : Cpu.checkInterrupts c1 with
        | error f c2 => exact ⟨_, .cons hturn (hhooks.append (.cons (.refused hcheck) (.refl _)))⟩
        | ok line c2 => exact ⟨_, .cons hturn (hhooks.append (.cons (.checked hcheck) (.refl _)))⟩
      · exact ⟨_, .cons hturn hhooks⟩

/-- The course of the end of a run, which fails if a terminal is refused its last line feed. -/
theorem Session.exists_course_finish {p : Phase} (hp : p.fault? = none) (s : Session) :
    ∃ es b, Course Hook.Acts ⟨p, s.cpu⟩ es b ∧ b.cpu = s.finish.session.cpu ∧
      b.phase.fault? = s.finish.fault := by
  unfold Session.finish
  generalize Hook.endAll s.hooks = all
  obtain ⟨out, _ | cause⟩ := all
  · exact ⟨[], _, .refl _, rfl, hp⟩
  · exact ⟨_, _, .cons (.broke hp) (.refl _), rfl, rfl⟩

theorem Session.exists_course_steps {p : Phase} (hp : p = .opening ∨ p = .checked)
    (clock : Nat → Nat) (left time : Nat) (s : Session) :
    ∃ es b, Course Hook.Acts ⟨p, s.cpu⟩ es b ∧ b.cpu = (s.steps clock left time).session.cpu ∧
      b.phase.fault? = (s.steps clock left time).fault := by
  induction left generalizing p time s with
  | zero =>
    refine s.exists_course_finish ?_
    obtain rfl | rfl := hp <;> rfl
  | succ left ih =>
    obtain ⟨es, hcycle⟩ := s.exists_course_cycle hp (clock time) time
    unfold Session.steps
    cases hresult : s.cycle (clock time) time with
    | running s' =>
      rw [hresult] at hcycle
      obtain ⟨fs, b, hrest, hcpu, hfault⟩ := ih (.inr rfl) (time + 1) s'
      exact ⟨es ++ fs, b, hcycle.append hrest, hcpu, hfault⟩
    | halted s' =>
      rw [hresult] at hcycle
      obtain ⟨fs, b, hrest, hcpu, hfault⟩ := s'.exists_course_finish (p := .closing) rfl
      exact ⟨es ++ fs, b, hcycle.append hrest, hcpu, hfault⟩
    | faulty e s' =>
      rw [hresult] at hcycle
      exact ⟨es, _, hcycle, rfl, rfl⟩

/-- **Every run has a course.** It leads from the processor's first state to its last one, and fails with
the error that ended the run. -/
theorem exists_course_of_run (cpu : Cpu) (hooks : List Hook) (limit : Option Nat)
    (clock : Nat → Nat) : ∃ es b, Course Hook.Acts ⟨.opening, cpu⟩ es b ∧
      b.cpu = (run cpu hooks limit clock).session.cpu ∧
      b.phase.fault? = (run cpu hooks limit clock).fault :=
  (Session.start cpu hooks).exists_course_steps (.inl rfl) clock _ 0

end Sx16
