/-
# The limit of a run

A limit cuts a run short and does nothing else. Where a run does not come to its limit, because an error
or a halt ends it before, a larger limit makes no difference: processor, output and hooks are the same in
the end, and so is the error. A run that comes to its limit has executed just as many instructions as the
limit allows, and the run with a larger limit begins with the same entries in its journal. It may still
fail then, if a terminal is refused its last line feed, and this is no error of a longer run.

Key definitions: `Session.reached?`, `ClosingRefused`, `Hook.unrefused`.
Key theorems: `Session.steps_of_reached`, `Runs.extend`, `Runs.length_eq`, `run_cut_short`,
`run_cut_short_refused`.
-/
import Sx16.Proofs.Run.Journal

namespace Sx16

/-! ### Runs that come to their limit -/

/-- The run when it comes to its limit, before its end; none if it ends before. -/
def Session.reached? (clock : Nat → Nat) : (left time : Nat) → Session → Option Session
  | 0, _, s => some s
  | left + 1, time, s =>
    match s.cycle (clock time) time with
    | .running s' => reached? clock left (time + 1) s'
    | .halted _ | .faulty _ _ => none

/-- A run comes to its limit, and then a terminal is refused its last line feed. -/
def ClosingRefused (cpu : Cpu) (hooks : List Hook) (limit : Option Nat) (clock : Nat → Nat) : Prop :=
  ∃ s, (Session.start cpu hooks).reached? clock (limit.getD defaultLimit) 0 = some s ∧
    s.finish.fault ≠ none

namespace Session

variable {clock : Nat → Nat} {left time : Nat} {s s' : Session}

/-- What every cycle of a run keeps is kept up to the limit. -/
theorem keeps_of_reached {P : Session → Prop}
    (hP : ∀ {s s' : Session} {now time}, P s → s.cycle now time = .running s' → P s')
    (hs : P s) (h : s.reached? clock left time = some s') : P s' := by
  induction left generalizing time s with
  | zero =>
    cases h
    exact hs
  | succ left ih =>
    rw [reached?] at h
    cases hcycle : s.cycle (clock time) time with
    | running s1 =>
      simp only [hcycle] at h
      exact ih (hP hs hcycle) h
    | halted s1 | faulty e s1 =>
      simp only [hcycle] at h
      cases h

/-- A run that comes to its limit ends there. -/
theorem steps_of_reached (h : s.reached? clock left time = some s') :
    s.steps clock left time = s'.finish := by
  induction left generalizing time s with
  | zero =>
    cases h
    rfl
  | succ left ih =>
    rw [reached?] at h
    rw [steps]
    cases hcycle : s.cycle (clock time) time with
    | running s1 =>
      simp only [hcycle] at h
      exact ih h
    | halted s1 | faulty e s1 =>
      simp only [hcycle] at h
      cases h

theorem going_of_reached (hs : s.cpu.halted = false) (h : s.reached? clock left time = some s') :
    s'.cpu.halted = false := by
  refine keeps_of_reached (P := fun s => s.cpu.halted = false) (fun _ hcycle => ?_) hs h
  obtain ⟨r, line, c, c', -, hc, -, hcheck, rfl⟩ := of_running hcycle
  exact going_of_check hc hcheck

end Session

namespace Runs

variable {clock : Nat → Nat} {n m left time : Nat} {s : Session} {es : List Entry} {ended : Ended}

/-- **A larger limit** keeps the entries of a journal, and also the end of a run that does not come to its
limit. -/
theorem extend (h : Runs clock n time s es ended) (hle : n ≤ m) :
    ∃ es' ended', Runs clock m time s es' ended' ∧ es <+: es' ∧
      (s.reached? clock n time = none → ended' = ended) := by
  induction h generalizing m with
  | limit time s =>
    refine ⟨_, _, s.runs clock m time, List.nil_prefix, fun hreached => ?_⟩
    cases hreached
  | faulted h =>
    obtain ⟨m, rfl⟩ := Nat.exists_eq_add_of_lt hle
    exact ⟨_, _, .faulted h, List.prefix_rfl, fun _ => rfl⟩
  | halted h hc =>
    obtain ⟨m, rfl⟩ := Nat.exists_eq_add_of_lt hle
    exact ⟨_, _, .halted h hc, List.prefix_rfl, fun _ => rfl⟩
  | broke h hc hrefusal =>
    obtain ⟨m, rfl⟩ := Nat.exists_eq_add_of_lt hle
    exact ⟨_, _, .broke h hc hrefusal, List.prefix_rfl, fun _ => rfl⟩
  | refused h hc hrefusal hcheck =>
    obtain ⟨m, rfl⟩ := Nat.exists_eq_add_of_lt hle
    exact ⟨_, _, .refused h hc hrefusal hcheck, List.prefix_rfl, fun _ => rfl⟩
  | @next left time s r line c c' es ended h hc hrefusal hcheck _ ih =>
    obtain ⟨m, rfl⟩ := Nat.exists_eq_add_of_lt hle
    obtain ⟨es', ended', hrest, hprefix, hsame⟩ := ih (Nat.le_add_right _ m)
    refine ⟨_, _, .next h hc hrefusal hcheck hrest, List.prefix_cons_inj _ |>.mpr hprefix, ?_⟩
    have hcycle := Session.cycle_acted time (clock time) h hc
    simp only [hrefusal, hcheck] at hcycle
    rw [Session.reached?, hcycle]
    exact hsame

/-- A run that neither fails nor halts goes up to its limit. -/
theorem length_eq (h : Runs clock left time s es ended) (hfault : ended.fault = none)
    (hgoing : ended.session.cpu.halted = false) : es.length = left := by
  induction h with
  | limit => rfl
  | faulted => cases hfault
  | halted _ hc => exact absurd (hgoing.symm.trans hc) Bool.false_ne_true
  | broke => cases hfault
  | refused => cases hfault
  | next _ _ _ _ _ ih => rw [List.length_cons, ih hfault hgoing]

end Runs

/-! ### Terminals that are not refused -/

namespace Hook

/-- Whether a hook is never refused its output. -/
def unrefused : Hook → Bool
  | terminal t => t.writer.refusal.isNone
  | timer _ | script _ | dump _ | trace => true

theorem unrefused_after {hook : Hook} (h : hook.unrefused = true) (now time : Nat) (r : Retired)
    (c : Cpu) : (hook.after now time r c).1.unrefused = true := by
  cases hook with
  | terminal t =>
    have hread : ∀ (t : Terminal) c, (t.readIn c).1.writer = t.writer := fun t c => by
      unfold Terminal.readIn
      split <;> rfl
    have hpast : ∀ n, (t.writer.past n).refusal.isNone = true := fun n => by
      rw [Writer.past, Option.isNone_map]
      exact h
    show (t.after c).1.writer.refusal.isNone = true
    obtain ⟨-, hprint⟩ | ⟨-, ⟨_, -, hprint⟩ | ⟨_, -, hprint⟩ | ⟨-, hprint⟩⟩ := t.printOut_cases c
    · rw [Terminal.after_of_none hprint, hread]
      exact h
    · rw [Terminal.after_of_some hprint]
      exact h
    · rw [Terminal.after_of_some hprint]
      exact hpast 1
    · rw [Terminal.after_of_none hprint, hread]
      exact hpast 2
  | timer _ | script _ | dump _ | trace => rfl

theorem unrefused_afterAll {hooks : List Hook} (h : ∀ hook ∈ hooks, hook.unrefused = true)
    (now time : Nat) (r : Retired) (c : Cpu) :
    ∀ hook ∈ (afterAll now time r c hooks).1, hook.unrefused = true := by
  induction hooks generalizing c with
  | nil => exact h
  | cons hook hooks ih =>
    rw [List.forall_mem_cons] at h
    have hfirst := unrefused_after h.1 now time r c
    cases hrefusal : (hook.after now time r c).2.2.2 with
    | some cause =>
      rw [afterAll_cons_of_some now time r hrefusal, List.forall_mem_cons]
      exact ⟨hfirst, h.2⟩
    | none =>
      rw [afterAll_cons_of_none now time r hrefusal, List.forall_mem_cons]
      exact ⟨hfirst, ih h.2 _⟩

/-- Terminals that are not refused end their output. -/
theorem refusal_endAll {hooks : List Hook} (h : ∀ hook ∈ hooks, hook.unrefused = true) :
    (endAll hooks).2 = none := by
  induction hooks with
  | nil => rfl
  | cons hook hooks ih =>
    rw [List.forall_mem_cons] at h
    have hending : hook.ending.2 = none := by
      cases hook with
      | terminal t =>
        show t.ending.2 = none
        obtain ⟨-, hending⟩ | ⟨-, ⟨_, hrefusal, -⟩ | ⟨-, hending⟩⟩ := t.ending_cases
        · rw [hending]
        · simp [unrefused, hrefusal] at h
        · rw [hending]
      | timer _ | script _ | dump _ | trace => rfl
    rw [endAll_cons_of_none hending]
    exact ih h.2

end Hook

theorem not_closingRefused {cpu : Cpu} {hooks : List Hook} {limit : Option Nat} {clock : Nat → Nat}
    (h : ∀ hook ∈ hooks, hook.unrefused = true) : ¬ ClosingRefused cpu hooks limit clock := by
  rintro ⟨s, hreached, hfault⟩
  have hs : ∀ hook ∈ s.hooks, hook.unrefused = true := by
    refine Session.keeps_of_reached (P := fun s => ∀ hook ∈ s.hooks, hook.unrefused = true)
      (fun hs hcycle => ?_) h hreached
    obtain ⟨r, line, c, c', -, -, -, -, rfl⟩ := Session.of_running hcycle
    exact Hook.unrefused_afterAll hs _ _ _ _
  apply hfault
  show (Hook.endAll s.hooks).2.map RunError.terminal = none
  rw [Hook.refusal_endAll hs]
  rfl

variable {cpu : Cpu} {hooks : List Hook} {limit limit' : Option Nat}

/-- **A limit only cuts a run short.** Let a processor that has not halted run without timers, by whatever
clocks, with a limit and with one that is not smaller. If the first run ends by an error or with a halted
processor, the second one ends just so: with the same error, processor and output, and with as much of
the input consumed. There is one exception: at the limit a terminal may be refused its last line feed, which
no terminal is whose writer refuses nothing. In every case the instructions that the first run executes,
with the states around them, are the first ones of the second run; and they are as many as the limit unless
the first run ends by itself. -/
theorem run_cut_short (hgoing : cpu.halted = false)
    (htimer : HookKind.timer ∉ hooks.map Hook.kind)
    (hle : limit.getD defaultLimit ≤ limit'.getD defaultLimit) (clock clock' : Nat → Nat) :
    let ended := run cpu hooks limit clock
    (ended.fault ≠ none ∨ ended.session.cpu.halted = true → ¬ ClosingRefused cpu hooks limit clock →
        run cpu hooks limit' clock' = ended) ∧
      ((∀ hook ∈ hooks, hook.unrefused = true) → ¬ ClosingRefused cpu hooks limit clock) ∧
      journal cpu hooks limit clock <+: journal cpu hooks limit' clock' ∧
      (ended.fault = none → ended.session.cpu.halted = false →
        (journal cpu hooks limit clock).length = limit.getD defaultLimit) := by
  intro ended
  have hrun := (Session.start cpu hooks).runs clock (limit.getD defaultLimit) 0
  obtain ⟨es, longer, hlonger, hprefix, hsame⟩ := hrun.extend hle
  obtain ⟨rfl, rfl⟩ := (hlonger.untimed htimer clock').eq
  refine ⟨fun hend hclosing => hsame ?_, not_closingRefused, hprefix, hrun.length_eq⟩
  -- At the limit the processor goes on, and the last line feeds are not refused.
  cases hreached : (Session.start cpu hooks).reached? clock (limit.getD defaultLimit) 0 with
  | none => rfl
  | some s =>
    have hended : ended = s.finish := Session.steps_of_reached hreached
    rw [hended] at hend
    obtain hfault | hhalted := hend
    · exact absurd ⟨s, hreached, hfault⟩ hclosing
    · have hgoing' : s.cpu.halted = false := Session.going_of_reached hgoing hreached
      exact absurd (hhalted.symm.trans hgoing') (by simp)

/-- The program halts within five instructions, and so it ends without a limit too. -/
theorem run_cut_short_greeting :
    let hooks := [.terminal { input := [0x78] }, .script { requests := [(0, 1)] }, .trace]
    let ended := run Cpu.greeting hooks (some 5) fun _ => 0
    ended.session.cpu.halted = true ∧ ended.session.cpu.memory.word terminalIn = 0x78 ∧
      run Cpu.greeting hooks none id = ended := by
  intro hooks ended
  have hhalted : ended.session.cpu.halted = true := by decide +kernel
  have hread : ended.session.cpu.memory.word terminalIn = 0x78 := by decide +kernel
  have hgoing : Cpu.greeting.halted = false := rfl
  have htimer : HookKind.timer ∉ hooks.map Hook.kind := by decide
  have hle : (some 5).getD defaultLimit ≤ none.getD defaultLimit := by decide
  obtain ⟨hsame, hclosing, -, -⟩ := run_cut_short hgoing htimer hle (fun _ => 0) id
  exact ⟨hhalted, hread, hsame (.inr hhalted) (hclosing (by decide))⟩

/-- **A run that fails at its limit only.** The terminal has printed a letter and is refused the line feed
that ends its output after one instruction; without a limit the next instruction fails, and the line feed
is not printed at all. -/
theorem run_cut_short_refused :
    let cpu := Cpu.greeting.store 0x15 [0x01]
    let hooks := [.terminal { writer := { refusal := some (2, "No space left on device") } }]
    cpu.halted = false ∧ HookKind.timer ∉ hooks.map Hook.kind ∧
      (some 1).getD defaultLimit ≤ none.getD defaultLimit ∧
      (run cpu hooks (some 1) fun _ => 0).fault = some (.terminal "No space left on device") ∧
      (run cpu hooks none fun _ => 0).fault = some (.processor (.illegalOpcode 0x01 0x15)) := by
  decide +kernel

end Sx16
