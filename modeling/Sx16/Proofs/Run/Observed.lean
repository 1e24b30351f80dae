/-
# Hooks that only print

Dumps and traces look at a run and print what they see. Without them, wherever they stand among the
hooks, a run executes the same instructions on the same states and ends in the same way, also where a
terminal is refused its output; its terminals print the same bytes and read the same characters. The two
runs are followed side by side: after every instruction the hooks that are left see the processor as they
would among all hooks.

Key definitions: `HookKind.onlyPrints`, `Hook.acting`, `Session.Stripped`.
Key theorems: `Hook.afterAll_acting`, `Session.Stripped.acted`, `Runs.strip`, `run_acting`.
-/
import Sx16.Proofs.Run.Journal

namespace Sx16

/-- Whether hooks of a kind print and do nothing else. -/
def HookKind.onlyPrints : HookKind → Bool
  | dump | trace => true
  | terminal | timer | script => false

/-! ### What the terminals print -/

namespace Output

theorem terminalBytes_append (out out' : List Output) :
    terminalBytes (out ++ out') = terminalBytes out ++ terminalBytes out' :=
  List.filterMap_append

theorem terminalBytes_map_line (lines : List String) : terminalBytes (lines.map line) = [] := by
  unfold terminalBytes
  rw [List.filterMap_map, List.filterMap_eq_nil_iff]
  exact fun _ _ => rfl

end Output

theorem Session.terminalBytes_start (cpu : Cpu) (hooks : List Hook) :
    Output.terminalBytes (Session.start cpu hooks).output.toList = [] :=
  Output.terminalBytes_map_line _

/-! ### Hooks -/

namespace Hook

/-- The hooks of a list that do not only print. -/
def acting (hooks : List Hook) : List Hook := hooks.filter fun hook => !hook.kind.onlyPrints

variable {hook : Hook} {hooks : List Hook}

theorem acting_cons_of_onlyPrints (h : hook.kind.onlyPrints = true) :
    acting (hook :: hooks) = acting hooks :=
  List.filter_cons_of_neg (by simp [h])

theorem acting_cons_of_acts (h : hook.kind.onlyPrints = false) :
    acting (hook :: hooks) = hook :: acting hooks :=
  List.filter_cons_of_pos (by simp [h])

theorem acting_acting (hooks : List Hook) : acting (acting hooks) = acting hooks := by
  unfold acting
  rw [List.filter_filter]
  simp only [Bool.and_self]

theorem after_of_onlyPrints (h : hook.kind.onlyPrints = true) (now time : Nat) (r : Retired) (c : Cpu) :
    ∃ out, hook.after now time r c = (hook, c, out, none) ∧ Output.terminalBytes out = [] := by
  cases hook with
  | terminal _ | timer _ | script _ => cases h
  | dump d => exact ⟨_, rfl, Output.terminalBytes_map_line _⟩
  | trace => exact ⟨_, rfl, Output.terminalBytes_map_line [_]⟩

/-- **The hooks that do not only print** do alone what they do among all hooks, and are refused alike. -/
theorem afterAll_acting (now time : Nat) (r : Retired) (c : Cpu) (hooks : List Hook) :
    let all := afterAll now time r c hooks
    let kept := afterAll now time r c (acting hooks)
    kept.1 = acting all.1 ∧ kept.2.1 = all.2.1 ∧
      Output.terminalBytes kept.2.2.1 = Output.terminalBytes all.2.2.1 ∧ kept.2.2.2 = all.2.2.2 := by
  induction hooks generalizing c with
  | nil => exact ⟨rfl, rfl, rfl, rfl⟩
  | cons hook hooks ih =>
    intro all kept
    cases hkind : hook.kind.onlyPrints with
    | true =>
      obtain ⟨out, hafter, hnone⟩ := after_of_onlyPrints hkind now time r c
      have hrefusal : (hook.after now time r c).2.2.2 = none := by rw [hafter]
      obtain ⟨hhooks, hcpu, hbytes, hsame⟩ := ih c
      simp only [all, kept, acting_cons_of_onlyPrints hkind, afterAll_cons_of_none now time r hrefusal,
        hafter, Output.terminalBytes_append, hnone, List.nil_append]
      exact ⟨hhooks, hcpu, hbytes, hsame⟩
    | false =>
      have hstays : (hook.after now time r c).1.kind.onlyPrints = false := by rw [kind_after, hkind]
      cases hrefusal : (hook.after now time r c).2.2.2 with
      | some cause =>
        simp only [all, kept, acting_cons_of_acts hkind, afterAll_cons_of_some now time r hrefusal,
          acting_cons_of_acts hstays, and_self]
      | none =>
        obtain ⟨hhooks, hcpu, hbytes, hsame⟩ := ih (hook.after now time r c).2.1
        simp only [all, kept, acting_cons_of_acts hkind, acting_cons_of_acts hstays,
          afterAll_cons_of_none now time r hrefusal, Output.terminalBytes_append, hhooks, hcpu, hbytes,
          hsame, and_self]

theorem endAll_acting (hooks : List Hook) :
    Output.terminalBytes (endAll (acting hooks)).1 = Output.terminalBytes (endAll hooks).1 ∧
      (endAll (acting hooks)).2 = (endAll hooks).2 := by
  induction hooks with
  | nil => exact ⟨rfl, rfl⟩
  | cons hook hooks ih =>
    cases hkind : hook.kind.onlyPrints with
    | true =>
      have hne : hook.kind ≠ .terminal := fun h => by simp [h, HookKind.onlyPrints] at hkind
      have hending := ending_eq_nil hne
      rw [acting_cons_of_onlyPrints hkind, endAll_cons_of_none (by rw [hending]), hending]
      exact ih
    | false =>
      rw [acting_cons_of_acts hkind]
      cases hrefusal : hook.ending.2 with
      | some cause =>
        rw [endAll_cons_of_some hrefusal, endAll_cons_of_some hrefusal]
        exact ⟨rfl, rfl⟩
      | none =>
        rw [endAll_cons_of_none hrefusal, endAll_cons_of_none hrefusal]
        simp only [Output.terminalBytes_append, ih, and_self]

end Hook

/-! ### Runs side by side -/

/-- A run as another one is without its hooks that only print. -/
structure Session.Stripped (s bare : Session) : Prop where
  cpu : bare.cpu = s.cpu
  /-- The other hooks are in the same states; so of what is typed at a terminal, the same is left. -/
  hooks : bare.hooks = Hook.acting s.hooks
  /-- The terminals have printed the same. -/
  bytes : Output.terminalBytes bare.output.toList = Output.terminalBytes s.output.toList

namespace Session.Stripped

variable {s bare : Session}

theorem start (cpu : Cpu) (hooks : List Hook) :
    (Session.start cpu hooks).Stripped (Session.start cpu (Hook.acting hooks)) where
  cpu := rfl
  hooks := rfl
  bytes := by rw [terminalBytes_start, terminalBytes_start]

theorem withCpu (h : s.Stripped bare) (c : Cpu) :
    ({ s with cpu := c } : Session).Stripped { bare with cpu := c } :=
  ⟨rfl, h.hooks, h.bytes⟩

theorem acted (h : s.Stripped bare) (now time : Nat) (r : Retired) (c : Cpu) :
    (s.acted now time r c).Stripped (bare.acted now time r c) ∧
      bare.refusal? now time r c = s.refusal? now time r c := by
  obtain ⟨hhooks, hcpu, hbytes, hsame⟩ := Hook.afterAll_acting now time r c s.hooks
  rw [← h.hooks] at hhooks hcpu hbytes hsame
  refine ⟨⟨hcpu, hhooks, ?_⟩, hsame⟩
  simp only [Session.acted, Array.toList_appendList, Output.terminalBytes_append, h.bytes, hbytes]

theorem finish (h : s.Stripped bare) :
    s.finish.session.Stripped bare.finish.session ∧ bare.finish.fault = s.finish.fault := by
  obtain ⟨hbytes, hsame⟩ := Hook.endAll_acting s.hooks
  rw [← h.hooks] at hbytes hsame
  refine ⟨⟨h.cpu, h.hooks, ?_⟩, congrArg (Option.map RunError.terminal) hsame⟩
  simp only [Session.finish, Array.toList_appendList, Output.terminalBytes_append, h.bytes, hbytes]

end Session.Stripped

/-- What an entry tells of an instruction and of the hooks that do not only print: the processor after
both, and the states that these hooks are in. -/
def Entry.course (e : Entry) : Retired × Cpu × Option (Cpu × List Hook) :=
  (e.retired, e.cpu, e.acted?.map fun s => (s.cpu, Hook.acting s.hooks))

theorem Session.Stripped.course {s bare : Session} (h : s.Stripped bare) (r : Retired) (c : Cpu) :
    Entry.course ⟨r, c, some bare⟩ = Entry.course ⟨r, c, some s⟩ := by
  simp only [Entry.course, Option.map_some, h.cpu, h.hooks, Hook.acting_acting]

/-- **A run can be stripped** of its hooks that only print. -/
theorem Runs.strip {clock : Nat → Nat} {left time : Nat} {s bare : Session} {es : List Entry}
    {ended : Ended} (h : Runs clock left time s es ended) (hs : s.Stripped bare) :
    ∃ es' ended', Runs clock left time bare es' ended' ∧
      es'.map Entry.course = es.map Entry.course ∧ ended'.fault = ended.fault ∧
      ended.session.Stripped ended'.session := by
  induction h generalizing bare with
  | limit time s =>
    obtain ⟨hended, hfault⟩ := hs.finish
    exact ⟨_, _, .limit time bare, rfl, hfault, hended⟩
  | faulted h => exact ⟨_, _, .faulted (hs.cpu ▸ h), rfl, rfl, hs.withCpu _⟩
  | @halted left time s r c h hc =>
    obtain ⟨hended, hfault⟩ := (hs.withCpu c).finish
    exact ⟨_, _, .halted (hs.cpu ▸ h) hc, rfl, hfault, hended⟩
  | @broke left time s r cause c h hc hrefusal =>
    obtain ⟨hacted, hsame⟩ := hs.acted (clock time) time r c
    exact ⟨_, _, .broke (hs.cpu ▸ h) hc (hsame.trans hrefusal), rfl, rfl, hacted⟩
  | @refused left time s r f c c' h hc hrefusal hcheck =>
    obtain ⟨hacted, hsame⟩ := hs.acted (clock time) time r c
    rw [← hacted.cpu] at hcheck
    refine ⟨_, _, .refused (hs.cpu ▸ h) hc (hsame.trans hrefusal) hcheck, ?_, rfl, hacted.withCpu c'⟩
    rw [List.map_singleton, List.map_singleton, hacted.course]
  | @next left time s r line c c' es ended h hc hrefusal hcheck _ ih =>
    obtain ⟨hacted, hsame⟩ := hs.acted (clock time) time r c
    rw [← hacted.cpu] at hcheck
    obtain ⟨es', ended', hrest, hes, hfault, hended⟩ := ih (hacted.withCpu c')
    refine ⟨_, ended', .next (hs.cpu ▸ h) hc (hsame.trans hrefusal) hcheck hrest, ?_, hfault, hended⟩
    rw [List.map_cons, List.map_cons, hes, hacted.course]

/-- **Hooks that only print change nothing but what they print.** A run without timers, with any processor
and any limit, by whatever clocks, ends in the same way when its dumps and traces are taken out: with the
same error or none, with the same processor, with the same bytes printed by the terminals and with the
same left of what is typed at them. On the way the same instructions are executed on the same states, and
after each of them the other hooks are in the same states. -/
theorem run_acting {hooks : List Hook} (htimer : HookKind.timer ∉ hooks.map Hook.kind) (cpu : Cpu)
    (limit : Option Nat) (clock clock' : Nat → Nat) :
    let ended := run cpu hooks limit clock
    let bare := run cpu (Hook.acting hooks) limit clock'
    bare.fault = ended.fault ∧ ended.session.Stripped bare.session ∧
      (journal cpu (Hook.acting hooks) limit clock').map Entry.course =
        (journal cpu hooks limit clock).map Entry.course := by
  intro ended bare
  have hrun := (Session.start cpu hooks).runs clock (limit.getD defaultLimit) 0
  obtain ⟨es', ended', hbare, hes, hfault, hended⟩ :=
    (hrun.untimed htimer clock').strip (Session.Stripped.start cpu hooks)
  obtain ⟨rfl, rfl⟩ := hbare.eq
  exact ⟨hfault, hended, hes⟩

/-- A dump that shows the stack and a word at the end of memory, and a trace, between a terminal and a
script. -/
theorem run_acting_greeting :
    let dump : Hook := .dump { all := true, points := [(0x10, { stack := true, memory := [0xFFFF] })] }
    let terminal : Hook := .terminal { input := [0x78] }
    let script : Hook := .script { requests := [(0, 1)] }
    let cpu := Cpu.greeting.setReg .sp 0xFFFD
    let ended := run cpu [dump, terminal, .trace, script, dump] none fun _ => 0
    let bare := run cpu [terminal, script] none id
    HookKind.timer ∉ [dump, terminal, .trace, script, dump].map Hook.kind ∧
      bare.session.cpu = ended.session.cpu ∧
      Output.terminalBytes ended.session.output.toList = [0x68, 10] := by
  intro dump terminal script cpu ended bare
  have htimer : HookKind.timer ∉ [dump, terminal, .trace, script, dump].map Hook.kind := by decide
  obtain ⟨-, hstripped, -⟩ := run_acting htimer cpu none (fun _ => 0) id
  refine ⟨htimer, hstripped.cpu, ?_⟩
  rw [← hstripped.bytes]
  decide +kernel

end Sx16
