/-
# What a terminal conveys

A terminal that stands first among the hooks, and is the only one, sees the processor just after every
instruction that does not halt it. It prints the low byte of the word in its output cell if the word is
not zero, so that what it prints in a run are the low bytes of just those words, in their order, and it
clears the cell. It also takes the next character that is typed, if there is one, into its input cell and
requests its line. The hooks behind it leave memory alone and withdraw no request, so all this still
holds when interrupts are checked: no character is lost in either direction, and none comes twice.

For each word the terminal makes two calls to its writer, and one for the line feed at the end. A call
that is refused ends the run, so that only the byte of this call can be missing, or else the line feed.

Key definitions: `Entry.outWord`, `printedWords`, `Session.unread`, `Served`, `Conveyed`.
Key theorems: `Terminal.after_serves`, `Hook.afterAll_quiet`, `Session.serves`, `Conveyed.cons`,
`Runs.conveyed`, `run_conveys`, `run_conveys_refused`.
-/
import Sx16.Proofs.Run.Matched
import Sx16.Proofs.Run.Observed

namespace Sx16

/-! ### What is conveyed -/

/-- The word in the output cell just after an instruction. -/
def Entry.outWord (e : Entry) : UInt16 := e.cpu.memory.word terminalOut

/-- Whether the run goes on to the hooks after an instruction. -/
def Entry.goesOn (e : Entry) : Bool := !e.cpu.halted

/-- Whether interrupts are checked after an instruction, since no terminal has been refused. -/
def Entry.isServed (e : Entry) : Bool := e.acted?.isSome

/-- The words in the output cell after instructions that are not zero. -/
def printedWords (es : List Entry) : List UInt16 := (es.map Entry.outWord).filter (· ≠ 0)

/-- What is typed at a terminal that stands first among the hooks, and not read yet. -/
def Session.unread (s : Session) : List UInt8 :=
  match s.hooks with
  | .terminal t :: _ => t.input
  | _ => []

theorem Session.unread_of_hooks {s : Session} {t : Terminal} {rest : List Hook}
    (hs : s.hooks = .terminal t :: rest) : s.unread = t.input := by
  rw [unread, hs]

/-- What a terminal makes of the state `c` just after an instruction, where `typed` is the character that
it has to read. -/
structure Served (typed : Option UInt8) (c c' : Cpu) : Prop where
  cleared : c'.memory.word terminalOut = 0
  read : ∀ b, typed = some b →
    c'.memory.word terminalIn = b.toUInt16 ∧ c'.isPending Line.terminal = true
  unread : typed = none → c'.memory.word terminalIn = c.memory.word terminalIn

/-- What a terminal conveys in a run after whose instructions `es` the hooks act, and before which the
bytes `before` have been printed. -/
structure Conveyed (before : List UInt8) (t : Terminal) (es : List Entry) (ended : Ended) : Prop where
  /-- If no call is refused, the low bytes of the words that are not zero are printed, and a line feed at the
  end of a run without an error if the terminal has printed anything. -/
  printed : (∀ cause, ended.fault ≠ some (.terminal cause)) →
    let feed := ended.fault = none ∧ (t.wrote = true ∨ printedWords es ≠ [])
    Output.terminalBytes ended.session.output.toList =
        before ++ (printedWords es).map Word.low ++ (if feed then [10] else []) ∧
      t.writer.Accepts (2 * (printedWords es).length + if feed then 1 else 0)
  /-- If a call is refused, it is one for the word after the last instruction, or the line feed. The byte of
  the last word is missing if it is this byte that is refused. -/
  refused : ∀ cause, ended.fault = some (.terminal cause) → ∃ n, t.writer.refusal = some (n, cause) ∧
    Output.terminalBytes ended.session.output.toList =
      before ++ ((printedWords es).take ((n + 1) / 2)).map Word.low ∧
    ((n / 2 + 1 = (printedWords es).length ∧ ∃ e, es.getLast? = some e ∧ e.isServed = false) ∨
      (n = 2 * (printedWords es).length ∧ ∀ e ∈ es, e.isServed = true))
  /-- When interrupts are checked after an instruction, the terminal has served it with the character of
  the same number, if there is one, and what is left are the characters behind that. -/
  served : ∀ k e s, es[k]? = some e → e.acted? = some s →
    s.unread = t.input.drop (k + 1) ∧ Served t.input[k]? e.cpu s.cpu
  /-- They are checked after every instruction but the last one, if the terminal is refused there. -/
  unserved : ∀ k e, es[k]? = some e → e.isServed = false →
    k + 1 = es.length ∧ e.outWord ≠ 0 ∧ ∃ cause, ended.fault = some (.terminal cause)
  /-- In the end as many characters have been read as interrupts have been checked, or all. -/
  left : ended.session.unread = t.input.drop (es.filter Entry.isServed).length

/-! ### Hooks -/

namespace Terminal

variable {t : Terminal} {c : Cpu} {cause : String}

/-- Reading a character serves an instruction, if the output cell is clear. -/
theorem readIn_serves {c' : Cpu} (hout : c'.memory.word terminalOut = 0)
    (hin : c'.memory.word terminalIn = c.memory.word terminalIn) (t : Terminal) :
    (t.readIn c').1 = { t with input := t.input.tail } ∧ Served t.input.head? c (t.readIn c').2 := by
  obtain ⟨_ | ⟨b, rest⟩, wrote, writer⟩ := t
  · refine ⟨rfl, hout, fun b hb => ?_, fun _ => hin⟩
    cases hb
  · refine ⟨rfl, ?_, fun b' hb => ?_, fun hnone => ?_⟩
    · exact (word_putWord (by decide) (by decide) _ _).trans ((if_neg (by decide)).trans hout)
    · cases hb
      refine ⟨(word_putWord (by decide) (by decide) _ _).trans (if_pos rfl), ?_⟩
      show (Cpu.request _ _).isPending _ = true
      rw [Cpu.isPending_request, decide_eq_true rfl, Bool.true_or]
    · cases hnone

/-- A terminal that is not refused prints the word in its output cell and reads one character. -/
theorem after_serves (h : (t.after c).2.2.2 = none) :
    let calls := if c.memory.word terminalOut = 0 then 0 else 2
    (t.after c).1.input = t.input.tail ∧
      (t.after c).1.wrote = (t.wrote || decide (c.memory.word terminalOut ≠ 0)) ∧
      t.writer.Accepts calls ∧ (t.after c).1.writer = t.writer.past calls ∧
      Output.terminalBytes (t.after c).2.2.1 =
        (if c.memory.word terminalOut = 0 then [] else [Word.low (c.memory.word terminalOut)]) ∧
      Served t.input.head? c (t.after c).2.1 := by
  obtain ⟨hw, hprint⟩ | ⟨hw, ⟨_, -, hprint⟩ | ⟨_, -, hprint⟩ | ⟨haccepts, hprint⟩⟩ :=
    t.printOut_cases c
  · obtain ⟨hread, hserved⟩ := readIn_serves hw rfl t
    simp only [after_of_none hprint, hw, if_true, hread, ne_eq, not_true, decide_false, Bool.or_false,
      true_and]
    exact ⟨t.writer.accepts_zero, t.writer.past_zero.symm, rfl, hserved⟩
  · rw [after_of_some hprint] at h
    cases h
  · rw [after_of_some hprint] at h
    cases h
  · have hout : (c.putWord terminalOut 0).memory.word terminalOut = 0 :=
      (word_putWord (by decide) (by decide) _ _).trans (if_pos rfl)
    have hin : (c.putWord terminalOut 0).memory.word terminalIn = c.memory.word terminalIn :=
      (word_putWord (by decide) (by decide) _ _).trans (if_neg (by decide))
    obtain ⟨hread, hserved⟩ :=
      readIn_serves hout hin { t with writer := t.writer.past 2, wrote := true }
    simp only [after_of_none hprint, hread, ne_eq, hw, not_false_eq_true, decide_true, Bool.or_true,
      if_false, true_and]
    exact ⟨haccepts, rfl, hserved⟩

/-- A terminal that is refused has its first or its second call refused, and does not print the byte of
the first. -/
theorem after_refused (h : (t.after c).2.2.2 = some cause) :
    c.memory.word terminalOut ≠ 0 ∧ (t.after c).1.input = t.input ∧
      ∃ n < 2, t.writer.refusal = some (n, cause) ∧ Output.terminalBytes (t.after c).2.2.1 =
        ([c.memory.word terminalOut].take ((n + 1) / 2)).map Word.low := by
  obtain ⟨-, hprint⟩ | ⟨hw, ⟨cause', hrefusal, hprint⟩ | ⟨cause', hrefusal, hprint⟩ | ⟨-, hprint⟩⟩ :=
    t.printOut_cases c
  · rw [after_of_none hprint] at h
    cases h
  · rw [after_of_some hprint] at h ⊢
    cases h
    exact ⟨hw, rfl, 0, by decide, hrefusal, rfl⟩
  · rw [after_of_some hprint] at h ⊢
    cases h
    exact ⟨hw, rfl, 1, by decide, hrefusal, rfl⟩
  · rw [after_of_none hprint] at h
    cases h

end Terminal

namespace Hook

variable (now time : Nat) (r : Retired) {hook : Hook} {hooks : List Hook}

/-- A hook other than a terminal leaves memory alone and prints none of the terminals' bytes. -/
theorem after_quiet (h : hook.kind ≠ .terminal) (c : Cpu) :
    (hook.after now time r c).2.1.memory = c.memory ∧
      Output.terminalBytes (hook.after now time r c).2.2.1 = [] := by
  cases hook with
  | terminal t => exact absurd rfl h
  | timer t =>
    simp only [after, Timer.after]
    split <;> exact ⟨rfl, rfl⟩
  | script s =>
    simp only [after, Script.after]
    split <;> exact ⟨rfl, rfl⟩
  | dump d => exact ⟨rfl, Output.terminalBytes_map_line _⟩
  | trace => exact ⟨rfl, Output.terminalBytes_map_line [_]⟩

theorem isPending_after {c : Cpu} {line : Line} (h : c.isPending line = true) (hook : Hook) :
    (hook.after now time r c).2.1.isPending line = true := by
  cases hrefusal : (hook.after now time r c).2.2.2 with
  | some cause => rwa [cpu_of_refused now time r hrefusal]
  | none =>
    rw [Cpu.isPending_congr (pending_after hrefusal), Cpu.isPending_foldl_request]
    exact .inl h

/-- Hooks without a terminal among them leave memory alone, withdraw no request, print none of the
terminals' bytes and are not refused. -/
theorem afterAll_quiet (h : HookKind.terminal ∉ hooks.map kind) (c : Cpu) :
    let all := afterAll now time r c hooks
    all.2.1.memory = c.memory ∧ Output.terminalBytes all.2.2.1 = [] ∧ all.2.2.2 = none ∧
      ∀ line, c.isPending line = true → all.2.1.isPending line = true := by
  induction hooks generalizing c with
  | nil => exact ⟨rfl, rfl, rfl, fun _ h => h⟩
  | cons hook hooks ih =>
    rw [List.map_cons, List.mem_cons, not_or] at h
    obtain ⟨hmemory, hbytes⟩ := after_quiet now time r (Ne.symm h.1) c
    obtain ⟨hmemory', hbytes', hrefusal, hpending⟩ := ih h.2 (hook.after now time r c).2.1
    rw [afterAll_cons_of_none now time r (refusal_after now time r (Ne.symm h.1) c)]
    refine ⟨hmemory'.trans hmemory, ?_, hrefusal, fun line hline => ?_⟩
    · rw [Output.terminalBytes_append, hbytes, hbytes', List.append_nil]
    · exact hpending line (isPending_after now time r hline hook)

theorem endAll_quiet (h : HookKind.terminal ∉ hooks.map kind) : endAll hooks = ([], none) := by
  induction hooks with
  | nil => rfl
  | cons hook hooks ih =>
    rw [List.map_cons, List.mem_cons, not_or] at h
    have hending := ending_eq_nil (Ne.symm h.1)
    rw [endAll_cons_of_none (by rw [hending]), hending, ih h.2]
    rfl

end Hook

/-! ### One instruction -/

theorem Served.of_same {typed : Option UInt8} {c c' c'' : Cpu} (h : Served typed c c')
    (hmemory : c''.memory = c'.memory)
    (hpending : ∀ line, c'.isPending line = true → c''.isPending line = true) :
    Served typed c c'' where
  cleared := hmemory ▸ h.cleared
  read b hb := ⟨hmemory ▸ (h.read b hb).1, hpending _ (h.read b hb).2⟩
  unread hnone := hmemory ▸ h.unread hnone

namespace Session

variable {s : Session} {t : Terminal} {rest : List Hook} (now time : Nat) (r : Retired) {c : Cpu}

/-- Only the terminal that stands first can be refused. -/
theorem refusal?_eq (hs : s.hooks = .terminal t :: rest)
    (hrest : HookKind.terminal ∉ rest.map Hook.kind) :
    s.refusal? now time r c = (t.after c).2.2.2 := by
  unfold refusal?
  rw [hs]
  have hfirst : ((Hook.terminal t).after now time r c).2.2.2 = (t.after c).2.2.2 := rfl
  cases hrefusal : (t.after c).2.2.2 with
  | some cause => rw [Hook.afterAll_cons_of_some now time r (hfirst.trans hrefusal)]
  | none =>
    rw [Hook.afterAll_cons_of_none now time r (hfirst.trans hrefusal)]
    exact (Hook.afterAll_quiet now time r hrest _).2.2.1

/-- **After an instruction** where it is not refused, the terminal has served it, and the hooks are the
terminal and the others again. -/
theorem serves (hs : s.hooks = .terminal t :: rest) (hrest : HookKind.terminal ∉ rest.map Hook.kind)
    (h : (t.after c).2.2.2 = none) :
    let a := s.acted now time r c
    (∃ rest', a.hooks = .terminal (t.after c).1 :: rest' ∧ HookKind.terminal ∉ rest'.map Hook.kind) ∧
      Output.terminalBytes a.output.toList = Output.terminalBytes s.output.toList ++
        Output.terminalBytes (t.after c).2.2.1 ∧
      Served t.input.head? c a.cpu := by
  obtain ⟨-, -, -, -, -, hserved⟩ := Terminal.after_serves h
  obtain ⟨hmemory, hbytes, -, hpending⟩ := Hook.afterAll_quiet now time r hrest (t.after c).2.1
  have hfirst : ((Hook.terminal t).after now time r c).2.2.2 = none := h
  simp only [acted, hs, Hook.afterAll_cons_of_none now time r hfirst]
  refine ⟨⟨_, rfl, ?_⟩, ?_, Served.of_same hserved hmemory hpending⟩
  · rw [Hook.kinds_afterAll]
    exact hrest
  · rw [Array.toList_appendList, Output.terminalBytes_append, Output.terminalBytes_append]
    exact congrArg _ ((congrArg _ hbytes).trans (List.append_nil _))

theorem acted_of_refused {cause : String} (hs : s.hooks = .terminal t :: rest)
    (h : (t.after c).2.2.2 = some cause) :
    let a := s.acted now time r c
    a.hooks = .terminal (t.after c).1 :: rest ∧ Output.terminalBytes a.output.toList =
      Output.terminalBytes s.output.toList ++ Output.terminalBytes (t.after c).2.2.1 := by
  have hfirst : ((Hook.terminal t).after now time r c).2.2.2 = some cause := h
  simp only [acted, hs, Hook.afterAll_cons_of_some now time r hfirst]
  exact ⟨rfl, by rw [Array.toList_appendList, Output.terminalBytes_append]; rfl⟩

/-- Of the hooks, the terminal alone prints bytes of its own at the end, and can be refused them. -/
theorem finish_eq (hs : s.hooks = .terminal t :: rest)
    (hrest : HookKind.terminal ∉ rest.map Hook.kind) :
    s.finish.fault = t.ending.2.map RunError.terminal ∧
      Output.terminalBytes s.finish.session.output.toList =
        Output.terminalBytes s.output.toList ++ Output.terminalBytes t.ending.1 := by
  have hquiet := Hook.endAll_quiet hrest
  have hfirst : (Hook.terminal t).ending = t.ending := rfl
  unfold finish
  rw [hs]
  cases hrefusal : t.ending.2 with
  | some cause =>
    rw [Hook.endAll_cons_of_some (hfirst ▸ hrefusal)]
    exact ⟨rfl, by rw [Array.toList_appendList, Output.terminalBytes_append]; rfl⟩
  | none =>
    rw [Hook.endAll_cons_of_none (hfirst ▸ hrefusal), hquiet]
    refine ⟨rfl, ?_⟩
    rw [List.append_nil, Array.toList_appendList, Output.terminalBytes_append]
    rfl

end Session

/-! ### Runs -/

theorem printedWords_cons (e : Entry) (es : List Entry) : printedWords (e :: es) =
    if e.outWord = 0 then printedWords es else e.outWord :: printedWords es := by
  unfold printedWords
  rw [List.map_cons]
  by_cases hzero : e.outWord = 0
  · rw [if_pos hzero, List.filter_cons_of_neg (by simp [hzero])]
  · rw [if_neg hzero, List.filter_cons_of_pos (by simp [hzero])]

namespace Conveyed

variable {before : List UInt8} {t : Terminal} {es : List Entry} {ended : Ended} {s : Session}
  {rest : List Hook}

/-- A run that no instruction follows ends the terminal's output. -/
theorem of_finish (hs : s.hooks = .terminal t :: rest)
    (hrest : HookKind.terminal ∉ rest.map Hook.kind) :
    Conveyed (Output.terminalBytes s.output.toList) t [] s.finish := by
  obtain ⟨hfault, hbytes⟩ := Session.finish_eq hs hrest
  constructor
  case printed =>
    intro hnone
    rw [hbytes]
    obtain ⟨hwrote, hending⟩ | ⟨hwrote, ⟨cause, -, hending⟩ | ⟨haccepts, hending⟩⟩ := t.ending_cases
    · simp [hfault, hending, hwrote, printedWords, Writer.accepts_zero, Output.terminalBytes]
    · exact absurd (hfault.trans (by rw [hending]; rfl)) (hnone cause)
    · simp [hfault, hending, hwrote, printedWords, haccepts, Output.terminalBytes, Output.terminal?]
  case refused =>
    intro cause hcause
    rw [hbytes]
    obtain ⟨-, hending⟩ | ⟨-, ⟨cause', hrefusal, hending⟩ | ⟨-, hending⟩⟩ := t.ending_cases
    · rw [hfault, hending] at hcause
      cases hcause
    · rw [hfault, hending] at hcause
      cases hcause
      refine ⟨0, hrefusal, ?_, .inr ⟨rfl, fun e he => ?_⟩⟩
      · rw [hending]
        rfl
      · cases he
    · rw [hfault, hending] at hcause
      cases hcause
  case served => exact fun k e s he => (nomatch he)
  case unserved => exact fun k e he => (nomatch he)
  case left => exact Session.unread_of_hooks hs

theorem of_fault (hs : s.hooks = .terminal t :: rest) (f : Fault) :
    Conveyed (Output.terminalBytes s.output.toList) t [] ⟨s, some (.processor f)⟩ where
  printed _ := by simp [printedWords, Writer.accepts_zero]
  refused cause h := by cases h
  served k e s he := by cases he
  unserved k e he := by cases he
  left := Session.unread_of_hooks hs

/-- An instruction after which the terminal is refused is the last one. -/
theorem of_refused {r : Retired} {c : Cpu} {cause : String} (hs : s.hooks = .terminal t :: rest)
    (h : (t.after c).2.2.2 = some cause) (now time : Nat) :
    Conveyed (Output.terminalBytes s.output.toList) t [⟨r, c, none⟩]
      ⟨s.acted now time r c, some (.terminal cause)⟩ := by
  obtain ⟨hhooks, hbytes⟩ := Session.acted_of_refused now time r hs h
  obtain ⟨hw, hinput, n, hn, hrefusal, hprinted⟩ := Terminal.after_refused h
  have hwords : printedWords [⟨r, c, none⟩] = [c.memory.word terminalOut] :=
    (printedWords_cons _ []).trans (if_neg hw)
  have hone : ∀ {k e}, [(⟨r, c, none⟩ : Entry)][k]? = some e → k = 0 ∧ e = ⟨r, c, none⟩ := by
    rintro (_ | k) e he
    · exact ⟨rfl, (Option.some.inj he).symm⟩
    · cases he
  refine ⟨fun hno => absurd rfl (hno cause), fun cause' hcause => ?_, fun k e s he ha => ?_,
    fun k e he _ => ?_, (Session.unread_of_hooks hhooks).trans hinput⟩
  · cases hcause
    rw [hwords, hbytes, hprinted]
    refine ⟨n, hrefusal, rfl, .inl ⟨?_, _, rfl, rfl⟩⟩
    rw [List.length_singleton]
    omega
  · obtain ⟨-, rfl⟩ := hone he
    cases ha
  · obtain ⟨rfl, rfl⟩ := hone he
    exact ⟨rfl, hw, cause, rfl⟩

/-- What is conveyed of an instruction and of those that follow it. -/
theorem cons {e : Entry} {a : Session} (ha : e.acted? = some a) (he : (t.after e.cpu).2.2.2 = none)
    (hhooks : a.hooks = .terminal (t.after e.cpu).1 :: rest) (hserved : Served t.input.head? e.cpu a.cpu)
    (h : Conveyed (before ++ Output.terminalBytes (t.after e.cpu).2.2.1) (t.after e.cpu).1 es ended) :
    Conveyed before t (e :: es) ended := by
  obtain ⟨hinput, hwrote, haccepts, hwriter, hbytes, -⟩ := Terminal.after_serves he
  have hserves : e.isServed = true := by rw [Entry.isServed, ha]; rfl
  -- The calls and the bytes for this instruction are those for the first of the words, if it is one.
  have hwords := printedWords_cons e es
  unfold Entry.outWord at hwords
  constructor
  case printed =>
    intro hno
    obtain ⟨hprinted, hcalls⟩ := h.printed hno
    rw [hwriter] at hcalls
    have hcalls := Writer.accepts_add_iff.mpr ⟨haccepts, hcalls⟩
    rw [hprinted, hbytes, hwords]
    rw [hwrote] at hcalls ⊢
    by_cases hzero : e.cpu.memory.word terminalOut = 0
    · simpa [hzero] using hcalls
    · simp only [hzero, if_false, ne_eq, not_false_eq_true, decide_true, Bool.or_true, true_or, and_true,
        reduceCtorEq, or_true] at hcalls ⊢
      refine ⟨by simp, ?_⟩
      rw [List.length_cons]
      convert hcalls using 1
      omega
  case refused =>
    intro cause hcause
    obtain ⟨n, hrefusal, hprinted, hlast⟩ := h.refused cause hcause
    rw [hwriter, Writer.refusal_past_eq_some_iff haccepts] at hrefusal
    refine ⟨_, hrefusal, ?_, ?_⟩
    · rw [hprinted, hbytes, hwords]
      by_cases hzero : e.cpu.memory.word terminalOut = 0
      · simp [hzero]
      · have hhalf : (2 + n + 1) / 2 = (n + 1) / 2 + 1 := by omega
        simp [hzero, hhalf]
    · have hlength : (printedWords (e :: es)).length =
          (printedWords es).length + if e.cpu.memory.word terminalOut = 0 then 0 else 1 := by
        rw [hwords]
        split <;> rfl
      have hcalls : (if e.cpu.memory.word terminalOut = 0 then 0 else 2) =
          2 * if e.cpu.memory.word terminalOut = 0 then 0 else 1 := by
        split <;> rfl
      obtain ⟨hlast, e', he', hnot⟩ | ⟨hlast, hall⟩ := hlast
      · refine .inl ⟨by omega, e', ?_, hnot⟩
        rw [List.getLast?_cons, he']
        rfl
      · exact .inr ⟨by omega, List.forall_mem_cons.mpr ⟨hserves, hall⟩⟩
  case served =>
    rintro (_ | k) e' s he' hs
    · cases he'
      cases ha.symm.trans hs
      refine ⟨?_, by rwa [← List.head?_eq_getElem?]⟩
      rw [Session.unread_of_hooks hhooks, hinput, List.drop_one]
    · obtain ⟨hleft, hserved'⟩ := h.served k e' s he' hs
      rw [hinput, List.drop_tail] at hleft
      rw [hinput, List.getElem?_tail] at hserved'
      exact ⟨hleft, hserved'⟩
  case unserved =>
    rintro (_ | k) e' he' hnot
    · cases he'
      exact absurd (hserves.symm.trans hnot) (by simp)
    · obtain ⟨hlast, hw, hfault⟩ := h.unserved k e' he' hnot
      exact ⟨congrArg (· + 1) hlast, hw, hfault⟩
  case left =>
    rw [h.left, hinput, List.drop_tail, List.filter_cons_of_pos hserves, List.length_cons]

end Conveyed

namespace Runs

variable {clock : Nat → Nat} {left time : Nat} {s : Session} {es : List Entry} {ended : Ended}

/-- A terminal conveys what is there after the instructions from which the run goes on. -/
theorem conveyed (h : Runs clock left time s es ended) {t : Terminal} {rest : List Hook}
    (hs : s.hooks = .terminal t :: rest) (hrest : HookKind.terminal ∉ rest.map Hook.kind) :
    Conveyed (Output.terminalBytes s.output.toList) t (es.filter Entry.goesOn) ended := by
  -- What an instruction adds to the terminal's output is there before the rest of the run.
  induction h generalizing t rest with
  | limit time s => exact .of_finish hs hrest
  | @faulted left time s f c h => exact .of_fault (s := { s with cpu := c }) hs f
  | @halted left time s r c h hc =>
    rw [List.filter_cons_of_neg (by simp [Entry.goesOn, hc])]
    exact .of_finish (s := { s with cpu := c }) hs hrest
  | @broke left time s r cause c h hc hrefusal =>
    rw [Session.refusal?_eq _ _ _ hs hrest] at hrefusal
    rw [List.filter_cons_of_pos (by simp [Entry.goesOn, hc])]
    exact .of_refused hs hrefusal (clock time) time
  | @refused left time s r f c c' h hc hrefusal hcheck =>
    rw [Session.refusal?_eq _ _ _ hs hrest] at hrefusal
    obtain ⟨⟨rest', hhooks, -⟩, hbytes, hserved⟩ :=
      Session.serves (clock time) time r hs hrest hrefusal
    rw [List.filter_cons_of_pos (by simp [Entry.goesOn, hc])]
    refine .cons rfl hrefusal hhooks hserved ?_
    rw [← hbytes]
    exact .of_fault (s := { s.acted (clock time) time r c with cpu := c' }) hhooks f
  | @next left time s r line c c' es ended h hc hrefusal hcheck _ ih =>
    rw [Session.refusal?_eq _ _ _ hs hrest] at hrefusal
    obtain ⟨⟨rest', hhooks, hrest'⟩, hbytes, hserved⟩ :=
      Session.serves (clock time) time r hs hrest hrefusal
    rw [List.filter_cons_of_pos (by simp [Entry.goesOn, hc])]
    refine .cons rfl hrefusal hhooks hserved ?_
    rw [← hbytes]
    exact ih hhooks hrest'

/-- Once the processor has halted, the run does not go on from any instruction. -/
theorem stops (h : Runs clock left time s es ended) (hs : s.cpu.halted = true) :
    es.filter Entry.goesOn = [] := by
  have hhalted : ∀ {r c}, Cpu.step.run s.cpu = .ok r c → c.halted = true := fun h => by
    rw [Cpu.halted_of_step h, hs, Bool.true_or]
  cases h with
  | limit | faulted => rfl
  | halted _ hc => exact List.filter_cons_of_neg (by simp [Entry.goesOn, hc])
  | broke h hc | refused h hc | next h hc =>
    exact absurd (hc.symm.trans (hhalted h)) Bool.false_ne_true

/-- A processor that has not halted goes on from every instruction but `HALT`. -/
theorem goesOn_eq (h : Runs clock left time s es ended) (hs : s.cpu.halted = false) :
    ∀ e ∈ es, e.goesOn = decide (e.retired.opcode ≠ .halt) := by
  have hop : ∀ {s : Session} {r c} {a : Option Session}, s.cpu.halted = false →
      Cpu.step.run s.cpu = .ok r c → (⟨r, c, a⟩ : Entry).goesOn = decide (r.opcode ≠ .halt) :=
    fun hs h => by
      rw [Entry.goesOn, Cpu.halted_of_step h, hs, Bool.false_or, decide_not]
      rfl
  induction h with
  | limit | faulted => exact fun e he => (nomatch he)
  | halted h | broke h | refused h =>
    rw [List.forall_mem_singleton]
    exact hop hs h
  | next h hc _ hcheck _ ih =>
    exact List.forall_mem_cons.mpr ⟨hop hs h, ih (Session.going_of_check hc hcheck)⟩

end Runs

/-- **A terminal loses no character and repeats none.** Let a terminal stand first among the hooks and be
the only one, and let the run start with any processor that has not halted. If its writer refuses no call
of the run, the bytes printed are the low bytes of just those words, in their order, that are in the output
cell after an instruction other than `HALT` and are not zero, with a line feed at the end if there is any and
the run ends without an error; otherwise the run ends with the refusal, and the byte of the last of these
words is missing if it has been refused. The output cell is zero whenever a check for interrupts begins; and
each such instruction has the next of the characters typed, if one is left, read into the input cell and its
line requested before the check, which only does not follow the last instruction if the terminal is
refused there. A processor that has halted already executes one instruction at most and its hooks do not
act: no character is printed then and none read. -/
theorem run_conveys {rest : List Hook} (hrest : HookKind.terminal ∉ rest.map Hook.kind) (t : Terminal)
    (cpu : Cpu) (limit : Option Nat) (clock : Nat → Nat) :
    let hooks := .terminal t :: rest
    let ended := run cpu hooks limit clock
    let followed := (journal cpu hooks limit clock).filter (·.retired.opcode ≠ .halt)
    (cpu.halted = false → Conveyed [] t followed ended) ∧
      (cpu.halted = true → Conveyed [] t [] ended) := by
  intro hooks ended followed
  have hrun := (Session.start cpu hooks).runs clock (limit.getD defaultLimit) 0
  have hconveyed := hrun.conveyed rfl hrest
  rw [Session.terminalBytes_start] at hconveyed
  refine ⟨fun hgoing => ?_, fun hhalted => ?_⟩
  · rwa [List.filter_congr (hrun.goesOn_eq hgoing)] at hconveyed
  · rwa [hrun.stops hhalted] at hconveyed

/-- Two characters are typed at a program that executes one instruction before it halts. -/
theorem run_conveys_greeting :
    let rest := [.script { requests := [(0, 1)] }, .trace]
    let ended := run Cpu.greeting (.terminal { input := [0x78, 0x79] } :: rest) none fun _ => 0
    HookKind.terminal ∉ rest.map Hook.kind ∧
      Output.terminalBytes ended.session.output.toList = [0x68, 10] ∧
      ended.session.unread = [0x79] := by
  intro rest ended
  have hrest : HookKind.terminal ∉ rest.map Hook.kind := by decide
  obtain ⟨hconveyed, -⟩ := run_conveys hrest { input := [0x78, 0x79] } Cpu.greeting none fun _ => 0
  have h := hconveyed rfl
  have hunrefused : ∀ cause, ended.fault ≠ some (.terminal cause) := fun cause hcause => by
    obtain ⟨n, hrefusal, -⟩ := h.refused cause hcause
    cases hrefusal
  refine ⟨hrest, ?_, ?_⟩
  · rw [(h.printed hunrefused).1]
    decide +kernel
  · rw [h.left]
    decide +kernel

/-- **A character that is lost.** The writer refuses the first byte, so nothing is printed of the word in
the output cell. -/
theorem run_conveys_refused :
    let hooks := [.terminal { writer := { refusal := some (0, "No space left on device") } }]
    let ended := run Cpu.greeting hooks none fun _ => 0
    let followed := (journal Cpu.greeting hooks none fun _ => 0).filter (·.retired.opcode ≠ .halt)
    Cpu.greeting.halted = false ∧ (printedWords followed).map Word.low = [0x68] ∧
      Output.terminalBytes ended.session.output.toList = [] ∧
      ended.fault = some (.terminal "No space left on device") := by
  decide +kernel

end Sx16
