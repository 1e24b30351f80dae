/-
# What hooks do after an instruction

A terminal with a word in its output cell makes two calls to its writer. If both are accepted, it prints
and clears the cell; if one is refused, it leaves the processor as it is. Then, and also if the cell is 0
from the start, it reads one character that is typed. Hooks act one after the other until one of them is
refused. They stay of their kind, only a terminal is refused, and only a timer looks at the clock.

Key definitions: `Writer.past`, `Writer.Accepts`, `HookKind`.
Key theorems: `Writer.call_cases`, `Terminal.printOut_cases`, `Hook.cpu_of_refused`,
`Hook.afterAll_cons_of_none`, `Hook.afterAll_cons_of_some`, `Hook.view_afterAll`, `Hook.afterAll_untimed`.
-/
import Sx16.Run.Session

namespace Sx16

/-! ### Writers -/

namespace Writer

/-- The writer after some more calls, if it has accepted them. -/
def past (w : Writer) (n : Nat) : Writer where
  refusal := w.refusal.map fun r => (r.1 - n, r.2)

/-- So many further calls are accepted. -/
def Accepts (w : Writer) (n : Nat) : Prop := ∀ k cause, w.refusal = some (k, cause) → n ≤ k

theorem past_zero (w : Writer) : w.past 0 = w := by
  obtain ⟨_ | r⟩ := w <;> rfl

theorem accepts_zero (w : Writer) : w.Accepts 0 := fun k _ _ => Nat.zero_le k

theorem past_past (w : Writer) (m n : Nat) : (w.past m).past n = w.past (m + n) := by
  simp [past, Function.comp_def, Nat.sub_sub]

theorem refusal_past_eq_some_iff {w : Writer} {n k : Nat} {cause : String} (h : w.Accepts n) :
    (w.past n).refusal = some (k, cause) ↔ w.refusal = some (n + k, cause) := by
  unfold past
  cases hrefusal : w.refusal with
  | none => simp
  | some r =>
    have hle := h r.1 r.2 hrefusal
    simp only [Option.map_some, Option.some.injEq, Prod.ext_iff]
    refine and_congr_left fun _ => ?_
    omega

theorem accepts_add_iff {w : Writer} {m n : Nat} :
    w.Accepts (m + n) ↔ w.Accepts m ∧ (w.past m).Accepts n := by
  constructor
  · intro h
    have hm : w.Accepts m := fun k cause hk => Nat.le_trans (Nat.le_add_right m n) (h k cause hk)
    refine ⟨hm, fun k cause hk => ?_⟩
    have := h _ _ ((refusal_past_eq_some_iff hm).mp hk)
    omega
  · rintro ⟨hm, hn⟩ k cause hk
    have hle := hm k cause hk
    have hpast : (w.past m).refusal = some (k - m, cause) := by
      rw [refusal_past_eq_some_iff hm, hk, Nat.add_sub_cancel' hle]
    have := hn _ _ hpast
    omega

theorem call_cases (w : Writer) :
    (∃ cause, w.refusal = some (0, cause) ∧ w.call = (w, some cause)) ∨
      (w.Accepts 1 ∧ w.call = (w.past 1, none)) := by
  obtain ⟨_ | ⟨n, cause⟩⟩ := w
  · refine .inr ⟨fun _ _ h => ?_, rfl⟩
    cases h
  · cases n with
    | zero => exact .inl ⟨cause, rfl, rfl⟩
    | succ n =>
      refine .inr ⟨fun k cause' h => ?_, rfl⟩
      cases h
      exact Nat.le_add_left 1 n

end Writer

/-! ### Terminals -/

namespace Terminal

/-- **What becomes of the word in the output cell.** It is 0, or its byte is refused, or the flush behind
that, or it is printed and cleared. -/
theorem printOut_cases (t : Terminal) (c : Cpu) :
    let w := c.memory.word terminalOut
    (w = 0 ∧ t.printOut c = (t, c, [], none)) ∨ (w ≠ 0 ∧
      ((∃ cause, t.writer.refusal = some (0, cause) ∧ t.printOut c = (t, c, [], some cause)) ∨
      (∃ cause, t.writer.refusal = some (1, cause) ∧ t.printOut c =
        ({ t with writer := t.writer.past 1 }, c, [.terminal (Word.low w)], some cause)) ∨
      (t.writer.Accepts 2 ∧ t.printOut c = ({ t with writer := t.writer.past 2, wrote := true },
        c.putWord terminalOut 0, [.terminal (Word.low w)], none)))) := by
  intro w
  unfold printOut
  by_cases hw : c.memory.word terminalOut = 0
  · exact .inl ⟨hw, if_pos hw⟩
  · refine .inr ⟨hw, ?_⟩
    simp only [if_neg hw]
    obtain ⟨cause, hrefusal, hcall⟩ | ⟨haccepts, hcall⟩ := t.writer.call_cases
    · exact .inl ⟨cause, hrefusal, by rw [hcall]⟩
    · simp only [hcall]
      obtain ⟨cause, hrefusal, hcall'⟩ | ⟨haccepts', hcall'⟩ := (t.writer.past 1).call_cases
      · rw [Writer.refusal_past_eq_some_iff haccepts] at hrefusal
        exact .inr (.inl ⟨cause, hrefusal, by rw [hcall']⟩)
      · refine .inr (.inr ⟨Writer.accepts_add_iff.mpr ⟨haccepts, haccepts'⟩, ?_⟩)
        rw [hcall', Writer.past_past]

theorem after_of_some {t t' : Terminal} {c c' : Cpu} {out : List Output} {cause : String}
    (h : t.printOut c = (t', c', out, some cause)) : t.after c = (t', c', out, some cause) := by
  rw [after, h]

theorem after_of_none {t t' : Terminal} {c c' : Cpu} {out : List Output}
    (h : t.printOut c = (t', c', out, none)) :
    t.after c = ((t'.readIn c').1, (t'.readIn c').2, out, none) := by
  rw [after, h]

theorem cpu_of_refused {t : Terminal} {c : Cpu} {cause : String}
    (h : (t.after c).2.2.2 = some cause) : (t.after c).2.1 = c := by
  obtain ⟨-, hprint⟩ | ⟨-, ⟨_, -, hprint⟩ | ⟨_, -, hprint⟩ | ⟨-, hprint⟩⟩ := t.printOut_cases c
  · rw [after_of_none hprint] at h
    cases h
  · rw [after_of_some hprint]
  · rw [after_of_some hprint]
  · rw [after_of_none hprint] at h
    cases h

/-- A terminal that is not refused clears its output cell and reads a character. -/
theorem cpu_of_accepted {t : Terminal} {c : Cpu} (h : (t.after c).2.2.2 = none) :
    (t.after c).2.1 =
      (t.readIn (if c.memory.word terminalOut = 0 then c else c.putWord terminalOut 0)).2 := by
  obtain ⟨hw, hprint⟩ | ⟨hw, ⟨_, -, hprint⟩ | ⟨_, -, hprint⟩ | ⟨-, hprint⟩⟩ := t.printOut_cases c
  · rw [after_of_none hprint, if_pos hw]
  · rw [after_of_some hprint] at h
    cases h
  · rw [after_of_some hprint] at h
    cases h
  · rw [after_of_none hprint, if_neg hw]
    simp only [readIn]
    cases t.input <;> rfl

/-- A terminal that has printed ends its output with a line feed, if that is not refused. -/
theorem ending_cases (t : Terminal) :
    (t.wrote = false ∧ t.ending = ([], none)) ∨ (t.wrote = true ∧
      ((∃ cause, t.writer.refusal = some (0, cause) ∧ t.ending = ([], some cause)) ∨
      (t.writer.Accepts 1 ∧ t.ending = ([.terminal 10], none)))) := by
  unfold ending
  cases hwrote : t.wrote with
  | false => exact .inl ⟨rfl, rfl⟩
  | true =>
    refine .inr ⟨rfl, ?_⟩
    obtain ⟨cause, hrefusal, hcall⟩ | ⟨haccepts, hcall⟩ := t.writer.call_cases
    · exact .inl ⟨cause, hrefusal, by rw [hcall]; rfl⟩
    · exact .inr ⟨haccepts, by rw [hcall]; rfl⟩

end Terminal

/-! ### Kinds of hooks -/

/-- The kinds of hooks. -/
inductive HookKind where
  | terminal | timer | script | dump | trace
  deriving DecidableEq

namespace Hook

/-- The kind of a hook. -/
def kind : Hook → HookKind
  | terminal _ => .terminal
  | timer _ => .timer
  | script _ => .script
  | dump _ => .dump
  | trace => .trace

variable (now time : Nat) (r : Retired) {hook : Hook} {c : Cpu} {cause : String}

/-- Hooks act one after the other, until one of them is refused. -/
theorem afterAll_cons_of_none (h : (hook.after now time r c).2.2.2 = none) (hooks : List Hook) :
    afterAll now time r c (hook :: hooks) =
      let first := hook.after now time r c
      let rest := afterAll now time r first.2.1 hooks
      (first.1 :: rest.1, rest.2.1, first.2.2.1 ++ rest.2.2.1, rest.2.2.2) := by
  rw [afterAll]
  generalize hook.after now time r c = first at h ⊢
  obtain ⟨hook', c', out, refusal⟩ := first
  subst h
  rfl

theorem afterAll_cons_of_some (h : (hook.after now time r c).2.2.2 = some cause)
    (hooks : List Hook) : afterAll now time r c (hook :: hooks) =
      let first := hook.after now time r c
      (first.1 :: hooks, first.2.1, first.2.2.1, some cause) := by
  rw [afterAll]
  generalize hook.after now time r c = first at h ⊢
  obtain ⟨hook', c', out, refusal⟩ := first
  subst h
  rfl

theorem endAll_cons_of_none (h : hook.ending.2 = none) (hooks : List Hook) :
    endAll (hook :: hooks) = (hook.ending.1 ++ (endAll hooks).1, (endAll hooks).2) := by
  rw [endAll]
  generalize hook.ending = first at h ⊢
  obtain ⟨out, refusal⟩ := first
  subst h
  rfl

theorem endAll_cons_of_some (h : hook.ending.2 = some cause) (hooks : List Hook) :
    endAll (hook :: hooks) = (hook.ending.1, some cause) := by
  rw [endAll]
  generalize hook.ending = first at h ⊢
  obtain ⟨out, refusal⟩ := first
  subst h
  rfl

theorem ending_eq_nil (h : hook.kind ≠ .terminal) : hook.ending = ([], none) := by
  cases hook with
  | terminal _ => exact absurd rfl h
  | timer _ | script _ | dump _ | trace => rfl

theorem kind_after (c : Cpu) (hook : Hook) : (hook.after now time r c).1.kind = hook.kind := by
  cases hook <;> rfl

theorem kinds_afterAll (c : Cpu) (hooks : List Hook) :
    (afterAll now time r c hooks).1.map kind = hooks.map kind := by
  induction hooks generalizing c with
  | nil => rfl
  | cons hook hooks ih =>
    cases hrefusal : (hook.after now time r c).2.2.2 with
    | some cause => rw [afterAll_cons_of_some now time r hrefusal, List.map_cons, kind_after, List.map_cons]
    | none =>
      rw [afterAll_cons_of_none now time r hrefusal, List.map_cons, List.map_cons, kind_after, ih]

/-- Only a terminal is refused. -/
theorem refusal_after (h : hook.kind ≠ .terminal) (c : Cpu) :
    (hook.after now time r c).2.2.2 = none := by
  cases hook with
  | terminal t => exact absurd rfl h
  | timer _ | script _ | dump _ | trace => rfl

theorem cpu_of_refused (h : (hook.after now time r c).2.2.2 = some cause) :
    (hook.after now time r c).2.1 = c := by
  cases hook with
  | terminal t => exact Terminal.cpu_of_refused h
  | timer _ | script _ | dump _ | trace => cases h

section View

variable {V : Type} {view : Cpu → V} (hput : ∀ c a v, view (Cpu.putWord c a v) = view c)
  (hrequest : ∀ c line, view (Cpu.request c line) = view c)
include hput hrequest

/-- A hook leaves every part of the processor that depends neither on memory nor on the requests. -/
theorem view_after (c : Cpu) (hook : Hook) : view (hook.after now time r c).2.1 = view c := by
  cases hook with
  | terminal t =>
    have hread : ∀ (t : Terminal) c, view (t.readIn c).2 = view c := fun t c => by
      unfold Terminal.readIn
      split
      · rfl
      · exact (hrequest _ _).trans (hput c _ _)
    show view (t.after c).2.1 = view c
    cases hrefusal : (t.after c).2.2.2 with
    | some cause => rw [Terminal.cpu_of_refused hrefusal]
    | none =>
      rw [Terminal.cpu_of_accepted hrefusal, hread]
      split
      · rfl
      · exact hput c _ _
  | timer t =>
    simp only [after, Timer.after]
    split
    · exact hrequest c _
    · rfl
  | script s =>
    simp only [after, Script.after]
    split
    · exact hrequest c _
    · rfl
  | dump _ | trace => rfl

theorem view_afterAll (c : Cpu) (hooks : List Hook) :
    view (afterAll now time r c hooks).2.1 = view c := by
  induction hooks generalizing c with
  | nil => rfl
  | cons hook hooks ih =>
    have hfirst := view_after now time r hput hrequest c hook
    cases hrefusal : (hook.after now time r c).2.2.2 with
    | some cause => rwa [afterAll_cons_of_some now time r hrefusal]
    | none =>
      rw [afterAll_cons_of_none now time r hrefusal]
      exact (ih _).trans hfirst

end View

theorem after_untimed (h : hook.kind ≠ .timer) (now' : Nat) (c : Cpu) :
    hook.after now time r c = hook.after now' time r c := by
  cases hook with
  | timer t => exact absurd rfl h
  | _ => rfl

theorem afterAll_untimed {hooks : List Hook} (h : HookKind.timer ∉ hooks.map kind) (now' : Nat)
    (c : Cpu) : afterAll now time r c hooks = afterAll now' time r c hooks := by
  induction hooks generalizing c with
  | nil => rfl
  | cons hook hooks ih =>
    rw [List.map_cons, List.mem_cons, not_or] at h
    simp only [afterAll, after_untimed now time r (Ne.symm h.1) now', ih h.2]

end Hook
end Sx16
