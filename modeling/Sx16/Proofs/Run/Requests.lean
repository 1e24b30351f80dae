/-
# Interrupt requests in a run

A requested line stays requested until a check takes that line: no instruction, no other taken line, no
check that fails and no hook withdraws it, if hooks touch the requests by requesting lines alone. A check
takes the lowest line that is requested and not masked, and it takes none only if there is none. When it
has taken one, all lines are masked, and the next line is taken only after an instruction has cleared the
mask, or a hook has: a hook that requests a line and clears the mask has its line taken again and again.

Key definitions: `Cpu.Takeable`, `RequestsOnly`, `LeavesStatus`, `Clears`, `Requests`, `Unmasking`.
Key theorems: `Cpu.eligible?_eq_some_iff`, `Turn.keeps_request`, `Course.keeps_request`,
`RequestsOnly.requests`, `Hook.requestsOnly_acts`, `run_keeps_requests`, `taken_after_unmasking`.
-/
import Sx16.Proofs.Processor.Interrupt
import Sx16.Proofs.Run.Course

namespace Sx16

open Exec

/-! ### Requested lines -/

namespace Cpu

variable {c c' : Cpu} {line l : Line}

theorem isPending_request (c : Cpu) (line l : Line) :
    (c.request line).isPending l = (decide (line = l) || c.isPending l) := by
  show (c.pending.set line true)[l.val] = _
  rw [Vector.getElem_set]
  by_cases h : line = l
  · simp [h]
  · have hval : line.val ≠ l.val := fun he => h (Fin.ext he)
    simp [h, hval, isPending]

theorem isPending_dismiss (h : line ≠ l) (c : Cpu) : (c.dismiss line).isPending l = c.isPending l :=
  Vector.getElem_set_ne line.isLt l.isLt fun he => h (Fin.ext he)

theorem isPending_entered (h : line ≠ l) (c : Cpu) : (c.entered line).isPending l = c.isPending l :=
  isPending_dismiss h ((c.setFlag .interruptMask true).setReg .pc (c.memory.word (vector line)))

theorem isPending_congr (h : c'.pending = c.pending) (l : Line) : c'.isPending l = c.isPending l := by
  unfold isPending
  rw [h]

/-- After requests the lines are requested that were before, and those of the requests. -/
theorem isPending_foldl_request (lines : List Line) (c : Cpu) (l : Line) :
    (lines.foldl request c).isPending l = true ↔ c.isPending l = true ∨ l ∈ lines := by
  induction lines generalizing c with
  | nil => simp
  | cons line lines ih =>
    rw [List.foldl_cons, ih, isPending_request, List.mem_cons, Bool.or_eq_true, decide_eq_true_eq]
    constructor
    · rintro ((rfl | h) | h)
      · exact .inr (.inl rfl)
      · exact .inl h
      · exact .inr (.inr h)
    · rintro (h | rfl | h)
      · exact .inl (.inr h)
      · exact .inl (.inl rfl)
      · exact .inr h

/-! ### Lines that can be taken -/

/-- A requested line that is not masked. -/
structure Takeable (c : Cpu) (line : Line) : Prop where
  ne_reset : line ≠ Line.reset
  requested : c.isPending line = true
  unmasked : c.flag .interruptMask = false
  timer : line = Line.timer → c.flag .timerMask = false
  terminal : line = Line.terminal → c.flag .terminalMask = false

theorem takeable_iff : c.Takeable line ↔
    (line != Line.reset && c.isPending line && !c.isMasked line) = true := by
  constructor
  · rintro ⟨hreset, hpending, hmask, htimer, hterminal⟩
    simp only [isMasked, hpending, hmask, Bool.and_true, Bool.false_or, Bool.and_eq_true, bne_iff_ne,
      Bool.not_eq_true', Bool.or_eq_false_iff, Bool.and_eq_false_imp, beq_iff_eq]
    exact ⟨hreset, htimer, hterminal⟩
  · intro h
    simp only [isMasked, Bool.and_eq_true, bne_iff_ne, Bool.not_eq_true', Bool.or_eq_false_iff,
      Bool.and_eq_false_imp, beq_iff_eq] at h
    obtain ⟨⟨hreset, hpending⟩, ⟨hmask, htimer⟩, hterminal⟩ := h
    exact ⟨hreset, hpending, hmask, htimer, hterminal⟩

theorem find?_finRange_eq_some_iff {n : Nat} {p : Fin n → Bool} {i : Fin n} :
    (List.finRange n).find? p = some i ↔ p i = true ∧ ∀ j < i, ¬ p j = true := by
  rw [List.find?_eq_some_iff_getElem]
  constructor
  · rintro ⟨hi, k, hk, rfl, hbefore⟩
    refine ⟨hi, fun j hj => ?_⟩
    have hbefore' := hbefore j.val (by rwa [List.getElem_finRange] at hj)
    simpa using hbefore'
  · rintro ⟨hi, hbefore⟩
    refine ⟨hi, i.val, by simp, by simp, fun j hj => ?_⟩
    have hbefore' := hbefore ⟨j, by omega⟩ hj
    simpa using hbefore'

theorem eligible?_eq_some_iff :
    c.eligible? = some line ↔ c.Takeable line ∧ ∀ l < line, ¬ c.Takeable l := by
  simp only [takeable_iff]
  exact find?_finRange_eq_some_iff

theorem eligible?_eq_none_iff : c.eligible? = none ↔ ∀ l, ¬ c.Takeable l := by
  unfold eligible?
  simp only [takeable_iff]
  rw [List.find?_eq_none]
  simp

/-! ### Requests are kept -/

theorem keeps_pending_step : Keeps pending step :=
  keeps_step pending_setReg (fun _ _ _ => rfl) fun _ => rfl

theorem keeps_pending_push (v : UInt16) : Keeps pending (push v) :=
  keeps_push (fun c => pending_setReg c .sp) (fun _ _ _ => rfl) v

theorem ok_none_of_checkInterrupts (h : checkInterrupts.run c = .ok none c') :
    c' = c ∧ c.eligible? = none := by
  obtain ⟨_, _, hget, h⟩ := ok_of_run_bind h
  cases hget
  split at h
  · rename_i heligible
    cases h
    exact ⟨rfl, heligible⟩
  · obtain ⟨_, _, _, hpure⟩ := ok_of_run_bind h
    cases hpure

/-- A check that fails has failed in one of its two pushes, and leaves the requests as they are. -/
theorem pending_of_checkInterrupts_error {e : Fault} (h : checkInterrupts.run c = .error e c') :
    c'.pending = c.pending := by
  obtain hget | ⟨_, _, hget, h⟩ := error_of_run_bind h <;> cases hget
  split at h
  · cases h
  · obtain h | ⟨_, _, _, hpure⟩ := error_of_run_bind h
    · rw [enter_eq] at h
      obtain hget | ⟨_, _, hget, h⟩ := error_of_run_bind h <;> cases hget
      obtain hfirst | ⟨_, c1, hfirst, h⟩ := error_of_run_bind h
      · exact endState_of_error hfirst ▸ keeps_pending_push _ c
      · have hc1 : c1.pending = c.pending := endState_of_ok hfirst ▸ keeps_pending_push _ c
        obtain hget | ⟨_, _, hget, h⟩ := error_of_run_bind h <;> cases hget
        obtain hsecond | ⟨_, _, _, hmodify⟩ := error_of_run_bind h
        · exact (endState_of_error hsecond ▸ keeps_pending_push _ c1).trans hc1
        · cases hmodify
    · cases hpure

theorem flag_entered (line : Line) (c : Cpu) : (c.entered line).flag .interruptMask = true := by
  show ((c.psw ||| Flag.interruptMask.mask) &&& Flag.interruptMask.mask != 0) = true
  have habsorb : (c.psw ||| Flag.interruptMask.mask) &&& Flag.interruptMask.mask =
      Flag.interruptMask.mask := by
    apply UInt16.toBitVec_inj.mp
    ext i
    rw [UInt16.toBitVec_and, UInt16.toBitVec_or, BitVec.getElem_and, BitVec.getElem_or]
    cases c.psw.toBitVec[i] <;> simp
  rw [habsorb]
  rfl

end Cpu

/-! ### Turns and courses -/

/-- Hooks touch the requests by requesting lines alone. -/
def RequestsOnly (acts : Cpu → List Line → Cpu → Prop) : Prop :=
  ∀ c lines c', acts c lines c' → c'.pending = (lines.foldl Cpu.request c).pending

/-- Hooks leave the status word alone. -/
def LeavesStatus (acts : Cpu → List Line → Cpu → Prop) : Prop :=
  ∀ c lines c', acts c lines c' → c'.psw = c.psw

variable {acts : Cpu → List Line → Cpu → Prop} {a b d : Point} {es : List Event} {line : Line}

theorem Turn.requested {lines : List Line} (hacts : RequestsOnly acts)
    (h : Turn acts a (.acted lines) b) (hline : line ∈ lines) : b.cpu.isPending line = true := by
  have hpending : b.cpu.pending = (lines.foldl Cpu.request a.cpu).pending := by
    cases h with
    | opened h | acted h | closed _ h => exact hacts _ _ _ h
  rw [Cpu.isPending_congr hpending, Cpu.isPending_foldl_request]
  exact .inr hline

/-- **A turn keeps a request**, unless it takes the line. -/
theorem Turn.keeps_request {e : Event} (hacts : RequestsOnly acts) (h : Turn acts a e b)
    (ha : a.cpu.isPending line = true) : b.cpu.isPending line = true ∨ e = .checked (some line) := by
  cases h with
  | opened h | acted h | closed _ h =>
    left
    rw [Cpu.isPending_congr (hacts _ _ _ h), Cpu.isPending_foldl_request]
    exact .inl ha
  | broke => exact .inl ha
  | executed _ h =>
    left
    rwa [Cpu.isPending_congr (endState_of_ok h ▸ Cpu.keeps_pending_step _)]
  | faulted _ h =>
    left
    rwa [Cpu.isPending_congr (endState_of_error h ▸ Cpu.keeps_pending_step _)]
  | refused h =>
    left
    rwa [Cpu.isPending_congr (Cpu.pending_of_checkInterrupts_error h)]
  | @checked taken _ _ h =>
    cases taken with
    | none =>
      obtain ⟨rfl, -⟩ := Cpu.ok_none_of_checkInterrupts h
      exact .inl ha
    | some l =>
      obtain ⟨-, rfl⟩ := Cpu.ok_of_checkInterrupts h
      by_cases hl : l = line
      · exact .inr (hl ▸ rfl)
      · left
        rw [Cpu.isPending_entered hl]
        exact ha

/-- **A course keeps a request** until the line is taken. -/
theorem Course.keeps_request (hacts : RequestsOnly acts) (h : Course acts a es b)
    (ha : a.cpu.isPending line = true) :
    b.cpu.isPending line = true ∨ .checked (some line) ∈ es := by
  induction h with
  | refl => exact .inl ha
  | cons hturn _ ih =>
    obtain hkept | rfl := hturn.keeps_request hacts ha
    · exact (ih hkept).imp_right (List.mem_cons_of_mem _)
    · exact .inr List.mem_cons_self

theorem Turn.taken (h : Turn acts a (.checked (some line)) b) :
    a.cpu.Takeable line ∧ ∀ l < line, ¬ a.cpu.Takeable l := by
  cases h with
  | checked h => exact Cpu.eligible?_eq_some_iff.mp (Cpu.ok_of_checkInterrupts h).1

theorem Turn.masked (h : Turn acts a (.checked (some line)) b) :
    b.cpu.flag .interruptMask = true := by
  cases h with
  | checked h =>
    obtain ⟨-, rfl⟩ := Cpu.ok_of_checkInterrupts h
    exact Cpu.flag_entered line _

/-- Somewhere between two points an event clears the mask of all lines. -/
def Clears (acts : Cpu → List Line → Cpu → Prop) (a : Point) (es : List Event) (b : Point)
    (e : Event) : Prop :=
  ∃ es1 es2 x y, es = es1 ++ e :: es2 ∧ Course acts a es1 x ∧ Turn acts x e y ∧ Course acts y es2 b ∧
    x.cpu.flag .interruptMask = true ∧ y.cpu.flag .interruptMask = false

/-- When the mask of all lines is set and later a check takes a line, an instruction or a hook has
cleared the mask in between. -/
theorem Course.exists_clears (h : Course acts a es b) (hmask : a.cpu.flag .interruptMask = true)
    (hnext : Turn acts b (.checked (some line)) d) :
    ∃ e, Clears acts a es b e ∧ ((∃ t, e = .executed t) ∨ ∃ lines, e = .acted lines) := by
  have hclear : b.cpu.flag .interruptMask = false := hnext.taken.1.unmasked
  have hphase : b.phase = .acting := by
    cases hnext
    rfl
  obtain ⟨es1, e, es2, x, y, hes, hbefore, hturn, hafter, hx, hy⟩ :=
    h.exists_turn (P := fun c => c.flag .interruptMask = true) hmask (by simp [hclear])
  have hy' : y.cpu.flag .interruptMask = false := Bool.eq_false_iff.mpr hy
  refine ⟨e, ⟨es1, es2, x, y, hes, hbefore, hturn, hafter, hx, hy'⟩, ?_⟩
  cases hturn with
  | opened | acted | closed => exact .inr ⟨_, rfl⟩
  | executed => exact .inl ⟨_, rfl⟩
  | faulted | refused | broke =>
    -- An error ends the course, but here a check follows it.
    rw [hafter.eq_of_failed] at hphase
    cases hphase
  | @checked taken _ _ h =>
    cases taken with
    | none =>
      obtain ⟨rfl, -⟩ := Cpu.ok_none_of_checkInterrupts h
      exact absurd hx hy
    | some l =>
      obtain ⟨-, rfl⟩ := Cpu.ok_of_checkInterrupts h
      exact absurd (Cpu.flag_entered l _) hy

/-- Where hooks leave the status word alone, it is an instruction that has cleared the mask. -/
theorem Course.exists_clears_executed (hacts : LeavesStatus acts) (h : Course acts a es b)
    (hmask : a.cpu.flag .interruptMask = true) (hnext : Turn acts b (.checked (some line)) d) :
    ∃ t, Clears acts a es b (.executed t) := by
  obtain ⟨e, hclears, ⟨t, rfl⟩ | ⟨lines, rfl⟩⟩ := h.exists_clears hmask hnext
  · exact ⟨t, hclears⟩
  · obtain ⟨es1, es2, x, y, -, -, hturn, -, hset, hclear⟩ := hclears
    have hpsw : y.cpu.psw = x.cpu.psw := by
      cases hturn with
      | opened h | acted h | closed _ h => exact hacts _ _ _ h
    have hsame : y.cpu.flag .interruptMask = x.cpu.flag .interruptMask := by
      unfold Cpu.flag
      rw [hpsw]
    rw [hsame, hset] at hclear
    cases hclear

/-- What becomes of interrupt requests in runs with hooks that act as told. -/
structure Requests (acts : Cpu → List Line → Cpu → Prop) : Prop where
  /-- A hook's requests are made. -/
  requested : ∀ a lines b line, Turn acts a (.acted lines) b → line ∈ lines →
    b.cpu.isPending line = true
  /-- A request is kept until a check takes the line. -/
  kept : ∀ a es b line, Course acts a es b → a.cpu.isPending line = true →
    b.cpu.isPending line = true ∨ .checked (some line) ∈ es
  /-- A check takes the lowest line that can be taken. -/
  taken : ∀ a line b, Turn acts a (.checked (some line)) b →
    a.cpu.Takeable line ∧ ∀ l < line, ¬ a.cpu.Takeable l
  /-- A check that takes no line has none to take. -/
  untaken : ∀ a b, Turn acts a (.checked none) b → ∀ l, ¬ a.cpu.Takeable l
  /-- A taken line masks all lines. -/
  masked : ∀ a line b, Turn acts a (.checked (some line)) b → b.cpu.flag .interruptMask = true
  /-- No line is taken after that before an instruction, or else a hook, has cleared the mask. -/
  cleared : ∀ a line b es d next z, Turn acts a (.checked (some line)) b → Course acts b es d →
    Turn acts d (.checked (some next)) z →
    ∃ e, Clears acts b es d e ∧ ((∃ t, e = .executed t) ∨ ∃ lines, e = .acted lines)

/-- Requests in runs with hooks of every kind that touch them by requesting lines alone. -/
theorem RequestsOnly.requests (hacts : RequestsOnly acts) : Requests acts where
  requested _ _ _ _ h hline := h.requested hacts hline
  kept _ _ _ _ h ha := h.keeps_request hacts ha
  taken _ _ _ h := h.taken
  untaken a b h := by
    cases h with
    | checked h => exact Cpu.eligible?_eq_none_iff.mp (Cpu.ok_none_of_checkInterrupts h).2
  masked _ _ _ h := h.masked
  cleared _ _ _ _ _ _ _ h hcourse hnext := hcourse.exists_clears h.masked hnext

/-! ### Terminals, timers, scripts, dumps and traces -/

namespace Hook

/-- A hook makes the requests that it is told to make, unless it is refused its output. -/
theorem pending_after {now time : Nat} {r : Retired} {c : Cpu} {hook : Hook}
    (h : (hook.after now time r c).2.2.2 = none) :
    (hook.after now time r c).2.1.pending = ((hook.lines now time c).foldl Cpu.request c).pending := by
  cases hook with
  | terminal t =>
    have hcpu : ((terminal t).after now time r c).2.1 = _ := Terminal.cpu_of_accepted h
    have hcleared : (if c.memory.word terminalOut = 0 then c else c.putWord terminalOut 0).pending =
        c.pending := by
      split <;> rfl
    rw [hcpu]
    simp only [Terminal.readIn, lines]
    cases t.input with
    | nil => exact hcleared
    | cons b rest => exact congrArg (Vector.set · Line.terminal true) hcleared
  | timer t =>
    show (t.after now c).2.pending = _
    simp only [Timer.after, lines]
    obtain ⟨t', due⟩ := t.due now (c.memory.word timerConfig)
    cases due <;> rfl
  | script s =>
    show (s.after time c).pending = _
    simp only [Script.after, lines]
    cases s.requests.lookup time <;> rfl
  | dump _ | trace => rfl

theorem requestsOnly_acts : RequestsOnly Acts := by
  rintro c _ _ ⟨hook, now, time, r, _, h⟩
  exact pending_after h

theorem leavesStatus_acts : LeavesStatus Acts := by
  rintro c _ _ ⟨hook, now, time, r, _, h⟩
  exact view_after now time r (fun _ _ _ => rfl) (fun _ _ => rfl) c hook

end Hook

/-- **Interrupt requests are neither lost nor taken while they are masked**, in runs with hooks of every
kind that touch the requests by requesting lines alone. Where hooks leave the status word alone, it is
an instruction that clears the mask between two taken lines. Terminals, timers, scripts, dumps and traces
are such hooks, and every run with them has a course to which this applies. -/
theorem run_keeps_requests :
    (∀ acts, RequestsOnly acts → Requests acts) ∧
    (∀ acts, LeavesStatus acts → ∀ a line b es d next z, Turn acts a (.checked (some line)) b →
      Course acts b es d → Turn acts d (.checked (some next)) z →
      ∃ t, Clears acts b es d (.executed t)) ∧
    RequestsOnly Hook.Acts ∧ LeavesStatus Hook.Acts ∧
    ∀ cpu hooks limit clock, ∃ es b, Course Hook.Acts ⟨.opening, cpu⟩ es b ∧
      b.cpu = (run cpu hooks limit clock).session.cpu ∧
      b.phase.fault? = (run cpu hooks limit clock).fault := by
  refine ⟨fun acts hacts => hacts.requests, ?_, Hook.requestsOnly_acts, Hook.leavesStatus_acts,
    exists_course_of_run⟩
  intro acts hstatus a line b es d next z htaken hcourse hnext
  exact hcourse.exists_clears_executed hstatus htaken.masked hnext

/-- A character is typed while the timer's request is waiting: the timer's line is taken first, and the
terminal's request is kept. -/
theorem run_keeps_requests_two :
    let a : Point := ⟨.acting, Cpu.awaitingTimer⟩
    RequestsOnly Hook.Acts ∧ ∃ b d, Turn Hook.Acts a (.acted [Line.terminal]) b ∧
      Turn Hook.Acts b (.checked (some Line.timer)) d ∧ b.cpu.Takeable Line.timer ∧
      d.cpu.isPending Line.terminal = true ∧ d.cpu.flag .interruptMask = true := by
  intro a
  obtain ⟨hrequests, -, hacts, -, -⟩ := run_keeps_requests
  have h := hrequests Hook.Acts hacts
  let hook : Hook := .terminal { input := [0x78] }
  let c := (hook.after 0 0 ⟨0x40, .not⟩ Cpu.awaitingTimer).2.1
  have hacted : Turn Hook.Acts a (.acted [Line.terminal]) ⟨.acting, c⟩ :=
    .acted (.after hook 0 0 ⟨0x40, .not⟩ Cpu.awaitingTimer (by decide +kernel))
  have hchecked : Turn Hook.Acts ⟨.acting, c⟩ (.checked (some Line.timer))
      ⟨.checked, (c.framed c.pc).entered Line.timer⟩ :=
    .checked (Cpu.run_checkInterrupts_of_room (by decide +kernel) (by decide +kernel)
      (by decide +kernel))
  have hterminal := h.requested _ _ _ _ hacted List.mem_cons_self
  obtain hkept | htaken := h.kept _ _ _ _ (.cons hchecked (.refl _)) hterminal
  · exact ⟨hacts, _, _, hacted, hchecked, (h.taken _ _ _ hchecked).1, hkept, h.masked _ _ _ hchecked⟩
  · simp [Line.terminal, Line.timer] at htaken

/-! ### A hook that clears the mask -/

/-- A hook that requests the terminal's line and clears the mask of all lines. -/
inductive Unmasking : Cpu → List Line → Cpu → Prop where
  | after (c : Cpu) : Unmasking c [Line.terminal] ((c.request Line.terminal).setFlag .interruptMask false)

/-- A processor with an instruction that is also the handler of the terminal's line. -/
def Cpu.handling : Cpu := (Cpu.holding 0x40 [0x80, 0x00]).store (vector Line.terminal) [0x40, 0x00]

/-- **A line is taken while its handler runs**, and no instruction has cleared the mask: the hook that
requests the line has. -/
theorem taken_after_unmasking :
    RequestsOnly Unmasking ∧ ∃ before a b es d z,
      Course Unmasking ⟨.opening, Cpu.handling⟩ before a ∧
      Turn Unmasking a (.checked (some Line.terminal)) b ∧ Course Unmasking b es d ∧
      Turn Unmasking d (.checked (some Line.terminal)) z ∧
      ∀ t, ¬ Clears Unmasking b es d (.executed t) := by
  have hacts : RequestsOnly Unmasking := by
    rintro c _ _ ⟨_⟩
    rfl
  -- Both times the instruction is executed, the hook acts, and the line is taken.
  let s1 := endState Cpu.step Cpu.handling
  let c1 := (s1.request Line.terminal).setFlag .interruptMask false
  let z1 := (c1.framed c1.pc).entered Line.terminal
  let s2 := endState Cpu.step z1
  let c2 := (s2.request Line.terminal).setFlag .interruptMask false
  let z2 := (c2.framed c2.pc).entered Line.terminal
  have hrun1 : Cpu.step.run Cpu.handling = .ok ⟨0x40, .not⟩ s1 :=
    run_eq_ok_of_run' (by decide +kernel)
  have hrun2 : Cpu.step.run z1 = .ok ⟨0x40, .not⟩ s2 :=
    run_eq_ok_of_run' (by decide +kernel)
  have htaken1 : Cpu.checkInterrupts.run c1 = .ok (some Line.terminal) z1 :=
    Cpu.run_checkInterrupts_of_room (by decide +kernel) (by decide +kernel) (by decide +kernel)
  have htaken2 : Cpu.checkInterrupts.run c2 = .ok (some Line.terminal) z2 :=
    Cpu.run_checkInterrupts_of_room (by decide +kernel) (by decide +kernel) (by decide +kernel)
  have hgoing : s1.halted = false ∧ s2.halted = false := by decide +kernel
  have hmasked : s2.flag .interruptMask = true := by decide +kernel
  have hturn1 : Turn Unmasking ⟨.opening, Cpu.handling⟩ (.executed ⟨0x40, .not⟩) ⟨.acting, s1⟩ := by
    have hturn : Turn Unmasking _ _ _ := Turn.executed (.inl rfl) hrun1
    rwa [hgoing.1] at hturn
  have hturn2 : Turn Unmasking ⟨.checked, z1⟩ (.executed ⟨0x40, .not⟩) ⟨.acting, s2⟩ := by
    have hturn : Turn Unmasking _ _ _ := Turn.executed (.inr rfl) hrun2
    rwa [hgoing.2] at hturn
  refine ⟨hacts, _, _, _, _, _, _, .cons hturn1 (.cons (.acted (.after s1)) (.refl _)), .checked htaken1,
    .cons hturn2 (.cons (.acted (.after s2)) (.refl _)), .checked htaken2, ?_⟩
  rintro t ⟨es1, es2, x, y, hes, hbefore, hturn, -, -, hclear⟩
  cases es1 with
  | nil =>
    cases hbefore
    cases hturn with
    | executed _ h =>
      obtain ⟨-, rfl⟩ := EStateM.Result.ok.inj (hrun2.symm.trans h)
      exact Bool.false_ne_true (hclear.symm.trans hmasked)
  | cons e es1 => cases es1 <;> simp at hes

end Sx16
