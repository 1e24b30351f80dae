/-
# What actions leave alone

An instruction reads and writes a few parts of the processor and leaves the others as they are, and it
does so also where it fails half-way. A part is given as a function of the state; an action keeps it if
the state that the action ends in has the same part. A sequence keeps what each of its actions keeps, so
for an instruction it is enough to know which registers its operand bytes name for writing, whether it
sets flags, and whether it writes memory or the halted flag.

Key definitions: `Exec.endState`, `Exec.Keeps`, `Exec.Blind`, `Opcode.stores`, `Cpu.written`, `Cpu.Spared`.
Key theorems: `Exec.view_bind`, `Cpu.keeps_decode`, `Cpu.view_execute`, `Cpu.run_step`,
`Cpu.keeps_step`, `Cpu.keeps_checkInterrupts`.
-/
import Sx16.Processor.Interrupt
import Sx16.Proofs.Processor.Encoded
import Sx16.Proofs.Processor.Flags
import Sx16.Proofs.Sequence

namespace Sx16

/-! ### The state that an action ends in -/

namespace Exec

variable {α β V : Type} {view : Cpu → V}

/-- The state that an action ends in, also one that fails. -/
def endState (x : Exec α) (c : Cpu) : Cpu :=
  match x.run c with
  | .ok _ c' => c'
  | .error _ c' => c'

theorem endState_of_ok {x : Exec α} {c c' : Cpu} {a : α} (h : x.run c = .ok a c') :
    endState x c = c' := by
  rw [endState, h]

theorem endState_of_error {x : Exec α} {c c' : Cpu} {e : Fault} (h : x.run c = .error e c') :
    endState x c = c' := by
  rw [endState, h]

theorem run_eq_ok_of_run' {x : Exec α} {c : Cpu} {a : α} (h : EStateM.run' x c = some a) :
    x.run c = .ok a (endState x c) := by
  unfold EStateM.run' at h
  unfold endState
  cases hrun : x.run c with
  | ok b c' =>
    rw [hrun] at h
    rw [Option.some.inj h]
  | error e c' =>
    rw [hrun] at h
    cases h

/-- Whether an action succeeds. -/
def succeeds (x : Exec α) (c : Cpu) : Bool :=
  match x.run c with
  | .ok _ _ => true
  | .error _ _ => false

theorem ok_of_succeeds {x : Exec Unit} {c : Cpu} (h : succeeds x c = true) :
    x.run c = .ok () (endState x c) := by
  unfold succeeds at h
  split at h
  · rename_i hrun
    rw [endState_of_ok hrun, hrun]
  · cases h

theorem endState_bind_of_ok {x : Exec α} {c c' : Cpu} {a : α} (h : x.run c = .ok a c')
    (f : α → Exec β) : endState (x >>= f) c = endState (f a) c' := by
  rw [endState, EStateM.run_bind, h]
  rfl

theorem endState_bind_of_error {x : Exec α} {c c' : Cpu} {e : Fault} (h : x.run c = .error e c')
    (f : α → Exec β) : endState (x >>= f) c = c' := by
  rw [endState, EStateM.run_bind, h]

/-- An action leaves a part of the state as it was, whether it succeeds or fails. -/
def Keeps (view : Cpu → V) (x : Exec α) : Prop :=
  ∀ c, view (endState x c) = view c

theorem Keeps.pure (a : α) : Keeps view (pure a : Exec α) := fun _ => rfl

theorem Keeps.throw (e : Fault) : Keeps view (throw e : Exec α) := fun _ => rfl

theorem Keeps.get : Keeps view (get : Exec Cpu) := fun _ => rfl

theorem Keeps.modify {f : Cpu → Cpu} (h : ∀ c, view (f c) = view c) :
    Keeps view (modify f : Exec Unit) := h

/-- A sequence leaves a part of a state as it was if its first part does, and then its second. -/
theorem view_bind {x : Exec α} {f : α → Exec β} {c : Cpu} (hx : view (endState x c) = view c)
    (hf : ∀ a c', x.run c = .ok a c' → view (endState (f a) c') = view c') :
    view (endState (x >>= f) c) = view c := by
  cases hrun : x.run c with
  | ok a c' =>
    rw [endState_of_ok hrun] at hx
    rw [endState_bind_of_ok hrun, hf a c' hrun, hx]
  | error e c' =>
    rw [endState_of_error hrun] at hx
    rw [endState_bind_of_error hrun, hx]

theorem Keeps.bind {x : Exec α} {f : α → Exec β} (hx : Keeps view x) (hf : ∀ a, Keeps view (f a)) :
    Keeps view (x >>= f) :=
  fun c => view_bind (hx c) fun a c' _ => hf a c'

theorem Keeps.ite {p : Prop} [Decidable p] {x y : Exec α} (hx : Keeps view x) (hy : Keeps view y) :
    Keeps view (if p then x else y) := by
  split
  · exact hx
  · exact hy

/-- A part of the state does not depend on the register with a number, if there is one. -/
def Blind (view : Cpu → V) (i : UInt8) : Prop :=
  ∀ r, Register.ofIndex? i = some r → ∀ c v, view (Cpu.setReg c r v) = view c

theorem Blind.of_setReg (h : ∀ c r v, view (Cpu.setReg c r v) = view c) (i : UInt8) : Blind view i :=
  fun r _ c => h c r

end Exec

/-! ### What an operation may write -/

/-- Whether an operation may write memory. -/
def Opcode.stores : Opcode → Bool
  | int | call | str => true
  | _ => false

/-- Whether an operation sets flags by the word that it has computed. -/
def Opcode.setsResults : Opcode → Bool
  | cmp | test | shl | shr => true
  | _ => false

namespace Decoded

/-- The registers, by number, that operand bytes update around an access. -/
def updated (o : Decoded) : List UInt8 :=
  match o.mode with
  | .regIndirect | .regIndirectOffset => if o.update = .none then [] else [o.descriptor.src]
  | .immediate | .regDirect | .memory | .regDirectAddition => []

/-- The registers, by number, that a load writes. -/
def loaded (o : Decoded) : List UInt8 := o.descriptor.dst :: o.updated

/-- The registers, by number, that a store writes. -/
def stored (o : Decoded) : List UInt8 :=
  match o.mode with
  | .regDirect | .regDirectAddition => [o.descriptor.src]
  | .immediate | .regIndirect | .regIndirectOffset | .memory => o.updated

theorem src_mem_updated {o : Decoded} (hm : o.mode = .regIndirect ∨ o.mode = .regIndirectOffset)
    (hu : o.update ≠ .none) : o.descriptor.src ∈ o.updated := by
  unfold updated
  obtain hm | hm := hm <;> simp [hm, hu]

end Decoded

namespace Cpu

/-- The registers, by number, that the operand bytes at the program counter name, if these are decoded. -/
def namedBy (c : Cpu) (f : Decoded → List UInt8) : List UInt8 :=
  match decode.run c with
  | .ok o _ => f o
  | .error _ _ => []

/-- The registers, by number, that an operation writes since its operand bytes, which are at the program
counter, name them. Jumps and the stack write the program counter and the stack pointer unnamed. -/
def written (c : Cpu) (op : Opcode) : List UInt8 :=
  let d := Descriptor.ofByte (c.memory.byte c.pc)
  match op with
  | .halt | .int | .iret | .ret | .cmp | .test => []
  | .add | .sub | .mul | .div | .not | .and | .or | .xor | .shl | .shr => [d.dst]
  | .xchg => [d.dst, d.src]
  | .call | .jmp => c.namedBy Decoded.updated
  | .jeq => if Mnemonic.jeq.jumps c then c.namedBy Decoded.updated else []
  | .jne => if Mnemonic.jne.jumps c then c.namedBy Decoded.updated else []
  | .jgt => if Mnemonic.jgt.jumps c then c.namedBy Decoded.updated else []
  | .ldr => c.namedBy Decoded.loaded
  | .str => c.namedBy Decoded.stored

/-- A part of the state that an operation does not write in a given state. -/
structure Spared {V : Type} (view : Cpu → V) (op : Opcode) (c : Cpu) : Prop where
  pc : ∀ c v, view (setReg c .pc v) = view c
  sp : ∀ c v, view (setReg c .sp v) = view c
  named : ∀ i ∈ c.written op, Exec.Blind view i
  status : op = .iret → ∀ c v, view (setReg c .psw v) = view c
  results : op.setsResults = true → ∀ f ∈ Flag.results, ∀ c on, view (setFlag c f on) = view c
  memory : op.stores = true → ∀ c a v, view (putWord c a v) = view c
  halted : op = .halt → ∀ c : Cpu, view { c with halted := true } = view c

end Cpu

namespace Cpu

open Exec

variable {V : Type} {view : Cpu → V}

/-- A part of the state that depends on no register, so that only memory and the halted flag matter. -/
theorem Spared.of_setReg {op : Opcode} {c : Cpu} (hreg : ∀ c r v, view (setReg c r v) = view c)
    (hput : op.stores = true → ∀ c a v, view (putWord c a v) = view c)
    (hhalt : op = .halt → ∀ c : Cpu, view { c with halted := true } = view c) : Spared view op c where
  pc := fun c => hreg c .pc
  sp := fun c => hreg c .sp
  named := fun i _ => Blind.of_setReg hreg i
  status := fun _ c => hreg c .psw
  results := fun _ _ _ c _ => hreg c .psw _
  memory := hput
  halted := hhalt

/-! ### Fetching and pushing as equations -/

theorem run_advance_eq (c : Cpu) : advance.run c =
    if (c.past 1).pc = 0 then .error .pcOutOfBounds (c.past 1) else .ok () (c.past 1) := by
  by_cases h : (c.past 1).pc = 0
  · have hpc : c.pc + 1 = 0 := (pc_past c 1).symm.trans h
    unfold advance
    rw [if_pos h, EStateM.run_bind, EStateM.run_get]
    simp only
    rw [EStateM.run_bind, EStateM.run_modify]
    simp only
    rw [if_pos hpc]
    rfl
  · rw [if_neg h, run_advance h]

/-- A byte is fetched unless it is the last one. -/
theorem run_fetch_eq (c : Cpu) : fetch.run c =
    if (c.past 1).pc = 0 then .error .pcOutOfBounds (c.past 1)
    else .ok (c.memory.byte c.pc) (c.past 1) := by
  unfold fetch
  rw [EStateM.run_bind, EStateM.run_get]
  simp only
  rw [EStateM.run_bind, run_advance_eq]
  by_cases h : (c.past 1).pc = 0
  · simp only [if_pos h]
  · simp only [if_neg h]
    rfl

theorem ok_of_fetch {c c' : Cpu} {b : UInt8} (h : fetch.run c = .ok b c') :
    b = c.memory.byte c.pc ∧ c' = c.past 1 := by
  rw [run_fetch_eq] at h
  split at h
  · cases h
  · cases h
    exact ⟨rfl, rfl⟩

/-- The state with the stack pointer moved down for a word. -/
def lowered (c : Cpu) : Cpu := c.setReg .sp (c.sp - 2)

/-- The state with a word on the stack, wherever the image ends. -/
def stacked (c : Cpu) (v : UInt16) : Cpu := c.lowered.putWord (c.sp - 2) v

theorem run_push_eq (v : UInt16) (c : Cpu) : (push v).run c =
    if (c.sp - 2).toNat ≤ c.top then .error .stackOverflow c.lowered else .ok () (c.stacked v) := by
  have hsp : c.lowered.sp = c.sp - 2 := (reg_setReg c .sp .sp _).trans (if_pos rfl)
  have htop : c.lowered.top = c.top := rfl
  unfold push
  rw [EStateM.run_bind, EStateM.run_modify]
  simp only
  rw [EStateM.run_bind, EStateM.run_get]
  simp only
  rw [← lowered, hsp, htop]
  split
  · rfl
  · rfl

theorem ok_of_push {c c' : Cpu} {u : Unit} {v : UInt16} (h : (push v).run c = .ok u c') :
    c' = c.stacked v := by
  rw [run_push_eq] at h
  split at h
  · cases h
  · cases h
    rfl

theorem exists_push_iff (v : UInt16) (c : Cpu) :
    (∃ c', (push v).run c = .ok () c') ↔ c.top < (c.sp - 2).toNat := by
  rw [run_push_eq]
  by_cases h : (c.sp - 2).toNat ≤ c.top
  · simp [h]
  · simp [h, Nat.lt_of_not_le h]

/-- **A step** fetches the operation and carries it out. -/
theorem run_step (c : Cpu) : step.run c =
    if (c.past 1).pc = 0 then .error .pcOutOfBounds (c.past 1)
    else match Opcode.ofCode? (c.memory.byte c.pc) with
      | none => .error (.illegalOpcode (c.memory.byte c.pc) c.pc) (c.past 1)
      | some op =>
        match (execute op).run (c.past 1) with
        | .ok () c' => .ok ⟨c.pc, op⟩ c'
        | .error e c' => .error e c' := by
  unfold step
  rw [EStateM.run_bind, EStateM.run_get]
  simp only
  rw [EStateM.run_bind, run_fetch_eq]
  by_cases h : (c.past 1).pc = 0
  · simp only [if_pos h]
  · simp only [if_neg h]
    cases Opcode.ofCode? (c.memory.byte c.pc) with
    | none => rfl
    | some op =>
      simp only
      rw [EStateM.run_bind]
      cases (execute op).run (c.past 1) with
      | ok u c' => rfl
      | error e c' => rfl

/-- A step that succeeds carried its operation out. -/
theorem ok_of_step {c c' : Cpu} {t : Retired} (h : step.run c = .ok t c') :
    t.address = c.pc ∧ Opcode.ofCode? (c.memory.byte c.pc) = some t.opcode ∧
      (execute t.opcode).run (c.past 1) = .ok () c' := by
  rw [run_step] at h
  split at h
  · cases h
  · split at h
    · cases h
    · rename_i op hop
      split at h
      · rename_i hrun
        cases h
        exact ⟨rfl, hop, hrun⟩
      · cases h

theorem endState_step {c : Cpu} {op : Opcode} (hop : Opcode.ofCode? (c.memory.byte c.pc) = some op) :
    endState step c =
      if (c.past 1).pc = 0 then c.past 1 else endState (execute op) (c.past 1) := by
  unfold endState
  rw [run_step, hop]
  by_cases h : (c.past 1).pc = 0
  · simp only [if_pos h]
  · simp only [if_neg h]
    cases (execute op).run (c.past 1) with
    | ok u c' => rfl
    | error e c' => rfl

/-- The state at the start of a handler, when program counter and status word are on the stack. -/
def entered (line : Line) (c : Cpu) : Cpu :=
  ((c.setFlag .interruptMask true).setReg .pc (c.memory.word (vector line))).dismiss line

@[simp] theorem memory_entered (line : Line) (c : Cpu) : (c.entered line).memory = c.memory :=
  memory_setReg (c.setFlag .interruptMask true) .pc (c.memory.word (vector line))

theorem enter_eq (line : Line) : enter line = (do
    push (← get).pc
    push (← get).psw
    modify (entered line)) := rfl

/-! ### Reading operands -/

section Reading

variable (hpc : ∀ c v, view (setReg c .pc v) = view c)
include hpc

theorem keeps_advance : Keeps view advance :=
  Keeps.bind Keeps.get fun _ => Keeps.bind (Keeps.modify fun c => hpc c _) fun _ =>
    Keeps.ite (Keeps.throw _) (Keeps.pure _)

theorem keeps_advanceBy (n : Nat) : Keeps view (advanceBy n) := by
  induction n with
  | zero => exact Keeps.pure _
  | succ n ih => exact Keeps.bind (keeps_advance hpc) fun _ => ih

theorem keeps_fetch : Keeps view fetch :=
  Keeps.bind Keeps.get fun _ => Keeps.bind (keeps_advance hpc) fun _ => Keeps.pure _

theorem keeps_fetchWord : Keeps view fetchWord :=
  Keeps.bind (keeps_fetch hpc) fun _ => Keeps.bind (keeps_fetch hpc) fun _ => Keeps.pure _

theorem keeps_descriptor : Keeps view descriptor :=
  Keeps.bind (keeps_fetch hpc) fun _ => Keeps.pure _

omit hpc in
theorem keeps_modes (b : UInt8) : Keeps view (modes b) := by
  unfold modes
  split
  · exact Keeps.throw _
  · split
    · exact Keeps.throw _
    · exact Keeps.pure _

theorem keeps_decode : Keeps view decode := by
  refine Keeps.bind (keeps_descriptor hpc) fun _ => ?_
  refine Keeps.bind (keeps_fetch hpc) fun _ => ?_
  refine Keeps.bind (keeps_modes _) fun _ => ?_
  refine Keeps.ite ?_ ?_
  · exact Keeps.bind (keeps_fetchWord hpc) fun _ => Keeps.pure _
  · exact Keeps.pure _

end Reading

theorem keeps_named (i : UInt8) : Keeps view (named i) := by
  unfold named
  split
  · exact Keeps.pure _
  · exact Keeps.throw _

theorem keeps_operand (i : UInt8) : Keeps view (operand i) :=
  Keeps.bind (keeps_named i) fun _ => Keeps.bind Keeps.get fun _ => Keeps.pure _

theorem namedBy_of_ok {c c' : Cpu} {o : Decoded} (h : decode.run c = .ok o c')
    (f : Decoded → List UInt8) : c.namedBy f = f o := by
  rw [namedBy, h]

theorem view_decode_bind {α : Type} {f : Decoded → Exec α} {c : Cpu}
    (hpc : ∀ c v, view (setReg c .pc v) = view c)
    (hf : ∀ o c', decode.run c = .ok o c' → Keeps view (f o)) :
    view (endState (decode >>= f) c) = view c :=
  view_bind (keeps_decode hpc c) fun o c' hdecode => hf o c' hdecode c'

/-- What an action keeps that follows on a descriptor. -/
theorem view_descriptor_bind {α : Type} {f : Descriptor → Exec α} {c : Cpu}
    (hpc : ∀ c v, view (setReg c .pc v) = view c)
    (hf : Keeps view (f (Descriptor.ofByte (c.memory.byte c.pc)))) :
    view (endState (descriptor >>= f) c) = view c := by
  refine view_bind (keeps_descriptor hpc c) fun d c' hdescriptor => ?_
  obtain ⟨b, c1, hfetch, hpure⟩ := ok_of_run_bind hdescriptor
  cases hpure
  obtain ⟨rfl, -⟩ := ok_of_fetch hfetch
  exact hf c'

/-! ### Writing registers -/

theorem keeps_setOperand {i : UInt8} (h : Blind view i) (v : UInt16) : Keeps view (setOperand i v) := by
  unfold setOperand named
  cases hi : Register.ofIndex? i with
  | none => exact fun _ => rfl
  | some r => exact fun c => h r hi c v

theorem keeps_stepOperand {i : UInt8} {delta : Int16} (h : delta ≠ 0 → Blind view i) :
    Keeps view (stepOperand i delta) := by
  by_cases hd : delta = 0
  · subst hd
    exact fun _ => rfl
  · exact Keeps.ite (Keeps.bind (keeps_operand i) fun _ => keeps_setOperand (h hd) _) (Keeps.pure _)

/-- The updates before and after an access change a register only where there is an update. -/
theorem keeps_update {o : Decoded} (h : o.update ≠ .none → Blind view o.descriptor.src) :
    Keeps view (stepOperand o.descriptor.src o.update.before) ∧
      Keeps view (stepOperand o.descriptor.src o.update.after) := by
  have hnone : o.update = .none → o.update.before = 0 ∧ o.update.after = 0 := by
    intro hu
    rw [hu]
    exact ⟨rfl, rfl⟩
  exact ⟨keeps_stepOperand fun hd => h fun hu => hd (hnone hu).1,
    keeps_stepOperand fun hd => h fun hu => hd (hnone hu).2⟩

theorem keeps_indirect {o : Decoded} (h : o.update ≠ .none → Blind view o.descriptor.src) :
    Keeps view (indirect o) := by
  obtain ⟨hbefore, hafter⟩ := keeps_update h
  refine Keeps.bind hbefore fun _ => Keeps.bind (keeps_operand _) fun _ => ?_
  exact Keeps.bind Keeps.get fun _ => Keeps.bind hafter fun _ => Keeps.pure _

/-- Finding the target of a jump writes the register that the operand bytes update. -/
theorem keeps_target {o : Decoded} (h : ∀ i ∈ o.updated, Blind view i) : Keeps view (target o) := by
  unfold target
  cases hm : o.mode with
  | immediate => exact Keeps.pure _
  | regDirect => exact keeps_operand _
  | regIndirect => exact keeps_indirect fun hu => h _ (Decoded.src_mem_updated (.inl hm) hu)
  | regIndirectOffset => exact keeps_indirect fun hu => h _ (Decoded.src_mem_updated (.inr hm) hu)
  | memory => exact Keeps.bind Keeps.get fun _ => Keeps.pure _
  | regDirectAddition => exact Keeps.bind Keeps.get fun _ => Keeps.pure _

theorem keeps_pop (hsp : ∀ c v, view (setReg c .sp v) = view c) : Keeps view pop := fun c => hsp c _

theorem keeps_push (hsp : ∀ c v, view (setReg c .sp v) = view c)
    (hput : ∀ c a v, view (putWord c a v) = view c) (v : UInt16) : Keeps view (push v) := by
  refine Keeps.bind (Keeps.modify fun c => hsp c _) fun _ => ?_
  refine Keeps.bind Keeps.get fun _ => ?_
  exact Keeps.ite (Keeps.throw _) (Keeps.modify fun c => hput c _ v)

/-! ### Operations -/

section Operations

variable {c : Cpu} {op : Opcode}

/-- An operation on the two registers of a descriptor keeps what its action on their contents keeps. -/
theorem view_operands {f : Descriptor → UInt16 → UInt16 → Exec Unit}
    (hpc : ∀ c v, view (setReg c .pc v) = view c)
    (hf : ∀ v w, Keeps view (f (Descriptor.ofByte (c.memory.byte c.pc)) v w)) :
    view (endState (do
      let d ← descriptor
      let v ← operand d.dst
      let w ← operand d.src
      f d v w) c) = view c :=
  view_descriptor_bind hpc (Keeps.bind (keeps_operand _) fun _ => Keeps.bind (keeps_operand _) fun _ =>
    hf _ _)

section Results

variable (h : ∀ f ∈ Flag.results, ∀ c on, view (setFlag c f on) = view c)
include h

theorem view_resultFlags (c : Cpu) (v : UInt16) : view (c.resultFlags v) = view c := by
  rw [resultFlags, h .negative (by decide), h .zero (by decide)]

theorem view_compared (c : Cpu) (d s : UInt16) : view (c.compared d s) = view c := by
  rw [compared, h .overflow (by decide), h .carry (by decide), h .negative (by decide),
    h .zero (by decide)]

end Results

theorem view_jump (hpc : ∀ c v, view (setReg c .pc v) = view c) {taken : Bool}
    (h : ∀ i ∈ if taken then c.namedBy Decoded.updated else [], Blind view i) :
    view (endState (jump taken) c) = view c := by
  cases taken with
  | true =>
    refine view_decode_bind hpc fun o _ ho => ?_
    rw [if_pos rfl, namedBy_of_ok ho] at h
    exact Keeps.bind (keeps_target h) fun _ => Keeps.modify fun c => hpc c _
  | false =>
    refine Keeps.bind Keeps.get (fun _ => ?_) c
    exact Keeps.bind (keeps_modes _) fun _ => keeps_advanceBy hpc _

theorem view_loadOp (hpc : ∀ c v, view (setReg c .pc v) = view c)
    (hsp : ∀ c v, view (setReg c .sp v) = view c)
    (h : ∀ i ∈ c.namedBy Decoded.loaded, Blind view i) : view (endState loadOp c) = view c := by
  refine view_decode_bind hpc fun o _ ho => ?_
  rw [namedBy_of_ok ho] at h
  have hset : ∀ v, Keeps view (setOperand o.descriptor.dst v) :=
    keeps_setOperand (h _ List.mem_cons_self)
  refine Keeps.ite (Keeps.bind (keeps_pop hsp) fun _ => hset _) ?_
  cases hm : o.mode with
  | immediate => exact hset _
  | regDirect => exact Keeps.bind (keeps_operand _) fun _ => hset _
  | regIndirect | regIndirectOffset =>
    have hmode : o.mode = .regIndirect ∨ o.mode = .regIndirectOffset := by simp [hm]
    obtain ⟨hbefore, hafter⟩ := keeps_update fun hu =>
      h _ (List.mem_cons_of_mem _ (Decoded.src_mem_updated hmode hu))
    refine Keeps.bind hbefore fun _ => Keeps.bind (keeps_operand _) fun _ => ?_
    exact Keeps.bind Keeps.get fun _ => Keeps.bind (hset _) fun _ => hafter
  | memory => exact Keeps.bind Keeps.get fun _ => hset _
  | regDirectAddition => exact Keeps.bind (keeps_operand _) fun _ => hset _

theorem view_storeOp (hpc : ∀ c v, view (setReg c .pc v) = view c)
    (hsp : ∀ c v, view (setReg c .sp v) = view c) (hput : ∀ c a v, view (putWord c a v) = view c)
    (h : ∀ i ∈ c.namedBy Decoded.stored, Blind view i) : view (endState storeOp c) = view c := by
  refine view_decode_bind hpc fun o _ ho => Keeps.bind (keeps_operand _) fun v => ?_
  rw [namedBy_of_ok ho] at h
  refine Keeps.ite (keeps_push hsp hput v) ?_
  cases hm : o.mode with
  | immediate => exact Keeps.throw _
  | regDirect | regDirectAddition => exact keeps_setOperand (h _ (by simp [Decoded.stored, hm])) _
  | regIndirect | regIndirectOffset =>
    have hmode : o.mode = .regIndirect ∨ o.mode = .regIndirectOffset := by simp [hm]
    obtain ⟨hbefore, hafter⟩ := keeps_update fun hu =>
      h _ (by simpa only [Decoded.stored, hm] using Decoded.src_mem_updated hmode hu)
    refine Keeps.bind hbefore fun _ => Keeps.bind (keeps_operand _) fun _ => ?_
    exact Keeps.bind (Keeps.modify fun c => hput c _ v) fun _ => hafter
  | memory => exact Keeps.modify fun c => hput c _ v

theorem keeps_interrupt (hpc : ∀ c v, view (setReg c .pc v) = view c)
    (hsp : ∀ c v, view (setReg c .sp v) = view c) (hput : ∀ c a v, view (putWord c a v) = view c) :
    Keeps view interrupt := by
  refine Keeps.bind (keeps_descriptor hpc) fun _ => ?_
  refine Keeps.bind (keeps_operand _) fun _ => ?_
  refine Keeps.bind Keeps.get fun _ => ?_
  refine Keeps.bind (keeps_push hsp hput _) fun _ => ?_
  refine Keeps.bind Keeps.get fun _ => ?_
  exact Keeps.bind (keeps_push hsp hput _) fun _ => Keeps.modify fun c => hpc c _

theorem view_call (hpc : ∀ c v, view (setReg c .pc v) = view c)
    (hsp : ∀ c v, view (setReg c .sp v) = view c) (hput : ∀ c a v, view (putWord c a v) = view c)
    (h : ∀ i ∈ c.namedBy Decoded.updated, Blind view i) : view (endState call c) = view c := by
  refine view_decode_bind hpc fun o _ ho => ?_
  rw [namedBy_of_ok ho] at h
  refine Keeps.bind Keeps.get fun _ => Keeps.bind (keeps_push hsp hput _) fun _ => ?_
  exact Keeps.bind (keeps_target h) fun _ => Keeps.modify fun c => hpc c _

/-- **An operation keeps** every part of the state that it does not write, whether it succeeds or fails. -/
theorem view_execute (h : Spared view op c) : view (endState (execute op) c) = view c := by
  have hpc := h.pc
  have hset : ∀ i ∈ c.written op, ∀ v, Keeps view (setOperand i v) := fun i hi =>
    keeps_setOperand (h.named i hi)
  cases op with
  | halt => exact h.halted rfl c
  | int => exact keeps_interrupt hpc h.sp (h.memory rfl) c
  | call => exact view_call hpc h.sp (h.memory rfl) h.named
  | str => exact view_storeOp hpc h.sp (h.memory rfl) h.named
  | iret =>
    refine Keeps.bind (keeps_pop h.sp) (fun _ => ?_) c
    refine Keeps.bind (Keeps.modify fun c => h.status rfl c _) fun _ => ?_
    exact Keeps.bind (keeps_pop h.sp) fun _ => Keeps.modify fun c => hpc c _
  | ret => exact Keeps.bind (keeps_pop h.sp) (fun _ => Keeps.modify fun c => hpc c _) c
  | jmp => exact @view_jump _ _ c hpc true h.named
  | jeq | jne | jgt => exact view_jump hpc h.named
  | ldr => exact view_loadOp hpc h.sp h.named
  | xchg =>
    refine view_operands hpc fun _ _ => Keeps.bind (hset _ List.mem_cons_self _) fun _ => ?_
    exact hset _ (List.mem_cons_of_mem _ List.mem_cons_self) _
  | add | sub | mul | and | or | xor => exact view_operands hpc fun _ _ => hset _ List.mem_cons_self _
  | div =>
    exact view_operands hpc fun _ _ => Keeps.ite (Keeps.throw _) (hset _ List.mem_cons_self _)
  | cmp =>
    exact view_operands hpc fun d s => Keeps.modify fun c => view_compared (h.results rfl) c d s
  | test =>
    exact view_operands hpc fun d s => Keeps.modify fun c => view_resultFlags (h.results rfl) c (d &&& s)
  | not =>
    exact view_descriptor_bind hpc (Keeps.bind (keeps_operand _) fun _ => hset _ List.mem_cons_self _)
  | shl | shr =>
    refine view_operands hpc fun d s => Keeps.ite (Keeps.throw _) ?_
    refine Keeps.bind (hset _ List.mem_cons_self _) fun _ => Keeps.modify fun c => ?_
    exact (h.results rfl .carry (by decide) _ _).trans (view_resultFlags (h.results rfl) c _)

end Operations

/-! ### Steps -/

/-- A step keeps what its operation keeps. -/
theorem view_step {c : Cpu} (hpc : ∀ c v, view (setReg c .pc v) = view c)
    (h : ∀ op, Opcode.ofCode? (c.memory.byte c.pc) = some op →
      view (endState (execute op) (c.past 1)) = view (c.past 1)) :
    view (endState step c) = view c := by
  refine view_bind rfl fun _ _ hget => ?_
  cases hget
  refine view_bind (keeps_fetch hpc c) fun b c1 hfetch => ?_
  obtain ⟨rfl, rfl⟩ := ok_of_fetch hfetch
  cases hop : Opcode.ofCode? (c.memory.byte c.pc) with
  | none => rfl
  | some op => exact view_bind (h op hop) fun _ _ _ => rfl

section Steps

variable (hreg : ∀ c r v, view (setReg c r v) = view c)
include hreg

/-- **A step keeps** every part of the state that depends on no register, on no memory and not on the
halted flag. -/
theorem keeps_step (hput : ∀ c a v, view (putWord c a v) = view c)
    (hhalt : ∀ c : Cpu, view { c with halted := true } = view c) : Keeps view step :=
  fun _ => view_step (fun c => hreg c .pc) fun _ _ =>
    view_execute (Spared.of_setReg hreg (fun _ => hput) fun _ => hhalt)

/-- **Taking an interrupt keeps** every part of the state that depends on no register, on no memory and
not on the pending requests. -/
theorem keeps_checkInterrupts (hput : ∀ c a v, view (putWord c a v) = view c)
    (hdismiss : ∀ c line, view (dismiss c line) = view c) : Keeps view checkInterrupts := by
  have hsp : ∀ c v, view (setReg c .sp v) = view c := fun c => hreg c .sp
  refine Keeps.bind Keeps.get fun c => ?_
  cases c.eligible? with
  | none => exact Keeps.pure _
  | some line =>
    refine Keeps.bind ?_ fun _ => Keeps.pure _
    rw [enter_eq]
    refine Keeps.bind Keeps.get fun _ => Keeps.bind (keeps_push hsp hput _) fun _ => ?_
    refine Keeps.bind Keeps.get fun _ => Keeps.bind (keeps_push hsp hput _) fun _ => ?_
    refine Keeps.modify fun c => ?_
    rw [entered, hdismiss, hreg]
    exact hreg c .psw _

end Steps
end Cpu
end Sx16
