/-
# The stack and the image

A push moves the stack pointer down by two and refuses if it comes to the end of the image or below.
The two bytes that it then writes lie above the image, with one exception: from the address 1 the stack
pointer wraps to the last address, and the second byte of the word goes to address 0. So no push, and
no instruction or interrupt that pushes, changes a byte below the end of the image, except the byte at
address 0 when the stack pointer was 1.

Key definitions: `Cpu.Reachable`, `Cpu.Pushing`, `Cpu.Shielded`, `Exec.SparesWhere`, `Exec.Spares`.
Key theorems: `Cpu.top_of_reachable`, `Exec.SparesWhere.after_push`, `Cpu.pushing_spares_image`,
`Cpu.push_overwrites_image`.
-/
import Sx16.Proofs.Image.ReadBack
import Sx16.Proofs.Processor.Frame

namespace Sx16

open Exec

/-! ### States of a program -/

/-- The states that a processor with a loaded image can come to. -/
inductive Cpu.Reachable (image : Image) : Cpu → Prop where
  | load : Reachable image (Cpu.load image)
  | setReg {c : Cpu} (h : Reachable image c) (r : Register) (v : UInt16) :
    Reachable image (c.setReg r v)
  | request {c : Cpu} (h : Reachable image c) (line : Line) : Reachable image (c.request line)
  | step {c : Cpu} (h : Reachable image c) : Reachable image (endState Cpu.step c)
  | check {c : Cpu} (h : Reachable image c) : Reachable image (endState Cpu.checkInterrupts c)

namespace Cpu

variable {c c' : Cpu} {a v : UInt16} {image : Image}

theorem top_of_reachable (h : Reachable image c) : c.top = image.top := by
  induction h with
  | load => exact top_setReg _ _ _
  | setReg h r v ih => exact (top_setReg _ r v).trans ih
  | request h line ih => exact ih
  | step h ih => exact (keeps_step top_setReg (fun _ _ _ => rfl) (fun _ => rfl) _).trans ih
  | check h ih =>
    exact (keeps_checkInterrupts top_setReg (fun _ _ _ => rfl) (fun _ _ => rfl) _).trans ih

/-- The ways in which a processor pushes, each with the state that it ends in: a word, a call, a
software interrupt, a store through the stack pointer, and a taken interrupt. -/
inductive Pushing (c : Cpu) : Cpu → Prop where
  | word (v : UInt16) : Pushing c (endState (push v) c)
  | call (h : Opcode.ofCode? (c.memory.byte c.pc) = some .call) : Pushing c (endState step c)
  | int (h : Opcode.ofCode? (c.memory.byte c.pc) = some .int) : Pushing c (endState step c)
  | store {o : Decoded} {c' : Cpu} (h : Opcode.ofCode? (c.memory.byte c.pc) = some .str)
    (hdecode : decode.run (c.past 1) = .ok o c') (ho : isPush o = true) : Pushing c (endState step c)
  | check : Pushing c (endState checkInterrupts c)

/-! ### One push -/

/-- The byte of a state at an address. -/
def byteAt (a : UInt16) (c : Cpu) : UInt8 := c.memory.byte a

theorem byte_putWord (m : Memory) (a b v : UInt16) : (m.putWord a v).byte b =
    if a + 1 = b then Word.high v else if a = b then Word.low v else m.byte b := by
  rw [Memory.putWord, Memory.byte_putByte, Memory.byte_putByte]

theorem sp_stacked (c : Cpu) (v : UInt16) : (c.stacked v).sp = c.sp - 2 :=
  (reg_setReg c .sp .sp _).trans (if_pos rfl)

theorem reg_stacked {r : Register} (h : r ≠ .sp) (c : Cpu) (v : UInt16) :
    (c.stacked v).reg r = c.reg r :=
  (reg_setReg c .sp r _).trans (if_neg h.symm)

theorem memory_stacked (c : Cpu) (v : UInt16) :
    (c.stacked v).memory = c.memory.putWord (c.sp - 2) v := by
  show c.lowered.memory.putWord (c.sp - 2) v = _
  rw [lowered, memory_setReg]

theorem byte_stacked (c : Cpu) (v b : UInt16) : (c.stacked v).memory.byte b =
    if c.sp - 2 + 1 = b then Word.high v else if c.sp - 2 = b then Word.low v
    else c.memory.byte b := by
  rw [memory_stacked, byte_putWord]

theorem stackTop_stacked (c : Cpu) (v : UInt16) : (c.stacked v).stackTop = v := by
  have hnext : c.sp - 2 + 1 ≠ c.sp - 2 := by grind
  rw [stackTop, sp_stacked, Memory.word, byte_stacked, byte_stacked, if_neg hnext, if_pos rfl, if_pos rfl,
    Word.ofBytes_low_high]

theorem word_stacked_above (c : Cpu) (v : UInt16) : (c.stacked v).memory.word c.sp = c.stackTop := by
  have hlow : c.sp - 2 ≠ c.sp ∧ c.sp - 2 + 1 ≠ c.sp := by grind
  have hhigh : c.sp - 2 ≠ c.sp + 1 ∧ c.sp - 2 + 1 ≠ c.sp + 1 := by grind
  rw [stackTop, Memory.word, byte_stacked, byte_stacked, if_neg hlow.2, if_neg hlow.1, if_neg hhigh.2,
    if_neg hhigh.1, Memory.word]

/-- An address in the image that the next push does not reach. -/
structure Shielded (a : UInt16) (c : Cpu) : Prop where
  inside : a.toNat < c.top
  wrap : c.sp = 1 → a ≠ 0

/-- The two bytes of a word that a push has room for are not the shielded one. -/
theorem Shielded.apart (h : Shielded a c) (hroom : ¬ (c.sp - 2).toNat ≤ c.top) :
    c.sp - 2 ≠ a ∧ c.sp - 2 + 1 ≠ a := by
  have hinside := h.inside
  refine ⟨?_, ?_⟩
  · rintro rfl
    omega
  · -- Behind the lower byte the addresses may start again, but only from the stack pointer 1.
    intro ha
    by_cases hzero : a = 0
    · exact h.wrap (by grind) hzero
    · have hlt : (c.sp - 2).toNat < a.toNat := by
        have hnat : ((c.sp - 2).toNat + 1) % 65536 = a.toNat := by
          rw [← ha, UInt16.toNat_add]
          rfl
        have hpos : a.toNat ≠ 0 := fun h0 => hzero (UInt16.toNat_inj.mp h0)
        have := (c.sp - 2).toNat_lt
        omega
      omega

/-- The byte at a shielded address stays, and it is shielded from the next push too. -/
theorem Shielded.push (h : Shielded a c) (v : UInt16) :
    (endState (push v) c).memory.byte a = c.memory.byte a ∧
      ∀ u c', (Cpu.push v).run c = .ok u c' → Shielded a c' := by
  unfold endState
  rw [run_push_eq]
  by_cases hroom : (c.sp - 2).toNat ≤ c.top
  · rw [if_pos hroom]
    refine ⟨?_, fun u c' hrun => by cases hrun⟩
    show c.lowered.memory.byte a = _
    rw [lowered, memory_setReg]
  · rw [if_neg hroom]
    obtain ⟨hlow, hhigh⟩ := h.apart hroom
    refine ⟨?_, fun u c' hrun => ?_⟩
    · rw [byte_stacked, if_neg hhigh, if_neg hlow]
    · cases hrun
      have hsp := sp_stacked c v
      refine ⟨h.inside, fun hone => ?_⟩
      -- The new stack pointer is above the end of the image, and that is above the address.
      have hnat : (c.sp - 2).toNat = 1 := congrArg UInt16.toNat (hsp.symm.trans hone)
      have hinside := h.inside
      omega

end Cpu

/-! ### Actions that push -/

namespace Exec

variable {α β : Type} {a : UInt16} {c c' : Cpu}

/-- What decides where a push writes and what it overwrites. -/
def stackView (c : Cpu) : Memory × UInt16 × Nat := (c.memory, c.sp, c.top)

theorem stackView_setReg_pc (c : Cpu) (v : UInt16) : stackView (c.setReg .pc v) = stackView c := by
  have hsp : (c.setReg .pc v).sp = c.sp := (Cpu.reg_setReg c .pc .sp v).trans (if_neg (by decide))
  rw [stackView, hsp]
  rfl

theorem shielded_congr (h : Cpu.Shielded a c) (hc : stackView c' = stackView c) :
    Cpu.Shielded a c' := by
  obtain ⟨-, hrest⟩ := Prod.mk.inj hc
  obtain ⟨hsp, htop⟩ := Prod.mk.inj hrest
  exact ⟨htop.symm ▸ h.inside, fun hone => h.wrap (hsp.symm.trans hone)⟩

/-- In states of a kind, an action does not change the byte at an address. -/
def SparesWhere (P : Cpu → Prop) (a : UInt16) (x : Exec α) : Prop :=
  ∀ c, P c → Cpu.byteAt a (endState x c) = Cpu.byteAt a c

/-- An action does not change the byte at an address where it is shielded. -/
def Spares (a : UInt16) (x : Exec α) : Prop :=
  ∀ c, Cpu.Shielded a c → (endState x c).memory.byte a = c.memory.byte a

section SparesWhere

variable {P Q : Cpu → Prop}

theorem SparesWhere.of_keeps {x : Exec α} (h : Keeps Cpu.memory x) : SparesWhere P a x :=
  fun c _ => congrArg (Memory.byte · a) (h c)

/-- What an action does after a quiet one, in states of a kind that pushes alone decide. -/
theorem SparesWhere.after_quiet {x : Exec α} {f : α → Exec β}
    (hP : ∀ {c c'}, P c → stackView c' = stackView c → P c') (hx : Keeps stackView x)
    (hf : ∀ v, SparesWhere P a (f v)) : SparesWhere P a (x >>= f) := by
  intro c hc
  have hquiet := hx c
  have hmemory : (endState x c).memory = c.memory := (Prod.mk.inj hquiet).1
  refine view_bind (congrArg (Memory.byte · a) hmemory) fun v c' hrun => hf v c' ?_
  rw [endState_of_ok hrun] at hquiet
  exact hP hc hquiet

/-- What an action does after a push, in the states that a push leads to. -/
theorem SparesWhere.after_push {v : UInt16} {f : Unit → Exec β} (hpush : SparesWhere P a (Cpu.push v))
    (hnext : ∀ c c', P c → (Cpu.push v).run c = .ok () c' → Q c') (hf : ∀ u, SparesWhere Q a (f u)) :
    SparesWhere P a (Cpu.push v >>= f) :=
  fun c hc => view_bind (hpush c hc) fun u c' hrun => hf u c' (hnext c c' hc hrun)

theorem SparesWhere.call (hP : ∀ {c c'}, P c → stackView c' = stackView c → P c')
    (hpush : ∀ v, SparesWhere P a (Cpu.push v)) : SparesWhere P a Cpu.call := by
  refine after_quiet hP (Cpu.keeps_decode stackView_setReg_pc) fun o => ?_
  refine after_quiet hP Keeps.get fun c => after_push (hpush c.pc) (fun _ _ _ _ => trivial) fun _ => ?_
  refine of_keeps (Keeps.bind ?_ fun _ => Keeps.modify fun c => Cpu.memory_setReg c .pc _)
  exact Cpu.keeps_target fun _ _ => Blind.of_setReg Cpu.memory_setReg _

/-- A software interrupt pushes twice. -/
theorem SparesWhere.interrupt (hP : ∀ {c c'}, P c → stackView c' = stackView c → P c')
    (hQ : ∀ {c c'}, Q c → stackView c' = stackView c → Q c')
    (hfirst : ∀ v, SparesWhere P a (Cpu.push v)) (hsecond : ∀ v, SparesWhere Q a (Cpu.push v))
    (hnext : ∀ v c c', P c → (Cpu.push v).run c = .ok () c' → Q c') :
    SparesWhere P a Cpu.interrupt := by
  refine after_quiet hP (Cpu.keeps_descriptor stackView_setReg_pc) fun _ => ?_
  refine after_quiet hP (Cpu.keeps_operand _) fun _ => ?_
  refine after_quiet hP Keeps.get fun c => after_push (hfirst c.pc) (hnext c.pc) fun _ => ?_
  refine after_quiet hQ Keeps.get fun c => after_push (hsecond c.psw) (fun _ _ _ _ => trivial) fun _ => ?_
  exact of_keeps (Keeps.modify fun c => Cpu.memory_setReg c .pc _)

end SparesWhere

end Exec

namespace Cpu

variable {c c' : Cpu} {a v : UInt16} {image : Image}

theorem spares_push (v : UInt16) : Spares a (push v) := fun _ hc => (hc.push v).1

/-- A push that succeeds leaves a shielded address shielded. -/
theorem shielded_of_push (v : UInt16) (c c' : Cpu) (hc : Shielded a c)
    (h : (push v).run c = .ok () c') : Shielded a c' :=
  (hc.push v).2 () c' h

theorem spares_interrupt : Spares a interrupt :=
  SparesWhere.interrupt shielded_congr shielded_congr spares_push spares_push shielded_of_push

theorem spares_call : Spares a call := SparesWhere.call shielded_congr spares_push

theorem spares_checkInterrupts : Spares a checkInterrupts := by
  refine SparesWhere.after_quiet shielded_congr Keeps.get fun c => ?_
  cases c.eligible? with
  | none => exact SparesWhere.of_keeps (Keeps.pure _)
  | some line =>
    show Spares a (enter line >>= fun _ => pure (some line))
    rw [enter_eq]
    simp only [bind_assoc]
    refine SparesWhere.after_quiet shielded_congr Keeps.get fun c => ?_
    refine SparesWhere.after_push (spares_push c.pc) (shielded_of_push c.pc) fun _ => ?_
    refine SparesWhere.after_quiet shielded_congr Keeps.get fun c => ?_
    refine SparesWhere.after_push (spares_push c.psw) (shielded_of_push c.psw) fun _ => ?_
    exact SparesWhere.of_keeps (Keeps.bind (Keeps.modify (memory_entered line)) fun _ => Keeps.pure _)

/-- A store through the stack pointer is a push after operand bytes. -/
theorem byte_of_storeOp {o : Decoded} (hdecode : decode.run c = .ok o c') (ho : isPush o = true)
    (hc : Shielded a c) : (endState storeOp c).memory.byte a = c.memory.byte a := by
  have hquiet := keeps_decode stackView_setReg_pc c
  rw [endState_of_ok hdecode] at hquiet
  have hmemory : c'.memory = c.memory := (Prod.mk.inj hquiet).1
  unfold storeOp
  rw [endState_bind_of_ok hdecode, ho, ← hmemory]
  refine SparesWhere.after_quiet shielded_congr (keeps_operand _) (fun v => ?_) c'
    (shielded_congr hc hquiet)
  exact spares_push v

theorem byte_of_step {op : Opcode} (hop : Opcode.ofCode? (c.memory.byte c.pc) = some op)
    (hx : Shielded a (c.past 1) →
      (endState (execute op) (c.past 1)).memory.byte a = (c.past 1).memory.byte a)
    (hc : Shielded a c) : (endState step c).memory.byte a = c.memory.byte a := by
  rw [endState_step hop]
  split
  · rw [memory_past]
  · rw [hx (shielded_congr hc (stackView_setReg_pc c _)), memory_past]

theorem byte_of_pushing (h : Pushing c c') (hc : Shielded a c) :
    c'.memory.byte a = c.memory.byte a := by
  cases h with
  | word v => exact spares_push v c hc
  | call hop => exact byte_of_step hop (spares_call _) hc
  | int hop => exact byte_of_step hop (spares_interrupt _) hc
  | store hop hdecode ho => exact byte_of_step hop (byte_of_storeOp hdecode ho) hc
  | check => exact spares_checkInterrupts c hc

/-- From the stack pointer 1 a push wraps and overwrites the first byte of memory. -/
theorem push_at_one (hsp : c.sp = 1) (htop : c.top < 0xFFFF) (v : UInt16) :
    ∃ c', (push v).run c = .ok () c' ∧ c'.memory.byte 0 = Word.high v := by
  have hlow : c.sp - 2 = 0xFFFF := by
    rw [hsp]
    rfl
  have hroom : ¬ (c.sp - 2).toNat ≤ c.top := by
    rw [hlow]
    exact Nat.not_le.mpr htop
  refine ⟨c.stacked v, ?_, ?_⟩
  · rw [run_push_eq, if_neg hroom]
  · rw [byte_stacked, hlow]
    exact if_pos rfl

/-- **What pushes leave of the image.** However a processor pushes, in whatever state a program has
brought it to and whether the push succeeds or fails, no byte below the end of the image changes, except
the byte at address 0 if the stack pointer was 1; and that byte does change, to the high byte of the
word, wherever the image leaves the last address free. -/
theorem pushing_spares_image (h : Reachable image c) :
    (∀ c' a, Pushing c c' → a.toNat < image.top → (c.sp = 1 → a ≠ 0) →
      c'.memory.byte a = c.memory.byte a) ∧
    (c.sp = 1 → image.top < 0xFFFF → ∀ v, ∃ c', (push v).run c = .ok () c' ∧
      c'.memory.byte 0 = Word.high v) := by
  have htop := top_of_reachable h
  refine ⟨fun c' a hp ha hwrap => byte_of_pushing hp ⟨htop ▸ ha, hwrap⟩, fun hsp hlt v => ?_⟩
  exact push_at_one hsp (htop ▸ hlt) v

/-- The image with one byte, at address 0; its first row ends at address 8. -/
def firstByte : Image := Image.empty.store 0 [0x11]

theorem byte_load_firstByte : (Cpu.load firstByte).memory.byte 0 = 0x11 := by
  rw [byte_load]
  show ((Image.mk (Image.empty.cells.insert 0 0x11)).get? 0).getD 0 = _
  rw [Image.get?_insert, if_pos rfl]
  rfl

/-- A push below the first byte of memory leaves it, and one from the stack pointer 1 does not. -/
theorem pushing_spares_image_firstByte :
    let c := Cpu.load firstByte
    Reachable firstByte c ∧ c.sp ≠ 1 ∧ (endState (push 0xABCD) c).memory.byte 0 = 0x11 ∧
      ∃ c', (push 0xABCD).run (c.setReg .sp 1) = .ok () c' ∧ c'.memory.byte 0 = 0xAB := by
  intro c
  have hsp : c.sp ≠ 1 := by
    rw [show c.sp = 0 from (reg_setReg _ .pc .sp _).trans (if_neg (by decide))]
    decide
  have hone : (c.setReg .sp 1).sp = 1 := (reg_setReg c .sp .sp 1).trans (if_pos rfl)
  have htop : firstByte.top = 8 := by cbv
  have hload : Reachable firstByte c := .load
  have hset : Reachable firstByte (c.setReg .sp 1) := .setReg hload .sp 1
  obtain ⟨hkeeps, -⟩ := pushing_spares_image hload
  obtain ⟨-, hwrap⟩ := pushing_spares_image hset
  refine ⟨hload, hsp, ?_, hwrap hone (by rw [htop]; decide) 0xABCD⟩
  rw [hkeeps _ 0 (.word 0xABCD) (by rw [htop]; decide) fun h => absurd h hsp]
  exact byte_load_firstByte

/-- **A push into the image.** A program in an image with a byte at address 0 sets the stack pointer to 1
and pushes: the push succeeds, and the byte is another one. -/
theorem push_overwrites_image :
    let c := (Cpu.load firstByte).setReg .sp 1
    ∃ c', Reachable firstByte c ∧ Pushing c c' ∧ (push 0xABCD).run c = .ok () c' ∧
      (0 : UInt16).toNat < firstByte.top ∧ c.memory.byte 0 = 0x11 ∧ c'.memory.byte 0 = 0xAB := by
  intro c
  have hsp : c.sp = 1 := (reg_setReg _ .sp .sp 1).trans (if_pos rfl)
  have htop : firstByte.top = 8 := by cbv
  have hctop : c.top < 0xFFFF := by
    rw [show c.top = firstByte.top from rfl, htop]
    decide
  obtain ⟨c', hrun, hbyte⟩ := push_at_one hsp hctop 0xABCD
  have hpush : Pushing c c' := endState_of_ok hrun ▸ Pushing.word 0xABCD
  refine ⟨c', .setReg .load _ _, hpush, hrun, by rw [htop]; decide, ?_, hbyte⟩
  exact (congrArg (Memory.byte · 0) (memory_setReg _ .sp 1)).trans byte_load_firstByte

end Cpu
end Sx16
