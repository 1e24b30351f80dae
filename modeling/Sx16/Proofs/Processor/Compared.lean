/-
# Comparing and branching

A comparison subtracts and keeps the flags alone. They tell how the two words lie to each other, as
numbers without a sign and as numbers in two's complement: zero and carry for the former, and for the
latter the sign of the difference, which is the wrong one just where the difference does not fit a word.
So a conditional jump after a comparison is taken as its name says, for all pairs of words.

Key definitions: `Compares`, `TakenIff`.
Key theorems: `Cpu.overflow_iff`, `Cpu.greater_iff`, `Cpu.compares_compared`, `Cpu.compare_then_branch`.
-/
import Sx16.Proofs.Processor.Executed
import Sx16.Proofs.Processor.Flags

namespace Sx16

/-- What a status word tells after a comparison of two words. -/
structure Compares (d s psw psw' : UInt16) : Prop where
  zero : Flag.zero.isSet psw' = true ↔ d = s
  /-- The carry tells the order of the words as numbers without a sign. -/
  carry : Flag.carry.isSet psw' = true ↔ d.toNat < s.toNat
  negative : Flag.negative.isSet psw' = (d - s).toNat.testBit 15
  /-- The difference as numbers in two's complement does not fit a word. -/
  overflow : Flag.overflow.isSet psw' = true ↔
    ¬ (-0x8000 ≤ Word.signed d - Word.signed s ∧ Word.signed d - Word.signed s ≤ 0x7FFF)
  /-- All bits but the four results are as they were. -/
  others : ∀ i, 4 ≤ i → psw'.toNat.testBit i = psw.toNat.testBit i

/-- With a status word, a jump is taken just under a condition, and else passes over its operand. -/
def TakenIff (op : Opcode) (psw : UInt16) (p : Prop) : Prop :=
  ∀ c : Cpu, c.psw = psw →
    (p → (Cpu.execute op).run c = Cpu.jumpTaken.run c) ∧
    (¬ p → (Cpu.execute op).run c = Cpu.jumpSkipped.run c)

theorem takenIff_of_jump {op : Opcode} {psw : UInt16} {b : Bool} {p : Prop} (hb : b = true ↔ p)
    (h : ∀ c : Cpu, c.psw = psw → (Cpu.execute op).run c = (Cpu.jump b).run c) : TakenIff op psw p := by
  intro c hc
  rw [h c hc, Cpu.jump]
  refine ⟨fun hp => by rw [if_pos (hb.mpr hp)], fun hp => by rw [if_neg (mt hb.mp hp)]⟩

namespace Cpu

variable {c : Cpu} {d s : UInt16} {dst src : Register}

/-! ### The flags of a difference -/

theorem sub_beq_zero_iff (d s : UInt16) : (d - s == 0) = true ↔ d = s := by
  rw [beq_iff_eq]
  grind

/-- The signs of two words and of their difference tell whether the difference fits a word: it can only
fail to where the words have different signs, and then its sign is that of the second word. -/
theorem overflow_iff (d s : UInt16) :
    (isNegative d != isNegative s && isNegative (d - s) != isNegative d) = true ↔
      ¬ (-0x8000 ≤ Word.signed d - Word.signed s ∧ Word.signed d - Word.signed s ≤ 0x7FFF) := by
  have hd := d.toNat_lt
  have hs := s.toNat_lt
  rw [Word.signed_eq, Word.signed_eq, isNegative_eq_decide, isNegative_eq_decide,
    isNegative_eq_decide, UInt16.toNat_sub]
  by_cases hdn : 0x8000 ≤ d.toNat <;> by_cases hsn : 0x8000 ≤ s.toNat <;> simp [hdn, hsn] <;> omega

/-- The first word is the greater one just if the difference is not zero and its sign is that of a
positive number, or of a negative one where the difference does not fit a word. -/
theorem greater_iff (d s : UInt16) :
    (!(d - s == 0) && isNegative (d - s) ==
      (isNegative d != isNegative s && isNegative (d - s) != isNegative d)) = true ↔
      Word.signed s < Word.signed d := by
  have hd := d.toNat_lt
  have hs := s.toNat_lt
  have heq : d = s ↔ d.toNat = s.toNat := UInt16.toNat_inj.symm
  rw [Bool.and_eq_true, Bool.not_eq_true', ← Bool.not_eq_true, sub_beq_zero_iff, heq, Word.signed_eq,
    Word.signed_eq, isNegative_eq_decide, isNegative_eq_decide, isNegative_eq_decide, UInt16.toNat_sub]
  by_cases hdn : 0x8000 ≤ d.toNat <;> by_cases hsn : 0x8000 ≤ s.toNat <;> simp [hdn, hsn] <;> omega

/-! ### The status word -/

theorem flag_compared (d s : UInt16) (c : Cpu) :
    (c.compared d s).flag .zero = (d - s == 0) ∧
    (c.compared d s).flag .negative = isNegative (d - s) ∧
    (c.compared d s).flag .carry = decide (d < s) ∧
    (c.compared d s).flag .overflow =
      (isNegative d != isNegative s && isNegative (d - s) != isNegative d) := by
  simp [compared, flag_setFlag]

theorem compares_compared (d s : UInt16) (c : Cpu) : Compares d s c.psw (c.compared d s).psw := by
  obtain ⟨hzero, hnegative, hcarry, hoverflow⟩ := flag_compared d s c
  refine ⟨?_, ?_, ?_, ?_, fun i hi => ?_⟩
  · exact (Bool.eq_iff_iff.mp hzero).trans (sub_beq_zero_iff d s)
  · exact (Bool.eq_iff_iff.mp hcarry).trans decide_eq_true_iff
  · exact hnegative.trans (isNegative_eq_testBit _)
  · exact (Bool.eq_iff_iff.mp hoverflow).trans (overflow_iff d s)
  · have hne : ∀ f ∈ Flag.results, i ≠ f.position := fun f hf => by
      have := Flag.position_lt_of_mem_results hf
      omega
    simp only [compared, testBit_setFlag]
    rw [if_neg (hne .overflow (by decide)), if_neg (hne .carry (by decide)),
      if_neg (hne .negative (by decide)), if_neg (hne .zero (by decide))]

/-- The conditional jumps go by the order of the words that were compared. -/
theorem takenIff_compared (d s : UInt16) (c : Cpu) :
    TakenIff .jeq (c.compared d s).psw (d = s) ∧ TakenIff .jne (c.compared d s).psw (d ≠ s) ∧
      TakenIff .jgt (c.compared d s).psw (Word.signed s < Word.signed d) := by
  obtain ⟨hzero, hnegative, -, hoverflow⟩ := flag_compared d s c
  have hequal : (c.compared d s).flag .zero = true ↔ d = s := by
    rw [hzero, sub_beq_zero_iff]
  have hdiffer : (!(c.compared d s).flag .zero) = true ↔ d ≠ s := by
    rw [Bool.not_eq_true', ← Bool.not_eq_true, hequal]
  have hgreater : (!(c.compared d s).flag .zero &&
      (c.compared d s).flag .negative == (c.compared d s).flag .overflow) = true ↔
      Word.signed s < Word.signed d := by
    rw [hzero, hnegative, hoverflow, greater_iff]
  have hflag : ∀ c' : Cpu, c'.psw = (c.compared d s).psw → ∀ f, (c.compared d s).flag f = c'.flag f :=
    fun c' hc' f => congrArg f.isSet hc'.symm
  refine ⟨takenIff_of_jump hequal ?_, takenIff_of_jump hdiffer ?_, takenIff_of_jump hgreater ?_⟩
  all_goals
    intro c' hc'
    simp only [hflag c' hc']
    rfl

/-- **A comparison and the branch after it.** A `CMP` of any two registers, with any status word before,
goes on at the next instruction and changes no register, no byte of memory and nothing else but the status
word, in which the four results tell how the words lie to each other and all other bits are as before.
With that status word `JEQ` is taken just if the words are equal, `JNE` just if they differ, and `JGT` just
if the first one is the greater number in two's complement. -/
theorem compare_then_branch
    (h : Ahead [Opcode.cmp.code, (Descriptor.mk dst.index src.index).toByte] c) :
    let d := (c.past 2).reg dst
    let s := (c.past 2).reg src
    ∃ psw, step.run c = .ok ⟨c.pc, .cmp⟩ ((c.past 2).setReg .psw psw) ∧ Compares d s c.psw psw ∧
      TakenIff .jeq psw (d = s) ∧ TakenIff .jne psw (d ≠ s) ∧
      TakenIff .jgt psw (Word.signed s < Word.signed d) := by
  intro d s
  refine ⟨((c.past 2).compared d s).psw, ?_, compares_compared d s (c.past 2),
    takenIff_compared d s (c.past 2)⟩
  have htwo : Two dst src (c.past 1) := h.tail
  have hdoes := does_withTwo (m := .cmp) rfl htwo
  rw [past_past] at hdoes
  exact step_of_does_ok h hdoes

/-- The greatest number in two's complement and the number before zero: the difference does not fit a
word, its sign is wrong, and `JGT` is taken all the same. -/
theorem compare_then_branch_overflow :
    let c := (((Cpu.holding 0x100 [0x74, 0x12]).setReg .r1 0x7FFF).setReg .r2 0xFFFF).setReg .psw 0xE001
    Ahead [Opcode.cmp.code, (Descriptor.mk Register.r1.index Register.r2.index).toByte] c ∧
    ∃ psw, step.run c = .ok ⟨0x100, .cmp⟩ ((c.past 2).setReg .psw psw) ∧
      Flag.overflow.isSet psw = true ∧ Flag.negative.isSet psw = true ∧ TakenIff .jgt psw True := by
  intro c
  have hahead : Ahead [Opcode.cmp.code, (Descriptor.mk Register.r1.index Register.r2.index).toByte] c := by
    decide +kernel
  have hpc : c.pc = 0x100 := by decide +kernel
  have hd : (c.past 2).reg .r1 = 0x7FFF := by decide +kernel
  have hs : (c.past 2).reg .r2 = 0xFFFF := by decide +kernel
  obtain ⟨psw, hstep, hcompares, -, -, hgreater⟩ := compare_then_branch hahead
  rw [hd, hs] at hcompares hgreater
  rw [hpc] at hstep
  rw [eq_true (show Word.signed 0xFFFF < Word.signed 0x7FFF by decide)] at hgreater
  refine ⟨hahead, psw, hstep, hcompares.overflow.mpr (by decide), ?_, hgreater⟩
  exact hcompares.negative.trans (by decide)

end Cpu
end Sx16
