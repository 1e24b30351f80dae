/-
# Shifting is scaling

A shift to the left multiplies by a power of two and keeps the low sixteen bits, one to the right divides
and drops the rest. The carry tells whether anything was lost. The distance may be any word that is not
negative; from sixteen on no bit of the word is left, as the formulas say.

Key definitions: `ShiftsTo`, `Cpu.ShiftsBy`.
Key theorems: `toNat_shiftLeft`, `shiftLeft_lost`, `toNat_shiftRight`, `shiftRight_lost`,
`Cpu.shiftsBy_of_execute`, `Cpu.shift_scales`.
-/
import Sx16.Proofs.Processor.Executed
import Sx16.Proofs.Processor.Flags

namespace Sx16

/-- What a shift leaves: a word, and a status word that tells about it. -/
structure ShiftsTo (value : Nat) (lost : Prop) (psw v psw' : UInt16) : Prop where
  value : v.toNat = value
  carry : Flag.carry.isSet psw' = true ↔ lost
  zero : Flag.zero.isSet psw' = true ↔ v = 0
  negative : Flag.negative.isSet psw' = v.toNat.testBit 15
  /-- All bits but these three are as they were. -/
  others : ∀ i, i ≠ Flag.carry.position → i ≠ Flag.zero.position → i ≠ Flag.negative.position →
    psw'.toNat.testBit i = psw.toNat.testBit i

/-! ### Values -/

section Values

variable (d s : UInt16)

theorem distance_cases (s : UInt16) : s = 0 ∨ (s ≠ 0 ∧ s < 16 ∧ s.toNat < 16) ∨
    (s ≠ 0 ∧ ¬ s < 16 ∧ 16 ≤ s.toNat) := by
  by_cases hzero : s = 0
  · exact .inl hzero
  · by_cases hnear : s < 16
    · exact .inr (.inl ⟨hzero, hnear, UInt16.lt_iff_toNat_lt.mp hnear⟩)
    · exact .inr (.inr ⟨hzero, hnear, Nat.not_lt.mp fun h => hnear (UInt16.lt_iff_toNat_lt.mpr h)⟩)

theorem lt_two_pow_of_far {s : UInt16} (hfar : 16 ≤ s.toNat) : d.toNat < 2 ^ s.toNat :=
  Nat.lt_of_lt_of_le d.toNat_lt (Nat.pow_le_pow_right (by decide) hfar)

theorem toNat_shiftLeft : (shiftLeft d s).1.toNat = d.toNat * 2 ^ s.toNat % 2 ^ 16 := by
  unfold shiftLeft
  obtain rfl | ⟨hzero, hnear, hlt⟩ | ⟨hzero, hnear, hfar⟩ := distance_cases s
  · rw [if_pos rfl]
    exact ((Nat.mod_eq_of_lt (by simpa using d.toNat_lt)).trans (Nat.mul_one _)).symm
  · rw [if_neg hzero, if_pos hnear, UInt16.toNat_shiftLeft, Nat.mod_eq_of_lt hlt, Nat.shiftLeft_eq]
  · -- From sixteen places on, the product is a multiple of what a word holds.
    rw [if_neg hzero, if_neg hnear]
    have hpow : 2 ^ 16 ∣ 2 ^ s.toNat := pow_dvd_pow 2 hfar
    exact (Nat.mod_eq_zero_of_dvd (hpow.mul_left _)).symm

theorem toNat_widened {s : UInt16} (hnear : s.toNat < 16) :
    (d.toUInt32 <<< s.toUInt32).toNat = d.toNat * 2 ^ s.toNat := by
  have hs : s.toUInt32.toNat % 32 = s.toNat := by
    rw [UInt16.toNat_toUInt32]
    omega
  have hpow : 2 ^ s.toNat ≤ 2 ^ 15 := Nat.pow_le_pow_right (by decide) (Nat.le_of_lt_succ hnear)
  have hbound : d.toNat * 2 ^ s.toNat < 2 ^ 32 :=
    Nat.lt_of_le_of_lt (Nat.mul_le_mul_left _ hpow) (by have := d.toNat_lt; omega)
  rw [UInt32.toNat_shiftLeft, hs, UInt16.toNat_toUInt32, Nat.shiftLeft_eq, Nat.mod_eq_of_lt hbound]

theorem shiftLeft_lost : (shiftLeft d s).2 = true ↔ 2 ^ 16 ≤ d.toNat * 2 ^ s.toNat := by
  unfold shiftLeft
  obtain rfl | ⟨hzero, hnear, hlt⟩ | ⟨hzero, hnear, hfar⟩ := distance_cases s
  · have hd : ¬ 2 ^ 16 ≤ d.toNat * 2 ^ (0 : UInt16).toNat := by simpa using d.toNat_lt
    simp only [if_true, hd, Bool.false_eq_true]
  · rw [if_neg hzero, if_pos hnear, decide_eq_true_iff, UInt32.lt_iff_toNat_lt, toNat_widened d hlt]
    exact Iff.rfl
  · have hpow : 2 ^ 16 ≤ 2 ^ s.toNat := Nat.pow_le_pow_right (by decide) hfar
    rw [if_neg hzero, if_neg hnear, bne_iff_ne, ne_eq, ← UInt16.toNat_inj]
    constructor
    · intro hd
      exact hpow.trans (Nat.le_mul_of_pos_left _ (Nat.pos_of_ne_zero hd))
    · intro hle hd
      rw [hd] at hle
      simp at hle

theorem toNat_shiftRight : (shiftRight d s).1.toNat = d.toNat / 2 ^ s.toNat := by
  unfold shiftRight
  obtain rfl | ⟨hzero, hnear, hlt⟩ | ⟨hzero, hnear, hfar⟩ := distance_cases s
  · exact (Nat.div_one _).symm
  · rw [if_neg hzero, if_pos hnear, UInt16.toNat_shiftRight, Nat.mod_eq_of_lt hlt,
      Nat.shiftRight_eq_div_pow]
  · rw [if_neg hzero, if_neg hnear]
    exact (Nat.div_eq_of_lt (lt_two_pow_of_far d hfar)).symm

theorem toNat_masked {s : UInt16} (hnear : s.toNat < 16) :
    (d &&& ((1 <<< s) - 1)).toNat = d.toNat % 2 ^ s.toNat := by
  have hpow : 2 ^ s.toNat < 2 ^ 16 := Nat.pow_lt_pow_right (by decide) hnear
  have hone : ((1 : UInt16) <<< s).toNat = 2 ^ s.toNat := by
    rw [UInt16.toNat_shiftLeft, Nat.mod_eq_of_lt hnear, Nat.shiftLeft_eq, UInt16.toNat_one,
      Nat.one_mul, Nat.mod_eq_of_lt hpow]
  have hle : (1 : UInt16) ≤ 1 <<< s := by
    rw [UInt16.le_iff_toNat_le, hone]
    exact Nat.one_le_two_pow
  rw [UInt16.toNat_and, UInt16.toNat_sub_of_le _ _ hle, hone]
  exact Nat.and_two_pow_sub_one_eq_mod _ _

theorem shiftRight_lost : (shiftRight d s).2 = true ↔ d.toNat % 2 ^ s.toNat ≠ 0 := by
  unfold shiftRight
  obtain rfl | ⟨hzero, hnear, hlt⟩ | ⟨hzero, hnear, hfar⟩ := distance_cases s
  · have hd : d.toNat % 2 ^ (0 : UInt16).toNat = 0 := Nat.mod_one _
    simp only [if_true, hd, Bool.false_eq_true, ne_eq, not_true]
  · rw [if_neg hzero, if_pos hnear, bne_iff_ne, ne_eq, ← UInt16.toNat_inj, toNat_masked d hlt]
    rfl
  · rw [if_neg hzero, if_neg hnear, Nat.mod_eq_of_lt (lt_two_pow_of_far d hfar), bne_iff_ne, ne_eq,
      ← UInt16.toNat_inj]
    rfl

end Values

namespace Cpu

variable {c : Cpu} {dst src : Register} {op : Opcode} {f : UInt16 → UInt16 → UInt16 × Bool}
  {value : Nat → Nat → Nat} {lost : Nat → Nat → Prop}

/-! ### The status word -/

/-- The state with the results of a shift in its status word. -/
def shiftFlags (c : Cpu) (v : UInt16) (carry : Bool) : Cpu :=
  (c.resultFlags v).setFlag .carry carry

theorem shiftsTo_shiftFlags (v : UInt16) (carry : Bool) (c : Cpu) :
    ShiftsTo v.toNat (carry = true) c.psw v (c.shiftFlags v carry).psw := by
  have hcarry : (c.shiftFlags v carry).flag .carry = carry := by
    simp [shiftFlags, flag_setFlag]
  have hzero : (c.shiftFlags v carry).flag .zero = (v == 0) := by
    simp [shiftFlags, resultFlags, flag_setFlag]
  have hnegative : (c.shiftFlags v carry).flag .negative = isNegative v := by
    simp [shiftFlags, resultFlags, flag_setFlag]
  refine ⟨rfl, Bool.eq_iff_iff.mp hcarry, (Bool.eq_iff_iff.mp hzero).trans beq_iff_eq,
    hnegative.trans (isNegative_eq_testBit v), fun i hc hz hn => ?_⟩
  simp only [shiftFlags, resultFlags, testBit_setFlag, if_neg hc, if_neg hz, if_neg hn]

/-! ### Instructions -/

/-- The instruction of a state shifts the contents of one register by those of another, as two functions
of these numbers tell: it fails just if bit 15 of the distance is set, and else it changes the destination
register and the status word and goes on at the next instruction. The contents are those that an
instruction sees, with the program counter already behind it. -/
def ShiftsBy (op : Opcode) (dst src : Register) (value : Nat → Nat → Nat) (lost : Nat → Nat → Prop)
    (c : Cpu) : Prop :=
  let x := ((c.past 2).reg dst).toNat
  let n := ((c.past 2).reg src).toNat
  (n.testBit 15 = true → ∃ c', step.run c = .error (.illegalInstruction .negativeShift) c') ∧
  (n.testBit 15 = false → ∃ v psw,
    step.run c = .ok ⟨c.pc, op⟩ (((c.past 2).setReg dst v).setReg .psw psw) ∧
      ShiftsTo (value x n) (lost x n) c.psw v psw)

/-- An operation that shifts by a function does what the function's values tell. -/
theorem shiftsBy_of_execute (hdst : dst ≠ .psw) (hop : execute op = shift f)
    (hvalue : ∀ d s, (f d s).1.toNat = value d.toNat s.toNat)
    (hlost : ∀ d s, (f d s).2 = true ↔ lost d.toNat s.toNat)
    (h : Ahead [op.code, (Descriptor.mk dst.index src.index).toByte] c) :
    ShiftsBy op dst src value lost c := by
  have htwo : Two dst src (c.past 1) := h.tail
  have hdoes := does_shift f htwo
  rw [past_past, ← hop] at hdoes
  unfold shifted at hdoes
  refine ⟨fun hneg => ?_, fun hneg => ?_⟩
  · rw [← isNegative_eq_testBit] at hneg
    rw [if_pos hneg] at hdoes
    have hstep := step_of_does h hdoes
    cases hrun : step.run c with
    | ok t c' =>
      rw [hrun] at hstep
      cases hstep.2
    | error e c' =>
      rw [hrun] at hstep
      cases hstep
      exact ⟨c', rfl⟩
  · rw [← isNegative_eq_testBit] at hneg
    rw [if_neg (Bool.not_eq_true _ ▸ hneg)] at hdoes
    have hresults := shiftsTo_shiftFlags (f ((c.past 2).reg dst) ((c.past 2).reg src)).1
      (f ((c.past 2).reg dst) ((c.past 2).reg src)).2
      ((c.past 2).setReg dst (f ((c.past 2).reg dst) ((c.past 2).reg src)).1)
    rw [hvalue, propext (hlost _ _), psw_setReg hdst] at hresults
    exact ⟨_, _, step_of_does_ok h hdoes, hresults⟩

/-- **Shifts are multiplication and division by powers of two.** A shift of any register but the status
word, by any register, which may be the same one, fails just if bit 15 of the distance `n` is set. Else
`SHL` leaves `x * 2 ^ n` modulo `2 ^ 16`, with the carry where the product has no room in a word, and `SHR`
leaves the quotient of `x` by `2 ^ n`, with the carry where there is a remainder. Zero and sign tell about
the word that is left; no other bit of the status word changes, nor anything else but the program counter. -/
theorem shift_scales (hdst : dst ≠ .psw) (src : Register) (c : Cpu) :
    (Ahead [Opcode.shl.code, (Descriptor.mk dst.index src.index).toByte] c →
      ShiftsBy .shl dst src (fun x n => x * 2 ^ n % 2 ^ 16) (fun x n => 2 ^ 16 ≤ x * 2 ^ n) c) ∧
    (Ahead [Opcode.shr.code, (Descriptor.mk dst.index src.index).toByte] c →
      ShiftsBy .shr dst src (fun x n => x / 2 ^ n) (fun x n => x % 2 ^ n ≠ 0) c) :=
  ⟨shiftsBy_of_execute hdst rfl toNat_shiftLeft shiftLeft_lost,
    shiftsBy_of_execute hdst rfl toNat_shiftRight shiftRight_lost⟩

/-- The program counter's word shifted by the status word, sixteen places: nothing is left, and what was
there is in the carry. -/
theorem shift_scales_out :
    let c := (Cpu.holding 0x100 [0x91, 0x78]).setReg .psw 0x0010
    Register.pc ≠ .psw ∧
    Ahead [Opcode.shr.code, (Descriptor.mk Register.pc.index Register.psw.index).toByte] c ∧
    ∃ psw, step.run c = .ok ⟨0x100, .shr⟩ (((c.past 2).setReg .pc 0).setReg .psw psw) ∧
      Flag.carry.isSet psw = true ∧ Flag.zero.isSet psw = true ∧ psw.toNat.testBit 4 = true := by
  intro c
  have hahead : Ahead
      [Opcode.shr.code, (Descriptor.mk Register.pc.index Register.psw.index).toByte] c := by
    decide +kernel
  have hne : Register.pc ≠ .psw := by decide
  have hx : (c.past 2).reg .pc = 0x102 := by decide +kernel
  have hn : (c.past 2).reg .psw = 0x10 := by decide +kernel
  have hpc : c.pc = 0x100 := by decide +kernel
  have hpsw : c.psw = 0x10 := by decide +kernel
  obtain ⟨-, hright⟩ := shift_scales hne .psw c
  obtain ⟨-, hshift⟩ := hright hahead
  rw [hx, hn] at hshift
  obtain ⟨v, psw, hstep, hresults⟩ := hshift (by decide)
  obtain rfl : v = 0 := UInt16.toNat_inj.mp (hresults.value.trans (by decide))
  rw [hpc] at hstep
  refine ⟨hne, hahead, psw, hstep, hresults.carry.mpr (by decide), hresults.zero.mpr rfl, ?_⟩
  rw [hresults.others 4 (by decide) (by decide) (by decide), hpsw]
  decide

end Cpu
end Sx16
