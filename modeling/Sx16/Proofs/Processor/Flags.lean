/-
# Flags as bits

Each flag is one bit of the status word, and no two flags share a bit: setting or clearing a flag changes
its own bit alone. The highest bit of a word is its sign as a number in two's complement, so the four
results of an operation are facts about numbers.

Key definitions: `Flag.position`, `Flag.results`, `Word.signed`.
Key theorems: `Flag.isSet_eq_testBit`, `Flag.testBit_put`, `Word.signed_eq`, `Cpu.flag_setFlag`.
-/
import Mathlib.Data.Nat.Bitwise
import Sx16.Processor.Execute

namespace Sx16

namespace Flag

/-- The position of a flag's bit in the status word. -/
def position : Flag → Nat
  | zero => 0
  | overflow => 1
  | carry => 2
  | negative => 3
  | timerMask => 13
  | terminalMask => 14
  | interruptMask => 15

/-- The flags that tell the result of an operation. -/
def results : List Flag :=
  [zero, overflow, carry, negative]

theorem position_inj {f g : Flag} (h : f.position = g.position) : f = g := by
  revert h
  cases f <;> cases g <;> decide

theorem position_lt_of_mem_results {f : Flag} (h : f ∈ results) : f.position < 4 := by
  revert h
  cases f <;> decide

theorem toNat_mask (f : Flag) : f.mask.toNat = 2 ^ f.position := by
  cases f <;> rfl

theorem isSet_eq_testBit (f : Flag) (psw : UInt16) : f.isSet psw = psw.toNat.testBit f.position := by
  have hand : (psw &&& f.mask).toNat = (psw.toNat.testBit f.position).toNat * 2 ^ f.position := by
    rw [UInt16.toNat_and, toNat_mask, Nat.and_two_pow]
  rw [isSet, Bool.eq_iff_iff, bne_iff_ne, ne_eq, ← UInt16.toNat_inj, hand]
  cases psw.toNat.testBit f.position <;> simp

/-- Setting or clearing a flag changes its bit alone. -/
theorem testBit_put (f : Flag) (on : Bool) (psw : UInt16) (i : Nat) :
    (f.put on psw).toNat.testBit i = if i = f.position then on else psw.toNat.testBit i := by
  have hmask : f.mask.toNat.testBit i = decide (i = f.position) := by
    rw [toNat_mask, Nat.testBit_two_pow]
    exact decide_eq_decide.mpr eq_comm
  cases on with
  | true =>
    rw [put, if_pos rfl, UInt16.toNat_or, Nat.testBit_or, hmask]
    by_cases hi : i = f.position <;> simp [hi]
  | false =>
    have hnot : (~~~f.mask).toNat.testBit i = (decide (i < 16) && !f.mask.toNat.testBit i) :=
      BitVec.getLsbD_not
    rw [put, if_neg Bool.false_ne_true, UInt16.toNat_and, Nat.testBit_and, hnot, hmask]
    by_cases hi : i = f.position
    · simp [hi]
    by_cases hword : i < 16
    · simp [hi, hword]
    · -- A word has no bit at such a position, so there is none to keep.
      have hpow : 2 ^ 16 ≤ 2 ^ i := Nat.pow_le_pow_right (by decide) (Nat.not_lt.mp hword)
      have hnone : psw.toNat.testBit i = false :=
        Nat.testBit_eq_false_of_lt (Nat.lt_of_lt_of_le psw.toNat_lt hpow)
      simp [hi, hnone]

end Flag

/-! ### Words as numbers in two's complement -/

theorem isNegative_eq_testBit (w : UInt16) : isNegative w = w.toNat.testBit 15 :=
  Flag.interruptMask.isSet_eq_testBit w

theorem isNegative_eq_decide (w : UInt16) : isNegative w = decide (0x8000 ≤ w.toNat) := by
  have hlt := w.toNat_lt
  rw [isNegative_eq_testBit, Nat.testBit_eq_decide_div_mod_eq, decide_eq_decide]
  omega

/-- A word as a number in two's complement. -/
def Word.signed (w : UInt16) : Int := w.toInt16.toInt

theorem Word.signed_eq (w : UInt16) :
    signed w = if isNegative w then (w.toNat : Int) - 0x10000 else w.toNat := by
  have hint : signed w =
      if 2 * w.toNat < 2 ^ 16 then (w.toNat : Int) else w.toNat - (2 ^ 16 : Nat) :=
    BitVec.toInt_eq_toNat_cond w.toBitVec
  rw [hint, isNegative_eq_decide]
  by_cases h : 0x8000 ≤ w.toNat
  · rw [if_neg (by omega), if_pos (decide_eq_true h)]
    rfl
  · rw [if_pos (by omega), if_neg (by simp [h])]

/-! ### Flags of the processor -/

namespace Cpu

theorem flag_eq_testBit (c : Cpu) (f : Flag) : c.flag f = c.psw.toNat.testBit f.position :=
  f.isSet_eq_testBit c.psw

theorem testBit_setFlag (c : Cpu) (f : Flag) (on : Bool) (i : Nat) :
    (c.setFlag f on).psw.toNat.testBit i =
      if i = f.position then on else c.psw.toNat.testBit i :=
  f.testBit_put on c.psw i

theorem flag_setFlag (c : Cpu) (f g : Flag) (on : Bool) :
    (c.setFlag f on).flag g = if g = f then on else c.flag g := by
  rw [flag_eq_testBit, flag_eq_testBit, testBit_setFlag]
  by_cases h : g = f
  · rw [if_pos h, if_pos (congrArg _ h)]
  · rw [if_neg h, if_neg (mt Flag.position_inj h)]

theorem psw_setReg {r : Register} (h : r ≠ .psw) (c : Cpu) (v : UInt16) : (c.setReg r v).psw = c.psw :=
  (reg_setReg c r .psw v).trans (if_neg h)

end Cpu
end Sx16
