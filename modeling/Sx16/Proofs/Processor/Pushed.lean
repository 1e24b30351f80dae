/-
# Words that are pushed and popped again

Words that go on the stack one after another come off it in reverse order. The two bytes of a word lie
just below the stack pointer that it was pushed from, and the words pushed after it lie below those, as
long as all of them fit into memory at once. This is so from every stack pointer: where the addresses
start again behind the last one, the words wrap with them, each of them or even the two bytes of one.

Key definitions: `Cpu.pushAll`, `Cpu.popAll`.
Key theorems: `Cpu.exists_pushAll_iff`, `Cpu.byte_pushAll`, `Cpu.popAll_pushAll`.
-/
import Sx16.Proofs.Processor.Interrupt
import Sx16.Proofs.Processor.Touched

namespace Sx16
namespace Cpu

variable {c c' : Cpu} {a w : UInt16} {ws : List UInt16} {i j n : Nat}

/-- Puts words on the stack, one after another. -/
def pushAll : List UInt16 → Exec Unit
  | [] => pure ()
  | w :: ws => do
    push w
    pushAll ws

/-- Takes a number of words off the stack, and gives them in the order in which they come. -/
def popAll : Nat → Exec (List UInt16)
  | 0 => pure []
  | n + 1 => do
    let w ← pop
    let ws ← popAll n
    return w :: ws

/-! ### Addresses below the stack pointer -/

theorem toNat_sub_ofNat (h : i < 0x10000) (a : UInt16) :
    (a - UInt16.ofNat i).toNat = (0x10000 - i + a.toNat) % 0x10000 := by
  rw [UInt16.toNat_sub, UInt16.toNat_ofNat', Nat.mod_eq_of_lt h]

theorem sub_ofNat_inj (hi : i < 0x10000) (hj : j < 0x10000)
    (h : a - UInt16.ofNat i = a - UInt16.ofNat j) : i = j := by
  have hnat := congrArg UInt16.toNat h
  rw [toNat_sub_ofNat hi, toNat_sub_ofNat hj] at hnat
  have := a.toNat_lt
  omega

/-- The word at the stack pointer has no byte among those below it, if these fit into memory with it. -/
theorem not_below_top (h : n + 2 ≤ 0x10000) (c : Cpu) : ¬ Below n c c.sp ∧ ¬ Below n c (c.sp + 1) := by
  refine ⟨?_, ?_⟩
  · rintro ⟨k, hk, hsp⟩
    have hzero : c.sp - UInt16.ofNat 0 = c.sp - UInt16.ofNat (k + 1) := (UInt16.sub_zero c.sp).trans hsp
    have := sub_ofNat_inj (by decide) (by omega) hzero
    omega
  · rintro ⟨k, hk, hsp⟩
    have hlast : c.sp - UInt16.ofNat 0xFFFF = c.sp - UInt16.ofNat (k + 1) := hsp ▸ by
      show c.sp - 0xFFFF = c.sp + 1
      grind
    have := sub_ofNat_inj (by decide) (by omega) hlast
    omega

/-! ### Pushing -/

/-- The pushes succeed just if each of them ends above the end of the image. -/
theorem exists_pushAll_iff : (∃ c', (pushAll ws).run c = .ok () c') ↔
    ∀ k < ws.length, c.top < (c.sp - UInt16.ofNat (2 * (k + 1))).toNat := by
  induction ws generalizing c with
  | nil => exact ⟨fun _ k hk => absurd hk (Nat.not_lt_zero k), fun _ => ⟨c, rfl⟩⟩
  | cons w ws ih =>
    have hnext : ∀ k, (c.stacked w).sp - UInt16.ofNat (2 * (k + 1)) =
        c.sp - UInt16.ofNat (2 * (k + 1 + 1)) := fun k => by
      rw [sp_stacked, Nat.mul_succ 2 (k + 1), UInt16.ofNat_add]
      grind
    constructor
    · rintro ⟨c', h⟩
      obtain ⟨_, c1, hpush, hrest⟩ := ok_of_run_bind h
      have hroom := (exists_push_iff w c).mp ⟨c1, hpush⟩
      obtain rfl := ok_of_push hpush
      rintro (_ | k) hk
      · exact hroom
      · rw [← hnext]
        exact ih.mp ⟨c', hrest⟩ k (Nat.lt_of_succ_lt_succ hk)
    · intro h
      obtain ⟨c1, hpush⟩ := (exists_push_iff w c).mpr (h 0 (Nat.succ_pos _))
      obtain rfl := ok_of_push hpush
      obtain ⟨c', hrest⟩ := ih.mpr fun k hk => by
        rw [hnext]
        exact h (k + 1) (Nat.succ_lt_succ hk)
      exact ⟨c', run_bind_eq_ok_iff.mpr ⟨(), _, hpush, hrest⟩⟩

/-- **Pushes write below the stack pointer**, two bytes for each word, and nowhere else. -/
theorem byte_pushAll (h : (pushAll ws).run c = .ok () c') (ha : ¬ Below (2 * ws.length) c a) :
    c'.memory.byte a = c.memory.byte a := by
  induction ws generalizing c with
  | nil =>
    cases h
    rfl
  | cons w ws ih =>
    obtain ⟨_, c1, hpush, hrest⟩ := ok_of_run_bind h
    have hfirst : c1.memory.byte a = c.memory.byte a := by
      have hspares := sparesWhere_push (by rw [List.length_cons]; omega) w c ha
      rwa [Exec.endState_of_ok hpush] at hspares
    rw [ih hrest (not_below_of_push w c c1 ha hpush), hfirst]

/-! ### Popping -/

/-- One more pop takes the word that is on top after the others. -/
theorem run_popAll_succ (h : (popAll n).run c = .ok ws c') :
    (popAll (n + 1)).run c = .ok (ws ++ [c'.stackTop]) c'.popped := by
  induction n generalizing c ws with
  | zero =>
    cases h
    rfl
  | succ n ih =>
    obtain ⟨w, c1, hpop, h⟩ := ok_of_run_bind h
    obtain ⟨vs, c2, hrest, hpure⟩ := ok_of_run_bind h
    cases hpure
    refine run_bind_eq_ok_iff.mpr ⟨w, c1, hpop, ?_⟩
    exact run_bind_eq_ok_iff.mpr ⟨_, _, ih hrest, rfl⟩

/-- A pop brings the stack pointer back to where the push of the word took it from. -/
theorem popped_stacked (c : Cpu) (w : UInt16) (m : Memory) :
    ({ c.stacked w with memory := m } : Cpu).popped = { c with memory := m } := by
  have hsp : ({ c.stacked w with memory := m } : Cpu).sp = c.sp - 2 := sp_stacked c w
  refine ext_reg (fun r => ?_) (memory_setReg _ .sp _) rfl rfl rfl
  rw [popped, hsp, reg_setReg]
  by_cases hr : Register.sp = r
  · subst hr
    rw [if_pos rfl]
    exact UInt16.sub_add_cancel c.sp 2
  · rw [if_neg hr]
    exact reg_stacked (Ne.symm hr) c w

/-- **What is pushed comes back in reverse order.** After pushes that succeed, of no more words than fit
into memory, as many pops give the words back, the last one first. Then everything is as it was before the
pushes but for the memory, which is as the pushes have left it, and in it no byte has changed except those
of the words, just below the stack pointer. -/
theorem popAll_pushAll (hlength : 2 * ws.length ≤ 0x10000) (h : (pushAll ws).run c = .ok () c') :
    (popAll ws.length).run c' = .ok ws.reverse { c with memory := c'.memory } ∧
      ∀ a, ¬ Below (2 * ws.length) c a → c'.memory.byte a = c.memory.byte a := by
  refine ⟨?_, fun a => byte_pushAll h⟩
  induction ws generalizing c with
  | nil =>
    cases h
    rfl
  | cons w ws ih =>
    rw [List.length_cons] at hlength
    obtain ⟨_, c1, hpush, hrest⟩ := ok_of_run_bind h
    obtain rfl := ok_of_push hpush
    have hpops := run_popAll_succ (ih (by omega) hrest)
    -- The later words lie below the first one, so that the pops before the last one leave it.
    have htop : ({ c.stacked w with memory := c'.memory } : Cpu).stackTop = w := by
      obtain ⟨hlow, hhigh⟩ := not_below_top (n := 2 * ws.length) (by omega) (c.stacked w)
      rw [← stackTop_stacked c w]
      show c'.memory.word (c.stacked w).sp = (c.stacked w).memory.word (c.stacked w).sp
      rw [Memory.word, Memory.word, byte_pushAll hrest hlow, byte_pushAll hrest hhigh]
    rw [htop, popped_stacked] at hpops
    rw [List.length_cons, List.reverse_cons, hpops]

/-- From the stack pointer 1, where the first word wraps around the end of memory, 32767 different words
come back. -/
theorem popAll_pushAll_odd :
    let c := ({} : Cpu).setReg .sp 1
    let ws := (List.range 32767).map UInt16.ofNat
    c.sp = 1 ∧ 2 * ws.length ≤ 0x10000 ∧ ∃ c', (pushAll ws).run c = .ok () c' ∧
      (popAll 32767).run c' = .ok ws.reverse { c with memory := c'.memory } := by
  intro c ws
  have hlength : ws.length = 32767 := by rw [List.length_map, List.length_range]
  have hsp : c.sp = 1 := (reg_setReg _ .sp .sp 1).trans (if_pos rfl)
  obtain ⟨c', hpushes⟩ : ∃ c', (pushAll ws).run c = .ok () c' := exists_pushAll_iff.mpr fun k hk => by
    rw [hlength] at hk
    rw [hsp, toNat_sub_ofNat (by omega)]
    show 0 < (0x10000 - 2 * (k + 1) + 1) % 0x10000
    omega
  have hfits : 2 * ws.length ≤ 0x10000 := by omega
  obtain ⟨hpops, -⟩ := popAll_pushAll hfits hpushes
  exact ⟨hsp, hfits, c', hpushes, hlength ▸ hpops⟩

end Cpu
end Sx16
