/-
# Operand bytes that are passed over

A jump that is taken fetches its operand bytes one after the other: descriptor, mode byte and payload. A
jump that is not taken looks ahead at the mode byte and counts. Both succeed under the same condition,
that the mode byte is one of an address mode and an update mode and that the operand bytes end below the
last address; then both leave the program counter behind these bytes and all else as it was. At the last
address the look ahead sees the byte at address 0, but counting fails there whatever that byte is.

Key definitions: `Cpu.OperandAhead`.
Key theorems: `Cpu.run_advanceBy_eq_ok_iff`, `Cpu.run_modes_eq_ok_iff`, `Cpu.run_decode_eq_ok_iff`,
`Cpu.run_jumpSkipped_eq_ok_iff`, `Cpu.skipped_as_decoded`.
-/
import Sx16.Proofs.Processor.Executed
import Sx16.Proofs.Processor.Frame
import Sx16.Proofs.Sequence

namespace Sx16

/-! ### Mode bytes -/

theorem nibbles_append (b : UInt8) : (nibbles b).1 <<< 4 ||| (nibbles b).2 = b := by
  have hall : ∀ i : Fin 256, (nibbles (UInt8.ofNat i.val)).1 <<< 4 |||
      (nibbles (UInt8.ofNat i.val)).2 = UInt8.ofNat i.val := by
    decide +kernel
  have hbyte := hall ⟨b.toNat, b.toNat_lt⟩
  rwa [UInt8.ofNat_toNat] at hbyte

namespace Cpu

variable {c c' : Cpu} {u : Unit} {b : UInt8} {w : UInt16} {n : Nat} {o : Decoded}
  {mode : AddressMode} {update : UpdateMode}

theorem run_modes_eq_ok_iff :
    (modes b).run c = .ok (update, mode) c' ↔ b = mode.byte update ∧ c' = c := by
  constructor
  · intro h
    unfold modes at h
    split at h
    · cases h
    · rename_i hmode
      split at h
      · cases h
      · rename_i hupdate
        cases h
        refine ⟨?_, rfl⟩
        calc b = (nibbles b).1 <<< 4 ||| (nibbles b).2 := (nibbles_append b).symm
          _ = mode.byte update := by
            rw [← AddressMode.code_of_ofCode? hmode, ← UpdateMode.code_of_ofCode? hupdate]
            rfl
  · rintro ⟨rfl, rfl⟩
    exact run_modes mode update _

/-! ### Fetching -/

theorem pc_past_one_eq_zero_iff : (c.past 1).pc = 0 ↔ ¬ c.pc.toNat + 1 ≤ 0xFFFF := by
  have hlt := c.pc.toNat_lt
  rw [← UInt16.toNat_inj, pc_past, UInt16.toNat_add]
  change (c.pc.toNat + 1) % 65536 = 0 ↔ _
  omega

theorem run_advance_eq_ok_iff : advance.run c = .ok u c' ↔ c.pc.toNat + 1 ≤ 0xFFFF ∧ c' = c.past 1 := by
  rw [run_advance_eq]
  by_cases h : c.pc.toNat + 1 ≤ 0xFFFF
  · rw [if_neg (mt pc_past_one_eq_zero_iff.mp (not_not_intro h))]
    simp [h, eq_comm]
  · rw [if_pos (pc_past_one_eq_zero_iff.mpr h)]
    simp [h]

/-- The program counter passes over bytes as long as it does not pass the last address. -/
theorem run_advanceBy_eq_ok_iff :
    (advanceBy n).run c = .ok u c' ↔ c.pc.toNat + n ≤ 0xFFFF ∧ c' = c.past n := by
  induction n generalizing c with
  | zero =>
    have hroom : c.pc.toNat + 0 ≤ 0xFFFF := Nat.le_of_lt_succ c.pc.toNat_lt
    rw [past_zero, advanceBy, EStateM.run_pure, and_iff_right hroom]
    simp [eq_comm]
  | succ n ih =>
    rw [advanceBy, run_bind_eq_ok_iff]
    simp only [run_advance_eq_ok_iff, ih]
    constructor
    · rintro ⟨-, c1, ⟨hone, rfl⟩, hrest, rfl⟩
      rw [toNat_pc_past hone] at hrest
      rw [past_past, Nat.add_comm 1 n]
      exact ⟨by omega, rfl⟩
    · rintro ⟨hall, rfl⟩
      have hone : c.pc.toNat + 1 ≤ 0xFFFF := by omega
      refine ⟨(), c.past 1, ⟨hone, rfl⟩, ?_, ?_⟩
      · rw [toNat_pc_past hone]
        omega
      · rw [past_past, Nat.add_comm 1 n]

theorem run_fetch_eq_ok_iff : fetch.run c = .ok b c' ↔
    c.pc.toNat + 1 ≤ 0xFFFF ∧ b = c.memory.byte c.pc ∧ c' = c.past 1 := by
  rw [run_fetch_eq]
  by_cases h : c.pc.toNat + 1 ≤ 0xFFFF
  · rw [if_neg (mt pc_past_one_eq_zero_iff.mp (not_not_intro h))]
    simp [h, eq_comm]
  · rw [if_pos (pc_past_one_eq_zero_iff.mpr h)]
    simp [h]

theorem run_fetchWord_eq_ok_iff : fetchWord.run c = .ok w c' ↔
    c.pc.toNat + 2 ≤ 0xFFFF ∧ w = c.memory.word c.pc ∧ c' = c.past 2 := by
  unfold fetchWord
  simp only [run_bind_eq_ok_iff, run_fetch_eq_ok_iff, EStateM.run_pure, EStateM.Result.ok.injEq]
  constructor
  · rintro ⟨lo, c1, ⟨hlo, rfl, rfl⟩, hi, c2, ⟨hhi, rfl, rfl⟩, rfl, rfl⟩
    rw [toNat_pc_past hlo] at hhi
    refine ⟨hhi, ?_, past_past c 1 1⟩
    rw [memory_past, pc_past]
    rfl
  · rintro ⟨hroom, rfl, rfl⟩
    have hlo : c.pc.toNat + 1 ≤ 0xFFFF := by omega
    refine ⟨_, _, ⟨hlo, rfl, rfl⟩, _, _, ⟨?_, rfl, rfl⟩, ?_, past_past c 1 1⟩
    · rw [toNat_pc_past hlo]
      exact hroom
    · rw [memory_past, pc_past]
      rfl

/-! ### Operand bytes -/

/-- A descriptor, the mode byte of an address mode and an update mode, and the payload of the address
mode lie ahead, and there is an address behind them. -/
structure OperandAhead (mode : AddressMode) (update : UpdateMode) (c : Cpu) : Prop where
  modeByte : c.memory.byte (c.pc + 1) = mode.byte update
  inside : c.pc.toNat + (2 + mode.payloadSize) ≤ 0xFFFF

/-- What is read of operand bytes. -/
def operandAt (c : Cpu) (mode : AddressMode) (update : UpdateMode) : Decoded where
  descriptor := Descriptor.ofByte (c.memory.byte c.pc)
  mode := mode
  update := update
  payload := if mode.hasPayload then c.memory.word (c.pc + 2) else 0

theorem run_descriptor_eq_ok_iff {d : Descriptor} : descriptor.run c = .ok d c' ↔
    c.pc.toNat + 1 ≤ 0xFFFF ∧ d = Descriptor.ofByte (c.memory.byte c.pc) ∧ c' = c.past 1 := by
  unfold descriptor
  simp only [run_bind_eq_ok_iff, run_fetch_eq_ok_iff, EStateM.run_pure, EStateM.Result.ok.injEq]
  constructor
  · rintro ⟨b, c1, ⟨hroom, rfl, rfl⟩, rfl, rfl⟩
    exact ⟨hroom, rfl, rfl⟩
  · rintro ⟨hroom, rfl, rfl⟩
    exact ⟨_, _, ⟨hroom, rfl, rfl⟩, rfl, rfl⟩

/-- The payload of an address mode at the program counter; 0 if it has none. -/
def payload (mode : AddressMode) : Exec UInt16 :=
  if mode.hasPayload then fetchWord else pure 0

theorem run_payload_eq_ok_iff : (payload mode).run c = .ok w c' ↔
    c.pc.toNat + mode.payloadSize ≤ 0xFFFF ∧
      w = (if mode.hasPayload then c.memory.word c.pc else 0) ∧ c' = c.past mode.payloadSize := by
  unfold payload AddressMode.payloadSize
  by_cases h : mode.hasPayload = true
  · simp only [if_pos h, run_fetchWord_eq_ok_iff]
  · have hroom : c.pc.toNat + 0 ≤ 0xFFFF := Nat.le_of_lt_succ c.pc.toNat_lt
    simp only [if_neg h, past_zero, and_iff_right hroom, EStateM.run_pure, EStateM.Result.ok.injEq]
    simp [eq_comm]

theorem decode_eq : decode = (do
    let d ← descriptor
    let b ← fetch
    let p ← modes b
    let w ← payload p.2
    return ⟨d, p.2, p.1, w⟩) := by
  unfold decode payload
  refine congrArg _ (funext fun d => congrArg _ (funext fun b => congrArg _ (funext fun p => ?_)))
  obtain ⟨update, mode⟩ := p
  by_cases h : mode.hasPayload = true <;> simp [h]

/-- **Decoding succeeds** just if operand bytes lie ahead. -/
theorem run_decode_eq_ok_iff : decode.run c = .ok o c' ↔
    OperandAhead o.mode o.update c ∧ o = c.operandAt o.mode o.update ∧
      c' = c.past (2 + o.mode.payloadSize) := by
  rw [decode_eq]
  constructor
  · intro h
    obtain ⟨d, c1, hdescriptor, h⟩ := ok_of_run_bind h
    obtain ⟨b, c2, hfetch, h⟩ := ok_of_run_bind h
    obtain ⟨⟨update, mode⟩, c3, hmodes, h⟩ := ok_of_run_bind h
    obtain ⟨w, c4, hpayload, h⟩ := ok_of_run_bind h
    obtain ⟨hone, rfl, rfl⟩ := run_descriptor_eq_ok_iff.mp hdescriptor
    obtain ⟨htwo, rfl, rfl⟩ := run_fetch_eq_ok_iff.mp hfetch
    obtain ⟨hbyte, rfl⟩ := run_modes_eq_ok_iff.mp hmodes
    rw [past_past] at hpayload
    obtain ⟨hall, rfl, rfl⟩ := run_payload_eq_ok_iff.mp hpayload
    cases h
    rw [toNat_pc_past hone] at htwo
    rw [toNat_pc_past htwo, Nat.add_assoc] at hall
    rw [memory_past, pc_past] at hbyte
    refine ⟨⟨hbyte, hall⟩, ?_, past_past c 2 _⟩
    simp only [operandAt, memory_past, pc_past]
    rfl
  · rintro ⟨⟨hbyte, hinside⟩, ho, rfl⟩
    have hone : c.pc.toNat + 1 ≤ 0xFFFF := by omega
    have htwo : c.pc.toNat + 2 ≤ 0xFFFF := by omega
    have hfetch : fetch.run (c.past 1) = .ok (o.mode.byte o.update) (c.past 2) := by
      refine run_fetch_eq_ok_iff.mpr ⟨?_, ?_, (past_past c 1 1).symm⟩
      · rw [toNat_pc_past hone]
        exact htwo
      · rw [memory_past, pc_past]
        exact hbyte.symm
    have hpayload : (payload o.mode).run (c.past 2) =
        .ok o.payload (c.past (2 + o.mode.payloadSize)) := by
      refine run_payload_eq_ok_iff.mpr ⟨?_, ?_, (past_past c 2 _).symm⟩
      · rw [toNat_pc_past htwo, Nat.add_assoc]
        exact hinside
      · rw [memory_past, pc_past]
        exact congrArg Decoded.payload ho
    refine run_bind_eq_ok_iff.mpr ⟨_, _, run_descriptor_eq_ok_iff.mpr ⟨hone, rfl, rfl⟩, ?_⟩
    refine run_bind_eq_ok_iff.mpr ⟨_, _, hfetch, ?_⟩
    refine run_bind_eq_ok_iff.mpr ⟨_, _, run_modes o.mode o.update _, ?_⟩
    refine run_bind_eq_ok_iff.mpr ⟨_, _, hpayload, ?_⟩
    exact congrArg (EStateM.Result.ok · _) (congrArg (Decoded.mk · _ _ _)
      (congrArg Decoded.descriptor ho).symm)

/-- **Passing over operand bytes succeeds** just if they lie ahead. -/
theorem run_jumpSkipped_eq_ok_iff : jumpSkipped.run c = .ok u c' ↔
    ∃ mode update, OperandAhead mode update c ∧ c' = c.past (2 + mode.payloadSize) := by
  unfold jumpSkipped
  rw [run_bind_eq_ok_iff]
  constructor
  · rintro ⟨_, _, hget, h⟩
    cases hget
    obtain ⟨⟨update, mode⟩, c1, hmodes, hskip⟩ := ok_of_run_bind h
    obtain ⟨hbyte, rfl⟩ := run_modes_eq_ok_iff.mp hmodes
    obtain ⟨hinside, rfl⟩ := run_advanceBy_eq_ok_iff.mp hskip
    exact ⟨mode, update, ⟨hbyte, hinside⟩, rfl⟩
  · rintro ⟨mode, update, ⟨hbyte, hinside⟩, rfl⟩
    refine ⟨c, c, rfl, run_bind_eq_ok_iff.mpr ⟨(update, mode), c, ?_, ?_⟩⟩
    · exact run_modes_eq_ok_iff.mpr ⟨hbyte, rfl⟩
    · exact run_advanceBy_eq_ok_iff.mpr ⟨hinside, rfl⟩

/-- A step that executes a conditional jump which is not taken passes over the operand bytes. -/
theorem run_step_eq_ok_iff_of_untaken {m : Mnemonic} {t : Retired} (hform : m.form = .jump)
    (hm : m ≠ .call) (hop : Opcode.ofCode? (c.memory.byte c.pc) = some m.opcode)
    (huntaken : m.jumps c = false) : step.run c = .ok t c' ↔
      c.pc.toNat + 1 ≤ 0xFFFF ∧ t = ⟨c.pc, m.opcode⟩ ∧ jumpSkipped.run (c.past 1) = .ok () c' := by
  have hjump : (execute m.opcode).run (c.past 1) = (jump (m.jumps (c.past 1))).run (c.past 1) := by
    cases m
    case jmp | jeq | jne | jgt => rfl
    case call => exact absurd rfl hm
    all_goals cases hform
  have hexecute : (execute m.opcode).run (c.past 1) = jumpSkipped.run (c.past 1) := by
    rw [hjump, show m.jumps (c.past 1) = false from huntaken]
    rfl
  rw [run_step, hop]
  simp only
  rw [hexecute]
  by_cases h : c.pc.toNat + 1 ≤ 0xFFFF
  · rw [if_neg (mt pc_past_one_eq_zero_iff.mp (not_not_intro h)), and_iff_right h]
    cases jumpSkipped.run (c.past 1) with
    | ok u c1 => simp [eq_comm]
    | error e c1 => simp
  · rw [if_pos (pc_past_one_eq_zero_iff.mpr h)]
    simp [h]

/-- **A jump that is not taken passes over what a taken one decodes.** Behind the operation of a jump,
passing over the operand bytes succeeds just if decoding them does, and leaves the same state: the
program counter is behind the bytes, which end below the last address, and all else is unchanged. So
`JEQ`, `JNE` and `JGT` that are not taken go on behind their operand bytes, for every address mode, update
mode and descriptor and wherever they lie, and fail only where there are no such bytes. -/
theorem skipped_as_decoded (c : Cpu) :
    (∀ c', jumpSkipped.run c = .ok () c' ↔ ∃ o, decode.run c = .ok o c') ∧
    (∀ o c', decode.run c = .ok o c' →
      OperandAhead o.mode o.update c ∧ c' = c.past (2 + o.mode.payloadSize)) ∧
    (∀ m ∈ [Mnemonic.jeq, .jne, .jgt], Opcode.ofCode? (c.memory.byte c.pc) = some m.opcode →
      m.jumps c = false → ∀ t c', step.run c = .ok t c' ↔ t = ⟨c.pc, m.opcode⟩ ∧
        ∃ mode update, c.memory.byte (c.pc + 2) = AddressMode.byte mode update ∧
          c.pc.toNat + (3 + mode.payloadSize) ≤ 0xFFFF ∧ c' = c.past (3 + mode.payloadSize)) := by
  refine ⟨fun c' => ?_, fun o c' h => ?_, fun m hm hop huntaken t c' => ?_⟩
  · rw [run_jumpSkipped_eq_ok_iff]
    constructor
    · rintro ⟨mode, update, hahead, rfl⟩
      exact ⟨c.operandAt mode update, run_decode_eq_ok_iff.mpr ⟨hahead, rfl, rfl⟩⟩
    · rintro ⟨o, h⟩
      obtain ⟨hahead, -, rfl⟩ := run_decode_eq_ok_iff.mp h
      exact ⟨o.mode, o.update, hahead, rfl⟩
  · obtain ⟨hahead, -, rfl⟩ := run_decode_eq_ok_iff.mp h
    exact ⟨hahead, rfl⟩
  · have hall : ∀ m ∈ [Mnemonic.jeq, .jne, .jgt], m.form = .jump ∧ m ≠ .call := by decide
    obtain ⟨hform, hcall⟩ := hall m hm
    rw [run_step_eq_ok_iff_of_untaken hform hcall hop huntaken, run_jumpSkipped_eq_ok_iff]
    constructor
    · rintro ⟨hone, rfl, mode, update, ⟨hbyte, hinside⟩, rfl⟩
      rw [toNat_pc_past hone] at hinside
      rw [memory_past, pc_past, UInt16.add_assoc] at hbyte
      refine ⟨rfl, mode, update, hbyte, by omega, ?_⟩
      rw [past_past]
      congr 1
      omega
    · rintro ⟨rfl, mode, update, hbyte, hinside, rfl⟩
      have hone : c.pc.toNat + 1 ≤ 0xFFFF := by omega
      refine ⟨hone, rfl, mode, update, ⟨?_, ?_⟩, ?_⟩
      · rw [memory_past, pc_past, UInt16.add_assoc]
        exact hbyte
      · rw [toNat_pc_past hone]
        omega
      · rw [past_past]
        congr 1
        omega

/-- A `JNE` at the end of memory that is not taken since the zero flag is set, with a descriptor of no
registers and an update mode: the program goes on at the last address. -/
theorem skipped_as_decoded_at_end :
    let c := (Cpu.holding 0xFFFA [0x52, 0x9C, 0x33, 0x34, 0x12]).setFlag .zero true
    step.run c = .ok ⟨0xFFFA, .jne⟩ (c.past 5) ∧ (c.past 5).pc = 0xFFFF ∧
      ∃ o, decode.run (c.past 1) = .ok o (c.past 5) ∧ jumpSkipped.run (c.past 1) = .ok () (c.past 5) := by
  intro c
  have hop : Opcode.ofCode? (c.memory.byte c.pc) = some Mnemonic.jne.opcode := by decide +kernel
  have huntaken : Mnemonic.jne.jumps c = false := by decide +kernel
  have hpc : c.pc = 0xFFFA := by decide +kernel
  have hend : (c.past 5).pc = 0xFFFF := by decide +kernel
  have hbyte : c.memory.byte (c.pc + 2) = AddressMode.regIndirectOffset.byte .postDec := by
    decide +kernel
  have hinside : c.pc.toNat + (3 + AddressMode.regIndirectOffset.payloadSize) ≤ 0xFFFF := by
    rw [hpc]
    decide
  obtain ⟨-, -, hsteps⟩ := skipped_as_decoded c
  obtain ⟨hskipped, -, -⟩ := skipped_as_decoded (c.past 1)
  have hstep : step.run c = .ok ⟨c.pc, .jne⟩ (c.past 5) :=
    (hsteps .jne (by decide) hop huntaken _ _).mpr ⟨rfl, _, _, hbyte, hinside, rfl⟩
  have hskip := (run_step_eq_ok_iff_of_untaken rfl (by decide) hop huntaken).mp hstep
  obtain ⟨o, hdecode⟩ := (hskipped _).mp hskip.2.2
  exact ⟨hpc ▸ hstep, hend, o, hdecode, hskip.2.2⟩

end Cpu
end Sx16
