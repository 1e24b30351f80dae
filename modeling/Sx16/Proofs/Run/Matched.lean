/-
# Pushes and pops that belong together

A pop belongs to the last push before it that no other pop belongs to: between the two, pushes and pops
are paired among themselves. Both are at one address. If only pushes write memory, and only pushes and
pops move the stack pointer, then the stack words above the stack pointer keep what was pushed, at every
depth that the check of the stack allows, with two exceptions: the stack may grow over the terminal's
words. The word in the output cell is printed and cleared, and a typed character takes the place of the
word in the input cell.

Key definitions: `Balanced`, `held`, `Pending`, `StackKept`.
Key theorems: `Balanced.plays`, `pending_of_plays`, `stackKept_of_plays`, `Session.popped_as_pushed`,
`Session.popped_cleared`.
-/
import Sx16.Proofs.Run.Traffic

namespace Sx16

open StackEvent

variable {e : StackEvent} {es fs : List StackEvent} {m m' : Memory} {sp sp' a b v : UInt16}

/-! ### Records in two parts -/

theorem plays_append_iff : Plays (es ++ fs) m sp m' sp' ↔
    ∃ m1 sp1, Plays es m sp m1 sp1 ∧ Plays fs m1 sp1 m' sp' := by
  constructor
  · intro h
    induction es generalizing m sp with
    | nil => exact ⟨m, sp, .nil m sp, h⟩
    | cons e es ih =>
      cases h with
      | cons he h =>
        obtain ⟨m1, sp1, hes, hfs⟩ := ih h
        exact ⟨m1, sp1, .cons he hes, hfs⟩
  · rintro ⟨m1, sp1, hes, hfs⟩
    exact hes.append hfs

/-! ### Even addresses -/

theorem toNat_sub_two (h : sp ≠ 0) (heven : 2 ∣ sp.toNat) : (sp - 2).toNat + 2 = sp.toNat := by
  have hpos : sp.toNat ≠ 0 := fun h0 => h (UInt16.toNat_inj.mp h0)
  have hle : (2 : UInt16) ≤ sp := by
    rw [UInt16.le_iff_toNat_le]
    change 2 ≤ sp.toNat
    omega
  rw [UInt16.toNat_sub_of_le sp 2 hle]
  change sp.toNat - 2 + 2 = sp.toNat
  omega

theorem even_sub_two (heven : 2 ∣ sp.toNat) : 2 ∣ (sp - 2).toNat := by
  rw [UInt16.toNat_sub]
  change 2 ∣ (65536 - 2 + sp.toNat) % 65536
  omega

theorem even_add_two (heven : 2 ∣ sp.toNat) : 2 ∣ (sp + 2).toNat := by
  rw [UInt16.toNat_add]
  change 2 ∣ (sp.toNat + 2) % 65536
  omega

/-- Words at even addresses are the same or apart. -/
theorem word_putWord (ha : 2 ∣ a.toNat) (hb : 2 ∣ b.toNat) (m : Memory) (v : UInt16) :
    (m.putWord a v).word b = if b = a then v else m.word b := by
  have hodd : ∀ {x y : UInt16}, 2 ∣ x.toNat → 2 ∣ y.toNat → x + 1 ≠ y := by
    intro x y hx hy h
    have hnat := congrArg UInt16.toNat h
    rw [UInt16.toNat_add] at hnat
    change (x.toNat + 1) % 65536 = y.toNat at hnat
    have := x.toNat_lt
    omega
  rw [Memory.word, Cpu.byte_putWord, Cpu.byte_putWord, if_neg (hodd ha hb)]
  by_cases h : b = a
  · subst h
    rw [if_pos rfl, if_pos rfl, if_pos rfl, Word.ofBytes_low_high]
  · have hnext : a + 1 ≠ b + 1 := fun hsucc => h ((UInt16.add_left_inj 1).mp hsucc).symm
    rw [if_neg (Ne.symm h), if_neg hnext, if_neg (hodd hb ha).symm, if_neg h, Memory.word]

/-! ### Balanced records -/

/-- A record in which pushes and pops are paired. -/
inductive Balanced : List StackEvent → Prop where
  | nil : Balanced []
  | device {e : StackEvent} {es : List StackEvent} (he : e.isDevice = true) (h : Balanced es) :
    Balanced (e :: es)
  | frame {es fs : List StackEvent} (a v b w : UInt16) (h : Balanced es) (h' : Balanced fs) :
    Balanced (pushed a v :: (es ++ popped b w :: fs))

theorem Balanced.append (h : Balanced es) (h' : Balanced fs) : Balanced (es ++ fs) := by
  induction h with
  | nil => exact h'
  | device he _ ih => exact .device he ih
  | frame a v b w hes _ _ ih =>
    rw [List.cons_append, List.append_assoc, List.cons_append]
    exact .frame a v b w hes ih

/-- What an event below an address makes of the word there. -/
def StackEvent.hold (a w : UInt16) : StackEvent → UInt16
  | printed => if a = terminalOut then 0 else w
  | typed b => if a = terminalIn then b.toUInt16 else w
  | pushed _ _ | popped _ _ => w

/-- What becomes of the word `w` in the stack at the address `a`. -/
def held (a w : UInt16) (es : List StackEvent) : UInt16 := es.foldl (hold a) w

theorem held_of_ne (hout : a ≠ terminalOut) (hin : a ≠ terminalIn) (w : UInt16)
    (es : List StackEvent) : held a w es = w := by
  induction es with
  | nil => rfl
  | cons e es ih =>
    have hhold : hold a w e = w := by
      cases e
      case printed => exact if_neg hout
      case typed => exact if_neg hin
      all_goals rfl
    rw [held, List.foldl_cons, hhold]
    exact ih

/-- The terminal holds the words that it does not write. -/
theorem StackEvent.Plays.word_of_device (h : e.Plays m sp m' sp') (he : e.isDevice = true)
    (ha : 2 ∣ a.toNat) : m'.word a = hold a (m.word a) e := by
  cases h with
  | pushed | popped => cases he
  | printed | typed => exact word_putWord (by decide) ha _ _

/-- **A balanced record** comes back to the stack pointer it started from, and the words from there on are
held. -/
theorem Balanced.plays (hb : Balanced es) (h : Plays es m sp m' sp') (heven : 2 ∣ sp.toNat)
    (hsp : sp ≠ 0) : sp' = sp ∧
      ∀ a, 2 ∣ a.toNat → sp.toNat ≤ a.toNat → m'.word a = held a (m.word a) es := by
  induction hb generalizing m m' sp sp' with
  | nil =>
    cases h
    exact ⟨rfl, fun _ _ _ => rfl⟩
  | device hdevice _ ih =>
    cases h with
    | cons he h =>
      obtain ⟨rfl, -⟩ := he.of_device hdevice
      obtain ⟨hback, hwords⟩ := ih h heven hsp
      refine ⟨hback, fun a ha hle => ?_⟩
      rw [hwords a ha hle, he.word_of_device hdevice ha]
      rfl
  | frame _ _ _ _ _ _ ihes ihfs =>
    cases h with
    | cons he h =>
      cases he with
      | pushed _ v hroom =>
        obtain ⟨m1, sp1, hes, h⟩ := plays_append_iff.mp h
        obtain ⟨rfl, hwords⟩ := ihes hes (even_sub_two heven) hroom
        have hdown := toNat_sub_two hsp heven
        cases h with
        | cons he h =>
          cases he with
          | popped =>
            rw [UInt16.sub_add_cancel] at h
            obtain ⟨hback, hwords'⟩ := ihfs h heven hsp
            refine ⟨hback, fun a ha hle => ?_⟩
            -- The word of the frame lies below the words that are held.
            have hne : a ≠ sp - 2 := by
              rintro rfl
              omega
            rw [hwords' a ha hle, hwords a ha (by omega), word_putWord (even_sub_two heven) ha,
              if_neg hne]
            simp only [held, List.foldl_cons, List.foldl_append, hold]

/-! ### Words that wait to be popped -/

/-- A record that started with the stack pointer 0 and has brought it to `sp`, in which the pops are
paired and each further word of the stack waits to be popped. -/
inductive Pending : List StackEvent → UInt16 → Prop where
  | empty {es : List StackEvent} (h : Balanced es) : Pending es 0
  | push {es fs : List StackEvent} {a v : UInt16} (h : Pending es (a + 2)) (h' : Balanced fs) :
    Pending (es ++ pushed a v :: fs) a

theorem Pending.append (h : Pending es sp) (h' : Balanced fs) : Pending (es ++ fs) sp := by
  cases h with
  | empty h => exact .empty (h.append h')
  | push h hfs =>
    rw [List.append_assoc, List.cons_append]
    exact .push h (hfs.append h')

theorem Pending.exists_push (h : Pending es sp) (hsp : sp ≠ 0) : ∃ outer v between,
    es = outer ++ pushed sp v :: between ∧ Pending outer (sp + 2) ∧ Balanced between := by
  cases h with
  | empty => exact absurd rfl hsp
  | push h h' => exact ⟨_, _, _, rfl, h, h'⟩

theorem Pending.pop (h : Pending es sp) (hsp : sp ≠ 0) (w : UInt16) :
    Pending (es ++ [popped sp w]) (sp + 2) := by
  obtain ⟨outer, v, between, rfl, houter, hbetween⟩ := h.exists_push hsp
  rw [List.append_assoc, List.cons_append]
  exact houter.append (.frame sp v sp w hbetween .nil)

theorem Pending.event (h : Pending es sp) (he : e.Plays m sp m' sp') (hne : ∀ w, e ≠ popped 0 w) :
    Pending (es ++ [e]) sp' := by
  cases he with
  | pushed v =>
    refine .push ?_ .nil
    rw [UInt16.sub_add_cancel]
    exact h
  | popped =>
    refine h.pop (fun hzero => ?_) _
    subst hzero
    exact hne _ rfl
  | printed | typed => exact h.append (.device rfl .nil)

/-- A record without a pop at the address 0 leaves every word of the stack to be popped. -/
theorem pending_of_plays {before : List StackEvent} (hbefore : Pending before sp)
    (h : Plays es m sp m' sp') (hes : ∀ w, popped 0 w ∉ es) : Pending (before ++ es) sp' := by
  induction h generalizing before with
  | nil =>
    rw [List.append_nil]
    exact hbefore
  | @cons e es m m1 m' sp sp1 sp' he _ ih =>
    have hne : ∀ w, e ≠ popped 0 w := by
      rintro w rfl
      exact hes w List.mem_cons_self
    rw [List.append_cons]
    exact ih (hbefore.event he hne) fun w hw => hes w (List.mem_cons_of_mem _ hw)

/-! ### Pops and their pushes -/

/-- A record in which a pop takes the word of its push, as the terminal has left it. -/
structure StackKept (es : List StackEvent) : Prop where
  /-- A pop is at the address of its push and takes the word that has been held there: what was pushed,
  but for the terminal's words. -/
  matched : ∀ before a v between b w after,
    es = before ++ pushed a v :: (between ++ popped b w :: after) → Balanced between →
    b = a ∧ w = held a v between ∧ (a ≠ terminalOut → a ≠ terminalIn → w = v)
  /-- Up to a pop at the address 0, where the stack is empty, every pop has its push. -/
  answered : ∀ before b w after, es = before ++ popped b w :: after → b ≠ 0 →
    (∀ w', popped 0 w' ∉ before) →
    ∃ outer v between, before = outer ++ pushed b v :: between ∧ Balanced between

theorem even_of_plays (h : Plays es m sp m' sp') (heven : 2 ∣ sp.toNat) : 2 ∣ sp'.toNat := by
  induction h with
  | nil => exact heven
  | cons he _ ih =>
    refine ih ?_
    cases he with
    | pushed => exact even_sub_two heven
    | popped => exact even_add_two heven
    | printed | typed => exact heven

/-- **A record from an empty stack** keeps what is pushed. -/
theorem stackKept_of_plays (h : Plays es m 0 m' sp') : StackKept es where
  matched := by
    rintro before a v between b w after rfl hbalanced
    obtain ⟨m1, sp1, hbefore, h⟩ := plays_append_iff.mp h
    have heven : 2 ∣ sp1.toNat := even_of_plays hbefore (by decide)
    cases h with
    | cons he h =>
      cases he with
      | pushed _ _ hroom =>
        obtain ⟨m2, sp2, hbetween, h⟩ := plays_append_iff.mp h
        obtain ⟨rfl, hwords⟩ := hbalanced.plays hbetween (even_sub_two heven) hroom
        cases h with
        | cons he _ =>
          cases he with
          | popped =>
            have hheld : m2.word (sp1 - 2) = held (sp1 - 2) v between := by
              rw [hwords _ (even_sub_two heven) (Nat.le_refl _),
                word_putWord (even_sub_two heven) (even_sub_two heven), if_pos rfl]
            exact ⟨rfl, hheld, fun hout hin => hheld.trans (held_of_ne hout hin v between)⟩
  answered := by
    rintro before b w after rfl hb hnone
    obtain ⟨m1, sp1, hbefore, h⟩ := plays_append_iff.mp h
    have hpending : Pending ([] ++ before) sp1 := pending_of_plays (.empty .nil) hbefore hnone
    cases h with
    | cons he _ =>
      cases he with
      | popped =>
        obtain ⟨outer, v, between, heq, -, hbalanced⟩ := hpending.exists_push hb
        exact ⟨outer, v, between, heq, hbalanced⟩

/-! ### Runs from an image -/

namespace Cpu

theorem sp_load (image : Image) : (load image).sp = 0 :=
  (reg_setReg _ .pc .sp _).trans (if_neg (by decide))

theorem pc_load (image : Image) : (load image).pc = (load image).memory.word (vector Line.reset) :=
  pc_setReg_pc _ _

theorem top_load (image : Image) : (load image).top = image.top := top_setReg _ _ _

theorem isPending_load (image : Image) (line : Line) : (load image).isPending line = false := by
  revert line
  show ∀ line : Line, (Vector.replicate 8 false)[line] = false
  decide

end Cpu

/-- **What is popped is what was pushed, but for the terminal's words.** Hooks keep the stack pointer and
change no byte but the four of the terminal's words. Let a program run from a loaded image with any hooks,
clock and limit, such that its instructions move the stack pointer by their pushes and pops alone and
write memory by their pushes alone. Then the record of its run tells memory and stack pointer, and at
every depth of the stack a pop takes the word of its push. Only a word in the terminal's output cell is 0
after the terminal has printed it, and a word in the input cell is the last character that has been
typed. -/
theorem Session.popped_as_pushed (image : Image) (hooks : List Hook) (limit : Option Nat)
    (clock : Nat → Nat)
    (hd : (start (Cpu.load image) hooks).Disciplined clock (limit.getD defaultLimit) 0) :
    (∀ (hook : Hook) now time r c, (hook.after now time r c).2.1.sp = c.sp ∧
      ∀ a, (hook.after now time r c).2.1.memory.byte a ≠ c.memory.byte a →
        terminalOut ≤ a ∧ a ≤ terminalIn + 1) ∧
    let record := (start (Cpu.load image) hooks).traffic clock (limit.getD defaultLimit) 0
    (∃ m sp, Plays record (Cpu.load image).memory 0 m sp ∧
      let ended := run (Cpu.load image) hooks limit clock
      (ended.fault = none → m = ended.session.cpu.memory ∧ sp = ended.session.cpu.sp)) ∧
    StackKept record := by
  obtain ⟨m, sp, hplays, hend⟩ := plays_steps hd
  change Plays _ (Cpu.load image).memory (Cpu.load image).sp m sp at hplays
  rw [Cpu.sp_load] at hplays
  exact ⟨fun hook now time r c => hook.spares_after now time r c, ⟨m, sp, hplays, hend⟩,
    stackKept_of_plays hplays⟩

/-! ### A stack that reaches the terminal's output cell -/

/-- A program that pushes its program counter 128 times and then pops a word. -/
def deepCode : List UInt8 :=
  (Word.bytes 0x10 ++ List.replicate 14 0) ++
    ((List.replicate 128 (Instruction.mk .push (.one .pc)).encode.bytes).flatten ++
      (Instruction.mk .pop (.one .r2)).encode.bytes)

/-- The image of that program. -/
def deepImage : Image := Image.empty.store 0 deepCode

/-- The program counter after `k` pushes. -/
def deepPc (k : Nat) : UInt16 := UInt16.ofNat (0x10 + 3 * k)

/-- The stack pointer after `k` pushes. -/
def deepSp (k : Nat) : UInt16 := 0 - UInt16.ofNat (2 * k)

/-- The run with that program, after `k` pushes. -/
structure Descending (k : Nat) (s : Session) : Prop where
  pc : s.cpu.pc = deepPc k
  sp : s.cpu.sp = deepSp k
  code : ∀ i b, deepCode[i]? = some b → s.cpu.memory.byte (UInt16.ofNat i) = b
  out : s.cpu.memory.word terminalOut = 0
  top : s.cpu.top < 0x1000
  quiet : ∀ line, s.cpu.isPending line = false
  going : s.cpu.halted = false
  hooks : ∃ wrote, s.hooks = [.terminal { wrote }]

theorem length_deepCode : deepCode.length = 403 := by decide +kernel

theorem getElem?_flatten_replicate (bs : List UInt8) {n k j : Nat} (hk : k < n)
    (hj : j < bs.length) : (List.replicate n bs).flatten[bs.length * k + j]? = bs[j]? := by
  induction n generalizing k with
  | zero => exact absurd hk (Nat.not_lt_zero k)
  | succ n ih =>
    rw [List.replicate_succ, List.flatten_cons]
    cases k with
    | zero => rw [Nat.mul_zero, Nat.zero_add, List.getElem?_append_left hj]
    | succ k =>
      rw [Nat.mul_succ, Nat.add_right_comm, List.getElem?_append_right (Nat.le_add_left _ _),
        Nat.add_sub_cancel]
      exact ih (Nat.lt_of_succ_lt_succ hk)

theorem getElem?_deepCode {k j : Nat} (hk : k < 128) (hj : j < 3) : deepCode[0x10 + 3 * k + j]? =
    (Instruction.mk .push (.one .pc)).encode.bytes[j]? := by
  have hvectors : (Word.bytes 0x10 ++ List.replicate 14 0).length = 0x10 := rfl
  have hpush : (List.replicate 128 (Instruction.mk .push (.one .pc)).encode.bytes).flatten[3 * k + j]? =
      (Instruction.mk .push (.one .pc)).encode.bytes[j]? := getElem?_flatten_replicate _ hk hj
  obtain ⟨hlt, -⟩ := List.getElem?_eq_some_iff.mp (hpush.trans (List.getElem?_eq_getElem hj))
  rw [deepCode, Nat.add_assoc, ← hvectors, List.getElem?_append_right (Nat.le_add_right _ _),
    Nat.add_sub_cancel_left, List.getElem?_append_left hlt]
  exact hpush

theorem toNat_ofNat_index {i : Nat} {b : UInt8} (h : deepCode[i]? = some b) :
    (UInt16.ofNat i).toNat = i ∧ i < 403 := by
  have hlt : i < 403 := length_deepCode ▸ (List.getElem?_eq_some_iff.mp h).1
  rw [UInt16.toNat_ofNat']
  exact ⟨Nat.mod_eq_of_lt (by omega), hlt⟩

theorem get?_deepImage (a : UInt16) : deepImage.get? a = deepCode[a.toNat]? := by
  rw [deepImage, Image.get?_store (by rw [length_deepCode]; decide), Image.get?_empty,
    Option.or_none]
  exact if_pos (Nat.zero_le _)

theorem descending_start : Descending 0 (Session.start (Cpu.load deepImage) [.terminal {}]) where
  pc := by
    have hbyte : ∀ a, (Cpu.load deepImage).memory.byte a = deepCode[a.toNat]?.getD 0 := fun a => by
      rw [Cpu.byte_load, get?_deepImage]
    show (Cpu.load deepImage).pc = 0x10
    rw [Cpu.pc_load, Memory.word, hbyte, hbyte]
    rfl
  sp := Cpu.sp_load deepImage
  code i b h := by
    obtain ⟨hi, -⟩ := toNat_ofNat_index h
    show (Cpu.load deepImage).memory.byte _ = b
    rw [Cpu.byte_load, get?_deepImage, hi, h]
    rfl
  out := by
    have hnone : ∀ a : UInt16, 403 ≤ a.toNat → (Cpu.load deepImage).memory.byte a = 0 := by
      intro a ha
      rw [Cpu.byte_load, get?_deepImage, List.getElem?_eq_none (length_deepCode ▸ ha)]
      rfl
    show (Cpu.load deepImage).memory.word terminalOut = 0
    rw [Memory.word, hnone _ (by decide), hnone _ (by decide)]
    rfl
  top := by
    have htop : deepImage.top ≤ 403 + 7 := Image.top_le fun a ha => by
      rw [get?_deepImage] at ha
      obtain ⟨b, hb⟩ := Option.isSome_iff_exists.mp ha
      exact (toNat_ofNat_index hb).2
    show (Cpu.load deepImage).top < 0x1000
    rw [Cpu.top_load]
    exact Nat.lt_of_le_of_lt htop (by decide)
  quiet := Cpu.isPending_load deepImage
  going := rfl
  hooks := ⟨false, rfl⟩

theorem Descending.ahead {k : Nat} {s : Session} (h : Descending k s) (hk : k ≤ 128) {bs : List UInt8}
    (hlen : bs.length = 3) (hbs : ∀ j < 3, deepCode[0x10 + 3 * k + j]? = bs[j]?) :
    Cpu.Ahead bs s.cpu where
  inside := by
    have hpc : (0x10 + 3 * k) % 2 ^ 16 = 0x10 + 3 * k := Nat.mod_eq_of_lt (by omega)
    rw [h.pc, deepPc, UInt16.toNat_ofNat', hpc, hlen]
    omega
  bytes j b hj := by
    have hlt : j < 3 := hlen ▸ (List.getElem?_eq_some_iff.mp hj).1
    rw [h.pc, deepPc, ← UInt16.ofNat_add]
    exact h.code _ b ((hbs j hlt).trans hj)

theorem Hook.afterAll_silent {c : Cpu} (h : c.memory.word terminalOut = 0) (now time : Nat) (r : Retired)
    (wrote : Bool) : afterAll now time r c [.terminal { wrote }] = ([.terminal { wrote }], c, [], none) ∧
      trafficAll now time r c [.terminal { wrote }] = [] := by
  simp [afterAll, after, Terminal.after, Terminal.printOut, Terminal.readIn, trafficAll, traffic, h]

theorem Hook.afterAll_printing {c : Cpu} (h : c.memory.word terminalOut ≠ 0) (now time : Nat)
    (r : Retired) (wrote : Bool) :
    ∃ out, afterAll now time r c [.terminal { wrote }] =
        ([.terminal { wrote := true }], c.putWord terminalOut 0, out, none) ∧
      trafficAll now time r c [.terminal { wrote }] = [.printed] := by
  simp [afterAll, after, Terminal.after, Terminal.printOut, Writer.call, Terminal.readIn, trafficAll,
    traffic, h]

/-- A cycle without a halt, an error and an interrupt. -/
theorem Session.cycle_of_quiet {s : Session} {now time : Nat} {r : Retired} {c c' : Cpu}
    {hooks : List Hook} {out : List Output} (hstep : Cpu.step.run s.cpu = .ok r c)
    (hgoing : c.halted = false) (hhooks : Hook.afterAll now time r c s.hooks = (hooks, c', out, none))
    (hquiet : ∀ line, c'.isPending line = false) :
    s.cycle now time = .running { cpu := c', hooks, output := s.output ++ out } ∧
      s.cycleTraffic now time = s.cpu.traffic c ++ Hook.trafficAll now time r c s.hooks := by
  have hnone : c'.eligible? = none := Cpu.eligible?_eq_none_iff.mpr fun line hline =>
    Bool.false_ne_true ((hquiet line).symm.trans hline.requested)
  have hcheck : Cpu.checkInterrupts.run c' = .ok none c' := by
    rw [Cpu.checkInterrupts, EStateM.run_bind, EStateM.run_get]
    simp only
    rw [hnone]
    rfl
  have hentry : c'.entryTraffic = [] := by rw [Cpu.entryTraffic, hcheck]
  unfold cycle cycleTraffic
  rw [show Cpu.step s.cpu = .ok r c from hstep, hstep]
  simp only [hgoing, hhooks, hentry, Option.isSome_none, Bool.false_eq_true, if_false, List.append_nil]
  rw [show Cpu.checkInterrupts c' = .ok none c' from hcheck]
  exact ⟨rfl, trivial⟩

/-- The stack of the program lies far above it. -/
theorem byte_putWord_code {m : Memory} {a v : UInt16} {i : Nat} {b : UInt8} (ha : 0xFF00 ≤ a.toNat)
    (heven : 2 ∣ a.toNat) (hi : deepCode[i]? = some b) :
    (m.putWord a v).byte (UInt16.ofNat i) = m.byte (UInt16.ofNat i) := by
  obtain ⟨hnat, hlt⟩ := toNat_ofNat_index hi
  by_contra h
  obtain heq | heq := byte_putWord_ne h
  · rw [heq] at hnat
    omega
  · rw [heq, UInt16.toNat_add] at hnat
    have hnext : (a.toNat + 1) % 65536 = i := hnat
    have := a.toNat_lt
    omega

theorem toNat_deepSp {k : Nat} (hpos : 0 < k) (hk : k ≤ 128) : (deepSp k).toNat = 65536 - 2 * k := by
  have hmod : 2 * k % 65536 = 2 * k := Nat.mod_eq_of_lt (by omega)
  rw [deepSp, UInt16.toNat_sub, UInt16.toNat_ofNat']
  change (65536 - 2 * k % 65536 + 0) % 65536 = _
  omega

theorem deepSp_succ (k : Nat) : deepSp (k + 1) = deepSp k - 2 := by
  have hmul : UInt16.ofNat (2 * (k + 1)) = UInt16.ofNat (2 * k) + 2 := UInt16.ofNat_add (2 * k) 2
  rw [deepSp, deepSp, hmul]
  grind

/-- Each of the 128 pushes puts the program counter on the next lower word. -/
theorem Descending.step {k : Nat} {s : Session} (h : Descending k s) (hk : k < 128) :
    ∃ c, Cpu.step.run s.cpu = .ok ⟨s.cpu.pc, .str⟩ c ∧
      s.cpu.traffic c = [pushed (deepSp (k + 1)) (deepPc (k + 1))] ∧ c.pc = deepPc (k + 1) ∧
      c.sp = deepSp (k + 1) ∧ c.memory = s.cpu.memory.putWord (deepSp (k + 1)) (deepPc (k + 1)) ∧
      c.top = s.cpu.top ∧ c.pending = s.cpu.pending ∧ c.halted = s.cpu.halted := by
  have hahead := h.ahead (Nat.le_of_lt hk) rfl fun j hj => getElem?_deepCode hk hj
  have hsp : s.cpu.sp - 2 = deepSp (k + 1) := by rw [h.sp, deepSp_succ]
  have hpc : (s.cpu.past 3).reg .pc = deepPc (k + 1) := by
    show (s.cpu.past 3).pc = _
    rw [Cpu.pc_past, h.pc, deepPc, ← UInt16.ofNat_add]
    rfl
  have hroom : s.cpu.top < (s.cpu.sp - 2).toNat := by
    have htop := h.top
    rw [hsp, toNat_deepSp (Nat.succ_pos k) hk]
    omega
  have hstep := Cpu.step_push hahead hroom
  have htraffic := Cpu.traffic_push hahead ((s.cpu.past 3).stacked ((s.cpu.past 3).reg .pc))
  have hmemory := Cpu.memory_stacked (s.cpu.past 3) ((s.cpu.past 3).reg .pc)
  have hsp' := Cpu.sp_stacked (s.cpu.past 3) ((s.cpu.past 3).reg .pc)
  rw [Cpu.memory_past, Cpu.sp_past, hsp] at hmemory
  rw [Cpu.sp_past, hsp] at hsp'
  rw [hsp] at htraffic
  rw [hpc] at hstep htraffic hmemory hsp'
  refine ⟨_, hstep, htraffic, ?_, hsp', hmemory, rfl, rfl, rfl⟩
  exact ((Cpu.reg_setReg _ .sp .pc _).trans (if_neg (by decide))).trans hpc

/-- The pushes of the program are disciplined. -/
theorem Descending.disciplined {k : Nat} {s : Session} (h : Descending k s) (hk : k < 128) :
    ∀ r c, Cpu.step.run s.cpu = .ok r c → s.cpu.Disciplined c := by
  obtain ⟨c, hstep, htraffic, -, hsp, -⟩ := h.step hk
  intro r c' hrun
  obtain ⟨rfl, rfl⟩ := EStateM.Result.ok.inj (hstep.symm.trans hrun)
  refine ⟨?_, fun hnone => absurd ?_ (hnone (deepSp (k + 1)) (deepPc (k + 1)))⟩
  · rw [htraffic, hsp, deepSp_succ, ← h.sp]
    rfl
  · rw [htraffic]
    exact List.mem_singleton_self _

/-- The next state of the run: the terminal prints the word of the last push and clears it. -/
theorem Descending.push {k : Nat} {s : Session} (h : Descending k s) (hk : k < 128) (now time : Nat) :
    ∃ s', s.cycle now time = .running s' ∧ Descending (k + 1) s' ∧ s.cycleTraffic now time =
      pushed (deepSp (k + 1)) (deepPc (k + 1)) :: if k = 127 then [printed] else [] := by
  obtain ⟨c, hstep, htraffic, hpc, hsp, hmemory, htop, hpending, hhalted⟩ := h.step hk
  have hnat : (deepSp (k + 1)).toNat = 65536 - 2 * (k + 1) := toNat_deepSp (Nat.succ_pos k) hk
  have heven : 2 ∣ (deepSp (k + 1)).toNat := by omega
  have hquiet : ∀ line, c.isPending line = false := fun line =>
    (Cpu.isPending_congr hpending line).trans (h.quiet line)
  have hcode : ∀ i b, deepCode[i]? = some b → c.memory.byte (UInt16.ofNat i) = b := fun i b hi => by
    rw [hmemory, byte_putWord_code (by omega) heven hi]
    exact h.code i b hi
  obtain ⟨wrote, hhooks⟩ := h.hooks
  by_cases hlast : k = 127
  · subst hlast
    have hprints : c.memory.word terminalOut ≠ 0 := by
      rw [hmemory, word_putWord heven (by decide), if_pos (by decide)]
      decide
    obtain ⟨out, hafter, hrecord⟩ :=
      Hook.afterAll_printing hprints now time ⟨s.cpu.pc, .str⟩ wrote
    rw [← hhooks] at hafter hrecord
    obtain ⟨hcycle, hcycleTraffic⟩ :=
      Session.cycle_of_quiet hstep (hhalted.trans h.going) hafter hquiet
    refine ⟨_, hcycle, ⟨hpc, hsp, fun i b hi => ?_, ?_, htop ▸ h.top, hquiet, hhalted.trans h.going,
      ⟨true, rfl⟩⟩, ?_⟩
    · show (c.memory.putWord terminalOut 0).byte _ = b
      rw [byte_putWord_code (by decide) (by decide) hi]
      exact hcode i b hi
    · show (c.memory.putWord terminalOut 0).word terminalOut = 0
      rw [word_putWord (by decide) (by decide), if_pos rfl]
    · rw [hcycleTraffic, htraffic, hrecord]
      rfl
  · have hsilent : c.memory.word terminalOut = 0 := by
      have hne : terminalOut ≠ deepSp (k + 1) := fun heq => hlast (by
        have hnat' := congrArg UInt16.toNat heq
        rw [hnat] at hnat'
        change 65280 = _ at hnat'
        omega)
      rw [hmemory, word_putWord heven (by decide), if_neg hne]
      exact h.out
    obtain ⟨hafter, hrecord⟩ := Hook.afterAll_silent hsilent now time ⟨s.cpu.pc, .str⟩ wrote
    rw [← hhooks] at hafter hrecord
    obtain ⟨hcycle, hcycleTraffic⟩ :=
      Session.cycle_of_quiet hstep (hhalted.trans h.going) hafter hquiet
    refine ⟨_, hcycle, ⟨hpc, hsp, hcode, hsilent, htop ▸ h.top, hquiet, hhalted.trans h.going,
      ⟨wrote, hhooks⟩⟩, ?_⟩
    rw [hcycleTraffic, htraffic, hrecord, if_neg hlast]
    rfl

/-- The pop behind the pushes takes 0 from the terminal's output cell. -/
theorem Descending.pop {s : Session} (h : Descending 128 s) (now time : Nat) :
    (∀ r c, Cpu.step.run s.cpu = .ok r c → s.cpu.Disciplined c) ∧
      s.cycleTraffic now time = [popped 0xFF00 0] := by
  have hbytes : ∀ j < 3, deepCode[0x10 + 3 * 128 + j]? =
      (Instruction.mk .pop (.one .r2)).encode.bytes[j]? := by
    decide +kernel
  have hahead := h.ahead (Nat.le_refl _) rfl hbytes
  have hsp : s.cpu.sp = 0xFF00 := h.sp
  have hstep := Cpu.step_pop hahead
  have htraffic := Cpu.traffic_pop hahead
  rw [hsp, show s.cpu.memory.word 0xFF00 = 0 from h.out] at hstep
  generalize hc : (s.cpu.past 3).popped.setReg .r2 0 = c at hstep
  have hmemory : c.memory = s.cpu.memory := by
    rw [← hc, Cpu.memory_setReg, Cpu.popped, Cpu.memory_setReg, Cpu.memory_past]
  have hreg : c.reg .r2 = 0 := hc ▸ (Cpu.reg_setReg _ .r2 .r2 0).trans (if_pos rfl)
  have hsp' : c.sp = s.cpu.sp + 2 := by
    rw [← hc, ← Cpu.sp_past s.cpu 3]
    exact (Cpu.reg_setReg _ .r2 .sp 0).trans ((if_neg (by decide)).trans
      ((Cpu.reg_setReg _ .sp .sp _).trans (if_pos rfl)))
  have hhalted : c.halted = false := hc ▸ h.going
  have hquiet : ∀ line, c.isPending line = false := hc ▸ h.quiet
  refine ⟨fun r c' hrun => ?_, ?_⟩
  · obtain ⟨rfl, rfl⟩ := EStateM.Result.ok.inj (hstep.symm.trans hrun)
    refine ⟨?_, fun _ => hmemory⟩
    rw [htraffic, hsp']
    rfl
  · obtain ⟨wrote, hhooks⟩ := h.hooks
    obtain ⟨hafter, hrecord⟩ :=
      Hook.afterAll_silent (hmemory ▸ h.out) now time ⟨s.cpu.pc, .ldr⟩ wrote
    rw [← hhooks] at hafter hrecord
    rw [(Session.cycle_of_quiet hstep hhalted hafter hquiet).2, htraffic, hrecord, hreg, hsp]
    rfl

/-- The rest of the run after `k` pushes. -/
theorem Descending.rest {n k : Nat} {s : Session} (h : Descending k s) (hk : k + n = 128)
    (clock : Nat → Nat) (time : Nat) : s.Disciplined clock (n + 1) time ∧
      if n = 0 then s.traffic clock (n + 1) time = [popped 0xFF00 0]
      else ∃ before, s.traffic clock (n + 1) time =
        before ++ [pushed 0xFF00 (deepPc 128), printed, popped 0xFF00 0] := by
  induction n generalizing k time s with
  | zero =>
    obtain rfl : k = 128 := hk
    obtain ⟨hdisciplined, htraffic⟩ := h.pop (clock time) time
    refine ⟨⟨hdisciplined, fun _ _ => trivial⟩, ?_⟩
    rw [if_pos rfl, Session.traffic, htraffic]
    split <;> rfl
  | succ n ih =>
    obtain ⟨s', hcycle, hs', htraffic⟩ := h.push (by omega) (clock time) time
    obtain ⟨hrest, hrecord⟩ := ih hs' (by omega) (time + 1)
    refine ⟨⟨h.disciplined (by omega), fun s1 h1 => ?_⟩, ?_⟩
    · cases hcycle.symm.trans h1
      exact hrest
    rw [if_neg (Nat.succ_ne_zero n), Session.traffic_of_running hcycle, htraffic]
    -- The last push is the one that is printed, and the pop follows it.
    by_cases hn : n = 0
    · subst hn
      obtain rfl : k = 127 := by omega
      rw [if_pos rfl] at hrecord
      rw [if_pos rfl, hrecord]
      exact ⟨[], rfl⟩
    · rw [if_neg hn] at hrecord
      obtain ⟨before, hrecord⟩ := hrecord
      rw [if_neg (show k ≠ 127 by omega), hrecord]
      exact ⟨_ :: before, rfl⟩

/-- **A pop that does not take what was pushed.** A program with a terminal pushes its program counter 128
times. The last word comes to lie in the terminal's output cell, where the terminal prints and clears it,
and the pop that follows takes 0. -/
theorem Session.popped_cleared :
    let s := start (Cpu.load deepImage) [.terminal {}]
    s.Disciplined (fun _ => 0) 129 0 ∧ ∃ before v, v ≠ 0 ∧ Balanced [printed] ∧
      s.traffic (fun _ => 0) 129 0 =
        before ++ pushed terminalOut v :: ([printed] ++ [popped terminalOut 0]) := by
  intro s
  obtain ⟨hdisciplined, before, hrecord⟩ := descending_start.rest (Nat.zero_add 128) (fun _ => 0) 0
  exact ⟨hdisciplined, before, deepPc 128, by decide, .device rfl .nil, hrecord⟩

/-- In the run of that program the 0 that is popped is what the terminal has left of the last push. -/
theorem Session.popped_as_pushed_deep :
    let s := start (Cpu.load deepImage) [.terminal {}]
    s.Disciplined (fun _ => 0) 129 0 ∧ ∃ before v,
      s.traffic (fun _ => 0) 129 0 =
        before ++ pushed terminalOut v :: ([printed] ++ [popped terminalOut 0]) ∧
      0 = held terminalOut v [printed] := by
  intro s
  obtain ⟨hdisciplined, before, hrecord⟩ := descending_start.rest (Nat.zero_add 128) (fun _ => 0) 0
  obtain ⟨-, -, hkept⟩ :=
    popped_as_pushed deepImage [.terminal {}] (some 129) (fun _ => 0) hdisciplined
  obtain ⟨-, hheld, -⟩ := hkept.matched before terminalOut (deepPc 128) [printed] terminalOut 0 [] hrecord
    (.device rfl .nil)
  exact ⟨hdisciplined, before, _, hrecord, hheld⟩

end Sx16
