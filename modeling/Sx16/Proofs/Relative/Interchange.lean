/-
# Operands relative to the program counter can stand for others

A percent sign before the operand of a jump to a symbol, or of a load or store of the word at a symbol,
makes the operand relative to the program counter. Sources that link still do, all sections and labels
are where they were, and the images are the same but for the five bytes of the instruction. In both
images the instruction does the same.

Key definitions: `LinkedTo`, `Cpu.withImage`.
Key theorems: `Image.top_congr`, `Image.ChangedAt.agreeOutside`, `link_relative`.
-/
import Sx16.Proofs.Image.ReadBack
import Sx16.Proofs.Relative.Linked
import Sx16.Proofs.Relative.Step
import Sx16.Proofs.Relative.Text

namespace Sx16

/-! ### Loading images that differ in five bytes -/

/-- The state with the memory of a loaded image. -/
def Cpu.withImage (image : Image) (c : Cpu) : Cpu :=
  { c with memory := (Cpu.load image).memory, top := image.top }

namespace Image

theorem top_congr {m m' : Image} (h : ∀ a, (m'.get? a).isSome = (m.get? a).isSome) :
    m'.top = m.top := by
  have hrows : m'.rows = m.rows := by
    refine eq_of_mem_iff m'.pairwise_rows m.pairwise_rows fun row => ?_
    rw [mem_rows, mem_rows]
    exact exists_congr fun a => by rw [h]
  rw [top_eq, top_eq, hrows]

namespace ChangedAt

variable {a : UInt16} {ps ps' : List UInt8} {image image' : Image}

theorem exists_offset {b : UInt16} (h : ¬ Outside a b) : ∃ k < 5, b = a + UInt16.ofNat k := by
  unfold Outside at h
  have hb := b.toNat_lt
  refine ⟨b.toNat - a.toNat, by omega, ?_⟩
  apply UInt16.toNat_inj.mp
  rw [UInt16.toNat_add, UInt16.toNat_ofNat']
  omega

theorem top (h : ChangedAt a ps ps' image image') (hps : ps.length = 5) (hps' : ps'.length = 5) :
    image'.top = image.top := by
  refine top_congr fun b => ?_
  by_cases hb : Outside a b
  · rw [h.outside b hb]
  · obtain ⟨k, hk, rfl⟩ := exists_offset hb
    rw [h.old k hk, h.new k hk, List.getElem?_eq_getElem (by omega), List.getElem?_eq_getElem (by omega)]
    rfl

/-- **States with both images** are the same but for the five bytes. -/
theorem agreeOutside (h : ChangedAt a ps ps' image image') (hps : ps.length = 5)
    (hps' : ps'.length = 5) (c : Cpu) : (c.withImage image).AgreeOutside a (c.withImage image') where
  bytes := fun b hb => by
    show (Cpu.load image').memory.byte b = (Cpu.load image).memory.byte b
    rw [Cpu.byte_load, Cpu.byte_load, h.outside b hb]
  registers := rfl
  psw := rfl
  pending := rfl
  top := h.top hps hps'
  halted := rfl

theorem byte_withImage {image : Image} {b : UInt16} {v : UInt8} (h : image.get? b = some v) (c : Cpu) :
    (c.withImage image).memory.byte b = v := by
  show (Cpu.load image).memory.byte b = v
  rw [Cpu.byte_load, h]
  rfl

/-- **The instruction does the same** with both images in memory. -/
theorem sameStep {x : String} {i i' : Instruction} {t : UInt16} (hi : i.MadeRelative x i')
    (h : ChangedAt a (i.head ++ Word.bytes t) (i'.head ++ Word.bytes (t - (a + 5))) image image')
    {c : Cpu} (hpc : c.pc = a) (hcell : i.mnemonic.form = .data → Outside a t ∧ Outside a (t + 1)) :
    Cpu.SameStep a (Cpu.step.run (c.withImage image)) (Cpu.step.run (c.withImage image')) := by
  subst hpc
  have hlen : ∀ {head : List UInt8} (w : UInt16), head.length = 3 →
      (head ++ Word.bytes w).length = 5 := by
    intro head w hhead
    rw [List.length_append, hhead]
    rfl
  have hbyte : ∀ {image : Image} {ps : List UInt8}, ps.length = 5 →
      (∀ k < 5, image.get? (c.pc + UInt16.ofNat k) = ps[k]?) → ∀ k < 5,
        ps[k]? = some ((c.withImage image).memory.byte ((c.withImage image).pc + UInt16.ofNat k)) := by
    intro image ps hps hget k hk
    have hk' := hget k hk
    rw [List.getElem?_eq_getElem (by omega)] at hk' ⊢
    exact congrArg some (byte_withImage hk' c).symm
  have hps := hlen t hi.length_head
  have hps' := hlen (t - (c.pc + 5)) hi.length_head'
  exact Cpu.step_relative (c := c.withImage image) hi (h.agreeOutside hps hps' c) h.inside
    (hbyte hps h.old) (hbyte hps' h.new) hcell

end ChangedAt
end Image

/-! ### Linking sources -/

/-- Sources are assembled to modules, and these are linked to an image. -/
structure LinkedTo (srcs : List String) (places : Named UInt16) (ms : List ObjectModule)
    (image : Image) (l : Linkage) : Prop where
  assembled : List.Forall₂ (fun src m => assemble src = .ok m) srcs ms
  linked : (Linkage.linkAll ms places).run {} = .ok image l

namespace LinkedTo

variable {srcs : List String} {places : Named UInt16} {ms : List ObjectModule} {image : Image}
  {l : Linkage}

theorem neat (h : LinkedTo srcs places ms image l) : ∀ m ∈ ms, m.Neat := by
  obtain ⟨hassembled, -⟩ := h
  induction hassembled with
  | nil => exact fun _ hm => (nomatch hm)
  | cons hm _ ih => exact List.forall_mem_cons.mpr ⟨neat_of_assemble hm, ih⟩

/-- The module of a source stands where the source stands. -/
theorem exists_module {before after : List String} {src : String}
    (h : LinkedTo (before ++ src :: after) places ms image l) : ∃ ms1 m ms2, ms = ms1 ++ m :: ms2 ∧
      ms1.length = before.length ∧ assemble src = .ok m ∧
      ∀ {src' m'}, assemble src' = .ok m' →
        List.Forall₂ (fun src m => assemble src = .ok m) (before ++ src' :: after) (ms1 ++ m' :: ms2) := by
  have hflip := h.assembled.flip
  have hbefore := (List.forall₂_take_append ms before (src :: after) hflip).flip
  have hbehind := (List.forall₂_drop_append ms before (src :: after) hflip).flip
  obtain ⟨m, ms2, hm, hafter, hdrop⟩ := List.forall₂_cons_left_iff.mp hbehind
  refine ⟨ms.take before.length, m, ms2, ?_, hbefore.length_eq.symm, hm, fun {src' m'} hm' => ?_⟩
  · rw [← hdrop, List.take_append_drop]
  · exact List.rel_append hbefore (.cons hm' hafter)

end LinkedTo

/-- **Absolute and relative operands are interchangeable.** In sources that link, let the operand `x`
of a jump to a symbol, or of a load or store of the word at a symbol, get a percent sign. Whatever text
then has the lines of before with the operand made relative, the sources link as well, with the same
layout and the same address of every name, and the images are the same but for the five bytes of the
instruction. A step from any state with one of the images in memory and the program counter at the
instruction ends in the same fault, or in states that are the same but for the five bytes, unless they
hold a byte of the word that a load or store is about. -/
theorem link_relative {before after : List String} {src x : String} {places : Named UInt16}
    {ms : List ObjectModule} {image : Image} {l : Linkage} {pre post : List SourceLine}
    {label : Option String} {i i' : Instruction}
    (hlink : LinkedTo (before ++ src :: after) places ms image l) (hi : i.MadeRelative x i')
    (hlines : counted (Text.lines src) = some (pre ++ ⟨label, some (.instruction i)⟩ :: post)) :
    (∃ u v, src = u ++ x ++ v ∧ counted (Text.lines (u ++ "%" ++ x ++ v)) =
      some (pre ++ ⟨label, some (.instruction i')⟩ :: post)) ∧
    ∀ src', counted (Text.lines src') = some (pre ++ ⟨label, some (.instruction i')⟩ :: post) →
      ∃ ms' image' l' name k t, LinkedTo (before ++ src' :: after) places ms' image' l' ∧
        Linkage.SameAddresses ms ms' l l' ∧ InstructionAt pre label name k ∧
        l.addressIn? ms before.length x = some t ∧
        let a := l.startOf name + UInt16.ofNat (fragmentBase ms before.length name + k)
        Image.ChangedAt a (i.head ++ Word.bytes t) (i'.head ++ Word.bytes (t - (a + 5))) image image' ∧
        ∀ c : Cpu, c.pc = a → (i.mnemonic.form = .data → Outside a t ∧ Outside a (t + 1)) →
          Cpu.SameStep a (Cpu.step.run (c.withImage image)) (Cpu.step.run (c.withImage image')) := by
  refine ⟨exists_counted_relative hi hlines, fun src' hlines' => ?_⟩
  have hneat := hlink.neat
  obtain ⟨ms1, m, ms2, rfl, hlength, hm, hreplace⟩ := hlink.exists_module
  obtain ⟨m', name, k, y, w, hm', hsymbols, hat, hreads, hsections⟩ :=
    exists_assemble_relative hi hlines hlines' hm
  obtain ⟨a, t, -, hmade⟩ := madeOf_of_assemble hlines hm
  obtain ⟨image', l', t, hlinked', hsame, haddress, hchanged⟩ :=
    Linkage.exists_run_linkAll_relative (c := hi.change y name) hneat hmade.tidy.distinct hsymbols
      hsections hreads hlink.linked
  rw [hlength] at haddress hchanged
  refine ⟨ms1 ++ m' :: ms2, image', l', name, k, t, ⟨hreplace hm', hlinked'⟩, hsame, hat, haddress,
    hchanged, fun c hpc hcell => hchanged.sameStep hi hpc hcell⟩

/-- Two sources that link, with what was computed of their modules, image and linkage. -/
theorem exists_linkedTo_of_two {α : Type} (src src' : String) (places : Named UInt16)
    (f : List ObjectModule → Image → Linkage → Option α) {v : α}
    (h : ((assemble src).toOption.bind fun m => (assemble src').toOption.bind fun m' =>
      match (Linkage.linkAll [m, m'] places).run {} with
      | .ok image l => f [m, m'] image l
      | .error _ _ => none) = some v) :
    ∃ ms image l, LinkedTo [src, src'] places ms image l ∧ f ms image l = some v := by
  obtain ⟨m, hm, h⟩ := Option.bind_eq_some_iff.mp h
  obtain ⟨m', hm', h⟩ := Option.bind_eq_some_iff.mp h
  have hok : ∀ {src m}, (assemble src).toOption = some m → assemble src = .ok m := by
    intro src m hm
    cases ha : assemble src with
    | error e =>
      rw [ha] at hm
      cases hm
    | ok k =>
      rw [ha] at hm
      exact congrArg Except.ok (Option.some.inj hm)
  cases hrun : (Linkage.linkAll [m, m'] places).run {} with
  | error e l =>
    rw [hrun] at h
    cases h
  | ok image l =>
    rw [hrun] at h
    exact ⟨[m, m'], image, l, ⟨.cons (hok hm) (.cons (hok hm') .nil), hrun⟩, h⟩

/-- What an image of two modules does first from an address: where the second module's part of a
section starts and a name of it is, what retired, and the first register. -/
def firstLoad (start : Cpu) (home name : String) (ms : List ObjectModule) (image : Image)
    (l : Linkage) : Option (UInt16 × Option UInt16 × Retired × UInt16) :=
  match Cpu.step.run (start.withImage image) with
  | .ok t c => some (l.startOf home + UInt16.ofNat (fragmentBase ms 1 home + 0),
      l.addressIn? ms 1 name, t, c.reg .r1)
  | .error _ _ => none

/-- A load of a word that another module gives, right behind the load. -/
theorem link_relative_load :
    let giving := ".global y\n.section data\ny: .word 7"
    let places := [("code", 0x4000)]
    let start := ({} : Cpu).setReg .pc 0x4000
    ∃ ms image l ms' image' l',
      LinkedTo [giving, ".extern y\n.section code\nldr r1, y"] places ms image l ∧
      LinkedTo [giving, ".extern y\n.section code\nldr r1, %y"] places ms' image' l' ∧
      Linkage.SameAddresses ms ms' l l' ∧ l.addressIn? ms 1 "y" = some 0x4005 ∧
      Image.ChangedAt 0x4000 [0xA0, 0x1F, 0x04, 0x05, 0x40] [0xA0, 0x17, 0x03, 0x00, 0x00] image image' ∧
      (∃ c, Cpu.step.run (start.withImage image) = .ok ⟨0x4000, .ldr⟩ c ∧ c.reg .r1 = 7) ∧
      Cpu.SameStep 0x4000 (Cpu.step.run (start.withImage image)) (Cpu.step.run (start.withImage image')) := by
  intro giving places start
  let reading := ".extern y\n.section code\nldr r1, y"
  let i : Instruction := ⟨.ldr, .data .r1 (.memory (.symbol "y"))⟩
  let i' : Instruction := ⟨.ldr, .data .r1 (.pcRelative "y")⟩
  let pre : List SourceLine := [⟨none, some (.directive (.imports ["y"]))⟩,
    ⟨none, some (.directive (.newSection "code"))⟩]
  have hi : i.MadeRelative "y" i' := .data rfl .r1
  have hlines : counted (Text.lines reading) = some (pre ++ ⟨none, some (.instruction i)⟩ :: []) := by
    decide +kernel
  have hlines' : counted (Text.lines ".extern y\n.section code\nldr r1, %y") =
      some (pre ++ ⟨none, some (.instruction i')⟩ :: []) := by
    decide +kernel
  have hplace : (itemsBefore pre none).place = ⟨some 0, 0⟩ := by decide +kernel
  have hname : (itemsBefore pre none).sectionNames[0]? = some "code" := by decide +kernel
  obtain ⟨ms, image, l, hlink, hf⟩ := exists_linkedTo_of_two giving reading places
    (firstLoad start "code" "y") (v := (0x4000, some 0x4005, ⟨0x4000, .ldr⟩, 7)) (by decide +kernel)
  have hsources : LinkedTo ([giving] ++ reading :: []) places ms image l := hlink
  obtain ⟨ms', image', l', name, k, t, hlink', hsame, ⟨home, hp, hn⟩, ht, hchanged, hstep⟩ :=
    (link_relative hsources hi hlines).2 _ hlines'
  rw [hplace] at hp
  obtain ⟨hhome, rfl⟩ := Place.mk.inj hp
  obtain rfl := Option.some.inj hhome
  obtain rfl : "code" = name := Option.some.inj (hname.symm.trans hn)
  cases hrun : Cpu.step.run (start.withImage image) with
  | error e c =>
    simp only [firstLoad, hrun] at hf
    cases hf
  | ok u c =>
    simp only [firstLoad, hrun, Option.some.injEq, Prod.mk.injEq] at hf
    obtain ⟨hstart, haddress, rfl, hr⟩ := hf
    obtain rfl : 0x4005 = t := Option.some.inj (haddress.symm.trans ht)
    have hstart' : l.startOf "code" +
        UInt16.ofNat (fragmentBase ms [giving].length "code" + 0) = 0x4000 := hstart
    rw [hstart'] at hchanged hstep
    refine ⟨ms, image, l, ms', image', l', hlink, hlink', hsame, haddress, hchanged,
      ⟨c, hrun, hr⟩, hstep start rfl fun _ => ?_⟩
    exact ⟨.inr (by decide), .inr (by decide)⟩

end Sx16
