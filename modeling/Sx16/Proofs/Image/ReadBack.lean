/-
# Images are read back from their text

The text of an image is read as the image with zeros at the missing addresses in front of the last
byte of each row. That image has the same rows, so it has the same end and the same text, and a
processor that is loaded with it starts in the same state, since a missing byte is loaded as zero.

Key definitions: `Image.block`, `Image.Padded`.
Key theorems: `Image.readRow_rowLine`, `Image.ofText_text`, `Image.Padded.rows`, `Image.Padded.text`,
`Cpu.byte_load`, `Image.ofText_text_padded`.
-/
import Sx16.Processor.State
import Sx16.Proofs.Image
import Sx16.Proofs.Image.Rows
import Sx16.Proofs.Text.Lines
import Sx16.Proofs.Text.Numeral

namespace Sx16
namespace Image

variable {m m' : Image} {a b : UInt16} {row : Nat}

/-! ### Lines are read back -/

/-- The start and the bytes of a row. -/
def block (m : Image) (row : Nat) : UInt16 × List UInt8 :=
  (UInt16.ofNat (row * rowSize), m.rowBytes row)

theorem toNat_block (m : Image) (h : row < 0x2000) : (m.block row).1.toNat = row * rowSize := by
  obtain ⟨a, -, -, ha⟩ := exists_address h (i := 0) (by decide)
  rw [Nat.add_zero] at ha
  rw [block, ← ha, UInt16.ofNat_toNat]

theorem toList_rowLine (m : Image) (row : Nat) : (m.rowLine row).toList =
    (Text.hex 4 (row * rowSize)).toList ++ ':' ::
      ((m.rowBytes row).map fun b => (Text.hex 2 b.toNat).toList).flatMap (' ' :: ·) := by
  rw [rowLine, String.toList_append, String.toList_append, Text.toList_join, List.flatMap_map,
    List.flatMap_map, List.append_assoc]
  refine congrArg (_ ++ ':' :: (m.rowBytes row).flatMap ·) (funext fun b => ?_)
  rw [byteText, String.toList_append]
  rfl

/-- No blank stands at the ends of a line. -/
theorem trim_rowLine (m : Image) (row : Nat) :
    Text.trim (m.rowLine row).toList = (m.rowLine row).toList := by
  rw [toList_rowLine]
  refine Text.trim_eq_self (fun c hc => ?_) fun c hc => ?_
  · obtain ⟨x, xs, hx⟩ := List.exists_cons_of_ne_nil (Text.hex_ne_nil 4 (row * rowSize))
    rw [hx] at hc
    obtain rfl := Option.some.inj hc
    exact Text.isBlank_of_isDigit (Text.isDigit_of_mem_hex (hx ▸ List.mem_cons_self))
  · rcases List.eq_nil_or_concat (m.rowBytes row) with hbs | ⟨bs, b, hbs⟩
    · rw [hbs, List.map_nil, List.flatMap_nil, List.getLast?_concat] at hc
      obtain rfl := Option.some.inj hc
      decide
    · -- The digits of the last byte end the line.
      have hdigits := List.getLast?_eq_some_getLast (Text.hex_ne_nil 2 b.toNat)
      rw [hbs, List.concat_eq_append, List.map_append, List.flatMap_append, List.map_singleton,
        List.flatMap_singleton, ← List.singleton_append (x := ' '), ← List.append_assoc,
        ← List.cons_append, ← List.append_assoc, List.getLast?_append, hdigits] at hc
      obtain rfl := Option.some.inj hc
      exact Text.isBlank_of_isDigit (Text.isDigit_of_mem_hex (List.getLast_mem _))

theorem readRow_rowLine (m : Image) (h : row < 0x2000) :
    readRow (m.rowLine row).toList = some (m.block row) := by
  have hcolon : ¬ Text.IsDigit ':' := by decide
  have hdigits : ∀ c ∈ (Text.hex 4 (row * rowSize)).toList, (c != ':') = true := fun c hc =>
    bne_iff_ne.mpr fun he => hcolon (he ▸ Text.isDigit_of_mem_hex hc)
  have hblank : ∀ c ∈ (Text.hex 4 (row * rowSize)).toList, Text.isBlank c = false := fun c hc =>
    Text.isBlank_of_isDigit (Text.isDigit_of_mem_hex hc)
  have hstart : row * rowSize < 0x10000 := by
    unfold rowSize
    omega
  have htrim : Text.trim (Text.hex 4 (row * rowSize)).toList = (Text.hex 4 (row * rowSize)).toList :=
    Text.trim_eq_self (fun c hc => hblank c (List.mem_of_head? hc))
      fun c hc => hblank c (List.mem_of_getLast? hc)
  have hwords : Text.words (((m.rowBytes row).map fun b => (Text.hex 2 b.toNat).toList).flatMap
      (' ' :: ·)) = (m.rowBytes row).map fun b => (Text.hex 2 b.toNat).toList := by
    refine Text.words_flatMap (fun w hw => ?_) fun w hw c hc => ?_
    · obtain ⟨b, -, rfl⟩ := List.mem_map.mp hw
      exact Text.hex_ne_nil 2 b.toNat
    · obtain ⟨b, -, rfl⟩ := List.mem_map.mp hw
      exact Text.isBlank_of_isDigit (Text.isDigit_of_mem_hex hc)
  rw [toList_rowLine]
  unfold readRow
  rw [List.dropWhile_append_of_pos hdigits, List.takeWhile_append_of_pos hdigits,
    List.dropWhile_cons_of_neg (by simp), List.takeWhile_cons_of_neg (by simp), List.append_nil]
  simp only
  rw [htrim, Text.readWord_hex 4 hstart, hwords, Text.mapM_readByte_hex]
  rfl

/-- The lines of rows are read as blocks. -/
theorem readRows_rowLines (m : Image) {rs : List Nat} (hrs : ∀ row ∈ rs, row < 0x2000)
    {ls : List Text.NumberedLine} (hls : ls.map Prod.snd = rs.map m.rowLine) (m' : Image) :
    readRows m' ls = .ok (m'.storeAll (rs.map m.block)) := by
  induction rs generalizing m' ls with
  | nil =>
    rw [List.map_eq_nil_iff.mp hls]
    rfl
  | cons row rs ih =>
    obtain ⟨⟨n, l⟩, ls, rfl, rfl, hrest⟩ := List.map_eq_cons_iff.mp hls
    have hrow : row < 0x2000 := hrs row List.mem_cons_self
    have hread := readRow_rowLine m hrow
    have hne : (m.rowLine row).toList.isEmpty = false := by
      rw [toList_rowLine, List.isEmpty_eq_false_iff]
      simp
    have hplace : m'.place (m.block row).1 (m.block row).2 =
        .ok (m'.store (m.block row).1 (m.block row).2) := by
      have hlen : (m.block row).2.length ≤ 8 := length_rowBytes_le m row
      refine if_neg (Nat.not_lt.mpr ?_)
      rw [toNat_block m hrow]
      unfold rowSize
      omega
    unfold readRows
    simp only
    rw [trim_rowLine, hne, if_neg Bool.false_ne_true, hread]
    simp only
    rw [hplace]
    exact ih (fun r hr => hrs r (List.mem_cons_of_mem row hr)) hrest _

theorem of_mem_rowLine {c : Char} (h : c ∈ (m.rowLine row).toList) :
    Text.IsDigit c ∨ c = ':' ∨ c = ' ' := by
  rw [toList_rowLine] at h
  rcases List.mem_append.mp h with h | h
  · exact Or.inl (Text.isDigit_of_mem_hex h)
  rcases List.mem_cons.mp h with h | h
  · exact Or.inr (Or.inl h)
  obtain ⟨w, hw, h⟩ := List.mem_flatMap.mp h
  obtain ⟨b, -, rfl⟩ := List.mem_map.mp hw
  rcases List.mem_cons.mp h with h | h
  · exact Or.inr (Or.inr h)
  · exact Or.inl (Text.isDigit_of_mem_hex h)

theorem isLine_rowLine (m : Image) (row : Nat) : Text.IsLine (m.rowLine row) where
  feed h := absurd (of_mem_rowLine h) (by decide)
  last h := absurd (of_mem_rowLine (List.mem_of_getLast? h)) (by decide)

/-! ### The image that is read back -/

/-- `m'` is `m` with zeros at the missing addresses in front of the last byte of each row. -/
structure Padded (m m' : Image) : Prop where
  kept : ∀ a v, m.get? a = some v → m'.get? a = some v
  filled : ∀ a b, m.get? a = none → a < b → rowOf a = rowOf b → (m.get? b).isSome = true →
    m'.get? a = some 0
  missing : ∀ a, m.get? a = none → (∀ b, a < b → rowOf a = rowOf b → m.get? b = none) →
    m'.get? a = none

theorem blocks (m : Image) : Blocks (m.rows.map m.block) where
  inside := by
    intro b hb
    obtain ⟨row, hrow, rfl⟩ := List.mem_map.mp hb
    have hlt := lt_of_mem_rows hrow
    have hlen : (m.block row).2.length ≤ 8 := length_rowBytes_le m row
    rw [toNat_block m hlt]
    unfold rowSize
    omega
  apart := by
    rw [List.pairwise_map]
    refine List.Pairwise.imp_of_mem (fun {row row'} hrow hrow' hlt i hi j hj => ?_) m.pairwise_rows
    have hlen : (m.block row).2.length ≤ 8 := length_rowBytes_le m row
    rw [toNat_block m (lt_of_mem_rows hrow), toNat_block m (lt_of_mem_rows hrow')]
    unfold rowSize
    omega

/-- A byte of the image that is read back is that of its row. -/
theorem get?_storeAll_blocks (m : Image) (a : UInt16) :
    (empty.storeAll (m.rows.map m.block)).get? a = (m.rowBytes (rowOf a))[a.toNat % rowSize]? := by
  have ha : rowOf a * rowSize + a.toNat % rowSize = a.toNat := Nat.div_add_mod' a.toNat rowSize
  cases hbyte : (m.rowBytes (rowOf a))[a.toNat % rowSize]? with
  | some v =>
    have hrow : rowOf a ∈ m.rows := by
      rw [mem_rows]
      apply Classical.byContradiction
      intro hnone
      rw [getElem?_rowBytes_eq_none fun b _ hb => ?_] at hbyte
      · cases hbyte
      · apply Option.not_isSome_iff_eq_none.mp
        exact fun hsome => hnone ⟨b, hsome, hb.symm⟩
    have hk := (List.getElem?_eq_some_iff.mp hbyte).1
    rw [get?_storeAll m.blocks empty (List.mem_map_of_mem hrow) hk
      (by rw [toNat_block m (lt_of_mem_rows hrow), ha])]
    exact hbyte
  | none =>
    refine get?_storeAll_eq_none m.blocks fun b hb k hk hak => ?_
    obtain ⟨row, hrow, rfl⟩ := List.mem_map.mp hb
    have hlen : (m.block row).2.length ≤ 8 := length_rowBytes_le m row
    rw [toNat_block m (lt_of_mem_rows hrow)] at hak
    have hrowa : rowOf a = row := by
      unfold rowOf
      rw [hak]
      unfold rowSize
      omega
    have hka : a.toNat % rowSize = k := by
      rw [hak]
      unfold rowSize
      omega
    rw [hrowa, hka] at hbyte
    exact absurd (List.getElem?_eq_none_iff.mp hbyte) (Nat.not_le.mpr hk)

/-- **The rows read back** fill the gaps of the image. -/
theorem padded_storeAll_blocks (m : Image) : m.Padded (empty.storeAll (m.rows.map m.block)) where
  kept a v h := by
    rw [get?_storeAll_blocks, getElem?_rowBytes (Option.isSome_of_eq_some h) (Nat.le_refl _) rfl, h]
    rfl
  filled a b h hab hrow hb := by
    have hle : a.toNat ≤ b.toNat := Nat.le_of_lt (UInt16.lt_iff_toNat_lt.mp hab)
    rw [get?_storeAll_blocks, getElem?_rowBytes hb hle hrow, h]
    rfl
  missing a h hnone := by
    rw [get?_storeAll_blocks]
    refine getElem?_rowBytes_eq_none fun b hab hrow => ?_
    rcases Nat.lt_or_eq_of_le hab with hlt | heq
    · exact hnone b (UInt16.lt_iff_toNat_lt.mpr hlt) hrow
    · rwa [← UInt16.toNat_inj.mp heq]

theorem ofText_text (m : Image) : ofText m.text = .ok (empty.storeAll (m.rows.map m.block)) := by
  have hlines : Text.lines m.text = m.rows.map m.rowLine := by
    rw [text_eq_unlines]
    refine Text.lines_unlines fun l hl => ?_
    obtain ⟨row, -, rfl⟩ := List.mem_map.mp hl
    exact isLine_rowLine m row
  exact readRows_rowLines m (fun row => lt_of_mem_rows)
    ((Text.map_snd_numberedLines m.text).trans hlines) empty

/-! ### Zeros in the gaps change nothing else -/

namespace Padded

/-- A byte is there if the image has one at it or after it in its row. -/
theorem isSome_get?_iff (h : m.Padded m') :
    (m'.get? a).isSome = true ↔ ∃ b, a.toNat ≤ b.toNat ∧ rowOf a = rowOf b ∧
      (m.get? b).isSome = true := by
  cases ha : m.get? a with
  | some v =>
    rw [h.kept a v ha]
    exact ⟨fun _ => ⟨a, Nat.le_refl _, rfl, Option.isSome_of_eq_some ha⟩, fun _ => rfl⟩
  | none =>
    constructor
    · intro hsome
      apply Classical.byContradiction
      intro hnone
      rw [h.missing a ha fun b hab hrow => ?_] at hsome
      · cases hsome
      · apply Option.not_isSome_iff_eq_none.mp
        exact fun hb => hnone ⟨b, Nat.le_of_lt (UInt16.lt_iff_toNat_lt.mp hab), hrow, hb⟩
    · rintro ⟨b, hab, hrow, hb⟩
      have hne : a ≠ b := by
        rintro rfl
        rw [ha] at hb
        cases hb
      have hlt : a < b := UInt16.lt_iff_toNat_lt.mpr
        (Nat.lt_of_le_of_ne hab fun he => hne (UInt16.toNat_inj.mp he))
      rw [h.filled a b ha hlt hrow hb]
      rfl

/-- Zeros do not matter to a reader for whom missing bytes are zeros. -/
theorem getD_get? (h : m.Padded m') (a : UInt16) : (m'.get? a).getD 0 = (m.get? a).getD 0 := by
  cases ha : m.get? a with
  | some v => rw [h.kept a v ha]
  | none =>
    by_cases hb : ∃ b, a < b ∧ rowOf a = rowOf b ∧ (m.get? b).isSome = true
    · obtain ⟨b, hab, hrow, hb⟩ := hb
      rw [h.filled a b ha hab hrow hb]
      rfl
    · rw [h.missing a ha fun b hab hrow => ?_]
      exact Option.not_isSome_iff_eq_none.mp fun hsome => hb ⟨b, hab, hrow, hsome⟩

/-- **The rows** are the same. -/
theorem rows (h : m.Padded m') : m'.rows = m.rows := by
  have hmem : ∀ row, row ∈ m'.rows ↔ row ∈ m.rows := by
    intro row
    rw [mem_rows, mem_rows]
    constructor
    · rintro ⟨a, ha, rfl⟩
      obtain ⟨b, -, hrow, hb⟩ := h.isSome_get?_iff.mp ha
      exact ⟨b, hb, hrow.symm⟩
    · rintro ⟨a, ha, rfl⟩
      exact ⟨a, h.isSome_get?_iff.mpr ⟨a, Nat.le_refl _, rfl, ha⟩, rfl⟩
  exact eq_of_mem_iff m'.pairwise_rows m.pairwise_rows hmem

/-- **The bytes of the rows** are the same. -/
theorem rowBytes (h : m.Padded m') (hrow : row < 0x2000) : m'.rowBytes row = m.rowBytes row := by
  refine List.ext_getElem? fun i => ?_
  by_cases hi : i < rowSize
  · obtain ⟨a, rfl, rfl, -⟩ := exists_address hrow hi
    by_cases hb : ∃ b, a.toNat ≤ b.toNat ∧ rowOf a = rowOf b ∧ (m.get? b).isSome = true
    · obtain ⟨b, hab, hrowb, hb⟩ := hb
      have hb' : (m'.get? b).isSome = true :=
        h.isSome_get?_iff.mpr ⟨b, Nat.le_refl _, rfl, hb⟩
      rw [getElem?_rowBytes hb' hab hrowb, getElem?_rowBytes hb hab hrowb, h.getD_get?]
    · have hnone : ∀ b, a.toNat ≤ b.toNat → rowOf a = rowOf b → m.get? b = none :=
        fun b hab hrowb => Option.not_isSome_iff_eq_none.mp fun hsome => hb ⟨b, hab, hrowb, hsome⟩
      rw [getElem?_rowBytes_eq_none hnone, getElem?_rowBytes_eq_none fun b hab hrowb => ?_]
      apply Option.not_isSome_iff_eq_none.mp
      intro hsome
      obtain ⟨c, hbc, hrowc, hc⟩ := h.isSome_get?_iff.mp hsome
      exact hb ⟨c, Nat.le_trans hab hbc, hrowb.trans hrowc, hc⟩
  · have hle := Nat.le_of_not_lt hi
    rw [List.getElem?_eq_none (Nat.le_trans (length_rowBytes_le m' row) hle),
      List.getElem?_eq_none (Nat.le_trans (length_rowBytes_le m row) hle)]

theorem top (h : m.Padded m') : m'.top = m.top := by
  rw [top_eq, top_eq, h.rows]

theorem text (h : m.Padded m') : m'.text = m.text := by
  rw [text_eq_unlines, text_eq_unlines, h.rows]
  refine congrArg Text.unlines (List.map_congr_left fun row hrow => ?_)
  rw [rowLine, rowLine, h.rowBytes (lt_of_mem_rows hrow)]

end Padded

end Image

/-! ### Loading -/

/-- Bytes at different addresses are all in memory, and nothing else changed. -/
theorem Memory.byte_foldl_putByte {ps : List (UInt16 × UInt8)}
    (h : ps.Pairwise fun p q => p.1 ≠ q.1) (m : Memory) (a : UInt16) :
    (∀ v, (a, v) ∈ ps → (ps.foldl (fun m p => m.putByte p.1 p.2) m).byte a = v) ∧
      ((∀ v, (a, v) ∉ ps) → (ps.foldl (fun m p => m.putByte p.1 p.2) m).byte a = m.byte a) := by
  induction ps generalizing m with
  | nil => exact ⟨fun v hv => absurd hv List.not_mem_nil, fun _ => rfl⟩
  | cons p ps ih =>
    obtain ⟨hp, hps⟩ := List.pairwise_cons.mp h
    obtain ⟨ihmem, ihnone⟩ := ih hps (m.putByte p.1 p.2)
    rw [List.foldl_cons]
    refine ⟨fun v hv => ?_, fun hnone => ?_⟩
    · rcases List.mem_cons.mp hv with rfl | hv
      · rw [ihnone fun w hw => hp (a, w) hw rfl, byte_putByte, if_pos rfl]
      · exact ihmem v hv
    · have hne : p.1 ≠ a := fun he => hnone p.2 (he ▸ List.mem_cons_self)
      rw [ihnone fun w hw => hnone w (List.mem_cons_of_mem p hw), byte_putByte, if_neg hne]

/-- **The memory of a loaded image**: missing bytes are zeros. -/
theorem Cpu.byte_load (m : Image) (a : UInt16) : (Cpu.load m).memory.byte a = (m.get? a).getD 0 := by
  have hdistinct : m.toList.Pairwise fun p q => p.1 ≠ q.1 :=
    Std.ExtTreeMap.distinct_keys_toList.imp fun {p q} hpq he =>
      hpq (Std.LawfulEqCmp.compare_eq_iff_eq.mpr he)
  obtain ⟨hmem, hnone⟩ := Memory.byte_foldl_putByte hdistinct Memory.zero a
  show (m.toList.foldl (fun m p => m.putByte p.1 p.2) Memory.zero).byte a = _
  cases ha : m.get? a with
  | some v => exact hmem v (Std.ExtTreeMap.mem_toList_iff_getElem?_eq_some.mpr ha)
  | none =>
    rw [hnone fun v hv => ?_, Memory.byte_zero]
    · rfl
    · have hv' := Std.ExtTreeMap.mem_toList_iff_getElem?_eq_some.mp hv
      rw [Image.get?] at ha
      rw [ha] at hv'
      cases hv'

/-- **Loading** depends on the bytes that are not zero and on the end of the image. -/
theorem Cpu.load_congr {m m' : Image} (hbytes : ∀ a, (m'.get? a).getD 0 = (m.get? a).getD 0)
    (htop : m'.top = m.top) : Cpu.load m' = Cpu.load m := by
  have hmemory : (Cpu.load m').memory = (Cpu.load m).memory :=
    Memory.ext_byte fun a => by rw [Cpu.byte_load, Cpu.byte_load, hbytes]
  have hload : ∀ m : Image, Cpu.load m = ({ memory := (Cpu.load m).memory, top := m.top } : Cpu).setReg
      .pc ((Cpu.load m).memory.word (vector Line.reset)) := fun m => rfl
  rw [hload m', hload m, hmemory, htop]

/-- **An image is read back from its text** with zeros in the gaps of its rows; its end, its text and
what a processor makes of it are the same. -/
theorem Image.ofText_text_padded (m : Image) : ∃ m', Image.ofText m.text = .ok m' ∧ m.Padded m' ∧
    m'.top = m.top ∧ m'.text = m.text ∧ Cpu.load m' = Cpu.load m := by
  have h := m.padded_storeAll_blocks
  exact ⟨_, m.ofText_text, h, h.top, h.text, Cpu.load_congr h.getD_get? h.top⟩

end Sx16
