/-
# Symbols, relocations and bytes are read back from their lines

The line of a symbol or a relocation is read as that symbol or relocation, without the symbol's
pending uses, which have no place in the text; the bytes of a section are read from their line. This
needs names that are not empty and hold no colon, and numbers of 32 bits.

Key definitions: `Symbol.Writable`, `Symbol.withoutUses`, `Relocation.Writable`.
Key theorems: `Symbol.ofLine?_line`, `Symbol.writable_of_ofLine?`, `Relocation.ofLine?_line`,
`Relocation.writable_of_ofLine?`, `readBytes_bytesLine`.
-/
import Sx16.Object.Printer
import Sx16.Object.Reader
import Sx16.Proofs.Text.Lines
import Sx16.Proofs.Text.Numeral

namespace Sx16

/-- A name that a field of a line can hold. -/
structure IsField (s : String) : Prop where
  nonempty : s ≠ ""
  colon : ':' ∉ s.toList
  feed : '\n' ∉ s.toList

theorem isField_decimal (n : Nat) : IsField (Text.decimal n) where
  nonempty h := by
    have hread := Text.readNat_decimal n
    rw [h] at hread
    cases hread
  colon h := absurd (Text.isDigit_of_mem_decimal h) (by decide)
  feed h := absurd (Text.isDigit_of_mem_decimal h) (by decide)

theorem splitOn_of_isField {fs : List String} (h : ∀ f ∈ fs, IsField f) :
    (fieldLine fs).toList.splitOn ':' = fs.map String.toList ++ [[]] :=
  Text.splitOn_fieldLine fun f hf => (h f hf).colon

theorem isTrimmed_of_isField {fs : List String} (h : ∀ f ∈ fs, IsField f) :
    Text.IsTrimmed (fieldLine fs) :=
  Text.isTrimmed_fieldLine fun f hf => (h f hf).feed

theorem fieldLine_ne {fs : List String} (hfs : fs ≠ []) {s : String} (hs : ':' ∉ s.toList) :
    fieldLine fs ≠ s := by
  rintro rfl
  obtain ⟨f, fs, rfl⟩ := List.exists_cons_of_ne_nil hfs
  rw [Text.toList_fieldLine] at hs
  exact hs (by simp)

/-- What a line is cut into can be a field again, if it is not empty. -/
theorem isField_of_mem_splitOn {l : String} (hl : '\n' ∉ l.toList) {p : List Char}
    (hp : p ∈ l.toList.splitOn ':') (hne : ¬ p.isEmpty = true) : IsField (String.ofList p) where
  nonempty h := by
    apply hne
    rw [← String.toList_ofList (l := p), h]
    rfl
  colon := by
    rw [String.toList_ofList]
    exact Text.not_mem_of_mem_splitOn hp
  feed hc := by
    rw [String.toList_ofList] at hc
    exact hl (Text.mem_of_mem_splitOn hp hc)

theorem isEmpty_toList {s : String} (h : s ≠ "") : s.toList.isEmpty = false :=
  List.isEmpty_eq_false_iff.mpr fun he => h (String.toList_injective he)

namespace Symbol

/-- A symbol that a line can hold. -/
structure Writable (s : Symbol) : Prop where
  name : IsField s.name
  owner : s.owner < 0x100000000
  number : s.number < 0x100000000

/-- A symbol as its line tells it. -/
def withoutUses (s : Symbol) : Symbol := { s with uses := [] }

variable {s : Symbol} {l : String}

theorem flagOf?_flagText (b : Bool) : flagOf? (flagText b).toList = some b := by
  cases b <;> decide

theorem isField_flagText (b : Bool) : IsField (flagText b) := by
  cases b <;> exact ⟨by decide, by decide, by decide⟩

theorem sizeOf?_sizeText (n : Option UInt16) : sizeOf? (sizeText n).toList = some n := by
  cases n with
  | none => decide
  | some n =>
    have hlt := n.toNat_lt
    unfold sizeOf? sizeText
    simp only
    rw [Text.readSigned_decimal]
    simp only
    rw [if_neg (by omega), if_pos (by omega), Int.toNat_natCast, UInt16.ofNat_toNat]

theorem isField_sizeText (n : Option UInt16) : IsField (sizeText n) := by
  cases n with
  | none => exact ⟨by decide, by decide, by decide⟩
  | some n => exact isField_decimal n.toNat

theorem Writable.fields (h : s.Writable) : ∀ f ∈ [s.name, Text.decimal s.owner,
    Text.decimal s.value.toNat, flagText s.exported, flagText s.imported, Text.decimal s.number,
    sizeText s.size], IsField f := by
  simp only [List.forall_mem_cons]
  exact ⟨h.name, isField_decimal _, isField_decimal _, isField_flagText _, isField_flagText _,
    isField_decimal _, isField_sizeText _, fun f hf => nomatch hf⟩

theorem Writable.isTrimmed_line (h : s.Writable) : Text.IsTrimmed s.line :=
  isTrimmed_of_isField h.fields

theorem line_ne {marker : String} (hm : ':' ∉ marker.toList) : s.line ≠ marker :=
  fieldLine_ne (List.cons_ne_nil _ _) hm

/-- **A symbol is read back** from its line. -/
theorem ofLine?_line (h : s.Writable) : ofLine? s.line = some s.withoutUses := by
  unfold ofLine? line
  rw [splitOn_of_isField h.fields]
  simp only [List.map_cons, List.map_nil, List.cons_append, List.nil_append]
  rw [Text.readBelow_decimal h.owner, Text.readWord_decimal, flagOf?_flagText, flagOf?_flagText,
    Text.readBelow_decimal h.number, sizeOf?_sizeText]
  simp only [Option.bind_eq_bind, Option.bind_some]
  rw [isEmpty_toList h.name.nonempty, String.ofList_toList]
  rfl

/-- **A symbol that was read** from a line can be written. -/
theorem writable_of_ofLine? (hl : '\n' ∉ l.toList) (h : ofLine? l = some s) : s.Writable := by
  unfold ofLine? at h
  split at h
  · rename_i name owner value exported imported number size hfields
    obtain ⟨owner, howner, h⟩ := Option.bind_eq_some_iff.mp h
    obtain ⟨value, -, h⟩ := Option.bind_eq_some_iff.mp h
    obtain ⟨exported, -, h⟩ := Option.bind_eq_some_iff.mp h
    obtain ⟨imported, -, h⟩ := Option.bind_eq_some_iff.mp h
    obtain ⟨number, hnumber, h⟩ := Option.bind_eq_some_iff.mp h
    obtain ⟨size, -, h⟩ := Option.bind_eq_some_iff.mp h
    have hname : name ∈ l.toList.splitOn ':' := hfields ▸ List.mem_cons_self
    split at h
    · cases h
    · rename_i hne
      obtain rfl := Option.some.inj h
      exact ⟨isField_of_mem_splitOn hl hname hne, Text.lt_of_readBelow howner,
        Text.lt_of_readBelow hnumber⟩
  · cases h

end Symbol

namespace Relocation

/-- A relocation that a line can hold. -/
def Writable (r : Relocation) : Prop := IsField r.symbol

variable {r : Relocation} {l : String}

theorem ofCode?_code (k : RelocationKind) : RelocationKind.ofCode? k.code = some k := by
  cases k <;> rfl

theorem Writable.fields (h : r.Writable) :
    ∀ f ∈ [Text.decimal r.kind.code, Text.decimal r.offset.toNat, r.symbol], IsField f := by
  simp only [List.forall_mem_cons]
  exact ⟨isField_decimal _, isField_decimal _, h, fun f hf => nomatch hf⟩

theorem Writable.isTrimmed_line (h : r.Writable) : Text.IsTrimmed r.line :=
  isTrimmed_of_isField h.fields

theorem line_ne {marker : String} (hm : ':' ∉ marker.toList) : r.line ≠ marker :=
  fieldLine_ne (List.cons_ne_nil _ _) hm

/-- **A relocation is read back** from its line. -/
theorem ofLine?_line (h : r.Writable) : ofLine? r.line = some r := by
  have hcode : r.kind.code < 0x100 := by
    cases r.kind <;> decide
  unfold ofLine? line
  rw [splitOn_of_isField h.fields]
  simp only [List.map_cons, List.map_nil, List.cons_append, List.nil_append]
  rw [Text.readBelow_decimal hcode, Text.readWord_decimal]
  simp only [Option.bind_eq_bind, Option.bind_some]
  rw [ofCode?_code, Option.bind_some, isEmpty_toList h.nonempty, String.ofList_toList]
  rfl

/-- **A relocation that was read** from a line can be written. -/
theorem writable_of_ofLine? (hl : '\n' ∉ l.toList) (h : ofLine? l = some r) : r.Writable := by
  unfold ofLine? at h
  split at h
  · rename_i kind offset symbol rest hfields
    obtain ⟨code, -, h⟩ := Option.bind_eq_some_iff.mp h
    obtain ⟨kind, -, h⟩ := Option.bind_eq_some_iff.mp h
    obtain ⟨offset, -, h⟩ := Option.bind_eq_some_iff.mp h
    have hsymbol : symbol ∈ l.toList.splitOn ':' :=
      hfields ▸ List.mem_cons_of_mem _ (List.mem_cons_of_mem _ List.mem_cons_self)
    split at h
    · cases h
    · rename_i hne
      obtain rfl := Option.some.inj h
      exact isField_of_mem_splitOn hl hsymbol hne
  · cases h

end Relocation

/-- **The bytes of a section are read back** from their line. -/
theorem readBytes_bytesLine (s : SectionData) : readBytes s.bytesLine = some s.bytes.toList := by
  have hfields : ∀ f ∈ s.bytes.toList.map (fun b => Text.hex 2 b.toNat), ':' ∉ f.toList := by
    intro f hf
    obtain ⟨b, -, rfl⟩ := List.mem_map.mp hf
    exact fun hc => absurd (Text.isDigit_of_mem_hex hc) (by decide)
  have hne : ∀ p ∈ s.bytes.toList.map (fun b => (Text.hex 2 b.toNat).toList),
      (!p.isEmpty) = true := by
    intro p hp
    obtain ⟨b, -, rfl⟩ := List.mem_map.mp hp
    rw [List.isEmpty_eq_false_iff.mpr (Text.hex_ne_nil 2 b.toNat)]
    rfl
  have hsplit : s.bytesLine.toList.splitOn ':' =
      s.bytes.toList.map (fun b => (Text.hex 2 b.toNat).toList) ++ [[]] := by
    rw [SectionData.bytesLine, Text.splitOn_fieldLine hfields, List.map_map]
    rfl
  rw [readBytes, hsplit, List.filter_append, List.filter_eq_self.mpr hne,
    List.filter_cons_of_neg (by simp), List.filter_nil, List.append_nil, Text.mapM_readByte_hex]

theorem isTrimmed_bytesLine (s : SectionData) : Text.IsTrimmed s.bytesLine := by
  refine Text.isTrimmed_fieldLine fun f hf => ?_
  obtain ⟨b, -, rfl⟩ := List.mem_map.mp hf
  exact fun hc => absurd (Text.isDigit_of_mem_hex hc) (by decide)

end Sx16
