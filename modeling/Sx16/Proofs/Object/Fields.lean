/-
# What the lines of an object module may be

The lines that a reader takes for a symbol, a relocation or the bytes of a section, told by their fields
alone. A symbol's line is its seven fields and a relocation's its three, each with a colon behind it. The
reader of relocations is not content with that: it takes a longer line too, if a further colon comes
right behind the third field's.

Key definitions: `SymbolLine`, `RelocationLine`, `LongRelocationLine`, `BytesLine`.
Key theorems: `Symbol.ofLine?_eq_some_iff`, `Relocation.ofLine?_eq_some_iff`, `readBytes_eq_some_iff`.
-/
import Sx16.Proofs.Object.Lines
import Sx16.Proofs.Sequence

namespace Sx16

open Text (IsNumeral IsUnsigned IsSigned)

/-- The size field of a symbol: -1 for a label, and a section's size. -/
def IsSize (cs : List Char) : Option UInt16 → Prop
  | none => IsSigned cs (-1)
  | some n => IsSigned cs n.toNat

/-- The line of a symbol: seven fields, each followed by a colon. -/
def SymbolLine (l : String) (s : Symbol) : Prop :=
  ∃ owner value number size : String,
    l = fieldLine [s.name, owner, value, Symbol.flagText s.exported, Symbol.flagText s.imported,
      number, size] ∧
    s.name ≠ "" ∧ ':' ∉ s.name.toList ∧
    IsUnsigned 10 owner.toList s.owner ∧ s.owner < 0x100000000 ∧
    IsUnsigned 10 value.toList s.value.toNat ∧
    IsUnsigned 10 number.toList s.number ∧ s.number < 0x100000000 ∧
    IsSize size.toList s.size ∧ s.uses = []

/-- The line of a relocation: three fields, each followed by a colon. -/
def RelocationLine (l : String) (r : Relocation) : Prop :=
  ∃ kind offset : String,
    l = fieldLine [kind, offset, r.symbol] ∧ r.symbol ≠ "" ∧ ':' ∉ r.symbol.toList ∧
    IsUnsigned 10 kind.toList r.kind.code ∧ IsUnsigned 10 offset.toList r.offset.toNat

/-- The line of a relocation, or a longer one that goes on with a further colon. -/
def LongRelocationLine (l : String) (r : Relocation) : Prop :=
  ∃ line rest, l = line ++ rest ∧ RelocationLine line r ∧ (rest = "" ∨ ∃ more, rest = ":" ++ more)

/-- The line of a section's bytes: hexadecimal numbers between colons. Empty pieces count for nothing. -/
def BytesLine (l : String) (bytes : List UInt8) : Prop :=
  ∃ pieces : List (List Char), l.toList = [':'].intercalate pieces ∧ (∀ p ∈ pieces, ':' ∉ p) ∧
    List.Forall₂ (fun p b => IsUnsigned 16 p b.toNat) (pieces.filter fun p => !p.isEmpty) bytes

theorem RelocationLine.long {l : String} {r : Relocation} (h : RelocationLine l r) :
    LongRelocationLine l r :=
  ⟨l, "", String.append_empty.symm, h, .inl rfl⟩

/-! ### Fields -/

variable {base n : Nat} {cs : List Char} {l f : String} {fs : List String}

theorem colon_not_mem_unsigned (h : IsUnsigned base cs n) : ':' ∉ cs := by
  have hcolon : ¬ Text.IsDigit ':' := by decide
  rcases h with h | ⟨ds, rfl, h⟩
  · exact fun hc => hcolon (h.isDigit hc)
  · intro hc
    rcases List.mem_cons.mp hc with hc | hc
    · cases hc
    · exact hcolon (h.isDigit hc)

theorem colon_not_mem_signed {i : Int} (h : IsSigned cs i) : ':' ∉ cs := by
  have hcolon : ¬ Text.IsDigit ':' := by decide
  rcases h with ⟨n, h, -⟩ | ⟨ds, n, rfl, h, -⟩
  · exact colon_not_mem_unsigned h
  · intro hc
    rcases List.mem_cons.mp hc with hc | hc
    · cases hc
    · exact hcolon (h.isDigit hc)

theorem colon_not_mem_size {size : Option UInt16} (h : IsSize cs size) : ':' ∉ cs := by
  cases size with
  | none => exact colon_not_mem_signed h
  | some n => exact colon_not_mem_signed h

/-- Pieces with a colon behind each, and then the others between colons. -/
theorem intercalate_append {q : List (List Char)} (hq : q ≠ []) (ws : List (List Char)) :
    [':'].intercalate (ws ++ q) = ws.flatMap (· ++ [':']) ++ [':'].intercalate q := by
  induction ws with
  | nil => rfl
  | cons w ws ih =>
    have hne : ws ++ q ≠ [] := fun h => hq (List.append_eq_nil_iff.mp h).2
    rw [List.cons_append, List.intercalate_cons_of_ne_nil hne, ih, List.flatMap_cons]
    simp only [List.append_assoc]

/-- A line that is cut into fields and a rest has them, with a colon behind each field. -/
theorem eq_fieldLine_append {ws q : List (List Char)} (h : l.toList.splitOn ':' = ws ++ q)
    (hq : q ≠ []) : l = fieldLine (ws.map String.ofList) ++ String.ofList ([':'].intercalate q) := by
  apply String.toList_injective
  calc l.toList = [':'].intercalate (l.toList.splitOn ':') := (List.intercalate_splitOn ':').symm
    _ = ws.flatMap (· ++ [':']) ++ [':'].intercalate q := by rw [h, intercalate_append hq]
    _ = _ := by
      have hsame : (ws.map String.ofList).map String.toList = ws := by
        rw [List.map_map]
        exact List.map_id'' (fun w => String.toList_ofList) ws
      rw [String.toList_append, String.toList_ofList, Text.toList_fieldLine, hsame]

/-- Fields with a colon behind each are cut, and then what follows them. -/
theorem splitOn_fieldLine_append (h : ∀ f ∈ fs, ':' ∉ f.toList) (rest : String) :
    (fieldLine fs ++ rest).toList.splitOn ':' = fs.map String.toList ++ rest.toList.splitOn ':' := by
  rw [String.toList_append, Text.toList_fieldLine]
  induction fs with
  | nil => rfl
  | cons f fs ih =>
    obtain ⟨hf, hfs⟩ := List.forall_mem_cons.mp h
    rw [List.map_cons, List.flatMap_cons, List.append_assoc, List.append_assoc, List.singleton_append,
      List.splitOn_append_cons_self_of_not_mem hf, ih hfs]
    rfl

/-! ### Symbols -/

namespace Symbol

theorem flagOf?_eq_some_iff {b : Bool} : flagOf? cs = some b ↔ cs = (flagText b).toList := by
  constructor
  · intro h
    unfold flagOf? at h
    split at h
    · rename_i htrue
      cases h
      exact htrue
    · split at h
      · rename_i hfalse
        cases h
        exact hfalse
      · cases h
  · rintro rfl
    exact flagOf?_flagText b

theorem sizeOf?_eq_some_iff {size : Option UInt16} : sizeOf? cs = some size ↔ IsSize cs size := by
  have hsize : IsSize cs size ↔ Text.readSigned cs = some (size.elim (-1) fun n => (n.toNat : Int)) := by
    cases size <;> exact Text.readSigned_eq_some_iff.symm
  rw [hsize]
  unfold sizeOf?
  cases Text.readSigned cs with
  | none => exact ⟨nofun, nofun⟩
  | some i =>
    simp only [Option.some.injEq]
    by_cases hlabel : i = -1
    · rw [if_pos hlabel, hlabel]
      cases size with
      | none => exact ⟨fun _ => rfl, fun _ => rfl⟩
      | some n => exact ⟨nofun, fun h : -1 = (n.toNat : Int) => by omega⟩
    · rw [if_neg hlabel]
      by_cases hrange : 0 ≤ i ∧ i < 0x10000
      · rw [if_pos hrange]
        cases size with
        | none => exact ⟨nofun, fun h => absurd h hlabel⟩
        | some n =>
          simp only [Option.some.injEq, Option.elim_some]
          constructor
          · rintro rfl
            rw [UInt16.toNat_ofNat', Nat.mod_eq_of_lt (by omega)]
            omega
          · rintro rfl
            rw [Int.toNat_natCast, UInt16.ofNat_toNat]
      · rw [if_neg hrange]
        refine ⟨nofun, ?_⟩
        cases size with
        | none => exact fun h => absurd h hlabel
        | some n =>
          rintro rfl
          have hlt := n.toNat_lt
          simp only [Option.elim_some] at hrange
          omega

theorem symbolLine_of_ofLine? {s : Symbol} (h : ofLine? l = some s) :
    SymbolLine l s := by
  unfold ofLine? at h
  split at h
  · rename_i name owner value exported imported number size hfields
    obtain ⟨owner', howner, h⟩ := Option.bind_eq_some_iff.mp h
    obtain ⟨value', hvalue, h⟩ := Option.bind_eq_some_iff.mp h
    obtain ⟨exported', hexported, h⟩ := Option.bind_eq_some_iff.mp h
    obtain ⟨imported', himported, h⟩ := Option.bind_eq_some_iff.mp h
    obtain ⟨number', hnumber, h⟩ := Option.bind_eq_some_iff.mp h
    obtain ⟨size', hsize, h⟩ := Option.bind_eq_some_iff.mp h
    split at h
    · cases h
    · rename_i hname
      obtain rfl := Option.some.inj h
      obtain rfl := flagOf?_eq_some_iff.mp hexported
      obtain rfl := flagOf?_eq_some_iff.mp himported
      obtain ⟨howner, hownerLt⟩ := Text.readBelow_eq_some_iff.mp howner
      obtain ⟨hnumber, hnumberLt⟩ := Text.readBelow_eq_some_iff.mp hnumber
      have hline := @eq_fieldLine_append l [name, owner, value, _, _, number, size] [[]]
        hfields (List.cons_ne_nil _ _)
      refine ⟨String.ofList owner, String.ofList value, String.ofList number, String.ofList size,
        ?_, ?_, ?_, ?_, hownerLt, ?_, ?_, hnumberLt, ?_, rfl⟩
      · rw [hline]
        simp [fieldLine]
      · simpa using hname
      · rw [String.toList_ofList]
        exact Text.not_mem_of_mem_splitOn (hfields ▸ List.mem_cons_self)
      · rwa [String.toList_ofList]
      · rw [String.toList_ofList]
        exact Text.readWord_eq_some_iff.mp hvalue
      · rwa [String.toList_ofList]
      · rw [String.toList_ofList]
        exact sizeOf?_eq_some_iff.mp hsize
  · cases h

theorem ofLine?_of_symbolLine {s : Symbol} (h : SymbolLine l s) :
    ofLine? l = some s := by
  obtain ⟨owner, value, number, size, rfl, hname, hcolon, howner, hownerLt, hvalue, hnumber,
    hnumberLt, hsize, huses⟩ := h
  have hfields : ∀ f ∈ [s.name, owner, value, flagText s.exported, flagText s.imported, number,
      size], ':' ∉ f.toList := by
    simp only [List.forall_mem_cons]
    exact ⟨hcolon, colon_not_mem_unsigned howner, colon_not_mem_unsigned hvalue,
      (isField_flagText _).colon, (isField_flagText _).colon, colon_not_mem_unsigned hnumber,
      colon_not_mem_size hsize, List.forall_mem_nil _⟩
  unfold ofLine?
  rw [Text.splitOn_fieldLine hfields]
  simp only [List.map_cons, List.map_nil, List.cons_append, List.nil_append]
  rw [Text.readBelow_eq_some_iff.mpr ⟨howner, hownerLt⟩, Text.readWord_eq_some_iff.mpr hvalue,
    flagOf?_flagText, flagOf?_flagText, Text.readBelow_eq_some_iff.mpr ⟨hnumber, hnumberLt⟩,
    sizeOf?_eq_some_iff.mpr hsize]
  simp only [Option.bind_eq_bind, Option.bind_some]
  rw [isEmpty_toList hname, String.ofList_toList]
  simp [← huses]

/-- **A symbol is read** just from the lines of symbols. -/
theorem ofLine?_eq_some_iff {s : Symbol} : ofLine? l = some s ↔ SymbolLine l s :=
  ⟨symbolLine_of_ofLine?, ofLine?_of_symbolLine⟩

end Symbol

/-! ### Relocations -/

namespace Relocation

theorem ofCode?_eq_some_iff {n : Nat} {k : RelocationKind} :
    RelocationKind.ofCode? n = some k ↔ n = k.code := by
  constructor
  · intro h
    unfold RelocationKind.ofCode? at h
    split at h <;> cases h <;> rfl
  · rintro rfl
    exact ofCode?_code k

theorem longRelocationLine_of_ofLine? {r : Relocation} (h : ofLine? l = some r) :
    LongRelocationLine l r := by
  unfold ofLine? at h
  split at h
  · rename_i kind offset symbol rest hfields
    obtain ⟨code, hcode, h⟩ := Option.bind_eq_some_iff.mp h
    obtain ⟨kind', hkind, h⟩ := Option.bind_eq_some_iff.mp h
    obtain ⟨offset', hoffset, h⟩ := Option.bind_eq_some_iff.mp h
    split at h
    · cases h
    · rename_i hsymbol
      obtain rfl := Option.some.inj h
      obtain rfl := ofCode?_eq_some_iff.mp hkind
      obtain ⟨hcode, -⟩ := Text.readBelow_eq_some_iff.mp hcode
      have hline := @eq_fieldLine_append l [kind, offset, symbol] ([] :: rest) hfields
        (List.cons_ne_nil _ _)
      refine ⟨_, _, hline, ⟨String.ofList kind, String.ofList offset, rfl, ?_, ?_, ?_, ?_⟩, ?_⟩
      · simpa using hsymbol
      · rw [String.toList_ofList]
        have hmem : symbol ∈ l.toList.splitOn ':' := by
          rw [hfields]
          simp
        exact Text.not_mem_of_mem_splitOn hmem
      · rwa [String.toList_ofList]
      · rw [String.toList_ofList]
        exact Text.readWord_eq_some_iff.mp hoffset
      · cases rest with
        | nil => exact .inl rfl
        | cons q qs =>
          refine .inr ⟨String.ofList ([':'].intercalate (q :: qs)), ?_⟩
          apply String.toList_injective
          rw [List.intercalate_cons_of_ne_nil (List.cons_ne_nil q qs)]
          simp
  · cases h

theorem ofLine?_of_longRelocationLine {r : Relocation} (h : LongRelocationLine l r) :
    ofLine? l = some r := by
  obtain ⟨line, rest, rfl, ⟨kind, offset, rfl, hsymbol, hcolon, hkind, hoffset⟩, hrest⟩ := h
  have hfields : ∀ f ∈ [kind, offset, r.symbol], ':' ∉ f.toList := by
    simp only [List.forall_mem_cons]
    exact ⟨colon_not_mem_unsigned hkind, colon_not_mem_unsigned hoffset, hcolon,
      List.forall_mem_nil _⟩
  have hcode : r.kind.code < 0x100 := by
    cases r.kind <;> decide
  have hsplit : ∃ more, rest.toList.splitOn ':' = [] :: more := by
    rcases hrest with rfl | ⟨more, rfl⟩
    · exact ⟨[], rfl⟩
    · refine ⟨more.toList.splitOn ':', ?_⟩
      rw [String.toList_append]
      have hnone : ':' ∉ ([] : List Char) := List.not_mem_nil
      exact List.splitOn_append_cons_self_of_not_mem hnone _
  obtain ⟨more, hmore⟩ := hsplit
  unfold ofLine?
  rw [splitOn_fieldLine_append hfields, hmore]
  simp only [List.map_cons, List.map_nil, List.cons_append, List.nil_append]
  rw [Text.readBelow_eq_some_iff.mpr ⟨hkind, hcode⟩, Text.readWord_eq_some_iff.mpr hoffset]
  simp only [Option.bind_eq_bind, Option.bind_some]
  rw [ofCode?_code, Option.bind_some, isEmpty_toList hsymbol, String.ofList_toList]
  rfl

/-- **A relocation is read** just from the lines of relocations, and longer ones that go on with a
further colon. -/
theorem ofLine?_eq_some_iff {r : Relocation} : ofLine? l = some r ↔ LongRelocationLine l r :=
  ⟨longRelocationLine_of_ofLine?, ofLine?_of_longRelocationLine⟩

end Relocation

/-! ### Bytes -/

/-- **Bytes are read** just from the lines of bytes. -/
theorem readBytes_eq_some_iff {bytes : List UInt8} : readBytes l = some bytes ↔ BytesLine l bytes := by
  rw [readBytes, mapM_eq_some_iff]
  simp only [Text.readByte_eq_some_iff]
  constructor
  · intro h
    exact ⟨_, (List.intercalate_splitOn ':').symm, fun p hp => Text.not_mem_of_mem_splitOn hp, h⟩
  · rintro ⟨pieces, hline, hcolon, h⟩
    cases pieces with
    | nil => rwa [hline]
    | cons p ps => rwa [hline, List.splitOn_intercalate ':' hcolon (List.cons_ne_nil p ps)]

end Sx16
