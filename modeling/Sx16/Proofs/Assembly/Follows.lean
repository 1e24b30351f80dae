/-
# A run follows its source text

After every line the state of a run is what the items of the lines so far say: the symbol table
knows them, and the sections hold their encodings with every placeholder as it was written first. A
line that is taken is a source line, and a run that ends has taken exactly the lines that count.

Key definitions: `Buffers`, `Follows`.
Key theorems: `Follows.feed`, `Follows.feedAll`.
-/
import Sx16.Assembly.Resolve
import Sx16.Proofs.Assembly.Known
import Sx16.Proofs.Assembly.Steps
import Sx16.Proofs.Sequence

namespace Sx16

/-- A section in the making: its relocations come last. -/
def SectionData.holding (bytes : List UInt8) (name : String) : SectionData where
  name := name
  bytes := bytes.toArray

/-- The sections of a run hold the raw code of the items, and the next byte goes behind them. -/
structure Buffers (is : Program) (a : Assembly) : Prop where
  sections : ∀ home, a.sections[home]? = is.sectionNames[home]?.map (SectionData.holding (is.rawCode home))
  current : a.current = is.place.home
  location : a.location = UInt16.ofNat is.place.offset
  limit : ∀ home, (is.rawCode home).length ≤ Assembly.sectionLimit

/-- The state of a run is what the items say. -/
structure Follows (is : Program) (a : Assembly) : Prop extends Buffers is a where
  knows : Knows is a.symbols

variable {is js : Program} {a a' : Assembly}

/-! ### Items that begin no section -/

namespace Program

theorem sectionNames_append_of_none (h : ∀ i ∈ js, i.section? = none) :
    sectionNames (is ++ js) = is.sectionNames := by
  have hnil : sectionNames js = [] := List.filterMap_eq_nil_iff.mpr h
  unfold sectionNames at hnil ⊢
  rw [List.filterMap_append, hnil, List.append_nil]

theorem place_append_of_none (h : ∀ i ∈ js, i.section? = none) :
    place (is ++ js) = ⟨is.place.home, is.place.offset + (js.flatMap Item.raw).length⟩ := by
  induction js using concatInduction with
  | nil => rw [List.append_nil]; rfl
  | concat js j ih =>
    have hjs := ih fun i hi => h i (List.mem_append_left _ hi)
    have hj := h j (List.mem_append_right _ (List.mem_singleton.mpr rfl))
    rw [← List.append_assoc, place_concat, hjs, List.flatMap_append, List.length_append,
      List.flatMap_singleton, ← Nat.add_assoc]
    cases j with
    | newSection name => cases hj
    | _ => rfl

theorem rawCode_append_of_none (h : ∀ i ∈ js, i.section? = none) (home : Nat) :
    rawCode (is ++ js) home =
      is.rawCode home ++ if is.place.home = some home then js.flatMap Item.raw else [] := by
  induction js using concatInduction with
  | nil => simp
  | concat js j ih =>
    have hjs : ∀ i ∈ js, i.section? = none := fun i hi => h i (List.mem_append_left _ hi)
    rw [← List.append_assoc, rawCode_concat, ih hjs, place_append_of_none hjs, List.append_assoc]
    split <;> simp

end Program

open Program

/-! ### Sections -/

namespace Buffers

theorem congr (h : Buffers is a) (hs : a'.sections = a.sections) (hc : a'.current = a.current)
    (hl : a'.location = a.location) : Buffers is a' where
  sections home := by rw [hs]; exact h.sections home
  current := hc.trans h.current
  location := hl.trans h.location
  limit := h.limit

theorem change (h : Buffers is a) (name : String) (f : Symbol → Symbol) :
    Buffers is (a.change name f) := h.congr rfl rfl rfl

theorem sectionName (h : Buffers is a) {home : Nat} {x : String}
    (hx : is.sectionNames[home]? = some x) : a.sectionName home = x := by
  rw [Assembly.sectionName, h.sections, hx]
  rfl

theorem sizeAt (h : Buffers is a) (home : Nat) : a.sizeAt home = (is.rawCode home).length := by
  rw [Assembly.sizeAt, h.sections]
  cases hx : is.sectionNames[home]? with
  | none => rw [rawCode_eq_nil (List.getElem?_eq_none_iff.mp hx)]; rfl
  | some x => simp [SectionData.holding]

theorem size_sections (h : Buffers is a) : a.sections.size = is.sectionNames.length := by
  have hiff : ∀ k, a.sections.size ≤ k ↔ is.sectionNames.length ≤ k := by
    intro k
    rw [← Array.getElem?_eq_none_iff, h.sections, Option.map_eq_none_iff, List.getElem?_eq_none_iff]
  have h1 := (hiff _).mp (Nat.le_refl _)
  have h2 := (hiff _).mpr (Nat.le_refl _)
  omega

theorem exists_name (h : Buffers is a) {home : Nat} (hc : a.current = some home) :
    ∃ x, is.sectionNames[home]? = some x := by
  have hlen := length_sectionNames is
  rw [← h.current, hc] at hlen
  exact ⟨_, List.getElem?_eq_getElem (i := home) (by simp at hlen; omega)⟩

/-- Items without bytes leave the sections as they are. -/
theorem quiet (h : Buffers is a) (hsec : ∀ i ∈ js, i.section? = none)
    (hraw : js.flatMap Item.raw = []) : Buffers (is ++ js) a := by
  have hcode : ∀ home, rawCode (is ++ js) home = is.rawCode home := by
    intro home
    rw [rawCode_append_of_none hsec, hraw, ite_self, List.append_nil]
  have hplace : place (is ++ js) = is.place := by
    rw [place_append_of_none hsec, hraw]
    rfl
  constructor
  · intro home
    rw [sectionNames_append_of_none hsec, hcode]
    exact h.sections home
  · rw [hplace]
    exact h.current
  · rw [hplace]
    exact h.location
  · intro home
    rw [hcode]
    exact h.limit home

/-- Bytes that were put in are those of the items they encode. -/
theorem emit {bytes : List UInt8} (h : Buffers is a)
    (hrun : (Assembly.emit bytes).run a = .ok () a') (hsec : ∀ i ∈ js, i.section? = none)
    (hraw : js.flatMap Item.raw = bytes) : Buffers (is ++ js) a' ∧ a'.symbols = a.symbols := by
  rw [Assembly.run_emit] at hrun
  split at hrun
  · cases hrun
  · rename_i home hc
    split at hrun
    · cases hrun
    · rename_i hle
      cases hrun
      have hp := h.current.symm.trans hc
      rw [h.sizeAt home] at hle
      have hcode : ∀ k, rawCode (is ++ js) k =
          if k = home then is.rawCode home ++ bytes else is.rawCode k := by
        intro k
        rw [rawCode_append_of_none hsec, hp, hraw]
        by_cases hk : k = home
        · simp [hk]
        · simp [hk, Ne.symm hk]
      refine ⟨⟨fun k => ?_, ?_, ?_, fun k => ?_⟩, rfl⟩
      · rw [sectionNames_append_of_none hsec, hcode, Array.getElem?_modify, h.sections]
        by_cases hk : k = home
        · subst hk
          cases is.sectionNames[k]? <;> simp [SectionData.holding]
        · rw [if_neg (Ne.symm hk), if_neg hk]
      · rw [place_append_of_none hsec]
        exact h.current
      · rw [place_append_of_none hsec, hraw]
        simp only
        rw [h.sizeAt home, length_rawCode hp]
      · rw [hcode]
        split
        · rw [List.length_append]
          omega
        · exact h.limit k

/-- A section that was opened is empty. -/
theorem newSection (h : Buffers is a) {t : SymbolTable} (name : String) :
    Buffers (is ++ [.newSection name]) { a with
      symbols := t, sections := a.sections.push { name }, current := some a.sections.size,
      location := 0 } := by
  have hsize := h.size_sections
  have hlen := length_sectionNames is
  have hcode : ∀ k, rawCode (is ++ [.newSection name]) k = is.rawCode k := by
    intro k
    rw [rawCode_concat]
    simp [Item.raw]
  constructor
  · intro k
    rw [sectionNames_concat, hcode]
    simp only [Item.section?, Option.toList_some, Array.getElem?_push]
    split
    · rename_i hk
      rw [hk, hsize, List.getElem?_append_right (Nat.le_refl _), rawCode_eq_nil (Nat.le_refl _)]
      simp [SectionData.holding]
    · rename_i hk
      rw [h.sections]
      by_cases hlt : k < is.sectionNames.length
      · rw [List.getElem?_append_left hlt]
      · rw [List.getElem?_eq_none (by omega), List.getElem?_eq_none (by simp; omega)]
  · rw [place_concat, Place.after, ← hlen, ← hsize]
  · rw [place_concat]
    rfl
  · intro k
    rw [hcode]
    exact h.limit k

end Buffers

/-! ### Labels and declarations -/

namespace Follows

variable {name : String}

theorem withSymbols (h : Follows is a) {t : SymbolTable} (hsec : ∀ i ∈ js, i.section? = none)
    (hraw : js.flatMap Item.raw = []) (ht : Knows (is ++ js) t) :
    Follows (is ++ js) { a with symbols := t } where
  toBuffers := (h.toBuffers.quiet hsec hraw).congr rfl rfl rfl
  knows := ht

/-- The symbol of a section is found by the number that labels in it get. -/
theorem ownerOf (h : Follows is a) {home : Nat} {x : String}
    (hx : is.sectionNames[home]? = some x) :
    a.ownerOf home ≠ 0 ∧ a.symbols.nameOf? (a.ownerOf home) = some x := by
  have hmem : x ∈ is.sectionNames := List.mem_of_getElem? hx
  obtain ⟨s, hs⟩ := h.knows.get?_of_section hmem
  obtain ⟨i, -, hi, hname⟩ := SymbolTable.get?_eq_some hs
  have howner : a.ownerOf home = i := by
    rw [Assembly.ownerOf, h.sectionName hx, hs]
    exact h.knows.tidy.number hi
  have hnameOf : a.symbols.nameOf? i = some x := by
    rw [SymbolTable.nameOf?, hi, ← hname]
    rfl
  rw [howner]
  refine ⟨fun hi0 => ?_, hnameOf⟩
  rw [hi0, h.knows.reserved, Option.some.injEq] at hnameOf
  exact h.knows.coherent.reserved_section (hnameOf ▸ hmem)

/-- A label that was defined stands where the next byte goes. -/
theorem defineLabel (h : Follows is a) (hrun : (Assembly.defineLabel name).run a = .ok () a') :
    Follows (is ++ [.label name]) a' := by
  rw [Assembly.run_defineLabel] at hrun
  split at hrun
  · cases hrun
  · rename_i home hc
    split at hrun
    · cases hrun
    · rename_i hfree
      split at hrun
      · cases hrun
      · rename_i himp
        cases hrun
        rw [Bool.or_eq_true, not_or] at hfree
        obtain ⟨x, hx⟩ := h.exists_name hc
        obtain ⟨howner, hname⟩ := h.ownerOf hx
        refine h.withSymbols (by simp [Item.section?]) rfl ?_
        rw [h.location]
        exact h.knows.label (h.current.symm.trans hc) hx howner hname
          (Bool.eq_false_iff.mpr hfree.1) (Bool.eq_false_iff.mpr hfree.2) (Bool.eq_false_iff.mpr himp)

/-- Names that were exported were free to be exported. -/
theorem markExported {names : List String} (h : Follows is a)
    (hrun : (Assembly.markExported names).run a = .ok () a') :
    Follows (is ++ names.map Item.exports) a' := by
  induction names generalizing is a with
  | nil =>
    cases hrun
    rw [List.map_nil, List.append_nil]
    exact h
  | cons name names ih =>
    rw [Assembly.run_markExported_cons] at hrun
    split at hrun
    · cases hrun
    · rename_i himp
      have hstep := h.withSymbols (by simp [Item.section?]) rfl
        (h.knows.exports (Bool.eq_false_iff.mpr himp))
      have := ih hstep hrun
      rwa [List.append_assoc] at this

/-- Names that were imported were free to be imported. -/
theorem markImported {names : List String} (h : Follows is a)
    (hrun : (Assembly.markImported names).run a = .ok () a') :
    Follows (is ++ names.map Item.imports) a' := by
  induction names generalizing is a with
  | nil =>
    cases hrun
    rw [List.map_nil, List.append_nil]
    exact h
  | cons name names ih =>
    rw [Assembly.run_markImported_cons] at hrun
    split at hrun
    · cases hrun
    · rename_i hexp
      split at hrun
      · cases hrun
      · rename_i hdef
        have hstep := h.withSymbols (by simp [Item.section?]) rfl
          (h.knows.imports (Bool.eq_false_iff.mpr hexp) (Bool.eq_false_iff.mpr hdef))
        have := ih hstep hrun
        rwa [List.append_assoc] at this

/-! ### Sections -/

theorem closeSection (h : Follows is a) : Follows is a.closeSection := by
  unfold Assembly.closeSection
  split
  · exact h
  · rename_i home hc
    obtain ⟨x, hx⟩ := h.exists_name hc
    refine ⟨h.toBuffers.congr rfl rfl rfl, ?_⟩
    rw [h.sectionName hx]
    exact h.knows.close (List.mem_of_getElem? hx) _

theorem startSection (h : Follows is a) (hrun : (Assembly.startSection name).run a = .ok () a') :
    Follows (is ++ [.newSection name]) a' := by
  rw [Assembly.run_startSection] at hrun
  split at hrun
  · cases hrun
  · rename_i hnew
    cases hrun
    have hclose := h.closeSection
    rw [SymbolTable.contains_eq_isSome, Option.not_isSome_iff_eq_none] at hnew
    exact ⟨hclose.toBuffers.newSection name, hclose.knows.newSection hnew⟩

/-! ### Bytes and placeholders -/

theorem emit {bytes : List UInt8} (h : Follows is a)
    (hrun : (Assembly.emit bytes).run a = .ok () a') : Follows (is ++ [.bytes bytes]) a' := by
  have hraw : [Item.bytes bytes].flatMap Item.raw = bytes := List.append_nil _
  obtain ⟨hb, hs⟩ := h.toBuffers.emit hrun (by simp [Item.section?]) hraw
  refine ⟨hb, ?_⟩
  rw [hs]
  exact h.knows.bytes bytes

/-- The symbols among values are known by the words that stand for them. -/
theorem recordWords {home : Nat} {values : List Value} {offset : UInt16}
    (h : Knows is a.symbols) (hp : is.place.home = some home)
    (ho : offset = UInt16.ofNat is.place.offset)
    (hrun : (Assembly.recordWords home offset values).run a = .ok () a') :
    Knows (is ++ values.map Value.item) a'.symbols ∧ a' = { a with symbols := a'.symbols } := by
  induction values generalizing is a offset with
  | nil =>
    cases hrun
    rw [List.map_nil, List.append_nil]
    exact ⟨h, rfl⟩
  | cons v vs ih =>
    have hplace : ∀ {i : Item}, i.section? = none → i.raw.length = 2 →
        (place (is ++ [i])).home = some home ∧
          offset + 2 = UInt16.ofNat (place (is ++ [i])).offset := by
      intro i hi hlen
      rw [place_append_of_none (by simpa using hi), List.flatMap_singleton, hlen, ho]
      exact ⟨hp, (UInt16.ofNat_add _ 2).symm⟩
    cases v with
    | literal v =>
      rw [Assembly.run_recordWords_literal] at hrun
      obtain ⟨hp', ho'⟩ := hplace (i := .bytes (Word.bytes v)) rfl rfl
      have := ih (h.bytes (Word.bytes v)) hp' ho' hrun
      rwa [List.append_assoc] at this
    | symbol name =>
      rw [Assembly.run_recordWords_symbol, ho] at hrun
      obtain ⟨hp', ho'⟩ := hplace (i := .hole 0 name .symbolWord) rfl rfl
      rw [ho] at ho'
      obtain ⟨hk, ha⟩ := ih (h.use hp 0 name .symbolWord) hp' ho' hrun
      rw [List.append_assoc] at hk
      exact ⟨hk, ha⟩

end Follows

/-- The bytes around a placeholder and the placeholder are the bytes of the encoding. -/
theorem Encoded.flatMap_raw_items {e : Encoded}
    (h : ∀ f, e.fixup = some f → f.pos.toNat + 2 ≤ e.bytes.length) :
    e.items.flatMap Item.raw = e.bytes := by
  unfold Encoded.items
  split
  · exact List.append_nil _
  · rename_i f hf
    have hlen := h f hf
    have hword : wordAt? e.bytes.toArray f.pos.toNat =
        some (Word.ofBytes (e.bytes[f.pos.toNat]) (e.bytes[f.pos.toNat + 1])) :=
      wordAt?_eq_some hlen
    rw [hword, Option.getD_some]
    simp only [List.flatMap_cons, List.flatMap_nil, Item.raw, Word.bytes, Word.low_ofBytes,
      Word.high_ofBytes, List.append_nil]
    rw [List.cons_append, List.cons_append, List.nil_append, ← List.drop_eq_getElem_cons,
      ← List.drop_eq_getElem_cons, List.take_append_drop]

/-- An instruction has no placeholder or is an operation with an operand. -/
theorem Instruction.encode_cases (i : Instruction) :
    i.encode.fixup = none ∨ ∃ (o : Operand) (op dst : UInt8) (m : AddressMode),
      i.encode = o.encode op dst m := by
  obtain ⟨m, args⟩ := i
  cases args with
  | none => exact Or.inl rfl
  | one r => left; cases m <;> rfl
  | two dst src => exact Or.inl rfl
  | jump target => exact Or.inr ⟨target, _, _, _, rfl⟩
  | data r operand => exact Or.inr ⟨operand, _, _, _, rfl⟩

/-- The placeholder of an instruction lies inside its bytes. -/
theorem Instruction.fixup_inside (i : Instruction) (f : Fixup) (h : i.encode.fixup = some f) :
    f.pos.toNat + 2 ≤ i.encode.bytes.length := by
  rcases i.encode_cases with hnone | ⟨o, op, dst, m, ho⟩
  · rw [hnone] at h
    cases h
  · rw [ho] at h ⊢
    obtain ⟨p, hp, rfl⟩ := Option.map_eq_some_iff.mp h
    cases o with
    | register r => cases hp
    | indirect r => cases hp
    | _ => exact Nat.le_refl 5

theorem Value.flatMap_raw_item (values : List Value) :
    (values.map Value.item).flatMap Item.raw = values.flatMap fun v => Word.bytes v.placeholder := by
  rw [List.flatMap_map]
  congr 1
  funext v
  cases v <;> rfl

namespace Follows

/-- The values of a word directive. -/
theorem words {values : List Value} {flow : Flow} (h : Follows is a)
    (hrun : (Assembly.direct (.words values)).run a = .ok flow a') :
    Follows (is ++ values.map Value.item) a' ∧ flow = .more := by
  obtain ⟨home, a1, hopen, hrun⟩ := ok_of_run_bind hrun
  rw [Assembly.run_openSection] at hopen
  split at hopen
  · rename_i hc
    cases hopen
    obtain ⟨a0, a1, hget, hrun⟩ := ok_of_run_bind hrun
    cases hget
    obtain ⟨⟨⟩, a2, hrec, hrun⟩ := ok_of_run_bind hrun
    obtain ⟨⟨⟩, a3, hemit, hpure⟩ := ok_of_run_bind hrun
    cases hpure
    obtain ⟨hk, ha⟩ := recordWords h.knows (h.current.symm.trans hc) h.location hrec
    have hb : Buffers is a2 := by
      rw [ha]
      exact h.toBuffers.congr rfl rfl rfl
    have hsec : ∀ i ∈ values.map Value.item, i.section? = none := by
      intro i hi
      obtain ⟨v, -, rfl⟩ := List.mem_map.mp hi
      cases v <;> rfl
    obtain ⟨hb', hs⟩ := hb.emit hemit hsec (Value.flatMap_raw_item values)
    rw [← hs] at hk
    exact ⟨⟨hb', hk⟩, rfl⟩
  · cases hopen

/-- An instruction with its placeholder. -/
theorem instruct {i : Instruction} {flow : Flow} (h : Follows is a)
    (hrun : (Assembly.instruct i).run a = .ok flow a') :
    Follows (is ++ i.encode.items) a' ∧ flow = .more := by
  have hraw := Encoded.flatMap_raw_items (Instruction.fixup_inside i)
  have hinside := Instruction.fixup_inside i
  obtain ⟨home, a1, hopen, hrun⟩ := ok_of_run_bind hrun
  rw [Assembly.run_openSection] at hopen
  split at hopen
  · rename_i hc
    cases hopen
    unfold Encoded.items at hraw ⊢
    cases hf : i.encode.fixup with
    | none =>
      simp only [hf] at hrun ⊢
      obtain ⟨⟨⟩, a3, hemit, hpure⟩ := ok_of_run_bind hrun
      cases hpure
      exact ⟨h.emit hemit, rfl⟩
    | some f =>
      simp only [hf] at hrun hraw ⊢
      have hpos := hinside f hf
      obtain ⟨a0, a1, hget, hrun⟩ := ok_of_run_bind hrun
      cases hget
      obtain ⟨⟨⟩, a2, hrec, hrun⟩ := ok_of_run_bind hrun
      obtain ⟨⟨⟩, a3, hemit, hpure⟩ := ok_of_run_bind hrun
      cases hpure
      rw [Assembly.run_recordUse] at hrec
      cases hrec
      obtain ⟨hb, hs⟩ := (h.toBuffers.change f.symbol _).emit hemit (by simp [Item.section?]) hraw
      refine ⟨⟨hb, ?_⟩, rfl⟩
      -- The symbol table first knows the bytes before the placeholder, which give it its place.
      have hbefore := h.knows.bytes (i.encode.bytes.take f.pos.toNat)
      have hplace : place (is ++ [.bytes (i.encode.bytes.take f.pos.toNat)]) =
          ⟨some home, is.place.offset + f.pos.toNat⟩ := by
        rw [place_append_of_none (by simp [Item.section?]), List.flatMap_singleton, Item.raw,
          List.length_take_of_le (by omega), h.current.symm.trans hc]
      have huse := hbefore.use (congrArg Place.home hplace)
        ((wordAt? i.encode.bytes.toArray f.pos.toNat).getD 0) f.symbol f.kind
      have hafter := huse.bytes (i.encode.bytes.drop (f.pos.toNat + 2))
      rw [hplace, List.append_assoc, List.append_assoc, UInt16.ofNat_add, ← h.location,
        UInt16.ofNat_toNat] at hafter
      rw [hs]
      exact hafter
  · cases hopen

/-- What a directive asks for. -/
theorem direct {d : Directive} {flow : Flow} (h : Follows is a)
    (hrun : (Assembly.direct d).run a = .ok flow a') :
    Follows (is ++ d.items) a' ∧ (flow = .finished ↔ d = .finish) := by
  cases d with
  | exports names =>
    obtain ⟨⟨⟩, a1, hmark, hpure⟩ := ok_of_run_bind hrun
    cases hpure
    exact ⟨h.markExported hmark, by simp⟩
  | imports names =>
    obtain ⟨⟨⟩, a1, hmark, hpure⟩ := ok_of_run_bind hrun
    cases hpure
    exact ⟨h.markImported hmark, by simp⟩
  | newSection name =>
    obtain ⟨⟨⟩, a1, hstart, hpure⟩ := ok_of_run_bind hrun
    cases hpure
    exact ⟨h.startSection hstart, by simp⟩
  | words values =>
    obtain ⟨hw, rfl⟩ := h.words hrun
    exact ⟨hw, by simp⟩
  | ascii bytes =>
    obtain ⟨⟨⟩, a1, hemit, hpure⟩ := ok_of_run_bind hrun
    cases hpure
    exact ⟨h.emit hemit, by simp⟩
  | skip count =>
    obtain ⟨⟨⟩, a1, hemit, hpure⟩ := ok_of_run_bind hrun
    cases hpure
    exact ⟨h.emit hemit, by simp⟩
  | finish =>
    cases hrun
    rw [Directive.items, List.append_nil]
    exact ⟨h.closeSection, by simp⟩

/-! ### Lines -/

theorem enter {label : Option String} (h : Follows is a)
    (hrun : (Assembly.enter label).run a = .ok () a') :
    Follows (is ++ (label.map Item.label).toList) a' := by
  cases label with
  | none =>
    cases hrun
    rw [Option.map_none, Option.toList_none, List.append_nil]
    exact h
  | some name => exact h.defineLabel hrun

/-- The statement of a line. -/
theorem carryOut {statement : Option Statement} {flow : Flow} (h : Follows is a)
    (hrun : (Assembly.carryOut statement).run a = .ok flow a') :
    Follows (is ++ (statement.map Statement.items).getD []) a' ∧
      (flow = .finished ↔ statement = some (.directive .finish)) := by
  cases statement with
  | none =>
    cases hrun
    rw [Option.map_none, Option.getD_none, List.append_nil]
    exact ⟨h, by simp⟩
  | some s =>
    cases s with
    | directive d =>
      obtain ⟨hd, hflow⟩ := h.direct hrun
      exact ⟨hd, by simpa using hflow⟩
    | instruction i =>
      obtain ⟨hi, rfl⟩ := h.instruct hrun
      exact ⟨hi, by simp⟩

/-- **A line that is taken** is a source line, adds its items, and ends the run if it says so. -/
theorem feed {t : String} {flow : Flow} (h : Follows is a)
    (hrun : (Assembly.feed t).run a = .ok flow a') :
    ∃ l, SourceLine.ofText t = .ok l ∧ Follows (is ++ l.items) a' ∧
      (flow = .finished ↔ l.ends = true) := by
  rw [Assembly.run_feed] at hrun
  cases ht : SourceLine.ofText t with
  | error fault =>
    rw [ht] at hrun
    cases hrun
  | ok l =>
    rw [ht] at hrun
    refine ⟨l, rfl, ?_⟩
    have hline : Follows is { a with line := a.line + 1 } := ⟨h.toBuffers.congr rfl rfl rfl, h.knows⟩
    obtain ⟨⟨⟩, a1, henter, hcarry⟩ := ok_of_run_bind hrun
    obtain ⟨hl, hflow⟩ := (hline.enter henter).carryOut hcarry
    rw [SourceLine.items, ← List.append_assoc, SourceLine.ends, beq_iff_eq]
    exact ⟨hl, hflow⟩

/-- **A run that ends well** has taken the lines that count. -/
theorem feedAll {ts : List String} (h : Follows is a)
    (hrun : (Assembly.feedAll ts).run a = .ok () a') :
    ∃ ls, counted ts = some ls ∧ Follows (is ++ ls.flatMap SourceLine.items) a' := by
  induction ts generalizing is a with
  | nil =>
    cases hrun
    exact ⟨[], rfl, by rwa [List.flatMap_nil, List.append_nil]⟩
  | cons t ts ih =>
    obtain ⟨flow, a1, hfeed, hrest⟩ := ok_of_run_bind hrun
    obtain ⟨l, ht, hl, hflow⟩ := h.feed hfeed
    unfold counted
    rw [ht]
    cases flow with
    | finished =>
      cases hrest
      refine ⟨[l], if_pos (hflow.mp rfl), ?_⟩
      rwa [List.flatMap_singleton]
    | more =>
      obtain ⟨ls, hls, hfollows⟩ := ih hl hrest
      have hends : ¬ l.ends = true := fun he => by cases hflow.mpr he
      refine ⟨l :: ls, ?_, ?_⟩
      · simp only [hends, hls]
        rfl
      · rwa [List.flatMap_cons, ← List.append_assoc]

theorem start : Follows [] {} where
  sections home := by simp [sectionNames]
  current := rfl
  location := rfl
  limit home := Nat.zero_le _
  knows := knows_nil

end Follows
end Sx16
