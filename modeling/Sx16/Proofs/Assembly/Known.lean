/-
# What the symbol table knows of a source text

The symbols of a run, described by the items it has taken: which names are declared, which are
sections, where each label stands and which placeholders stand for it. The description holds of every
name, also of one not mentioned yet, and each operation on the table extends it by one item.

Key definitions: `Describes`, `Coherent`, `Knows`.
Key theorems: `Knows.use`, `Knows.exports`, `Knows.imports`, `Knows.label`, `Knows.newSection`.
-/
import Sx16.Proofs.Assembly.TwoPass
import Sx16.Proofs.SymbolTable

namespace Sx16

/-- The pending use of a placeholder. -/
def Reference.use (r : Reference) : PendingUse := ⟨UInt16.ofNat r.offset, r.home, r.kind⟩

/-- The placeholders that stand for a name, in order. -/
def Program.referencesTo (is : Program) (name : String) : List Reference :=
  is.references.filter (·.symbol == name)

/-- The name that an item mentions. -/
def Item.name? : Item → Option String
  | label name | exports name | imports name | newSection name | hole _ name _ => some name
  | bytes _ => none

/-- A symbol is what the items say about a name. -/
structure Describes (is : Program) (t : SymbolTable) (name : String) (s : Symbol) : Prop where
  exported : s.exported = true ↔ name ∈ is.exported ∨ name ∈ is.sectionNames
  imported : s.imported = true ↔ name ∈ is.imported ∨ name ∈ is.sectionNames
  isSection : s.isSection = true ↔ name = Symbol.undefinedName ∨ name ∈ is.sectionNames
  uses : s.uses = (is.referencesTo name).map Reference.use
  labelled : ∀ {home offset}, is.labelAt? name = some (home, offset) →
    s.isDefined = true ∧ s.value = UInt16.ofNat offset ∧
      ∃ x, is.sectionNames[home]? = some x ∧ t.nameOf? s.owner = some x
  unlabelled : is.labelAt? name = none → name ∉ is.sectionNames → s.isDefined = false
  owned : (t.nameOf? s.owner).isSome = true
  empty : name = Symbol.undefinedName → s.value = 0 ∧ s.size = some 0

/-- The declarations, labels and sections of a source text do not contradict each other. -/
structure Coherent (is : Program) : Prop where
  exported_imported : ∀ {name}, name ∈ is.exported → name ∉ is.imported
  exported_section : ∀ {name}, name ∈ is.exported → name ∉ is.sectionNames
  imported_section : ∀ {name}, name ∈ is.imported → name ∉ is.sectionNames
  imported_label : ∀ {name}, name ∈ is.imported → is.labelAt? name = none
  section_label : ∀ {name}, name ∈ is.sectionNames → is.labelAt? name = none
  reserved_label : is.labelAt? Symbol.undefinedName = none
  reserved_section : Symbol.undefinedName ∉ is.sectionNames
  nodup_sections : is.sectionNames.Nodup

/-- A table that holds what the items say about every name. -/
structure Knows (is : Program) (t : SymbolTable) : Prop where
  tidy : t.Tidy
  reserved : t.nameOf? 0 = some Symbol.undefinedName
  describes : ∀ name, Describes is t name (t.meaning name)
  mentioned : ∀ {name s}, t.get? name = some s →
    name = Symbol.undefinedName ∨ ∃ i ∈ is, i.name? = some name
  coherent : Coherent is

/-! ### Items that say nothing about a name -/

/-- Two source texts that say the same about a name. -/
structure SameOn (is js : Program) (name : String) : Prop where
  exported : name ∈ js.exported ↔ name ∈ is.exported
  imported : name ∈ js.imported ↔ name ∈ is.imported
  sectionNames : name ∈ js.sectionNames ↔ name ∈ is.sectionNames
  labelAt? : js.labelAt? name = is.labelAt? name
  referencesTo : js.referencesTo name = is.referencesTo name

namespace Program

variable {is : Program} {i : Item} {name : String}

theorem sectionNames_concat_of_none (is : Program) (h : i.section? = none) :
    sectionNames (is ++ [i]) = is.sectionNames := by
  rw [sectionNames_concat, h]
  exact List.append_nil _

theorem exported_concat_of_none (is : Program) (h : i.exported? = none) :
    exported (is ++ [i]) = is.exported := by
  rw [exported_concat, h]
  exact List.append_nil _

theorem imported_concat_of_none (is : Program) (h : i.imported? = none) :
    imported (is ++ [i]) = is.imported := by
  rw [imported_concat, h]
  exact List.append_nil _

theorem labelAt?_concat (is : Program) (i : Item) (name : String) :
    labelAt? (is ++ [i]) name =
      (is.labelAt? name).or ((labelOf? (is.place, i)).toList.lookup name) := by
  unfold labelAt?
  rw [labels_concat, List.lookup_append]

theorem referencesTo_concat (is : Program) (i : Item) (name : String) :
    referencesTo (is ++ [i]) name =
      is.referencesTo name ++ (Reference.of? (is.place, i)).toList.filter (·.symbol == name) := by
  unfold referencesTo
  rw [references_concat, List.filter_append]

theorem labelAt?_concat_of_ne (is : Program) (h : ∀ x, i ≠ .label x) (name : String) :
    labelAt? (is ++ [i]) name = is.labelAt? name := by
  have hnone : labelOf? (is.place, i) = none := by
    rcases is.place with ⟨home, offset⟩
    cases i with
    | label x => exact absurd rfl (h x)
    | _ => cases home <;> rfl
  rw [labelAt?_concat, hnone]
  exact Option.or_none

theorem referencesTo_concat_of_ne (h : ∀ w x kind, i ≠ .hole w x kind) (name : String) :
    referencesTo (is ++ [i]) name = is.referencesTo name := by
  have hnone : Reference.of? (is.place, i) = none := by
    cases hof : Reference.of? (is.place, i) with
    | none => rfl
    | some r => exact absurd (Prod.mk.inj (Reference.of?_eq_some.mp hof)).2 (h _ _ _)
  rw [referencesTo_concat, hnone]
  exact List.append_nil _

theorem labelAt?_concat_label {home : Nat} (hp : is.place.home = some home)
    (h : is.labelAt? name = none) :
    labelAt? (is ++ [.label name]) name = some (home, is.place.offset) := by
  have hof : labelOf? (is.place, .label name) = some (name, home, is.place.offset) := by
    rcases hpl : is.place with ⟨h', o⟩
    rw [hpl] at hp
    cases hp
    rfl
  rw [labelAt?_concat, h, hof]
  exact List.lookup_cons_self

theorem referencesTo_concat_hole {home : Nat} (hp : is.place.home = some home) (w : UInt16)
    (kind : RelocationKind) :
    referencesTo (is ++ [.hole w name kind]) name =
      is.referencesTo name ++ [⟨home, is.place.offset, w, name, kind⟩] := by
  have hof : Reference.of? (is.place, .hole w name kind) =
      some ⟨home, is.place.offset, w, name, kind⟩ := by
    rw [Reference.of?_eq_some, ← hp]
  rw [referencesTo_concat, hof]
  simp

end Program

open Program

variable {is : Program} {t : SymbolTable} {name : String}

/-- An item says nothing about names that it does not mention. -/
theorem sameOn_concat {i : Item} (h : i.name? ≠ some name) : SameOn is (is ++ [i]) name where
  exported := by
    rw [exported_concat]
    cases i <;> simp_all [Item.exported?, Item.name?, eq_comm]
  imported := by
    rw [imported_concat]
    cases i <;> simp_all [Item.imported?, Item.name?, eq_comm]
  sectionNames := by
    rw [sectionNames_concat]
    cases i <;> simp_all [Item.section?, Item.name?, eq_comm]
  labelAt? := by
    rw [labelAt?_concat]
    have hnone : (labelOf? (is.place, i)).toList.lookup name = none := by
      rcases is.place with ⟨home, offset⟩
      cases home with
      | none => cases i <;> rfl
      | some home =>
        cases i with
        | label x =>
          have hx : (name == x) = false := beq_eq_false_iff_ne.mpr fun hx => h (by rw [hx]; rfl)
          simp [labelOf?, List.lookup_cons, hx]
        | _ => rfl
    rw [hnone, Option.or_none]
  referencesTo := by
    rw [referencesTo_concat]
    have hnil : (Reference.of? (is.place, i)).toList.filter (·.symbol == name) = [] := by
      rw [List.filter_eq_nil_iff]
      intro r hr hname
      rw [Option.mem_toList, Reference.of?_eq_some] at hr
      rw [beq_iff_eq] at hname
      rw [(Prod.mk.inj hr).2, Item.name?, hname] at h
      exact h rfl
    rw [hnil, List.append_nil]

/-- A description stands while nothing new is said about the name. -/
theorem Describes.mono {js : Program} {t' : SymbolTable} {s : Symbol} (h : Describes is t name s)
    (hs : SameOn is js name)
    (hsec : ∀ {k : Nat} {x}, is.sectionNames[k]? = some x → js.sectionNames[k]? = some x)
    (hname : ∀ {k x}, t.nameOf? k = some x → t'.nameOf? k = some x) (n : Nat) :
    Describes js t' name { s with number := n } where
  exported := h.exported.trans (or_congr hs.exported hs.sectionNames).symm
  imported := h.imported.trans (or_congr hs.imported hs.sectionNames).symm
  isSection := h.isSection.trans (or_congr Iff.rfl hs.sectionNames).symm
  uses := h.uses.trans (congrArg (List.map Reference.use) hs.referencesTo.symm)
  labelled hl := by
    obtain ⟨h1, h2, x, h3, h4⟩ := h.labelled (hs.labelAt?.symm.trans hl)
    exact ⟨h1, h2, x, hsec h3, hname h4⟩
  unlabelled hl hsn := h.unlabelled (hs.labelAt?.symm.trans hl) fun hmem => hsn (hs.sectionNames.mpr hmem)
  owned := by
    obtain ⟨x, hx⟩ := Option.isSome_iff_exists.mp h.owned
    exact Option.isSome_of_eq_some (hname hx)
  empty := h.empty

theorem sectionNames_concat_getElem? (i : Item) {k : Nat} {x : String}
    (h : is.sectionNames[k]? = some x) : (sectionNames (is ++ [i]))[k]? = some x := by
  rw [sectionNames_concat, List.getElem?_append_left (List.getElem?_eq_some_iff.mp h).1]
  exact h

/-! ### The table before the first item -/

theorem coherent_nil : Coherent [] := by
  constructor <;> simp [Program.exported, Program.imported, Program.sectionNames, labelAt?, labels,
    located, locatedFrom]

theorem knows_nil : Knows [] SymbolTable.new where
  tidy := SymbolTable.tidy_new
  reserved := rfl
  coherent := coherent_nil
  mentioned h := by
    rw [SymbolTable.get?_new] at h
    split at h
    · rename_i hname
      exact Or.inl hname
    · cases h
  describes name := by
    by_cases h : name = Symbol.undefinedName
    · subst h
      rw [SymbolTable.meaning_of_some (SymbolTable.get?_new.trans (if_pos rfl))]
      constructor <;> simp [Program.exported, Program.imported, Program.sectionNames, labelAt?,
        labels, located, locatedFrom, referencesTo, references, Symbol.undefined, Symbol.isSection,
        Symbol.isDefined, SymbolTable.nameOf?, SymbolTable.byId?, SymbolTable.new]
    · rw [SymbolTable.meaning_of_none (SymbolTable.get?_new.trans (if_neg h))]
      constructor <;> simp [Program.exported, Program.imported, Program.sectionNames, labelAt?,
        labels, located, locatedFrom, referencesTo, references, SymbolTable.fresh, Symbol.isSection,
        Symbol.isDefined, SymbolTable.nameOf?, SymbolTable.byId?, SymbolTable.new, h]

/-! ### One more item -/

namespace Coherent

/-- Items that declare and define nothing contradict nothing. -/
theorem piece {i : Item} (h : Coherent is) (hsec : i.section? = none) (hexp : i.exported? = none)
    (himp : i.imported? = none) (hl : ∀ x, i ≠ .label x) : Coherent (is ++ [i]) := by
  have hl' := labelAt?_concat_of_ne is hl
  constructor <;> simp only [hl', exported_concat_of_none is hexp, imported_concat_of_none is himp,
    sectionNames_concat_of_none is hsec]
  · exact h.exported_imported
  · exact h.exported_section
  · exact h.imported_section
  · exact h.imported_label
  · exact h.section_label
  · exact h.reserved_label
  · exact h.reserved_section
  · exact h.nodup_sections

/-- A name that is neither imported nor a section may be exported. -/
theorem exports (h : Coherent is) (himp : name ∉ is.imported) (hsec : name ∉ is.sectionNames) :
    Coherent (is ++ [.exports name]) := by
  have hl := labelAt?_concat_of_ne is (i := .exports name) (by simp)
  constructor <;> simp only [hl, imported_concat_of_none is (i := .exports name) rfl,
    sectionNames_concat_of_none is (i := .exports name) rfl, exported_concat]
  · intro x hx
    rcases List.mem_append.mp hx with hx | hx
    · exact h.exported_imported hx
    · rw [List.mem_singleton.mp hx]
      exact himp
  · intro x hx
    rcases List.mem_append.mp hx with hx | hx
    · exact h.exported_section hx
    · rw [List.mem_singleton.mp hx]
      exact hsec
  · exact h.imported_section
  · exact h.imported_label
  · exact h.section_label
  · exact h.reserved_label
  · exact h.reserved_section
  · exact h.nodup_sections

/-- A name that is neither exported nor defined nor a section may be imported. -/
theorem imports (h : Coherent is) (hexp : name ∉ is.exported) (hsec : name ∉ is.sectionNames)
    (hlab : is.labelAt? name = none) : Coherent (is ++ [.imports name]) := by
  have hl := labelAt?_concat_of_ne is (i := .imports name) (by simp)
  constructor <;> simp only [hl, exported_concat_of_none is (i := .imports name) rfl,
    sectionNames_concat_of_none is (i := .imports name) rfl, imported_concat]
  · intro x hx hx'
    rcases List.mem_append.mp hx' with hx' | hx'
    · exact h.exported_imported hx hx'
    · rw [List.mem_singleton.mp hx'] at hx
      exact hexp hx
  · exact h.exported_section
  · intro x hx
    rcases List.mem_append.mp hx with hx | hx
    · exact h.imported_section hx
    · rw [List.mem_singleton.mp hx]
      exact hsec
  · intro x hx
    rcases List.mem_append.mp hx with hx | hx
    · exact h.imported_label hx
    · rw [List.mem_singleton.mp hx]
      exact hlab
  · exact h.section_label
  · exact h.reserved_label
  · exact h.reserved_section
  · exact h.nodup_sections

/-- A name that is neither imported nor a section may be a label. -/
theorem label (h : Coherent is) (himp : name ∉ is.imported) (hsec : name ∉ is.sectionNames)
    (hres : name ≠ Symbol.undefinedName) : Coherent (is ++ [.label name]) := by
  have hl : ∀ {x}, x ≠ name → labelAt? (is ++ [.label name]) x = is.labelAt? x := fun hx =>
    (sameOn_concat (i := .label name) (by simpa [Item.name?] using Ne.symm hx)).labelAt?
  constructor <;> try simp only [exported_concat_of_none is (i := .label name) rfl,
    sectionNames_concat_of_none is (i := .label name) rfl,
    imported_concat_of_none is (i := .label name) rfl]
  · exact h.exported_imported
  · exact h.exported_section
  · exact h.imported_section
  · intro x hx
    rw [hl fun hxn => himp (hxn ▸ hx)]
    exact h.imported_label hx
  · intro x hx
    rw [hl fun hxn => hsec (hxn ▸ hx)]
    exact h.section_label hx
  · rw [hl (Ne.symm hres)]
    exact h.reserved_label
  · exact h.reserved_section
  · exact h.nodup_sections

/-- A name of which nothing is said may be a section. -/
theorem newSection (h : Coherent is) (hexp : name ∉ is.exported) (himp : name ∉ is.imported)
    (hsec : name ∉ is.sectionNames) (hlab : is.labelAt? name = none)
    (hres : name ≠ Symbol.undefinedName) : Coherent (is ++ [.newSection name]) := by
  have hl := labelAt?_concat_of_ne is (i := .newSection name) (by simp)
  constructor <;> simp only [hl, exported_concat_of_none is (i := .newSection name) rfl,
    imported_concat_of_none is (i := .newSection name) rfl, sectionNames_concat]
  · exact h.exported_imported
  · intro x hx hx'
    rcases List.mem_append.mp hx' with hx' | hx'
    · exact h.exported_section hx hx'
    · rw [List.mem_singleton.mp hx'] at hx
      exact hexp hx
  · intro x hx hx'
    rcases List.mem_append.mp hx' with hx' | hx'
    · exact h.imported_section hx hx'
    · rw [List.mem_singleton.mp hx'] at hx
      exact himp hx
  · exact h.imported_label
  · intro x hx
    rcases List.mem_append.mp hx with hx | hx
    · exact h.section_label hx
    · rw [List.mem_singleton.mp hx]
      exact hlab
  · exact h.reserved_label
  · intro hx
    rcases List.mem_append.mp hx with hx | hx
    · exact h.reserved_section hx
    · exact hres (List.mem_singleton.mp hx).symm
  · refine List.nodup_append.mpr ⟨h.nodup_sections, List.pairwise_singleton _ _, ?_⟩
    intro x hx y hy hxy
    rw [List.mem_singleton.mp hy] at hxy
    exact hsec (hxy ▸ hx)

end Coherent

namespace Describes

variable {s : Symbol}

theorem not_exported (hd : Describes is t name s) (h : s.exported = false) :
    name ∉ is.exported ∧ name ∉ is.sectionNames := by
  rw [← not_or, ← hd.exported, h]
  exact Bool.false_ne_true

theorem not_imported (hd : Describes is t name s) (h : s.imported = false) :
    name ∉ is.imported ∧ name ∉ is.sectionNames := by
  rw [← not_or, ← hd.imported, h]
  exact Bool.false_ne_true

theorem labelAt?_eq_none (hd : Describes is t name s) (h : s.isDefined = false) :
    is.labelAt? name = none := by
  cases hl : is.labelAt? name with
  | none => rfl
  | some l =>
    have hdef := (hd.labelled hl).1
    rw [h] at hdef
    cases hdef

theorem exists_label (hd : Describes is t name s) (h : s.isDefined = true)
    (hno : name ∉ is.sectionNames) : ∃ home offset x, is.labelAt? name = some (home, offset) ∧
      is.sectionNames[home]? = some x ∧ t.nameOf? s.owner = some x ∧
      s.value = UInt16.ofNat offset := by
  cases hl : is.labelAt? name with
  | none =>
    rw [hd.unlabelled hl hno] at h
    cases h
  | some l =>
    obtain ⟨home, offset⟩ := l
    obtain ⟨-, hvalue, x, hx, howner⟩ := hd.labelled hl
    exact ⟨home, offset, x, rfl, hx, howner, hvalue⟩

end Describes

/-- What an item that is no label and no section has to get right about its name. -/
theorem Describes.concat {i : Item} {t' : SymbolTable} {s s' : Symbol} (hd : Describes is t name s)
    (hs : s'.owner = s.owner ∧ s'.value = s.value ∧ s'.size = s.size) (hsec : i.section? = none)
    (hl : ∀ x, i ≠ .label x) (hgrow : ∀ {k x}, t.nameOf? k = some x → t'.nameOf? k = some x)
    (hexp : s'.exported = true ↔ name ∈ Program.exported (is ++ [i]) ∨ name ∈ is.sectionNames)
    (himp : s'.imported = true ↔ name ∈ Program.imported (is ++ [i]) ∨ name ∈ is.sectionNames)
    (huses : s'.uses = (referencesTo (is ++ [i]) name).map Reference.use) :
    Describes (is ++ [i]) t' name s' := by
  obtain ⟨howner, hvalue, hsize⟩ := hs
  have hl' := labelAt?_concat_of_ne is hl name
  have hdef : s'.isDefined = s.isDefined := congrArg (· != 0) howner
  constructor
  · rw [sectionNames_concat_of_none is hsec]
    exact hexp
  · rw [sectionNames_concat_of_none is hsec]
    exact himp
  · rw [sectionNames_concat_of_none is hsec, Symbol.isSection, hsize]
    exact hd.isSection
  · exact huses
  · intro home offset h
    rw [hl'] at h
    obtain ⟨h1, h2, x, h3, h4⟩ := hd.labelled h
    exact ⟨hdef.trans h1, hvalue.trans h2, x, sectionNames_concat_getElem? i h3,
      hgrow (howner ▸ h4)⟩
  · rw [hl', sectionNames_concat_of_none is hsec, hdef]
    exact hd.unlabelled
  · obtain ⟨x, hx⟩ := Option.isSome_iff_exists.mp hd.owned
    exact Option.isSome_of_eq_some (hgrow (howner ▸ hx))
  · rw [hvalue, hsize]
    exact hd.empty

namespace Knows

variable {i : Item} {f : Symbol → Symbol}

theorem describes_of_mem {s : Symbol} (h : Knows is t) (hs : s ∈ t.toList) :
    Describes is t s.name s := by
  have hd := h.describes s.name
  rwa [SymbolTable.meaning_of_some (h.tidy.get?_eq_some_iff.mpr ⟨hs, rfl⟩)] at hd

/-- The change of a name's symbol is enough to know an item about that name. -/
theorem change (h : Knows is t) (hi : i.name? = some name)
    (hf : ∀ s, (f s).name = s.name ∧ (f s).number = s.number)
    (hd : Describes (is ++ [i]) (t.change name f) name (f (t.meaning name)))
    (hc : Coherent (is ++ [i])) : Knows (is ++ [i]) (t.change name f) where
  tidy := h.tidy.change name hf
  reserved := SymbolTable.nameOf?_change (fun s => (hf s).1) h.reserved name
  coherent := hc
  mentioned {other s} hs := by
    rw [h.tidy.get?_change hf] at hs
    split at hs
    · rename_i ho
      exact Or.inr ⟨i, List.mem_append_right is List.mem_cons_self, ho ▸ hi⟩
    · exact (h.mentioned hs).imp id fun ⟨j, hj, hname⟩ => ⟨j, List.mem_append_left _ hj, hname⟩
  describes other := by
    by_cases ho : other = name
    · subst ho
      rw [h.tidy.meaning_change_self hf]
      exact hd
    · obtain ⟨n, hn⟩ := h.tidy.meaning_change_of_ne hf ho
      rw [hn]
      refine (h.describes other).mono (sameOn_concat ?_) (sectionNames_concat_getElem? i)
        (fun hk => SymbolTable.nameOf?_change (fun s => (hf s).1) hk name) n
      rw [hi, ne_eq, Option.some.injEq]
      exact Ne.symm ho

theorem bytes (h : Knows is t) (bs : List UInt8) : Knows (is ++ [.bytes bs]) t where
  tidy := h.tidy
  reserved := h.reserved
  coherent := h.coherent.piece rfl rfl rfl fun _ => by simp
  mentioned hs := (h.mentioned hs).imp id fun ⟨j, hj, hname⟩ => ⟨j, List.mem_append_left _ hj, hname⟩
  describes name :=
    (h.describes name).mono (sameOn_concat (by simp [Item.name?])) (sectionNames_concat_getElem? _)
      id _

/-- A use that was recorded at the place of its placeholder. -/
theorem use (h : Knows is t) {home : Nat} (hp : is.place.home = some home) (w : UInt16)
    (name : String) (kind : RelocationKind) :
    Knows (is ++ [.hole w name kind]) (t.change name fun s =>
      { s with uses := s.uses ++ [⟨UInt16.ofNat is.place.offset, home, kind⟩] }) := by
  have hd := h.describes name
  refine h.change rfl (fun s => ⟨rfl, rfl⟩) ?_ (h.coherent.piece rfl rfl rfl fun _ => by simp)
  refine hd.concat ⟨rfl, rfl, rfl⟩ rfl (fun _ => by simp)
    (fun hk => SymbolTable.nameOf?_change (fun _ => by rfl) hk name) ?_ ?_ ?_
  · rw [exported_concat_of_none is rfl]
    exact hd.exported
  · rw [imported_concat_of_none is rfl]
    exact hd.imported
  · rw [referencesTo_concat_hole hp, List.map_append, ← hd.uses]
    rfl

theorem exports (h : Knows is t) (himp : (t.meaning name).imported = false) :
    Knows (is ++ [.exports name]) (t.change name fun s => { s with exported := true }) := by
  have hd := h.describes name
  have hno := hd.not_imported himp
  refine h.change rfl (fun s => ⟨rfl, rfl⟩) ?_ (h.coherent.exports hno.1 hno.2)
  refine hd.concat ⟨rfl, rfl, rfl⟩ rfl (fun _ => by simp)
    (fun hk => SymbolTable.nameOf?_change (fun _ => by rfl) hk name) ?_ ?_ ?_
  · simp [exported_concat, Item.exported?]
  · rw [imported_concat_of_none is rfl]
    exact hd.imported
  · rw [referencesTo_concat_of_ne (by simp)]
    exact hd.uses

/-- A name that was marked as imported. -/
theorem imports (h : Knows is t) (hexp : (t.meaning name).exported = false)
    (hdef : (t.meaning name).isDefined = false) :
    Knows (is ++ [.imports name]) (t.change name fun s => { s with imported := true }) := by
  have hd := h.describes name
  have hno := hd.not_exported hexp
  have hlab := hd.labelAt?_eq_none hdef
  refine h.change rfl (fun s => ⟨rfl, rfl⟩) ?_ (h.coherent.imports hno.1 hno.2 hlab)
  refine hd.concat ⟨rfl, rfl, rfl⟩ rfl (fun _ => by simp)
    (fun hk => SymbolTable.nameOf?_change (fun _ => by rfl) hk name) ?_ ?_ ?_
  · rw [exported_concat_of_none is rfl]
    exact hd.exported
  · simp [imported_concat, Item.imported?]
  · rw [referencesTo_concat_of_ne (by simp)]
    exact hd.uses

/-- A name that was defined as a label at the place it is met at. -/
theorem label (h : Knows is t) {home owner : Nat} {x : String} (hp : is.place.home = some home)
    (hx : is.sectionNames[home]? = some x) (howner : owner ≠ 0) (hname : t.nameOf? owner = some x)
    (hsec : (t.meaning name).isSection = false) (hdef : (t.meaning name).isDefined = false)
    (himp : (t.meaning name).imported = false) :
    Knows (is ++ [.label name]) (t.change name fun s =>
      { s with owner, value := UInt16.ofNat is.place.offset }) := by
  have hd := h.describes name
  have hno := hd.not_imported himp
  have hres : name ≠ Symbol.undefinedName := fun hn => by
    have := hd.isSection.mpr (Or.inl hn)
    rw [hsec] at this
    cases this
  have hlab := hd.labelAt?_eq_none hdef
  refine h.change rfl (fun s => ⟨rfl, rfl⟩) ?_ (h.coherent.label hno.1 hno.2 hres)
  constructor
  · rw [exported_concat_of_none is rfl, sectionNames_concat_of_none is rfl]
    exact hd.exported
  · rw [imported_concat_of_none is rfl, sectionNames_concat_of_none is rfl]
    exact hd.imported
  · rw [sectionNames_concat_of_none is rfl]
    exact hd.isSection
  · rw [referencesTo_concat_of_ne (by simp)]
    exact hd.uses
  · intro home' offset hl
    rw [labelAt?_concat_label hp hlab] at hl
    cases hl
    exact ⟨bne_iff_ne.mpr howner, rfl, x, sectionNames_concat_getElem? _ hx,
      SymbolTable.nameOf?_change (fun _ => by rfl) hname name⟩
  · rw [labelAt?_concat_label hp hlab]
    exact fun hl => nomatch hl
  · exact Option.isSome_of_eq_some (SymbolTable.nameOf?_change (fun _ => by rfl) hname name)
  · exact fun hn => absurd hn hres

/-- A name that was inserted as a section. -/
theorem newSection (h : Knows is t) (hnone : t.get? name = none) :
    Knows (is ++ [.newSection name]) (t.insert (t.freshSection name)) := by
  have hd := h.describes name
  rw [SymbolTable.meaning_of_none hnone] at hd
  have hexp := hd.not_exported rfl
  have himp := hd.not_imported rfl
  have hres : name ≠ Symbol.undefinedName := fun hn => nomatch hd.isSection.mpr (Or.inl hn)
  have hlab := hd.labelAt?_eq_none rfl
  have hc := h.coherent.newSection hexp.1 himp.1 hexp.2 hlab hres
  have hget := h.tidy.get?_insert (s := t.freshSection name) hnone rfl
  refine ⟨h.tidy.insert hnone rfl, SymbolTable.nameOf?_insert h.reserved _, fun other => ?_,
    fun {other s} hs => ?_, hc⟩
  rotate_left
  · rw [hget] at hs
    split at hs
    · rename_i ho
      exact Or.inr ⟨.newSection name, List.mem_append_right is List.mem_cons_self, congrArg some ho.symm⟩
    · exact (h.mentioned hs).imp id fun ⟨j, hj, hname⟩ => ⟨j, List.mem_append_left _ hj, hname⟩
  by_cases ho : other = name
  · subst ho
    rw [SymbolTable.meaning_of_some ((hget other).trans (if_pos rfl))]
    have hmem : other ∈ sectionNames (is ++ [.newSection other]) := by
      simp [sectionNames_concat, Item.section?]
    constructor
    · exact iff_of_true rfl (Or.inr hmem)
    · exact iff_of_true rfl (Or.inr hmem)
    · exact iff_of_true rfl (Or.inr hmem)
    · rw [referencesTo_concat_of_ne (by simp)]
      exact hd.uses
    · intro home offset hl
      rw [labelAt?_concat_of_ne is (by simp), hlab] at hl
      cases hl
    · exact fun _ hn => absurd hmem hn
    · have hnew : (t.insert (t.freshSection other)).byId? t.size = some (t.freshSection other) := by
        rw [SymbolTable.byId?_insert, if_pos rfl]
      exact congrArg (fun x => (x.map Symbol.name).isSome) hnew
    · exact fun hn => absurd hn hres
  · obtain ⟨n, hn⟩ := SymbolTable.exists_meaning_eq ((hget other).trans (if_neg ho))
    rw [hn]
    exact (h.describes other).mono (sameOn_concat (by simpa [Item.name?] using Ne.symm ho))
      (sectionNames_concat_getElem? _) (fun hk => SymbolTable.nameOf?_insert hk _) n

theorem get?_of_section (h : Knows is t) (hmem : name ∈ is.sectionNames) :
    ∃ s, t.get? name = some s := by
  cases hg : t.get? name with
  | some s => exact ⟨s, rfl⟩
  | none =>
    have hexp := (h.describes name).exported.mpr (Or.inr hmem)
    rw [SymbolTable.meaning_of_none hg] at hexp
    cases hexp

/-- The size that is written down at a section's symbol when the section is closed. -/
theorem close (h : Knows is t) (hmem : name ∈ is.sectionNames) (n : UInt16) :
    Knows is (t.modifyName name fun s => { s with size := some n }) := by
  obtain ⟨s, hget⟩ := h.get?_of_section hmem
  obtain ⟨i, hi, hs, hname⟩ := SymbolTable.get?_eq_some hget
  have hf : ∀ s : Symbol, ({ s with size := some n } : Symbol).name = s.name ∧
      ({ s with size := some n } : Symbol).number = s.number := fun _ => ⟨rfl, rfl⟩
  have hmod : ∀ other, (t.modify i fun s => { s with size := some n }).get? other =
      if other = name then some { s with size := some n } else t.get? other := by
    intro other
    rw [h.tidy.get?_modify hf hs, hname]
  have hnames : ∀ k, (t.modify i fun s => { s with size := some n }).nameOf? k = t.nameOf? k :=
    SymbolTable.nameOf?_modify (fun s => (hf s).1) i
  rw [SymbolTable.modifyName, hi]
  have hmentioned : ∀ {other s'}, (t.modify i fun s => { s with size := some n }).get? other = some s' →
      other = Symbol.undefinedName ∨ ∃ j ∈ is, j.name? = some other := by
    intro other s' hs'
    rw [hmod] at hs'
    split at hs'
    · rename_i ho
      exact h.mentioned (ho ▸ hget)
    · exact h.mentioned hs'
  refine ⟨h.tidy.modify i hf, (hnames 0).trans h.reserved, fun other => ?_, hmentioned, h.coherent⟩
  by_cases ho : other = name
  · subst ho
    have hd := h.describes other
    rw [SymbolTable.meaning_of_some hget] at hd
    rw [SymbolTable.meaning_of_some ((hmod other).trans (if_pos rfl))]
    refine ⟨hd.exported, hd.imported, iff_of_true rfl (Or.inr hmem), hd.uses, fun hl => ?_, hd.unlabelled,
      (congrArg Option.isSome (hnames s.owner)).trans hd.owned, fun hn => ?_⟩
    · rw [h.coherent.section_label hmem] at hl
      cases hl
    · exact absurd (hn ▸ hmem) h.coherent.reserved_section
  · obtain ⟨k, hk⟩ := SymbolTable.exists_meaning_eq ((hmod other).trans (if_neg ho))
    rw [hk]
    exact (h.describes other).mono ⟨Iff.rfl, Iff.rfl, Iff.rfl, rfl, rfl⟩ id
      (fun hx => (hnames _).trans hx) k

end Knows
end Sx16
