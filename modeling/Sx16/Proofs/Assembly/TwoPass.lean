/-
# Assembly in two passes

What a source text means, said without pending uses. A source text is a list of items: labels,
declarations, new sections, bytes, and placeholders that stand for a symbol. The first pass walks
over the items and finds the place of each, which gives every label its section and offset. The
second pass writes the sections down: the bytes as they are, and in each placeholder its initial word
plus the value of its symbol. Declared symbols and sections are shared: they count as 0 here, and the
relocation keeps their name; of a label that is not shared, the relocation names its section.

Key definitions: `Item`, `SourceLine.items`, `counted`, `Program.place`, `Program.labelAt?`,
`Program.references`, `Program.sections`.
Key theorems: `Program.pairwise_references`, `Program.reference_inside`,
`Program.patched_rawCode`.
-/
import Mathlib.Data.List.Induction
import Sx16.Assembly.State
import Sx16.Proofs.Patch

namespace Sx16

/-- A part of a source text. -/
inductive Item where
  | label (name : String)
  | exports (name : String)
  | imports (name : String)
  | newSection (name : String)
  | bytes (bs : List UInt8)
  /-- A word that stands for a symbol. -/
  | hole (initial : UInt16) (symbol : String) (kind : RelocationKind)
  deriving DecidableEq

namespace Item

/-- The bytes of an item before symbols have values. -/
def raw : Item → List UInt8
  | bytes bs => bs
  | hole initial _ _ => Word.bytes initial
  | _ => []

/-- The bytes of an item by the values of symbols. -/
def resolved (value : String → UInt16) : Item → List UInt8
  | bytes bs => bs
  | hole initial symbol _ => Word.bytes (initial + value symbol)
  | _ => []

/-- The name of a new section. -/
def section? : Item → Option String
  | newSection name => some name
  | _ => none

/-- The name declared to be given to other modules. -/
def exported? : Item → Option String
  | exports name => some name
  | _ => none

/-- The name declared to be found in other modules. -/
def imported? : Item → Option String
  | imports name => some name
  | _ => none

end Item

/-- The item of a value of a word directive. -/
def Value.item : Value → Item
  | literal v => .bytes (Word.bytes v)
  | symbol name => .hole 0 name .symbolWord

/-- The items of an encoding: its placeholder, if it has one, and the bytes around it. -/
def Encoded.items (e : Encoded) : List Item :=
  match e.fixup with
  | none => [.bytes e.bytes]
  | some f =>
    [.bytes (e.bytes.take f.pos.toNat),
      .hole ((wordAt? e.bytes.toArray f.pos.toNat).getD 0) f.symbol f.kind,
      .bytes (e.bytes.drop (f.pos.toNat + 2))]

/-- The items of a directive. -/
def Directive.items : Directive → List Item
  | exports names => names.map .exports
  | imports names => names.map .imports
  | newSection name => [.newSection name]
  | words values => values.map Value.item
  | ascii bs => [.bytes bs]
  | skip count => [.bytes (List.replicate count.toNat 0)]
  | finish => []

/-- The items of a statement. -/
def Statement.items : Statement → List Item
  | directive d => d.items
  | instruction i => i.encode.items

namespace SourceLine

/-- The items of a line: its label, then its statement. -/
def items (l : SourceLine) : List Item :=
  (l.label.map Item.label).toList ++ (l.statement.map Statement.items).getD []

/-- Whether a line ends the source text. -/
def ends (l : SourceLine) : Bool := l.statement == some (.directive .finish)

end SourceLine

/-- The lines that count: all up to the first that ends the source text. None if one of them is no
source line. -/
def counted : List String → Option (List SourceLine)
  | [] => some []
  | t :: ts =>
    match SourceLine.ofText t with
    | .error _ => none
    | .ok l => if l.ends then some [l] else (counted ts).map (l :: ·)

theorem counted_cons {t : String} {l : SourceLine} (ht : SourceLine.ofText t = .ok l)
    (ts : List String) :
    counted (t :: ts) = if l.ends then some [l] else (counted ts).map (l :: ·) := by
  rw [counted, ht]

/-- The first line that counts. -/
theorem exists_of_counted_eq_cons {ts : List String} {l : SourceLine} {ls : List SourceLine}
    (h : counted ts = some (l :: ls)) : ∃ t ts', ts = t :: ts' ∧ SourceLine.ofText t = .ok l ∧
      if l.ends then ls = [] else counted ts' = some ls := by
  cases ts with
  | nil => cases h
  | cons t ts =>
    cases ht : SourceLine.ofText t with
    | error e =>
      rw [counted, ht] at h
      cases h
    | ok k =>
      rw [counted_cons ht] at h
      by_cases hends : k.ends = true
      · rw [if_pos hends] at h
        obtain ⟨rfl, hnil⟩ := List.cons.inj (Option.some.inj h)
        exact ⟨t, ts, rfl, ht, by rw [if_pos hends]; exact hnil.symm⟩
      · rw [if_neg hends] at h
        obtain ⟨ls', hls', heq⟩ := Option.map_eq_some_iff.mp h
        obtain ⟨rfl, rfl⟩ := List.cons.inj heq
        exact ⟨t, ts, rfl, ht, by rw [if_neg hends]; exact hls'⟩

/-- The items of a source text. -/
abbrev Program := List Item

/-- Where an item stands. -/
structure Place where
  /-- The position of its section among all sections; none before the first. -/
  home : Option Nat := none
  offset : Nat := 0
  deriving DecidableEq

/-- The place behind an item. -/
def Place.after (p : Place) : Item → Place
  | .newSection _ => ⟨some (p.home.elim 0 (· + 1)), 0⟩
  | i => { p with offset := p.offset + i.raw.length }

/-- A placeholder with its place. -/
structure Reference where
  home : Nat
  offset : Nat
  initial : UInt16
  symbol : String
  kind : RelocationKind
  deriving DecidableEq

/-- The reference that an item at a place makes. -/
def Reference.of? : Place × Item → Option Reference
  | (⟨some home, offset⟩, .hole initial symbol kind) => some ⟨home, offset, initial, symbol, kind⟩
  | _ => none

theorem Reference.of?_eq_some {p : Place × Item} {r : Reference} : Reference.of? p = some r ↔
    p = (⟨some r.home, r.offset⟩, .hole r.initial r.symbol r.kind) := by
  obtain ⟨⟨home, offset⟩, i⟩ := p
  obtain ⟨home', offset', initial, symbol, kind⟩ := r
  cases home <;> cases i <;> simp [Reference.of?, and_assoc]

/-- The label that an item at a place defines, with its section and offset. -/
def labelOf? : Place × Item → Option (String × Nat × Nat)
  | (⟨some home, offset⟩, .label name) => some (name, home, offset)
  | _ => none

/-- What a placeholder is patched with. -/
def Reference.patch (value : String → UInt16) (r : Reference) : Patch :=
  ⟨r.offset, value r.symbol⟩

namespace Program

/-! ### The first pass -/

/-- The items with their places, from a place on. -/
def locatedFrom (p : Place) : Program → List (Place × Item)
  | [] => []
  | i :: is => (p, i) :: locatedFrom (p.after i) is

/-- The items with their places. -/
def located (is : Program) : List (Place × Item) := locatedFrom {} is

/-- The place behind all items. -/
def place (is : Program) : Place := is.foldl Place.after {}

/-- The names of the sections, in order. -/
def sectionNames (is : Program) : List String := is.filterMap Item.section?

/-- The names declared to be given to other modules. -/
def exported (is : Program) : List String := is.filterMap Item.exported?

/-- The names declared to be found in other modules. -/
def imported (is : Program) : List String := is.filterMap Item.imported?

/-- The labels with their sections and offsets. -/
def labels (is : Program) : List (String × Nat × Nat) := is.located.filterMap labelOf?

/-- The section and the offset of a label. -/
def labelAt? (is : Program) (name : String) : Option (Nat × Nat) := is.labels.lookup name

/-- The names that mean something to other modules: declared ones and sections. -/
def isShared (is : Program) (name : String) : Bool :=
  name ∈ is.exported ∨ name ∈ is.imported ∨ name ∈ is.sectionNames

/-! ### The second pass -/

/-- The placeholders, in order. -/
def references (is : Program) : List Reference := is.located.filterMap Reference.of?

/-- The placeholders of a section, in order. -/
def referencesIn (is : Program) (home : Nat) : List Reference :=
  is.references.filter (·.home == home)

/-- What is added to a placeholder of a symbol. -/
def value (is : Program) (name : String) : UInt16 :=
  if is.isShared name then 0 else UInt16.ofNat ((is.labelAt? name).map Prod.snd |>.getD 0)

/-- The name that a relocation of a symbol has: its own if it is shared, or else its section's. -/
def target (is : Program) (name : String) : String :=
  if is.isShared name then name
  else ((is.labelAt? name).bind fun l => is.sectionNames[l.1]?).getD ""

/-- The relocation of a placeholder. -/
def relocation (is : Program) (r : Reference) : Relocation :=
  ⟨r.kind, UInt16.ofNat r.offset, is.target r.symbol⟩

/-- The items of a section. -/
def code (is : Program) (home : Nat) : List Item :=
  (is.located.filter fun p => p.1.home == some home).map Prod.snd

/-- The encodings of a section, one after the other, before symbols have values. -/
def rawCode (is : Program) (home : Nat) : List UInt8 := (is.code home).flatMap Item.raw

/-- The sections as they are written down. -/
def sections (is : Program) : List SectionData :=
  is.sectionNames.zipIdx.map fun s =>
    { name := s.1
      bytes := ((is.code s.2).flatMap (Item.resolved is.value)).toArray
      relocations := (is.referencesIn s.2).map is.relocation }

/-! ### One more item -/

/-- Induction along a source text: what holds of no item and is kept by one more holds of all. -/
@[elab_as_elim]
theorem concatInduction {motive : Program → Prop} (nil : motive [])
    (concat : ∀ (is : Program) (i : Item), motive is → motive (is ++ [i])) (is : Program) :
    motive is :=
  List.reverseRecOn is nil concat

variable {is : Program} {i : Item}

theorem locatedFrom_append (p : Place) (is js : Program) :
    locatedFrom p (is ++ js) = locatedFrom p is ++ locatedFrom (is.foldl Place.after p) js := by
  induction is generalizing p with
  | nil => rfl
  | cons i is ih => exact congrArg ((p, i) :: ·) (ih (p.after i))

theorem located_concat (is : Program) (i : Item) : located (is ++ [i]) = is.located ++ [(is.place, i)] :=
  locatedFrom_append {} is [i]

theorem place_append (is js : Program) : place (is ++ js) = js.foldl Place.after is.place :=
  List.foldl_append

theorem place_concat (is : Program) (i : Item) : place (is ++ [i]) = is.place.after i :=
  place_append is [i]

theorem filterMap_concat {α β : Type} (f : α → Option β) (xs : List α) (a : α) :
    (xs ++ [a]).filterMap f = xs.filterMap f ++ (f a).toList := by
  rw [List.filterMap_append]
  cases h : f a <;> simp [h]

theorem sectionNames_concat (is : Program) (i : Item) :
    sectionNames (is ++ [i]) = is.sectionNames ++ i.section?.toList :=
  filterMap_concat Item.section? is i

theorem exported_concat (is : Program) (i : Item) :
    exported (is ++ [i]) = is.exported ++ i.exported?.toList :=
  filterMap_concat Item.exported? is i

theorem imported_concat (is : Program) (i : Item) :
    imported (is ++ [i]) = is.imported ++ i.imported?.toList :=
  filterMap_concat Item.imported? is i

theorem labels_concat (is : Program) (i : Item) :
    labels (is ++ [i]) = is.labels ++ (labelOf? (is.place, i)).toList := by
  unfold labels
  rw [located_concat, filterMap_concat]

theorem references_concat (is : Program) (i : Item) :
    references (is ++ [i]) = is.references ++ (Reference.of? (is.place, i)).toList := by
  unfold references
  rw [located_concat, filterMap_concat]

theorem referencesIn_concat (is : Program) (i : Item) (home : Nat) :
    referencesIn (is ++ [i]) home =
      is.referencesIn home ++ (Reference.of? (is.place, i)).toList.filter (·.home == home) := by
  unfold referencesIn
  rw [references_concat, List.filter_append]

theorem code_concat (is : Program) (i : Item) (home : Nat) :
    code (is ++ [i]) home = is.code home ++ if is.place.home = some home then [i] else [] := by
  unfold code
  rw [located_concat, List.filter_append, List.map_append]
  by_cases h : is.place.home = some home <;> simp [h]

theorem rawCode_concat (is : Program) (i : Item) (home : Nat) :
    rawCode (is ++ [i]) home = is.rawCode home ++ if is.place.home = some home then i.raw else [] := by
  unfold rawCode
  rw [code_concat, List.flatMap_append]
  split <;> simp

/-! ### Places -/

theorem length_sectionNames (is : Program) : is.sectionNames.length = is.place.home.elim 0 (· + 1) := by
  induction is using concatInduction with
  | nil => rfl
  | concat is i ih =>
    rw [place_concat, sectionNames_concat, List.length_append, ih]
    cases i <;> simp [Place.after, Item.section?]

/-- No section has code before it begins. -/
theorem rawCode_eq_nil {home : Nat} (h : is.sectionNames.length ≤ home) : is.rawCode home = [] := by
  induction is using concatInduction with
  | nil => rfl
  | concat is i ih =>
    have hlen := length_sectionNames is
    have hle : is.sectionNames.length ≤ home := by
      rw [sectionNames_concat, List.length_append] at h
      exact Nat.le_trans (Nat.le_add_right _ _) h
    rw [rawCode_concat, ih hle, List.nil_append]
    split
    · rename_i hh
      rw [hh] at hlen
      simp at hlen
      omega
    · rfl

/-- The offset counts the bytes of the section so far. -/
theorem length_rawCode {home : Nat} (h : is.place.home = some home) :
    (is.rawCode home).length = is.place.offset := by
  induction is using concatInduction generalizing home with
  | nil => cases h
  | concat is i ih =>
    have hlen := length_sectionNames is
    rw [place_concat] at h
    rw [rawCode_concat, place_concat]
    cases i with
    | newSection name =>
      simp only [Place.after, Option.some.injEq] at h
      rw [rawCode_eq_nil (by omega)]
      simp [Place.after, Item.raw]
    | _ =>
      change is.place.home = some home at h
      rw [if_pos h, List.length_append, ih h]
      rfl

theorem reference_inside {r : Reference} (hr : r ∈ is.references) :
    r.offset + 2 ≤ (is.rawCode r.home).length := by
  induction is using concatInduction with
  | nil => cases hr
  | concat is i ih =>
    rw [references_concat, List.mem_append, Option.mem_toList] at hr
    rw [rawCode_concat, List.length_append]
    rcases hr with hr | hr
    · exact Nat.le_trans (ih hr) (Nat.le_add_right _ _)
    · obtain ⟨hp, rfl⟩ := Prod.mk.inj (Reference.of?_eq_some.mp hr)
      rw [length_rawCode (congrArg Place.home hp), if_pos (congrArg Place.home hp), hp]
      exact Nat.le_refl _

theorem mem_of_mem_references {r : Reference} (hr : r ∈ is.references) :
    Item.hole r.initial r.symbol r.kind ∈ is := by
  induction is using concatInduction with
  | nil => cases hr
  | concat is i ih =>
    rw [references_concat, List.mem_append, Option.mem_toList] at hr
    rcases hr with hr | hr
    · exact List.mem_append_left _ (ih hr)
    · rw [(Prod.mk.inj (Reference.of?_eq_some.mp hr)).2]
      exact List.mem_append_right _ (List.mem_singleton.mpr rfl)

/-- **Placeholders of one section follow each other** and share no byte. -/
theorem pairwise_references (is : Program) :
    is.references.Pairwise fun r r' => r.home = r'.home → r.offset + 2 ≤ r'.offset := by
  induction is using concatInduction with
  | nil => exact List.Pairwise.nil
  | concat is i ih =>
    rw [references_concat, List.pairwise_append]
    refine ⟨ih, ?_, fun r hr r' hr' hh => ?_⟩
    · cases Reference.of? (is.place, i) <;> simp
    · rw [Option.mem_toList] at hr'
      have hin := reference_inside hr
      have hp := congrArg Prod.fst (Reference.of?_eq_some.mp hr')
      rw [hh, length_rawCode (congrArg Place.home hp)] at hin
      exact Nat.le_trans hin (Nat.le_of_eq (congrArg Place.offset hp))

theorem pairwise_referencesIn (is : Program) (home : Nat) :
    (is.referencesIn home).Pairwise fun r r' => r.offset + 2 ≤ r'.offset := by
  refine List.Pairwise.imp_of_mem (fun hr hr' h => h ?_) ((pairwise_references is).filter _)
  have h1 := (List.mem_filter.mp hr).2
  have h2 := (List.mem_filter.mp hr').2
  rw [beq_iff_eq] at h1 h2
  rw [h1, h2]

/-! ### Filling the placeholders afterwards -/

theorem pairwise_patch (is : Program) (home : Nat) (value : String → UInt16) :
    ((is.referencesIn home).map (Reference.patch value)).Pairwise Patch.Apart :=
  List.pairwise_map.mpr ((pairwise_referencesIn is home).imp Or.inl)

theorem patch_inside {home : Nat} {value : String → UInt16} :
    ∀ p ∈ (is.referencesIn home).map (Reference.patch value),
      p.pos + 2 ≤ (is.rawCode home).toArray.size := by
  intro p hp
  obtain ⟨r, hr, rfl⟩ := List.mem_map.mp hp
  obtain ⟨hr, hh⟩ := List.mem_filter.mp hr
  rw [← beq_iff_eq.mp hh]
  exact reference_inside hr

/-- **Patching is resolving**: the raw code of a section with the values of symbols added to its
placeholders is its code by these values. -/
theorem patched_rawCode (is : Program) (home : Nat) (value : String → UInt16) :
    patched (is.rawCode home).toArray ((is.referencesIn home).map (Reference.patch value)) =
      ((is.code home).flatMap (Item.resolved value)).toArray := by
  induction is using concatInduction with
  | nil => rfl
  | concat is i ih =>
    rw [referencesIn_concat, List.map_append, patched_append, rawCode_concat, code_concat,
      List.flatMap_append, ← List.append_toArray, ← List.append_toArray,
      patched_append_left _ patch_inside, ih]
    have hsize : (is.rawCode home).length = ((is.code home).flatMap (Item.resolved value)).length := by
      rw [← List.size_toArray, ← size_patched, ih, List.size_toArray]
    by_cases hh : is.place.home = some home
    · rw [if_pos hh, if_pos hh, List.flatMap_singleton]
      cases i with
      | hole initial symbol kind =>
        have hof : Reference.of? (is.place, .hole initial symbol kind) =
            some ⟨home, is.place.offset, initial, symbol, kind⟩ := by
          rw [Reference.of?_eq_some, ← hh]
        rw [hof, ← length_rawCode hh, hsize]
        simp only [Option.toList_some, List.filter_cons, beq_self_eq_true, ↓reduceIte,
          List.filter_nil, List.map_cons, List.map_nil, patched_cons, patched_nil, Reference.patch]
        have := addWord_append_right ((is.code home).flatMap (Item.resolved value)).toArray
          (Word.bytes initial).toArray 0 (value symbol)
        rw [List.size_toArray, Nat.add_zero] at this
        refine this.trans (congrArg (_ ++ ·) ?_)
        simp [addWord, wordAt?, putWord, Word.bytes, Item.resolved]
      | _ => simp [Reference.of?, Item.raw, Item.resolved]
    · have hnone : (Reference.of? (is.place, i)).toList.filter (·.home == home) = [] := by
        rw [List.filter_eq_nil_iff]
        intro r hr hrh
        rw [Option.mem_toList, Reference.of?_eq_some] at hr
        rw [beq_iff_eq] at hrh
        exact hh (hrh ▸ congrArg (Place.home ∘ Prod.fst) hr)
      rw [hnone, if_neg hh, if_neg hh]
      rfl

/-- Before symbols have values a placeholder holds its initial word. -/
theorem wordAt?_rawCode {r : Reference} (hr : r ∈ is.references) :
    wordAt? (is.rawCode r.home).toArray r.offset = some r.initial := by
  induction is using concatInduction with
  | nil => cases hr
  | concat is i ih =>
    rw [references_concat, List.mem_append, Option.mem_toList] at hr
    rw [rawCode_concat, ← List.append_toArray]
    rcases hr with hr | hr
    · have hin : r.offset + 2 ≤ (is.rawCode r.home).toArray.size := reference_inside hr
      rw [wordAt?_append_left hin]
      exact ih hr
    · obtain ⟨hp, rfl⟩ := Prod.mk.inj (Reference.of?_eq_some.mp hr)
      have hlen := length_rawCode (congrArg Place.home hp)
      rw [if_pos (congrArg Place.home hp)]
      have hword := wordAt?_append_right (is.rawCode r.home).toArray (Word.bytes r.initial).toArray 0
      rw [List.size_toArray, Nat.add_zero, hlen, hp] at hword
      exact hword.trans (congrArg some (Word.ofBytes_low_high _))

/-- By the values of symbols a placeholder holds its initial word plus the value of its symbol. -/
theorem wordAt?_code {home : Nat} {r : Reference} (hr : r ∈ is.referencesIn home)
    (value : String → UInt16) :
    wordAt? ((is.code home).flatMap (Item.resolved value)).toArray r.offset =
      some (r.initial + value r.symbol) := by
  obtain ⟨hmem, hh⟩ := List.mem_filter.mp hr
  have hraw := wordAt?_rawCode hmem
  rw [beq_iff_eq.mp hh] at hraw
  have hpatch := wordAt?_patched (is.rawCode home).toArray (pairwise_patch is home value)
    (List.mem_map_of_mem hr)
  rw [patched_rawCode, Reference.patch, hraw] at hpatch
  exact hpatch

theorem getElem?_sections (is : Program) (home : Nat) :
    is.sections[home]? = is.sectionNames[home]?.map fun x =>
      { name := x
        bytes := ((is.code home).flatMap (Item.resolved is.value)).toArray
        relocations := (is.referencesIn home).map is.relocation } := by
  rw [sections, List.getElem?_map, List.getElem?_zipIdx, Option.map_map, Nat.zero_add]
  rfl

end Program
end Sx16
