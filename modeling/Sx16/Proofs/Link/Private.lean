/-
# Private labels

A label that a source text neither declares nor opens a section with is its own business. Under
another name that the text has no use for, the text is assembled to a module with the same sections
and the same shared symbols; only symbols that are not shared have other names. A linker looks at
sections and shared symbols and at nothing else, so it does the same with both modules, whatever names
other modules use.

Key definitions: `ObjectModule.shared`, `ObjectModule.SameOutside`, `IsPrivate`, `Relabelled`,
`OnlyRelabelled`.
Key theorems: `ObjectModule.SameOutside.add_eq`, `MadeOf.sameOutside_rename`,
`Relabelled.assembledAlike`, `link_relabelled`.
-/
import Mathlib.Logic.Equiv.Basic
import Mathlib.Logic.Relation
import Sx16.Link.Partial
import Sx16.Proofs.Assembly.Renamed
import Sx16.Proofs.Assembly.Sound

namespace Sx16

/-! ### What a linker sees of a module -/

namespace ObjectModule

/-- The symbols that a module gives to others or wants from them. -/
def shared (m : ObjectModule) : List Symbol := m.symbols.toList.filter fun s => !s.isLocal

/-- Two modules that are the same to others: their sections and shared symbols are the same, the
shared symbols belong to sections of the same names, and the same relocations are of sections. -/
structure SameOutside (m m' : ObjectModule) : Prop where
  sections : m'.sections = m.sections
  shared : m'.shared = m.shared
  offered : ∀ origin, m'.shared.map (LinkSymbol.ofSymbol m' origin) =
    m.shared.map (LinkSymbol.ofSymbol m origin)
  inside : ∀ f ∈ m.sections, ∀ r ∈ f.relocations,
    (m'.symbols.get? r.symbol).any Symbol.isSection = (m.symbols.get? r.symbol).any Symbol.isSection

namespace SameOutside

variable {m m' m'' : ObjectModule}

theorem refl (m : ObjectModule) : m.SameOutside m := ⟨rfl, rfl, fun _ => rfl, fun _ _ _ _ => rfl⟩

theorem trans (h : m.SameOutside m') (h' : m'.SameOutside m'') : m.SameOutside m'' where
  sections := h'.sections.trans h.sections
  shared := h'.shared.trans h.shared
  offered origin := (h'.offered origin).trans (h.offered origin)
  inside f hf r hr := (h'.inside f (h.sections ▸ hf) r hr).trans (h.inside f hf r hr)

theorem rebased_eq (h : m.SameOutside m') (base : String → UInt16) {f : SectionData}
    (hf : f ∈ m.sections) : Linkage.rebased m' base f = Linkage.rebased m base f := by
  refine List.foldl_ext _ _ _ fun bs r hr => ?_
  rw [h.inside f hf r hr]

/-- **A module that is the same to others** is added as the module itself. -/
theorem add_eq (h : m.SameOutside m') : Linkage.add m' = Linkage.add m := by
  have happend : ∀ (origin : Nat) (base : String → UInt16) (l : Linkage),
      m'.sections.foldl (Linkage.append m' origin base) l =
        m.sections.foldl (Linkage.append m origin base) l := by
    intro origin base l
    rw [h.sections]
    refine List.foldl_ext _ _ l fun l' f hf => ?_
    unfold Linkage.append
    rw [h.rebased_eq base hf]
  have hbase : ∀ l : Linkage, l.base m' = l.base m := by
    intro l
    funext name
    unfold Linkage.base ObjectModule.find?
    rw [h.sections]
  have hoffered := h.offered
  unfold ObjectModule.shared at hoffered
  unfold Linkage.add
  simp only [hoffered, happend, hbase]

theorem addAll_eq {ms ms' : List ObjectModule} (h : List.Forall₂ SameOutside ms ms') :
    Linkage.addAll ms' = Linkage.addAll ms := by
  induction h with
  | nil => rfl
  | cons hm _ ih =>
    rw [Linkage.addAll, Linkage.addAll, hm.add_eq, ih]

end SameOutside
end ObjectModule

/-! ### Names that others do not see -/

section Rename

variable {is : Program} {t : SymbolTable} {m : ObjectModule} {ρ : Renaming}

theorem Symbol.rename_of_eq {s : Symbol} (h : ρ s.name = s.name) : s.rename ρ = s :=
  congrArg (fun name => { s with name }) h

/-- A label is in a section, so its owner keeps its name if sections keep theirs. -/
theorem MadeOf.name_owner_rename (h : MadeOf is t m)
    (hρ : ∀ name ∈ Program.sectionNames is, ρ name = name) {s : Symbol} (hs : s ∈ m.symbols.toList)
    (hsec : s.isSection = false) (hdef : s.isDefined = true) :
    ((m.rename ρ).symbols.byNumber? s.owner).map Symbol.name =
      (m.symbols.byNumber? s.owner).map Symbol.name := by
  obtain ⟨s', rfl, hd⟩ := h.describes (h.tidy.get?_eq_some_iff.mpr ⟨hs, rfl⟩)
  have hno : s'.name ∉ Program.sectionNames is := by
    intro hmem
    have hsection := hd.isSection.mpr (Or.inr hmem)
    exact absurd (hsection.symm.trans hsec) (by decide)
  obtain ⟨home, offset, x, -, hx, hownerName, -⟩ := hd.exists_label hdef hno
  have hbyNumber : (m.symbols.byNumber? s'.owner).map Symbol.name = some x := by
    rw [h.tidy.byNumber?_eq]
    rw [← SymbolTable.nameOf?_settled, ← h.symbols] at hownerName
    exact hownerName
  have hcarried : (m.rename ρ).symbols.byNumber? s'.owner =
      (m.symbols.byNumber? s'.owner).map (Symbol.rename ρ) := ρ.carries.byNumber?_map _ _
  obtain ⟨o, ho, rfl⟩ := Option.map_eq_some_iff.mp hbyNumber
  show ((m.rename ρ).symbols.byNumber? s'.owner).map Symbol.name = _
  rw [hcarried, ho]
  exact congrArg some (hρ _ (List.mem_of_getElem? hx))

/-- **A module whose shared names stay the same** is the same to others. -/
theorem MadeOf.sameOutside_rename (h : MadeOf is t m)
    (hρ : ∀ name, Program.isShared is name = true → ρ name = name) : m.SameOutside (m.rename ρ) := by
  have hsection : ∀ {name}, name ∈ Program.sectionNames is → ρ name = name := fun hname =>
    hρ _ (Program.isShared_eq_true.mpr (Or.inr (Or.inr hname)))
  have hrelocation : ∀ f ∈ m.sections, ∀ r ∈ f.relocations, ρ r.symbol = r.symbol := by
    intro f hf r hr
    rw [h.sections] at hf
    obtain ⟨p, -, rfl⟩ := List.mem_map.mp hf
    obtain ⟨q, hq, rfl⟩ := List.mem_map.mp hr
    exact hρ _ (h.isShared_target (List.mem_filter.mp hq).1)
  have hshared : ∀ s ∈ m.shared, s.rename ρ = s := by
    intro s hs
    obtain ⟨hmem, hlocal⟩ := List.mem_filter.mp hs
    obtain ⟨s', hs', hd⟩ := h.describes (h.tidy.get?_eq_some_iff.mpr ⟨hmem, rfl⟩)
    refine Symbol.rename_of_eq (hρ _ ?_)
    have hsame : s.isLocal = s'.isLocal := by rw [hs']; rfl
    rw [hsame, hd.isLocal, Bool.not_not] at hlocal
    exact hlocal
  have hlist : (m.rename ρ).shared = m.shared := by
    show (m.symbols.map (Symbol.rename ρ)).toList.filter _ = _
    rw [SymbolTable.toList_map, List.filter_map]
    exact (List.map_congr_left hshared).trans (List.map_id _)
  refine ⟨?_, hlist, fun origin => ?_, fun f hf r hr => ?_⟩
  · refine (List.map_congr_left fun f hf => ?_).trans (List.map_id _)
    have hname : ρ f.name = f.name := hsection (h.names ▸ List.mem_map_of_mem hf)
    have hrelocations : f.relocations.map (Relocation.rename ρ) = f.relocations := by
      refine (List.map_congr_left fun r hr => ?_).trans (List.map_id _)
      exact congrArg (fun symbol => { r with symbol }) (hrelocation f hf r hr)
    rw [SectionData.rename, hname, hrelocations]
    rfl
  · rw [hlist]
    refine List.map_congr_left fun s hs => ?_
    obtain ⟨hmem, -⟩ := List.mem_filter.mp hs
    unfold LinkSymbol.ofSymbol
    by_cases hsec : s.isSection = true
    · simp only [hsec, if_true]
    · by_cases hdef : s.isDefined = true
      · have howner := h.name_owner_rename (fun _ => hsection) hmem (Bool.eq_false_iff.mpr hsec) hdef
        simp only [howner]
      · simp only [hdef, if_false, Bool.false_eq_true]
  · have hget : (m.rename ρ).symbols.get? (ρ r.symbol) = (m.symbols.get? r.symbol).map (Symbol.rename ρ) :=
      ρ.carries.get?_map _ _
    rw [hrelocation f hf r hr] at hget
    rw [hget]
    cases m.symbols.get? r.symbol <;> rfl

end Rename

/-! ### Labels of a run that ends well -/

theorem labelAt?_append {is : Program} {name : String} (h : (is.labelAt? name).isSome = true)
    (js : Program) : (Program.labelAt? (is ++ js) name).isSome = true := by
  induction js using Program.concatInduction with
  | nil => rwa [List.append_nil]
  | concat js i ih =>
    rw [← List.append_assoc, Program.labelAt?_concat]
    cases hl : Program.labelAt? (is ++ js) name with
    | none =>
      rw [hl] at ih
      cases ih
    | some l => rfl

/-- The label of a line that was taken is at the next byte, unless it has a place already. -/
theorem Follows.isSome_labelAt?_items {is : Program} {a a' : Assembly} {t : String} {flow : Flow}
    {l : SourceLine} (h : Follows is a) (hfeed : (Assembly.feed t).run a = .ok flow a')
    (ht : SourceLine.ofText t = .ok l) {name : String} (hname : l.label = some name) :
    (Program.labelAt? (is ++ l.items) name).isSome = true := by
  rw [Assembly.run_feed, ht] at hfeed
  obtain ⟨⟨⟩, a2, henter, -⟩ := ok_of_run_bind hfeed
  rw [hname] at henter
  obtain ⟨home, hhome⟩ : ∃ home, a.current = some home := by
    change (Assembly.defineLabel name).run _ = _ at henter
    rw [Assembly.run_defineLabel] at henter
    cases hc : a.current with
    | none =>
      simp only [hc] at henter
      cases henter
    | some home => exact ⟨home, rfl⟩
  have hitems : l.items = [.label name] ++ (l.statement.map Statement.items).getD [] := by
    rw [SourceLine.items, hname]
    rfl
  rw [hitems, ← List.append_assoc]
  refine labelAt?_append ?_ _
  cases hprevious : is.labelAt? name with
  | none =>
    rw [Program.labelAt?_concat_label (h.current.symm.trans hhome) hprevious]
    rfl
  | some p => exact labelAt?_append (by rw [hprevious]; rfl) _

/-- **A label that was taken** has a place. -/
theorem Follows.isSome_labelAt? {is : Program} {a a' : Assembly} {ts : List String}
    {ls : List SourceLine} (h : Follows is a) (hrun : (Assembly.feedAll ts).run a = .ok () a')
    (hls : counted ts = some ls) {l : SourceLine} (hl : l ∈ ls) {name : String}
    (hname : l.label = some name) :
    (Program.labelAt? (is ++ ls.flatMap SourceLine.items) name).isSome = true := by
  induction ts generalizing is a ls with
  | nil =>
    cases hls
    cases hl
  | cons t ts ih =>
    obtain ⟨flow, a1, hfeed, hrest⟩ := ok_of_run_bind hrun
    obtain ⟨k, ht, hk, hflow⟩ := h.feed hfeed
    rw [counted_cons ht] at hls
    by_cases hends : k.ends = true
    · rw [if_pos hends] at hls
      cases hls
      rw [List.mem_singleton.mp hl] at hname
      rw [List.flatMap_singleton]
      exact h.isSome_labelAt?_items hfeed ht hname
    · rw [if_neg hends] at hls
      obtain ⟨ls', hls', rfl⟩ := Option.map_eq_some_iff.mp hls
      rw [List.flatMap_cons, ← List.append_assoc]
      rcases List.mem_cons.mp hl with rfl | hl
      · exact labelAt?_append (h.isSome_labelAt?_items hfeed ht hname) _
      · cases flow with
        | finished => exact absurd (hflow.mp rfl) hends
        | more => exact ih hk hrest hls' hl

/-- No label of an assembled source text is imported. -/
theorem not_imported_of_label {src : String} {m : ObjectModule} {ls : List SourceLine}
    (hm : assemble src = .ok m) (hls : counted (Text.lines src) = some ls) {l : SourceLine}
    (hl : l ∈ ls) {name : String} (hname : l.label = some name) :
    name ∉ Program.imported (ls.flatMap SourceLine.items) := by
  intro himp
  obtain ⟨a, t, -, hmade⟩ := madeOf_of_assemble hls hm
  have hnone := hmade.knows.coherent.imported_label himp
  unfold assemble at hm
  split at hm
  · cases hm
  · rename_i b hrun
    have hsome := Follows.start.isSome_labelAt? hrun hls hl hname
    rw [List.nil_append, hnone] at hsome
    cases hsome

/-! ### One label renamed -/

/-- A name that a label may have: it is neither reserved nor a register's. -/
structure IsLabelName (name : String) : Prop where
  nonempty : name ≠ ""
  unreserved : name ≠ Symbol.undefinedName
  symbolic : Register.ofName? name = none

/-- A label that lines neither export nor open a section with, and a name that they do not have. An
imported name counts only if it is, in vain, a label as well. -/
structure IsPrivate (ls : List SourceLine) (old new : String) : Prop where
  exported : old ∉ Program.exported (ls.flatMap SourceLine.items)
  imported : old ∈ Program.imported (ls.flatMap SourceLine.items) → ∃ l ∈ ls, l.label = some old
  sectionNames : old ∉ Program.sectionNames (ls.flatMap SourceLine.items)
  fresh : ∀ l ∈ ls, new ∉ l.names

/-- One name in place of another. -/
def replaceName (old new name : String) : String := if name = old then new else name

/-- Source texts of which the second has another name for a private label of the first. -/
structure Relabelled (old new src src' : String) : Prop where
  old_name : IsLabelName old
  new_name : IsLabelName new
  lines : RenamesTexts (replaceName old new) (Text.lines src) (Text.lines src')
  isPrivate : ∀ ls, counted (Text.lines src) = some ls → IsPrivate ls old new

/-- The exchange of two names. -/
def Renaming.swap {old new : String} (h : IsLabelName old) (h' : IsLabelName new) : Renaming where
  toFun := Equiv.swap old new
  inj := fun he => (Equiv.swap old new).injective he
  reserved := Equiv.swap_apply_of_ne_of_ne h.unreserved.symm h'.unreserved.symm
  empty := Equiv.swap_apply_of_ne_of_ne h.nonempty.symm h'.nonempty.symm

/-- Source texts of which the second has other names for private labels of the first. -/
def OnlyRelabelled : String → String → Prop :=
  Relation.ReflTransGen fun src src' => ∃ old new, Relabelled old new src src'

/-- Source texts that are assembled alike, to modules that are the same to others. -/
structure AssembledAlike (src src' : String) : Prop where
  assembled : (∃ m, assemble src = .ok m) ↔ ∃ m', assemble src' = .ok m'
  sameOutside : ∀ {m m'}, assemble src = .ok m → assemble src' = .ok m' → m.SameOutside m'

namespace Relabelled

variable {old new src src' : String}

/-- The lines that count are those of the first text with the two names exchanged. -/
theorem counted (h : Relabelled old new src src') :
    counted (Text.lines src') = (counted (Text.lines src)).map
      (List.map (SourceLine.rename (Renaming.swap h.old_name h.new_name))) := by
  have hregister : ∀ name, Register.ofName? (replaceName old new name) = Register.ofName? name := by
    intro name
    unfold replaceName
    split
    · rename_i hname
      rw [hname, h.new_name.symbolic, h.old_name.symbolic]
    · rfl
  rw [h.lines.counted hregister]
  refine Option.map_congr fun ls hls => List.map_congr_left fun l hl => ?_
  refine SourceLine.rename_congr fun name hname => ?_
  have hne : name ≠ new := fun he => (h.isPrivate ls hls).fresh l hl (he ▸ hname)
  show _ = Equiv.swap old new name
  rw [Equiv.swap_apply_def, replaceName, if_neg hne]

/-- Shared names are not exchanged. -/
theorem swap_of_isShared (h : Relabelled old new src src') {ls : List SourceLine} {m : ObjectModule}
    (hls : Sx16.counted (Text.lines src) = some ls) (hm : assemble src = .ok m) {name : String}
    (hname : Program.isShared (ls.flatMap SourceLine.items) name = true) :
    Renaming.swap h.old_name h.new_name name = name := by
  have hprivate := h.isPrivate ls hls
  have hold : name ≠ old := by
    rintro rfl
    rcases Program.isShared_eq_true.mp hname with hexp | himp | hsec
    · exact hprivate.exported hexp
    · obtain ⟨l, hl, hlabel⟩ := hprivate.imported himp
      exact not_imported_of_label hm hls hl hlabel himp
    · exact hprivate.sectionNames hsec
  have hnew : name ≠ new := by
    rintro rfl
    obtain ⟨i, hi, hmention⟩ := exists_of_isShared hname
    obtain ⟨l, hl, hi⟩ := List.mem_flatMap.mp hi
    exact hprivate.fresh l hl (SourceLine.mem_names hi hmention)
  exact Equiv.swap_apply_of_ne_of_ne hold hnew

/-- **A source text with a private label renamed** is assembled alike. -/
theorem assembledAlike (h : Relabelled old new src src') : AssembledAlike src src' := by
  have hcounted := h.counted
  cases hls : Sx16.counted (Text.lines src) with
  | none =>
    rw [hls] at hcounted
    -- One of the lines is no source line, here and there.
    have hno : ∀ {text m}, Sx16.counted (Text.lines text) = none → assemble text ≠ .ok m := by
      intro text m hnone hm
      obtain ⟨ls, -, hsome, -⟩ := exists_run_of_assemble hm
      rw [hnone] at hsome
      cases hsome
    exact ⟨⟨fun ⟨m, hm⟩ => absurd hm (hno hls), fun ⟨m, hm⟩ => absurd hm (hno hcounted)⟩,
      fun hm => absurd hm (hno hls)⟩
  | some ls =>
    rw [hls] at hcounted
    have hassemble := assemble_rename hls hcounted
    constructor
    · rw [hassemble]
      cases assemble src with
      | error e => exact ⟨fun ⟨m, hm⟩ => (nomatch hm), fun ⟨m, hm⟩ => (nomatch hm)⟩
      | ok m => exact ⟨fun _ => ⟨_, rfl⟩, fun _ => ⟨m, rfl⟩⟩
    · intro m m' hm hm'
      rw [hm] at hassemble
      cases hassemble.symm.trans hm'
      obtain ⟨a, t, -, hmade⟩ := madeOf_of_assemble hls hm
      exact hmade.sameOutside_rename fun name hname => h.swap_of_isShared hls hm hname

end Relabelled

namespace AssembledAlike

variable {src src' src'' : String}

theorem refl (src : String) : AssembledAlike src src where
  assembled := Iff.rfl
  sameOutside h h' := by
    cases h.symm.trans h'
    exact ObjectModule.SameOutside.refl _

theorem trans (h : AssembledAlike src src') (h' : AssembledAlike src' src'') :
    AssembledAlike src src'' where
  assembled := h.assembled.trans h'.assembled
  sameOutside hm hm'' := by
    obtain ⟨m', hm'⟩ := h.assembled.mp ⟨_, hm⟩
    exact (h.sameOutside hm hm').trans (h'.sameOutside hm' hm'')

end AssembledAlike

theorem OnlyRelabelled.assembledAlike {src src' : String} (h : OnlyRelabelled src src') :
    AssembledAlike src src' := by
  induction h with
  | refl => exact AssembledAlike.refl src
  | tail _ hstep ih =>
    obtain ⟨old, new, hstep⟩ := hstep
    exact ih.trans hstep.assembledAlike

/-! ### All source texts -/

/-- **Private labels are private.** Source texts whose private labels are renamed are assembled or not
as before, to modules with the same sections and the same shared symbols, and linking the modules gives
the same image and the same joined module, or the same error. -/
theorem link_relabelled {srcs srcs' : List String} (h : List.Forall₂ OnlyRelabelled srcs srcs') :
    List.Forall₂ (fun src src' => (∃ m, assemble src = .ok m) ↔ ∃ m', assemble src' = .ok m')
      srcs srcs' ∧
    ∀ ms ms', List.Forall₂ (fun src m => assemble src = .ok m) srcs ms →
      List.Forall₂ (fun src' m' => assemble src' = .ok m') srcs' ms' →
      List.Forall₂ (fun m m' => m'.sections = m.sections ∧ m'.shared = m.shared) ms ms' ∧
      (∀ places, link ms' places = link ms places) ∧ linkPartially ms' = linkPartially ms := by
  refine ⟨h.imp fun _ _ hs => hs.assembledAlike.assembled, fun ms ms' hms hms' => ?_⟩
  have hsame : List.Forall₂ ObjectModule.SameOutside ms ms' := by
    induction h generalizing ms ms' with
    | nil =>
      cases hms
      cases hms'
      exact List.Forall₂.nil
    | cons hs _ ih =>
      obtain ⟨m, ms, hm, hrest, rfl⟩ := List.forall₂_cons_left_iff.mp hms
      obtain ⟨m', ms', hm', hrest', rfl⟩ := List.forall₂_cons_left_iff.mp hms'
      exact List.Forall₂.cons (hs.assembledAlike.sameOutside hm hm') (ih ms ms' hrest hrest')
  have hadd := ObjectModule.SameOutside.addAll_eq hsame
  refine ⟨hsame.imp fun _ _ hm => ⟨hm.sections, hm.shared⟩, fun places => ?_, ?_⟩
  · unfold link Linkage.linkAll
    rw [hadd]
  · unfold linkPartially
    rw [hadd]

/-- A source text with a private label `x`. -/
def labelText : String := ".extern far\n.section code\nx: ldr r1, x\n jmp %x\n.word x, far"

/-- The text with the label under the name `y`. -/
def relabelledText : String := ".extern far\n.section code\ny: ldr r1, y\n jmp %y\n.word y, far"

/-- A source text that gives labels of both names to others. -/
def bothText : String := ".global x, y, far\n.section data\nx: .word y\ny: .word x\nfar: halt"

theorem relabelled_labelText : Relabelled "x" "y" labelText relabelledText where
  old_name := ⟨by decide, by decide, by decide⟩
  new_name := ⟨by decide, by decide, by decide⟩
  lines := by
    have hlines : Text.lines labelText =
        [".extern far", ".section code", "x: ldr r1, x", " jmp %x", ".word x, far"] := by
      decide +kernel
    have hlines' : Text.lines relabelledText =
        [".extern far", ".section code", "y: ldr r1, y", " jmp %y", ".word y, far"] := by
      decide +kernel
    rw [hlines, hlines']
    refine .cons ?_ (.cons ?_ (.cons ?_ (.cons ?_ (.cons ?_ .nil)))) <;> decide +kernel
  isPrivate := by
    have hlines : counted (Text.lines labelText) = some [
        ⟨none, some (.directive (.imports ["far"]))⟩,
        ⟨none, some (.directive (.newSection "code"))⟩,
        ⟨some "x", some (.instruction ⟨.ldr, .data .r1 (.memory (.symbol "x"))⟩)⟩,
        ⟨none, some (.instruction ⟨.jmp, .jump (.pcRelative "x")⟩)⟩,
        ⟨none, some (.directive (.words [.symbol "x", .symbol "far"]))⟩] := by
      decide +kernel
    intro ls hls
    cases hlines.symm.trans hls
    constructor <;> decide

/-- Private labels of one name, or of another, next to a module that gives both names to others. -/
theorem link_relabelled_two : ∃ m m' k, assemble labelText = .ok m ∧ assemble relabelledText = .ok m' ∧
    assemble bothText = .ok k ∧ m' ≠ m ∧ m'.sections = m.sections ∧
    (∃ joined, linkPartially [m, k] = .ok joined ∧ linkPartially [m', k] = .ok joined) ∧
    link [m', k] [] = link [m, k] [] := by
  have hsrcs : List.Forall₂ OnlyRelabelled [labelText, bothText] [relabelledText, bothText] :=
    .cons (.single ⟨"x", "y", relabelled_labelText⟩) (.cons .refl .nil)
  have hrun : ((assemble labelText).toOption.bind fun m =>
      (assemble relabelledText).toOption.bind fun m' => (assemble bothText).toOption.map fun k =>
        decide (m' ≠ m) && (linkPartially [m, k]).toOption.isSome) = some true := by
    decide +kernel
  obtain ⟨m, hm, hrun⟩ := Option.bind_eq_some_iff.mp hrun
  obtain ⟨m', hm', hrun⟩ := Option.bind_eq_some_iff.mp hrun
  obtain ⟨k, hk, hrun⟩ := Option.map_eq_some_iff.mp hrun
  obtain ⟨hne, hjoined⟩ := Bool.and_eq_true_iff.mp hrun
  obtain ⟨joined, hjoined⟩ := Option.isSome_iff_exists.mp hjoined
  have hjoined := ok_of_toOption hjoined
  have hm := ok_of_toOption hm
  have hm' := ok_of_toOption hm'
  have hk := ok_of_toOption hk
  obtain ⟨-, hmodules⟩ := link_relabelled hsrcs
  obtain ⟨hsame, hlink, hjoin⟩ := hmodules [m, k] [m', k] (.cons hm (.cons hk .nil))
    (.cons hm' (.cons hk .nil))
  obtain ⟨⟨hsections, -⟩, -⟩ := List.forall₂_cons.mp hsame
  exact ⟨m, m', k, hm, hm', hk, of_decide_eq_true hne, hsections,
    ⟨joined, hjoined, hjoin.trans hjoined⟩, hlink []⟩

end Sx16
