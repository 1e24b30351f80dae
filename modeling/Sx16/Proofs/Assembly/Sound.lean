/-
# Assembled modules are fit for linking

The symbols and sections of an assembled module belong together: its shared sections are its
sections, a label that it gives to others is in one of them, and its relocations are of shared names
and lie inside their sections, one behind the other. The reserved name must not be declared: a source
text that does so gives a module with a shared section that is not there.

Key definitions: `Assembled`.
Key theorems: `Assembled.proper`, `Assembled.tight`, `Assembled.reserved`.
-/
import Sx16.Proofs.Assembly.Resolved
import Sx16.Proofs.Link.Added
import Sx16.Proofs.Source.Names

namespace Sx16

/-- A module that was assembled from a source text that does not declare the reserved name. -/
def Assembled (m : ObjectModule) : Prop :=
  ∃ src ls, counted (Text.lines src) = some ls ∧
    Symbol.undefinedName ∉ Program.exported (ls.flatMap SourceLine.items) ∧
    Symbol.undefinedName ∉ Program.imported (ls.flatMap SourceLine.items) ∧
    assemble src = .ok m

open Program

variable {is : Program} {t : SymbolTable} {name : String} {m : ObjectModule}

/-! ### Settled tables -/

theorem SymbolTable.mem_settled {s : Symbol} :
    s ∈ t.settled.toList ↔ ∃ s' ∈ t.toList, s = { s' with uses := [] } := by
  unfold SymbolTable.settled SymbolTable.toList
  rw [Array.toList_map, List.mem_map]
  exact exists_congr fun s' => and_congr_right fun _ => eq_comm

theorem SymbolTable.byId?_settled (t : SymbolTable) (i : Nat) :
    t.settled.byId? i = (t.byId? i).map fun s => { s with uses := [] } := Array.getElem?_map

theorem SymbolTable.Tidy.settled (h : t.Tidy) : t.settled.Tidy where
  number := by
    intro i s hs
    rw [SymbolTable.byId?_settled] at hs
    obtain ⟨s', hs', rfl⟩ := Option.map_eq_some_iff.mp hs
    change s'.number = i
    exact h.number hs'
  inj := by
    intro i j s s' hs hs' hname
    rw [SymbolTable.byId?_settled] at hs hs'
    obtain ⟨a, ha, rfl⟩ := Option.map_eq_some_iff.mp hs
    obtain ⟨b, hb, rfl⟩ := Option.map_eq_some_iff.mp hs'
    exact h.inj ha hb hname

theorem SymbolTable.nameOf?_settled (t : SymbolTable) (i : Nat) :
    t.settled.nameOf? i = t.nameOf? i := by
  rw [nameOf?, byId?_settled, Option.map_map]
  rfl

theorem SymbolTable.Tidy.get?_settled (h : t.Tidy) {s : Symbol} (hs : t.get? name = some s) :
    t.settled.get? name = some { s with uses := [] } := by
  obtain ⟨hmem, hname⟩ := h.get?_eq_some_iff.mp hs
  exact h.settled.get?_eq_some_iff.mpr ⟨SymbolTable.mem_settled.mpr ⟨s, hmem, rfl⟩, hname⟩

/-! ### The parts of an assembled module -/

/-- A module made of what a source text says. -/
structure MadeOf (is : Program) (t : SymbolTable) (m : ObjectModule) : Prop where
  knows : Knows is t
  symbols : m.symbols = t.settled
  sections : m.sections = is.sections
  known : ∀ r ∈ is.references, is.IsKnown r.symbol

/-- A module made of a source text that does not declare the reserved name. -/
structure Compiled (is : Program) (t : SymbolTable) (m : ObjectModule) : Prop
    extends MadeOf is t m where
  exported : Symbol.undefinedName ∉ is.exported
  imported : Symbol.undefinedName ∉ is.imported
  spelled : ∀ {i name}, i ∈ is → i.name? = some name → IsWord name

theorem madeOf_of_assemble {src : String} {ls : List SourceLine}
    (hls : counted (Text.lines src) = some ls) (hm : assemble src = .ok m) :
    ∃ a t, Buffers (ls.flatMap SourceLine.items) a ∧ MadeOf (ls.flatMap SourceLine.items) t m := by
  obtain ⟨ls', a, hls', hfollows, hfin⟩ := exists_run_of_assemble hm
  obtain rfl : ls' = ls := Option.some.inj (hls'.symm.trans hls)
  obtain ⟨hsec, hknown, t, hknows, hsym⟩ := hfollows.finish hfin
  exact ⟨a, t, hfollows.toBuffers, hknows, hsym, hsec, hknown⟩

theorem Assembled.exists_compiled (h : Assembled m) :
    ∃ is t, Compiled is t m ∧ ∀ home f, m.sections[home]? = some f →
      SectionData.Transcribes is home f := by
  obtain ⟨src, ls, hls, hexp, himp, hm⟩ := h
  obtain ⟨a, t, -, hmade⟩ := madeOf_of_assemble hls hm
  obtain ⟨ls', hls', -, htrans⟩ := transcribes_of_assemble hm
  obtain rfl : ls' = ls := Option.some.inj (hls'.symm.trans hls)
  exact ⟨_, t, ⟨hmade, hexp, himp, isWord_of_counted hls⟩, htrans⟩

namespace MadeOf

theorem tidy (h : MadeOf is t m) : m.symbols.Tidy := by
  rw [h.symbols]
  exact h.knows.tidy.settled

theorem names (h : MadeOf is t m) : m.sections.map SectionData.name = is.sectionNames := by
  rw [h.sections, Program.sections, List.map_map]
  exact List.zipIdx_map_fst 0 _

theorem describes (h : MadeOf is t m) {s : Symbol} (hs : m.symbols.get? name = some s) :
    ∃ s', s = { s' with uses := [] } ∧ Describes is t name s' := by
  rw [h.symbols] at hs
  obtain ⟨hmem, rfl⟩ := h.knows.tidy.settled.get?_eq_some_iff.mp hs
  obtain ⟨s', hs', rfl⟩ := SymbolTable.mem_settled.mp hmem
  exact ⟨s', rfl, h.knows.describes_of_mem hs'⟩

/-- A shared name has a symbol. -/
theorem get?_of_isShared (h : MadeOf is t m) (hs : is.isShared name = true) :
    ∃ s, m.symbols.get? name = some s ∧ s.isLocal = false := by
  have hd := h.knows.describes name
  have hlocal : (t.meaning name).isLocal = false := by rw [hd.isLocal, hs]; rfl
  cases hg : t.get? name with
  | none =>
    rw [SymbolTable.meaning_of_none hg] at hlocal
    cases hlocal
  | some s =>
    rw [SymbolTable.meaning_of_some hg] at hlocal
    refine ⟨{ s with uses := [] }, ?_, hlocal⟩
    rw [h.symbols]
    exact h.knows.tidy.get?_settled hg

theorem isShared_target (h : MadeOf is t m) {r : Reference} (hr : r ∈ is.references) :
    is.isShared (is.target r.symbol) = true := by
  unfold Program.target
  split
  · assumption
  · rename_i hlocal
    rcases h.known r hr with hshared | ⟨home, offset, x, hl, hx⟩
    · exact absurd hshared hlocal
    · rw [hl, Option.bind_some, hx]
      exact Program.isShared_eq_true.mpr (Or.inr (Or.inr (List.mem_of_getElem? hx)))

end MadeOf

namespace Compiled

theorem isSome_roles (h : Compiled is t m) (hs : is.isShared name = true) :
    (m.parts.roles name).isSome := by
  obtain ⟨s, hget, hlocal⟩ := h.get?_of_isShared hs
  exact Option.isSome_iff_exists.mpr ⟨_, (ObjectModule.roles_eq_some_iff h.tidy.distinct).mpr
    ⟨s, hget, hlocal, rfl⟩⟩

theorem mem_of_isSection (h : Compiled is t m) {s : Symbol} (hd : Describes is t name s)
    (hlocal : s.isLocal = false) (hsec : s.isSection = true) : name ∈ is.sectionNames := by
  rcases hd.isSection.mp hsec with rfl | hmem
  · rw [hd.isLocal, Bool.not_eq_false', Program.isShared_eq_true] at hlocal
    rcases hlocal with hexp | himp | hmem
    · exact absurd hexp h.exported
    · exact absurd himp h.imported
    · exact hmem
  · exact hmem

/-- A label has one flag, and a wanted one has no place. -/
theorem flags (h : Compiled is t m) {s : Symbol} (hd : Describes is t name s)
    (hlocal : s.isLocal = false) (hsec : s.isSection = false) :
    name ∉ is.sectionNames ∧ s.exported = !s.imported ∧ (s.imported = true → s.isDefined = false) := by
  have hno : name ∉ is.sectionNames := fun hmem => by
    have := hd.isSection.mpr (Or.inr hmem)
    rw [hsec] at this
    cases this
  have hexp := hd.exported
  have himp := hd.imported
  rw [or_iff_left hno] at hexp himp
  refine ⟨hno, ?_, fun hi => ?_⟩
  · cases hi : s.imported with
    | true =>
      have hnot : ¬ s.exported = true := fun he =>
        h.knows.coherent.exported_imported (hexp.mp he) (himp.mp hi)
      rw [Bool.not_eq_true] at hnot
      exact hnot
    | false =>
      rw [Symbol.isLocal, hi] at hlocal
      simpa using hlocal
  · exact hd.unlabelled (h.knows.coherent.imported_label (himp.mp hi)) hno

/-- The symbols that the module shares are plain. -/
theorem plain (h : Compiled is t m) {s : Symbol} (hs : m.symbols.get? name = some s)
    (hlocal : s.isLocal = false) : (LinkSymbol.ofSymbol m 0 s).Plain := by
  obtain ⟨s', rfl, hd⟩ := h.describes hs
  constructor
  · intro hsec
    have hmem := h.mem_of_isSection hd hlocal hsec
    have hsec' : s'.isSection = true := hsec
    exact ⟨hd.exported.mpr (Or.inr hmem), hd.imported.mpr (Or.inr hmem), if_pos hsec⟩
  · intro hsec
    exact (h.flags hd hlocal hsec).2.1
  · intro hsec himp
    have hdef := (h.flags hd hlocal hsec).2.2 himp
    have hsec' : ¬ s'.isSection = true := Bool.eq_false_iff.mp hsec
    have hdef' : ¬ s'.isDefined = true := Bool.eq_false_iff.mp hdef
    exact (if_neg hsec').trans (if_neg hdef')

/-- A label that the module gives to others is in one of its sections. -/
theorem home_of_given (h : Compiled is t m) {home : String} {v : UInt16}
    (hgiven : m.parts.roles name = some (.given (some home) v)) : home ∈ is.sectionNames := by
  obtain ⟨s, hs, hlocal, hrole⟩ := (ObjectModule.roles_eq_some_iff h.tidy.distinct).mp hgiven
  obtain ⟨hsec, -, hhome, -⟩ := ObjectModule.role_ofSymbol_eq_given.mp hrole
  obtain ⟨s', rfl, hd⟩ := h.describes hs
  obtain ⟨hno, -, -⟩ := h.flags hd hlocal hsec
  split at hhome
  · rename_i hdef
    obtain ⟨home', offset, x, -, hx, howner, -⟩ := hd.exists_label hdef hno
    have hname : m.symbols.nameOf? s'.owner = some home := by
      rw [h.tidy.byNumber?_eq] at hhome
      exact hhome
    rw [h.symbols, SymbolTable.nameOf?_settled, howner, Option.some.injEq] at hname
    exact hname ▸ List.mem_of_getElem? hx
  · cases hhome

/-- The module offers sound parts. -/
theorem sound (h : Compiled is t m) : m.parts.Sound where
  nodup := by
    rw [ObjectModule.parts, h.names]
    exact h.knows.coherent.nodup_sections
  area := by
    intro name
    rw [ObjectModule.roles_eq_some_iff h.tidy.distinct, ObjectModule.parts, h.names]
    constructor
    · rintro ⟨s, hs, hlocal, hrole⟩
      obtain ⟨s', rfl, hd⟩ := h.describes hs
      exact h.mem_of_isSection hd hlocal (ObjectModule.role_ofSymbol_eq_area.mp hrole)
    · intro hmem
      obtain ⟨s, hs, hlocal⟩ := h.get?_of_isShared (Program.isShared_eq_true.mpr (Or.inr (Or.inr hmem)))
      refine ⟨s, hs, hlocal, ObjectModule.role_ofSymbol_eq_area.mpr ?_⟩
      obtain ⟨s', rfl, hd⟩ := h.describes hs
      exact hd.isSection.mpr (Or.inr hmem)
  given := by
    intro name home v hgiven
    have hmem := h.home_of_given hgiven
    rwa [← h.names] at hmem
  symbols := by
    intro f hf r hr
    rw [ObjectModule.parts, h.sections] at hf
    obtain ⟨p, -, rfl⟩ := List.mem_map.mp hf
    obtain ⟨q, hq, rfl⟩ := List.mem_map.mp hr
    exact h.isSome_roles (h.isShared_target (List.mem_filter.mp hq).1)

end Compiled

/-- **An assembled module is proper**: its symbols are in order and its parts are sound. -/
theorem Assembled.proper (h : Assembled m) : m.Proper := by
  obtain ⟨is, t, hc, -⟩ := h.exists_compiled
  refine ⟨hc.tidy.distinct, fun s hs hlocal => ?_, hc.sound⟩
  exact hc.plain (hc.tidy.get?_eq_some_iff.mpr ⟨hs, rfl⟩) hlocal

/-- **The placeholders of an assembled module** lie inside their sections, one behind the other. -/
theorem Assembled.tight (h : Assembled m) : m.parts.Tight := by
  obtain ⟨is, t, -, htrans⟩ := h.exists_compiled
  constructor
  · intro f hf
    obtain ⟨home, hhome⟩ := List.mem_iff_getElem?.mp hf
    exact (htrans home f hhome).inside
  · intro f hf
    obtain ⟨home, hhome⟩ := List.mem_iff_getElem?.mp hf
    exact (htrans home f hhome).apart

/-- **The reserved name** is not shared by an assembled module. -/
theorem Assembled.reserved (h : Assembled m) : m.parts.roles Symbol.undefinedName = none := by
  obtain ⟨is, t, hc, -⟩ := h.exists_compiled
  cases hx : m.parts.roles Symbol.undefinedName with
  | none => rfl
  | some x =>
    obtain ⟨s, hs, hlocal, -⟩ := (ObjectModule.roles_eq_some_iff hc.tidy.distinct).mp hx
    obtain ⟨s', rfl, hd⟩ := hc.describes hs
    have hshared : is.isShared Symbol.undefinedName = true := by
      have hlocal' : s'.isLocal = false := hlocal
      rwa [hd.isLocal, Bool.not_eq_false'] at hlocal'
    rcases Program.isShared_eq_true.mp hshared with hexp | himp | hmem
    · exact absurd hexp hc.exported
    · exact absurd himp hc.imported
    · exact absurd hmem hc.knows.coherent.reserved_section

/-! ### Two modules -/

/-- A module is assembled if its source text says so. -/
theorem Assembled.of_text {src : String} (h : (assemble src).toOption = some m)
    (hfree : (counted (Text.lines src)).any (fun ls => decide
      (Symbol.undefinedName ∉ Program.exported (ls.flatMap SourceLine.items) ∧
        Symbol.undefinedName ∉ Program.imported (ls.flatMap SourceLine.items))) = true) :
    Assembled m := by
  have hm := ok_of_toOption h
  cases hls : counted (Text.lines src) with
  | none =>
    rw [hls] at hfree
    cases hfree
  | some ls =>
    rw [hls, Option.any_some, decide_eq_true_eq] at hfree
    exact ⟨src, ls, hls, hfree.1, hfree.2, hm⟩

/-- A module with a word for the address of another module's label. -/
def wantingModule : ObjectModule where
  symbols := ⟨#[Symbol.undefined, { name := "y", imported := true, number := 1 },
    { name := "code", owner := 2, exported := true, imported := true, number := 2, size := some 2 }]⟩
  sections := [⟨"code", #[0, 0], [⟨.symbolWord, 0, "y"⟩]⟩]

/-- A module that gives the label, behind a word. -/
def givingModule : ObjectModule where
  symbols := ⟨#[Symbol.undefined, { name := "y", owner := 2, value := 2, exported := true, number := 1 },
    { name := "code", owner := 2, exported := true, imported := true, number := 2, size := some 2 }]⟩
  sections := [⟨"code", #[7, 0], []⟩]

theorem assembled_wantingModule : Assembled wantingModule := by
  have htext : (assemble ".extern y\n.section code\n.word y").toOption = some wantingModule := by
    decide +kernel
  exact Assembled.of_text htext (by decide +kernel)

theorem assembled_givingModule : Assembled givingModule := by
  have htext : (assemble ".global y\n.section code\n.word 7\ny:").toOption = some givingModule := by
    decide +kernel
  exact Assembled.of_text htext (by decide +kernel)

theorem assembled_of_mem_two : ∀ m ∈ [wantingModule, givingModule], Assembled m := by
  intro m hm
  rcases List.mem_cons.mp hm with rfl | hm
  · exact assembled_wantingModule
  · exact List.mem_singleton.mp hm ▸ assembled_givingModule

end Sx16
