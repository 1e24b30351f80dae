/-
# Linking modules that were read from files

What a module offers does not depend on the order of its symbols or on their pending uses, and the
text of a module changes nothing else. So the modules that are read from files are linked as the
modules that were written to them, and the image that is read from a file starts the processor in
the same state.

Key definitions: `ObjectModule.Reordered`.
Key theorems: `ObjectModule.Reordered.parts_eq`, `ObjectModule.Reordered.proper`, `link_map_settled`,
`load_linked_files`.
-/
import Sx16.Proofs.Assembly.Written
import Sx16.Proofs.Image.ReadBack
import Sx16.Proofs.Link.Linked

namespace Sx16

variable {m m' : ObjectModule} {ms : List ObjectModule}

/-- `m'` has the sections of `m`, and its symbols in some order and without their pending uses. -/
structure ObjectModule.Reordered (m m' : ObjectModule) : Prop where
  sections : m'.sections = m.sections
  symbols : m'.symbols.toList.Perm (m.symbols.toList.map Symbol.withoutUses)

namespace ObjectModule
namespace Reordered

theorem mem_symbols (h : m.Reordered m') {s' : Symbol} :
    s' ∈ m'.symbols.toList ↔ ∃ s ∈ m.symbols.toList, s.withoutUses = s' := by
  rw [h.symbols.mem_iff, List.mem_map]

theorem distinct (h : m.Reordered m') (hm : m.symbols.Distinct) : m'.symbols.Distinct := by
  have hnames : (m'.symbols.toList.map Symbol.name).Perm (m.symbols.toList.map Symbol.name) := by
    refine (h.symbols.map Symbol.name).trans (List.Perm.of_eq ?_)
    rw [List.map_map]
    rfl
  exact SymbolTable.distinct_of_nodup (hnames.nodup_iff.mpr hm.nodup_names)

/-- A number stands for a symbol of the same name. -/
theorem map_name_byNumber? (h : m.Reordered m') (hm : m.symbols.Tidy) (n : Nat) :
    (m'.symbols.byNumber? n).map Symbol.name = (m.symbols.byNumber? n).map Symbol.name := by
  rw [hm.byNumber?_eq]
  cases hs' : m'.symbols.byNumber? n with
  | some s' =>
    have hmem : s' ∈ m'.symbols.toList := Array.mem_toList_iff.mpr (Array.mem_of_find?_eq_some hs')
    have hnumber : s'.number = n := by simpa using Array.find?_some hs'
    obtain ⟨s, hs, rfl⟩ := h.mem_symbols.mp hmem
    obtain ⟨i, hi⟩ := SymbolTable.mem_toList_iff.mp hs
    have hin : i = n := (hm.number hi).symm.trans hnumber
    rw [← hin, hi]
    rfl
  | none =>
    cases hs : m.symbols.byId? n with
    | none => rfl
    | some s =>
      have hmem : s.withoutUses ∈ m'.symbols.toList :=
        h.mem_symbols.mpr ⟨s, SymbolTable.mem_toList_iff.mpr ⟨n, hs⟩, rfl⟩
      have hne := Array.find?_eq_none.mp hs' s.withoutUses (Array.mem_toList_iff.mp hmem)
      exact absurd (beq_iff_eq.mpr (hm.number hs)) hne

theorem ofSymbol_withoutUses (h : m.Reordered m') (hm : m.symbols.Tidy) (s : Symbol) :
    LinkSymbol.ofSymbol m' 0 s.withoutUses = LinkSymbol.ofSymbol m 0 s := by
  unfold LinkSymbol.ofSymbol
  rw [h.map_name_byNumber? hm]
  rfl

/-- **What a module offers** does not depend on the order of its symbols. -/
theorem parts_eq (h : m.Reordered m') (hm : m.symbols.Tidy) : m'.parts = m.parts := by
  have hm' := h.distinct hm.distinct
  refine Parts.ext (funext fun name => Option.ext fun x => ?_) h.sections
  rw [roles_eq_some_iff hm', roles_eq_some_iff hm.distinct]
  constructor
  · rintro ⟨s', hs', hlocal, rfl⟩
    obtain ⟨hmem, rfl⟩ := hm'.get?_eq_some_iff.mp hs'
    obtain ⟨s, hs, rfl⟩ := h.mem_symbols.mp hmem
    exact ⟨s, hm.get?_eq_some_iff.mpr ⟨hs, rfl⟩, hlocal, by rw [h.ofSymbol_withoutUses hm]⟩
  · rintro ⟨s, hs, hlocal, rfl⟩
    obtain ⟨hmem, rfl⟩ := hm.get?_eq_some_iff.mp hs
    have hmem' : s.withoutUses ∈ m'.symbols.toList := h.mem_symbols.mpr ⟨s, hmem, rfl⟩
    exact ⟨s.withoutUses, hm'.get?_eq_some_iff.mpr ⟨hmem', rfl⟩, hlocal,
      by rw [h.ofSymbol_withoutUses hm]⟩

theorem proper (h : m.Reordered m') (hm : m.symbols.Tidy) (hproper : m.Proper) : m'.Proper where
  distinct := h.distinct hm.distinct
  plain s' hs' hlocal := by
    obtain ⟨s, hs, rfl⟩ := h.mem_symbols.mp hs'
    rw [h.ofSymbol_withoutUses hm]
    exact hproper.plain s hs hlocal
  sound := by
    rw [h.parts_eq hm]
    exact hproper.sound

end Reordered

/-- **A module that is read back** differs in the order of its symbols. -/
theorem Writable.reordered (h : m.Writable) : m.Reordered m.settled where
  sections := rfl
  symbols := by
    have hsettled : m.settled.symbols.toList =
        Symbol.undefined :: (sortByName m.others).map Symbol.withoutUses := by
      rw [h.settled.toList_symbols, others_settled]
    rw [hsettled, h.toList_symbols, List.map_cons]
    exact ((List.mergeSort_perm _ _).map Symbol.withoutUses).cons _

/-- Modules are read back from their texts one by one. -/
theorem mapM_ofText_text (h : ∀ m ∈ ms, m.Writable) :
    (ms.mapM fun m => ofText m.text) = .ok (ms.map settled) := by
  induction ms with
  | nil => rfl
  | cons m ms ih =>
    have hm := (h m List.mem_cons_self).ofText_text
    have hms := ih fun m' hm' => h m' (List.mem_cons_of_mem m hm')
    rw [List.mapM_cons, hm, hms]
    rfl

end ObjectModule

theorem Assembled.tidy (h : Assembled m) : m.symbols.Tidy := by
  obtain ⟨is, t, hc, -⟩ := h.exists_compiled
  exact hc.tidy

/-- **Modules that are read back** are linked like the modules that were written. -/
theorem link_map_settled (hms : ∀ m ∈ ms, Assembled m) (hwritable : ∀ m ∈ ms, m.Writable)
    (places : Named UInt16) (image : Image) :
    link (ms.map ObjectModule.settled) places = .ok image ↔ link ms places = .ok image := by
  have hproper : ∀ m ∈ ms.map ObjectModule.settled, m.Proper := List.forall_mem_map.mpr fun m hm =>
    (hwritable m hm).reordered.proper (hms m hm).tidy (hms m hm).proper
  have hparts : (ms.map ObjectModule.settled).map ObjectModule.parts =
      ms.map ObjectModule.parts := by
    rw [List.map_map]
    exact List.map_congr_left fun m hm => (hwritable m hm).reordered.parts_eq (hms m hm).tidy
  rw [link_eq_ok_iff hproper, link_eq_ok_iff fun m hm => (hms m hm).proper, hparts]

/-- **Going through files changes nothing**: the modules read from the texts of assembled modules are
linked just if these are, and the image read from the text of the image then starts the processor in
the state in which the image of the modules themselves starts it. Symbols are numbered with 32 bits,
so no module can have more of them than that. -/
theorem load_linked_files (hms : ∀ m ∈ ms, Assembled m)
    (hsize : ∀ m ∈ ms, m.symbols.size ≤ UInt32.size) (places : Named UInt16) :
    ∃ ms', (ms.mapM fun m => ObjectModule.ofText m.text) = .ok ms' ∧
      ((∃ image, link ms places = .ok image) ↔ ∃ image', link ms' places = .ok image') ∧
      ∀ image image', link ms places = .ok image → link ms' places = .ok image' →
        ∃ read, Image.ofText image'.text = .ok read ∧ Cpu.load read = Cpu.load image := by
  have hwritable : ∀ m ∈ ms, m.Writable := fun m hm => (hms m hm).writable (hsize m hm)
  have hlink := link_map_settled hms hwritable places
  refine ⟨ms.map ObjectModule.settled, ObjectModule.mapM_ofText_text hwritable,
    exists_congr fun image => (hlink image).symm, fun image image' h h' => ?_⟩
  have himage : image' = image := by
    have h'' := (hlink image').mp h'
    rw [h] at h''
    exact (Except.ok.inj h'').symm
  subst himage
  have hpadded := image'.padded_storeAll_blocks
  exact ⟨_, image'.ofText_text, Cpu.load_congr hpadded.getD_get? hpadded.top⟩

/-- A module that wants a label and one that gives it. -/
theorem load_linked_files_of_two : ∃ ms' image image' read,
    ([wantingModule, givingModule].mapM fun m => ObjectModule.ofText m.text) = .ok ms' ∧
      link [wantingModule, givingModule] [("code", 0x4000)] = .ok image ∧
      link ms' [("code", 0x4000)] = .ok image' ∧
      Image.ofText image'.text = .ok read ∧ Cpu.load read = Cpu.load image := by
  have hlink : (link [wantingModule, givingModule] [("code", 0x4000)]).toOption.isSome = true := by
    decide +kernel
  have hms : ∀ m ∈ [wantingModule, givingModule], Assembled m := by
    intro m hm
    rcases List.mem_cons.mp hm with rfl | hm
    · exact assembled_wantingModule
    · exact List.mem_singleton.mp hm ▸ assembled_givingModule
  have hsize : ∀ m ∈ [wantingModule, givingModule], m.symbols.size ≤ UInt32.size := by decide +kernel
  cases h : link [wantingModule, givingModule] [("code", 0x4000)] with
  | error e =>
    rw [h] at hlink
    cases hlink
  | ok image =>
    obtain ⟨ms', hread, hiff, hload⟩ := load_linked_files hms hsize [("code", 0x4000)]
    obtain ⟨image', h'⟩ := hiff.mp ⟨image, h⟩
    obtain ⟨read, hof, heq⟩ := hload image image' h h'
    exact ⟨ms', image, image', read, hread, rfl, h', hof, heq⟩

end Sx16
