/-
# Joining modules without a common section

If no section name occurs in two modules, nothing is joined: each section is a segment of its own, no
label moves, and adding modules is merging their symbols alone. The symbols of any two modules have to
be compatible, and that is enough; it does not matter in which order the modules come. What is kept of
the symbols of a name does depend on the order, but in two linkages that are resolved it stands for
the same address.

Key definitions: `LinkSymbol.Standing`, `ObjectModule.Agrees`, `ObjectModule.SharesNoSection`,
`LinkSymbol.Covers`, `Linkage.Holds`, `LinkSymbol.Matches`.
Key theorems: `standard_of_assemble`, `Linkage.Holds.run_add`, `Linkage.exists_run_addAll_iff`,
`Linkage.holds_of_run_addAll`, `Linkage.Holds.matches`.
-/
import Sx16.Proofs.Link.Gathered

namespace Sx16

/-! ### How symbols are shared -/

/-- The ways in which a symbol is shared: a section both ways, and a label one way. The reserved name
is that of a section, but a source text can share it one way, as if it were a label. -/
structure LinkSymbol.Standing (s : LinkSymbol) : Prop where
  area : s.isSection = true → s.name ≠ Symbol.undefinedName → s.exported = true ∧ s.imported = true
  oneWay : s.isSection = false ∨ s.name = Symbol.undefinedName → s.exported = !s.imported

/-- A regular module whose shared symbols are shared as they should be. -/
structure ObjectModule.Standard (m : ObjectModule) : Prop extends m.Regular where
  standing : ∀ s ∈ m.declared 0, s.Standing

/-- **An assembled module** shares its symbols as it should. -/
theorem standard_of_assemble {src : String} {m : ObjectModule} (hm : assemble src = .ok m) :
    m.Standard := by
  have hregular := regular_of_assemble hm
  refine ⟨hregular, fun k hk => ?_⟩
  obtain ⟨s, hs, hlocal, rfl⟩ := Linkage.exists_of_mem_declared hk
  obtain ⟨ls, a, hls, -, -⟩ := exists_run_of_assemble hm
  obtain ⟨b, t, -, hmade⟩ := madeOf_of_assemble hls hm
  obtain ⟨s', rfl, hd⟩ := hmade.describes (hregular.tidy.get?_eq_some_iff.mpr ⟨hs, rfl⟩)
  have hcoherent := hmade.knows.coherent
  constructor
  · intro hsec hname
    have hmem := (hd.isSection.mp hsec).resolve_left hname
    exact ⟨hd.exported.mpr (Or.inr hmem), hd.imported.mpr (Or.inr hmem)⟩
  · intro hone
    have hno : s'.name ∉ Program.sectionNames (ls.flatMap SourceLine.items) := by
      intro hmem
      rcases hone with hsec | hname
      · exact Bool.false_ne_true (hsec.symm.trans (hd.isSection.mpr (Or.inr hmem)))
      · have hreserved : s'.name = Symbol.undefinedName := hname
        exact hcoherent.reserved_section (hreserved ▸ hmem)
    have hexp := hd.exported
    have himp := hd.imported
    simp only [or_iff_left hno] at hexp himp
    change s'.exported = !s'.imported
    have hshared : (!s'.exported && !s'.imported) = false := hlocal
    have hnot : ¬ (s'.exported = true ∧ s'.imported = true) :=
      fun hboth => hcoherent.exported_imported (hexp.mp hboth.1) (himp.mp hboth.2)
    revert hshared hnot
    cases s'.exported <;> cases s'.imported <;> simp

/-! ### Which symbol is kept -/

/-- A symbol that can be kept in place of another: it has the same name and kind, it is a definition if
the other one is, and wanted only if the other one is. -/
structure LinkSymbol.Covers (k s : LinkSymbol) : Prop where
  name : k.name = s.name
  kind : k.isSection = s.isSection
  given : s.isOnlyExported = true → k.isOnlyExported = true
  wanted : k.isOnlyImported = true → s.isOnlyImported = true

namespace LinkSymbol

variable {k s s' : LinkSymbol}

theorem Covers.refl (s : LinkSymbol) : s.Covers s := ⟨rfl, rfl, id, id⟩

theorem Covers.trans (h : k.Covers s) (h' : s.Covers s') : k.Covers s' where
  name := h.name.trans h'.name
  kind := h.kind.trans h'.kind
  given hs := h.given (h'.given hs)
  wanted hk := h'.wanted (h.wanted hk)

/-- What is compatible with a symbol is so with those that it covers. -/
theorem Covers.compatible (h : k.Covers s) (hc : Linkage.Compatible k s') : Linkage.Compatible s s' :=
  ⟨h.kind.symm.trans hc.1, fun hboth => hc.2 ⟨h.given hboth.1, hboth.2⟩⟩

/-- A symbol that is shared as it should be is shared both ways, or only given, or only wanted; symbols
of one name and kind are both of the first sort, or neither is. -/
theorem Standing.both_iff (hk : k.Standing) (hs : s.Standing) (hname : k.name = s.name)
    (hkind : k.isSection = s.isSection) :
    (k.exported = true ∧ k.imported = true ∧ s.exported = true ∧ s.imported = true) ∨
      (k.exported = !k.imported ∧ s.exported = !s.imported) := by
  by_cases harea : k.isSection = true ∧ k.name ≠ Symbol.undefinedName
  · obtain ⟨hke, hki⟩ := hk.area harea.1 harea.2
    obtain ⟨hse, hsi⟩ := hs.area (hkind ▸ harea.1) (hname ▸ harea.2)
    exact Or.inl ⟨hke, hki, hse, hsi⟩
  · have hone : k.isSection = false ∨ k.name = Symbol.undefinedName := by
      rw [not_and_or, Bool.not_eq_true, not_not] at harea
      exact harea
    exact Or.inr ⟨hk.oneWay hone, hs.oneWay (hkind ▸ hname ▸ hone)⟩

theorem Standing.isOnlyExported (hs : s.Standing) (hsec : s.isSection = false)
    (hno : s.isOnlyImported = false) : s.isOnlyExported = true := by
  have hone := hs.oneWay (Or.inl hsec)
  revert hno
  unfold isOnlyImported LinkSymbol.isOnlyExported
  rw [hone]
  cases s.imported <;> simp

/-- **The symbol that is kept** of two compatible ones covers both. -/
theorem pick_covers (hk : k.Standing) (hs : s.Standing) (hname : k.name = s.name)
    (hc : Linkage.Compatible k s) : (k.pick s).Covers k ∧ (k.pick s).Covers s := by
  obtain ⟨hkind, honce⟩ := hc
  have hboth := hk.both_iff hs hname hkind
  unfold pick
  by_cases hpick : (k.isOnlyImported && s.isOnlyExported) = true
  · rw [if_pos hpick]
    obtain ⟨hwanted, hgiven⟩ := Bool.and_eq_true_iff.mp hpick
    refine ⟨⟨hname.symm, hkind.symm, fun _ => hgiven, fun _ => hwanted⟩, Covers.refl s⟩
  · rw [if_neg hpick]
    refine ⟨Covers.refl k, hname, hkind, fun hgiven => ?_, fun hwanted => ?_⟩
    · revert hgiven hpick honce
      unfold isOnlyExported isOnlyImported
      rcases hboth with ⟨hke, hki, hse, hsi⟩ | ⟨hke, hse⟩
      · simp [hke, hki, hse, hsi]
      · rw [hke, hse]
        cases k.imported <;> cases s.imported <;> simp
    · revert hwanted hpick honce
      unfold isOnlyExported isOnlyImported
      rcases hboth with ⟨hke, hki, hse, hsi⟩ | ⟨hke, hse⟩
      · simp [hke, hki, hse, hsi]
      · rw [hke, hse]
        cases k.imported <;> cases s.imported <;> simp

end LinkSymbol

/-! ### Modules side by side -/

namespace ObjectModule

variable {m m' : ObjectModule}

/-- Symbols that two modules share under one name can stand for one. -/
def Agrees (m m' : ObjectModule) : Prop :=
  ∀ s ∈ m.declared 0, ∀ s' ∈ m'.declared 0, s.name = s'.name → Linkage.Compatible s s'

/-- No section name occurs in both modules. -/
def SharesNoSection (m m' : ObjectModule) : Prop :=
  ∀ f ∈ m.sections, ∀ g ∈ m'.sections, f.name ≠ g.name

theorem Agrees.symm (h : m.Agrees m') : m'.Agrees m := by
  intro s hs s' hs' hname
  obtain ⟨hkind, honce⟩ := h s' hs' s hs hname.symm
  exact ⟨hkind.symm, fun hboth => honce ⟨hboth.2, hboth.1⟩⟩

instance : Std.Symm Agrees := ⟨fun _ _ => Agrees.symm⟩

theorem SharesNoSection.symm (h : m.SharesNoSection m') : m'.SharesNoSection m :=
  fun f hf g hg hname => h g hg f hf hname.symm

/-- A section that is not moved stays as it is. -/
theorem shifted_zero (m : ObjectModule) (f : SectionData) : m.shifted (fun _ => 0) f = f := by
  have hbytes : Linkage.rebased m (fun _ => 0) f = f.bytes := by
    unfold Linkage.rebased
    refine List.foldlRecOn (motive := fun bs => bs = f.bytes) f.relocations _ rfl fun bs h r _ => ?_
    rw [addWord_zero, ite_self]
    exact h
  have hoffsets : f.relocations.map (fun r => { r with offset := r.offset + 0 }) = f.relocations := by
    simp
  exact congrArg₂ (SectionData.mk f.name) hbytes hoffsets

theorem mem_declared_iff {origin : Nat} {k : LinkSymbol} :
    k ∈ m.declared origin ↔ ∃ s ∈ m.declared 0, k = { s with origin } := by
  have hmap : m.declared origin = (m.declared 0).map fun s => { s with origin } := by
    unfold declared
    rw [List.map_map]
    rfl
  rw [hmap, List.mem_map]
  exact exists_congr fun s => and_congr_right fun _ => eq_comm

end ObjectModule

namespace Linkage

/-- A linkage has the sections of some modules, as they are, and for every symbol that a module shares
one that covers it. -/
structure Holds (ms : List ObjectModule) (l : Linkage) : Prop where
  keys : (l.symbols.map LinkSymbol.name).Nodup
  pieces : l.parts.pieces = ms.flatMap ObjectModule.sections
  source : ∀ k ∈ l.symbols, ∃ m ∈ ms, ∃ s ∈ m.declared 0, k = { s with origin := k.origin }
  covered : ∀ m ∈ ms, ∀ s ∈ m.declared 0, ∃ k ∈ l.symbols, k.Covers s

variable {l l1 l' : Linkage} {ms ms' : List ObjectModule} {m : ObjectModule} {k k' : LinkSymbol}

theorem holds_empty : Holds [] {} where
  keys := List.nodup_nil
  pieces := rfl
  source := nofun
  covered := nofun

namespace Holds

theorem standing (h : l.Holds ms) (hms : ∀ m ∈ ms, m.Standard) (hk : k ∈ l.symbols) : k.Standing := by
  obtain ⟨m, hm, s, hs, heq⟩ := h.source k hk
  rw [heq]
  have hstanding := (hms m hm).standing s hs
  exact ⟨hstanding.area, hstanding.oneWay⟩

theorem home_of_isSection (h : l.Holds ms) (hk : k ∈ l.symbols) (hsec : k.isSection = true) :
    k.home = some k.name := by
  obtain ⟨m, -, s, hs, heq⟩ := h.source k hk
  obtain ⟨x, -, -, rfl⟩ := exists_of_mem_declared hs
  rw [heq] at hsec ⊢
  exact if_pos hsec

/-- No section of a new name is moved. -/
theorem base_eq_zero (h : l.Holds ms) (hsep : ∀ m' ∈ ms, m'.SharesNoSection m) :
    l.base m = fun _ => 0 := by
  funext name
  by_cases hname : name ∈ m.sections.map SectionData.name
  · have hnew : name ∉ l.parts.pieces.map SectionData.name := by
      intro hold
      obtain ⟨g, hg, rfl⟩ := List.mem_map.mp hname
      obtain ⟨f, hf, hfg⟩ := List.mem_map.mp hold
      rw [h.pieces] at hf
      obtain ⟨m', hm', hf⟩ := List.mem_flatMap.mp hf
      exact hsep m' hm' f hf g hg hfg
    rw [base_eq l hname]
    exact congrArg UInt16.ofNat (sizeIn_eq_zero hnew)
  · exact Linkage.base_eq_zero l hname

/-- The symbols of a new module can be merged just if they agree with those of all modules before. -/
theorem exists_run_add_iff (h : l.Holds ms) (hm : m.Standard) :
    (∃ l1, (add m).run l = .ok () l1) ↔ ∀ m' ∈ ms, m'.Agrees m := by
  have hadds : (∃ l1, (add m).run l = .ok () l1) ↔ ∃ l0,
      (mergeAll (m.declared l.modules)).run { l with modules := l.modules + 1 } = .ok () l0 := by
    rw [run_add_eq]
    cases (mergeAll (m.declared l.modules)).run { l with modules := l.modules + 1 } with
    | error e l0 => exact ⟨nofun, nofun⟩
    | ok u l0 => exact ⟨fun _ => ⟨l0, rfl⟩, fun _ => ⟨_, rfl⟩⟩
  rw [hadds, exists_run_mergeAll_iff (l := { l with modules := l.modules + 1 }) h.keys
    (ObjectModule.nodup_declared hm.tidy.distinct l.modules)]
  constructor
  · intro hcompatible m' hm' s hs s' hs' hname
    obtain ⟨k, hk, hcovers⟩ := h.covered m' hm' s hs
    have hentry := entryOf_of_mem h.keys hk
    rw [hcovers.name, hname] at hentry
    have hnew : { s' with origin := l.modules } ∈ m.declared l.modules :=
      ObjectModule.mem_declared_iff.mpr ⟨s', hs', rfl⟩
    exact hcovers.compatible (hcompatible _ hnew k hentry)
  · intro hagrees s hs k hentry
    obtain ⟨s', hs', rfl⟩ := ObjectModule.mem_declared_iff.mp hs
    obtain ⟨m', hm', s0, hs0, heq⟩ := h.source k (mem_of_entryOf hentry)
    have hname := key_of_entryOf hentry
    rw [heq] at hname ⊢
    exact hagrees m' hm' s0 hs0 s' hs' hname

/-- What is kept of a symbol of the linkage and one of a module covers both. -/
theorem pick_covers (h : l.Holds ms) (hms : ∀ m ∈ ms, m.Standard) (hm : m.Standard) {s : LinkSymbol}
    (hk : k ∈ l.symbols) (hs : s ∈ m.declared l.modules) (hname : k.name = s.name)
    (hcompatible : Compatible k s) : (k.pick s).Covers k ∧ (k.pick s).Covers s := by
  obtain ⟨s0, hs0, rfl⟩ := ObjectModule.mem_declared_iff.mp hs
  have hstanding := hm.standing s0 hs0
  exact LinkSymbol.pick_covers (h.standing hms hk) ⟨hstanding.area, hstanding.oneWay⟩ hname hcompatible

/-- **A linkage and a module** are covered when their symbols are merged. -/
theorem exists_covers (h : l.Holds ms) (hms : ∀ m ∈ ms, m.Standard) (hm : m.Standard)
    (hcompatible : ∀ s ∈ m.declared l.modules, ∀ k,
      entryOf LinkSymbol.name l.symbols s.name = some k → Compatible k s) {s : LinkSymbol}
    (hs : s ∈ l.symbols ∨ s ∈ m.declared l.modules) :
    ∃ k ∈ upsertAll LinkSymbol.name LinkSymbol.pick l.symbols (m.declared l.modules), k.Covers s := by
  have hn := ObjectModule.nodup_declared hm.tidy.distinct l.modules
  have hentry : entryOf LinkSymbol.name
      (upsertAll LinkSymbol.name LinkSymbol.pick l.symbols (m.declared l.modules)) s.name = _ :=
    entryOf_upsertAll LinkSymbol.pick_key hn s.name
  rcases hs with hs | hs
  · rw [entryOf_of_mem h.keys hs] at hentry
    cases hnew : entryOf LinkSymbol.name (m.declared l.modules) s.name with
    | none =>
      rw [hnew] at hentry
      exact ⟨s, mem_of_entryOf hentry, .refl s⟩
    | some x =>
      rw [hnew] at hentry
      have hx := mem_of_entryOf hnew
      have hname := key_of_entryOf hnew
      have hknown := entryOf_of_mem h.keys hs
      rw [← hname] at hknown
      have hcovers := h.pick_covers hms hm hs hx hname.symm (hcompatible x hx s hknown)
      exact ⟨s.pick x, mem_of_entryOf hentry, hcovers.1⟩
  · rw [entryOf_of_mem hn hs] at hentry
    cases hold : entryOf LinkSymbol.name l.symbols s.name with
    | none =>
      rw [hold] at hentry
      exact ⟨s, mem_of_entryOf hentry, .refl s⟩
    | some k =>
      rw [hold] at hentry
      have hcovers := h.pick_covers hms hm (mem_of_entryOf hold) hs (key_of_entryOf hold)
        (hcompatible s hs k hold)
      exact ⟨k.pick s, mem_of_entryOf hentry, hcovers.2⟩

/-- **A module with new sections** is added to what the linkage holds. -/
theorem run_add (h : l.Holds ms) (hms : ∀ m ∈ ms, m.Standard) (hm : m.Standard)
    (hsep : ∀ m' ∈ ms, m'.SharesNoSection m) (hrun : (add m).run l = .ok () l1) :
    l1.Holds (ms ++ [m]) := by
  have hbase := h.base_eq_zero hsep
  obtain ⟨hsymbols, hcompatible⟩ := symbols_of_run_add h.keys hm.toRegular hrun
  rw [hbase, List.map_congr_left fun s _ => s.movedBy_zero l.modules, List.map_id'] at hsymbols
  obtain ⟨l0, -, -, hpieces, -⟩ := exists_of_run_add hm.neat.nodup hrun
  rw [hbase, List.map_congr_left fun f _ => m.shifted_zero f, List.map_id'] at hpieces
  have hnew : ∀ g ∈ m.sections, g.name ∉ l.parts.pieces.map SectionData.name := by
    intro g hg hold
    obtain ⟨f, hf, hfg⟩ := List.mem_map.mp hold
    rw [h.pieces] at hf
    obtain ⟨m', hm', hf⟩ := List.mem_flatMap.mp hf
    exact hsep m' hm' f hf g hg hfg
  refine ⟨?_, ?_, fun k hk => ?_, fun m' hm' s hs => ?_⟩
  · rw [hsymbols]
    exact nodup_upsertAll LinkSymbol.pick_key h.keys
  · rw [hpieces, attachAll, upsertAll_of_not_mem hm.neat.nodup hnew, h.pieces, List.flatMap_append,
      List.flatMap_singleton]
  · rw [hsymbols] at hk
    rcases mem_upsertAll_pick hk with hk | hk
    · obtain ⟨m', hm', hs⟩ := h.source k hk
      exact ⟨m', List.mem_append_left _ hm', hs⟩
    · obtain ⟨s, hs, rfl⟩ := ObjectModule.mem_declared_iff.mp hk
      exact ⟨m, List.mem_append_right _ List.mem_cons_self, s, hs, rfl⟩
  · rw [hsymbols]
    rcases List.mem_append.mp hm' with hm' | hm'
    · obtain ⟨k, hk, hcovers⟩ := h.covered m' hm' s hs
      obtain ⟨k', hk', hcovers'⟩ := h.exists_covers hms hm hcompatible (Or.inl hk)
      exact ⟨k', hk', hcovers'.trans hcovers⟩
    · obtain rfl := List.mem_singleton.mp hm'
      have hs' : { s with origin := l.modules } ∈ m'.declared l.modules :=
        ObjectModule.mem_declared_iff.mpr ⟨s, hs, rfl⟩
      obtain ⟨k', hk', hcovers'⟩ := h.exists_covers hms hm hcompatible (Or.inr hs')
      exact ⟨k', hk', hcovers'.trans ⟨rfl, rfl, id, id⟩⟩

end Holds

/-! ### Adding all modules -/

/-- **Modules that were added** are held. -/
theorem holds_of_run_addAll (hms : ∀ m ∈ ms, m.Standard)
    (hsep : ms.Pairwise ObjectModule.SharesNoSection) (hrun : (addAll ms).run {} = .ok () l) :
    l.Holds ms := by
  induction ms using List.reverseRecOn generalizing l with
  | nil =>
    cases hrun
    exact holds_empty
  | append_singleton ms m ih =>
    obtain ⟨hbefore, -, hlast⟩ := List.pairwise_append.mp hsep
    obtain ⟨l0, hrun0, hadd⟩ := run_addAll_concat_eq_ok_iff.mp hrun
    have hms0 := fun m' hm' => hms m' (List.mem_append_left _ hm')
    exact (ih hms0 hbefore hrun0).run_add hms0 (hms m (List.mem_append_right _ List.mem_cons_self))
      (fun m' hm' => hlast m' hm' m List.mem_cons_self) hadd

/-- **Modules without a common section** can be added just if any two of them agree. -/
theorem exists_run_addAll_iff (hms : ∀ m ∈ ms, m.Standard)
    (hsep : ms.Pairwise ObjectModule.SharesNoSection) :
    (∃ l, (addAll ms).run {} = .ok () l) ↔ ms.Pairwise ObjectModule.Agrees := by
  induction ms using List.reverseRecOn with
  | nil => exact ⟨fun _ => .nil, fun _ => ⟨{}, rfl⟩⟩
  | append_singleton ms m ih =>
    obtain ⟨hbefore, -, -⟩ := List.pairwise_append.mp hsep
    have hms0 := fun m' hm' => hms m' (List.mem_append_left _ hm')
    have hm := hms m (List.mem_append_right _ List.mem_cons_self)
    have hsplit : (ms ++ [m]).Pairwise ObjectModule.Agrees ↔
        ms.Pairwise ObjectModule.Agrees ∧ ∀ m' ∈ ms, m'.Agrees m := by
      simp [List.pairwise_append]
    rw [hsplit, ← ih hms0 hbefore]
    constructor
    · rintro ⟨l, hrun⟩
      obtain ⟨l0, hrun0, hadd⟩ := run_addAll_concat_eq_ok_iff.mp hrun
      have hholds := holds_of_run_addAll hms0 hbefore hrun0
      exact ⟨⟨l0, hrun0⟩, (hholds.exists_run_add_iff hm).mp ⟨l, hadd⟩⟩
    · rintro ⟨⟨l0, hrun0⟩, hagrees⟩
      have hholds := holds_of_run_addAll hms0 hbefore hrun0
      obtain ⟨l, hadd⟩ := (hholds.exists_run_add_iff hm).mpr hagrees
      exact ⟨l, run_addAll_concat_eq_ok_iff.mpr ⟨l0, hrun0, hadd⟩⟩

end Linkage

/-! ### One address for a name -/

/-- A resolved symbol that has the same address as another wherever segments start: sections have it
from their names, and labels are in the same place. -/
structure LinkSymbol.Matches (k k' : LinkSymbol) : Prop where
  kind : k'.isSection = k.isSection
  label : k.isSection = false → k'.value = k.value ∧ k'.home = k.home
  resolved : (k'.isOnlyImported || k'.home.isNone) = false

namespace Linkage

variable {l l' : Linkage} {ms ms' : List ObjectModule} {m m' : ObjectModule} {k k' : LinkSymbol}

/-- A label that is declared for others is declared by one symbol only. -/
theorem eq_of_isOnlyExported (hms : ∀ m ∈ ms, m.Standard)
    (hagree : ms.Pairwise ObjectModule.Agrees) (hm : m ∈ ms) (hm' : m' ∈ ms) {s s' : LinkSymbol}
    (hs : s ∈ m.declared 0) (hs' : s' ∈ m'.declared 0) (hname : s.name = s'.name)
    (hgiven : s.isOnlyExported = true) (hgiven' : s'.isOnlyExported = true) : s = s' := by
  by_cases heq : m = m'
  · subst heq
    have hn := ObjectModule.nodup_declared (hms m hm).tidy.distinct 0
    exact List.inj_on_of_nodup_map hn hs hs' hname
  · have hcompatible := hagree.forall hm hm' heq s hs s' hs' hname
    exact absurd ⟨hgiven, hgiven'⟩ hcompatible.2

/-- **Linkages of the same modules** have matching symbols where one of them is resolved. -/
theorem Holds.matches (h : l.Holds ms) (h' : l'.Holds ms') (hp : ms.Perm ms')
    (hms : ∀ m ∈ ms, m.Standard) (hagree : ms.Pairwise ObjectModule.Agrees) (hk : k ∈ l.symbols)
    (hk' : k' ∈ l'.symbols) (hname : k'.name = k.name)
    (hres : (k.isOnlyImported || k.home.isNone) = false) : k.Matches k' := by
  obtain ⟨hgiven, hhome⟩ := Bool.or_eq_false_iff.mp hres
  obtain ⟨m, hm, s, hs, hks⟩ := h.source k hk
  obtain ⟨m', hm', s', hs', hks'⟩ := h'.source k' hk'
  obtain ⟨k'', hk'', hcovers⟩ := h'.covered m (hp.mem_iff.mp hm) s hs
  have hsname : s.name = k.name := by rw [hks]
  have heq : k'' = k' :=
    List.inj_on_of_nodup_map h'.keys hk'' hk' (hcovers.name.trans (hsname.trans hname.symm))
  subst heq
  have hkind : k''.isSection = k.isSection := by rw [hcovers.kind, hks]
  have hgiven' : k''.isOnlyImported = false := by
    by_contra hwanted
    have hsw := hcovers.wanted (Bool.not_eq_false _ ▸ hwanted)
    rw [hks] at hgiven
    exact Bool.false_ne_true (hgiven.symm.trans hsw)
  by_cases hsec : k.isSection = true
  · have hown := h'.home_of_isSection hk' (hkind.trans hsec)
    refine ⟨hkind, fun hno => absurd (hsec.symm.trans hno) nofun, ?_⟩
    rw [hgiven', hown]
    rfl
  · rw [Bool.not_eq_true] at hsec
    -- Resolved labels are definitions, and a label has one definition.
    have hms' : ∀ m ∈ ms', m.Standard := fun m hm => hms m (hp.mem_iff.mpr hm)
    have hexp := (h.standing hms hk).isOnlyExported hsec hgiven
    have hexp' := (h'.standing hms' hk'').isOnlyExported (hkind.trans hsec) hgiven'
    have hsame : s = s' := by
      refine eq_of_isOnlyExported hms hagree hm (hp.mem_iff.mpr hm') hs hs' ?_ ?_ ?_
      · rw [hsname, ← hname, hks']
      · rwa [hks] at hexp
      · rwa [hks'] at hexp'
    subst hsame
    have hhome' : k''.home = k.home := by rw [hks', hks]
    refine ⟨hkind, fun _ => ⟨by rw [hks', hks], hhome'⟩, ?_⟩
    rw [hgiven', hhome', hhome]
    rfl

end Linkage
end Sx16
