/-
# What a linkage gathers

When modules are added one after the other, every section of a name goes behind those of the modules
before, its relocations move by the bytes in front of it, and so does every label that a module gives.
Offsets and values have 16 bits and nothing here checks that they fit, so all of this is up to whole
turns of 65536. The modules are any that were assembled; they may declare the reserved name too.

Key definitions: `ObjectModule.Regular`, `relocationsIn`, `fragmentsOf`, `Linkage.Stacks`,
`Linkage.Gathers`.
Key theorems: `regular_of_assemble`, `Linkage.exists_run_mergeAll_iff`, `Linkage.Stacks.run_add`,
`Linkage.Gathers.run_add`, `Linkage.gathers_of_run_addAll`.
-/
import Sx16.Proofs.Assembly.Ordered
import Sx16.Proofs.Relative.Linked

namespace Sx16

/-! ### Assembled modules -/

/-- A module whose symbols and sections agree, and in which only the reserved name may be shared against
the rules for sections. -/
structure ObjectModule.Regular (m : ObjectModule) : Prop where
  tidy : m.symbols.Tidy
  sections : m.symbols.sectionNames = Symbol.undefinedName :: m.sections.map SectionData.name
  shared : ∀ s ∈ m.symbols.toList, s.isSection = true → s.name ≠ Symbol.undefinedName →
    s.isLocal = false
  oneWay : ∀ s ∈ m.symbols.toList, s.isSection = false → s.exported = true → s.imported = false
  placed : ∀ s ∈ m.symbols.toList, s.isSection = false → s.isDefined = true → ∃ f ∈ m.sections,
    (m.symbols.byNumber? s.owner).map Symbol.name = some f.name ∧ s.value.toNat ≤ f.bytes.size
  inside : ∀ f ∈ m.sections, ∀ r ∈ f.relocations, r.offset.toNat + 2 ≤ f.bytes.size

theorem Assembly.Ordered.feedAll {a b : Assembly} {ts : List String} (h : a.Ordered)
    (hrun : (Assembly.feedAll ts).run a = .ok () b) : b.Ordered := by
  induction ts generalizing a with
  | nil =>
    cases hrun
    exact h
  | cons t ts ih =>
    obtain ⟨flow, c, hfeed, hrest⟩ := ok_of_run_bind hrun
    have hc : c = a.fed t := by rw [Assembly.fed, hfeed]
    have hord : c.Ordered := hc ▸ h.fed t
    cases flow with
    | finished =>
      cases hrest
      exact hord
    | more => exact ih hord hrest

/-- **An assembled module** is regular, whatever it declares. -/
theorem regular_of_assemble {src : String} {m : ObjectModule} (hm : assemble src = .ok m) :
    m.Regular := by
  have hinside := (neat_of_assemble hm).inside
  obtain ⟨a, hord, hfin⟩ : ∃ a : Assembly, a.Ordered ∧ a.finish = .ok m := by
    unfold assemble at hm
    split at hm
    · cases hm
    · rename_i a hrun
      exact ⟨a, Assembly.Ordered.feedAll ordered_start hrun, hm⟩
  have hfinished := hord.finish hfin
  have hc := hord.close
  obtain ⟨rs, -, -, rfl⟩ := Assembly.finish_eq_ok_iff.mp hfin
  -- A symbol of the module is one of the run without its pending uses.
  have hsymbol : ∀ {s}, s ∈ a.closeSection.symbols.settled.toList →
      ∃ s' : Symbol, s = { s' with uses := [] } ∧ s'.InOrder a.closeSection := by
    intro s hs
    obtain ⟨s', hs', rfl⟩ := SymbolTable.mem_settled.mp hs
    exact ⟨s', rfl, hc.symbols s' hs'⟩
  refine ⟨hc.tidy.settled, hfinished.names, fun s hs hsec hname => ?_, fun s hs hsec hexp => ?_,
    fun s hs hsec hdef => ?_, hinside⟩
  · obtain ⟨s', rfl, hin⟩ := hsymbol hs
    obtain ⟨hexp, -, -⟩ := hin.ofSection hsec hname
    simp [Symbol.isLocal, hexp]
  · obtain ⟨s', rfl, hin⟩ := hsymbol hs
    exact hin.notBoth hsec hexp
  · obtain ⟨s', rfl, hin⟩ := hsymbol hs
    obtain ⟨f, hf, o, ho, -, honame, hvalue⟩ := hin.placed hsec hdef
    rw [Assembly.sections_closeSection, ← Array.mem_toList_iff] at hf
    have hmem := List.mem_map_of_mem (f := fun g : SectionData => (g.name, g.bytes.size)) hf
    rw [← hfinished.sections] at hmem
    obtain ⟨g, hg, hgf⟩ := List.mem_map.mp hmem
    obtain ⟨hgname, hgsize⟩ := Prod.mk.inj hgf
    refine ⟨g, hg, ?_, hgsize ▸ hvalue⟩
    rw [hc.tidy.settled.byNumber?_eq, SymbolTable.byId?_settled, ho, hgname, ← honame]
    rfl

namespace ObjectModule.Regular

variable {m : ObjectModule}

theorem neat (h : m.Regular) : m.Neat := by
  have hn := h.tidy.nodup_sectionNames
  rw [h.sections, List.nodup_cons] at hn
  exact ⟨hn.2, h.inside, hn.1⟩

theorem exists_shared (h : m.Regular) {name : String} (hname : name ∈ m.sections.map SectionData.name) :
    ∃ s ∈ m.symbols.toList, s.name = name ∧ s.isSection = true ∧ s.isLocal = false := by
  have hlisted : name ∈ m.symbols.sectionNames := h.sections ▸ List.mem_cons_of_mem _ hname
  obtain ⟨s, hs, hsec, -⟩ := h.tidy.exists_section hlisted
  obtain ⟨hmem, hsname⟩ := h.tidy.get?_eq_some_iff.mp hs
  refine ⟨s, hmem, hsname, hsec, h.shared s hmem hsec fun hres => h.neat.reserved ?_⟩
  rwa [← hres, hsname]

theorem isSection_of_reserved (h : m.Regular) {s : Symbol} (hs : s ∈ m.symbols.toList)
    (hname : s.name = Symbol.undefinedName) : s.isSection = true := by
  have hlisted : Symbol.undefinedName ∈ m.symbols.sectionNames := h.sections ▸ List.mem_cons_self
  obtain ⟨o, ho, hosec, -⟩ := h.tidy.exists_section hlisted
  rw [h.tidy.get?_eq_some_iff.mpr ⟨hs, hname⟩] at ho
  cases ho
  exact hosec

theorem of_gives (h : m.Regular) {name home : String} {v : UInt16} (hg : m.Gives name home v) :
    ∃ s ∈ m.symbols.toList, s.name = name ∧ s.isSection = false ∧ s.exported = true ∧
      s.imported = false ∧ s.isDefined = true ∧ s.value = v ∧
      (m.symbols.byNumber? s.owner).map Symbol.name = some home ∧
      ∃ f ∈ m.sections, f.name = home ∧ v.toNat ≤ f.bytes.size := by
  obtain ⟨s, hs, hsec, hexp, hdef, hhome, rfl⟩ := hg
  obtain ⟨hmem, hname⟩ := h.tidy.get?_eq_some_iff.mp hs
  obtain ⟨f, hf, hfname, hvalue⟩ := h.placed s hmem hsec hdef
  rw [hhome, Option.some.injEq] at hfname
  exact ⟨s, hmem, hname, hsec, hexp, h.oneWay s hmem hsec hexp, hdef, rfl, hhome, f, hf, hfname.symm,
    hvalue⟩

end ObjectModule.Regular

/-! ### Merging symbols -/

theorem LinkSymbol.exists_movedBy_eq (k : LinkSymbol) (origin : Nat) (b : String → UInt16) :
    ∃ v, k.movedBy origin b = { k with value := v } := by
  unfold LinkSymbol.movedBy
  split
  · exact ⟨_, rfl⟩
  · exact ⟨k.value, rfl⟩

namespace Linkage

variable {l l1 : Linkage} {m : ObjectModule} {s k : LinkSymbol} {ss : List LinkSymbol}

/-- Two symbols of one name can stand for one: both are sections or none is, and they are not both
definitions. -/
def Compatible (k s : LinkSymbol) : Prop :=
  k.isSection = s.isSection ∧ ¬ (k.isOnlyExported = true ∧ s.isOnlyExported = true)

/-- A symbol that is merged is put in under its name, and is compatible with the one that was there. -/
theorem ok_of_run_merge (hn : (l.symbols.map LinkSymbol.name).Nodup)
    (h : (merge s).run l = .ok () l1) :
    l1.symbols = upsert LinkSymbol.name LinkSymbol.pick s l.symbols ∧
      ∀ k, entryOf LinkSymbol.name l.symbols s.name = some k → Compatible k s := by
  rw [run_merge] at h
  cases hk : entryOf LinkSymbol.name l.symbols s.name with
  | none =>
    rw [hk] at h
    cases h
    exact ⟨(upsert_of_not_mem (entryOf_eq_none_iff.mp hk)).symm, nofun⟩
  | some k =>
    have hmem : s.name ∈ l.symbols.map LinkSymbol.name :=
      isSome_entryOf_iff.mp (Option.isSome_iff_exists.mpr ⟨k, hk⟩)
    have hone : ∀ y ∈ l.symbols, y.name = s.name → y = k := by
      intro y hy hname
      have := entryOf_of_mem hn hy
      rw [hname, hk, Option.some.injEq] at this
      exact this.symm
    rw [upsert_eq_map hn hmem]
    simp only [hk] at h
    by_cases hkind : k.isSection != s.isSection
    · rw [if_pos hkind] at h
      cases h
    · rw [if_neg hkind] at h
      have hsame : k.isSection = s.isSection := by simpa using hkind
      by_cases hwanted : k.isOnlyImported && s.isOnlyExported
      · rw [if_pos hwanted] at h
        cases h
        refine ⟨List.map_congr_left fun y hy => ?_, ?_⟩
        · by_cases hname : y.name = s.name
          · rw [if_pos hname, if_pos hname, hone y hy hname, LinkSymbol.pick, if_pos hwanted]
          · rw [if_neg hname, if_neg hname]
        · rintro k' ⟨rfl⟩
          refine ⟨hsame, ?_⟩
          rintro ⟨hk', -⟩
          simp only [LinkSymbol.isOnlyImported, LinkSymbol.isOnlyExported, Bool.and_eq_true,
            Bool.not_eq_true'] at hwanted hk'
          rw [hwanted.1.1] at hk'
          cases hk'.2
      · rw [if_neg hwanted] at h
        by_cases htwice : k.isOnlyExported && s.isOnlyExported
        · rw [if_pos htwice] at h
          cases h
        · rw [if_neg htwice] at h
          cases h
          refine ⟨?_, ?_⟩
          · conv_lhs => rw [← List.map_id l.symbols]
            refine List.map_congr_left fun y hy => ?_
            by_cases hname : y.name = s.name
            · rw [if_pos hname, hone y hy hname, LinkSymbol.pick, if_neg hwanted]
              rfl
            · rw [if_neg hname]
              rfl
          · rintro k' ⟨rfl⟩
            exact ⟨hsame, by simpa using htwice⟩

/-- Symbols that are merged are put in under their names, and are compatible with those that were there. -/
theorem ok_of_run_mergeAll (hn : (l.symbols.map LinkSymbol.name).Nodup)
    (hss : (ss.map LinkSymbol.name).Nodup) (h : (mergeAll ss).run l = .ok () l1) :
    l1.symbols = upsertAll LinkSymbol.name LinkSymbol.pick l.symbols ss ∧
      ∀ s ∈ ss, ∀ k, entryOf LinkSymbol.name l.symbols s.name = some k → Compatible k s := by
  induction ss generalizing l with
  | nil =>
    cases h
    exact ⟨rfl, fun _ hs => nomatch hs⟩
  | cons s ss ih =>
    obtain ⟨hs, hss⟩ := List.nodup_cons.mp hss
    obtain ⟨⟨⟩, l2, hone, hrest⟩ := ok_of_run_bind h
    obtain ⟨hsymbols, hcompatible⟩ := ok_of_run_merge hn hone
    obtain ⟨hall, hothers⟩ := ih (hsymbols ▸ nodup_upsert (fun k => LinkSymbol.pick_key k s) hn) hss hrest
    refine ⟨by rw [hall, hsymbols, upsertAll_cons], List.forall_mem_cons.mpr ⟨hcompatible, ?_⟩⟩
    intro s' hs' k hk
    refine hothers s' hs' k ?_
    have hne : s.name ≠ s'.name := fun he => hs (he ▸ List.mem_map_of_mem hs')
    rw [hsymbols, entryOf_upsert fun k => LinkSymbol.pick_key k s, if_neg hne]
    exact hk

/-- A symbol that is compatible with the one of its name is merged. -/
theorem exists_run_merge
    (h : ∀ k, entryOf LinkSymbol.name l.symbols s.name = some k → Compatible k s) :
    ∃ l1, (merge s).run l = .ok () l1 := by
  rw [run_merge]
  cases hk : entryOf LinkSymbol.name l.symbols s.name with
  | none => exact ⟨_, rfl⟩
  | some k =>
    obtain ⟨hkind, honce⟩ := h k hk
    have hsame : ¬ (k.isSection != s.isSection) = true := by simp [hkind]
    have hnot : ¬ (k.isOnlyExported && s.isOnlyExported) = true := by simpa using honce
    simp only
    rw [if_neg hsame, if_neg hnot]
    split
    · exact ⟨_, rfl⟩
    · exact ⟨_, rfl⟩

/-- **Symbols are merged** just if they are compatible with those of their names. -/
theorem exists_run_mergeAll_iff (hn : (l.symbols.map LinkSymbol.name).Nodup)
    (hss : (ss.map LinkSymbol.name).Nodup) : (∃ l1, (mergeAll ss).run l = .ok () l1) ↔
      ∀ s ∈ ss, ∀ k, entryOf LinkSymbol.name l.symbols s.name = some k → Compatible k s := by
  constructor
  · rintro ⟨l1, h⟩
    exact (ok_of_run_mergeAll hn hss h).2
  · intro h
    induction ss generalizing l with
    | nil => exact ⟨l, rfl⟩
    | cons s ss ih =>
      obtain ⟨hs, hss⟩ := List.nodup_cons.mp hss
      obtain ⟨hfirst, hrest⟩ := List.forall_mem_cons.mp h
      obtain ⟨l2, hone⟩ := exists_run_merge hfirst
      have hsymbols := (ok_of_run_merge hn hone).1
      have hn2 := hsymbols ▸ nodup_upsert (fun k => LinkSymbol.pick_key k s) hn
      obtain ⟨l1, hall⟩ := ih hn2 hss fun s' hs' k hk => by
        have hne : s.name ≠ s'.name := fun he => hs (he ▸ List.mem_map_of_mem hs')
        rw [hsymbols, entryOf_upsert fun k => LinkSymbol.pick_key k s, if_neg hne] at hk
        exact hrest s' hs' k hk
      exact ⟨l1, by rw [mergeAll, EStateM.run_bind, hone]; exact hall⟩

end Linkage

/-! ### Relocations of a name -/

/-- The relocations of the section of a name; none if there is no such section. -/
def relocationsIn (fs : List SectionData) (name : String) : List Relocation :=
  ((entryOf SectionData.name fs name).map SectionData.relocations).getD []

/-- The relocations of the sections of a name in modules, one module after the other, each with the
number of bytes in front of its section. -/
def fragmentsOf (ms : List ObjectModule) (name : String) : List (Nat × Relocation) :=
  ms.zipIdx.flatMap fun p =>
    (relocationsIn p.1.sections name).map fun r => (fragmentBase ms p.2 name, r)

section

variable {fs gs : List SectionData} {f : SectionData} {ms : List ObjectModule} {m : ObjectModule}
  {name : String} {j : Nat}

theorem relocationsIn_of_mem (hn : (fs.map SectionData.name).Nodup) (hf : f ∈ fs) :
    relocationsIn fs f.name = f.relocations := by
  rw [relocationsIn, entryOf_of_mem hn hf]
  rfl

theorem relocationsIn_attachAll (hn : (gs.map SectionData.name).Nodup) (fs : List SectionData)
    (name : String) :
    relocationsIn (attachAll fs gs) name = relocationsIn fs name ++ relocationsIn gs name := by
  unfold relocationsIn
  rw [entryOf_attachAll hn]
  cases entryOf SectionData.name fs name <;> cases entryOf SectionData.name gs name <;>
    simp [SectionData.join]

theorem relocationsIn_shifted (m : ObjectModule) (b : String → UInt16) (name : String) :
    relocationsIn (m.sections.map (m.shifted b)) name =
      (relocationsIn m.sections name).map fun r => { r with offset := r.offset + b name } := by
  unfold relocationsIn
  rw [entryOf_map (f := m.shifted b) fun _ => rfl]
  cases hf : entryOf SectionData.name m.sections name with
  | none => rfl
  | some f =>
    obtain rfl : f.name = name := key_of_entryOf hf
    rfl

theorem fragmentBase_concat (m : ObjectModule) (name : String) (h : j ≤ ms.length) :
    fragmentBase (ms ++ [m]) j name = fragmentBase ms j name := by
  rw [fragmentBase, List.take_append_of_le_length h]
  rfl

theorem fragmentBase_succ (h : ms[j]? = some m) (name : String) :
    fragmentBase ms (j + 1) name = fragmentBase ms j name + sizeIn m.sections name := by
  obtain ⟨hlt, rfl⟩ := List.getElem?_eq_some_iff.mp h
  rw [fragmentBase, fragmentBase, List.take_succ_eq_append_getElem hlt, List.map_append,
    List.sum_append]
  simp [sizeIn, entryOf, ObjectModule.find?]

theorem fragmentBase_mono {i : Nat} (h : i ≤ j) (ms : List ObjectModule) (name : String) :
    fragmentBase ms i name ≤ fragmentBase ms j name := by
  obtain ⟨k, rfl⟩ := Nat.exists_eq_add_of_le h
  rw [fragmentBase, fragmentBase, List.take_add, List.map_append, List.sum_append]
  exact Nat.le_add_right _ _

theorem fragmentBase_add_sizeIn_le (h : ms[j]? = some m) (name : String) :
    fragmentBase ms j name + sizeIn m.sections name ≤ fragmentBase ms ms.length name := by
  rw [← fragmentBase_succ h]
  exact fragmentBase_mono (List.getElem?_eq_some_iff.mp h).1 ms name

theorem fragmentsOf_concat (ms : List ObjectModule) (m : ObjectModule) (name : String) :
    fragmentsOf (ms ++ [m]) name = fragmentsOf ms name ++
      (relocationsIn m.sections name).map fun r => (fragmentBase ms ms.length name, r) := by
  have hbefore : ∀ p ∈ ms.zipIdx, fragmentBase (ms ++ [m]) p.2 name = fragmentBase ms p.2 name := by
    intro p hp
    have := (List.getElem?_eq_some_iff.mp (List.mem_zipIdx_iff_getElem?.mp hp)).1
    exact fragmentBase_concat m name (Nat.le_of_lt this)
  have hlast := fragmentBase_concat m name (Nat.le_refl ms.length)
  unfold fragmentsOf
  rw [List.zipIdx_append, List.flatMap_append]
  congr 1
  · exact List.flatMap_congr fun p hp => by rw [hbefore p hp]
  · simp [hlast]

end

namespace Linkage

/-- The segments of a linkage are the sections of modules, one behind the other. -/
structure Stacks (ms : List ObjectModule) (l : Linkage) : Prop where
  names : (l.parts.pieces.map SectionData.name).Nodup
  unreserved : Symbol.undefinedName ∉ l.parts.pieces.map SectionData.name
  sizes : ∀ name, sizeIn l.parts.pieces name = fragmentBase ms ms.length name
  relocations : ∀ name, relocationsIn l.parts.pieces name = (fragmentsOf ms name).map fun p =>
    { p.2 with offset := p.2.offset + UInt16.ofNat p.1 }

variable {l l1 : Linkage} {ms : List ObjectModule} {m : ObjectModule}

theorem stacks_empty : Stacks [] {} where
  names := List.nodup_nil
  unreserved := List.not_mem_nil
  sizes _ := rfl
  relocations _ := rfl

theorem Stacks.base_eq (h : l.Stacks ms) {name : String}
    (hname : name ∈ m.sections.map SectionData.name) :
    l.base m name = UInt16.ofNat (fragmentBase ms ms.length name) := by
  rw [Linkage.base_eq l hname, ← h.sizes]
  rfl

theorem Stacks.run_add (h : l.Stacks ms) (hm : m.Neat) (hrun : (add m).run l = .ok () l1) :
    l1.Stacks (ms ++ [m]) := by
  have hn := hm.nodup
  obtain ⟨l0, -, -, hpieces, -⟩ := exists_of_run_add hn hrun
  have hlast : (ms ++ [m])[ms.length]? = some m := by simp
  refine ⟨?_, fun hmem => ?_, fun name => ?_, fun name => ?_⟩
  · rw [hpieces]
    exact nodup_upsertAll SectionData.join_key h.names
  · rw [hpieces] at hmem
    rcases (mem_map_key_upsertAll SectionData.join_key).mp hmem with hmem | hmem
    · exact h.unreserved hmem
    · rw [m.map_name_shifted] at hmem
      exact hm.reserved hmem
  · rw [sizeIn_of_run_add hn hrun, h.sizes, List.length_append, List.length_singleton,
      fragmentBase_succ hlast, fragmentBase_concat m name (Nat.le_refl _)]
  · have hmoved : (relocationsIn m.sections name).map
        (fun r => { r with offset := r.offset + l.base m name }) =
        (relocationsIn m.sections name).map fun r =>
          { r with offset := r.offset + UInt16.ofNat (fragmentBase ms ms.length name) } := by
      by_cases hname : name ∈ m.sections.map SectionData.name
      · rw [h.base_eq hname]
      · rw [relocationsIn, entryOf_eq_none_iff.mpr hname]
        rfl
    rw [hpieces, relocationsIn_attachAll (by rwa [m.map_name_shifted]), relocationsIn_shifted, hmoved,
      h.relocations, fragmentsOf_concat, List.map_append, List.map_map]
    rfl

/-! ### Symbols -/

theorem exists_of_mem_declared {origin : Nat} (hk : k ∈ m.declared origin) :
    ∃ s ∈ m.symbols.toList, s.isLocal = false ∧ k = LinkSymbol.ofSymbol m origin s := by
  obtain ⟨s, hs, rfl⟩ := List.mem_map.mp hk
  obtain ⟨hs, hshared⟩ := List.mem_filter.mp hs
  exact ⟨s, hs, by simpa using hshared, rfl⟩

/-- What adding a module does to symbols: those of the module are picked by their names, and then they
move. -/
theorem symbols_of_run_add (hn : (l.symbols.map LinkSymbol.name).Nodup) (hm : m.Regular)
    (hrun : (add m).run l = .ok () l1) :
    l1.symbols = (upsertAll LinkSymbol.name LinkSymbol.pick l.symbols (m.declared l.modules)).map
        (LinkSymbol.movedBy l.modules (l.base m)) ∧
      ∀ s ∈ m.declared l.modules, ∀ k, entryOf LinkSymbol.name l.symbols s.name = some k →
        Compatible k s := by
  obtain ⟨l0, hmerge, hsymbols, -, -⟩ := exists_of_run_add hm.neat.nodup hrun
  obtain ⟨hmerged, hcompatible⟩ := ok_of_run_mergeAll (l := { l with modules := l.modules + 1 }) hn
    (ObjectModule.nodup_declared hm.tidy.distinct l.modules) hmerge
  exact ⟨by rw [hsymbols, hmerged], hcompatible⟩

theorem entryOf_of_run_add (hn : (l.symbols.map LinkSymbol.name).Nodup) (hm : m.Regular)
    (hrun : (add m).run l = .ok () l1) (name : String) : entryOf LinkSymbol.name l1.symbols name =
      ((entryOf LinkSymbol.name l.symbols name).merge LinkSymbol.pick
        (entryOf LinkSymbol.name (m.declared l.modules) name)).map
          (LinkSymbol.movedBy l.modules (l.base m)) := by
  rw [(symbols_of_run_add hn hm hrun).1, entryOf_map (LinkSymbol.name_movedBy _ _),
    entryOf_upsertAll (fun k s => LinkSymbol.pick_key k s)
      (ObjectModule.nodup_declared hm.tidy.distinct l.modules)]

/-- A symbol of the new linkage was there or comes from the module; it has moved at most. -/
theorem exists_source_of_run_add (hn : (l.symbols.map LinkSymbol.name).Nodup) (hm : m.Regular)
    (hrun : (add m).run l = .ok () l1) (hk : k ∈ l1.symbols) :
    ∃ k0 v, k = { k0 with value := v } ∧ (k0 ∈ l.symbols ∨ k0 ∈ m.declared l.modules) := by
  rw [(symbols_of_run_add hn hm hrun).1] at hk
  obtain ⟨k0, hk0, rfl⟩ := List.mem_map.mp hk
  obtain ⟨v, hv⟩ := k0.exists_movedBy_eq l.modules (l.base m)
  exact ⟨k0, v, hv, mem_upsertAll_pick hk0⟩

/-- The symbols of a linkage come from modules. -/
structure Gathers (ms : List ObjectModule) (l : Linkage) : Prop extends Stacks ms l where
  modules : l.modules = ms.length
  keys : (l.symbols.map LinkSymbol.name).Nodup
  origins : ∀ k ∈ l.symbols, k.origin < l.modules
  /-- A label is shared one way. -/
  oneWay : ∀ k ∈ l.symbols, k.isSection = false → k.exported = !k.imported
  reserved : ∀ k ∈ l.symbols, k.name = Symbol.undefinedName → k.isSection = true
  areas : ∀ name ∈ l.parts.pieces.map SectionData.name, l.kind? name = some true

/-- A label that is given stands in a segment, at an offset up to whole turns. -/
def Places (l : Linkage) (name home : String) (offset : Nat) : Prop :=
  ∃ k, entryOf LinkSymbol.name l.symbols name = some k ∧ k.isSection = false ∧ k.exported = true ∧
    k.imported = false ∧ k.home = some home ∧ home ∈ l.parts.pieces.map SectionData.name ∧
    k.value = UInt16.ofNat offset

theorem gathers_empty : Gathers [] {} where
  toStacks := stacks_empty
  modules := rfl
  keys := List.nodup_nil
  origins := nofun
  oneWay := nofun
  reserved := nofun
  areas := nofun

theorem Gathers.run_add (h : l.Gathers ms) (hm : m.Regular) (hrun : (add m).run l = .ok () l1) :
    l1.Gathers (ms ++ [m]) := by
  have hneat := hm.neat
  have hstacks := h.toStacks.run_add hneat hrun
  obtain ⟨hnew, hold⟩ := kind?_of_run_add hneat.nodup hrun
  obtain ⟨l0, -, -, hpieces, hmodules⟩ := exists_of_run_add hneat.nodup hrun
  have hsource := fun k hk => exists_source_of_run_add h.keys hm hrun (k := k) hk
  refine ⟨hstacks, ?_, ?_, fun k hk => ?_, fun k hk hsec => ?_, fun k hk hname => ?_, fun name hname => ?_⟩
  · rw [hmodules, h.modules, List.length_append, List.length_singleton]
  · rw [(symbols_of_run_add h.keys hm hrun).1, map_key_map (LinkSymbol.name_movedBy _ _)]
    exact nodup_upsertAll LinkSymbol.pick_key h.keys
  · rw [hmodules]
    obtain ⟨k0, v, rfl, hk0 | hk0⟩ := hsource k hk
    · exact Nat.lt_succ_of_lt (h.origins k0 hk0)
    · obtain ⟨s, -, -, rfl⟩ := exists_of_mem_declared hk0
      exact Nat.lt_succ_self _
  · obtain ⟨k0, v, rfl, hk0 | hk0⟩ := hsource k hk
    · exact h.oneWay k0 hk0 hsec
    · obtain ⟨s, hs, hlocal, rfl⟩ := exists_of_mem_declared hk0
      show s.exported = !s.imported
      by_cases hexp : s.exported
      · simp [hexp, hm.oneWay s hs hsec hexp]
      · simpa [Symbol.isLocal, hexp] using hlocal
  · obtain ⟨k0, v, rfl, hk0 | hk0⟩ := hsource k hk
    · exact h.reserved k0 hk0 hname
    · obtain ⟨s, hs, -, rfl⟩ := exists_of_mem_declared hk0
      exact hm.isSection_of_reserved hs hname
  · rw [hpieces] at hname
    rcases (mem_map_key_upsertAll SectionData.join_key).mp hname with hname | hname
    · exact hold (h.areas name hname)
    · rw [m.map_name_shifted] at hname
      obtain ⟨s, hs, rfl, hsec, hlocal⟩ := hm.exists_shared hname
      rw [hnew s hs hlocal, hsec]

/-! ### Labels -/

/-- A label that was given stays where it is when another module is added. -/
theorem Gathers.places_of_run_add (h : l.Gathers ms) (hm : m.Regular)
    (hrun : (add m).run l = .ok () l1) {name home : String} {offset : Nat}
    (hp : l.Places name home offset) : l1.Places name home offset := by
  obtain ⟨k, hk, hsec, hexp, himp, hhome, hin, hvalue⟩ := hp
  obtain ⟨l0, -, -, hpieces, -⟩ := exists_of_run_add hm.neat.nodup hrun
  have hkept : (some k).merge LinkSymbol.pick
      (entryOf LinkSymbol.name (m.declared l.modules) name) = some k := by
    cases entryOf LinkSymbol.name (m.declared l.modules) name with
    | none => rfl
    | some s => simp [LinkSymbol.pick, LinkSymbol.isOnlyImported, himp]
  have horigin : k.origin ≠ l.modules := Nat.ne_of_lt (h.origins k (mem_of_entryOf hk))
  refine ⟨k, ?_, hsec, hexp, himp, hhome, ?_, hvalue⟩
  · rw [entryOf_of_run_add h.keys hm hrun, hk, hkept, Option.map_some, LinkSymbol.movedBy_of_ne horigin]
  · rw [hpieces]
    exact (mem_map_key_upsertAll SectionData.join_key).mpr (Or.inl hin)

/-- Of a label and its definition the definition is picked. -/
theorem pick_of_compatible (h : Compatible k s) (hk : k.isSection = false → k.exported = !k.imported)
    (hsec : s.isSection = false) (hs : s.isOnlyExported = true) : k.pick s = s := by
  obtain ⟨hkind, honce⟩ := h
  have hway := hk (hkind.trans hsec)
  have himp : k.imported = true := by
    by_contra hno
    exact honce ⟨by simp [LinkSymbol.isOnlyExported, hway, hno], hs⟩
  simp [LinkSymbol.pick, LinkSymbol.isOnlyImported, himp, hway, hs]

/-- A label that the module gives goes where the module's section goes. -/
theorem Gathers.places_of_gives (h : l.Gathers ms) (hm : m.Regular)
    (hrun : (add m).run l = .ok () l1) {name home : String} {v : UInt16} (hg : m.Gives name home v) :
    l1.Places name home (fragmentBase ms ms.length home + v.toNat) := by
  obtain ⟨s, hs, rfl, hsec, hexp, himp, hdef, rfl, hhome, f, hf, rfl, -⟩ := hm.of_gives hg
  obtain ⟨l0, -, -, hpieces, -⟩ := exists_of_run_add hm.neat.nodup hrun
  have hin : f.name ∈ m.sections.map SectionData.name := List.mem_map_of_mem hf
  have hmem : LinkSymbol.ofSymbol m l.modules s ∈ m.declared l.modules :=
    List.mem_map_of_mem (List.mem_filter.mpr ⟨hs, by simp [Symbol.isLocal, hexp]⟩)
  have hown : entryOf LinkSymbol.name (m.declared l.modules) s.name = _ :=
    entryOf_of_mem (ObjectModule.nodup_declared hm.tidy.distinct l.modules) hmem
  have hput : (entryOf LinkSymbol.name l.symbols s.name).merge LinkSymbol.pick
      (some (LinkSymbol.ofSymbol m l.modules s)) = some (LinkSymbol.ofSymbol m l.modules s) := by
    cases hk : entryOf LinkSymbol.name l.symbols s.name with
    | none => rfl
    | some k =>
      have hknown := (symbols_of_run_add h.keys hm hrun).2 _ hmem k hk
      rw [Option.merge_some_some, pick_of_compatible hknown (h.oneWay k (mem_of_entryOf hk)) hsec]
      simp [LinkSymbol.isOnlyExported, LinkSymbol.ofSymbol, hexp, himp]
  refine ⟨(LinkSymbol.ofSymbol m l.modules s).movedBy l.modules (l.base m), ?_, ?_⟩
  · rw [entryOf_of_run_add h.keys hm hrun, hown, hput, Option.map_some]
  · have hmoved : (LinkSymbol.ofSymbol m l.modules s).movedBy l.modules (l.base m) =
        { LinkSymbol.ofSymbol m l.modules s with value := s.value + l.base m f.name } := by
      simp [LinkSymbol.movedBy, LinkSymbol.ofSymbol, hsec, hdef, hhome]
    rw [hmoved]
    refine ⟨hsec, hexp, himp, by simp [LinkSymbol.ofSymbol, hsec, hdef, hhome], ?_, ?_⟩
    · rw [hpieces]
      refine (mem_map_key_upsertAll SectionData.join_key).mpr (Or.inr ?_)
      rwa [m.map_name_shifted]
    · show s.value + l.base m f.name = _
      rw [h.base_eq hin, UInt16.add_comm, UInt16.ofNat_add, UInt16.ofNat_toNat]

/-- **Modules that are added** are gathered, and so is every label that one of them gives: it stands
behind the sections of its name in the modules before. -/
theorem gathers_of_run_addAll (hms : ∀ m ∈ ms, m.Regular) (hrun : (addAll ms).run {} = .ok () l) :
    l.Gathers ms ∧ ∀ j m name home v, ms[j]? = some m → m.Gives name home v →
      l.Places name home (fragmentBase ms j home + v.toNat) := by
  induction ms using List.reverseRecOn generalizing l with
  | nil =>
    cases hrun
    exact ⟨gathers_empty, fun j m _ _ _ hj => nomatch hj⟩
  | append_singleton ms m ih =>
    obtain ⟨l0, hbefore, hadd⟩ := run_addAll_concat_eq_ok_iff.mp hrun
    have hm := hms m (List.mem_append_right _ List.mem_cons_self)
    obtain ⟨h, hplaces⟩ := ih (fun m' hm' => hms m' (List.mem_append_left _ hm')) hbefore
    refine ⟨h.run_add hm hadd, fun j m' name home v hj hgives => ?_⟩
    by_cases hlt : j < ms.length
    · rw [List.getElem?_append_left hlt] at hj
      rw [fragmentBase_concat m home (Nat.le_of_lt hlt)]
      exact h.places_of_run_add hm hadd (hplaces j m' name home v hj hgives)
    · have hle := (List.getElem?_eq_some_iff.mp hj).1
      rw [List.length_append, List.length_singleton] at hle
      obtain rfl : j = ms.length := by omega
      rw [List.getElem?_concat_length, Option.some.injEq] at hj
      subst hj
      rw [fragmentBase_concat m home (Nat.le_refl _)]
      exact h.places_of_gives hm hadd hgives

end Linkage
end Sx16
