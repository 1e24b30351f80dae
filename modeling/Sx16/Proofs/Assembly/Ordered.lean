/-
# The state of a run is in order whatever lines it was fed

Symbols, sections and the listing of a run are kept apart but have to agree, and lines may fail
half-way. Every edit of a line, every note of a placeholder and every piece of bytes that fits keeps
the state in order, so it is in order after any lines, also after lines that were refused and after
the line that ends the source text. When such a run is finished, the module's section symbols have the
sizes of its sections, nothing is pending, and its relocations are of symbols that it shares.

Key definitions: `SymbolTable.sectionNames`, `Symbol.InOrder`, `Covers`, `Assembly.Ordered`,
`Assembly.Finished`.
Key theorems: `Assembly.Ordered.fed`, `Assembly.Ordered.finish`, `fedAll_in_order`.
-/
import Sx16.Proofs.Assembly.Effects
import Sx16.Proofs.Assembly.Sound

namespace Sx16

/-! ### The sections of a table -/

namespace SymbolTable

/-- The names of the section symbols in the order of their creation. -/
def sectionNames (t : SymbolTable) : List String :=
  (t.toList.filter Symbol.isSection).map Symbol.name

/-- Every symbol of a table is still there, by its name and as a section or none. -/
def Grows (t t' : SymbolTable) : Prop :=
  ∀ i s, t.byId? i = some s → ∃ s', t'.byId? i = some s' ∧ s'.name = s.name ∧
    s'.isSection = s.isSection

/-- The symbol of a section has the section's size. -/
def HasSize (t : SymbolTable) (f : SectionData) : Prop :=
  ∃ s, t.get? f.name = some s ∧ s.size = some (UInt16.ofNat f.bytes.size)

variable {t : SymbolTable} {name : String} {i : Nat} {s : Symbol} {f : Symbol → Symbol}

theorem sectionNames_insert (t : SymbolTable) (s : Symbol) :
    (t.insert s).sectionNames = t.sectionNames ++ if s.isSection then [s.name] else [] := by
  by_cases h : s.isSection <;> simp [sectionNames, insert, toList, h]

theorem map_modify {α : Type} {g : Symbol → α} (hs : t.byId? i = some s) (hg : g (f s) = g s) :
    (t.modify i f).toList.map g = t.toList.map g := by
  have hget : ∀ (u : SymbolTable) (k : Nat), (u.toList.map g)[k]? = (u.byId? k).map g := by
    intro u k
    simp [toList, byId?]
  refine List.ext_getElem? fun k => ?_
  rw [hget, hget, byId?_modify]
  by_cases hk : i = k
  · rw [if_pos hk, ← hk, hs]
    simp [hg]
  · rw [if_neg hk]

theorem sectionNames_modify (hs : t.byId? i = some s) (hname : (f s).name = s.name)
    (hsec : (f s).isSection = s.isSection) : (t.modify i f).sectionNames = t.sectionNames := by
  have heq : ∀ u : SymbolTable, u.sectionNames =
      ((u.toList.map fun s => (s.name, s.isSection)).filter Prod.snd).map Prod.fst := by
    intro u
    rw [List.filter_map, List.map_map]
    rfl
  rw [heq, heq, map_modify hs (by rw [hname, hsec])]

theorem sectionNames_change (hname : ∀ s, (f s).name = s.name)
    (hsec : (f (t.meaning name)).isSection = (t.meaning name).isSection) :
    (t.change name f).sectionNames = t.sectionNames := by
  rw [change, sectionNames_modify (byId?_intern t name) (hname _) hsec]
  unfold intern
  split
  · rfl
  · exact (sectionNames_insert t _).trans (List.append_nil _)

theorem grows_insert (t : SymbolTable) (s : Symbol) : t.Grows (t.insert s) := by
  intro i s' h
  have hlt := byId?_lt h
  exact ⟨s', by rw [byId?_insert, if_neg (by omega), h], rfl, rfl⟩

theorem grows_change (hname : ∀ s, (f s).name = s.name)
    (hsec : (f (t.meaning name)).isSection = (t.meaning name).isSection) :
    t.Grows (t.change name f) := by
  intro i s h
  have hintern := byId?_intern_of_some h name
  by_cases hi : (t.intern name).2 = i
  · have hmeaning := byId?_intern t name
    rw [hi, hintern] at hmeaning
    cases hmeaning
    exact ⟨f (t.meaning name), by rw [change, byId?_modify, if_pos hi, hintern]; rfl, hname _, hsec⟩
  · exact ⟨s, by rw [change, byId?_modify, if_neg hi, hintern], rfl, rfl⟩

theorem change_id (t : SymbolTable) (name : String) : t.change name id = (t.intern name).1 := by
  refine congrArg SymbolTable.mk (Array.ext_getElem? fun k => ?_)
  simp [Array.getElem?_modify]

theorem Tidy.exists_section (ht : t.Tidy) (h : name ∈ t.sectionNames) :
    ∃ o, t.get? name = some o ∧ o.isSection = true ∧ t.byId? o.number = some o := by
  obtain ⟨o, ho, rfl⟩ := List.mem_map.mp h
  obtain ⟨hmem, hsec⟩ := List.mem_filter.mp ho
  obtain ⟨i, hi⟩ := mem_toList_iff.mp hmem
  exact ⟨o, ht.get?_of_byId? hi, hsec, by rw [ht.number hi, hi]⟩

theorem Tidy.nodup_sectionNames (ht : t.Tidy) : t.sectionNames.Nodup :=
  ht.nodup_names.sublist (List.filter_sublist.map _)

end SymbolTable

/-! ### States in order -/

/-- Entries of a listing cover a section from one offset to another, one behind the other. -/
def Covers : Nat → List Emission → Nat → Prop
  | lo, [], hi => lo = hi
  | lo, e :: es, hi => e.offset.toNat = lo ∧ Covers (lo + e.bytes.length) es hi

/-- What holds of every symbol of a run. -/
structure Symbol.InOrder (a : Assembly) (s : Symbol) : Prop where
  /-- The reserved section belongs to no section. -/
  reserved : s.isSection = true → s.name = Symbol.undefinedName → s.isDefined = false
  /-- A section is shared and belongs to itself. -/
  ofSection : s.isSection = true → s.name ≠ Symbol.undefinedName →
    s.exported = true ∧ s.imported = true ∧ s.owner = s.number
  /-- No label is both exported and imported. -/
  notBoth : s.isSection = false → s.exported = true → s.imported = false
  /-- No label is both imported and defined. -/
  notHere : s.isSection = false → s.imported = true → s.isDefined = false
  /-- A defined label belongs to a section, and stands at one of its bytes or at its end. -/
  placed : s.isSection = false → s.isDefined = true → ∃ f ∈ a.sections, ∃ o,
    a.symbols.byId? s.owner = some o ∧ o.isSection = true ∧ o.name = f.name ∧
      s.value.toNat ≤ f.bytes.size

namespace Assembly

/-- The entries of the listing that are in the section at a position. -/
def entriesOf (a : Assembly) (home : Nat) : List Emission :=
  a.listing.toList.filter (·.home == home)

/-- The sections of a run agree with its listing and with the place of the next byte. -/
structure Stocked (a : Assembly) : Prop where
  /-- The next byte goes to the end of the open section. -/
  opened : ∀ {home}, a.current = some home →
    home < a.sections.size ∧ a.location.toNat = a.sizeAt home
  limit : ∀ f ∈ a.sections, f.bytes.size ≤ sectionLimit
  /-- Relocations come last. -/
  bare : ∀ f ∈ a.sections, f.relocations = []
  homes : ∀ e ∈ a.listing, e.home < a.sections.size
  /-- The entries of a section are its bytes, without gaps. -/
  listed : ∀ {home f}, a.sections[home]? = some f → Covers 0 (a.entriesOf home) f.bytes.size ∧
    (a.entriesOf home).flatMap Emission.bytes = f.bytes.toList

/-- The symbols of a run are in order and agree with its sections. -/
structure Registered (a : Assembly) : Prop where
  /-- Names are distinct, and a symbol's number is its position. -/
  tidy : a.symbols.Tidy
  /-- Section symbols, but for the reserved one, are the sections in the making. -/
  sections : a.symbols.sectionNames = Symbol.undefinedName :: a.sections.toList.map SectionData.name
  symbols : ∀ s ∈ a.symbols.toList, s.InOrder a

/-- Symbols, sections and listing of a run agree. -/
structure Ordered (a : Assembly) : Prop extends Stocked a, Registered a where
  /-- The size of every section but the open one is written down. -/
  closed : ∀ {home f}, a.sections[home]? = some f → a.current ≠ some home → a.symbols.HasSize f

/-- A run with the symbols and the sections of another, and perhaps with more. -/
structure Grows (a b : Assembly) : Prop where
  symbols : a.symbols.Grows b.symbols
  sections : ∀ f ∈ a.sections, ∃ f' ∈ b.sections, f'.name = f.name ∧ f.bytes.size ≤ f'.bytes.size

end Assembly

open Assembly

variable {a b : Assembly} {name : String} {f : Symbol → Symbol} {s : Symbol}

theorem Symbol.InOrder.mono (h : s.InOrder a) (hab : a.Grows b) : s.InOrder b where
  reserved := h.reserved
  ofSection := h.ofSection
  notBoth := h.notBoth
  notHere := h.notHere
  placed hsec hdef := by
    obtain ⟨f, hf, o, ho, hosec, hname, hvalue⟩ := h.placed hsec hdef
    obtain ⟨o', ho', hname', hsec'⟩ := hab.symbols _ _ ho
    obtain ⟨f', hf', hfname, hsize⟩ := hab.sections f hf
    exact ⟨f', hf', o', ho', hsec'.trans hosec, hname'.trans (hname.trans hfname.symm),
      Nat.le_trans hvalue hsize⟩

theorem Assembly.grows_of_eq (hsymbols : b.symbols = a.symbols) (hsections : b.sections = a.sections) :
    a.Grows b where
  symbols i s hi := ⟨s, by rw [hsymbols, hi], rfl, rfl⟩
  sections g hg := ⟨g, hsections ▸ hg, rfl, Nat.le_refl _⟩

theorem Symbol.inOrder_fresh (a : Assembly) (t : SymbolTable) (name : String) :
    (t.fresh name).InOrder a where
  reserved h := by cases h
  ofSection h := by cases h
  notBoth _ h := by cases h
  notHere _ h := by cases h
  placed _ h := by cases h

theorem Symbol.inOrder_freshSection (a : Assembly) (t : SymbolTable) {name : String}
    (hname : name ≠ undefinedName) : (t.freshSection name).InOrder a where
  reserved _ hn := absurd hn hname
  ofSection _ _ := ⟨rfl, rfl, rfl⟩
  notBoth h := by cases h
  notHere h := by cases h
  placed h := by cases h

theorem Symbol.inOrder_undefined (a : Assembly) : Symbol.undefined.InOrder a where
  reserved _ _ := rfl
  ofSection _ hname := absurd rfl hname
  notBoth _ h := by cases h
  notHere _ h := by cases h
  placed _ h := by cases h

theorem ordered_start : ({} : Assembly).Ordered where
  opened h := by cases h
  limit f hf := by simp at hf
  bare f hf := by simp at hf
  homes e he := by simp at he
  listed h := by simp at h
  tidy := SymbolTable.tidy_new
  sections := rfl
  symbols s hs := by
    obtain rfl : s = Symbol.undefined := by simpa [SymbolTable.new, SymbolTable.toList] using hs
    exact Symbol.inOrder_undefined _
  closed h := by simp at h

/-! ### Symbols -/

namespace Assembly.Registered

theorem meaning (h : a.Registered) (name : String) : (a.symbols.meaning name).InOrder a := by
  cases hg : a.symbols.get? name with
  | none =>
    rw [SymbolTable.meaning_of_none hg]
    exact Symbol.inOrder_fresh a _ name
  | some s =>
    rw [SymbolTable.meaning_of_some hg]
    exact h.symbols s (h.tidy.get?_eq_some_iff.mp hg).1

theorem nodup_names (h : a.Registered) :
    (Symbol.undefinedName :: a.sections.toList.map SectionData.name).Nodup := by
  rw [← h.sections]
  exact h.tidy.nodup_sectionNames

/-- A section in the making is found by its name, which is not the reserved one. -/
theorem exists_symbol (h : a.Registered) {g : SectionData} (hg : g ∈ a.sections) :
    g.name ≠ Symbol.undefinedName ∧ ∃ o, a.symbols.get? g.name = some o ∧ o.isSection = true ∧
      a.symbols.byId? o.number = some o := by
  have hmem : g.name ∈ a.sections.toList.map SectionData.name :=
    List.mem_map_of_mem (Array.mem_toList_iff.mpr hg)
  refine ⟨fun hname => ?_, h.tidy.exists_section ?_⟩
  · exact (List.nodup_cons.mp h.nodup_names).1 (hname ▸ hmem)
  · rw [h.sections]
    exact List.mem_cons_of_mem _ hmem

theorem home_inj (h : a.Registered) {i j : Nat} {g g' : SectionData}
    (hi : a.sections[i]? = some g) (hj : a.sections[j]? = some g') (hname : g.name = g'.name) :
    i = j := by
  have hget : ∀ {k : Nat} {x : SectionData}, a.sections[k]? = some x →
      (a.sections.toList.map SectionData.name)[k]? = some x.name := by
    intro k x hx
    simp [hx]
  have hlt : i < (a.sections.toList.map SectionData.name).length :=
    (List.getElem?_eq_some_iff.mp (hget hi)).1
  exact (List.getElem?_inj hlt (List.nodup_cons.mp h.nodup_names).2).mp
    (by rw [hget hi, hget hj, hname])

/-- A symbol may be changed to another that is in order. -/
theorem change (h : a.Registered) (hf : ∀ s, (f s).name = s.name ∧ (f s).number = s.number)
    (hsec : (f (a.symbols.meaning name)).isSection = (a.symbols.meaning name).isSection)
    (hnew : (f (a.symbols.meaning name)).InOrder a) : (a.change name f).Registered where
  tidy := h.tidy.change name hf
  sections := (SymbolTable.sectionNames_change (fun s => (hf s).1) hsec).trans h.sections
  symbols s hs := by
    have hgrows : a.Grows (a.change name f) :=
      ⟨SymbolTable.grows_change (fun s => (hf s).1) hsec, fun g hg => ⟨g, hg, rfl, Nat.le_refl _⟩⟩
    rcases SymbolTable.mem_change hs with hs | rfl | rfl
    · exact (h.symbols s hs).mono hgrows
    · exact (h.meaning name).mono hgrows
    · exact hnew.mono hgrows

end Assembly.Registered

namespace Assembly.Ordered

/-- A symbol may be changed to another that is in order and has the same size. -/
theorem change (h : a.Ordered) (hf : ∀ s, (f s).name = s.name ∧ (f s).number = s.number)
    (hsize : (f (a.symbols.meaning name)).size = (a.symbols.meaning name).size)
    (hnew : (f (a.symbols.meaning name)).InOrder a) : (a.change name f).Ordered where
  toStocked := ⟨h.opened, h.limit, h.bare, h.homes, h.listed⟩
  toRegistered := h.toRegistered.change hf (congrArg Option.isSome hsize) hnew
  closed {home g} hg hc := by
    obtain ⟨s, hs, hsz⟩ := h.closed hg hc
    have hget := h.tidy.get?_change hf name g.name
    by_cases hname : g.name = name
    · rw [if_pos hname] at hget
      rw [hname] at hs
      rw [SymbolTable.meaning_of_some hs] at hget hsize
      exact ⟨f s, hget, hsize.trans hsz⟩
    · rw [if_neg hname] at hget
      exact ⟨s, hget.trans hs, hsz⟩

theorem mention (h : a.Ordered) (name : String) : (a.mention name).Ordered := by
  have hsame : (a.change name id).Ordered := h.change (fun s => ⟨rfl, rfl⟩) rfl (h.meaning name)
  rwa [Assembly.change, SymbolTable.change_id] at hsame

theorem use (h : a.Ordered) (name : String) (u : PendingUse) :
    (a.change name fun s => { s with uses := s.uses ++ [u] }).Ordered := by
  have hm := h.meaning name
  exact h.change (fun s => ⟨rfl, rfl⟩) rfl ⟨hm.reserved, hm.ofSection, hm.notBoth, hm.notHere, hm.placed⟩

theorem exports (h : a.Ordered) (himp : (a.symbols.meaning name).imported = false) :
    (a.change name fun s => { s with exported := true }).Ordered := by
  have hm := h.meaning name
  refine h.change (fun s => ⟨rfl, rfl⟩) rfl
    ⟨hm.reserved, fun hsec hn => ?_, fun _ _ => himp, hm.notHere, hm.placed⟩
  have := (hm.ofSection hsec hn).2.1
  simp [himp] at this

theorem imports (h : a.Ordered) (hexp : (a.symbols.meaning name).exported = false)
    (hdef : (a.symbols.meaning name).isDefined = false) :
    (a.change name fun s => { s with imported := true }).Ordered := by
  have hm := h.meaning name
  refine h.change (fun s => ⟨rfl, rfl⟩) rfl
    ⟨hm.reserved, fun hsec hn => ?_, fun _ he => ?_, fun _ _ => hdef, hm.placed⟩
  · have := (hm.ofSection hsec hn).1
    simp [hexp] at this
  · simp [hexp] at he

theorem byId?_ownerOf (h : a.Ordered) {home : Nat} (hlt : home < a.sections.size) :
    ∃ o, a.symbols.byId? (a.ownerOf home) = some o ∧ o.isSection = true ∧
      o.name = a.sections[home].name := by
  obtain ⟨-, o, ho, hosec, hoid⟩ := h.exists_symbol (Array.getElem_mem hlt)
  obtain ⟨-, -, -, honame⟩ := SymbolTable.get?_eq_some ho
  have howner : a.ownerOf home = o.number := by
    simp [ownerOf, sectionName, hlt, ho]
  exact ⟨o, by rw [howner, hoid], hosec, honame⟩

theorem label (h : a.Ordered) {home : Nat} (hc : a.current = some home)
    (hsec : (a.symbols.meaning name).isSection = false)
    (himp : (a.symbols.meaning name).imported = false) :
    (a.change name fun s => { s with owner := a.ownerOf home, value := a.location }).Ordered := by
  obtain ⟨hlt, hlocation⟩ := h.opened hc
  obtain ⟨o, ho, hosec, honame⟩ := h.byId?_ownerOf hlt
  have hvalue : a.location.toNat ≤ a.sections[home].bytes.size := by
    simp [hlocation, sizeAt, hlt]
  refine h.change (fun s => ⟨rfl, rfl⟩) rfl ⟨fun hs => ?_, fun hs => ?_, fun _ _ => himp,
    fun _ hi => ?_, fun _ _ => ⟨a.sections[home], Array.getElem_mem hlt, o, ho, hosec, honame, hvalue⟩⟩
  · exact absurd (hsec.symm.trans hs) Bool.false_ne_true
  · exact absurd (hsec.symm.trans hs) Bool.false_ne_true
  · exact absurd (himp.symm.trans hi) Bool.false_ne_true

/-! ### Sections -/

theorem closeSection_eq (h : a.Ordered) {home : Nat} (hc : a.current = some home)
    (hlt : home < a.sections.size) : a.closeSection =
      a.change a.sections[home].name fun s => { s with size := some a.location } := by
  obtain ⟨-, o, ho, -, -⟩ := h.exists_symbol (Array.getElem_mem hlt)
  have hname : a.sectionName home = a.sections[home].name := by simp [sectionName, hlt]
  unfold closeSection
  simp only [hc, hname, SymbolTable.modifyName_eq_change ho, Assembly.change]

theorem ofNat_size (h : a.Ordered) {home : Nat} (hc : a.current = some home)
    (hlt : home < a.sections.size) : UInt16.ofNat a.sections[home].bytes.size = a.location := by
  have hle := h.limit _ (Array.getElem_mem hlt)
  have hlocation := (h.opened hc).2
  simp only [sizeAt, hlt, getElem?_pos, Option.map_some, Option.getD_some] at hlocation
  rw [← hlocation, UInt16.ofNat_toNat]

/-- With the open section closed, the size of every section is written down. -/
theorem hasSize_close (h : a.Ordered) {home : Nat} {g : SectionData}
    (hg : a.closeSection.sections[home]? = some g) : a.closeSection.symbols.HasSize g := by
  cases hc : a.current with
  | none =>
    rw [closeSection_of_none hc] at hg ⊢
    exact h.closed hg (by simp [hc])
  | some k =>
    have hlt := (h.opened hc).1
    rw [h.closeSection_eq hc hlt] at hg ⊢
    have hget := h.tidy.get?_change (f := fun s => { s with size := some a.location })
      (fun _ => ⟨rfl, rfl⟩) a.sections[k].name g.name
    by_cases hname : g.name = a.sections[k].name
    · rw [if_pos hname] at hget
      obtain rfl := h.home_inj hg (Array.getElem?_eq_getElem hlt) hname
      have hgk : a.sections[home] = g := (Array.getElem?_eq_some_iff.mp hg).2
      exact ⟨_, hget, by rw [← hgk, h.ofNat_size hc hlt]⟩
    · rw [if_neg hname] at hget
      have hne : a.current ≠ some home := by
        rw [hc]
        rintro ⟨rfl⟩
        exact hname (congrArg SectionData.name (Array.getElem?_eq_some_iff.mp hg).2.symm)
      obtain ⟨s, hs, hsz⟩ := h.closed hg hne
      exact ⟨s, hget.trans hs, hsz⟩

/-- Closing the open section writes its size down. -/
theorem close (h : a.Ordered) : a.closeSection.Ordered := by
  have hsize : ∀ {home g}, a.closeSection.sections[home]? = some g →
      a.closeSection.symbols.HasSize g := h.hasSize_close
  cases hc : a.current with
  | none =>
    rwa [closeSection_of_none hc]
  | some home =>
    have hlt := (h.opened hc).1
    obtain ⟨-, o, ho, hosec, -⟩ := h.exists_symbol (Array.getElem_mem hlt)
    have hm := SymbolTable.meaning_of_some ho
    rw [h.closeSection_eq hc hlt] at hsize ⊢
    have hin := h.meaning a.sections[home].name
    rw [hm] at hin
    refine ⟨⟨h.opened, h.limit, h.bare, h.homes, h.listed⟩, h.toRegistered.change (fun _ => ⟨rfl, rfl⟩) ?_ ?_,
      fun hg _ => hsize hg⟩
    · simp only [hm, hosec]
      rfl
    · rw [hm]
      exact ⟨fun _ hn => hin.reserved hosec hn, fun _ hn => hin.ofSection hosec hn, nofun, nofun, nofun⟩

/-- A new section begins empty, with all others closed. -/
theorem newSection (h : a.Ordered)
    (hsize : ∀ {home : Nat} {g : SectionData}, a.sections[home]? = some g → a.symbols.HasSize g)
    (hnew : a.symbols.get? name = none) : (a.opened name).Ordered where
  opened := by
    rintro home ⟨rfl⟩
    simp [Assembly.opened, sizeAt]
  limit g hg := by
    rcases Array.mem_push.mp hg with hg | rfl
    · exact h.limit g hg
    · exact Nat.zero_le _
  bare g hg := by
    rcases Array.mem_push.mp hg with hg | rfl
    · exact h.bare g hg
    · rfl
  homes e he := by
    have := h.homes e he
    simp only [Assembly.opened, Array.size_push]
    omega
  listed {home g} hg := by
    simp only [Assembly.opened, Array.getElem?_push] at hg
    by_cases hlast : home = a.sections.size
    · rw [if_pos hlast] at hg
      cases hg
      have hnone : (a.opened name).entriesOf home = [] := by
        refine List.filter_eq_nil_iff.mpr fun e he => ?_
        have := h.homes e (Array.mem_toList_iff.mp he)
        simp
        omega
      rw [hnone]
      exact ⟨rfl, rfl⟩
    · rw [if_neg hlast] at hg
      exact h.listed hg
  tidy := h.tidy.insert hnew rfl
  sections := by
    simp only [Assembly.opened, SymbolTable.sectionNames_insert, h.sections]
    simp [SymbolTable.freshSection, Symbol.isSection]
  symbols s hs := by
    have hgrows : a.Grows (a.opened name) :=
      ⟨SymbolTable.grows_insert _ _, fun g hg => ⟨g, Array.mem_push_of_mem _ hg, rfl, Nat.le_refl _⟩⟩
    rcases SymbolTable.mem_insert.mp hs with hs | rfl
    · exact (h.symbols s hs).mono hgrows
    · refine Symbol.inOrder_freshSection _ _ fun hn => ?_
      have hlisted : name ∈ a.symbols.sectionNames := by
        rw [h.sections, hn]
        exact List.mem_cons_self
      obtain ⟨o, ho, -⟩ := h.tidy.exists_section hlisted
      rw [ho] at hnew
      cases hnew
  closed {home g} hg hc := by
    have hne : home ≠ a.sections.size := fun he => hc (by rw [he]; rfl)
    simp only [Assembly.opened, Array.getElem?_push, if_neg hne] at hg
    obtain ⟨s, hs, hsz⟩ := hsize hg
    refine ⟨s, ?_, hsz⟩
    have hget := h.tidy.get?_insert (s := a.symbols.freshSection name) hnew rfl g.name
    rw [hs] at hget
    refine hget.trans (if_neg fun hname => ?_)
    have : g.name = name := hname
    rw [← this, hs] at hnew
    cases hnew

end Assembly.Ordered

/-! ### Bytes -/

theorem size_appendList (xs : Array UInt8) (ys : List UInt8) :
    (xs ++ ys).size = xs.size + ys.length := by
  rw [← Array.length_toList, Array.toList_appendList, List.length_append, Array.length_toList]

theorem covers_concat {lo hi : Nat} {es : List Emission} {e : Emission} (h : Covers lo es hi)
    (he : e.offset.toNat = hi) : Covers lo (es ++ [e]) (hi + e.bytes.length) := by
  induction es generalizing lo with
  | nil =>
    obtain rfl : lo = hi := h
    exact ⟨he, rfl⟩
  | cons x es ih => exact ⟨h.1, ih h.2⟩

namespace Assembly

variable {home : Nat} {bytes : List UInt8}

theorem getElem?_sections_emitted (a : Assembly) (home : Nat) (bytes : List UInt8) (k : Nat) :
    (a.emitted home bytes).sections[k]? = a.sections[k]?.map fun g =>
      { g with bytes := g.bytes ++ if home = k then bytes else [] } := by
  simp only [emitted, Array.getElem?_modify]
  by_cases hk : home = k
  · simp [hk]
  · cases a.sections[k]? <;> simp [hk]

theorem exists_of_emitted {k : Nat} {g : SectionData}
    (hg : (a.emitted home bytes).sections[k]? = some g) :
    ∃ g', a.sections[k]? = some g' ∧ g.relocations = g'.relocations ∧
      g.bytes.toList = g'.bytes.toList ++ (if home = k then bytes else []) ∧
      g.bytes.size = g'.bytes.size + (if home = k then bytes else []).length := by
  rw [getElem?_sections_emitted] at hg
  obtain ⟨g', hg', rfl⟩ := Option.map_eq_some_iff.mp hg
  exact ⟨g', hg', rfl, Array.toList_appendList, size_appendList _ _⟩

theorem entriesOf_emitted (a : Assembly) (home : Nat) (bytes : List UInt8) (k : Nat) :
    (a.emitted home bytes).entriesOf k =
      a.entriesOf k ++ if home = k then [⟨a.line, home, a.location, bytes⟩] else [] := by
  by_cases hk : home = k <;> simp [entriesOf, emitted, hk]

theorem sizeAt_emitted (a : Assembly) (hlt : home < a.sections.size) :
    (a.emitted home bytes).sizeAt home = a.sizeAt home + bytes.length := by
  simp [sizeAt, emitted, hlt, Array.getElem_modify, size_appendList]

/-- Bytes that fit are entered in the listing where they go. -/
theorem Stocked.emitted (h : a.Stocked) (hc : a.current = some home)
    (hfits : a.sizeAt home + bytes.length ≤ sectionLimit) : (a.emitted home bytes).Stocked := by
  obtain ⟨hlt, hlocation⟩ := h.opened hc
  have hold : ∀ {k : Nat} {g : SectionData}, a.sections[k]? = some g → g ∈ a.sections :=
    fun hk => Array.mem_of_getElem? hk
  refine ⟨fun {k} hk => ?_, fun g hg => ?_, fun g hg => ?_, fun e he => ?_, fun {k g} hg => ?_⟩
  · obtain rfl : home = k := Option.some.inj (hc.symm.trans hk)
    refine ⟨by simpa [Assembly.emitted] using hlt, ?_⟩
    rw [a.sizeAt_emitted hlt]
    show (UInt16.ofNat (a.sizeAt home + bytes.length)).toNat = _
    unfold sectionLimit at hfits
    rw [UInt16.toNat_ofNat']
    exact Nat.mod_eq_of_lt (by omega)
  · obtain ⟨k, hk⟩ := Array.mem_iff_getElem?.mp hg
    obtain ⟨g', hg', -, -, hsize⟩ := exists_of_emitted hk
    by_cases hhome : home = k
    · subst hhome
      simp only [sizeAt, hg', Option.map_some, Option.getD_some] at hfits
      rw [hsize, if_pos rfl]
      exact hfits
    · rw [hsize, if_neg hhome]
      exact h.limit g' (hold hg')
  · obtain ⟨k, hk⟩ := Array.mem_iff_getElem?.mp hg
    obtain ⟨g', hg', hrel, -⟩ := exists_of_emitted hk
    exact hrel.trans (h.bare g' (hold hg'))
  · have hsize : (a.emitted home bytes).sections.size = a.sections.size := by simp [Assembly.emitted]
    rw [hsize]
    rcases Array.mem_push.mp he with he | rfl
    · exact h.homes e he
    · exact hlt
  · obtain ⟨g', hg', -, hbytes, hsize⟩ := exists_of_emitted hg
    obtain ⟨hcovers, hflat⟩ := h.listed hg'
    rw [entriesOf_emitted, hbytes, hsize]
    by_cases hhome : home = k
    · subst hhome
      have hat : a.sizeAt home = g'.bytes.size := by simp [sizeAt, hg']
      simp only [if_true]
      refine ⟨covers_concat hcovers (hlocation.trans hat), ?_⟩
      rw [List.flatMap_append, hflat]
      simp
    · simpa [hhome] using ⟨hcovers, hflat⟩

theorem Ordered.emitted (h : a.Ordered) (hc : a.current = some home)
    (hfits : a.sizeAt home + bytes.length ≤ sectionLimit) : (a.emitted home bytes).Ordered where
  toStocked := h.toStocked.emitted hc hfits
  tidy := h.tidy
  sections := by
    have hnames : (a.emitted home bytes).sections.toList.map SectionData.name =
        a.sections.toList.map SectionData.name := by
      refine List.ext_getElem? fun k => ?_
      rw [List.getElem?_map, List.getElem?_map, Array.getElem?_toList, Array.getElem?_toList,
        getElem?_sections_emitted, Option.map_map]
      rfl
    rw [hnames]
    exact h.sections
  symbols s hs := by
    refine (h.symbols s hs).mono ⟨fun i s hi => ⟨s, hi, rfl, rfl⟩, fun g hg => ?_⟩
    obtain ⟨k, hk⟩ := Array.mem_iff_getElem?.mp hg
    have hgrown := getElem?_sections_emitted a home bytes k
    rw [hk, Option.map_some] at hgrown
    refine ⟨_, Array.mem_of_getElem? hgrown, rfl, ?_⟩
    rw [size_appendList]
    exact Nat.le_add_right _ _
  closed {k g} hg hk := by
    have hne : home ≠ k := fun he => hk (he ▸ hc)
    simp only [Assembly.emitted, Array.getElem?_modify, if_neg hne] at hg
    exact h.closed hg hk

/-! ### Lines -/

theorem Ordered.edit {l : SourceLine} (h : a.Ordered) (hab : Edit l a b) : b.Ordered := by
  cases hab with
  | mention name => exact h.mention name
  | label name hc hsec _ himp => exact h.label hc hsec himp
  | exports name _ himp => exact h.exports himp
  | imports name _ hexp hdef => exact h.imports hexp hdef
  | close => exact h.close
  | newSection name hnew => exact h.close.newSection (fun hg => h.hasSize_close hg) hnew

theorem Ordered.count (h : a.Ordered) : ({ a with line := a.line + 1 } : Assembly).Ordered where
  toStocked := ⟨h.opened, h.limit, h.bare, h.homes, h.listed⟩
  tidy := h.tidy
  sections := h.sections
  symbols s hs := (h.symbols s hs).mono (grows_of_eq rfl rfl)
  closed := h.closed

/-- **A line keeps a run in order**, whether it is taken or refused. -/
theorem Ordered.fed (h : a.Ordered) (t : String) : (a.fed t).Ordered :=
  fed_of_edits h (fun hb => hb.count) (fun _ hb hedit => hb.edit hedit)
    (fun name u hb => hb.use name u) (fun _ hb hc hfits => hb.emitted hc hfits)

theorem ordered_of_fedAll (ts : List String) : (fedAll ts).Ordered := by
  induction ts using List.reverseRecOn with
  | nil => exact ordered_start
  | append_singleton ts t ih =>
    rw [fedAll_concat]
    exact ih.fed t

end Assembly

/-! ### Finished runs -/

/-- A resolution is of a pending use. It keeps the name of a shared symbol; for a local one it has the
name of the section that the symbol belongs to. -/
theorem Symbol.exists_use_of_resolve {t : SymbolTable} {rs : List Resolution}
    (h : s.resolve t = .ok rs) {r : Resolution} (hr : r ∈ rs) :
    ∃ u ∈ s.uses, r.home = u.home ∧ r.relocation.offset = u.offset ∧
      (s.isLocal = false ∧ r.relocation.symbol = s.name ∨
        s.isLocal = true ∧ s.isDefined = true ∧
          r.relocation.symbol = ((t.byNumber? s.owner).map Symbol.name).getD "") := by
  unfold resolve at h
  by_cases hempty : s.uses.isEmpty
  · rw [if_pos hempty] at h
    cases h
    cases hr
  · rw [if_neg hempty] at h
    by_cases hlocal : s.isLocal
    · rw [hlocal, if_neg (by simp)] at h
      by_cases hdef : s.isDefined
      · rw [if_pos hdef] at h
        cases h
        obtain ⟨u, hu, rfl⟩ := List.mem_map.mp hr
        exact ⟨u, hu, rfl, rfl, Or.inr ⟨hlocal, hdef, rfl⟩⟩
      · rw [if_neg hdef] at h
        cases h
    · rw [if_pos (by simpa using hlocal)] at h
      cases h
      obtain ⟨u, hu, rfl⟩ := List.mem_map.mp hr
      exact ⟨u, hu, rfl, rfl, Or.inl ⟨by simpa using hlocal, rfl⟩⟩

theorem exists_symbol_of_resolveAll {t : SymbolTable} {ss : List Symbol} {rs : List Resolution}
    (h : resolveAll t ss = .ok rs) {r : Resolution} (hr : r ∈ rs) :
    ∃ s ∈ ss, ∃ rs', s.resolve t = .ok rs' ∧ r ∈ rs' := by
  induction ss generalizing rs with
  | nil =>
    cases h
    cases hr
  | cons s ss ih =>
    obtain ⟨rs1, hrs1, h⟩ := ok_of_bind h
    obtain ⟨rs2, hrs2, h⟩ := ok_of_bind h
    cases h
    rcases List.mem_append.mp hr with hr | hr
    · exact ⟨s, List.mem_cons_self, rs1, hrs1, hr⟩
    · obtain ⟨s', hs', hex⟩ := ih hrs2 hr
      exact ⟨s', List.mem_cons_of_mem _ hs', hex⟩

theorem SectionData.size_resolved (g : SectionData) (rs : List Resolution) :
    (g.resolved rs).bytes.size = g.bytes.size := by
  show (rs.foldl (fun bs r => addWord bs r.relocation.offset.toNat r.addend) g.bytes).size = _
  generalize g.bytes = bs
  induction rs generalizing bs with
  | nil => rfl
  | cons r rs ih =>
    rw [List.foldl_cons, ih, size_addWord]

theorem SectionData.mem_relocations_resolved {g : SectionData} {rs : List Resolution}
    {r : Relocation} : r ∈ (g.resolved rs).relocations ↔
      r ∈ g.relocations ∨ ∃ x ∈ rs, x.relocation = r := by
  simp [resolved, List.mem_mergeSort]

theorem map_resolved {α : Type} {g : SectionData → α}
    (hg : ∀ f rs, g (SectionData.resolved f rs) = g f) (fs : List SectionData)
    (rs : Nat → List Resolution) :
    (fs.zipIdx.map fun p => p.1.resolved (rs p.2)).map g = fs.map g :=
  calc (fs.zipIdx.map fun p => p.1.resolved (rs p.2)).map g
      = fs.zipIdx.map (g ∘ Prod.fst) := by
        rw [List.map_map]
        exact List.map_congr_left fun p _ => hg p.1 _
    _ = (fs.zipIdx.map Prod.fst).map g := List.map_map.symm
    _ = fs.map g := by rw [List.zipIdx_map_fst]

theorem getElem?_map_resolved (fs : Array SectionData) (rs : Nat → List Resolution) (home : Nat) :
    (fs.toList.zipIdx.map fun p => p.1.resolved (rs p.2))[home]? =
      fs[home]?.map fun f => f.resolved (rs home) := by
  rw [List.getElem?_map, List.getElem?_zipIdx, Array.getElem?_toList]
  cases fs[home]? <;> simp

/-- What a run leaves in the module when it is finished. -/
structure Assembly.Finished (a : Assembly) (m : ObjectModule) : Prop where
  /-- The sections are those of the run, with as many bytes. -/
  sections : m.sections.map (fun g => (g.name, g.bytes.size)) =
    a.sections.toList.map fun g => (g.name, g.bytes.size)
  /-- Section symbols, but for the reserved one, are the sections. -/
  names : m.symbols.sectionNames = Symbol.undefinedName :: m.sections.map SectionData.name
  /-- A section's symbol has the section's size. -/
  sizes : ∀ g ∈ m.sections, ∃ s, m.symbols.get? g.name = some s ∧
    s.size.map UInt16.toNat = some g.bytes.size
  /-- Nothing is pending. -/
  settled : ∀ s ∈ m.symbols.toList, s.uses = []
  /-- Relocations are of symbols that the module shares. -/
  shared : ∀ g ∈ m.sections, ∀ r ∈ g.relocations, ∃ s, m.symbols.get? r.symbol = some s ∧
    s.isLocal = false

namespace Assembly.Ordered

/-- A resolution is of a shared symbol: of the one that was used or of its section. -/
theorem shared_of_resolve (h : a.Ordered) (hs : s ∈ a.symbols.toList) {rs : List Resolution}
    (hrs : s.resolve a.symbols = .ok rs) {r : Resolution} (hr : r ∈ rs) :
    ∃ o, a.symbols.get? r.relocation.symbol = some o ∧ o.isLocal = false := by
  obtain ⟨u, -, -, -, ⟨hlocal, hname⟩ | ⟨hlocal, hdef, hname⟩⟩ := Symbol.exists_use_of_resolve hrs hr
  · rw [hname]
    exact ⟨s, h.tidy.get?_eq_some_iff.mpr ⟨hs, rfl⟩, hlocal⟩
  · have hin := h.symbols s hs
    cases hsec : s.isSection with
    | true =>
      by_cases hres : s.name = Symbol.undefinedName
      · exact absurd (hin.reserved hsec hres) (by simp [hdef])
      · have := (hin.ofSection hsec hres).1
        simp [Symbol.isLocal, this] at hlocal
    | false =>
      obtain ⟨g, hg, o, ho, hosec, honame, -⟩ := hin.placed hsec hdef
      have homem : o ∈ a.symbols.toList := SymbolTable.mem_toList_iff.mpr ⟨_, ho⟩
      have hne := (h.exists_symbol hg).1
      rw [← honame] at hne
      rw [h.tidy.byNumber?_eq, ho] at hname
      refine ⟨o, ?_, ?_⟩
      · rw [show r.relocation.symbol = o.name from hname]
        exact h.tidy.get?_of_byId? ho
      · simp [Symbol.isLocal, ((h.symbols o homem).ofSection hosec hne).1]

/-- **A run in order that is finished** gives a module whose parts agree. -/
theorem finish (h : a.Ordered) {m : ObjectModule} (hm : a.finish = .ok m) : a.Finished m := by
  obtain ⟨rs, hrs, -, rfl⟩ := finish_eq_ok_iff.mp hm
  have hc := h.close
  have hmem : ∀ {g : SectionData},
      g ∈ a.closeSection.sections.toList.zipIdx.map (fun p =>
        p.1.resolved (rs.filter (·.home == p.2))) →
      ∃ (home : Nat) (g' : SectionData), a.closeSection.sections[home]? = some g' ∧
        g'.resolved (rs.filter (·.home == home)) = g := by
    intro g hg
    obtain ⟨home, hhome⟩ := List.mem_iff_getElem?.mp hg
    rw [getElem?_map_resolved _ fun home => rs.filter (·.home == home)] at hhome
    exact ⟨home, Option.map_eq_some_iff.mp hhome⟩
  have hnames : a.closeSection.symbols.settled.sectionNames = a.closeSection.symbols.sectionNames := by
    simp only [SymbolTable.sectionNames, SymbolTable.settled, SymbolTable.toList, Array.toList_map,
      List.filter_map, List.map_map]
    rfl
  refine ⟨?_, ?_, fun g hg => ?_, fun s hs => ?_, fun g hg r hr => ?_⟩
  · rw [← sections_closeSection a]
    exact map_resolved (fun f rs => by rw [SectionData.size_resolved]; rfl) _
      fun home => rs.filter (·.home == home)
  · rw [hnames, hc.sections, map_resolved (fun _ _ => rfl) _ fun home => rs.filter (·.home == home)]
  · obtain ⟨home, g', hg', rfl⟩ := hmem hg
    obtain ⟨s, hs, hsz⟩ := h.hasSize_close hg'
    have hle := hc.limit g' (Array.mem_of_getElem? hg')
    unfold sectionLimit at hle
    refine ⟨_, hc.tidy.get?_settled hs, ?_⟩
    rw [SectionData.size_resolved, hsz, Option.map_some, UInt16.toNat_ofNat',
      Nat.mod_eq_of_lt (by omega)]
  · obtain ⟨s', -, rfl⟩ := SymbolTable.mem_settled.mp hs
    rfl
  · obtain ⟨home, g', hg', rfl⟩ := hmem hg
    rcases SectionData.mem_relocations_resolved.mp hr with hr | ⟨x, hx, rfl⟩
    · rw [hc.bare g' (Array.mem_of_getElem? hg')] at hr
      cases hr
    · obtain ⟨s, hs, rs', hrs', hx⟩ := exists_symbol_of_resolveAll hrs (List.mem_filter.mp hx).1
      obtain ⟨o, ho, hlocal⟩ := hc.shared_of_resolve hs hrs' hx
      exact ⟨_, hc.tidy.get?_settled ho, hlocal⟩

end Assembly.Ordered

/-- **After any lines, taken or refused,** the state of a run is in order; names are distinct, and each
stands for the symbol at whose number it is. If the run can be finished then, the parts of the module
agree. -/
theorem fedAll_in_order (ts : List String) :
    (fedAll ts).Ordered ∧ ((fedAll ts).symbols.toList.map Symbol.name).Nodup ∧
      (∀ i s, (fedAll ts).symbols.byId? i = some s →
        (fedAll ts).symbols.id? s.name = some i ∧ s.number = i) ∧
      ∀ m, (fedAll ts).finish = .ok m → (fedAll ts).Finished m := by
  have h := ordered_of_fedAll ts
  refine ⟨h, h.tidy.nodup_names, fun i s hs => ⟨?_, h.tidy.number hs⟩, fun m hm => h.finish hm⟩
  exact h.tidy.distinct.id?_eq_some_iff.mpr ⟨s, hs, rfl⟩

/-- Lines of which the second, the fourth and the fifth are refused, and one behind the end. -/
def mixedLines : List String :=
  [".section a", "halt halt", "x: .word y", "x:", ".section a", "y: .end", ".word 7"]

/-- What the lines are assembled to. -/
def mixedModule : ObjectModule where
  symbols := ⟨#[Symbol.undefined,
    { name := "a", owner := 1, exported := true, imported := true, number := 1, size := some 4 },
    { name := "x", owner := 1, number := 2 }, { name := "y", owner := 1, value := 2, number := 3 }]⟩
  sections := [⟨"a", #[2, 0, 7, 0], [⟨.symbolWord, 0, "a"⟩]⟩]

theorem fedAll_in_order_mixed : (fedAll mixedLines).finish = .ok mixedModule ∧
    (fedAll mixedLines).Finished mixedModule := by
  have hm : (fedAll mixedLines).finish = .ok mixedModule := ok_of_toOption (by decide +kernel)
  exact ⟨hm, (fedAll_in_order mixedLines).2.2.2 mixedModule hm⟩

end Sx16
