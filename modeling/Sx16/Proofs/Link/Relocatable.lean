/-
# What a joined module says about its sections

A joined module has one section of each name, with a symbol for its size, relocations for its
placeholders and symbols for the labels in it. All of these are right up to whole turns of 65536,
however many modules are joined: the size is that of the section, a relocation is at the placeholder
of the module that it comes from, behind the sections of the modules before, and so is a label. They
are right altogether just if the section has at most 65535 bytes, because nothing is checked here: a
section may become larger than its symbol can say, with placeholders that no relocation can reach.

Key definitions: `SectionData.JoinsAs`.
Key theorems: `Linkage.Gathers.tidy_toModule`, `Linkage.Gathers.joinsAs`, `SectionData.JoinsAs.exact`,
`linkPartially_joinsAs`.
-/
import Sx16.Proofs.Link.Gathered
import Sx16.Proofs.Link.Relinked

namespace Sx16

/-- A section of a joined module as the module describes it. A word `x` of the description is meant for
a number `n` if `stands x n`. -/
structure SectionData.JoinsAs (stands : UInt16 → Nat → Prop) (ms : List ObjectModule)
    (m : ObjectModule) (f : SectionData) : Prop where
  /-- The section has the bytes of all sections of its name. -/
  total : f.bytes.size = fragmentBase ms ms.length f.name
  /-- The size of its symbol is its own. -/
  size : ∃ s x, m.symbols.get? f.name = some s ∧ s.size = some x ∧ stands x f.bytes.size
  /-- Its relocations are those of the modules in order, each at its own placeholder, which is inside. -/
  relocations : List.Forall₂ (fun r p => r.kind = p.2.kind ∧ r.symbol = p.2.symbol ∧
    stands r.offset (p.1 + p.2.offset.toNat) ∧ p.1 + p.2.offset.toNat + 2 ≤ f.bytes.size)
    f.relocations (fragmentsOf ms f.name)
  /-- A label that a module gives is where the module's part of the section is, which is inside. -/
  labels : ∀ {j n name v}, ms[j]? = some n → n.Gives name f.name v → ∃ x, m.Gives name f.name x ∧
    stands x (fragmentBase ms j f.name + v.toNat) ∧ fragmentBase ms j f.name + v.toNat ≤ f.bytes.size

variable {ms : List ObjectModule} {m : ObjectModule} {f : SectionData} {l : Linkage}

/-- The relocations of a name are those of sections. -/
theorem exists_of_mem_fragmentsOf {name : String} {p : Nat × Relocation}
    (hp : p ∈ fragmentsOf ms name) : ∃ j n, ms[j]? = some n ∧ p.1 = fragmentBase ms j name ∧
      ∃ g ∈ n.sections, g.name = name ∧ p.2 ∈ g.relocations := by
  obtain ⟨⟨n, j⟩, hn, hp⟩ := List.mem_flatMap.mp hp
  obtain ⟨r, hr, rfl⟩ := List.mem_map.mp hp
  refine ⟨j, n, List.mem_zipIdx_iff_getElem?.mp hn, rfl, ?_⟩
  unfold relocationsIn at hr
  cases hg : entryOf SectionData.name n.sections name with
  | none => simp [hg] at hr
  | some g => exact ⟨g, mem_of_entryOf hg, key_of_entryOf hg, by simpa [hg] using hr⟩

namespace Linkage.Gathers

/-- The symbols of the joined module are in order. -/
theorem tidy_toModule (h : l.Gathers ms) : l.toModule.symbols.Tidy := by
  have hsections : (l.segments.map Segment.name).Nodup := names_parts l ▸ h.names
  have hlabels : (l.labels.map LinkSymbol.name).Nodup := h.keys.sublist (List.filter_sublist.map _)
  rw [symbols_toModule]
  refine SymbolTable.tidy_of_numbers (map_number_numbered l) ?_
  rw [map_name_numbered]
  refine List.nodup_append.mpr ⟨List.nodup_cons.mpr ⟨?_, hsections⟩, hlabels, ?_⟩
  · rw [← names_parts]
    exact h.unreserved
  · rintro _ ha _ hb rfl
    obtain ⟨k, hk, rfl⟩ := List.mem_map.mp hb
    obtain ⟨hmem, hsec⟩ := mem_labels.mp hk
    rcases List.mem_cons.mp ha with hname | ha
    · rw [h.reserved k hmem hname] at hsec
      cases hsec
    · rw [← names_parts] at ha
      have hkind := h.areas k.name ha
      rw [kind?, entryOf_of_mem h.keys hmem, Option.map_some, hsec] at hkind
      cases hkind

theorem exists_get?_section (h : l.Gathers ms) (hf : f ∈ l.toModule.sections) :
    ∃ s, l.toModule.symbols.get? f.name = some s ∧ s.size = some (UInt16.ofNat f.bytes.size) := by
  obtain ⟨g, hg, rfl⟩ := List.mem_map.mp hf
  obtain ⟨i, hi⟩ := List.mem_iff_getElem?.mp hg
  refine ⟨sectionSymbol g (i + 1), h.tidy_toModule.get?_eq_some_iff.mpr ⟨?_, rfl⟩, rfl⟩
  exact mem_numbered.mpr (Or.inr (Or.inl ⟨i, g, hi, rfl⟩))

/-- A label that was placed is one that the joined module gives. -/
theorem gives_toModule (h : l.Gathers ms) {name home : String} {offset : Nat}
    (hp : l.Places name home offset) : l.toModule.Gives name home (UInt16.ofNat offset) := by
  obtain ⟨k, hk, hsec, hexp, himp, hhome, hin, hvalue⟩ := hp
  have hlabel : k ∈ l.labels := mem_labels.mpr ⟨mem_of_entryOf hk, hsec⟩
  obtain ⟨i, hi⟩ := List.mem_iff_getElem?.mp hlabel
  rw [names_parts] at hin
  obtain ⟨hne, hnumber⟩ := byNumber?_sectionNumber h.tidy_toModule hin
  have howner : (l.labelSymbol k (l.segments.length + 1 + i)).owner = l.sectionNumber home := by
    rw [labelSymbol, hhome]
    rfl
  refine ⟨l.labelSymbol k (l.segments.length + 1 + i), h.tidy_toModule.get?_eq_some_iff.mpr ⟨?_, ?_⟩,
    rfl, hexp, ?_, ?_, hvalue⟩
  · exact mem_numbered.mpr (Or.inr (Or.inr ⟨k, hlabel, i, rfl, hi⟩))
  · exact (key_of_entryOf hk : k.name = name)
  · rw [Symbol.isDefined, howner]
    exact bne_iff_ne.mpr hne
  · rw [howner, hnumber]

/-- **What the joined module says about a section** is right up to whole turns. -/
theorem joinsAs (h : l.Gathers ms) (hms : ∀ n ∈ ms, n.Regular)
    (hplaces : ∀ j n name home v, ms[j]? = some n → n.Gives name home v →
      l.Places name home (fragmentBase ms j home + v.toNat)) (hf : f ∈ l.toModule.sections) :
    f.JoinsAs (fun x n => x = UInt16.ofNat n) ms l.toModule := by
  have hf' : f ∈ l.parts.pieces := hf
  have htotal : f.bytes.size = fragmentBase ms ms.length f.name := by
    rw [← h.sizes, sizeIn_of_mem h.names hf']
  -- A part of the section ends inside it.
  have hpart : ∀ {j n g}, ms[j]? = some n → g ∈ n.sections → g.name = f.name →
      fragmentBase ms j f.name + g.bytes.size ≤ f.bytes.size := by
    intro j n g hj hg hname
    have hle := fragmentBase_add_sizeIn_le hj g.name
    rw [sizeIn_of_mem (hms n (List.mem_of_getElem? hj)).neat.nodup hg, hname] at hle
    rwa [htotal]
  obtain ⟨s, hs, hsize⟩ := h.exists_get?_section hf
  refine ⟨htotal, ⟨s, _, hs, hsize, rfl⟩, ?_, fun {j n name v} hj hgives => ?_⟩
  · rw [← relocationsIn_of_mem h.names hf', h.relocations, List.forall₂_map_left_iff, List.forall₂_same]
    intro p hp
    obtain ⟨j, n, hj, hbase, g, hg, hname, hr⟩ := exists_of_mem_fragmentsOf hp
    have hin := (hms n (List.mem_of_getElem? hj)).inside g hg p.2 hr
    have hle := hpart hj hg hname
    refine ⟨rfl, rfl, ?_, by omega⟩
    show p.2.offset + UInt16.ofNat p.1 = _
    rw [UInt16.add_comm, UInt16.ofNat_add, UInt16.ofNat_toNat]
  · obtain ⟨s, -, -, -, -, -, -, -, -, g, hg, hname, hv⟩ :=
      (hms n (List.mem_of_getElem? hj)).of_gives hgives
    have hle := hpart hj hg hname
    exact ⟨_, h.gives_toModule (hplaces j n name f.name v hj hgives), rfl, by omega⟩

end Linkage.Gathers

/-- In a section of at most 65535 bytes a word stands for one number only. -/
theorem SectionData.JoinsAs.exact (h : f.JoinsAs (fun x n => x = UInt16.ofNat n) ms m)
    (hsize : f.bytes.size ≤ 0xFFFF) : f.JoinsAs (fun x n => x.toNat = n) ms m := by
  have hone : ∀ {x : UInt16} {n : Nat}, x = UInt16.ofNat n → n ≤ f.bytes.size → x.toNat = n := by
    rintro x n rfl hn
    rw [UInt16.toNat_ofNat', Nat.mod_eq_of_lt (by omega)]
  obtain ⟨s, x, hs, hx, hstands⟩ := h.size
  refine ⟨h.total, ⟨s, x, hs, hx, hone hstands (Nat.le_refl _)⟩, h.relocations.imp ?_, ?_⟩
  · rintro r p ⟨hkind, hsymbol, hoffset, hin⟩
    exact ⟨hkind, hsymbol, hone hoffset (by omega), hin⟩
  · intro j n name v hj hgives
    obtain ⟨x, hx, hstands, hin⟩ := h.labels hj hgives
    exact ⟨x, hx, hone hstands hin, hin⟩

/-- **A joined module describes its sections** up to whole turns of 65536, and a section is described
as it is just if it has at most 65535 bytes. Every section symbol but the reserved one is that of a
section, and every label that a module gives is in one. -/
theorem linkPartially_joinsAs (hms : ∀ n ∈ ms, ∃ src, assemble src = .ok n)
    (h : linkPartially ms = .ok m) :
    m.symbols.Tidy ∧
    (∀ s ∈ m.symbols.toList, s.isSection = true →
      s = Symbol.undefined ∨ s.name ∈ m.sections.map SectionData.name) ∧
    (∀ (j : Nat) (n : ObjectModule) (name home : String) (v : UInt16), ms[j]? = some n →
      n.Gives name home v → home ∈ m.sections.map SectionData.name) ∧
    ∀ f ∈ m.sections, f.JoinsAs (fun x n => x = UInt16.ofNat n) ms m ∧
      (f.JoinsAs (fun x n => x.toNat = n) ms m ↔ f.bytes.size ≤ 0xFFFF) := by
  have hregular : ∀ n ∈ ms, n.Regular := fun n hn => by
    obtain ⟨src, hsrc⟩ := hms n hn
    exact regular_of_assemble hsrc
  rw [linkPartially_eq] at h
  cases hrun : (Linkage.addAll ms).run {} with
  | error e l =>
    rw [hrun] at h
    cases h
  | ok u l =>
    rw [hrun] at h
    cases h
    obtain ⟨hgathers, hplaces⟩ := Linkage.gathers_of_run_addAll hregular hrun
    refine ⟨hgathers.tidy_toModule, fun s hs hsec => ?_, fun j n name home v hj hgives => ?_,
      fun f hf => ?_⟩
    · rcases Linkage.mem_numbered.mp hs with rfl | ⟨i, g, hg, rfl⟩ | ⟨k, -, i, rfl, -⟩
      · exact Or.inl rfl
      · refine Or.inr (List.mem_map.mpr ⟨g.data, ?_, rfl⟩)
        exact List.mem_map_of_mem (List.mem_of_getElem? hg)
      · cases hsec
    · obtain ⟨k, -, -, -, -, -, hin, -⟩ := hplaces j n name home v hj hgives
      exact hin
    · have hjoins := hgathers.joinsAs hregular hplaces hf
      refine ⟨hjoins, fun hexact => ?_, hjoins.exact⟩
      obtain ⟨s, x, -, -, hx⟩ := hexact.size
      have := x.toNat_lt
      omega

/-- Three modules joined: two that want a label and, between them, the one that gives it. -/
def joinedModule : ObjectModule where
  symbols := ⟨#[Symbol.undefined,
    { name := "code", owner := 1, exported := true, imported := true, number := 1, size := some 6 },
    { name := "y", owner := 1, value := 4, exported := true, number := 2 }]⟩
  sections := [⟨"code", #[0, 0, 7, 0, 0, 0], [⟨.symbolWord, 0, "y"⟩, ⟨.symbolWord, 4, "y"⟩]⟩]

theorem linkPartially_joinsAs_three :
    linkPartially [wantingModule, givingModule, wantingModule] = .ok joinedModule ∧
    ∀ f ∈ joinedModule.sections, f.JoinsAs (fun x n => x.toNat = n)
      [wantingModule, givingModule, wantingModule] joinedModule := by
  have hms : ∀ n ∈ [wantingModule, givingModule, wantingModule], ∃ src, assemble src = .ok n := by
    intro n hn
    have hn' : n ∈ [wantingModule, givingModule] := by
      simp only [List.mem_cons, List.not_mem_nil, or_false] at hn ⊢
      rcases hn with hn | hn | hn
      · exact Or.inl hn
      · exact Or.inr hn
      · exact Or.inl hn
    obtain ⟨src, -, -, -, -, hm⟩ := assembled_of_mem_two n hn'
    exact ⟨src, hm⟩
  have hm : linkPartially [wantingModule, givingModule, wantingModule] = .ok joinedModule :=
    ok_of_toOption (by decide +kernel)
  obtain ⟨-, -, -, hsections⟩ := linkPartially_joinsAs hms hm
  refine ⟨hm, fun f hf => (hsections f hf).2.mpr ?_⟩
  obtain rfl := List.mem_singleton.mp hf
  decide

/-! ### A section that is too large -/

/-- A module with one section. -/
def sectionModule (bytes : Array UInt8) : ObjectModule where
  symbols := ⟨#[Symbol.undefined, Linkage.sectionSymbol { name := "a", bytes } 1]⟩
  sections := [⟨"a", bytes, []⟩]

theorem linkPartially_sections (bytes bytes' : Array UInt8) :
    linkPartially [sectionModule bytes, sectionModule bytes'] = .ok (sectionModule (bytes ++ bytes')) := by
  rfl

/-- A run in which one section was opened, and bytes were put into it. -/
def sectionRun (bytes : List UInt8) : Assembly := (({ line := 2 } : Assembly).opened "a").emitted 0 bytes

theorem finish_sectionRun (bytes : List UInt8) :
    (sectionRun bytes).finish = .ok (sectionModule ((#[] : Array UInt8) ++ bytes)) := by
  have hsymbols : (sectionRun bytes).closeSection.symbols =
      SymbolTable.modify ⟨#[Symbol.undefined, Linkage.sectionSymbol { name := "a" } 1]⟩ 1 fun s =>
        { s with size := some (UInt16.ofNat (0 + bytes.length)) } := rfl
  have hsections : (sectionRun bytes).closeSection.sections = #[⟨"a", (#[] : Array UInt8) ++ bytes, []⟩] := by
    show (sectionRun bytes).sections = _
    simp [sectionRun, Assembly.opened, Assembly.emitted]
  refine Assembly.finish_eq_ok_iff.mpr ⟨[], rfl, rfl, ?_⟩
  rw [hsymbols, hsections]
  simp [sectionModule, Linkage.sectionSymbol, SymbolTable.settled, SymbolTable.modify, Symbol.undefined,
    SectionData.resolved]

/-- A source text with one section of zero bytes. -/
theorem assemble_skip {src t : String} {count : UInt16} (hlines : Text.lines src = [".section a", t])
    (ht : SourceLine.ofText t = .ok ⟨none, some (.directive (.skip count))⟩) : assemble src =
      .ok (sectionModule ((#[] : Array UInt8) ++ List.replicate count.toNat (0 : UInt8))) := by
  have hsection : SourceLine.ofText ".section a" = .ok ⟨none, some (.directive (.newSection "a"))⟩ :=
    ok_of_toOption (by decide +kernel)
  have hopened : (Assembly.feed ".section a").run {} =
      .ok .more (({ line := 1 } : Assembly).opened "a") :=
    (Assembly.run_feed_of_directive hsection {}).trans rfl
  have hfilled : (Assembly.feed t).run (({ line := 1 } : Assembly).opened "a") =
      .ok .more (sectionRun (List.replicate count.toNat 0)) := by
    refine Assembly.run_feed_of_skip ht rfl ?_
    have := count.toNat_lt
    show 0 + count.toNat ≤ 0xFFFF
    omega
  have hrun : (Assembly.feedAll [".section a", t]).run {} =
      .ok () (sectionRun (List.replicate count.toNat 0)) := by
    rw [Assembly.feedAll, EStateM.run_bind, hopened]
    simp only
    rw [Assembly.feedAll, EStateM.run_bind, hfilled]
    rfl
  unfold EStateM.run at hrun
  rw [assemble, hlines, hrun]
  exact finish_sectionRun _

/-- Two sections of 65535 bytes are joined to one of which the symbol of the joined module says that it
has 65534 bytes. -/
theorem linkPartially_oversized : ∃ n m f s, assemble ".section a\n.skip 65535\n" = .ok n ∧
    linkPartially [n, n] = .ok m ∧ f ∈ m.sections ∧ f.bytes.size = 131070 ∧
      m.symbols.get? f.name = some s ∧ s.size = some 65534 := by
  have hlines : Text.lines ".section a\n.skip 65535\n" = [".section a", ".skip 65535"] := by decide +kernel
  have hskip : SourceLine.ofText ".skip 65535" = .ok ⟨none, some (.directive (.skip 65535))⟩ :=
    ok_of_toOption (by decide +kernel)
  have hassembled := assemble_skip hlines hskip
  have hsize : ((#[] : Array UInt8) ++ List.replicate (65535 : UInt16).toNat (0 : UInt8)).size = 65535 := by
    rw [size_appendList, List.length_replicate]
    rfl
  generalize (#[] : Array UInt8) ++ List.replicate (65535 : UInt16).toNat (0 : UInt8) = bytes at *
  have htotal : (bytes ++ bytes).size = 131070 := by rw [Array.size_append, hsize]
  refine ⟨_, _, _, _, hassembled, linkPartially_sections bytes bytes, List.mem_singleton_self _, htotal,
    rfl, ?_⟩
  show some (UInt16.ofNat (bytes ++ bytes).size) = some 65534
  rw [htotal]
  rfl

end Sx16
