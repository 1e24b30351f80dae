/-
# The order of modules

Where no section name occurs in two modules and every section has a fixed address, the order in which
modules are linked does not matter: the same lists of modules can be linked, and the images are the
same. Symbols are merged in another order, sections are checked and stored in another order, but which
modules can be joined, which names are resolved, which layouts are clear and what a placeholder is
filled with are all matters of the modules together.

Key theorems: `Linkage.Holds.checkResolved_of_perm`, `Linkage.Holds.patch_located_of_perm`,
`Linkage.Holds.storeAll_blocks_of_perm`, `link_perm`.
-/
import Sx16.Proofs.Link.Joinable

namespace Sx16
namespace Linkage

variable {l l' : Linkage} {ms ms' : List ObjectModule} {places starts starts' : Named UInt16}

/-! ### Names -/

theorem Holds.mem_names_of_perm (h : l.Holds ms) (h' : l'.Holds ms') (hp : ms.Perm ms')
    {k : LinkSymbol} (hk : k ∈ l.symbols) : ∃ k' ∈ l'.symbols, k'.name = k.name := by
  obtain ⟨m, hm, s, hs, heq⟩ := h.source k hk
  obtain ⟨k', hk', hcovers⟩ := h'.covered m (hp.mem_iff.mp hm) s hs
  exact ⟨k', hk', hcovers.name.trans (by rw [heq])⟩

/-- **The names of both linkages** are resolved if those of one are. -/
theorem Holds.checkResolved_of_perm (h : l.Holds ms) (h' : l'.Holds ms') (hp : ms.Perm ms')
    (hms : ∀ m ∈ ms, m.Standard) (hagree : ms.Pairwise ObjectModule.Agrees)
    (hres : l.checkResolved = .ok ()) : l'.checkResolved = .ok () := by
  rw [checkResolved_eq_ok] at hres ⊢
  intro k' hk'
  obtain ⟨k, hk, hname⟩ := h'.mem_names_of_perm h hp.symm hk'
  exact (h.matches h' hp hms hagree hk hk' hname.symm (hres k hk)).resolved

/-! ### Placeholders -/

theorem startOf_placed_of_fixed (hstarts : ∀ name ∈ l.parts.pieces.map SectionData.name,
    starts.lookup name = places.lookup name) (name : String) :
    (l.placed places starts).startOf name =
      if name ∈ l.parts.pieces.map SectionData.name then (places.lookup name).getD 0 else 0 := by
  by_cases hname : name ∈ l.parts.pieces.map SectionData.name
  · rw [if_pos hname, startOf_placed hname, hstarts name hname]
  · rw [if_neg hname, startOf_placed_of_not_mem hname]

/-- Matching symbols have one address. -/
theorem target_eq_of_matches {k k' : LinkSymbol} (h : k.Matches k') (hname : k'.name = k.name)
    (hstart : (l'.placed places starts').startOf = (l.placed places starts).startOf) :
    (l'.located places starts').target (k'.located (l'.placed places starts').startOf) =
      (l.located places starts).target (k.located (l.placed places starts).startOf) := by
  have hmoved : ∀ (l : Linkage) (starts : Named UInt16),
      (l.located places starts).startOf = (l.placed places starts).startOf := fun _ _ => rfl
  unfold target
  rw [hmoved, hmoved, hstart]
  unfold LinkSymbol.located
  cases hsec : k.isSection with
  | true =>
    have hsec' : k'.isSection = true := h.kind.trans hsec
    simp [hsec', hsec, hname]
  | false =>
    have hsec' : k'.isSection = false := h.kind.trans hsec
    obtain ⟨hvalue, hhome⟩ := h.label hsec
    simp [hsec', hvalue, hhome]

/-- **Placeholders are filled alike** in both linkages. -/
theorem Holds.patch_located_of_perm (h : l.Holds ms) (h' : l'.Holds ms') (hp : ms.Perm ms')
    (hms : ∀ m ∈ ms, m.Standard) (hagree : ms.Pairwise ObjectModule.Agrees)
    (hres : l.checkResolved = .ok ())
    (hstart : (l'.placed places starts').startOf = (l.placed places starts).startOf) :
    (l'.located places starts').patch = (l.located places starts).patch := by
  rw [checkResolved_eq_ok] at hres
  have hsymbol : ∀ (l : Linkage) (starts : Named UInt16) (name : String),
      (l.located places starts).symbol? name = (entryOf LinkSymbol.name l.symbols name).map
        (LinkSymbol.located (l.placed places starts).startOf) :=
    fun l starts name => symbol?_moveLabels (l.placed places starts) name
  funext start r
  have haddend : (l'.located places starts').addend? start r =
      (l.located places starts).addend? start r := by
    unfold addend?
    rw [hsymbol, hsymbol]
    cases hk : entryOf LinkSymbol.name l.symbols r.symbol with
    | none =>
      have hnone : entryOf LinkSymbol.name l'.symbols r.symbol = none := by
        rw [entryOf_eq_none_iff] at hk ⊢
        intro hmem
        obtain ⟨k', hk', hname⟩ := List.mem_map.mp hmem
        obtain ⟨k, hkl, hkname⟩ := h'.mem_names_of_perm h hp.symm hk'
        exact hk (hname ▸ hkname ▸ List.mem_map_of_mem hkl)
      rw [hnone]
      simp only [Option.map_none]
    | some k =>
      have hkl := mem_of_entryOf hk
      obtain ⟨k', hk', hname⟩ := h.mem_names_of_perm h' hp hkl
      have hentry := entryOf_of_mem h'.keys hk'
      rw [hname, key_of_entryOf hk] at hentry
      have hmatches := h.matches h' hp hms hagree hkl hk' hname (hres k hkl)
      rw [hentry]
      simp only [Option.map_some, target_eq_of_matches hmatches hname hstart]
  unfold patch
  rw [haddend]

/-! ### Images -/

/-- **Both linkages give one image** if all their segments have the addresses that were asked for. -/
theorem Holds.storeAll_blocks_of_perm (h : l.Holds ms) (h' : l'.Holds ms') (hp : ms.Perm ms')
    (hms : ∀ m ∈ ms, m.Standard) (hagree : ms.Pairwise ObjectModule.Agrees)
    (hres : l.checkResolved = .ok ())
    (hstarts : ∀ name ∈ l.parts.pieces.map SectionData.name,
      starts.lookup name = places.lookup name)
    (hstarts' : ∀ name ∈ l.parts.pieces.map SectionData.name,
      starts'.lookup name = places.lookup name)
    (hapart : Blocks (l.blocks places starts)) :
    Image.empty.storeAll (l'.blocks places starts') =
      Image.empty.storeAll (l.blocks places starts) := by
  have hpieces : l.parts.pieces.Perm l'.parts.pieces := by
    rw [h.pieces, h'.pieces]
    exact hp.flatMap_right _
  have hnames : ∀ name, name ∈ l'.parts.pieces.map SectionData.name ↔
      name ∈ l.parts.pieces.map SectionData.name := fun name => (hpieces.map _).mem_iff.symm
  have hstart : (l'.placed places starts').startOf = (l.placed places starts).startOf := by
    funext name
    rw [startOf_placed_of_fixed hstarts,
      startOf_placed_of_fixed fun name hname => hstarts' name ((hnames name).mp hname)]
    simp only [hnames]
  have hblocks : (l.blocks places starts).Perm (l'.blocks places starts') := by
    have hsame : l'.blocks places starts' = l'.parts.pieces.map fun f => (startIn starts f.name,
        (patched f.bytes (f.relocations.map
          ((l.located places starts).patch (startIn starts f.name)))).toList) := by
      unfold blocks
      rw [h.patch_located_of_perm h' hp hms hagree hres hstart]
      refine List.map_congr_left fun f hf => ?_
      have hname : f.name ∈ l.parts.pieces.map SectionData.name :=
        (hnames f.name).mp (List.mem_map_of_mem hf)
      unfold startIn
      rw [hstarts f.name hname, hstarts' f.name hname]
    rw [hsame]
    exact hpieces.map _
  exact (Image.storeAll_perm hapart hblocks).symm

end Linkage

/-! ### Linking in any order -/

variable {ms ms' : List ObjectModule} {places : Named UInt16} {image : Image}

/-- What a layout has for a fixed demand. -/
theorem lookup_asked {fs : List SectionData} (hn : (fs.map SectionData.name).Nodup)
    (hfixed : ∀ f ∈ fs, (places.lookup f.name).isSome) {name : String}
    (hname : name ∈ fs.map SectionData.name) :
    ((fs.map fun f => (f.name, (⟨f.bytes.size, places.lookup f.name⟩ : Demand))).map
      fun e => (e.1, e.2.fixed.getD 0)).lookup name = places.lookup name := by
  obtain ⟨f, hf, rfl⟩ := List.mem_map.mp hname
  obtain ⟨a, ha⟩ := Option.isSome_iff_exists.mp (hfixed f hf)
  rw [List.map_map]
  have hmem : (f.name, a) ∈ fs.map ((fun e : String × Demand => (e.1, e.2.fixed.getD 0)) ∘
      fun f => (f.name, ⟨f.bytes.size, places.lookup f.name⟩)) := by
    refine List.mem_map.mpr ⟨f, hf, ?_⟩
    simp [ha]
  have hkeys : ((fs.map ((fun e : String × Demand => (e.1, e.2.fixed.getD 0)) ∘
      fun f => (f.name, ⟨f.bytes.size, places.lookup f.name⟩))).map Prod.fst).Nodup := by
    rw [List.map_map]
    exact hn
  rw [lookup_of_mem hkeys hmem, ha]

/-- Linking gives an image if the run of all its steps does. -/
theorem link_eq_ok_iff_run : link ms places = .ok image ↔
    ∃ l, (Linkage.linkAll ms places).run {} = .ok image l := by
  unfold link LinkM.result EStateM.run
  cases Linkage.linkAll ms places {} with
  | error e l => exact ⟨nofun, nofun⟩
  | ok i l =>
    constructor
    · rintro ⟨⟩
      exact ⟨l, rfl⟩
    · rintro ⟨l', ⟨⟩⟩
      rfl

/-- Modules that were linked can be linked in another order, to the same image. -/
theorem link_of_perm (hms : ∀ m ∈ ms, m.Standard)
    (hsep : ms.Pairwise ObjectModule.SharesNoSection)
    (hfixed : ∀ m ∈ ms, ∀ f ∈ m.sections, (places.lookup f.name).isSome) (hp : ms.Perm ms')
    (h : link ms places = .ok image) : link ms' places = .ok image := by
  have hms' : ∀ m ∈ ms', m.Standard := fun m hm => hms m (hp.mem_iff.mpr hm)
  have hsep' := hp.pairwise hsep ObjectModule.SharesNoSection.symm
  obtain ⟨last, hrun⟩ := link_eq_ok_iff_run.mp h
  obtain ⟨l, starts, hadd, hres, hstarts, hrel⟩ := Linkage.exists_of_run_linkAll hrun
  have hl := Linkage.holds_of_run_addAll hms hsep hadd
  have hagree := (Linkage.exists_run_addAll_iff hms hsep).mp ⟨l, hadd⟩
  obtain ⟨l', hadd'⟩ := (Linkage.exists_run_addAll_iff hms' hsep').mpr
    (hp.pairwise hagree ObjectModule.Agrees.symm)
  have hl' := Linkage.holds_of_run_addAll hms' hsep' hadd'
  have hres' := hl.checkResolved_of_perm hl' hp hms hagree hres
  -- Both linkages have the same segments, in another order, and each asks for an address.
  have hpieces : l.parts.pieces.Perm l'.parts.pieces := by
    rw [hl.pieces, hl'.pieces]
    exact hp.flatMap_right _
  have hn : (l.parts.pieces.map SectionData.name).Nodup :=
    Linkage.nodup_of_run_addAll (l := {}) (fun m hm => (hms m hm).neat) List.nodup_nil hadd
  have hn' : (l'.parts.pieces.map SectionData.name).Nodup := (hpieces.map _).nodup_iff.mp hn
  have hasked : ∀ f ∈ l.parts.pieces, (places.lookup f.name).isSome := by
    intro f hf
    rw [hl.pieces] at hf
    obtain ⟨m, hm, hf⟩ := List.mem_flatMap.mp hf
    exact hfixed m hm f hf
  have hdemands : ∀ e ∈ l.parts.demands places, e.2.fixed.isSome :=
    List.forall_mem_map.mpr hasked
  have hstarts' := allocate_of_perm hdemands (hpieces.map _) hstarts
  obtain ⟨rfl, -⟩ := (allocate_eq_ok_iff_of_fixed hdemands).mp hstarts
  have himage := hl.storeAll_blocks_of_perm hl' hp hms hagree hres
    (fun name hname => lookup_asked hn hasked hname)
    (fun name hname => lookup_asked hn' (fun f hf => hasked f (hpieces.mem_iff.mpr hf))
      ((hpieces.map _).mem_iff.mp hname))
    (Linkage.blocks_apart hn hstarts)
  rw [Linkage.run_relocate_blocks hn hstarts] at hrel
  cases hrel
  have hrun' := Linkage.run_linkAll hadd' hres' hstarts'
  rw [Linkage.run_relocate_blocks hn' hstarts', himage] at hrun'
  exact link_eq_ok_iff_run.mpr ⟨_, hrun'⟩

/-- **The order of modules does not matter** where nothing is joined or packed: of assembled modules
without a common section, all of whose sections have fixed addresses, a list can be linked just if any
other order of it can, and then the images are the same. -/
theorem link_perm (hms : ∀ m ∈ ms, ∃ src, assemble src = .ok m)
    (hsep : ms.Pairwise ObjectModule.SharesNoSection)
    (hfixed : ∀ m ∈ ms, ∀ f ∈ m.sections, (places.lookup f.name).isSome) (hp : ms.Perm ms') :
    ∀ image, link ms' places = .ok image ↔ link ms places = .ok image := by
  have hstandard : ∀ m ∈ ms, m.Standard := by
    intro m hm
    obtain ⟨src, hsrc⟩ := hms m hm
    exact standard_of_assemble hsrc
  have hstandard' : ∀ m ∈ ms', m.Standard := fun m hm => hstandard m (hp.mem_iff.mpr hm)
  have hsep' := hp.pairwise hsep ObjectModule.SharesNoSection.symm
  have hfixed' : ∀ m ∈ ms', ∀ f ∈ m.sections, (places.lookup f.name).isSome :=
    fun m hm => hfixed m (hp.mem_iff.mpr hm)
  intro image
  exact ⟨link_of_perm hstandard' hsep' hfixed' hp.symm, link_of_perm hstandard hsep hfixed hp⟩

/-- A module that gives a label to others, behind a word in a section of its own. -/
def tableModule : ObjectModule where
  symbols := ⟨#[Symbol.undefined, { name := "y", owner := 2, value := 2, exported := true, number := 1 },
    { name := "table", owner := 2, exported := true, imported := true, number := 2, size := some 2 }]⟩
  sections := [⟨"table", #[7, 0], []⟩]

theorem link_perm_two : ∃ image,
    link [wantingModule, tableModule] [("code", 0x4000), ("table", 0x5000)] = .ok image ∧
    link [tableModule, wantingModule] [("code", 0x4000), ("table", 0x5000)] = .ok image ∧
    image.get? 0x4000 = some 2 ∧ image.get? 0x4001 = some 0x50 := by
  have htable : (assemble ".global y\n.section table\n.word 7\ny:").toOption = some tableModule := by
    decide +kernel
  have hms : ∀ m ∈ [wantingModule, tableModule], ∃ src, assemble src = .ok m := by
    intro m hm
    rcases List.mem_cons.mp hm with rfl | hm
    · obtain ⟨src, -, -, -, -, hsrc⟩ := assembled_wantingModule
      exact ⟨src, hsrc⟩
    · obtain rfl := List.mem_singleton.mp hm
      exact ⟨_, ok_of_toOption htable⟩
  have hlinked : ((link [wantingModule, tableModule] [("code", 0x4000), ("table", 0x5000)]).toOption.map
      fun image => (image.get? 0x4000, image.get? 0x4001)) = some (some 2, some 0x50) := by
    decide +kernel
  obtain ⟨image, himage, hbytes⟩ := Option.map_eq_some_iff.mp hlinked
  obtain ⟨hlow, hhigh⟩ := Prod.mk.inj hbytes
  have hfirst := ok_of_toOption himage
  refine ⟨image, hfirst, ?_, hlow, hhigh⟩
  refine (link_perm hms ?_ ?_ (List.Perm.swap _ _ []) image).mpr hfirst
  · refine List.pairwise_pair.mpr fun f hf g hg => ?_
    obtain rfl := List.mem_singleton.mp hf
    obtain rfl := List.mem_singleton.mp hg
    decide
  · decide

end Sx16
