/-
# Linking in terms of parts

What linking does after all modules were added depends on the joined parts alone: every shared name
has to be a section or a label in a section, the sections have to be laid out, and then the image
holds every section at its start with its placeholders filled. So linking gives an image just if the
modules agree and the joined parts are settled and laid out, and the image is that of the parts.

Key definitions: `Role.address`, `Parts.Settled`, `Parts.demands`, `Parts.filled`, `Parts.image`,
`Parts.LinksTo`.
Key theorems: `Linkage.checkResolved_eq_ok_iff`, `Linkage.run_relocate`, `link_eq_ok_iff`.
-/
import Sx16.Link.Relocate
import Sx16.Proofs.Image
import Sx16.Proofs.Link.Added
import Sx16.Proofs.Link.Placed

namespace Sx16

/-- The address of a name, by the starts of sections. -/
def Role.address (start : String → UInt16) (name : String) : Role → UInt16
  | area => start name
  | wanted => 0
  | given home value => value + (home.map start).getD 0

namespace Parts

/-- Every shared name is a section, or a label in a section. -/
def Settled (p : Parts) : Prop :=
  ∀ name x, p.roles name = some x → x = .area ∨ ∃ home v, x = .given (some home) v

/-- What each section asks for. -/
def demands (p : Parts) (places : Named UInt16) : Named Demand :=
  p.pieces.map fun f => (f.name, ⟨f.bytes.size, places.lookup f.name⟩)

/-- The address of a shared name. -/
def address (p : Parts) (start : String → UInt16) (name : String) : UInt16 :=
  ((p.roles name).map (Role.address start name)).getD 0

/-- What a placeholder of a section with a start is filled with. -/
def patch (p : Parts) (start : String → UInt16) (home : String) (r : Relocation) : Patch where
  pos := r.offset.toNat
  addend := match r.kind with
    | .symbolWord => p.address start r.symbol
    | .pcRelative => p.address start r.symbol - (r.offset + start home)

/-- The bytes of a section with its placeholders filled. -/
def filled (p : Parts) (start : String → UInt16) (f : SectionData) : Array UInt8 :=
  patched f.bytes (f.relocations.map (p.patch start f.name))

/-- The sections with their starts. -/
def blocks (p : Parts) (start : String → UInt16) : List (UInt16 × List UInt8) :=
  p.pieces.map fun f => (start f.name, (p.filled start f).toList)

/-- The image of parts that were laid out. -/
def image (p : Parts) (start : String → UInt16) : Image := Image.empty.storeAll (p.blocks start)

end Parts

namespace Linkage

variable {l : Linkage} {places starts : Named UInt16}

/-! ### Resolved names -/

theorem checkResolved_eq_ok (l : Linkage) : l.checkResolved = .ok () ↔
    ∀ s ∈ l.symbols, (s.isOnlyImported || s.home.isNone) = false := by
  unfold checkResolved
  cases hfind : l.symbols.find? fun s => s.isOnlyImported || s.home.isNone with
  | none =>
    have hnone := List.find?_eq_none.mp hfind
    exact ⟨fun _ s hs => Bool.not_eq_true _ ▸ hnone s hs, fun _ => rfl⟩
  | some s =>
    refine ⟨fun herr => (nomatch herr), fun hall => ?_⟩
    have hs := List.find?_some hfind
    rw [hall s (List.mem_of_find?_eq_some hfind)] at hs
    cases hs

/-- **All names are resolved** if the parts are settled. -/
theorem checkResolved_eq_ok_iff (h : l.Proper) : l.checkResolved = .ok () ↔ l.parts.Settled := by
  have hrole : ∀ s ∈ l.symbols, ((s.isOnlyImported || s.home.isNone) = false ↔
      s.role = .area ∨ ∃ home v, s.role = .given (some home) v) := by
    intro s hs
    have hplain := h.orderly.plain s hs
    unfold LinkSymbol.isOnlyImported
    rcases hplain.cases with ⟨hsec, he, hi, hr⟩ | ⟨-, he, hi, hr⟩ | ⟨-, he, hi, hr⟩
    · simp [he, hi, hr, (hplain.area hsec).2.2]
    · simp [he, hi, hr]
    · cases hh : s.home <;> simp [he, hi, hr, hh]
  rw [checkResolved_eq_ok]
  constructor
  · intro hall name x hx
    obtain ⟨s, hs, rfl⟩ := Option.map_eq_some_iff.mp hx
    have hmem := mem_of_entryOf hs
    exact (hrole s hmem).mp (hall s hmem)
  · intro hall s hs
    refine (hrole s hs).mpr (hall s.name s.role ?_)
    rw [roles_parts, entryOf_of_mem h.orderly.nodup hs]
    rfl

/-! ### Starts -/

/-- The linkage with segments at their starts. -/
def placed (places starts : Named UInt16) (l : Linkage) : Linkage :=
  { l with segments := l.segments.map fun (s : Segment) =>
      { s with start := (starts.lookup s.name).getD 0, placed := (places.lookup s.name).isSome } }

theorem demands_parts (l : Linkage) (places : Named UInt16) :
    l.parts.demands places = l.demands places := List.map_map

theorem run_place (l : Linkage) (places : Named UInt16) : (place places).run l =
    match allocate (l.parts.demands places) with
    | .error e => .error e l
    | .ok starts => .ok ((places.filter fun p => (l.segment? p.1).isNone).map Prod.fst)
        (l.placed places starts) := by
  rw [demands_parts]
  unfold place
  rw [EStateM.run_bind, EStateM.run_get]
  simp only
  cases allocate (l.demands places) <;> rfl

theorem startOf_placed {name : String} (h : name ∈ l.parts.pieces.map SectionData.name) :
    (l.placed places starts).startOf name = (starts.lookup name).getD 0 := by
  have hnames : l.parts.pieces.map SectionData.name = l.segments.map Segment.name := List.map_map
  rw [hnames] at h
  have hsome : (l.segment? name).isSome := by
    obtain ⟨s, hs, hname⟩ := List.mem_map.mp h
    exact List.find?_isSome.mpr ⟨s, hs, beq_iff_eq.mpr hname⟩
  obtain ⟨s, hs⟩ := Option.isSome_iff_exists.mp hsome
  have hfind : (l.placed places starts).segment? name = (l.segment? name).map fun (s : Segment) =>
      { s with start := (starts.lookup s.name).getD 0, placed := (places.lookup s.name).isSome } := by
    unfold segment? placed
    rw [List.find?_map]
    rfl
  have hname : s.name = name := beq_iff_eq.mp (List.find?_some hs :)
  rw [startOf, hfind, hs, Option.map_some, Option.map_some, Option.getD_some, hname]

/-! ### Addresses -/

end Linkage

/-- A symbol with the address of a label for its value. -/
def LinkSymbol.located (start : String → UInt16) (s : LinkSymbol) : LinkSymbol :=
  if s.isSection then s else { s with value := s.value + (s.home.map start).getD 0 }

@[simp] theorem LinkSymbol.name_located (start : String → UInt16) (s : LinkSymbol) :
    (s.located start).name = s.name := by
  unfold located
  split <;> rfl

namespace Linkage

variable {l : Linkage} {places starts : Named UInt16}

theorem symbol?_moveLabels (l : Linkage) (name : String) : l.moveLabels.symbol? name =
    (entryOf LinkSymbol.name l.symbols name).map (LinkSymbol.located l.startOf) :=
  entryOf_map (LinkSymbol.name_located l.startOf)

theorem target_moveLabels {s : LinkSymbol} (hs : s.Plain)
    (hres : s.role = .area ∨ ∃ home v, s.role = .given (some home) v) :
    l.moveLabels.target (s.located l.startOf) = s.role.address l.startOf s.name := by
  have hstart : l.moveLabels.startOf = l.startOf := rfl
  unfold LinkSymbol.located
  rcases hs.cases with ⟨hsec, -, -, hr⟩ | ⟨-, -, -, hr⟩ | ⟨hsec, -, -, hr⟩
  · rw [hsec, if_pos rfl, target, if_pos hsec, hstart, hr]
    rfl
  · rw [hr] at hres
    rcases hres with hres | ⟨_, _, hres⟩ <;> cases hres
  · simp only [hsec, target, hr, Role.address]
    rfl

theorem addend?_moveLabels (h : l.Proper) (hset : l.parts.Settled) {r : Relocation}
    (hr : (l.parts.roles r.symbol).isSome) (home : String) :
    l.moveLabels.addend? (l.startOf home) r = some (l.parts.patch l.startOf home r).addend := by
  obtain ⟨x, hx⟩ := Option.isSome_iff_exists.mp hr
  obtain ⟨s, hs, rfl⟩ := Option.map_eq_some_iff.mp hx
  have hplain := h.orderly.plain s (mem_of_entryOf hs)
  have haddress : l.parts.address l.startOf r.symbol = s.role.address l.startOf s.name := by
    rw [Parts.address, hx, Option.map_some, Option.getD_some, key_of_entryOf hs]
  rw [addend?, symbol?_moveLabels, hs, Option.map_some, Option.map_some,
    target_moveLabels hplain (hset _ _ hx), ← haddress]
  rfl

theorem filled_moveLabels (h : l.Proper) (hset : l.parts.Settled) {s : Segment}
    (hs : s ∈ l.segments) (hstart : s.start = l.startOf s.name) :
    l.moveLabels.filled s = l.parts.filled l.startOf s.data := by
  unfold filled Parts.filled patched
  rw [List.foldl_map]
  refine List.foldl_ext _ _ _ fun bs r hr => ?_
  have hsome := h.sound.symbols s.data (List.mem_map_of_mem hs) r hr
  rw [hstart, addend?_moveLabels h hset hsome]
  rfl

/-! ### The image -/

theorem placeSegments_eq_ok (l : Linkage) {segments : List Segment} (image : Image)
    (h : ∀ s ∈ segments, s.start.toNat + (l.filled s).size ≤ addressSpace) :
    l.placeSegments image segments =
      .ok (image.storeAll (segments.map fun s => (s.start, (l.filled s).toList))) := by
  induction segments generalizing image with
  | nil => rfl
  | cons s segments ih =>
    have hs := h s List.mem_cons_self
    have hplace : image.place s.start (l.filled s).toList =
        .ok (image.store s.start (l.filled s).toList) := by
      rw [Image.place, Array.length_toList]
      exact if_neg (Nat.not_lt.mpr hs)
    unfold placeSegments
    rw [hplace]
    exact ih _ fun t ht => h t (List.mem_cons_of_mem _ ht)

theorem run_relocate_eq (l : Linkage) :
    relocate.run l = match l.moveLabels.placeSegments Image.empty l.segments with
      | .error e => .error e l.moveLabels
      | .ok image => .ok image l.moveLabels := by
  unfold relocate
  rw [EStateM.run_bind, EStateM.run_modify]
  simp only
  rw [EStateM.run_bind, EStateM.run_get]
  have hsegments : l.moveLabels.segments = l.segments := rfl
  simp only [hsegments]
  cases l.moveLabels.placeSegments Image.empty l.segments <;> rfl

theorem run_relocate_of_fits
    (hfit : ∀ s ∈ l.segments, s.start.toNat + (l.moveLabels.filled s).size ≤ addressSpace) :
    relocate.run l = .ok (Image.empty.storeAll
      (l.segments.map fun s => (s.start, (l.moveLabels.filled s).toList))) l.moveLabels := by
  rw [run_relocate_eq, placeSegments_eq_ok l.moveLabels Image.empty hfit]

/-- **The image of a linkage whose segments have their starts** is that of its parts. -/
theorem run_relocate (h : l.Proper) (hset : l.parts.Settled)
    (hstart : ∀ s ∈ l.segments, s.start = l.startOf s.name)
    (hfit : ∀ s ∈ l.segments, s.start.toNat + s.bytes.size ≤ addressSpace) :
    relocate.run l = .ok (l.parts.image l.startOf) l.moveLabels := by
  have hfilled := fun s hs => filled_moveLabels h hset (s := s) hs (hstart s hs)
  have hinside : ∀ s ∈ l.segments, s.start.toNat + (l.moveLabels.filled s).size ≤ addressSpace := by
    intro s hs
    rw [hfilled s hs, Parts.filled, size_patched]
    exact hfit s hs
  have himage : l.segments.map (fun s => (s.start, (l.moveLabels.filled s).toList)) =
      l.parts.blocks l.startOf := by
    rw [Parts.blocks, parts, List.map_map]
    refine List.map_congr_left fun s hs => ?_
    rw [hfilled s hs, hstart s hs]
    rfl
  rw [run_relocate_of_fits hinside, himage]
  rfl

end Linkage

namespace Parts

variable {p : Parts} {start start' : String → UInt16}

/-- The blocks of sound parts depend on the starts of their sections only. -/
theorem blocks_congr (hp : p.Sound)
    (h : ∀ name ∈ p.pieces.map SectionData.name, start name = start' name) :
    p.blocks start = p.blocks start' := by
  have haddress : ∀ name, p.address start name = p.address start' name := by
    intro name
    unfold address
    cases hx : p.roles name with
    | none => rfl
    | some x =>
      cases x with
      | area => exact h name (hp.area.mp hx)
      | wanted => rfl
      | given home v =>
        cases home with
        | none => rfl
        | some home => exact congrArg (v + ·) (h home (hp.given hx))
  refine List.map_congr_left fun f hf => ?_
  have hhome := h f.name (List.mem_map_of_mem hf)
  have hpatch : p.patch start f.name = p.patch start' f.name := by
    funext r
    unfold patch
    rw [haddress, hhome]
  rw [filled, filled, hpatch, hhome]

/-- Parts that were laid out fit. -/
theorem fits_of_allocate (hp : (p.pieces.map SectionData.name).Nodup) {places starts : Named UInt16}
    (h : allocate (p.demands places) = .ok starts) : p.Fits := by
  have hnames : (p.demands places).map Prod.fst = p.pieces.map SectionData.name := List.map_map
  have hn : ((p.demands places).map Prod.fst).Nodup := hnames ▸ hp
  intro name
  by_cases hname : name ∈ p.pieces.map SectionData.name
  · obtain ⟨f, hf, rfl⟩ := List.mem_map.mp hname
    have hdemand : (f.name, ⟨f.bytes.size, places.lookup f.name⟩) ∈ p.demands places :=
      List.mem_map_of_mem (f := fun f => (f.name, (⟨f.bytes.size, places.lookup f.name⟩ : Demand))) hf
    rw [size_eq_of_mem hp hf]
    exact Nat.le_trans (Nat.le_add_left _ _) (start_of_allocate h hn hdemand)
  · rw [size_eq_zero hname]
    exact Nat.zero_le _

end Parts

/-! ### Linking -/

/-- The start that a layout gives to a section. -/
def startIn (starts : Named UInt16) (name : String) : UInt16 := (starts.lookup name).getD 0

/-- Sections that were laid out lie apart, whatever they are filled with. -/
theorem blocks_of_allocate {fs : List SectionData} {fill : SectionData → Array UInt8}
    (hfs : (fs.map SectionData.name).Nodup) (hfill : ∀ f, (fill f).size = f.bytes.size)
    {places starts : Named UInt16}
    (h : allocate (fs.map fun f => (f.name, ⟨f.bytes.size, places.lookup f.name⟩)) = .ok starts) :
    Blocks (fs.map fun f => (startIn starts f.name, (fill f).toList)) := by
  have hnames : (fs.map fun f => (f.name, (⟨f.bytes.size, places.lookup f.name⟩ : Demand))).map
      Prod.fst = fs.map SectionData.name := List.map_map
  have hn := hfs
  rw [← hnames] at hn
  have hdemand : ∀ f ∈ fs, (f.name, (⟨f.bytes.size, places.lookup f.name⟩ : Demand)) ∈
      fs.map fun f => (f.name, (⟨f.bytes.size, places.lookup f.name⟩ : Demand)) :=
    fun f hf => List.mem_map_of_mem
      (f := fun f => (f.name, (⟨f.bytes.size, places.lookup f.name⟩ : Demand))) hf
  have hlen : ∀ f, (fill f).toList.length = f.bytes.size := fun f => by
    rw [Array.length_toList, hfill]
  constructor
  · intro c hc
    obtain ⟨f, hf, rfl⟩ := List.mem_map.mp hc
    rw [hlen]
    exact start_of_allocate h hn (hdemand f hf)
  · refine List.pairwise_map.mpr ((List.pairwise_map.mp hfs).imp_of_mem fun hf hg hne => ?_)
    intro i hi j hj
    rw [hlen] at hi hj
    exact apart_of_allocate h hn (hdemand _ hf) (hdemand _ hg) hne hi hj

/-- Parts that can be linked, and the image that they give: any two agree, and the joined parts are
settled and can be laid out. -/
structure Parts.LinksTo (qs : List Parts) (places : Named UInt16) (image : Image) : Prop where
  agree : qs.Pairwise Parts.Agrees
  settled : (nothing.joinAll qs).Settled
  laidOut : ∃ starts, allocate ((nothing.joinAll qs).demands places) = .ok starts ∧
    (nothing.joinAll qs).image (startIn starts) = image

theorem Parts.LinksTo.fits {qs : List Parts} {places : Named UInt16} {image : Image}
    (h : LinksTo qs places image) (hqs : ∀ q ∈ qs, q.Sound) : (nothing.joinAll qs).Fits := by
  obtain ⟨starts, hstarts, -⟩ := h.laidOut
  exact fits_of_allocate (sound_nothing.joinAll hqs (allAgree_nothing_iff.mpr h.agree)).nodup hstarts

namespace Linkage

variable {l : Linkage} {places starts : Named UInt16} {ms : List ObjectModule} {image : Image}

theorem parts_placed (l : Linkage) (places starts : Named UInt16) :
    (l.placed places starts).parts = l.parts :=
  Parts.ext rfl List.map_map

theorem Proper.placed (h : l.Proper) (places starts : Named UInt16) :
    (l.placed places starts).Proper where
  orderly := h.orderly
  origin := h.origin
  sound := by
    rw [parts_placed]
    exact h.sound

theorem nodup_demands (h : l.Proper) (places : Named UInt16) :
    ((l.parts.demands places).map Prod.fst).Nodup := by
  have hnames : (l.parts.demands places).map Prod.fst = l.parts.pieces.map SectionData.name :=
    List.map_map
  rw [hnames]
  exact h.sound.nodup

/-- **A settled linkage that can be laid out** gives the image of its parts. -/
theorem run_relocate_placed (h : l.Proper) (hset : l.parts.Settled)
    (hstarts : allocate (l.parts.demands places) = .ok starts) :
    relocate.run (l.placed places starts) =
      .ok (l.parts.image (startIn starts)) (l.placed places starts).moveLabels := by
  have hname : ∀ s ∈ (l.placed places starts).segments,
      s.name ∈ l.parts.pieces.map SectionData.name := by
    intro s hs
    rw [← parts_placed l places starts]
    exact List.mem_map_of_mem (List.mem_map_of_mem hs)
  have hstart : ∀ s ∈ (l.placed places starts).segments, s.start = startIn starts s.name := by
    intro s hs
    obtain ⟨s', -, rfl⟩ := List.mem_map.mp hs
    rfl
  have hrun := run_relocate (h.placed places starts) (by rwa [parts_placed]) (fun s hs => ?_)
    fun s hs => ?_
  · rw [hrun, parts_placed]
    have hblocks : l.parts.blocks (l.placed places starts).startOf =
        l.parts.blocks (startIn starts) :=
      Parts.blocks_congr h.sound fun name hmem => startOf_placed hmem
    rw [Parts.image, hblocks]
    rfl
  · rw [hstart s hs, startOf_placed (hname s hs)]
    rfl
  · obtain ⟨s', hs', rfl⟩ := List.mem_map.mp hs
    have hdemand : (s'.name, ⟨s'.bytes.size, places.lookup s'.name⟩) ∈ l.parts.demands places :=
      List.mem_map.mpr ⟨s'.data, List.mem_map_of_mem hs', rfl⟩
    exact start_of_allocate hstarts (nodup_demands h places) hdemand

end Linkage

variable {ms : List ObjectModule} {places : Named UInt16} {image : Image}

/-- Linking, step by step. -/
theorem link_eq (ms : List ObjectModule) (places : Named UInt16) : link ms places =
    match (Linkage.addAll ms).run {} with
    | .error e _ => .error e
    | .ok _ l =>
      match l.checkResolved with
      | .error e => .error e
      | .ok () =>
        match (Linkage.place places).run l with
        | .error e _ => .error e
        | .ok _ l' =>
          match Linkage.relocate.run l' with
          | .error e _ => .error e
          | .ok image _ => .ok image := by
  have hrun : link ms places = match (Linkage.linkAll ms places).run {} with
    | .ok image _ => .ok image
    | .error e _ => .error e := by
    unfold link LinkM.result EStateM.run
    cases Linkage.linkAll ms places {} <;> rfl
  rw [hrun]
  unfold Linkage.linkAll
  rw [EStateM.run_bind]
  cases (Linkage.addAll ms).run {} with
  | error e l => rfl
  | ok u l =>
    simp only
    rw [EStateM.run_bind, EStateM.run_get]
    simp only
    cases l.checkResolved with
    | error e => rfl
    | ok u =>
      simp only
      rw [EStateM.run_bind]
      cases (Linkage.place places).run l with
      | error e l' => rfl
      | ok unused l' =>
        simp only
        cases Linkage.relocate.run l' <;> rfl

/-- Places count by what they have for a name. -/
theorem link_congr {places' : Named UInt16}
    (h : ∀ name, places'.lookup name = places.lookup name) : link ms places' = link ms places := by
  have hdemands : ∀ l : Linkage, l.parts.demands places' = l.parts.demands places := by
    intro l
    unfold Parts.demands
    simp only [h]
  have hplaced : ∀ (l : Linkage) starts, l.placed places' starts = l.placed places starts := by
    intro l starts
    unfold Linkage.placed
    simp only [h]
  rw [link_eq, link_eq]
  cases (Linkage.addAll ms).run {} with
  | error e l => rfl
  | ok u l =>
    simp only
    cases l.checkResolved with
    | error e => rfl
    | ok u =>
      simp only [Linkage.run_place, hdemands, hplaced]
      cases allocate (l.parts.demands places) <;> rfl

/-- **Linking gives an image** just if the parts of the modules can be linked, and it is theirs. -/
theorem link_eq_ok_iff (hms : ∀ m ∈ ms, m.Proper) :
    link ms places = .ok image ↔ Parts.LinksTo (ms.map ObjectModule.parts) places image := by
  rw [link_eq]
  by_cases hagree : Parts.nothing.AllAgree (ms.map ObjectModule.parts)
  · obtain ⟨l, hrun, hl, hparts⟩ := Linkage.run_addAll Linkage.proper_empty hms hagree
    change l.parts = Parts.nothing.joinAll (ms.map ObjectModule.parts) at hparts
    have hlinks : Parts.LinksTo (ms.map ObjectModule.parts) places image ↔ l.parts.Settled ∧
        ∃ starts, allocate (l.parts.demands places) = .ok starts ∧
          l.parts.image (startIn starts) = image := by
      rw [hparts]
      exact ⟨fun h => ⟨h.settled, h.laidOut⟩,
        fun h => ⟨Parts.allAgree_nothing_iff.mp hagree, h.1, h.2⟩⟩
    rw [hrun, hlinks, ← Linkage.checkResolved_eq_ok_iff hl]
    simp only
    cases hres : l.checkResolved with
    | error e => simp
    | ok u =>
      have hset := (Linkage.checkResolved_eq_ok_iff hl).mp hres
      simp only [true_and, Linkage.run_place]
      cases hstarts : allocate (l.parts.demands places) with
      | error e => simp
      | ok starts => simp [Linkage.run_relocate_placed hl hset hstarts]
  · obtain ⟨e, l, hrun⟩ := Linkage.run_addAll_error Linkage.proper_empty hms hagree
    rw [hrun]
    exact ⟨fun h => (nomatch h), fun h => absurd (Parts.allAgree_nothing_iff.mpr h.agree) hagree⟩

end Sx16
