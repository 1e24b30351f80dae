/-
# What a linked image holds

The image of modules that were linked holds every section of every module, behind the sections of its
name in the modules before it, and nothing else. Bytes that no relocation covers are the module's.
The word of a relocation is the module's word and the address of the relocation's symbol: a section
of the same module, where that module's part of it is, or a label, where the one module is that gives
it. A relocation relative to the program counter counts from its own address.

Key definitions: `fragmentBase`, `FragmentByte`, `ObjectModule.Gives`, `IsAddress`, `ImageOf`.
Key theorems: `Parts.getElem?_filled`, `Parts.wordAt?_filled`, `link_holds_fragments`.
-/
import Mathlib.Algebra.GroupWithZero.Nat
import Sx16.Proofs.Assembly.Sound
import Sx16.Proofs.Link.Linked

namespace Sx16

/-! ### What the image is expected to hold -/

/-- Where a section of a module starts: behind those of its name in the modules before. -/
def fragmentBase (ms : List ObjectModule) (i : Nat) (name : String) : Nat :=
  ((ms.take i).map fun m => ((m.find? name).map (·.bytes.size)).getD 0).sum

/-- An address is that of a byte of a section of a module. -/
structure FragmentByte (ms : List ObjectModule) (start : String → UInt16) (i : Nat)
    (f : SectionData) (k : Nat) (a : UInt16) : Prop where
  fragment : ∃ m, ms[i]? = some m ∧ f ∈ m.sections
  byte : k < f.bytes.size
  address : a.toNat = (start f.name).toNat + fragmentBase ms i f.name + k

/-- A module gives a label to others: it is in one of its sections, at an offset. -/
def ObjectModule.Gives (m : ObjectModule) (name home : String) (v : UInt16) : Prop :=
  ∃ s, m.symbols.get? name = some s ∧ s.isSection = false ∧ s.exported = true ∧
    s.isDefined = true ∧ (m.symbols.byNumber? s.owner).map Symbol.name = some home ∧ s.value = v

/-- The address that a name has in the module at a position. -/
inductive IsAddress (ms : List ObjectModule) (start : String → UInt16) (i : Nat) (m : ObjectModule)
    (name : String) : UInt16 → Prop where
  /-- A section of the module, from where the module's part of it is. -/
  | area (own : name ∈ m.sections.map SectionData.name) :
      IsAddress ms start i m name (start name + UInt16.ofNat (fragmentBase ms i name))
  /-- A label of the one module that gives it. -/
  | label {j : Nat} {m' : ObjectModule} {home : String} {v : UInt16}
      (foreign : name ∉ m.sections.map SectionData.name) (position : ms[j]? = some m')
      (gives : m'.Gives name home v)
      (only : ∀ {j' m'' home' v'}, ms[j']? = some m'' → m''.Gives name home' v' → j' = j) :
      IsAddress ms start i m name (start home + UInt16.ofNat (fragmentBase ms j home) + v)

/-- What is added to the word of a relocation at an address. -/
def Relocation.added (r : Relocation) (symbol own : UInt16) : UInt16 :=
  match r.kind with
  | .symbolWord => symbol
  | .pcRelative => symbol - own

/-- An image that holds the sections of all modules by the starts of segments, with their relocations
done, and nothing else. -/
structure ImageOf (ms : List ObjectModule) (start : String → UInt16) (image : Image) : Prop where
  /-- The addresses that have a byte are those of the bytes of sections. -/
  populated : ∀ a, (image.get? a).isSome ↔ ∃ i f k, FragmentByte ms start i f k a
  /-- No address is that of two bytes. -/
  once : ∀ {i f k i' f' k' a}, FragmentByte ms start i f k a → FragmentByte ms start i' f' k' a →
    i = i' ∧ f = f' ∧ k = k'
  /-- A byte that no relocation covers is the module's. -/
  bytes : ∀ {i f k a}, FragmentByte ms start i f k a →
    (∀ r ∈ f.relocations, k ≠ r.offset.toNat ∧ k ≠ r.offset.toNat + 1) →
    image.get? a = f.bytes[k]?
  /-- The word of a relocation is the module's word and the address of the symbol. -/
  words : ∀ {i m f r}, ms[i]? = some m → f ∈ m.sections → r ∈ f.relocations →
    ∃ own word symbol, FragmentByte ms start i f r.offset.toNat own ∧
      wordAt? f.bytes r.offset.toNat = some word ∧ IsAddress ms start i m r.symbol symbol ∧
      image.wordAt? own = some (word + r.added symbol own)

/-! ### A section inside a joined one -/

namespace Parts

variable {p q : Parts} {qs : List Parts} {start b : String → UInt16} {f g : SectionData} {n k : Nat}

theorem toNat_offset_holds (tq : q.Tight) (hf : f ∈ q.pieces) (hb : b f.name = UInt16.ofNat n)
    (hfit : n + f.bytes.size ≤ addressSpace) {r : Relocation} (hr : r ∈ f.relocations) :
    (r.offset + b f.name).toNat = n + r.offset.toNat := by
  rw [hb]
  exact toNat_add_base (tq.inside f hf r hr) hfit

/-- **A byte that no relocation covers** is the section's own. -/
theorem getElem?_filled (tq : q.Tight) (hf : f ∈ q.pieces) (hb : b f.name = UInt16.ofNat n)
    (hfit : n + f.bytes.size ≤ addressSpace) (h : g.Holds n (f.moved q.roles b))
    (hk : k < f.bytes.size)
    (hfree : ∀ r ∈ f.relocations, k ≠ r.offset.toNat ∧ k ≠ r.offset.toNat + 1) (p : Parts) :
    (p.filled start g)[n + k]? = f.bytes[k]? := by
  obtain ⟨before, behind, rfl, hsize, hbefore, hbehind⟩ := h
  have hcover : ∀ t ∈ (((before.join (f.moved q.roles b)).join behind).relocations.map
      (p.patch start before.name)), n + k ≠ t.pos ∧ n + k ≠ t.pos + 1 := by
    intro t ht
    obtain ⟨s, hs, rfl⟩ := List.mem_map.mp ht
    change n + k ≠ s.offset.toNat ∧ n + k ≠ s.offset.toNat + 1
    rcases List.mem_append.mp hs with hs | hs
    · rcases List.mem_append.mp hs with hs | hs
      · have := hbefore s hs
        omega
      · obtain ⟨r, hr, rfl⟩ := List.mem_map.mp hs
        have hoffset := toNat_offset_holds tq hf hb hfit hr
        have := hfree r hr
        simp only [hoffset]
        omega
    · have := hbehind s hs
      rw [SectionData.size_moved] at this
      omega
  have hown : (f.moved q.roles b).bytes[k]? = f.bytes[k]? := by
    refine getElem?_patched fun t ht => ?_
    obtain ⟨r, hr, rfl⟩ := List.mem_map.mp ht
    exact hfree r hr
  have hbytes : ((before.join (f.moved q.roles b)).join behind).bytes[n + k]? =
      (f.moved q.roles b).bytes[k]? := by
    have hlen := SectionData.size_moved q.roles b f
    simp only [SectionData.join]
    rw [Array.getElem?_append_left (by rw [Array.size_append, hsize, hlen]; omega),
      Array.getElem?_append_right (by rw [hsize]; omega), hsize, Nat.add_sub_cancel_left]
  rw [filled, SectionData.join_name, SectionData.join_name, getElem?_patched hcover, hbytes, hown]

/-- **The word of a relocation** is the section's own, moved and filled. -/
theorem wordAt?_filled (tp : p.Tight) (hg : g ∈ p.pieces) (tq : q.Tight) (hf : f ∈ q.pieces)
    (hb : b f.name = UInt16.ofNat n) (hfit : n + f.bytes.size ≤ addressSpace)
    (h : g.Holds n (f.moved q.roles b)) {r : Relocation} (hr : r ∈ f.relocations) :
    wordAt? (p.filled start g) (n + r.offset.toNat) = (wordAt? f.bytes r.offset.toNat).map fun w =>
      w + (Relocation.rebase q.roles b r).addend +
        (p.patch start g.name { r with offset := r.offset + b f.name }).addend := by
  have hapart : (g.relocations.map (p.patch start g.name)).Pairwise Patch.Apart :=
    List.pairwise_map.mpr ((tp.apart g hg).imp Or.inl)
  have hoffset := toNat_offset_holds tq hf hb hfit hr
  have hmem : { r with offset := r.offset + b f.name } ∈ (f.moved q.roles b).relocations :=
    List.mem_map_of_mem (f := fun r : Relocation => { r with offset := r.offset + b f.name }) hr
  obtain ⟨before, behind, hg, hsize, -, -⟩ := h
  have hin : { r with offset := r.offset + b f.name } ∈ g.relocations := by
    rw [hg]
    exact List.mem_append_left _ (List.mem_append_right _ hmem)
  have hword := wordAt?_patched g.bytes hapart (List.mem_map_of_mem hin)
  have hown : wordAt? (f.moved q.roles b).bytes r.offset.toNat =
      (wordAt? f.bytes r.offset.toNat).map (· + (Relocation.rebase q.roles b r).addend) := by
    have hapart' : (f.relocations.map (Relocation.rebase q.roles b)).Pairwise Patch.Apart :=
      List.pairwise_map.mpr ((tq.apart f hf).imp Or.inl)
    exact wordAt?_patched f.bytes hapart' (List.mem_map_of_mem hr)
  have hbytes : wordAt? g.bytes (n + r.offset.toNat) =
      wordAt? (f.moved q.roles b).bytes r.offset.toNat := by
    have hlen := SectionData.size_moved q.roles b f
    have hinside := tq.inside f hf r hr
    rw [hg]
    simp only [SectionData.join]
    rw [wordAt?_append_left (by rw [Array.size_append, hsize, hlen]; omega), ← hsize,
      wordAt?_append_right]
  have hpos : (p.patch start g.name { r with offset := r.offset + b f.name }).pos =
      n + r.offset.toNat := hoffset
  rw [hpos, hbytes, hown, Option.map_map] at hword
  exact hword

/-! ### Sections in the image -/

theorem blocks_of_allocate (hp : p.Sound) {places starts : Named UInt16}
    (h : allocate (p.demands places) = .ok starts) : Blocks (p.blocks (startIn starts)) :=
  Sx16.blocks_of_allocate hp.nodup (fun _ => size_patched _ _) h

theorem get?_image (h : Blocks (p.blocks start)) (hg : g ∈ p.pieces) {x : Nat} {a : UInt16}
    (hx : x < g.bytes.size) (ha : a.toNat = (start g.name).toNat + x) :
    (p.image start).get? a = (p.filled start g)[x]? := by
  have hmem : (start g.name, (p.filled start g).toList) ∈ p.blocks start :=
    List.mem_map_of_mem (f := fun f => (start f.name, (p.filled start f).toList)) hg
  have hlen : x < (p.filled start g).toList.length := by
    rwa [Array.length_toList, filled, size_patched]
  exact (Image.get?_storeAll h Image.empty hmem hlen ha).trans Array.getElem?_toList

/-- A word of a section is in the image at its start. -/
theorem wordAt?_image (h : Blocks (p.blocks start)) (hg : g ∈ p.pieces) {x : Nat} {a : UInt16}
    (hx : x + 2 ≤ g.bytes.size) (ha : a.toNat = (start g.name).toNat + x) :
    (p.image start).wordAt? a = wordAt? (p.filled start g) x := by
  have hmem : (start g.name, (p.filled start g).toList) ∈ p.blocks start :=
    List.mem_map_of_mem (f := fun f => (start f.name, (p.filled start f).toList)) hg
  have hinside : (start g.name).toNat + g.bytes.size ≤ 0x10000 := by
    have hle := h.inside _ hmem
    rwa [Array.length_toList, filled, size_patched] at hle
  have hnext : (a + 1).toNat = (start g.name).toNat + (x + 1) := by
    rw [UInt16.toNat_add, ha]
    exact Nat.mod_eq_of_lt (show (start g.name).toNat + x + 1 < 2 ^ 16 by omega)
  unfold Image.wordAt? wordAt?
  rw [get?_image h hg (by omega) ha, get?_image h hg (by omega) hnext]
  cases (p.filled start g)[x]? <;> cases (p.filled start g)[x + 1]? <;> rfl

/-- An address is in one section only. -/
theorem piece_inj (h : Blocks (p.blocks start)) {g g' : SectionData} (hg : g ∈ p.pieces)
    (hg' : g' ∈ p.pieces) {x x' : Nat} (hx : x < g.bytes.size) (hx' : x' < g'.bytes.size)
    (heq : (start g.name).toNat + x = (start g'.name).toNat + x') : g = g' := by
  have hlen : ∀ f, (p.filled start f).toList.length = f.bytes.size := fun f => by
    rw [Array.length_toList, filled, size_patched]
  have hsymm : Std.Symm fun g g' : SectionData =>
      ∀ i < (p.filled start g).toList.length, ∀ j < (p.filled start g').toList.length,
        (start g.name).toNat + i ≠ (start g'.name).toNat + j :=
    ⟨fun _ _ h i hi j hj => Ne.symm (h j hj i hi)⟩
  by_contra hne
  have hapart := (List.pairwise_map.mp h.apart).forall hg hg' hne
  exact hapart x (by rwa [hlen]) x' (by rwa [hlen]) heq

/-- An address in the image is one of a section. -/
theorem exists_of_isSome_get?_image (h : Blocks (p.blocks start)) {a : UInt16}
    (ha : ((p.image start).get? a).isSome) :
    ∃ g ∈ p.pieces, ∃ x < g.bytes.size, a.toNat = (start g.name).toNat + x := by
  by_contra hno
  have hnone : (p.image start).get? a = none := by
    refine Image.get?_storeAll_eq_none h fun c hc x hx hax => hno ?_
    obtain ⟨g, hg, rfl⟩ := List.mem_map.mp hc
    rw [Array.length_toList, filled, size_patched] at hx
    exact ⟨g, hg, x, hx, hax⟩
  rw [hnone] at ha
  cases ha

end Parts

/-! ### The modules of an image -/

section

variable {ms : List ObjectModule} {places : Named UInt16} {i j k : Nat} {m : ObjectModule}
  {f g : SectionData} {name : String} {start : String → UInt16}

theorem fragmentBase_eq (ms : List ObjectModule) (i : Nat) (name : String) :
    fragmentBase ms i name = Parts.sizeBefore (ms.map ObjectModule.parts) i name := by
  unfold fragmentBase Parts.sizeBefore
  rw [← List.map_take, List.map_map]
  rfl

/-- A label that a module gives is its role. -/
theorem ObjectModule.gives_iff (h : m.symbols.Distinct) {home : String} {v : UInt16} :
    m.Gives name home v ↔ m.parts.roles name = some (.given (some home) v) := by
  rw [roles_eq_some_iff h]
  refine exists_congr fun s => and_congr_right fun _ => ?_
  rw [role_ofSymbol_eq_given]
  constructor
  · rintro ⟨hsec, hexp, hdef, hhome, hv⟩
    refine ⟨?_, hsec, hexp, ?_, hv⟩
    · rw [Symbol.isLocal, hexp]
      rfl
    · rw [if_pos hdef, hhome]
  · rintro ⟨-, hsec, hexp, hhome, hv⟩
    split at hhome
    · rename_i hdef
      exact ⟨hsec, hexp, hdef, hhome, hv⟩
    · cases hhome

theorem Parts.LinksTo.joinable {image : Image} (hms : ∀ m ∈ ms, m.Proper)
    (tms : ∀ m ∈ ms, m.parts.Tight)
    (h : Parts.LinksTo (ms.map ObjectModule.parts) places image) :
    Parts.Joinable (ms.map ObjectModule.parts) := by
  have hsound : ∀ q ∈ ms.map ObjectModule.parts, q.Sound :=
    List.forall_mem_map.mpr fun m hm => (hms m hm).sound
  have htight : ∀ q ∈ ms.map ObjectModule.parts, q.Tight := List.forall_mem_map.mpr tms
  exact ⟨hsound, htight, h.agree, h.fits hsound⟩

/-- The joined section that holds a section of a module. -/
theorem exists_piece (h : Parts.Joinable (ms.map ObjectModule.parts)) (hm : ms[i]? = some m)
    (hf : f ∈ m.sections) :
    ∃ g ∈ (Parts.nothing.joinAll (ms.map ObjectModule.parts)).pieces, g.name = f.name ∧
      g.Holds (fragmentBase ms i f.name)
        (f.moved m.parts.roles (Parts.bases (ms.map ObjectModule.parts) i)) ∧
      fragmentBase ms i f.name + f.bytes.size ≤ g.bytes.size ∧ g.bytes.size ≤ addressSpace := by
  have hq : (ms.map ObjectModule.parts)[i]? = some m.parts := by rw [List.getElem?_map, hm]; rfl
  obtain ⟨g, hg, hname, hholds⟩ := Parts.exists_holds h hq hf
  rw [← fragmentBase_eq] at hholds
  have hle := hholds.le_size
  rw [SectionData.size_moved] at hle
  refine ⟨g, hg, hname, hholds, hle, ?_⟩
  rw [← Parts.size_eq_of_mem h.sound_joinAll.nodup hg]
  exact h.fits g.name

/-- **What a relocation adds** in joining and in filling is the address of its symbol. -/
theorem exists_isAddress (hms : ∀ m ∈ ms, m.Proper)
    (h : Parts.Joinable (ms.map ObjectModule.parts))
    (hset : (Parts.nothing.joinAll (ms.map ObjectModule.parts)).Settled) (hm : ms[i]? = some m)
    (hf : f ∈ m.sections) {r : Relocation} (hr : r ∈ f.relocations) (start : String → UInt16) :
    ∃ symbol, IsAddress ms start i m r.symbol symbol ∧
      (r.rebase m.parts.roles (Parts.bases (ms.map ObjectModule.parts) i)).addend +
        (Parts.nothing.joinAll (ms.map ObjectModule.parts)).address start r.symbol = symbol := by
  have hmem : m ∈ ms := List.mem_of_getElem? hm
  have hq : m.parts ∈ ms.map ObjectModule.parts := List.mem_map_of_mem hmem
  have hsome := (hms m hmem).sound.symbols f hf r hr
  have harea := Parts.roles_joinAll_eq_area h.agree hq hsome
  by_cases hown : m.parts.roles r.symbol = some .area
  · refine ⟨_, .area ((hms m hmem).sound.area.mp hown), ?_⟩
    rw [Relocation.rebase, if_pos hown, Parts.address, harea.mpr hown, Parts.bases,
      ← fragmentBase_eq, UInt16.add_comm]
    rfl
  · obtain ⟨x, hx⟩ := Option.isSome_iff_exists.mp (Parts.isSome_roles_joinAll hq hsome)
    rcases hset _ x hx with rfl | ⟨home, v, rfl⟩
    · exact absurd (harea.mp hx) hown
    · obtain ⟨j, q, v', hj, hgiven, rfl⟩ := Parts.exists_given h.sound hx
      rw [List.getElem?_map, Option.map_eq_some_iff] at hj
      obtain ⟨m', hj, rfl⟩ := hj
      have hdistinct := fun {j : Nat} {m : ObjectModule} (hj : ms[j]? = some m) =>
        (hms m (List.mem_of_getElem? hj)).distinct
      have honly : ∀ {j' m'' home' v'}, ms[j']? = some m'' → m''.Gives r.symbol home' v' → j' = j := by
        intro j' m'' home' v'' hj' hgives
        refine Parts.given_inj h.agree ?_ ?_ ((ObjectModule.gives_iff (hdistinct hj')).mp hgives) hgiven
        · rw [List.getElem?_map, hj']
          rfl
        · rw [List.getElem?_map, hj]
          rfl
      refine ⟨_, .label (mt (hms m hmem).sound.area.mpr hown) hj
        ((ObjectModule.gives_iff (hdistinct hj)).mpr hgiven) honly, ?_⟩
      rw [Relocation.rebase, if_neg hown, Parts.address, hx, fragmentBase_eq]
      simp only [Option.map_some, Option.getD_some, Role.address, Parts.bases]
      rw [UInt16.zero_add, UInt16.add_assoc, UInt16.add_comm, UInt16.add_comm (start home)]

/-- The byte of a section is a byte of the joined section. -/
theorem FragmentByte.exists_piece (h : Parts.Joinable (ms.map ObjectModule.parts)) {a : UInt16}
    (ha : FragmentByte ms start i f k a) :
    ∃ m g, ms[i]? = some m ∧ f ∈ m.sections ∧
      g ∈ (Parts.nothing.joinAll (ms.map ObjectModule.parts)).pieces ∧ g.name = f.name ∧
      g.Holds (fragmentBase ms i f.name)
        (f.moved m.parts.roles (Parts.bases (ms.map ObjectModule.parts) i)) ∧
      fragmentBase ms i f.name + k < g.bytes.size ∧
      fragmentBase ms i f.name + f.bytes.size ≤ addressSpace ∧
      a.toNat = (start g.name).toNat + (fragmentBase ms i f.name + k) := by
  obtain ⟨m, hm, hf⟩ := ha.fragment
  obtain ⟨g, hg, hname, hholds, hle, hspace⟩ := Sx16.exists_piece h hm hf
  have hbyte := ha.byte
  refine ⟨m, g, hm, hf, hg, hname, hholds, by omega, by omega, ?_⟩
  rw [hname, ← Nat.add_assoc]
  exact ha.address

/-- The addresses of the image are those of the bytes of sections. -/
theorem isSome_get?_image_iff (hms : ∀ m ∈ ms, m.Proper)
    (h : Parts.Joinable (ms.map ObjectModule.parts))
    (hblocks : Blocks ((Parts.nothing.joinAll (ms.map ObjectModule.parts)).blocks start))
    (a : UInt16) : (((Parts.nothing.joinAll (ms.map ObjectModule.parts)).image start).get? a).isSome ↔
      ∃ i f k, FragmentByte ms start i f k a := by
  constructor
  · intro ha
    obtain ⟨g, hg, x, hx, hax⟩ := Parts.exists_of_isSome_get?_image hblocks ha
    rw [← Parts.size_eq_of_mem h.sound_joinAll.nodup hg, Parts.size_joinAll_nothing h.sound] at hx
    obtain ⟨i, q, k, hq, hk, rfl⟩ := Parts.exists_of_lt_sizeBefore hx
    rw [List.getElem?_map, Option.map_eq_some_iff] at hq
    obtain ⟨m, hm, rfl⟩ := hq
    have hname : g.name ∈ m.sections.map SectionData.name := by
      by_contra hno
      rw [Parts.size_eq_zero hno] at hk
      exact Nat.not_lt_zero k hk
    obtain ⟨f, hf, hfg⟩ := List.mem_map.mp hname
    have hnodup := (hms m (List.mem_of_getElem? hm)).sound.nodup
    rw [← hfg, Parts.size_eq_of_mem hnodup hf] at hk
    refine ⟨i, f, k, ⟨m, hm, hf⟩, hk, ?_⟩
    rw [hax, hfg, fragmentBase_eq, Nat.add_assoc]
  · rintro ⟨i, f, k, ha⟩
    obtain ⟨m, g, -, -, hg, -, -, hx, -, hax⟩ := ha.exists_piece h
    have hlen : fragmentBase ms i f.name + k < ((Parts.nothing.joinAll
        (ms.map ObjectModule.parts)).filled start g).size := by
      rwa [Parts.filled, size_patched]
    rw [Parts.get?_image hblocks hg hx hax, Array.getElem?_eq_getElem hlen]
    rfl

/-- No address is that of two bytes. -/
theorem fragmentByte_inj (hms : ∀ m ∈ ms, m.Proper)
    (h : Parts.Joinable (ms.map ObjectModule.parts))
    (hblocks : Blocks ((Parts.nothing.joinAll (ms.map ObjectModule.parts)).blocks start))
    {i' k' : Nat} {f' : SectionData} {a : UInt16} (ha : FragmentByte ms start i f k a)
    (ha' : FragmentByte ms start i' f' k' a) : i = i' ∧ f = f' ∧ k = k' := by
  obtain ⟨m, g, hm, hf, hg, hname, -, hx, -, hax⟩ := ha.exists_piece h
  obtain ⟨m', g', hm', hf', hg', hname', -, hx', -, hax'⟩ := ha'.exists_piece h
  have hpiece := Parts.piece_inj hblocks hg hg' hx hx' (hax.symm.trans hax')
  subst hpiece
  have hnames : f.name = f'.name := hname.symm.trans hname'
  have hoffset : fragmentBase ms i f.name + k = fragmentBase ms i' f.name + k' := by
    rw [← hnames] at hax'
    omega
  have hsize : ∀ {i : Nat} {m : ObjectModule} {f}, ms[i]? = some m → f ∈ m.sections →
      (ms.map ObjectModule.parts)[i]? = some m.parts ∧ m.parts.size f.name = f.bytes.size := by
    intro i m f hm hf
    refine ⟨by rw [List.getElem?_map, hm]; rfl, ?_⟩
    exact Parts.size_eq_of_mem (hms m (List.mem_of_getElem? hm)).sound.nodup hf
  obtain ⟨hq, hk⟩ := hsize hm hf
  obtain ⟨hq', hk'⟩ := hsize hm' hf'
  rw [fragmentBase_eq, fragmentBase_eq] at hoffset
  obtain ⟨rfl, rfl⟩ := Parts.sizeBefore_inj hq hq' (by rw [hk]; exact ha.byte)
    (by rw [hnames, hk']; exact ha'.byte) hoffset
  obtain rfl : m = m' := Option.some.inj (hm.symm.trans hm')
  have hnodup := (hms m (List.mem_of_getElem? hm)).sound.nodup
  exact ⟨rfl, List.inj_on_of_nodup_map hnodup hf hf' hnames, rfl⟩

/-- A byte of the image that no relocation covers is the module's. -/
theorem get?_image_of_free (h : Parts.Joinable (ms.map ObjectModule.parts))
    (hblocks : Blocks ((Parts.nothing.joinAll (ms.map ObjectModule.parts)).blocks start))
    {a : UInt16} (ha : FragmentByte ms start i f k a)
    (hfree : ∀ r ∈ f.relocations, k ≠ r.offset.toNat ∧ k ≠ r.offset.toNat + 1) :
    ((Parts.nothing.joinAll (ms.map ObjectModule.parts)).image start).get? a = f.bytes[k]? := by
  obtain ⟨m, g, hm, hf, hg, -, hholds, hx, hspace, hax⟩ := ha.exists_piece h
  have htight := h.tight m.parts (List.mem_map_of_mem (List.mem_of_getElem? hm))
  rw [Parts.get?_image hblocks hg hx hax]
  refine Parts.getElem?_filled htight hf ?_ hspace hholds ha.byte hfree _
  rw [Parts.bases, fragmentBase_eq]

/-- A word of the image that a relocation covers is the module's and the address of its symbol. -/
theorem wordAt?_image_of_mem (hms : ∀ m ∈ ms, m.Proper)
    (h : Parts.Joinable (ms.map ObjectModule.parts))
    (hset : (Parts.nothing.joinAll (ms.map ObjectModule.parts)).Settled)
    (hblocks : Blocks ((Parts.nothing.joinAll (ms.map ObjectModule.parts)).blocks start))
    (hm : ms[i]? = some m) (hf : f ∈ m.sections) {r : Relocation} (hr : r ∈ f.relocations) :
    ∃ own word symbol, FragmentByte ms start i f r.offset.toNat own ∧
      wordAt? f.bytes r.offset.toNat = some word ∧ IsAddress ms start i m r.symbol symbol ∧
      ((Parts.nothing.joinAll (ms.map ObjectModule.parts)).image start).wordAt? own =
        some (word + r.added symbol own) := by
  obtain ⟨g, hg, hname, hholds, hle, hspace⟩ := exists_piece h hm hf
  have htight := h.tight m.parts (List.mem_map_of_mem (List.mem_of_getElem? hm))
  have hinside : r.offset.toNat + 2 ≤ f.bytes.size := htight.inside f hf r hr
  have hbase : Parts.bases (ms.map ObjectModule.parts) i f.name =
      UInt16.ofNat (fragmentBase ms i f.name) := by
    rw [Parts.bases, fragmentBase_eq]
  have hoffset := Parts.toNat_offset_holds htight hf hbase (by omega) hr
  have hblock : (start g.name).toNat + g.bytes.size ≤ 0x10000 := by
    have hle := hblocks.inside _ (List.mem_map_of_mem (f := fun f => (start f.name,
      ((Parts.nothing.joinAll (ms.map ObjectModule.parts)).filled start f).toList)) hg)
    rwa [Array.length_toList, Parts.filled, size_patched] at hle
  have hown : (r.offset + Parts.bases (ms.map ObjectModule.parts) i f.name + start g.name).toNat =
      (start g.name).toNat + (fragmentBase ms i f.name + r.offset.toNat) := by
    rw [UInt16.toNat_add, hoffset, Nat.add_comm]
    exact Nat.mod_eq_of_lt (show _ < 2 ^ 16 by omega)
  obtain ⟨symbol, hsymbol, hadd⟩ := exists_isAddress hms h hset hm hf hr start
  have hsome : wordAt? f.bytes r.offset.toNat =
      some (Word.ofBytes f.bytes[r.offset.toNat] f.bytes[r.offset.toNat + 1]) :=
    wordAt?_eq_some hinside
  refine ⟨r.offset + Parts.bases (ms.map ObjectModule.parts) i f.name + start g.name, _, symbol,
    ⟨⟨m, hm, hf⟩, by omega, ?_⟩, hsome, hsymbol, ?_⟩
  · rw [hown, hname, Nat.add_assoc]
  · rw [Parts.wordAt?_image hblocks hg (by omega) hown, Parts.wordAt?_filled h.tight_joinAll hg
      htight hf hbase (by omega) hholds hr, hsome, Option.map_some, ← hadd, Relocation.added,
      Parts.patch]
    cases r.kind with
    | symbolWord => simp only [UInt16.add_assoc]
    | pcRelative => simp only [UInt16.add_assoc, UInt16.sub_eq_add_neg]

theorem imageOf_image (hms : ∀ m ∈ ms, m.Proper) (h : Parts.Joinable (ms.map ObjectModule.parts))
    (hset : (Parts.nothing.joinAll (ms.map ObjectModule.parts)).Settled)
    (hblocks : Blocks ((Parts.nothing.joinAll (ms.map ObjectModule.parts)).blocks start)) :
    ImageOf ms start ((Parts.nothing.joinAll (ms.map ObjectModule.parts)).image start) where
  populated := isSome_get?_image_iff hms h hblocks
  once := fragmentByte_inj hms h hblocks
  bytes := get?_image_of_free h hblocks
  words hm hf hr := wordAt?_image_of_mem hms h hset hblocks hm hf hr

/-- **A linked image holds the sections of all modules**, each where its segment starts and behind
the modules before, with their relocations done. -/
theorem link_holds_fragments {image : Image} (hms : ∀ m ∈ ms, Assembled m)
    (h : link ms places = .ok image) :
    ∃ l unused l', (Linkage.addAll ms).run {} = .ok () l ∧
      (Linkage.place places).run l = .ok unused l' ∧ ImageOf ms l'.startOf image := by
  have hproper : ∀ m ∈ ms, m.Proper := fun m hm => (hms m hm).proper
  have hlinks := (link_eq_ok_iff hproper).mp h
  have hjoin := hlinks.joinable hproper fun m hm => (hms m hm).tight
  obtain ⟨hagree, hset, starts, hstarts, rfl⟩ := hlinks
  obtain ⟨l, hrun, hl, hparts⟩ := Linkage.run_addAll Linkage.proper_empty hproper
    (Parts.allAgree_nothing_iff.mpr hagree)
  change l.parts = Parts.nothing.joinAll (ms.map ObjectModule.parts) at hparts
  have hplace := Linkage.run_place l places
  rw [hparts, hstarts] at hplace
  refine ⟨l, _, l.placed places starts, hrun, hplace, ?_⟩
  have hstart : ∀ name ∈ (Parts.nothing.joinAll (ms.map ObjectModule.parts)).pieces.map
      SectionData.name, startIn starts name = (l.placed places starts).startOf name := by
    intro name hname
    rw [← hparts] at hname
    exact (Linkage.startOf_placed hname).symm
  have hblocks := Parts.blocks_of_allocate hjoin.sound_joinAll hstarts
  rw [Parts.blocks_congr hjoin.sound_joinAll hstart] at hblocks
  rw [Parts.image, Parts.blocks_congr hjoin.sound_joinAll hstart]
  exact imageOf_image hproper hjoin hset hblocks

theorem link_holds_fragments_of_two : ∃ image,
    link [wantingModule, givingModule] [("code", 0x4000)] = .ok image ∧
    ((List.range 6).map fun k => image.get? (0x3FFF + UInt16.ofNat k)) =
      [none, some 0x04, some 0x40, some 0x07, some 0x00, none] ∧
    ∃ l unused l', (Linkage.addAll [wantingModule, givingModule]).run {} = .ok () l ∧
      (Linkage.place [("code", 0x4000)]).run l = .ok unused l' ∧
      ImageOf [wantingModule, givingModule] l'.startOf image := by
  have hbytes : (link [wantingModule, givingModule] [("code", 0x4000)]).toOption.map
      (fun image => (List.range 6).map fun k => image.get? (0x3FFF + UInt16.ofNat k)) =
      some [none, some 0x04, some 0x40, some 0x07, some 0x00, none] := by
    decide +kernel
  have hms : ∀ m ∈ [wantingModule, givingModule], Assembled m := by
    intro m hm
    rcases List.mem_cons.mp hm with rfl | hm
    · exact assembled_wantingModule
    · exact List.mem_singleton.mp hm ▸ assembled_givingModule
  cases h : link [wantingModule, givingModule] [("code", 0x4000)] with
  | error e =>
    rw [h] at hbytes
    cases hbytes
  | ok image =>
    rw [h] at hbytes
    exact ⟨image, rfl, Option.some.inj hbytes, link_holds_fragments hms h⟩

end

end Sx16
