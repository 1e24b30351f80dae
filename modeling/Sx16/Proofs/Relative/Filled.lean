/-
# Filling a changed payload

Both linkages are laid out alike, since a layout looks at names and sizes only. Relocation then fills
the changed payload twice: with the address of the symbol, and with its distance from the next
instruction, because the placeholder -2 and the place of the payload are both taken off the address.
So the images are the same but for the five bytes of the instruction.

Key definitions: `Image.ChangedAt`, `Segment.layout`, `Linkage.located`, `Linkage.blocks`.
Key theorems: `Image.changedAt_storeAll`, `SectionData.Changed.exists_patched`,
`Linkage.run_relocate_blocks`, `Linkage.Beside.changedAt`.
-/
import Sx16.Proofs.Image.ReadBack
import Sx16.Proofs.Link.Linked
import Sx16.Proofs.Relative.Joined

namespace Sx16

/-! ### Images that differ in five bytes -/

/-- An address outside of the five bytes at another. -/
def Outside (a b : UInt16) : Prop := b.toNat < a.toNat ∨ a.toNat + 5 ≤ b.toNat

/-- Two images that hold five bytes each at an address and are the same everywhere else. -/
structure Image.ChangedAt (a : UInt16) (ps ps' : List UInt8) (image image' : Image) : Prop where
  inside : a.toNat + 5 ≤ addressSpace
  old : ∀ k < 5, image.get? (a + UInt16.ofNat k) = ps[k]?
  new : ∀ k < 5, image'.get? (a + UInt16.ofNat k) = ps'[k]?
  outside : ∀ b, Outside a b → image'.get? b = image.get? b

/-- Two byte strings at the same start that differ in five bytes. -/
structure BlockChanged (start : UInt16) (k : Nat) (ps ps' : List UInt8)
    (b b' : UInt16 × List UInt8) : Prop where
  start : b.1 = start ∧ b'.1 = start
  bytes : ∃ as bs : List UInt8, as.length = k ∧ b.2 = as ++ (ps ++ bs) ∧ b'.2 = as ++ (ps' ++ bs)

namespace Image

variable {m m' : Image} {a x start : UInt16} {bs bs' : List (UInt16 × List UInt8)}
  {ps ps' : List UInt8} {k : Nat}

theorem get?_store_congr {cs : List UInt8} (h : a.toNat + cs.length ≤ 0x10000)
    (hx : m'.get? x = m.get? x) : (m'.store a cs).get? x = (m.store a cs).get? x := by
  rw [get?_store h, get?_store h, hx]

theorem get?_storeAll_congr (h : ∀ b ∈ bs, b.1.toNat + b.2.length ≤ 0x10000)
    (hx : m'.get? x = m.get? x) : (m'.storeAll bs).get? x = (m.storeAll bs).get? x := by
  induction bs generalizing m m' with
  | nil => exact hx
  | cons b bs ih =>
    exact ih (fun c hc => h c (List.mem_cons_of_mem b hc))
      (get?_store_congr (h b List.mem_cons_self) hx)

/-- What is stored outside of the five bytes is the same. -/
theorem get?_storeAll_replaced (hb : Replaced (BlockChanged start k ps ps') bs bs')
    (hps : ps.length = 5) (hps' : ps'.length = 5)
    (h : ∀ b ∈ bs, b.1.toNat + b.2.length ≤ 0x10000)
    (hx : x.toNat < start.toNat + k ∨ start.toNat + k + 5 ≤ x.toNat) (hm : m'.get? x = m.get? x) :
    (m'.storeAll bs').get? x = (m.storeAll bs).get? x := by
  induction hb generalizing m m' with
  | @here b b' hb bs =>
    obtain ⟨⟨hstart, hstart'⟩, as, cs, hlen, hold, hnew⟩ := hb
    have hfit := h b List.mem_cons_self
    have hfit' : b'.1.toNat + b'.2.length ≤ 0x10000 := by
      rw [hstart', hnew]
      rw [hstart, hold] at hfit
      simp only [List.length_append, hps, hps'] at hfit ⊢
      exact hfit
    refine get?_storeAll_congr (fun c hc => h c (List.mem_cons_of_mem b hc)) ?_
    rw [get?_store hfit, get?_store hfit', hm, hstart, hstart', hold, hnew]
    split
    · rename_i hle
      refine congrArg (Option.or · _) ?_
      rcases hx with hx | hx
      · rw [List.getElem?_append_left (by omega), List.getElem?_append_left (by omega)]
      · rw [List.getElem?_append_right (by omega), List.getElem?_append_right (by omega),
          List.getElem?_append_right (by omega), List.getElem?_append_right (by omega), hps, hps']
    · rfl
  | there b _ ih =>
    exact ih (fun c hc => h c (List.mem_cons_of_mem b hc))
      (get?_store_congr (h b List.mem_cons_self) hm)

theorem get?_storeAll_changed {b : UInt16 × List UInt8} {as cs : List UInt8} (hbs : Blocks bs)
    (hb : b ∈ bs) (hlen : as.length = k) (hbytes : b.2 = as ++ (ps ++ cs)) {j : Nat}
    (hj : j < ps.length) (hx : x.toNat = b.1.toNat + (k + j)) (m : Image) :
    (m.storeAll bs).get? x = ps[j]? := by
  have hlt : k + j < b.2.length := by
    rw [hbytes, List.length_append, List.length_append]
    omega
  rw [get?_storeAll hbs m hb hlt hx, hbytes, List.getElem?_append_right (by omega),
    List.getElem?_append_left (by omega), hlen, Nat.add_sub_cancel_left]

/-- **Images of byte strings** of which one is changed in five bytes. -/
theorem changedAt_storeAll (hb : Replaced (BlockChanged start k ps ps') bs bs')
    (hps : ps.length = 5) (hps' : ps'.length = 5) (hbs : Blocks bs) (hbs' : Blocks bs') :
    ChangedAt (start + UInt16.ofNat k) ps ps' (empty.storeAll bs) (empty.storeAll bs') := by
  obtain ⟨b, hmem, b', hmem', ⟨hstart, hstart'⟩, as, cs, hlen, hold, hnew⟩ := hb.exists_mem
  have hfit := hbs.inside b hmem
  rw [hstart, hold] at hfit
  simp only [List.length_append, hps, hlen] at hfit
  have haddress : (start + UInt16.ofNat k).toNat = start.toNat + k := by
    rw [UInt16.toNat_add, UInt16.toNat_ofNat']
    omega
  have hbyte : ∀ j < 5, (start + UInt16.ofNat k + UInt16.ofNat j).toNat = start.toNat + (k + j) := by
    intro j hj
    rw [UInt16.toNat_add, haddress, UInt16.toNat_ofNat']
    omega
  refine ⟨?_, fun j hj => ?_, fun j hj => ?_, fun x hx => ?_⟩
  · rw [haddress]
    unfold addressSpace
    omega
  · refine get?_storeAll_changed hbs hmem hlen hold (by omega) ?_ empty
    rw [hbyte j hj, hstart]
  · refine get?_storeAll_changed hbs' hmem' hlen hnew (by omega) ?_ empty
    rw [hbyte j hj, hstart']
  · unfold Outside at hx
    rw [haddress] at hx
    exact get?_storeAll_replaced hb hps hps' hbs.inside hx rfl

end Image

/-! ### Filling the payload -/

/-- **A changed section with its placeholders filled**: all is the same but for the instruction. -/
theorem SectionData.Changed.exists_patched {c : Change} {k : Nat} {w v v' : UInt16}
    {f f' : SectionData} (h : Changed c 0 k w f f') {p : Relocation → Patch}
    (hpos : ∀ r, (p r).pos = r.offset.toNat)
    (hv : (p ⟨.symbolWord, UInt16.ofNat (k + 3), c.symbol⟩).addend = v)
    (hv' : (p ⟨.pcRelative, UInt16.ofNat (k + 3), c.symbol⟩).addend = v') :
    ∃ as bs : Array UInt8, as.size = k ∧
      patched f.bytes (f.relocations.map p) = as ++ (c.head ++ Word.bytes (w + v)).toArray ++ bs ∧
      patched f'.bytes (f'.relocations.map p) =
        as ++ (c.head' ++ Word.bytes (w + pcRelativePlaceholder + v')).toArray ++ bs := by
  cases h with
  | @intro as bs rs ss o size offset before after =>
    have ho : o = UInt16.ofNat (k + 3) := by
      rw [← UInt16.ofNat_toNat (x := o), offset, Nat.zero_add]
    rw [Nat.zero_add] at before after offset
    have hrs : ∀ q ∈ rs.map p, q.pos + 2 ≤ as.size := by
      refine List.forall_mem_map.mpr fun r hr => ?_
      rw [hpos, size]
      exact before r hr
    have hss : ∀ q ∈ ss.map p, as.size + 5 ≤ q.pos := by
      refine List.forall_mem_map.mpr fun r hr => ?_
      rw [hpos, size]
      exact after r hr
    obtain ⟨as', bs', hsize, hpatched⟩ := patched_around hrs hss
    have hpatch : ∀ kind, p ⟨kind, o, c.symbol⟩ =
        ⟨as.size + 3, (p ⟨kind, UInt16.ofNat (k + 3), c.symbol⟩).addend⟩ := by
      intro kind
      have hq := hpos ⟨kind, o, c.symbol⟩
      rw [← ho, size, ← offset, ← hq]
    refine ⟨as', bs', hsize.trans size, ?_, ?_⟩
    · rw [List.map_append, List.map_cons, hpatch, hv]
      exact hpatched w v c.length
    · rw [List.map_append, List.map_cons, hpatch, hv']
      exact hpatched _ v' c.length'

/-! ### Laying out both linkages -/

/-- What a layout says of a segment. -/
def Segment.layout (s : Segment) : String × UInt16 × Nat × Bool :=
  (s.name, s.start, s.bytes.size, s.placed)

namespace Linkage

variable {l l' : Linkage} {places starts : Named UInt16} {c : Change} {k : Nat} {w : UInt16}

/-- What is added to the placeholder of a relocation. -/
def patch (l : Linkage) (start : UInt16) (r : Relocation) : Patch where
  pos := r.offset.toNat
  addend := (l.addend? start r).getD 0

theorem filled_eq (l : Linkage) (s : Segment) :
    l.filled s = patched s.bytes (s.relocations.map (l.patch s.start)) := by
  unfold filled patched
  rw [List.foldl_map]
  refine List.foldl_ext _ _ _ fun bs r _ => ?_
  unfold patch
  cases l.addend? s.start r with
  | none => exact (addWord_zero bs _).symm
  | some v => rfl

/-- The linkage after layout and relocation. -/
def located (l : Linkage) (places starts : Named UInt16) : Linkage :=
  (l.placed places starts).moveLabels

/-- The segments with their starts and their placeholders filled. -/
def blocks (l : Linkage) (places starts : Named UInt16) : List (UInt16 × List UInt8) :=
  l.parts.pieces.map fun f => (startIn starts f.name,
    (patched f.bytes (f.relocations.map ((l.located places starts).patch (startIn starts f.name)))).toList)

/-- **Relocation after a layout** stores the filled segments. -/
theorem run_relocate_blocks (hn : (l.parts.pieces.map SectionData.name).Nodup)
    (h : allocate (l.parts.demands places) = .ok starts) :
    relocate.run (l.placed places starts) =
      .ok (Image.empty.storeAll (l.blocks places starts)) (l.located places starts) := by
  have hnames : (l.parts.demands places).map Prod.fst = l.parts.pieces.map SectionData.name :=
    List.map_map
  have hrun := run_relocate_of_fits (l := l.placed places starts) fun s hs => by
    obtain ⟨s', hs', rfl⟩ := List.mem_map.mp hs
    have hdemand : (s'.name, ⟨s'.bytes.size, places.lookup s'.name⟩) ∈ l.parts.demands places :=
      List.mem_map.mpr ⟨s'.data, List.mem_map_of_mem hs', rfl⟩
    rw [filled_eq, size_patched]
    exact start_of_allocate h (hnames ▸ hn) hdemand
  have hblocks : (l.placed places starts).segments.map (fun s =>
      (s.start, ((l.placed places starts).moveLabels.filled s).toList)) = l.blocks places starts := by
    unfold blocks
    rw [parts, List.map_map, placed, List.map_map]
    refine List.map_congr_left fun s _ => ?_
    rw [Function.comp_apply, filled_eq]
    rfl
  rw [hrun, hblocks]
  rfl

theorem blocks_apart (hn : (l.parts.pieces.map SectionData.name).Nodup)
    (h : allocate (l.parts.demands places) = .ok starts) : Blocks (l.blocks places starts) :=
  blocks_of_allocate hn (fun f => size_patched f.bytes
    (f.relocations.map ((l.located places starts).patch (startIn starts f.name)))) h

theorem startOf_placed_of_not_mem {name : String}
    (h : name ∉ l.parts.pieces.map SectionData.name) : (l.placed places starts).startOf name = 0 := by
  have hnames : (l.placed places starts).segments.map Segment.name =
      l.parts.pieces.map SectionData.name := by
    rw [parts, List.map_map, placed, List.map_map]
    rfl
  have hnone : (l.placed places starts).segment? name = none := by
    refine List.find?_eq_none.mpr fun s hs hname => h ?_
    rw [← hnames, ← beq_iff_eq.mp hname]
    exact List.mem_map_of_mem hs
  rw [startOf, hnone]
  rfl

namespace Beside

theorem names (h : Beside c k w l l') :
    l'.parts.pieces.map SectionData.name = l.parts.pieces.map SectionData.name :=
  h.pieces.map_eq fun _ _ hf => hf.name'.trans hf.name.symm

theorem demands (h : Beside c k w l l') (places : Named UInt16) :
    l'.parts.demands places = l.parts.demands places :=
  h.pieces.map_eq fun _ _ hf => by rw [hf.name, hf.name', hf.size]

theorem startOf_placed (h : Beside c k w l l') :
    (l'.placed places starts).startOf = (l.placed places starts).startOf := by
  funext name
  by_cases hname : name ∈ l.parts.pieces.map SectionData.name
  · rw [Linkage.startOf_placed hname, Linkage.startOf_placed (h.names ▸ hname)]
  · rw [startOf_placed_of_not_mem hname, startOf_placed_of_not_mem (h.names ▸ hname)]

theorem symbols_located (h : Beside c k w l l') :
    (l'.located places starts).symbols = (l.located places starts).symbols := by
  show l'.symbols.map (LinkSymbol.located (l'.placed places starts).startOf) =
    l.symbols.map (LinkSymbol.located (l.placed places starts).startOf)
  rw [h.symbols, h.startOf_placed]

theorem startOf_located (h : Beside c k w l l') :
    (l'.located places starts).startOf = (l.located places starts).startOf := h.startOf_placed

theorem patch_located (h : Beside c k w l l') :
    (l'.located places starts).patch = (l.located places starts).patch := by
  funext start r
  unfold patch addend? target symbol?
  rw [h.symbols_located, h.startOf_located]

/-- Both linkages have one layout. -/
theorem layout (h : Beside c k w l l') : (l'.located places starts).segments.map Segment.layout =
    (l.located places starts).segments.map Segment.layout := by
  have hlayout : ∀ l : Linkage, (l.located places starts).segments.map Segment.layout =
      l.parts.pieces.map fun f => (f.name, startIn starts f.name, f.bytes.size,
        (places.lookup f.name).isSome) := by
    intro l
    show (l.placed places starts).segments.map Segment.layout = _
    rw [parts, List.map_map, placed, List.map_map]
    rfl
  rw [hlayout, hlayout]
  exact h.pieces.map_eq fun _ _ hf => by rw [hf.name, hf.name', hf.size]

/-- **The images of both linkages** are the same but for the instruction: one holds the address of the
symbol, and the other its distance from the next instruction. -/
theorem changedAt (h : Beside c k w l l') (hn : (l.parts.pieces.map SectionData.name).Nodup)
    (hstarts : allocate (l.parts.demands places) = .ok starts) {s : LinkSymbol}
    (hs : (l.located places starts).symbol? c.symbol = some s) {a t : UInt16}
    (ha : a = startIn starts c.home + UInt16.ofNat k) (ht : t = w + (l.located places starts).target s) :
    Image.ChangedAt a (c.head ++ Word.bytes t) (c.head' ++ Word.bytes (t - (a + 5)))
      (Image.empty.storeAll (l.blocks places starts))
      (Image.empty.storeAll (l'.blocks places starts)) := by
  have hn' : (l'.parts.pieces.map SectionData.name).Nodup := by
    rw [h.names]
    exact hn
  have hstarts' : allocate (l'.parts.demands places) = .ok starts := by
    rw [h.demands]
    exact hstarts
  have hsize : ∀ {head : List UInt8} (w : UInt16), head.length = 3 →
      (head ++ Word.bytes w).length = 5 := by
    intro head w hlen
    rw [List.length_append, hlen]
    rfl
  rw [ha]
  refine Image.changedAt_storeAll ?_ (hsize _ c.length) (hsize _ c.length')
    (blocks_apart hn hstarts) (blocks_apart hn' hstarts')
  unfold blocks
  rw [h.patch_located]
  refine h.pieces.map (fun f _ f' hf => ?_) fun _ => rfl
  have hsymbolWord : ((l.located places starts).patch (startIn starts c.home)
      ⟨.symbolWord, UInt16.ofNat (k + 3), c.symbol⟩).addend = (l.located places starts).target s := by
    unfold patch addend?
    rw [hs]
    rfl
  have hpcRelative : ((l.located places starts).patch (startIn starts c.home)
      ⟨.pcRelative, UInt16.ofNat (k + 3), c.symbol⟩).addend =
        (l.located places starts).target s - (UInt16.ofNat (k + 3) + startIn starts c.home) := by
    unfold patch addend?
    rw [hs]
    rfl
  obtain ⟨as, bs, hlen, hold, hnew⟩ := hf.exists_patched (fun _ => rfl) hsymbolWord hpcRelative
  -- The placeholder and the place of the payload together take off the address of the next instruction.
  have hdistance : w + pcRelativePlaceholder + ((l.located places starts).target s -
      (UInt16.ofNat (k + 3) + startIn starts c.home)) =
        t - (startIn starts c.home + UInt16.ofNat k + 5) := by
    rw [ht, UInt16.ofNat_add]
    unfold pcRelativePlaceholder
    generalize (l.located places starts).target s = v
    generalize UInt16.ofNat k = o
    generalize startIn starts c.home = b
    have hthree : UInt16.ofNat 3 = 3 := rfl
    rw [hthree]
    grind
  rw [hdistance] at hnew
  rw [← ht] at hold
  rw [hf.name, hf.name', hold, hnew]
  refine ⟨⟨rfl, rfl⟩, as.toList, bs.toList, hlen, ?_, ?_⟩
  · simp only [Array.toList_append, List.append_assoc]
  · simp only [Array.toList_append, List.append_assoc]

end Beside

end Linkage
end Sx16
