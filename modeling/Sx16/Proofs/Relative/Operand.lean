/-
# Operands made relative to the program counter

A jump to a symbol and a load or store of the word at a symbol can be written relative to the program
counter. The bytes of the instruction are as many as before: the descriptor and the mode are others,
and the placeholder starts at another word. So a section with such an instruction changes in these
five bytes and in the kind of one relocation, and stays so while sections are moved and joined.

Key definitions: `Instruction.MadeRelative`, `Replaced`, `Change`, `SectionData.Changed`.
Key theorems: `patched_around`, `SectionData.Changed.shifted`, `SectionData.Changed.behind`,
`SectionData.Changed.join`.
-/
import Sx16.Proofs.Link.Added
import Sx16.Proofs.Processor.Encoded

namespace Sx16

/-! ### Instructions -/

/-- `i'` is `i` with its operand `x` made relative to the program counter. -/
inductive Instruction.MadeRelative (x : String) : Instruction → Instruction → Prop where
  | jump {m : Mnemonic} (hm : m.form = .jump) :
      MadeRelative x ⟨m, .jump (.immediate (.symbol x))⟩ ⟨m, .jump (.pcRelative x)⟩
  | data {m : Mnemonic} (hm : m.form = .data) (r : Register) :
      MadeRelative x ⟨m, .data r (.memory (.symbol x))⟩ ⟨m, .data r (.pcRelative x)⟩

/-- The bytes of an instruction in front of its payload. -/
def Instruction.head (i : Instruction) : List UInt8 := i.encode.bytes.take 3

namespace Instruction.MadeRelative

variable {x : String} {i i' : Instruction}

theorem length_head (h : MadeRelative x i i') : i.head.length = 3 := by
  cases h <;> rfl

theorem length_head' (h : MadeRelative x i i') : i'.head.length = 3 := by
  cases h <;> rfl

theorem encode (h : MadeRelative x i i') :
    i.encode = ⟨i.head ++ Word.bytes 0, some ⟨3, x, .symbolWord⟩⟩ := by
  cases h <;> rfl

theorem encode' (h : MadeRelative x i i') :
    i'.encode = ⟨i'.head ++ Word.bytes pcRelativePlaceholder, some ⟨3, x, .pcRelative⟩⟩ := by
  cases h <;> rfl

end Instruction.MadeRelative

/-! ### Bytes -/

theorem size_payload {head : List UInt8} (h : head.length = 3) (w : UInt16) :
    (head ++ Word.bytes w).toArray.size = 5 := by
  rw [List.size_toArray, List.length_append, h]
  rfl

theorem addWord_payload {head : List UInt8} (h : head.length = 3) (w v : UInt16) :
    addWord (head ++ Word.bytes w).toArray 3 v = (head ++ Word.bytes (w + v)).toArray := by
  obtain ⟨a, b, c, rfl⟩ := List.length_eq_three.mp h
  simp [addWord, wordAt?, putWord, Word.bytes]

/-- Patches around and in the payload of five bytes: what is before and behind them changes in the
same way whatever the five bytes are. -/
theorem patched_around {as bs : Array UInt8} {ps qs : List Patch}
    (hps : ∀ p ∈ ps, p.pos + 2 ≤ as.size) (hqs : ∀ q ∈ qs, as.size + 5 ≤ q.pos) :
    ∃ as' bs' : Array UInt8, as'.size = as.size ∧ ∀ {head : List UInt8} (w v : UInt16),
      head.length = 3 →
        patched (as ++ (head ++ Word.bytes w).toArray ++ bs) (ps ++ ⟨as.size + 3, v⟩ :: qs) =
          as' ++ (head ++ Word.bytes (w + v)).toArray ++ bs' := by
  let back : Patch → Patch := fun q => ⟨q.pos - (as.size + 5), q.addend⟩
  have hback : (qs.map back).map (Patch.shift (as.size + 5)) = qs := by
    rw [List.map_map]
    refine (List.map_congr_left fun q hq => ?_).trans (List.map_id qs)
    have hle := hqs q hq
    show (⟨as.size + 5 + (q.pos - (as.size + 5)), q.addend⟩ : Patch) = q
    rw [Nat.add_sub_of_le hle]
  refine ⟨patched as ps, patched bs (qs.map back), size_patched as ps, fun {head} w v h => ?_⟩
  have hfront : (patched as ps ++ (head ++ Word.bytes (w + v)).toArray).size = as.size + 5 := by
    rw [Array.size_append, size_patched, size_payload h]
  have hpayload : addWord (patched as ps ++ ((head ++ Word.bytes w).toArray ++ bs)) (as.size + 3) v =
      patched as ps ++ (head ++ Word.bytes (w + v)).toArray ++ bs := by
    have hright := addWord_append_right (patched as ps) ((head ++ Word.bytes w).toArray ++ bs) 3 v
    rw [size_patched] at hright
    rw [hright, addWord_append_left bs v (Nat.le_of_eq (size_payload h w).symm), addWord_payload h,
      Array.append_assoc]
  calc patched (as ++ (head ++ Word.bytes w).toArray ++ bs) (ps ++ ⟨as.size + 3, v⟩ :: qs)
      = patched (addWord (patched as ps ++ ((head ++ Word.bytes w).toArray ++ bs)) (as.size + 3) v)
          qs := by
        rw [Array.append_assoc, patched_append, patched_append_left _ hps, patched_cons]
    _ = patched (patched as ps ++ (head ++ Word.bytes (w + v)).toArray ++ bs)
          ((qs.map back).map (Patch.shift (as.size + 5))) := by
        rw [hpayload, hback]
    _ = patched as ps ++ (head ++ Word.bytes (w + v)).toArray ++ patched bs (qs.map back) := by
        rw [← hfront, patched_append_right]

/-! ### Lists that differ in one entry -/

/-- Two lists that are the same but for one entry. -/
inductive Replaced {α : Type} (r : α → α → Prop) : List α → List α → Prop where
  | here {x y : α} (h : r x y) (zs : List α) : Replaced r (x :: zs) (y :: zs)
  | there (z : α) {xs ys : List α} (h : Replaced r xs ys) : Replaced r (z :: xs) (z :: ys)

namespace Replaced

variable {α β : Type} {r : α → α → Prop} {xs ys : List α}

theorem map_eq {f : α → β} (h : Replaced r xs ys) (hf : ∀ x y, r x y → f y = f x) :
    ys.map f = xs.map f := by
  induction h with
  | here h zs => rw [List.map_cons, List.map_cons, hf _ _ h]
  | there z _ ih => rw [List.map_cons, List.map_cons, ih]

theorem map {r' : β → β → Prop} {f g : α → β} (h : Replaced r xs ys)
    (hr : ∀ x ∈ xs, ∀ y, r x y → r' (f x) (g y)) (heq : ∀ z, g z = f z) :
    Replaced r' (xs.map f) (ys.map g) := by
  induction h with
  | here h zs =>
    rw [List.map_cons, List.map_cons, List.map_congr_left fun z _ => heq z]
    exact .here (hr _ List.mem_cons_self _ h) _
  | there z _ ih =>
    rw [List.map_cons, List.map_cons, heq]
    exact .there _ (ih fun x hx => hr x (List.mem_cons_of_mem z hx))

theorem exists_mem (h : Replaced r xs ys) : ∃ x ∈ xs, ∃ y ∈ ys, r x y := by
  induction h with
  | @here x y h zs => exact ⟨x, List.mem_cons_self, y, List.mem_cons_self, h⟩
  | there z _ ih =>
    obtain ⟨x, hx, y, hy, h⟩ := ih
    exact ⟨x, List.mem_cons_of_mem z hx, y, List.mem_cons_of_mem z hy, h⟩

/-- Lists that are the same at every other position. -/
theorem of_getElem? {n : Nat} {x y : α} (hx : xs[n]? = some x) (hy : ys[n]? = some y) (h : r x y)
    (hother : ∀ k, k ≠ n → ys[k]? = xs[k]?) : Replaced r xs ys := by
  induction n generalizing xs ys with
  | zero =>
    cases xs with
    | nil => cases hx
    | cons x' xs =>
      cases ys with
      | nil => cases hy
      | cons y' ys =>
        cases hx
        cases hy
        have htail : ys = xs := List.ext_getElem? fun k => hother (k + 1) (Nat.succ_ne_zero k)
        rw [htail]
        exact .here h xs
  | succ n ih =>
    cases xs with
    | nil => cases hx
    | cons x' xs =>
      cases ys with
      | nil => cases hy
      | cons y' ys =>
        obtain rfl : y' = x' := Option.some.inj (hother 0 (Nat.succ_ne_zero n).symm)
        exact .there _ (ih hx hy fun k hk => hother (k + 1) fun he => hk (Nat.succ.inj he))

end Replaced

/-! ### Sections -/

/-- An operand made relative: the bytes in front of its payload before and after the change, the name
of its relocation, and its section. -/
structure Change where
  head : List UInt8
  head' : List UInt8
  symbol : String
  home : String
  length : head.length = 3
  length' : head'.length = 3

/-- The change of an instruction whose relocation is of a name, in a section. -/
def Instruction.MadeRelative.change {x : String} {i i' : Instruction} (h : i.MadeRelative x i')
    (symbol home : String) : Change where
  head := i.head
  head' := i'.head
  symbol := symbol
  home := home
  length := h.length_head
  length' := h.length_head'

/-- Two sections that are the same but for a changed instruction at `k`, whose payload holds `w` and
is to get the address of a symbol. Offsets of relocations count from `n` bytes before the section. -/
inductive SectionData.Changed (c : Change) (n k : Nat) (w : UInt16) :
    SectionData → SectionData → Prop where
  | intro {as bs : Array UInt8} {rs ss : List Relocation} {o : UInt16} (size : as.size = k)
      (offset : o.toNat = n + k + 3) (before : ∀ r ∈ rs, r.offset.toNat + 2 ≤ n + k)
      (after : ∀ r ∈ ss, n + k + 5 ≤ r.offset.toNat) :
      Changed c n k w
        ⟨c.home, as ++ (c.head ++ Word.bytes w).toArray ++ bs, rs ++ ⟨.symbolWord, o, c.symbol⟩ :: ss⟩
        ⟨c.home, as ++ (c.head' ++ Word.bytes (w + pcRelativePlaceholder)).toArray ++ bs,
          rs ++ ⟨.pcRelative, o, c.symbol⟩ :: ss⟩

/-- A section of a module, moved by the bases of the module's sections. -/
def ObjectModule.shifted (m : ObjectModule) (b : String → UInt16) (f : SectionData) : SectionData where
  name := f.name
  bytes := Linkage.rebased m b f
  relocations := f.relocations.map fun r => { r with offset := r.offset + b f.name }

/-- What is added to the word of a relocation when the sections of its module are moved. -/
def ObjectModule.rebase (m : ObjectModule) (b : String → UInt16) (name : String) : UInt16 :=
  if (m.symbols.get? name).any Symbol.isSection then b name else 0

theorem ObjectModule.rebased_eq (m : ObjectModule) (b : String → UInt16) (f : SectionData) :
    Linkage.rebased m b f =
      patched f.bytes (f.relocations.map fun r => ⟨r.offset.toNat, m.rebase b r.symbol⟩) := by
  unfold Linkage.rebased patched
  rw [List.foldl_map]
  refine List.foldl_ext _ _ _ fun bs r _ => ?_
  unfold rebase
  split
  · rfl
  · rw [addWord_zero]

theorem ObjectModule.map_name_shifted (m : ObjectModule) (b : String → UInt16)
    (fs : List SectionData) :
    (fs.map (m.shifted b)).map SectionData.name = fs.map SectionData.name := List.map_map

@[simp] theorem ObjectModule.size_shifted (m : ObjectModule) (b : String → UInt16) (f : SectionData) :
    (m.shifted b f).bytes.size = f.bytes.size := by
  show (Linkage.rebased m b f).size = _
  rw [rebased_eq, size_patched]

namespace SectionData.Changed

variable {c : Change} {n k : Nat} {w : UInt16} {f f' g : SectionData}

theorem name (h : Changed c n k w f f') : f.name = c.home := by
  cases h
  rfl

theorem name' (h : Changed c n k w f f') : f'.name = c.home := by
  cases h
  rfl

theorem size (h : Changed c n k w f f') : f'.bytes.size = f.bytes.size := by
  cases h with
  | intro =>
    simp only [Array.size_append, size_payload c.length, size_payload c.length']

theorem le_size (h : Changed c n k w f f') : k + 5 ≤ f.bytes.size := by
  cases h with
  | intro size =>
    simp only [Array.size_append, size_payload c.length, size]
    exact Nat.le_add_right _ _

/-- **Moving** both sections of a module. -/
theorem shifted {m m' : ObjectModule} {b : String → UInt16}
    (h : Changed c 0 k w f f') (hm : m'.symbols = m.symbols)
    (hb : b c.home = UInt16.ofNat n) (hfit : n + f.bytes.size ≤ addressSpace)
    (hin : ∀ r ∈ f.relocations, r.offset.toNat + 2 ≤ f.bytes.size) :
    Changed c n k (w + m.rebase b c.symbol) (m.shifted b f) (m'.shifted b f') := by
  have hrebase : m'.rebase b = m.rebase b := by
    unfold ObjectModule.rebase
    rw [hm]
  cases h with
  | @intro as bs rs ss o size offset before after =>
    have hmove : ∀ r ∈ rs ++ ⟨.symbolWord, o, c.symbol⟩ :: ss,
        (r.offset + b c.home).toNat = n + r.offset.toNat := by
      intro r hr
      have hr' := hin r hr
      rw [hb]
      exact Parts.toNat_add_base hr' hfit
    let patch : Relocation → Patch := fun r => ⟨r.offset.toNat, m.rebase b r.symbol⟩
    have hrs : ∀ p ∈ rs.map patch, p.pos + 2 ≤ as.size := by
      refine List.forall_mem_map.mpr fun r hr => ?_
      have := before r hr
      show r.offset.toNat + 2 ≤ as.size
      omega
    have hss : ∀ q ∈ ss.map patch, as.size + 5 ≤ q.pos := by
      refine List.forall_mem_map.mpr fun r hr => ?_
      have := after r hr
      show as.size + 5 ≤ r.offset.toNat
      omega
    obtain ⟨as', bs', hsize, hpatched⟩ := @patched_around as bs (rs.map patch) (ss.map patch) hrs hss
    have hpos : o.toNat = as.size + 3 := by omega
    have hbytes : Linkage.rebased m b ⟨c.home, as ++ (c.head ++ Word.bytes w).toArray ++ bs,
        rs ++ ⟨.symbolWord, o, c.symbol⟩ :: ss⟩ =
          as' ++ (c.head ++ Word.bytes (w + m.rebase b c.symbol)).toArray ++ bs' := by
      rw [ObjectModule.rebased_eq, List.map_append, List.map_cons, hpos]
      exact hpatched w _ c.length
    have hbytes' : Linkage.rebased m' b
        ⟨c.home, as ++ (c.head' ++ Word.bytes (w + pcRelativePlaceholder)).toArray ++ bs,
          rs ++ ⟨.pcRelative, o, c.symbol⟩ :: ss⟩ =
          as' ++ (c.head' ++ Word.bytes (w + m.rebase b c.symbol + pcRelativePlaceholder)).toArray ++ bs' := by
      rw [ObjectModule.rebased_eq, List.map_append, List.map_cons, hpos, hrebase, UInt16.add_assoc,
        UInt16.add_comm (m.rebase b c.symbol), ← UInt16.add_assoc]
      exact hpatched _ _ c.length'
    unfold ObjectModule.shifted
    rw [hbytes, hbytes', List.map_append, List.map_cons, List.map_append, List.map_cons]
    refine .intro (hsize.trans size) ?_ ?_ ?_
    · rw [hmove _ (List.mem_append_right _ List.mem_cons_self), offset]
      omega
    · refine List.forall_mem_map.mpr fun r hr => ?_
      have := before r hr
      simp only
      rw [hmove r (List.mem_append_left _ hr)]
      omega
    · refine List.forall_mem_map.mpr fun r hr => ?_
      have := after r hr
      simp only
      rw [hmove r (List.mem_append_right _ (List.mem_cons_of_mem _ hr))]
      omega

/-- Both sections **behind another** whose size is the distance. -/
theorem behind (h : Changed c n k w f f') {e : SectionData} (hname : e.name = c.home)
    (he : e.bytes.size = n) (hin : ∀ r ∈ e.relocations, r.offset.toNat + 2 ≤ n) :
    Changed c 0 (n + k) w (e.join f) (e.join f') := by
  cases h with
  | @intro as bs rs ss o size offset before after =>
    unfold SectionData.join
    simp only
    rw [← Array.append_assoc, ← Array.append_assoc, ← Array.append_assoc, ← Array.append_assoc,
      ← List.append_assoc, ← List.append_assoc, hname]
    refine .intro ?_ (by omega) (fun r hr => ?_) fun r hr => ?_
    · rw [Array.size_append, he, size]
    · rcases List.mem_append.mp hr with hr | hr
      · have := hin r hr
        omega
      · have := before r hr
        omega
    · have := after r hr
      omega

/-- Both sections **with another behind them**. -/
theorem join (h : Changed c 0 k w f f')
    (hg : ∀ r ∈ g.relocations, f.bytes.size ≤ r.offset.toNat) :
    Changed c 0 k w (f.join g) (f'.join g) := by
  have hle := h.le_size
  cases h with
  | @intro as bs rs ss o size offset before after =>
    unfold SectionData.join
    simp only
    have hassoc : ∀ ps : Array UInt8, as ++ ps ++ bs ++ g.bytes = as ++ ps ++ (bs ++ g.bytes) :=
      fun ps => Array.append_assoc
    rw [hassoc, hassoc, List.append_assoc, List.append_assoc, List.cons_append, List.cons_append]
    refine .intro size offset before fun r hr => ?_
    rcases List.mem_append.mp hr with hr | hr
    · exact after r hr
    · have := hg r hr
      omega

end SectionData.Changed
end Sx16
