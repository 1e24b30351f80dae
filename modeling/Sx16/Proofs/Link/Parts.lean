/-
# Joining modules is associative

A module and a linkage offer the same two things to others: what each shared name stands for, and
sections. To join two of them, the second is moved: every section of it goes behind the one of the
same name in the first, labels and relocations move along, and so do placeholders that count from the
start of a section. Joining is associative as long as sections stay within the address space, so it
does not matter which neighbours are joined first.

Key definitions: `Role`, `Parts`, `Parts.join`, `Parts.Agrees`, `Parts.Sound`, `Parts.Tight`.
Key theorems: `Parts.agrees_join_left`, `Parts.roles_join_assoc`, `Parts.join_assoc`,
`Parts.Sound.join`, `Parts.Tight.join`.
-/
import Sx16.Link.Layout
import Sx16.Proofs.Link.Pieces
import Sx16.Proofs.Patch

namespace Sx16

/-- What a shared name stands for. -/
inductive Role where
  /-- A section. -/
  | area
  /-- A label that another module has to define. -/
  | wanted
  /-- A label for other modules: its section, if it was defined, and its offset there. -/
  | given (home : Option String) (value : UInt16)
  deriving DecidableEq

namespace Role

/-- A label moves with its section. -/
def shift (b : String → UInt16) : Role → Role
  | given home value => given home (value + (home.map b).getD 0)
  | r => r

/-- The role of a name by two modules: who wants a label takes what the other has. -/
def merge : Role → Role → Role
  | wanted, r => r
  | r, _ => r

/-- Two roles that one name can have: sections are no labels, and one module gives a label. -/
def agrees : Role → Role → Bool
  | area, area | wanted, wanted | wanted, given _ _ | given _ _, wanted => true
  | _, _ => false

theorem merge_assoc (x y z : Role) : (x.merge y).merge z = x.merge (y.merge z) := by
  cases x <;> rfl

instance : Std.Associative merge := ⟨merge_assoc⟩

theorem shift_merge (b : String → UInt16) (x y : Role) :
    (x.merge y).shift b = (x.shift b).merge (y.shift b) := by
  cases x <;> rfl

theorem shift_shift (b c : String → UInt16) (x : Role) :
    (x.shift b).shift c = x.shift fun name => b name + c name := by
  cases x with
  | given home value =>
    cases home with
    | none => simp [shift]
    | some name => simp [shift, UInt16.add_assoc]
  | _ => rfl

theorem agrees_shift_right (b : String → UInt16) (x y : Role) :
    x.agrees (y.shift b) = x.agrees y := by
  cases x <;> cases y <;> rfl

theorem agrees_shift_left (b : String → UInt16) (x y : Role) :
    (x.shift b).agrees y = x.agrees y := by
  cases x <;> cases y <;> rfl

theorem agrees_merge_left {x y : Role} (h : x.agrees y = true) (z : Role) :
    (x.merge y).agrees z = true ↔ x.agrees z = true ∧ y.agrees z = true := by
  cases x <;> cases y <;> cases h <;> cases z <;> simp [merge, agrees]

theorem agrees_comm (x y : Role) : x.agrees y = y.agrees x := by
  cases x <;> cases y <;> rfl

theorem shift_eq_given {b : String → UInt16} {x : Role} {home : Option String} {v : UInt16}
    (h : x.shift b = given home v) : ∃ v', x = given home v' := by
  cases x with
  | given home' value =>
    cases h
    exact ⟨value, rfl⟩
  | _ => cases h

theorem shift_eq_area {b : String → UInt16} {x : Role} : x.shift b = area ↔ x = area := by
  cases x <;> simp [shift]

theorem merge_eq_area {x y : Role} (h : x.agrees y = true) : x.merge y = area ↔ y = area := by
  cases x <;> cases y <;> cases h <;> simp [merge]

end Role

/-- What a module or a linkage offers: the roles of shared names and its sections. -/
@[ext] structure Parts where
  roles : String → Option Role
  pieces : List SectionData

/-- What a placeholder gets when the sections of its module are moved. -/
def Relocation.rebase (roles : String → Option Role) (b : String → UInt16) (r : Relocation) : Patch :=
  ⟨r.offset.toNat, if roles r.symbol = some .area then b r.symbol else 0⟩

/-- A section with its module's sections moved. -/
def SectionData.moved (roles : String → Option Role) (b : String → UInt16) (f : SectionData) :
    SectionData where
  name := f.name
  bytes := patched f.bytes (f.relocations.map (Relocation.rebase roles b))
  relocations := f.relocations.map fun r => { r with offset := r.offset + b f.name }

@[simp] theorem SectionData.moved_name (roles : String → Option Role) (b : String → UInt16)
    (f : SectionData) : (f.moved roles b).name = f.name := rfl

@[simp] theorem SectionData.size_moved (roles : String → Option Role) (b : String → UInt16)
    (f : SectionData) : (f.moved roles b).bytes.size = f.bytes.size := size_patched _ _

namespace Parts

/-- The number of bytes of a section; 0 if there is none. -/
def size (p : Parts) (name : String) : Nat :=
  ((entryOf SectionData.name p.pieces name).map (·.bytes.size)).getD 0

/-- Where a section of another module starts when it is joined. -/
def base (p : Parts) (name : String) : UInt16 := UInt16.ofNat (p.size name)

/-- Parts joined with others, which are moved. -/
def join (p q : Parts) : Parts where
  roles name := (p.roles name).merge Role.merge ((q.roles name).map (Role.shift p.base))
  pieces := attachAll p.pieces (q.pieces.map (SectionData.moved q.roles p.base))

/-- No module at all. -/
def nothing : Parts := ⟨fun _ => none, []⟩

/-- Parts whose roles agree, name by name. -/
def Agrees (p q : Parts) : Prop :=
  ∀ name, ∀ x ∈ p.roles name, ∀ y ∈ q.roles name, x.agrees y = true

/-- The shared names are the sections and labels in them, and relocations are of shared names. -/
structure Sound (p : Parts) : Prop where
  nodup : (p.pieces.map SectionData.name).Nodup
  area : ∀ {name}, p.roles name = some .area ↔ name ∈ p.pieces.map SectionData.name
  given : ∀ {name home v}, p.roles name = some (.given (some home) v) →
    home ∈ p.pieces.map SectionData.name
  symbols : ∀ f ∈ p.pieces, ∀ r ∈ f.relocations, (p.roles r.symbol).isSome

/-- Placeholders lie inside their sections, one behind the other. -/
structure Tight (p : Parts) : Prop where
  inside : ∀ f ∈ p.pieces, ∀ r ∈ f.relocations, r.offset.toNat + 2 ≤ f.bytes.size
  apart : ∀ f ∈ p.pieces, f.relocations.Pairwise fun r s => r.offset.toNat + 2 ≤ s.offset.toNat

/-- No section exceeds the address space. -/
def Fits (p : Parts) : Prop := ∀ name, p.size name ≤ addressSpace

variable {p q r : Parts} {name : String}

/-! ### Names and sizes -/

theorem mem_names_join : name ∈ (p.join q).pieces.map SectionData.name ↔
    name ∈ p.pieces.map SectionData.name ∨ name ∈ q.pieces.map SectionData.name := by
  rw [join, attachAll, mem_map_key_upsertAll SectionData.join_key, map_key_map (SectionData.moved_name _ _)]

theorem entryOf_join (hq : (q.pieces.map SectionData.name).Nodup) (name : String) :
    entryOf SectionData.name (p.join q).pieces name =
      (entryOf SectionData.name p.pieces name).merge SectionData.join
      ((entryOf SectionData.name q.pieces name).map (SectionData.moved q.roles p.base)) := by
  have hmv := SectionData.moved_name q.roles p.base
  rw [join, entryOf_attachAll (by rwa [map_key_map hmv]), entryOf_map hmv]

theorem size_join (hq : (q.pieces.map SectionData.name).Nodup) (name : String) :
    (p.join q).size name = p.size name + q.size name := by
  unfold size
  rw [entryOf_join hq]
  cases entryOf SectionData.name p.pieces name <;>
    cases entryOf SectionData.name q.pieces name <;> simp [SectionData.join]

theorem base_join (hq : (q.pieces.map SectionData.name).Nodup) :
    (p.join q).base = fun name => q.base name + p.base name := by
  funext name
  rw [base, size_join hq, UInt16.ofNat_add, UInt16.add_comm]
  rfl

theorem size_eq_of_mem (hn : (p.pieces.map SectionData.name).Nodup) {f : SectionData}
    (hf : f ∈ p.pieces) : p.size f.name = f.bytes.size := by
  rw [size, entryOf_of_mem hn hf]
  rfl

theorem size_eq_zero (h : name ∉ p.pieces.map SectionData.name) : p.size name = 0 := by
  rw [size, entryOf_eq_none_iff.mpr h]
  rfl

theorem size_le_size_join (hq : (q.pieces.map SectionData.name).Nodup) (name : String) :
    p.size name ≤ (p.join q).size name := by
  rw [size_join hq]
  exact Nat.le_add_right _ _

theorem Fits.of_join (hq : (q.pieces.map SectionData.name).Nodup) (h : (p.join q).Fits) : p.Fits :=
  fun name => Nat.le_trans (size_le_size_join hq name) (h name)

/-! ### Roles -/

theorem roles_join (p q : Parts) (name : String) : (p.join q).roles name =
    (p.roles name).merge Role.merge ((q.roles name).map (Role.shift p.base)) := rfl

theorem roles_join_assoc (hq : (q.pieces.map SectionData.name).Nodup) (p r : Parts) :
    ((p.join q).join r).roles = (p.join (q.join r)).roles := by
  funext name
  rw [roles_join, roles_join, roles_join, roles_join, base_join hq]
  cases p.roles name <;> cases q.roles name <;> cases r.roles name <;>
    simp [Role.shift_merge, Role.shift_shift, Role.merge_assoc]

/-- Joined parts agree with others if both do. -/
theorem agrees_join_left (h : p.Agrees q) : (p.join q).Agrees r ↔ p.Agrees r ∧ q.Agrees r := by
  unfold Agrees at h ⊢
  rw [← forall_and]
  refine forall_congr' fun name => ?_
  have hname := h name
  rw [roles_join]
  cases hp : p.roles name with
  | none => simp [Role.agrees_shift_left]
  | some x =>
    cases hq : q.roles name with
    | none => simp
    | some y =>
      have hxy : x.agrees (y.shift p.base) = true := by
        rw [Role.agrees_shift_right]
        exact hname x hp y hq
      cases r.roles name with
      | none => simp
      | some z => simpa [Role.agrees_shift_left] using Role.agrees_merge_left hxy z

theorem agrees_comm : p.Agrees q ↔ q.Agrees p := by
  have hswap : ∀ {p q : Parts}, p.Agrees q → q.Agrees p := fun h name x hx y hy =>
    (Role.agrees_comm x y).trans (h name y hy x hx)
  exact ⟨hswap, hswap⟩

/-- A name of the second parts is a section of the whole if it is one of theirs. -/
theorem roles_join_eq_area (h : p.Agrees q) (hq : (q.roles name).isSome) :
    (p.join q).roles name = some .area ↔ q.roles name = some .area := by
  obtain ⟨y, hy⟩ := Option.isSome_iff_exists.mp hq
  rw [roles_join, hy]
  cases hp : p.roles name with
  | none => simp [Role.shift_eq_area]
  | some x =>
    have hxy : x.agrees (y.shift p.base) = true := by
      rw [Role.agrees_shift_right]
      exact h name x hp y hy
    simp [Role.merge_eq_area hxy, Role.shift_eq_area]

theorem roles_join_eq_area_left (h : p.Agrees q) (hp : (p.roles name).isSome) :
    (p.join q).roles name = some .area ↔ p.roles name = some .area := by
  obtain ⟨x, hx⟩ := Option.isSome_iff_exists.mp hp
  rw [roles_join, hx]
  cases hq : q.roles name with
  | none => simp
  | some y =>
    have hxy := h name x hx y hq
    cases x <;> cases y <;> cases hxy <;> simp [Role.merge, Role.shift]

theorem isSome_roles_join :
    ((p.join q).roles name).isSome = ((p.roles name).isSome || (q.roles name).isSome) := by
  rw [roles_join, Option.isSome_merge, Option.isSome_map]

/-! ### Moved sections -/

theorem toNat_add_base {o : UInt16} {n k : Nat} (ho : o.toNat + 2 ≤ k) (h : n + k ≤ addressSpace) :
    (o + UInt16.ofNat n).toNat = n + o.toNat := by
  unfold addressSpace at h
  rw [UInt16.toNat_add, UInt16.toNat_ofNat']
  omega

/-- **Moving a joined section** is moving the first part, and the second part over both distances. -/
theorem moved_join {f g : SectionData} (hq : Sound q) (hr : Sound r) (hqr : q.Agrees r)
    (hg : g ∈ r.pieces) (hname : f.name = g.name) (hsize : f.bytes.size = q.size g.name)
    (hfit : f.bytes.size + g.bytes.size ≤ addressSpace)
    (hf : ∀ s ∈ f.relocations, s.offset.toNat + 2 ≤ f.bytes.size) (tr : Tight r) (p : Parts) :
    (f.join (g.moved r.roles q.base)).moved (q.join r).roles p.base =
      (f.moved (q.join r).roles p.base).join (g.moved r.roles (p.join q).base) := by
  have hin := tr.inside g hg
  have harea : ∀ s ∈ g.relocations, ((q.join r).roles s.symbol = some .area ↔
      r.roles s.symbol = some .area) := fun s hs => roles_join_eq_area hqr (hr.symbols g hg s hs)
  have hbase : q.base g.name = UInt16.ofNat f.bytes.size := by rw [base, hsize]
  have hshift : ((g.moved r.roles q.base).relocations.map
      (Relocation.rebase (q.join r).roles p.base)) =
        (g.relocations.map (Relocation.rebase (q.join r).roles p.base)).map
          (Patch.shift f.bytes.size) := by
    rw [SectionData.moved, List.map_map, List.map_map]
    refine List.map_congr_left fun s hs => ?_
    simp only [Function.comp_apply, Relocation.rebase, Patch.shift, hbase]
    rw [toNat_add_base (hin s hs) hfit]
  have htwice : patched (g.moved r.roles q.base).bytes
      (g.relocations.map (Relocation.rebase (q.join r).roles p.base)) =
        (g.moved r.roles (p.join q).base).bytes := by
    unfold SectionData.moved Relocation.rebase
    rw [patched_patched _ _ _ ((tr.apart g hg).imp Or.inl)]
    refine congrArg (patched g.bytes) (List.map_congr_left fun s hs => ?_)
    simp only [harea s hs, base_join hq.nodup]
    split <;> simp
  have hbytes : patched (f.bytes ++ (g.moved r.roles q.base).bytes)
      ((f.relocations ++ (g.moved r.roles q.base).relocations).map
        (Relocation.rebase (q.join r).roles p.base)) =
      patched f.bytes (f.relocations.map (Relocation.rebase (q.join r).roles p.base)) ++
        (g.moved r.roles (p.join q).base).bytes := by
    have hinside : ∀ t ∈ f.relocations.map (Relocation.rebase (q.join r).roles p.base),
        t.pos + 2 ≤ f.bytes.size := by
      intro t ht
      obtain ⟨s, hs, rfl⟩ := List.mem_map.mp ht
      exact hf s hs
    have hlen := size_patched f.bytes (f.relocations.map (Relocation.rebase (q.join r).roles p.base))
    rw [List.map_append, patched_append, patched_append_left _ hinside, hshift, ← hlen,
      patched_append_right, htwice]
  have hrel : ((f.relocations ++ (g.moved r.roles q.base).relocations).map fun s =>
      { s with offset := s.offset + p.base f.name }) =
      (f.relocations.map fun s => { s with offset := s.offset + p.base f.name }) ++
        (g.moved r.roles (p.join q).base).relocations := by
    rw [List.map_append, SectionData.moved, SectionData.moved, List.map_map]
    congr 1
    refine List.map_congr_left fun s _ => ?_
    simp only [Function.comp_apply, base_join hq.nodup, hname, UInt16.add_assoc]
  exact (SectionData.mk.injEq ..).mpr ⟨rfl, hbytes, hrel⟩

/-- A section of a new name is moved over both distances, one of which is 0. -/
theorem moved_moved {g : SectionData} (hq : Sound q) (hr : Sound r) (hqr : q.Agrees r)
    (hg : g ∈ r.pieces) (hnew : g.name ∉ q.pieces.map SectionData.name)
    (hfit : g.bytes.size ≤ addressSpace) (tr : Tight r) (p : Parts) :
    (g.moved r.roles q.base).moved (q.join r).roles p.base = g.moved r.roles (p.join q).base := by
  have hempty : ∀ h : SectionData, h.name = g.name →
      (SectionData.mk g.name #[] []).join h = h := by
    intro h hname
    obtain ⟨name, bytes, relocations⟩ := h
    cases hname
    simp [SectionData.join]
  have hsize : (#[] : Array UInt8).size = q.size g.name := (size_eq_zero hnew).symm
  have hmoved := moved_join (f := ⟨g.name, #[], []⟩) hq hr hqr hg rfl hsize (by simpa using hfit)
    (by simp) tr p
  rw [hempty (g.moved r.roles q.base) rfl] at hmoved
  exact hmoved.trans (hempty (g.moved r.roles (p.join q).base) rfl)

/-- A section whose relocations are of known names moves the same by more roles. -/
theorem moved_congr {f : SectionData} (hq : Sound q) (hqr : q.Agrees r) (hf : f ∈ q.pieces)
    (b : String → UInt16) : f.moved (q.join r).roles b = f.moved q.roles b := by
  have hpatch : f.relocations.map (Relocation.rebase (q.join r).roles b) =
      f.relocations.map (Relocation.rebase q.roles b) := by
    refine List.map_congr_left fun s hs => ?_
    unfold Relocation.rebase
    simp only [roles_join_eq_area_left hqr (hq.symbols f hf s hs)]
  unfold SectionData.moved
  rw [hpatch]

/-- Attaching sections one by one and moving the result is attaching the moved sections, as long as
the sections that are attached to are still those of `q`. -/
theorem attachAll_moved (hq : Sound q) (hr : Sound r) (hqr : q.Agrees r) (tq : Tight q)
    (tr : Tight r) (hfit : (q.join r).Fits) (p : Parts) {gs fs : List SectionData}
    (hgr : ∀ g ∈ gs, g ∈ r.pieces) (hgs : (gs.map SectionData.name).Nodup)
    (hfs : (fs.map SectionData.name).Nodup)
    (hpiece : ∀ g ∈ gs,
      entryOf SectionData.name fs g.name = entryOf SectionData.name q.pieces g.name) :
    attachAll p.pieces ((attachAll fs (gs.map (SectionData.moved r.roles q.base))).map
      (SectionData.moved (q.join r).roles p.base)) =
    attachAll (attachAll p.pieces (fs.map (SectionData.moved (q.join r).roles p.base)))
      (gs.map (SectionData.moved r.roles (p.join q).base)) := by
  have hmv := SectionData.moved_name (q.join r).roles p.base
  induction gs generalizing fs with
  | nil => rfl
  | cons g gs ih =>
    obtain ⟨hgn, hgs⟩ := List.nodup_cons.mp hgs
    have hg := hgr g List.mem_cons_self
    have hle : q.size g.name + g.bytes.size ≤ addressSpace := by
      have := hfit g.name
      rwa [size_join hr.nodup, size_eq_of_mem hr.nodup hg] at this
    have hrest : ∀ g' ∈ gs, entryOf SectionData.name (attach (g.moved r.roles q.base) fs) g'.name =
        entryOf SectionData.name q.pieces g'.name := by
      intro g' hg'
      have hne : g.name ≠ g'.name := fun he => hgn (he ▸ List.mem_map_of_mem hg')
      rw [attach, entryOf_upsert (fun f => SectionData.join_key f _), SectionData.moved_name,
        if_neg hne]
      exact hpiece g' (List.mem_cons_of_mem _ hg')
    rw [List.map_cons, List.map_cons, attachAll_cons, attachAll_cons,
      ih (fun g' hg' => hgr g' (List.mem_cons_of_mem _ hg')) hgs (nodup_attach hfs) hrest]
    congr 1
    refine attachAll_map_attach hmv rfl hfs (fun f hf hname => ?_) fun hnew => ?_
    · have hfq : f ∈ q.pieces := mem_of_entryOf
        ((hpiece g List.mem_cons_self).symm.trans (hname ▸ entryOf_of_mem hfs hf))
      have hsize : f.bytes.size = q.size g.name :=
        (size_eq_of_mem hq.nodup hfq).symm.trans (congrArg q.size hname)
      exact moved_join hq hr hqr hg hname hsize (hsize ▸ hle) (tq.inside f hfq) tr p
    · have hnone := (hpiece g List.mem_cons_self).symm.trans (entryOf_eq_none_iff.mpr hnew)
      exact moved_moved hq hr hqr hg (entryOf_eq_none_iff.mp hnone)
        (Nat.le_trans (Nat.le_add_left _ _) hle) tr p

/-- **Joining is associative** if the parts agree and the sections fit. -/
theorem join_assoc (hq : Sound q) (hr : Sound r) (hqr : q.Agrees r) (tq : Tight q) (tr : Tight r)
    (hfit : (q.join r).Fits) (p : Parts) : (p.join q).join r = p.join (q.join r) := by
  have hpieces := attachAll_moved hq hr hqr tq tr hfit p (fun _ => id) hr.nodup hq.nodup
    fun _ _ => rfl
  have hcongr : q.pieces.map (SectionData.moved (q.join r).roles p.base) =
      q.pieces.map (SectionData.moved q.roles p.base) :=
    List.map_congr_left fun f hf => moved_congr hq hqr hf p.base
  rw [hcongr] at hpieces
  exact Parts.ext (roles_join_assoc hq.nodup p r) hpieces.symm

/-! ### What joined parts keep -/

/-- A section of joined parts is one of the first, one of the second, or both. -/
theorem cases_of_mem_join {h : SectionData} (hp : (p.pieces.map SectionData.name).Nodup)
    (hq : (q.pieces.map SectionData.name).Nodup) (hh : h ∈ (p.join q).pieces) :
    (h ∈ p.pieces ∧ h.name ∉ q.pieces.map SectionData.name) ∨
    (∃ g ∈ q.pieces, g.name ∉ p.pieces.map SectionData.name ∧ h = g.moved q.roles p.base) ∨
    ∃ f ∈ p.pieces, ∃ g ∈ q.pieces, f.name = g.name ∧ h = f.join (g.moved q.roles p.base) := by
  have hpiece : entryOf SectionData.name (p.join q).pieces h.name = some h :=
    entryOf_of_mem (nodup_upsertAll SectionData.join_key hp) hh
  rw [entryOf_join hq, Option.merge_eq_some_iff] at hpiece
  rcases hpiece with ⟨hf, hg⟩ | ⟨hf, hg⟩ | ⟨f, g', hf, hg, hj⟩
  · rw [Option.map_eq_none_iff, entryOf_eq_none_iff] at hg
    exact Or.inl ⟨mem_of_entryOf hf, hg⟩
  · obtain ⟨g, hg, rfl⟩ := Option.map_eq_some_iff.mp hg
    exact Or.inr (Or.inl ⟨g, mem_of_entryOf hg, entryOf_eq_none_iff.mp hf, rfl⟩)
  · obtain ⟨g, hgq, rfl⟩ := Option.map_eq_some_iff.mp hg
    have hname : f.name = g.name := (key_of_entryOf hf).trans (key_of_entryOf hgq).symm
    exact Or.inr (Or.inr ⟨f, mem_of_entryOf hf, g, mem_of_entryOf hgq, hname, hj.symm⟩)

/-- Joined parts that agree are sound. -/
theorem Sound.join (hp : Sound p) (hq : Sound q) (h : p.Agrees q) : Sound (p.join q) where
  nodup := nodup_upsertAll SectionData.join_key hp.nodup
  area := by
    intro name
    rw [mem_names_join, ← hp.area, ← hq.area]
    cases hx : p.roles name with
    | none =>
      cases hy : q.roles name with
      | none => simp [roles_join, hx, hy]
      | some y => simp [roles_join, hx, hy, Role.shift_eq_area]
    | some x =>
      have hxs : (p.roles name).isSome := by rw [hx]; rfl
      rw [roles_join_eq_area_left h hxs, hx]
      refine ⟨Or.inl, fun hor => hor.elim id fun hy => ?_⟩
      have := h name x hx .area hy
      cases x <;> cases this
      rfl
  given := by
    intro name home v hgiven
    rw [mem_names_join]
    rw [roles_join, Option.merge_eq_some_iff] at hgiven
    have hright : ∀ y, q.roles name = some y → y.shift p.base = .given (some home) v →
        home ∈ q.pieces.map SectionData.name := by
      intro y hy hshift
      obtain ⟨v', rfl⟩ := Role.shift_eq_given hshift
      exact hq.given hy
    rcases hgiven with ⟨hx, -⟩ | ⟨-, hy⟩ | ⟨x, y', hx, hy, hmerge⟩
    · exact Or.inl (hp.given hx)
    · obtain ⟨y, hy, hshift⟩ := Option.map_eq_some_iff.mp hy
      exact Or.inr (hright y hy hshift)
    · obtain ⟨y, hy, hshift⟩ := Option.map_eq_some_iff.mp hy
      cases x with
      | area => cases hmerge
      | wanted => exact Or.inr (hright y hy (hshift.trans hmerge))
      | given home' v' =>
        cases hmerge
        exact Or.inl (hp.given hx)
  symbols := by
    intro h' hh' s hs
    rw [isSome_roles_join, Bool.or_eq_true]
    rcases cases_of_mem_join hp.nodup hq.nodup hh' with
      ⟨hf, -⟩ | ⟨g, hg, -, rfl⟩ | ⟨f, hf, g, hg, -, rfl⟩
    · exact Or.inl (hp.symbols h' hf s hs)
    · obtain ⟨s', hs', rfl⟩ := List.mem_map.mp hs
      exact Or.inr (hq.symbols g hg s' hs')
    · rcases List.mem_append.mp hs with hs | hs
      · exact Or.inl (hp.symbols f hf s hs)
      · obtain ⟨s', hs', rfl⟩ := List.mem_map.mp hs
        exact Or.inr (hq.symbols g hg s' hs')

theorem toNat_offset_moved (hq : Sound q) (tq : Tight q) (hfit : (p.join q).Fits)
    {g : SectionData} (hg : g ∈ q.pieces) {s : Relocation} (hs : s ∈ g.relocations) :
    (s.offset + p.base g.name).toNat = p.size g.name + s.offset.toNat := by
  have hle := hfit g.name
  rw [size_join hq.nodup, size_eq_of_mem hq.nodup hg] at hle
  exact toNat_add_base (tq.inside g hg s hs) hle

/-- Joined parts that fit keep their placeholders in order. -/
theorem Tight.join (hp : Sound p) (hq : Sound q) (tp : Tight p) (tq : Tight q)
    (hfit : (p.join q).Fits) : Tight (p.join q) := by
  have hoffset := fun {g} (hg : g ∈ q.pieces) {s} (hs : s ∈ g.relocations) =>
    toNat_offset_moved hq tq hfit hg hs
  have hmoved : ∀ g ∈ q.pieces, (g.moved q.roles p.base).relocations.Pairwise
      fun r s => r.offset.toNat + 2 ≤ s.offset.toNat := by
    intro g hg
    refine List.pairwise_map.mpr ((tq.apart g hg).imp_of_mem fun hr hs hrs => ?_)
    rw [hoffset hg hr, hoffset hg hs]
    omega
  constructor
  · intro h hh s hs
    rcases cases_of_mem_join hp.nodup hq.nodup hh with
      ⟨hf, -⟩ | ⟨g, hg, hnew, rfl⟩ | ⟨f, hf, g, hg, hname, rfl⟩
    · exact tp.inside h hf s hs
    · obtain ⟨s', hs', rfl⟩ := List.mem_map.mp hs
      have hin := tq.inside g hg s' hs'
      have hzero : p.size g.name = 0 := size_eq_zero hnew
      rw [hoffset hg hs', SectionData.size_moved, hzero]
      omega
    · have hjoin : (f.join (g.moved q.roles p.base)).bytes.size = f.bytes.size + g.bytes.size := by
        rw [SectionData.join, Array.size_append, SectionData.size_moved]
      rw [hjoin]
      rcases List.mem_append.mp hs with hs | hs
      · exact Nat.le_trans (tp.inside f hf s hs) (Nat.le_add_right _ _)
      · obtain ⟨s', hs', rfl⟩ := List.mem_map.mp hs
        have hin := tq.inside g hg s' hs'
        have hsize : p.size g.name = f.bytes.size := hname ▸ size_eq_of_mem hp.nodup hf
        rw [hoffset hg hs', hsize]
        omega
  · intro h hh
    rcases cases_of_mem_join hp.nodup hq.nodup hh with
      ⟨hf, -⟩ | ⟨g, hg, -, rfl⟩ | ⟨f, hf, g, hg, hname, rfl⟩
    · exact tp.apart h hf
    · exact hmoved g hg
    · refine List.pairwise_append.mpr ⟨tp.apart f hf, hmoved g hg, fun r hr s hs => ?_⟩
      obtain ⟨s', hs', rfl⟩ := List.mem_map.mp hs
      have hin := tp.inside f hf r hr
      have hsize : p.size g.name = f.bytes.size := hname ▸ size_eq_of_mem hp.nodup hf
      rw [hoffset hg hs', hsize]
      omega

end Parts
end Sx16
