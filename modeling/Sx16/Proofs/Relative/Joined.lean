/-
# Joining modules of which one was changed

Modules are joined section by section, and what is joined lies behind what was there. So if one
section of one module was changed in five bytes, one joined section is changed in as many, at a place
further by the bytes before. All symbols are the same, since merging never looks at the sections.

Key definitions: `sizeIn`, `Packed`, `Linkage.Beside`.
Key theorems: `Replaced.attachAll`, `replaced_attachAll`, `Linkage.beside_of_run_add`,
`Linkage.Beside.run_addAll`.
-/
import Sx16.Proofs.Relative.Assembled

namespace Sx16

/-! ### Sections that are joined -/

/-- The number of bytes of the section of a name; 0 if there is none. -/
def sizeIn (fs : List SectionData) (name : String) : Nat :=
  ((entryOf SectionData.name fs name).map (·.bytes.size)).getD 0

/-- The placeholders of a section lie in its bytes when these come behind those of its name. -/
def LiesBehind (fs : List SectionData) (g : SectionData) : Prop :=
  ∀ r ∈ g.relocations, sizeIn fs g.name ≤ r.offset.toNat ∧
    r.offset.toNat + 2 ≤ sizeIn fs g.name + g.bytes.size

/-- Sections with distinct names and placeholders inside them. -/
structure Packed (fs : List SectionData) : Prop where
  nodup : (fs.map SectionData.name).Nodup
  inside : ∀ f ∈ fs, ∀ r ∈ f.relocations, r.offset.toNat + 2 ≤ f.bytes.size

variable {fs fs' gs gs' : List SectionData} {f g : SectionData} {name : String} {c : Change}
  {n k : Nat} {w : UInt16}

theorem sizeIn_of_mem (hn : (fs.map SectionData.name).Nodup) (hf : f ∈ fs) :
    sizeIn fs f.name = f.bytes.size := by
  rw [sizeIn, entryOf_of_mem hn hf]
  rfl

theorem sizeIn_eq_zero (h : name ∉ fs.map SectionData.name) : sizeIn fs name = 0 := by
  rw [sizeIn, entryOf_eq_none_iff.mpr h]
  rfl

theorem sizeIn_attach (g : SectionData) (fs : List SectionData) (name : String) :
    sizeIn (attach g fs) name = sizeIn fs name + if g.name = name then g.bytes.size else 0 := by
  unfold sizeIn attach
  rw [entryOf_upsert fun f => SectionData.join_key f g]
  by_cases h : g.name = name
  · rw [if_pos h, if_pos h]
    cases entryOf SectionData.name fs name <;> simp [SectionData.join]
  · rw [if_neg h, if_neg h]
    rfl

theorem sizeIn_attachAll (hn : (gs.map SectionData.name).Nodup) (fs : List SectionData)
    (name : String) : sizeIn (attachAll fs gs) name = sizeIn fs name + sizeIn gs name := by
  unfold sizeIn
  rw [entryOf_attachAll hn]
  cases entryOf SectionData.name fs name <;> cases entryOf SectionData.name gs name <;>
    simp [SectionData.join]

theorem LiesBehind.attach (h : LiesBehind fs g) (hne : f.name ≠ g.name) :
    LiesBehind (attach f fs) g := by
  unfold LiesBehind
  rw [sizeIn_attach, if_neg hne, Nat.add_zero]
  exact h

theorem Packed.attach (h : Packed fs) (hg : LiesBehind fs g) : Packed (attach g fs) := by
  refine ⟨nodup_attach h.nodup, fun f hf => ?_⟩
  by_cases hmem : g.name ∈ fs.map SectionData.name
  · unfold Sx16.attach at hf
    rw [upsert_eq_map h.nodup hmem] at hf
    obtain ⟨e, he, rfl⟩ := List.mem_map.mp hf
    split
    · rename_i hname
      intro r hr
      have hsize : (e.join g).bytes.size = e.bytes.size + g.bytes.size := Array.size_append
      rcases List.mem_append.mp hr with hr | hr
      · have := h.inside e he r hr
        omega
      · have hin := (hg r hr).2
        rw [← hname, sizeIn_of_mem h.nodup he] at hin
        omega
    · exact h.inside e he
  · unfold Sx16.attach at hf
    rw [upsert_of_not_mem hmem] at hf
    rcases List.mem_append.mp hf with hf | hf
    · exact h.inside f hf
    · rw [List.mem_singleton.mp hf]
      intro r hr
      have hin := (hg r hr).2
      rwa [sizeIn_eq_zero hmem, Nat.zero_add] at hin

theorem Packed.attachAll (h : Packed fs) (hn : (gs.map SectionData.name).Nodup)
    (hgs : ∀ g ∈ gs, LiesBehind fs g) : Packed (attachAll fs gs) := by
  induction gs generalizing fs with
  | nil => exact h
  | cons g gs ih =>
    obtain ⟨hg, hn⟩ := List.nodup_cons.mp hn
    refine ih (h.attach (hgs g List.mem_cons_self)) hn fun e he => ?_
    exact (hgs e (List.mem_cons_of_mem g he)).attach fun heq => hg (heq ▸ List.mem_map_of_mem he)

/-! ### Changed sections that are joined -/

/-- The same section joined to both lists. -/
theorem Replaced.attach (h : Replaced (SectionData.Changed c 0 k w) fs fs')
    (hn : (fs.map SectionData.name).Nodup) (hg : LiesBehind fs g) :
    Replaced (SectionData.Changed c 0 k w) (attach g fs) (attach g fs') := by
  have hbehind : ∀ f ∈ fs, f.name = g.name → ∀ r ∈ g.relocations, f.bytes.size ≤ r.offset.toNat := by
    intro f hf hname r hr
    have hle := (hg r hr).1
    rwa [← hname, sizeIn_of_mem hn hf] at hle
  clear hn hg
  induction h with
  | @here f f' h fs =>
    by_cases hname : f.name = g.name
    · have hname' : f'.name = g.name := (h.name'.trans h.name.symm).trans hname
      rw [attach_cons_of_eq fs hname, attach_cons_of_eq fs hname']
      exact .here (h.join (hbehind f List.mem_cons_self hname)) fs
    · have hname' : f'.name ≠ g.name := (h.name'.trans h.name.symm) ▸ hname
      rw [attach_cons_of_ne fs hname, attach_cons_of_ne fs hname']
      exact .here h _
  | @there e fs fs' h ih =>
    by_cases hname : e.name = g.name
    · rw [attach_cons_of_eq fs hname, attach_cons_of_eq fs' hname]
      exact .there _ h
    · rw [attach_cons_of_ne fs hname, attach_cons_of_ne fs' hname]
      exact .there _ (ih fun f hf => hbehind f (List.mem_cons_of_mem e hf))

theorem Replaced.attachAll (h : Replaced (SectionData.Changed c 0 k w) fs fs') (hfs : Packed fs)
    (hn : (gs.map SectionData.name).Nodup) (hgs : ∀ g ∈ gs, LiesBehind fs g) :
    Replaced (SectionData.Changed c 0 k w) (attachAll fs gs) (attachAll fs' gs) := by
  induction gs generalizing fs fs' with
  | nil => exact h
  | cons g gs ih =>
    obtain ⟨hg, hn⟩ := List.nodup_cons.mp hn
    have hfirst := hgs g List.mem_cons_self
    refine ih (h.attach hfs.nodup hfirst) (hfs.attach hfirst) hn fun e he => ?_
    exact (hgs e (List.mem_cons_of_mem g he)).attach fun heq => hg (heq ▸ List.mem_map_of_mem he)

/-- Both changed sections joined to one list. -/
theorem replaced_attach {g' : SectionData} (h : SectionData.Changed c n k w g g')
    (hold : ∀ e ∈ fs, e.name = c.home → e.bytes.size = n ∧
      ∀ r ∈ e.relocations, r.offset.toNat + 2 ≤ n)
    (hnew : c.home ∉ fs.map SectionData.name → n = 0) :
    Replaced (SectionData.Changed c 0 (n + k) w) (attach g fs) (attach g' fs) := by
  induction fs with
  | nil =>
    obtain rfl : n = 0 := hnew List.not_mem_nil
    rw [Nat.zero_add]
    exact .here h []
  | cons e fs ih =>
    by_cases hname : e.name = c.home
    · rw [attach_cons_of_eq fs (hname.trans h.name.symm), attach_cons_of_eq fs (hname.trans h.name'.symm)]
      obtain ⟨hsize, hin⟩ := hold e List.mem_cons_self hname
      exact .here (h.behind hname hsize hin) fs
    · rw [attach_cons_of_ne fs fun he => hname (he.trans h.name),
        attach_cons_of_ne fs fun he => hname (he.trans h.name')]
      refine .there e (ih (fun e' he' => hold e' (List.mem_cons_of_mem e he')) fun hnot => hnew ?_)
      rw [List.map_cons, List.mem_cons, not_or]
      exact ⟨Ne.symm hname, hnot⟩

/-- **Changed sections joined to one list**: one joined section is changed, as much further as it has
bytes before. -/
theorem replaced_attachAll (h : Replaced (SectionData.Changed c n k w) gs gs') (hfs : Packed fs)
    (hn : (gs.map SectionData.name).Nodup) (hgs : ∀ g ∈ gs, LiesBehind fs g)
    (hsize : sizeIn fs c.home = n) :
    Replaced (SectionData.Changed c 0 (n + k) w) (attachAll fs gs) (attachAll fs gs') := by
  induction h generalizing fs with
  | @here g g' h gs =>
    obtain ⟨hg, hn⟩ := List.nodup_cons.mp hn
    have hfirst := hgs g List.mem_cons_self
    refine (replaced_attach h (fun e he hname => ?_) fun hnot => ?_).attachAll (hfs.attach hfirst) hn
      fun e he => ?_
    · rw [← hname, sizeIn_of_mem hfs.nodup he] at hsize
      exact ⟨hsize, hsize ▸ hfs.inside e he⟩
    · rw [← hsize, sizeIn_eq_zero hnot]
    · exact (hgs e (List.mem_cons_of_mem g he)).attach fun heq => hg (heq ▸ List.mem_map_of_mem he)
  | @there e gs gs' h ih =>
    obtain ⟨he, hn⟩ := List.nodup_cons.mp hn
    have hfirst := hgs e List.mem_cons_self
    obtain ⟨f, hf, f', -, hchanged⟩ := h.exists_mem
    have hne : e.name ≠ c.home := fun heq =>
      he (heq.trans hchanged.name.symm ▸ List.mem_map_of_mem hf)
    refine ih (hfs.attach hfirst) hn (fun g hg => ?_) ?_
    · exact (hgs g (List.mem_cons_of_mem e hg)).attach fun heq => he (heq ▸ List.mem_map_of_mem hg)
    · exact (sizeIn_attach e fs c.home).trans (by rw [if_neg hne, Nat.add_zero, hsize])

/-! ### Merging symbols -/

namespace Linkage

variable {l l' l1 : Linkage} {m m' : ObjectModule} {s : LinkSymbol} {ss : List LinkSymbol}

/-- Merging a symbol does not look at segments. -/
theorem run_merge_withSegments (s : LinkSymbol) (l : Linkage) (segments : List Segment) :
    (merge s).run { l with segments } =
      match (merge s).run l with
      | .ok u l1 => .ok u { l1 with segments }
      | .error e l1 => .error e { l1 with segments } := by
  rw [run_merge, run_merge]
  cases entryOf LinkSymbol.name l.symbols s.name with
  | none => rfl
  | some k =>
    simp only
    split
    · rfl
    · split
      · rfl
      · split <;> rfl

theorem run_mergeAll_withSegments (ss : List LinkSymbol) (l : Linkage) (segments : List Segment) :
    (mergeAll ss).run { l with segments } =
      match (mergeAll ss).run l with
      | .ok u l1 => .ok u { l1 with segments }
      | .error e l1 => .error e { l1 with segments } := by
  induction ss generalizing l with
  | nil => rfl
  | cons s ss ih =>
    rw [mergeAll, EStateM.run_bind, EStateM.run_bind, run_merge_withSegments]
    cases (merge s).run l with
    | error e l1 => rfl
    | ok u l1 => exact ih l1

/-- Merging changes symbols only. -/
theorem eq_of_run_mergeAll (h : (mergeAll ss).run l = .ok () l1) :
    l1 = { l with symbols := l1.symbols } := by
  have hone : ∀ {s : LinkSymbol} {l l1 : Linkage}, (merge s).run l = .ok () l1 →
      l1 = { l with symbols := l1.symbols } := by
    intro s l l1 h
    rw [run_merge] at h
    split at h
    · cases h
      rfl
    · split at h
      · cases h
      · split at h
        · cases h
          rfl
        · split at h
          · cases h
          · cases h
            rfl
  induction ss generalizing l with
  | nil =>
    cases h
    rfl
  | cons s ss ih =>
    obtain ⟨⟨⟩, l2, hs, hss⟩ := ok_of_run_bind h
    have h2 := hone hs
    have h1 := ih hss
    rw [h2] at h1
    exact h1

/-- Whether the symbol of a name is a section. -/
def kind? (l : Linkage) (name : String) : Option Bool :=
  (entryOf LinkSymbol.name l.symbols name).map LinkSymbol.isSection

/-- A symbol that was merged has its kind, and no other kind changed. -/
theorem kind?_of_merge (h : (merge s).run l = .ok () l1) :
    l1.kind? s.name = some s.isSection ∧
      ∀ {name b}, l.kind? name = some b → l1.kind? name = some b := by
  rw [run_merge] at h
  unfold kind?
  cases hk : entryOf LinkSymbol.name l.symbols s.name with
  | none =>
    simp only [hk] at h
    cases h
    have hentry := entryOf_upsert (fun k => LinkSymbol.pick_key k s) l.symbols
    rw [upsert_of_not_mem (entryOf_eq_none_iff.mp hk)] at hentry
    refine ⟨by rw [hentry, if_pos rfl, hk]; rfl, fun {name b} hb => ?_⟩
    have hne : s.name ≠ name := fun he => by
      rw [← he, hk] at hb
      cases hb
    rw [hentry, if_neg hne]
    exact hb
  | some k =>
    simp only [hk] at h
    split at h
    · cases h
    · rename_i hkind
      have hsame : k.isSection = s.isSection := by simpa using hkind
      split at h
      · cases h
        have hkey : ∀ x : LinkSymbol, (if x.name = s.name then s else x).name = x.name := by
          intro x
          split
          · rename_i hx
            exact hx.symm
          · rfl
        simp only [entryOf_map hkey]
        refine ⟨by rw [hk, Option.map_some, Option.map_some, if_pos (key_of_entryOf hk)], ?_⟩
        intro name b hb
        obtain ⟨x, hx, rfl⟩ := Option.map_eq_some_iff.mp hb
        rw [hx, Option.map_some, Option.map_some]
        split
        · rename_i hname
          have hxk : x = k := by
            rw [← key_of_entryOf hx, hname, hk] at hx
            exact (Option.some.inj hx).symm
          rw [hxk, hsame]
        · rfl
      · split at h
        · cases h
        · cases h
          exact ⟨by rw [hk, Option.map_some, hsame], fun hb => hb⟩

theorem kind?_of_mergeAll (h : (mergeAll ss).run l = .ok () l1) :
    (∀ s ∈ ss, l1.kind? s.name = some s.isSection) ∧
      ∀ {name b}, l.kind? name = some b → l1.kind? name = some b := by
  induction ss generalizing l with
  | nil =>
    cases h
    exact ⟨fun _ hs => (nomatch hs), fun hb => hb⟩
  | cons s ss ih =>
    obtain ⟨⟨⟩, l2, hs, hss⟩ := ok_of_run_bind h
    obtain ⟨hown, hkeep⟩ := kind?_of_merge hs
    obtain ⟨howns, hkeeps⟩ := ih hss
    exact ⟨List.forall_mem_cons.mpr ⟨hkeeps hown, howns⟩, fun hb => hkeeps (hkeep hb)⟩

/-! ### Adding a module -/

/-- What adding a module does: its symbols are merged and moved, and its sections moved and joined. -/
theorem exists_of_run_add (hn : (m.sections.map SectionData.name).Nodup)
    (h : (add m).run l = .ok () l1) : ∃ l0,
      (mergeAll (m.declared l.modules)).run { l with modules := l.modules + 1 } = .ok () l0 ∧
      l1.symbols = l0.symbols.map (LinkSymbol.movedBy l.modules (l.base m)) ∧
      l1.parts.pieces = attachAll l.parts.pieces (m.sections.map (m.shifted (l.base m))) ∧
      l1.modules = l.modules + 1 := by
  rw [run_add_eq] at h
  cases hmerge : (mergeAll (m.declared l.modules)).run { l with modules := l.modules + 1 } with
  | error e l0 =>
    rw [hmerge] at h
    cases h
  | ok u l0 =>
    rw [hmerge] at h
    cases h
    have hl0 := eq_of_run_mergeAll hmerge
    have hbase : l0.base m = l.base m := by
      rw [hl0]
      rfl
    have hmoved : (fun name => if name ∈ m.sections.map SectionData.name then l.base m name else 0) =
        l.base m := by
      funext name
      split
      · rfl
      · rename_i hname
        exact (base_eq_zero l hname).symm
    obtain ⟨hsym, hseg, hmod⟩ := foldl_append m l.modules (l.base m) hn l0
    rw [hmoved] at hsym
    rw [hbase]
    refine ⟨l0, rfl, hsym, hseg.trans ?_, hmod.trans ?_⟩
    · rw [hl0]
      rfl
    · rw [hl0]

/-- The base of a module goes by the names of its sections and the sizes of segments. -/
theorem base_congr (hsizes : ∀ name, sizeIn l'.parts.pieces name = sizeIn l.parts.pieces name)
    (hnames : m'.sections.map SectionData.name = m.sections.map SectionData.name) :
    l'.base m' = l.base m := by
  funext name
  by_cases hname : name ∈ m.sections.map SectionData.name
  · rw [base_eq l hname, base_eq l' (hnames ▸ hname)]
    exact congrArg UInt16.ofNat (hsizes name)
  · rw [base_eq_zero l hname, base_eq_zero l' (hnames ▸ hname)]

/-- **Two modules with the same symbols added** to linkages with the same symbols: both are added, and
the symbols are the same afterwards. -/
theorem run_add_beside (hsym : l'.symbols = l.symbols) (hmod : l'.modules = l.modules)
    (hbase : l'.base m' = l.base m) (hm : m'.symbols = m.symbols)
    (hnames : m'.sections.map SectionData.name = m.sections.map SectionData.name)
    (hn : (m.sections.map SectionData.name).Nodup) (h : (add m).run l = .ok () l1) :
    ∃ l1', (add m').run l' = .ok () l1' ∧ l1'.symbols = l1.symbols ∧ l1'.modules = l1.modules ∧
      l1'.parts.pieces = attachAll l'.parts.pieces (m'.sections.map (m'.shifted (l.base m))) := by
  have hdeclared : m'.declared l'.modules = m.declared l.modules := by
    unfold ObjectModule.declared LinkSymbol.ofSymbol
    rw [hm, hmod]
  obtain ⟨l0, hmerge, hsymbols, -, hmodules⟩ := exists_of_run_add hn h
  have hmerge' : (mergeAll (m'.declared l'.modules)).run { l' with modules := l'.modules + 1 } =
      .ok () { l0 with segments := l'.segments } := by
    have hl' : { l' with modules := l'.modules + 1 } =
        { { l with modules := l.modules + 1 } with segments := l'.segments } := by
      rw [hsym, hmod]
    rw [hl', hdeclared, run_mergeAll_withSegments, hmerge]
  have hadd' := run_add_eq l' m'
  rw [hmerge'] at hadd'
  have hrun' : ∃ l1', (add m').run l' = .ok () l1' := ⟨_, hadd'⟩
  obtain ⟨l1', hrun'⟩ := hrun'
  obtain ⟨l0', hmerge'', hsymbols', hpieces', hmodules'⟩ := exists_of_run_add (hnames ▸ hn) hrun'
  obtain rfl : l0' = { l0 with segments := l'.segments } := by
    rw [hmerge'] at hmerge''
    cases hmerge''
    rfl
  refine ⟨l1', hrun', ?_, ?_, ?_⟩
  · rw [hsymbols', hsymbols, hmod, hbase]
  · rw [hmodules', hmodules, hmod]
  · rw [hpieces', hbase]

/-- Sections that are moved to their bases lie behind what was there. -/
theorem liesBehind_shifted (hm : m.Neat) (hf : f ∈ m.sections)
    (hfit : sizeIn l.parts.pieces f.name + f.bytes.size ≤ addressSpace) :
    LiesBehind l.parts.pieces (m.shifted (l.base m) f) := by
  have hbase : l.base m f.name = UInt16.ofNat (sizeIn l.parts.pieces f.name) :=
    base_eq l (List.mem_map_of_mem hf)
  intro r hr
  obtain ⟨q, hq, rfl⟩ := List.mem_map.mp hr
  have hin := hm.inside f hf q hq
  have hoffset := Parts.toNat_add_base hin hfit
  rw [ObjectModule.size_shifted]
  show sizeIn l.parts.pieces f.name ≤ (q.offset + l.base m f.name).toNat ∧
    (q.offset + l.base m f.name).toNat + 2 ≤ sizeIn l.parts.pieces f.name + f.bytes.size
  rw [hbase, hoffset]
  omega

/-! ### Sizes and kinds -/

theorem sizeIn_of_run_add (hn : (m.sections.map SectionData.name).Nodup)
    (h : (add m).run l = .ok () l1) (name : String) :
    sizeIn l1.parts.pieces name = sizeIn l.parts.pieces name + sizeIn m.sections name := by
  obtain ⟨l0, -, -, hpieces, -⟩ := exists_of_run_add hn h
  have hname : ∀ f, (m.shifted (l.base m) f).name = f.name := fun f => rfl
  have hsize : sizeIn (m.sections.map (m.shifted (l.base m))) name = sizeIn m.sections name := by
    unfold sizeIn
    rw [entryOf_map hname, Option.map_map]
    refine congrArg (Option.getD · 0) (congrArg (Option.map · _) (funext fun f => ?_))
    exact m.size_shifted (l.base m) f
  rw [hpieces, sizeIn_attachAll (by rwa [m.map_name_shifted]), hsize]

/-- The sizes of segments add up. -/
theorem sizeIn_of_run_addAll {ms : List ObjectModule} (hms : ∀ m ∈ ms, m.Neat)
    (h : (addAll ms).run l = .ok () l1) (name : String) :
    sizeIn l1.parts.pieces name =
      sizeIn l.parts.pieces name + (ms.map fun m => sizeIn m.sections name).sum := by
  induction ms generalizing l with
  | nil =>
    cases h
    rfl
  | cons m ms ih =>
    obtain ⟨⟨⟩, l2, hm, hrest⟩ := ok_of_run_bind h
    rw [ih (fun m' hm' => hms m' (List.mem_cons_of_mem m hm')) hrest,
      sizeIn_of_run_add (hms m List.mem_cons_self).nodup hm, List.map_cons, List.sum_cons,
      Nat.add_assoc]

theorem fits_of_run_addAll {ms : List ObjectModule} (hms : ∀ m ∈ ms, m.Neat)
    (h : (addAll ms).run l = .ok () l1) (hfit : l1.parts.Fits) : l.parts.Fits := by
  intro name
  have hle : sizeIn l1.parts.pieces name ≤ addressSpace := hfit name
  rw [sizeIn_of_run_addAll hms h] at hle
  exact Nat.le_trans (Nat.le_add_right _ _) hle

theorem liesBehind_of_run_add (hm : m.Neat) (h : (add m).run l = .ok () l1) (hfit : l1.parts.Fits) :
    ∀ g ∈ m.sections.map (m.shifted (l.base m)), LiesBehind l.parts.pieces g := by
  refine List.forall_mem_map.mpr fun f hf => liesBehind_shifted hm hf ?_
  have hsize := sizeIn_of_run_add hm.nodup h f.name
  have hle : sizeIn l1.parts.pieces f.name ≤ addressSpace := hfit f.name
  rwa [hsize, sizeIn_of_mem hm.nodup hf] at hle

theorem packed_of_run_add (hm : m.Neat) (hl : Packed l.parts.pieces) (h : (add m).run l = .ok () l1)
    (hfit : l1.parts.Fits) : Packed l1.parts.pieces := by
  have hbehind := liesBehind_of_run_add hm h hfit
  obtain ⟨l0, -, -, hpieces, -⟩ := exists_of_run_add hm.nodup h
  rw [hpieces]
  refine hl.attachAll ?_ hbehind
  rw [m.map_name_shifted]
  exact hm.nodup

theorem packed_of_run_addAll {ms : List ObjectModule} (hms : ∀ m ∈ ms, m.Neat)
    (hl : Packed l.parts.pieces) (h : (addAll ms).run l = .ok () l1) (hfit : l1.parts.Fits) :
    Packed l1.parts.pieces := by
  induction ms generalizing l with
  | nil =>
    cases h
    exact hl
  | cons m ms ih =>
    obtain ⟨⟨⟩, l2, hm, hrest⟩ := ok_of_run_bind h
    have hms' := fun m' hm' => hms m' (List.mem_cons_of_mem m hm')
    have hfit2 := fits_of_run_addAll hms' hrest hfit
    exact ih hms' (packed_of_run_add (hms m List.mem_cons_self) hl hm hfit2) hrest

theorem kind?_of_run_add (hn : (m.sections.map SectionData.name).Nodup)
    (h : (add m).run l = .ok () l1) :
    (∀ s ∈ m.symbols.toList, s.isLocal = false → l1.kind? s.name = some s.isSection) ∧
      ∀ {name b}, l.kind? name = some b → l1.kind? name = some b := by
  obtain ⟨l0, hmerge, hsymbols, -, -⟩ := exists_of_run_add hn h
  obtain ⟨hown, hkeep⟩ := kind?_of_mergeAll hmerge
  have hkind : ∀ name, l1.kind? name = l0.kind? name := by
    intro name
    unfold kind?
    rw [hsymbols, entryOf_map (LinkSymbol.name_movedBy _ _), Option.map_map]
    refine congrArg (Option.map · _) (funext fun s => ?_)
    show (s.movedBy l.modules (l.base m)).isSection = s.isSection
    unfold LinkSymbol.movedBy
    split <;> rfl
  refine ⟨fun s hs hlocal => ?_, fun {name b} hb => (hkind name).trans (hkeep hb)⟩
  have hdeclared : LinkSymbol.ofSymbol m l.modules s ∈ m.declared l.modules :=
    List.mem_map_of_mem (List.mem_filter.mpr ⟨hs, by rw [hlocal]; rfl⟩)
  exact (hkind s.name).trans (hown _ hdeclared)

theorem kind?_of_run_addAll {ms : List ObjectModule} (hms : ∀ m ∈ ms, m.Neat) {b : Bool}
    (h : (addAll ms).run l = .ok () l1) (hb : l.kind? name = some b) : l1.kind? name = some b := by
  induction ms generalizing l with
  | nil =>
    cases h
    exact hb
  | cons m ms ih =>
    obtain ⟨⟨⟩, l2, hm, hrest⟩ := ok_of_run_bind h
    have hkeep := (kind?_of_run_add (hms m List.mem_cons_self).nodup hm).2 hb
    exact ih (fun m' hm' => hms m' (List.mem_cons_of_mem m hm')) hrest hkeep

/-! ### Linkages side by side -/

/-- Two linkages with the same symbols, and with one segment that differs in a changed instruction. -/
structure Beside (c : Change) (k : Nat) (w : UInt16) (l l' : Linkage) : Prop where
  symbols : l'.symbols = l.symbols
  modules : l'.modules = l.modules
  pieces : Replaced (SectionData.Changed c 0 k w) l.parts.pieces l'.parts.pieces

end Linkage

/-- Sizes are those of both lists. -/
theorem Replaced.sizeIn_eq (h : Replaced (SectionData.Changed c n k w) fs fs') (name : String) :
    sizeIn fs' name = sizeIn fs name := by
  unfold sizeIn
  induction h with
  | here h fs =>
    rw [entryOf_cons, entryOf_cons, h.name, h.name']
    split
    · exact h.size
    · rfl
  | there e _ ih =>
    rw [entryOf_cons, entryOf_cons]
    split
    · rfl
    · exact ih

namespace Linkage

variable {l l' l1 : Linkage} {m m' : ObjectModule} {ms : List ObjectModule}

theorem Beside.run_add (h : Beside c k w l l') (hm : m.Neat) (hl : Packed l.parts.pieces)
    (hrun : (add m).run l = .ok () l1) (hfit : l1.parts.Fits) :
    ∃ l1', (add m).run l' = .ok () l1' ∧ Beside c k w l1 l1' := by
  have hbase := base_congr (m := m) h.pieces.sizeIn_eq rfl
  obtain ⟨l1', hrun', hsym, hmod, hpieces'⟩ :=
    run_add_beside h.symbols h.modules hbase rfl rfl hm.nodup hrun
  refine ⟨l1', hrun', hsym, hmod, ?_⟩
  have hbehind := liesBehind_of_run_add hm hrun hfit
  obtain ⟨l0, -, -, hpieces, -⟩ := exists_of_run_add hm.nodup hrun
  rw [hpieces, hpieces']
  refine h.pieces.attachAll hl ?_ hbehind
  rw [m.map_name_shifted]
  exact hm.nodup

/-- **The same modules added** to both linkages. -/
theorem Beside.run_addAll (h : Beside c k w l l') (hms : ∀ m ∈ ms, m.Neat)
    (hl : Packed l.parts.pieces) (hrun : (addAll ms).run l = .ok () l1) (hfit : l1.parts.Fits) :
    ∃ l1', (addAll ms).run l' = .ok () l1' ∧ Beside c k w l1 l1' := by
  induction ms generalizing l l' with
  | nil =>
    cases hrun
    exact ⟨l', rfl, h⟩
  | cons m ms ih =>
    obtain ⟨⟨⟩, l2, hm, hrest⟩ := ok_of_run_bind hrun
    have hms' := fun m' hm' => hms m' (List.mem_cons_of_mem m hm')
    have hfirst := hms m List.mem_cons_self
    have hfit2 := fits_of_run_addAll hms' hrest hfit
    obtain ⟨l2', hm', h2⟩ := h.run_add hfirst hl hm hfit2
    obtain ⟨l1', hrest', h1⟩ := ih h2 hms' (packed_of_run_add hfirst hl hm hfit2) hrest
    refine ⟨l1', ?_, h1⟩
    rw [addAll, EStateM.run_bind, hm']
    exact hrest'

/-- **The changed module added** to one linkage, in place of the other. -/
theorem beside_of_run_add (hm : m.Neat) (hl : Packed l.parts.pieces) (hsym : m'.symbols = m.symbols)
    (hsections : Replaced (SectionData.Changed c 0 k w) m.sections m'.sections)
    (hrun : (add m).run l = .ok () l1) (hfit : l1.parts.Fits) :
    ∃ l1', (add m').run l = .ok () l1' ∧ Beside c (sizeIn l.parts.pieces c.home + k)
      (w + m.rebase (l.base m) c.symbol) l1 l1' := by
  have hnames : m'.sections.map SectionData.name = m.sections.map SectionData.name :=
    hsections.map_eq fun f f' h => h.name'.trans h.name.symm
  have hbase : l.base m' = l.base m := base_congr (fun _ => rfl) hnames
  obtain ⟨l1', hrun', hsym', hmod', hpieces'⟩ :=
    run_add_beside rfl rfl hbase hsym hnames hm.nodup hrun
  refine ⟨l1', hrun', hsym', hmod', ?_⟩
  have hbehind := liesBehind_of_run_add hm hrun hfit
  obtain ⟨l0, -, -, hpieces, -⟩ := exists_of_run_add hm.nodup hrun
  obtain ⟨f, hf, f', -, hf'⟩ := hsections.exists_mem
  have hhome : l.base m c.home = UInt16.ofNat (sizeIn l.parts.pieces c.home) := by
    rw [← hf'.name]
    exact base_eq l (List.mem_map_of_mem hf)
  have hshifted : Replaced (SectionData.Changed c (sizeIn l.parts.pieces c.home) k
      (w + m.rebase (l.base m) c.symbol)) (m.sections.map (m.shifted (l.base m)))
      (m'.sections.map (m'.shifted (l.base m))) := by
    refine hsections.map (fun g hg g' h => h.shifted hsym hhome ?_ (hm.inside g hg)) fun g => ?_
    · have hle : sizeIn l1.parts.pieces g.name ≤ addressSpace := hfit g.name
      rw [sizeIn_of_run_add hm.nodup hrun, sizeIn_of_mem hm.nodup hg, h.name] at hle
      exact hle
    · unfold ObjectModule.shifted rebased
      rw [hsym]
  rw [hpieces, hpieces']
  refine replaced_attachAll hshifted hl ?_ hbehind rfl
  rw [m.map_name_shifted]
  exact hm.nodup

end Linkage
end Sx16
