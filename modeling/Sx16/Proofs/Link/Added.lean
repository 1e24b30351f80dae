/-
# Adding a module joins its parts

A linkage is changed by modules only through its parts: adding a module succeeds just if its roles
agree with those known so far, and then the parts of the linkage are joined with those of the module.
That the symbols of a module are told from older ones by their origin, and moved section by section,
comes to the same as moving them all at once.

Key definitions: `LinkSymbol.role`, `Linkage.parts`, `ObjectModule.parts`, `ObjectModule.Proper`,
`Linkage.Proper`.
Key theorems: `Linkage.run_add`, `Linkage.run_addAll`, `Linkage.run_addAll_error`.
-/
import Sx16.Proofs.Link.Joined
import Sx16.Proofs.SymbolTable

namespace Sx16
namespace LinkSymbol

/-- What a symbol says about its name. -/
def role (s : LinkSymbol) : Role :=
  if s.isSection then .area else if s.exported then .given s.home s.value else .wanted

/-- A symbol of a section belongs to it and is shared both ways; a label is shared one way, and has no
section if it is wanted. -/
structure Plain (s : LinkSymbol) : Prop where
  area : s.isSection = true → s.exported = true ∧ s.imported = true ∧ s.home = some s.name
  label : s.isSection = false → s.exported = !s.imported
  wanted : s.isSection = false → s.imported = true → s.home = none

/-- The symbol that is kept of a known one and a new one. -/
def pick (k s : LinkSymbol) : LinkSymbol :=
  if k.isOnlyImported && s.isOnlyExported then s else k

variable {k s : LinkSymbol}

theorem Plain.cases (h : s.Plain) :
    (s.isSection = true ∧ s.exported = true ∧ s.imported = true ∧ s.role = .area) ∨
    (s.isSection = false ∧ s.exported = false ∧ s.imported = true ∧ s.role = .wanted) ∨
    (s.isSection = false ∧ s.exported = true ∧ s.imported = false ∧
      s.role = .given s.home s.value) := by
  unfold role
  cases hsec : s.isSection with
  | true =>
    obtain ⟨he, hi, -⟩ := h.area hsec
    exact Or.inl ⟨rfl, he, hi, rfl⟩
  | false =>
    have hlabel := h.label hsec
    cases hi : s.imported with
    | true =>
      rw [hi] at hlabel
      simp [hlabel]
    | false =>
      rw [hi] at hlabel
      simp [hlabel]

theorem Plain.pick (hk : k.Plain) (hs : s.Plain) : (k.pick s).Plain := by
  unfold LinkSymbol.pick
  split
  · exact hs
  · exact hk

theorem role_pick (hk : k.Plain) (hs : s.Plain) (h : k.role.agrees s.role = true) :
    (k.pick s).role = k.role.merge s.role := by
  unfold LinkSymbol.pick isOnlyImported isOnlyExported
  rcases hk.cases with ⟨-, ke, ki, kr⟩ | ⟨-, ke, ki, kr⟩ | ⟨-, ke, ki, kr⟩ <;>
    rcases hs.cases with ⟨-, se, si, sr⟩ | ⟨-, se, si, sr⟩ | ⟨-, se, si, sr⟩ <;>
    simp_all [Role.merge, Role.agrees]

theorem clash_iff (hk : k.Plain) (hs : s.Plain) :
    (k.isSection != s.isSection || (k.isOnlyExported && s.isOnlyExported)) = true ↔
      ¬ k.role.agrees s.role = true := by
  unfold isOnlyExported
  rcases hk.cases with ⟨kk, ke, ki, kr⟩ | ⟨kk, ke, ki, kr⟩ | ⟨kk, ke, ki, kr⟩ <;>
    rcases hs.cases with ⟨ss, se, si, sr⟩ | ⟨ss, se, si, sr⟩ | ⟨ss, se, si, sr⟩ <;>
    simp [kk, ke, ki, kr, ss, se, si, sr, Role.agrees]

theorem pick_key (k s : LinkSymbol) (h : k.name = s.name) : (k.pick s).name = s.name := by
  unfold LinkSymbol.pick
  split
  · rfl
  · exact h

end LinkSymbol

/-- Symbols with distinct names, all plain. -/
structure Orderly (ks : List LinkSymbol) : Prop where
  nodup : (ks.map LinkSymbol.name).Nodup
  plain : ∀ k ∈ ks, k.Plain

variable {s : LinkSymbol} {ks ss : List LinkSymbol}

theorem Orderly.upsert (h : Orderly ks) (hs : s.Plain) :
    Orderly (upsert LinkSymbol.name LinkSymbol.pick s ks) where
  nodup := nodup_upsert (fun k => LinkSymbol.pick_key k s) h.nodup
  plain x hx := by
    rcases mem_upsert hx with hx | rfl | ⟨k, hk, -, rfl⟩
    · exact h.plain x hx
    · exact hs
    · exact (h.plain k hk).pick hs

theorem Orderly.upsertAll (h : Orderly ks) (hss : Orderly ss) :
    Orderly (upsertAll LinkSymbol.name LinkSymbol.pick ks ss) where
  nodup := nodup_upsertAll LinkSymbol.pick_key h.nodup
  plain := by
    have hplain := hss.plain
    clear hss
    induction ss generalizing ks with
    | nil => exact h.plain
    | cons s ss ih =>
      exact ih (h.upsert (hplain s List.mem_cons_self)) fun x hx =>
        hplain x (List.mem_cons_of_mem _ hx)

/-- Merging makes no symbols up. -/
theorem mem_upsertAll_pick {x : LinkSymbol}
    (h : x ∈ upsertAll LinkSymbol.name LinkSymbol.pick ks ss) : x ∈ ks ∨ x ∈ ss := by
  induction ss generalizing ks with
  | nil => exact Or.inl h
  | cons s ss ih =>
    rcases ih h with hx | hx
    · rcases mem_upsert hx with hx | rfl | ⟨k, hk, -, rfl⟩
      · exact Or.inl hx
      · exact Or.inr List.mem_cons_self
      · unfold LinkSymbol.pick
        split
        · exact Or.inr List.mem_cons_self
        · exact Or.inl hk
    · exact Or.inr (List.mem_cons_of_mem _ hx)

namespace Linkage

variable (l : Linkage)

/-! ### Merging symbols -/

theorem run_merge (s : LinkSymbol) : (merge s).run l =
    match entryOf LinkSymbol.name l.symbols s.name with
    | none => .ok () { l with symbols := l.symbols ++ [s] }
    | some k =>
      if k.isSection != s.isSection then .error (.labelSectionCollision s.name) l
      else if k.isOnlyImported && s.isOnlyExported then
        .ok () { l with symbols := l.symbols.map fun (k : LinkSymbol) => if k.name = s.name then s else k }
      else if k.isOnlyExported && s.isOnlyExported then .error (.multipleDefinition s.name) l
      else .ok () l := by
  unfold merge
  rw [EStateM.run_bind, EStateM.run_get]
  simp only
  change EStateM.run (match entryOf LinkSymbol.name l.symbols s.name with
    | none => _
    | some k => _) l = _
  cases entryOf LinkSymbol.name l.symbols s.name with
  | none => rfl
  | some k =>
    simp only
    split
    · rfl
    · split
      · rfl
      · split <;> rfl

variable {l}

/-- A symbol is merged if its role agrees with the one that its name has. -/
theorem run_merge_of_agrees (h : Orderly l.symbols) (hs : s.Plain)
    (hagree : ∀ k ∈ entryOf LinkSymbol.name l.symbols s.name, k.role.agrees s.role = true) :
    (merge s).run l =
      .ok () { l with symbols := upsert LinkSymbol.name LinkSymbol.pick s l.symbols } := by
  rw [run_merge]
  cases hk : entryOf LinkSymbol.name l.symbols s.name with
  | none => rw [upsert_of_not_mem (entryOf_eq_none_iff.mp hk)]
  | some k =>
    have hmem := mem_of_entryOf hk
    have hclash := mt (LinkSymbol.clash_iff (h.plain k hmem) hs).mp (not_not_intro (hagree k hk))
    rw [Bool.or_eq_true, not_or] at hclash
    have hone : ∀ x ∈ l.symbols, x.name = s.name → x = k := fun x hx hname =>
      List.inj_on_of_nodup_map h.nodup hx hmem (hname.trans (key_of_entryOf hk).symm)
    have hin : s.name ∈ l.symbols.map LinkSymbol.name :=
      isSome_entryOf_iff.mp (by rw [hk]; rfl)
    rw [upsert_eq_map h.nodup hin]
    simp only
    rw [if_neg hclash.1, if_neg hclash.2]
    split
    · rename_i hpick
      congr 2
      refine List.map_congr_left fun x hx => ?_
      split
      · rename_i hname
        rw [hone x hx hname, LinkSymbol.pick, if_pos hpick]
      · rfl
    · rename_i hpick
      have hid : ∀ x ∈ l.symbols, (if x.name = s.name then x.pick s else x) = x := by
        intro x hx
        split
        · rename_i hname
          rw [hone x hx hname, LinkSymbol.pick, if_neg hpick]
        · rfl
      rw [List.map_congr_left hid, List.map_id']

/-- A symbol whose role does not agree is a fault. -/
theorem run_merge_error (h : Orderly l.symbols) (hs : s.Plain) {k : LinkSymbol}
    (hk : entryOf LinkSymbol.name l.symbols s.name = some k) (hno : ¬ k.role.agrees s.role = true) :
    ∃ e, (merge s).run l = .error e l := by
  have hclash := (LinkSymbol.clash_iff (h.plain k (mem_of_entryOf hk)) hs).mpr hno
  rw [run_merge, hk]
  simp only
  split
  · exact ⟨_, rfl⟩
  · rename_i hsec
    rw [Bool.or_eq_true, or_iff_right hsec] at hclash
    have himp : ¬ (k.isOnlyImported && s.isOnlyExported) = true := by
      intro himp
      simp [LinkSymbol.isOnlyImported, LinkSymbol.isOnlyExported] at himp hclash
      rw [himp.1.2] at hclash
      cases hclash.1.1
    rw [if_neg himp, if_pos hclash]
    exact ⟨_, rfl⟩

/-- The symbols that a name has in two lists agree. -/
def SymbolsAgree (ks ss : List LinkSymbol) : Prop :=
  ∀ s ∈ ss, ∀ k ∈ entryOf LinkSymbol.name ks s.name, k.role.agrees s.role = true

theorem symbolsAgree_cons (hs : s.name ∉ ss.map LinkSymbol.name) :
    SymbolsAgree ks (s :: ss) ↔
      (∀ k ∈ entryOf LinkSymbol.name ks s.name, k.role.agrees s.role = true) ∧
        SymbolsAgree (upsert LinkSymbol.name LinkSymbol.pick s ks) ss := by
  unfold SymbolsAgree
  rw [List.forall_mem_cons]
  refine and_congr_right fun _ => forall₂_congr fun x hx => ?_
  have hne : s.name ≠ x.name := fun he => hs (he ▸ List.mem_map_of_mem hx)
  rw [entryOf_upsert fun k => LinkSymbol.pick_key k s, if_neg hne]

theorem run_mergeAll (h : Orderly l.symbols) (hss : Orderly ss)
    (hagree : SymbolsAgree l.symbols ss) : (mergeAll ss).run l =
      .ok () { l with symbols := upsertAll LinkSymbol.name LinkSymbol.pick l.symbols ss } := by
  induction ss generalizing l with
  | nil => rfl
  | cons s ss ih =>
    obtain ⟨hn, hnodup⟩ := List.nodup_cons.mp hss.nodup
    obtain ⟨hfirst, hrest⟩ := (symbolsAgree_cons hn).mp hagree
    have hs := hss.plain s List.mem_cons_self
    have hss' : Orderly ss := ⟨hnodup, fun x hx => hss.plain x (List.mem_cons_of_mem _ hx)⟩
    rw [mergeAll, EStateM.run_bind, run_merge_of_agrees h hs hfirst]
    exact ih (h.upsert hs) hss' hrest

/-- Symbols that do not all agree are a fault. -/
theorem run_mergeAll_error (h : Orderly l.symbols) (hss : Orderly ss)
    (hno : ¬ SymbolsAgree l.symbols ss) : ∃ e l', (mergeAll ss).run l = .error e l' := by
  induction ss generalizing l with
  | nil => exact absurd (fun s hs => nomatch hs) hno
  | cons s ss ih =>
    obtain ⟨hn, hnodup⟩ := List.nodup_cons.mp hss.nodup
    have hs := hss.plain s List.mem_cons_self
    have hss' : Orderly ss := ⟨hnodup, fun x hx => hss.plain x (List.mem_cons_of_mem _ hx)⟩
    rw [symbolsAgree_cons hn, not_and_or] at hno
    rw [mergeAll, EStateM.run_bind]
    by_cases hfirst : ∀ k ∈ entryOf LinkSymbol.name l.symbols s.name, k.role.agrees s.role = true
    · rw [run_merge_of_agrees h hs hfirst]
      exact ih (h.upsert hs) hss' (hno.resolve_left (not_not_intro hfirst))
    · obtain ⟨k, hk⟩ := not_forall.mp hfirst
      obtain ⟨hk, hnot⟩ := Classical.not_imp.mp hk
      obtain ⟨e, he⟩ := run_merge_error h hs hk hnot
      rw [he]
      exact ⟨e, l, rfl⟩

end Linkage

/-! ### Moving labels -/

namespace LinkSymbol

/-- A label of a module, moved with its section. -/
def movedBy (origin : Nat) (b : String → UInt16) (s : LinkSymbol) : LinkSymbol :=
  if !s.isSection && s.origin == origin then { s with value := s.value + (s.home.map b).getD 0 }
  else s

variable {k s : LinkSymbol} {origin : Nat} {b : String → UInt16}

@[simp] theorem name_movedBy (origin : Nat) (b : String → UInt16) (s : LinkSymbol) :
    (s.movedBy origin b).name = s.name := by
  unfold movedBy
  split <;> rfl

@[simp] theorem origin_movedBy (origin : Nat) (b : String → UInt16) (s : LinkSymbol) :
    (s.movedBy origin b).origin = s.origin := by
  unfold movedBy
  split <;> rfl

theorem Plain.movedBy (h : s.Plain) (origin : Nat) (b : String → UInt16) :
    (s.movedBy origin b).Plain := by
  unfold LinkSymbol.movedBy
  split
  · exact ⟨h.area, h.label, h.wanted⟩
  · exact h

theorem movedBy_zero (s : LinkSymbol) (origin : Nat) : s.movedBy origin (fun _ => 0) = s := by
  obtain ⟨name, value, home, exported, imported, isSection, o⟩ := s
  unfold movedBy
  split
  · cases home <;> simp
  · rfl

theorem movedBy_of_ne (h : s.origin ≠ origin) : s.movedBy origin b = s := by
  unfold movedBy
  rw [beq_eq_false_iff_ne.mpr h, Bool.and_false]
  rfl

theorem role_movedBy (h : s.origin = origin) : (s.movedBy origin b).role = s.role.shift b := by
  unfold movedBy role
  cases hs : s.isSection with
  | true => simp [hs, Role.shift]
  | false =>
    simp only [h, Bool.not_false, BEq.rfl, Bool.and_self, if_true]
    cases s.exported <;> simp [Role.shift]

/-- Which symbol is kept does not depend on where labels are. -/
theorem movedBy_pick (h : k.origin ≠ origin) :
    (k.pick s).movedBy origin b = k.pick (s.movedBy origin b) := by
  have hexp : (s.movedBy origin b).isOnlyExported = s.isOnlyExported := by
    unfold movedBy
    split <;> rfl
  unfold pick
  rw [hexp]
  split
  · rfl
  · exact movedBy_of_ne h

/-- Moving the labels of one section and then those of others is moving them all. -/
theorem movedBy_cons {f : SectionData} {fs : List SectionData}
    (hf : f.name ∉ fs.map SectionData.name) (s : LinkSymbol) :
    (if !s.isSection && s.origin == origin && s.home == some f.name then
        { s with value := s.value + b f.name } else s).movedBy origin
          (fun name => if name ∈ fs.map SectionData.name then b name else 0) =
      s.movedBy origin fun name => if name ∈ (f :: fs).map SectionData.name then b name else 0 := by
  by_cases hs : (!s.isSection && s.origin == origin) = true
  · cases hh : s.home with
    | none => simp [movedBy, hs, hh]
    | some x =>
      by_cases hx : x = f.name
      · subst hx
        simp only [hs, hh, Bool.true_and, BEq.rfl, if_true, movedBy, Option.map_some,
          Option.getD_some, if_neg hf, List.map_cons, List.mem_cons, true_or, UInt16.add_zero]
      · simp [movedBy, hs, hh, hx]
  · simp only [Bool.not_eq_true] at hs
    simp [movedBy, hs]

end LinkSymbol

/-! ### Joining sections -/

/-- The contents of a segment. -/
def Segment.data (s : Segment) : SectionData := ⟨s.name, s.bytes, s.relocations⟩

/-- What a linkage offers. -/
def Linkage.parts (l : Linkage) : Parts where
  roles name := (entryOf LinkSymbol.name l.symbols name).map LinkSymbol.role
  pieces := l.segments.map Segment.data

/-- The symbols that a module shares. -/
def ObjectModule.declared (m : ObjectModule) (origin : Nat) : List LinkSymbol :=
  (m.symbols.toList.filter fun s => !s.isLocal).map (LinkSymbol.ofSymbol m origin)

/-- What a module offers. -/
def ObjectModule.parts (m : ObjectModule) : Parts where
  roles name := (entryOf LinkSymbol.name (m.declared 0) name).map LinkSymbol.role
  pieces := m.sections

/-- A module whose symbols have distinct names and that offers sound parts. -/
structure ObjectModule.Proper (m : ObjectModule) : Prop where
  distinct : m.symbols.Distinct
  plain : ∀ s ∈ m.symbols.toList, s.isLocal = false → (LinkSymbol.ofSymbol m 0 s).Plain
  sound : m.parts.Sound

/-- A linkage whose symbols are in order and that offers sound parts. -/
structure Linkage.Proper (l : Linkage) : Prop where
  orderly : Orderly l.symbols
  origin : ∀ s ∈ l.symbols, s.origin < l.modules
  sound : l.parts.Sound

namespace ObjectModule

variable {m : ObjectModule}

theorem nodup_declared (h : m.symbols.Distinct) (origin : Nat) :
    ((m.declared origin).map LinkSymbol.name).Nodup := by
  have hnames : (m.declared origin).map LinkSymbol.name =
      (m.symbols.toList.filter fun s => !s.isLocal).map Symbol.name := List.map_map
  rw [hnames]
  exact h.nodup_names.sublist (List.filter_sublist.map _)

theorem orderly_declared (h : m.Proper) (origin : Nat) : Orderly (m.declared origin) where
  nodup := nodup_declared h.distinct origin
  plain k hk := by
    obtain ⟨s, hs, rfl⟩ := List.mem_map.mp hk
    obtain ⟨hs, hshared⟩ := List.mem_filter.mp hs
    rw [Bool.not_eq_true'] at hshared
    have hplain := h.plain s hs hshared
    exact ⟨hplain.area, hplain.label, hplain.wanted⟩

/-- The origin of its symbols is not part of what a module offers. -/
theorem entryOf_declared (m : ObjectModule) (origin : Nat) (name : String) :
    entryOf LinkSymbol.name (m.declared origin) name =
      (entryOf LinkSymbol.name (m.declared 0) name).map fun s => { s with origin } := by
  have hmap : m.declared origin = (m.declared 0).map fun s => { s with origin } := by
    unfold declared
    rw [List.map_map]
    rfl
  rw [hmap]
  exact entryOf_map fun _ => rfl

theorem roles_declared (m : ObjectModule) (origin : Nat) (name : String) :
    (entryOf LinkSymbol.name (m.declared origin) name).map LinkSymbol.role = m.parts.roles name := by
  rw [entryOf_declared, Option.map_map]
  rfl

end ObjectModule

namespace Linkage

variable {l : Linkage} {m : ObjectModule}

theorem map_data_extend (name : String) (bytes : Array UInt8) (relocations : List Relocation)
    (segments : List Segment) : (extend name bytes relocations segments).map Segment.data =
      attach ⟨name, bytes, relocations⟩ (segments.map Segment.data) := by
  induction segments with
  | nil => rfl
  | cons s segments ih =>
    unfold extend
    by_cases hs : s.name = name
    · have hname : s.data.name = (SectionData.mk name bytes relocations).name := hs
      rw [if_pos hs, List.map_cons, List.map_cons, attach_cons_of_eq _ hname]
      rfl
    · have hname : s.data.name ≠ (SectionData.mk name bytes relocations).name := hs
      rw [if_neg hs, List.map_cons, List.map_cons, attach_cons_of_ne _ hname, ih]

/-- Sections are joined one by one, and labels moved section by section. -/
theorem foldl_append (m : ObjectModule) (origin : Nat) (b : String → UInt16)
    {fs : List SectionData} (hn : (fs.map SectionData.name).Nodup) (l : Linkage) :
    (fs.foldl (append m origin b) l).symbols = l.symbols.map (LinkSymbol.movedBy origin
        fun name => if name ∈ fs.map SectionData.name then b name else 0) ∧
      (fs.foldl (append m origin b) l).segments.map Segment.data =
        attachAll (l.segments.map Segment.data) (fs.map fun f => ⟨f.name, rebased m b f,
          f.relocations.map fun r => { r with offset := r.offset + b f.name }⟩) ∧
      (fs.foldl (append m origin b) l).modules = l.modules := by
  induction fs generalizing l with
  | nil =>
    refine ⟨?_, rfl, rfl⟩
    simp only [List.map_nil, List.not_mem_nil, if_false, List.foldl_nil]
    rw [List.map_congr_left fun s _ => s.movedBy_zero origin, List.map_id']
  | cons f fs ih =>
    obtain ⟨hf, hfs⟩ := List.nodup_cons.mp hn
    obtain ⟨hsym, hseg, hmod⟩ := ih hfs (append m origin b l f)
    rw [List.foldl_cons]
    refine ⟨?_, ?_, hmod⟩
    · rw [hsym, append, List.map_map]
      exact List.map_congr_left fun s _ => LinkSymbol.movedBy_cons hf s
    · rw [hseg, append, map_data_extend, List.map_cons, attachAll_cons]

end Linkage

/-! ### Adding a module -/

namespace ObjectModule

variable {m : ObjectModule} {name : String}

theorem role_ofSymbol_eq_area {s : Symbol} {origin : Nat} :
    (LinkSymbol.ofSymbol m origin s).role = .area ↔ s.isSection = true := by
  unfold LinkSymbol.role LinkSymbol.ofSymbol
  cases hsec : s.isSection with
  | true => simp
  | false => cases s.exported <;> simp

theorem role_ofSymbol_eq_given {s : Symbol} {origin : Nat} {home : Option String} {v : UInt16} :
    (LinkSymbol.ofSymbol m origin s).role = .given home v ↔ s.isSection = false ∧ s.exported = true ∧
      (if s.isDefined then (m.symbols.byNumber? s.owner).map Symbol.name else none) = home ∧
      s.value = v := by
  unfold LinkSymbol.role LinkSymbol.ofSymbol
  cases hsec : s.isSection with
  | true => simp
  | false => cases s.exported <;> simp

/-- The role of a name is that of its symbol, if it is shared. -/
theorem roles_eq_some_iff (h : m.symbols.Distinct) {x : Role} : m.parts.roles name = some x ↔
    ∃ s, m.symbols.get? name = some s ∧ s.isLocal = false ∧ (LinkSymbol.ofSymbol m 0 s).role = x := by
  constructor
  · intro hx
    obtain ⟨k, hk, rfl⟩ := Option.map_eq_some_iff.mp hx
    obtain ⟨s, hs, rfl⟩ := List.mem_map.mp (mem_of_entryOf hk)
    obtain ⟨hmem, hshared⟩ := List.mem_filter.mp hs
    rw [Bool.not_eq_true'] at hshared
    exact ⟨s, h.get?_eq_some_iff.mpr ⟨hmem, (key_of_entryOf hk :)⟩, hshared, rfl⟩
  · rintro ⟨s, hs, hshared, rfl⟩
    obtain ⟨hmem, rfl⟩ := h.get?_eq_some_iff.mp hs
    have hk : LinkSymbol.ofSymbol m 0 s ∈ m.declared 0 :=
      List.mem_map_of_mem (List.mem_filter.mpr ⟨hmem, by rw [hshared]; rfl⟩)
    exact Option.map_eq_some_iff.mpr ⟨_, entryOf_of_mem (nodup_declared h 0) hk, rfl⟩

theorem roles_eq_area_iff (h : m.Proper) (hs : (m.parts.roles name).isSome) :
    m.parts.roles name = some .area ↔ (m.symbols.get? name).any Symbol.isSection = true := by
  obtain ⟨x, hx⟩ := Option.isSome_iff_exists.mp hs
  obtain ⟨s, hget, -, rfl⟩ := (roles_eq_some_iff h.distinct).mp hx
  rw [hx, hget, Option.any_some, Option.some.injEq, role_ofSymbol_eq_area]

end ObjectModule

namespace Linkage

variable {l : Linkage} {m : ObjectModule}

theorem roles_parts (l : Linkage) (name : String) : l.parts.roles name =
    (entryOf LinkSymbol.name l.symbols name).map LinkSymbol.role := rfl

theorem agrees_iff (hm : m.Proper) (origin : Nat) :
    l.parts.Agrees m.parts ↔ SymbolsAgree l.symbols (m.declared origin) := by
  constructor
  · intro h s hs k hk
    have hentry := entryOf_of_mem (ObjectModule.orderly_declared hm origin).nodup hs
    refine h s.name k.role ?_ s.role ?_
    · exact Option.map_eq_some_iff.mpr ⟨k, hk, rfl⟩
    · rw [← ObjectModule.roles_declared m origin, hentry]
      rfl
  · intro h name x hx y hy
    obtain ⟨k, hk, rfl⟩ := Option.map_eq_some_iff.mp hx
    rw [← ObjectModule.roles_declared m origin] at hy
    obtain ⟨s, hs, rfl⟩ := Option.map_eq_some_iff.mp hy
    refine h s (mem_of_entryOf hs) k ?_
    rw [key_of_entryOf hs]
    exact hk

theorem base_eq (l : Linkage) {name : String} (h : name ∈ m.sections.map SectionData.name) :
    l.base m name = l.parts.base name := by
  have hsome : (m.find? name).isSome := isSome_entryOf_iff.mpr h
  have hpiece : entryOf SectionData.name l.parts.pieces name = (l.segment? name).map Segment.data := by
    unfold entryOf parts segment?
    rw [List.find?_map]
    rfl
  rw [base, if_pos hsome, Parts.base, Parts.size, hpiece, Option.map_map]
  rfl

theorem base_eq_zero (l : Linkage) {name : String} (h : name ∉ m.sections.map SectionData.name) :
    l.base m name = 0 := by
  have hnone : ¬ (m.find? name).isSome := fun hs => h (isSome_entryOf_iff.mp hs)
  rw [base, if_neg hnone]

/-- The references of a section are moved as its relocations say. -/
theorem data_eq_moved (hm : m.Proper) {f : SectionData} (hf : f ∈ m.sections) :
    (⟨f.name, rebased m (l.base m) f,
      f.relocations.map fun r => { r with offset := r.offset + l.base m f.name }⟩ : SectionData) =
      f.moved m.parts.roles l.parts.base := by
  have hbytes : rebased m (l.base m) f =
      patched f.bytes (f.relocations.map (Relocation.rebase m.parts.roles l.parts.base)) := by
    unfold rebased patched
    rw [List.foldl_map]
    refine List.foldl_ext _ _ _ fun bs r hr => ?_
    have hsome := hm.sound.symbols f hf r hr
    unfold Relocation.rebase
    by_cases harea : m.parts.roles r.symbol = some .area
    · rw [if_pos ((ObjectModule.roles_eq_area_iff hm hsome).mp harea), if_pos harea,
        base_eq l (hm.sound.area.mp harea)]
    · rw [if_neg (mt (ObjectModule.roles_eq_area_iff hm hsome).mpr harea), if_neg harea,
        addWord_zero]
  rw [hbytes, base_eq l (List.mem_map_of_mem hf)]
  rfl

/-- The role of a symbol of a module moves with its section. -/
theorem role_movedBy_declared (hm : m.Proper) {s : LinkSymbol} {name : String}
    (hs : entryOf LinkSymbol.name (m.declared l.modules) name = some s) :
    (s.movedBy l.modules (l.base m)).role = s.role.shift l.parts.base := by
  have hrole : m.parts.roles name = some s.role := by
    rw [← ObjectModule.roles_declared m l.modules, hs]
    rfl
  have horigin : s.origin = l.modules := by
    obtain ⟨s', -, rfl⟩ := List.mem_map.mp (mem_of_entryOf hs)
    rfl
  rw [LinkSymbol.role_movedBy horigin]
  cases hr : s.role with
  | given home value =>
    cases home with
    | none => rfl
    | some home =>
      rw [hr] at hrole
      have hmem := hm.sound.given hrole
      simp only [Role.shift, Option.map_some, Option.getD_some, base_eq l hmem]
  | _ => rfl

/-- The role of a name after a symbol of a module was merged and moved. -/
theorem role_merge_moved (hl : l.Proper) (hm : m.Proper) (hagree : l.parts.Agrees m.parts)
    (name : String) :
    (((entryOf LinkSymbol.name l.symbols name).merge LinkSymbol.pick
      (entryOf LinkSymbol.name (m.declared l.modules) name)).map
        (LinkSymbol.movedBy l.modules (l.base m))).map LinkSymbol.role =
      (l.parts.join m.parts).roles name := by
  have hdecl := ObjectModule.orderly_declared hm l.modules
  have hagreed := hagree name
  rw [Parts.roles_join]
  rw [roles_parts, ← ObjectModule.roles_declared m l.modules] at hagreed ⊢
  cases hk : entryOf LinkSymbol.name l.symbols name with
  | none =>
    cases hs : entryOf LinkSymbol.name (m.declared l.modules) name with
    | none => rfl
    | some s =>
      rw [Option.merge_none_left, Option.map_some, Option.map_some, role_movedBy_declared hm hs]
      rfl
  | some k =>
    have hne : k.origin ≠ l.modules := Nat.ne_of_lt (hl.origin k (mem_of_entryOf hk))
    cases hs : entryOf LinkSymbol.name (m.declared l.modules) name with
    | none =>
      rw [Option.merge_none_right, Option.map_some, Option.map_some, LinkSymbol.movedBy_of_ne hne]
      rfl
    | some s =>
      rw [hk, hs] at hagreed
      have hshift := role_movedBy_declared hm hs
      have hxy : k.role.agrees (s.movedBy l.modules (l.base m)).role = true := by
        rw [hshift, Role.agrees_shift_right]
        exact hagreed k.role rfl s.role rfl
      have hkp := hl.orderly.plain k (mem_of_entryOf hk)
      have hsp := (hdecl.plain s (mem_of_entryOf hs)).movedBy l.modules (l.base m)
      rw [Option.merge_some_some, Option.map_some, Option.map_some, LinkSymbol.movedBy_pick hne,
        LinkSymbol.role_pick hkp hsp hxy, hshift]
      rfl

theorem run_add_eq (l : Linkage) (m : ObjectModule) : (add m).run l =
    match (mergeAll (m.declared l.modules)).run { l with modules := l.modules + 1 } with
    | .error e l' => .error e l'
    | .ok _ l' => .ok () (m.sections.foldl (append m l.modules (l'.base m)) l') := by
  unfold add
  rw [EStateM.run_bind, EStateM.run_get]
  simp only [EStateM.run_bind, EStateM.run_modify]
  unfold ObjectModule.declared
  generalize (mergeAll _).run _ = result
  cases result <;> rfl

/-- **A module whose roles agree is added** and joins its parts. -/
theorem run_add (hl : l.Proper) (hm : m.Proper) (hagree : l.parts.Agrees m.parts) :
    ∃ l', (add m).run l = .ok () l' ∧ l'.Proper ∧ l'.parts = l.parts.join m.parts := by
  have hdecl := ObjectModule.orderly_declared hm l.modules
  have hmerge := run_mergeAll (l := { l with modules := l.modules + 1 }) hl.orderly hdecl
    ((agrees_iff hm l.modules).mp hagree)
  have hnodup : (m.sections.map SectionData.name).Nodup := hm.sound.nodup
  obtain ⟨hsym, hseg, hmod⟩ := foldl_append m l.modules (l.base m) hnodup { l with
      modules := l.modules + 1
      symbols := upsertAll LinkSymbol.name LinkSymbol.pick l.symbols (m.declared l.modules) }
  have hbase : (fun name => if name ∈ m.sections.map SectionData.name then l.base m name else 0) =
      l.base m := by
    funext name
    split
    · rfl
    · rename_i hname
      exact (base_eq_zero l hname).symm
  rw [hbase] at hsym
  rw [List.map_congr_left fun f hf => data_eq_moved hm hf] at hseg
  rw [run_add_eq, hmerge]
  refine ⟨_, rfl, ?_⟩
  generalize hl' : m.sections.foldl _ _ = l'
  rw [show m.sections.foldl (append m l.modules (l.base m)) _ = l' from hl'] at hsym hseg hmod
  have hparts : l'.parts = l.parts.join m.parts := by
    refine Parts.ext (funext fun name => ?_) hseg
    rw [roles_parts, hsym, entryOf_map (LinkSymbol.name_movedBy _ _),
      entryOf_upsertAll LinkSymbol.pick_key hdecl.nodup, role_merge_moved hl hm hagree]
  refine ⟨⟨⟨?_, fun s hs => ?_⟩, fun s hs => ?_, ?_⟩, hparts⟩
  · rw [hsym, map_key_map (LinkSymbol.name_movedBy _ _)]
    exact nodup_upsertAll LinkSymbol.pick_key hl.orderly.nodup
  · rw [hsym] at hs
    obtain ⟨k, hk, rfl⟩ := List.mem_map.mp hs
    exact ((hl.orderly.upsertAll hdecl).plain k hk).movedBy _ _
  · rw [hsym] at hs
    obtain ⟨k, hk, rfl⟩ := List.mem_map.mp hs
    rw [LinkSymbol.origin_movedBy, hmod]
    rcases mem_upsertAll_pick hk with hk | hk
    · exact Nat.lt_succ_of_lt (hl.origin k hk)
    · obtain ⟨s', -, rfl⟩ := List.mem_map.mp hk
      exact Nat.lt_succ_self _
  · rw [hparts]
    exact hl.sound.join hm.sound hagree

theorem run_add_error (hl : l.Proper) (hm : m.Proper) (hno : ¬ l.parts.Agrees m.parts) :
    ∃ e l', (add m).run l = .error e l' := by
  rw [agrees_iff hm l.modules] at hno
  obtain ⟨e, l', he⟩ := run_mergeAll_error (l := { l with modules := l.modules + 1 }) hl.orderly
    (ObjectModule.orderly_declared hm l.modules) hno
  rw [run_add_eq, he]
  exact ⟨e, l', rfl⟩

end Linkage

/-! ### Adding modules -/

namespace Linkage

variable {l : Linkage} {ms : List ObjectModule}

theorem proper_empty : Proper {} where
  orderly := ⟨List.nodup_nil, fun _ hk => nomatch hk⟩
  origin _ hs := nomatch hs
  sound := Parts.sound_nothing

/-- **Modules are added if all roles agree**, and the parts are joined in order. -/
theorem run_addAll (hl : l.Proper) (hms : ∀ m ∈ ms, m.Proper)
    (hagree : l.parts.AllAgree (ms.map ObjectModule.parts)) :
    ∃ l', (addAll ms).run l = .ok () l' ∧ l'.Proper ∧
      l'.parts = l.parts.joinAll (ms.map ObjectModule.parts) := by
  induction ms generalizing l with
  | nil => exact ⟨l, rfl, hl, rfl⟩
  | cons m ms ih =>
    obtain ⟨hfirst, hrest⟩ := hagree
    obtain ⟨l1, hrun, hl1, hparts⟩ := run_add hl (hms m List.mem_cons_self) hfirst
    rw [← hparts] at hrest
    obtain ⟨l2, hrun2, hl2, hparts2⟩ := ih hl1 (fun m' hm' => hms m' (List.mem_cons_of_mem _ hm')) hrest
    refine ⟨l2, ?_, hl2, ?_⟩
    · rw [addAll, EStateM.run_bind, hrun]
      exact hrun2
    · rw [hparts2, hparts]
      rfl

/-- Modules are a fault if some roles do not agree. -/
theorem run_addAll_error (hl : l.Proper) (hms : ∀ m ∈ ms, m.Proper)
    (hno : ¬ l.parts.AllAgree (ms.map ObjectModule.parts)) :
    ∃ e l', (addAll ms).run l = .error e l' := by
  induction ms generalizing l with
  | nil => exact absurd trivial hno
  | cons m ms ih =>
    have hm := hms m List.mem_cons_self
    rw [addAll, EStateM.run_bind]
    by_cases hfirst : l.parts.Agrees m.parts
    · obtain ⟨l1, hrun, hl1, hparts⟩ := run_add hl hm hfirst
      rw [hrun]
      refine ih hl1 (fun m' hm' => hms m' (List.mem_cons_of_mem _ hm')) fun hrest => hno ⟨hfirst, ?_⟩
      rwa [hparts] at hrest
    · obtain ⟨e, l', he⟩ := run_add_error hl hm hfirst
      rw [he]
      exact ⟨e, l', rfl⟩

end Linkage
end Sx16
