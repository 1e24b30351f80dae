/-
# When a link succeeds

Modules are added one by one, and a fault shows at the first name whose symbols clash. Yet whether
they can all be added and their labels resolved is a matter of the modules together: no name is a
section of one and a shared label of another, no label is declared for others by two, and each shared
label is given by one of them. So the order of the modules does not matter. A linkage that is resolved
has every shared label from the module that gives it, and linking can then fail in the layout only.

Key definitions: `ObjectModule.Shares`, `ObjectModule.Declares`, `Linkable`, `Resolves`.
Key theorems: `Parts.settled_joinAll_iff`, `linkable_iff`, `Linkage.exists_run_relocate`,
`resolves_iff_linkable`.
-/
import Sx16.Proofs.Link.Contents

namespace Sx16

/-! ### What the modules are expected to be -/

/-- A module shares a label: it gives the label to others, or wants it from them. -/
def ObjectModule.Shares (m : ObjectModule) (name : String) : Prop :=
  ∃ s, m.symbols.get? name = some s ∧ s.isSection = false ∧ s.isLocal = false

/-- A module declares a label for others, whether or not it defines it. -/
def ObjectModule.Declares (m : ObjectModule) (name : String) : Prop :=
  ∃ s, m.symbols.get? name = some s ∧ s.isSection = false ∧ s.exported = true

/-- Modules that fit together. Modules are told by their positions: one that is there twice is two. -/
structure Linkable (ms : List ObjectModule) : Prop where
  /-- No name is a section of one module and a shared label of another. -/
  apart : ∀ {i j : Nat} {m m' : ObjectModule} {name : String}, i ≠ j → ms[i]? = some m →
    ms[j]? = some m' → name ∈ m.sections.map SectionData.name → ¬ m'.Shares name
  /-- No label is declared for others by two modules. -/
  once : ∀ {i j : Nat} {m m' : ObjectModule} {name : String}, ms[i]? = some m →
    ms[j]? = some m' → m.Declares name → m'.Declares name → i = j
  /-- Every shared label is declared by a module that has it in a section. -/
  given : ∀ {m name}, m ∈ ms → m.Shares name → ∃ m' ∈ ms, ∃ home v, m'.Gives name home v

/-- All modules were added to a fresh linkage, and their names are resolved. -/
def Resolves (ms : List ObjectModule) (l : Linkage) : Prop :=
  (Linkage.addAll ms).run {} = .ok () l ∧ l.checkResolved = .ok ()

/-- A linkage has a label from the one module that declares it, at a position: the symbol is exported
alone, and in the section that the label has there. -/
structure Linkage.HasFrom (l : Linkage) (ms : List ObjectModule) (name : String) (j : Nat)
    (home : String) : Prop where
  gives : ∃ m v, ms[j]? = some m ∧ m.Gives name home v ∧ home ∈ m.sections.map SectionData.name
  only : ∀ {j' : Nat} {m : ObjectModule}, ms[j']? = some m → m.Declares name → j' = j
  symbol : ∃ k, l.symbol? name = some k ∧ k.isSection = false ∧ k.isOnlyExported = true ∧
    k.home = some home

/-! ### Roles -/

/-- Roles agree unless one is a section and the other is not, or both are given. -/
theorem Role.agrees_iff {x y : Role} : x.agrees y = true ↔ (x = .area ↔ y = .area) ∧
    ¬ ((∃ home v, x = .given home v) ∧ ∃ home v, y = .given home v) := by
  cases x <;> cases y <;> simp [Role.agrees]

namespace Parts

variable {p q r : Parts} {qs : List Parts} {name : String}

/-- Two parts agree in either order, so those at any two positions do. -/
theorem pairwise_agrees_iff : qs.Pairwise Agrees ↔
    ∀ {i j : Nat} {q r : Parts}, i ≠ j → qs[i]? = some q → qs[j]? = some r → q.Agrees r := by
  rw [List.pairwise_iff_getElem]
  constructor
  · intro h i j q r hne hq hr
    obtain ⟨hi, rfl⟩ := List.getElem?_eq_some_iff.mp hq
    obtain ⟨hj, rfl⟩ := List.getElem?_eq_some_iff.mp hr
    rcases Nat.lt_or_gt_of_ne hne with hlt | hgt
    · exact h i j hi hj hlt
    · exact agrees_comm.mp (h j i hj hi hgt)
  · intro h i j hi hj hlt
    exact h (Nat.ne_of_lt hlt) (List.getElem?_eq_getElem hi) (List.getElem?_eq_getElem hj)

/-- A shared name of the whole is one of some part. -/
theorem exists_isSome_roles (h : ((nothing.joinAll qs).roles name).isSome) :
    ∃ q ∈ qs, (q.roles name).isSome := by
  induction qs using List.reverseRecOn with
  | nil => cases h
  | append_singleton qs r ih =>
    rw [joinAll_concat, isSome_roles_join, Bool.or_eq_true] at h
    rcases h with h | h
    · obtain ⟨q, hq, hsome⟩ := ih h
      exact ⟨q, List.mem_append_left _ hq, hsome⟩
    · exact ⟨r, List.mem_append_right _ List.mem_cons_self, h⟩

/-- A label that one of the parts gives is given by the whole, in the same section. -/
theorem exists_roles_joinAll_eq_given (hqs : qs.Pairwise Agrees) (hq : q ∈ qs)
    {home : Option String} {v : UInt16} (h : q.roles name = some (.given home v)) :
    ∃ v', (nothing.joinAll qs).roles name = some (.given home v') := by
  induction qs using List.reverseRecOn with
  | nil => cases hq
  | append_singleton qs r ih =>
    obtain ⟨hagree, -, hlast⟩ := List.pairwise_append.mp hqs
    rw [joinAll_concat, roles_join]
    rcases List.mem_append.mp hq with hq | hq
    · obtain ⟨v', hv'⟩ := ih hagree hq
      refine ⟨v', ?_⟩
      rw [hv']
      cases r.roles name <;> rfl
    · obtain rfl := List.mem_singleton.mp hq
      have hqa : (nothing.joinAll qs).Agrees q :=
        (joinAll_agrees_iff hagree).mpr fun r hr => hlast r hr q List.mem_cons_self
      rw [h]
      cases hx : (nothing.joinAll qs).roles name with
      | none => exact ⟨_, rfl⟩
      | some x =>
        -- Of the roles before, only a wanted label agrees with a given one.
        have hxy := hqa name x hx _ h
        cases x with
        | wanted => exact ⟨_, rfl⟩
        | area => cases hxy
        | given home' v' => cases hxy

/-- Every label of the parts is in a section of some part that gives it. -/
def Met (qs : List Parts) : Prop :=
  ∀ q ∈ qs, ∀ name x, q.roles name = some x → x ≠ .area →
    ∃ r ∈ qs, ∃ home v, r.roles name = some (.given (some home) v)

/-- **Joined parts are settled** just if every label of a part is given by one. -/
theorem settled_joinAll_iff (hqs : ∀ q ∈ qs, q.Sound) (h : qs.Pairwise Agrees) :
    (nothing.joinAll qs).Settled ↔ Met qs := by
  constructor
  · intro hset q hq name x hx hlabel
    have hsome : (q.roles name).isSome := by rw [hx]; rfl
    obtain ⟨y, hy⟩ := Option.isSome_iff_exists.mp (isSome_roles_joinAll hq hsome)
    rcases hset name y hy with rfl | ⟨home, v, rfl⟩
    · have hxa := (roles_joinAll_eq_area h hq hsome).mp hy
      exact absurd (Option.some.inj (hx.symm.trans hxa)) hlabel
    · obtain ⟨i, r, v', hr, hgiven, -⟩ := exists_given hqs hy
      exact ⟨r, List.mem_of_getElem? hr, home, v', hgiven⟩
  · intro hmet name y hy
    obtain ⟨q, hq, hsome⟩ := exists_isSome_roles (by rw [hy]; rfl)
    obtain ⟨x, hx⟩ := Option.isSome_iff_exists.mp hsome
    by_cases hlabel : x = .area
    · have hya := (roles_joinAll_eq_area h hq hsome).mpr (hlabel ▸ hx)
      exact .inl (Option.some.inj (hy.symm.trans hya))
    · obtain ⟨r, hr, home, v, hgiven⟩ := hmet q hq name x hx hlabel
      obtain ⟨v', hv'⟩ := exists_roles_joinAll_eq_given h hr hgiven
      exact .inr ⟨home, v', Option.some.inj (hy.symm.trans hv')⟩

end Parts

/-! ### Modules that fit together -/

namespace ObjectModule

variable {m m' : ObjectModule} {name : String}

theorem shares_iff (h : m.symbols.Distinct) :
    m.Shares name ↔ ∃ x, m.parts.roles name = some x ∧ x ≠ .area := by
  constructor
  · rintro ⟨s, hs, hsec, hlocal⟩
    refine ⟨_, (roles_eq_some_iff h).mpr ⟨s, hs, hlocal, rfl⟩, fun harea => ?_⟩
    rw [role_ofSymbol_eq_area, hsec] at harea
    cases harea
  · rintro ⟨x, hx, hlabel⟩
    obtain ⟨s, hs, hlocal, rfl⟩ := (roles_eq_some_iff h).mp hx
    exact ⟨s, hs, Bool.eq_false_iff.mpr (mt role_ofSymbol_eq_area.mpr hlabel), hlocal⟩

theorem declares_iff (h : m.symbols.Distinct) :
    m.Declares name ↔ ∃ home v, m.parts.roles name = some (.given home v) := by
  constructor
  · rintro ⟨s, hs, hsec, hexp⟩
    have hlocal : s.isLocal = false := by rw [Symbol.isLocal, hexp]; rfl
    exact ⟨_, _, (roles_eq_some_iff h).mpr
      ⟨s, hs, hlocal, role_ofSymbol_eq_given.mpr ⟨hsec, hexp, rfl, rfl⟩⟩⟩
  · rintro ⟨home, v, hx⟩
    obtain ⟨s, hs, -, hrole⟩ := (roles_eq_some_iff h).mp hx
    obtain ⟨hsec, hexp, -, -⟩ := role_ofSymbol_eq_given.mp hrole
    exact ⟨s, hs, hsec, hexp⟩

/-- **Two modules agree** if neither shares a label that is a section of the other, and no label is
declared by both. -/
theorem agrees_parts_iff (hm : m.Proper) (hm' : m'.Proper) : m.parts.Agrees m'.parts ↔
    (∀ name ∈ m.sections.map SectionData.name, ¬ m'.Shares name) ∧
    (∀ name ∈ m'.sections.map SectionData.name, ¬ m.Shares name) ∧
    ∀ name, ¬ (m.Declares name ∧ m'.Declares name) := by
  constructor
  · intro h
    refine ⟨fun name hsec hshares => ?_, fun name hsec hshares => ?_, ?_⟩
    · obtain ⟨y, hy, hlabel⟩ := (shares_iff hm'.distinct).mp hshares
      exact hlabel ((Role.agrees_iff.mp (h name _ (hm.sound.area.mpr hsec) y hy)).1.mp rfl)
    · obtain ⟨x, hx, hlabel⟩ := (shares_iff hm.distinct).mp hshares
      exact hlabel ((Role.agrees_iff.mp (h name x hx _ (hm'.sound.area.mpr hsec))).1.mpr rfl)
    · rintro name ⟨hdecl, hdecl'⟩
      obtain ⟨home, v, hx⟩ := (declares_iff hm.distinct).mp hdecl
      obtain ⟨home', v', hy⟩ := (declares_iff hm'.distinct).mp hdecl'
      exact (Role.agrees_iff.mp (h name _ hx _ hy)).2 ⟨⟨home, v, rfl⟩, home', v', rfl⟩
  · rintro ⟨hleft, hright, honce⟩ name x hx y hy
    refine Role.agrees_iff.mpr ⟨⟨?_, ?_⟩, ?_⟩
    · rintro rfl
      by_contra hlabel
      exact hleft name (hm.sound.area.mp hx) ((shares_iff hm'.distinct).mpr ⟨y, hy, hlabel⟩)
    · rintro rfl
      by_contra hlabel
      exact hright name (hm'.sound.area.mp hy) ((shares_iff hm.distinct).mpr ⟨x, hx, hlabel⟩)
    · rintro ⟨⟨home, v, rfl⟩, home', v', rfl⟩
      exact honce name ⟨(declares_iff hm.distinct).mpr ⟨home, v, hx⟩,
        (declares_iff hm'.distinct).mpr ⟨home', v', hy⟩⟩

end ObjectModule

section

variable {ms ms' : List ObjectModule} {m : ObjectModule} {l l' : Linkage} {places : Named UInt16}
  {unused : List String} {name : String}

theorem pairwise_agrees_parts_iff (hms : ∀ m ∈ ms, m.Proper) :
    (ms.map ObjectModule.parts).Pairwise Parts.Agrees ↔
      (∀ {i j : Nat} {m m' : ObjectModule} {name : String}, i ≠ j → ms[i]? = some m →
        ms[j]? = some m' → name ∈ m.sections.map SectionData.name → ¬ m'.Shares name) ∧
      ∀ {i j : Nat} {m m' : ObjectModule} {name : String}, ms[i]? = some m → ms[j]? = some m' →
        m.Declares name → m'.Declares name → i = j := by
  have hpart : ∀ {i : Nat} {m : ObjectModule}, ms[i]? = some m →
      (ms.map ObjectModule.parts)[i]? = some m.parts :=
    fun hm => by rw [List.getElem?_map, hm]; rfl
  have hproper : ∀ {i : Nat} {m}, ms[i]? = some m → m.Proper :=
    fun hm => hms _ (List.mem_of_getElem? hm)
  rw [Parts.pairwise_agrees_iff]
  constructor
  · intro h
    have hagree := fun {i j : Nat} {m m' : ObjectModule} (hne : i ≠ j) (hm : ms[i]? = some m)
        (hm' : ms[j]? = some m') =>
      (ObjectModule.agrees_parts_iff (hproper hm) (hproper hm')).mp (h hne (hpart hm) (hpart hm'))
    refine ⟨fun hne hm hm' hsec => (hagree hne hm hm').1 _ hsec, fun hm hm' hdecl hdecl' => ?_⟩
    by_contra hne
    exact (hagree hne hm hm').2.2 _ ⟨hdecl, hdecl'⟩
  · rintro ⟨hapart, honce⟩ i j q r hne hq hr
    rw [List.getElem?_map, Option.map_eq_some_iff] at hq hr
    obtain ⟨m, hm, rfl⟩ := hq
    obtain ⟨m', hm', rfl⟩ := hr
    refine (ObjectModule.agrees_parts_iff (hproper hm) (hproper hm')).mpr
      ⟨fun name hsec => hapart hne hm hm' hsec, fun name hsec => hapart hne.symm hm' hm hsec, ?_⟩
    rintro name ⟨hdecl, hdecl'⟩
    exact hne (honce hm hm' hdecl hdecl')

theorem met_parts_iff (hms : ∀ m ∈ ms, m.Proper) : Parts.Met (ms.map ObjectModule.parts) ↔
    ∀ {m name}, m ∈ ms → m.Shares name → ∃ m' ∈ ms, ∃ home v, m'.Gives name home v := by
  constructor
  · intro h m name hm hshares
    obtain ⟨x, hx, hlabel⟩ := (ObjectModule.shares_iff (hms m hm).distinct).mp hshares
    obtain ⟨q, hq, home, v, hgiven⟩ := h m.parts (List.mem_map_of_mem hm) name x hx hlabel
    obtain ⟨m', hm', rfl⟩ := List.mem_map.mp hq
    exact ⟨m', hm', home, v, (ObjectModule.gives_iff (hms m' hm').distinct).mpr hgiven⟩
  · intro h q hq name x hx hlabel
    obtain ⟨m, hm, rfl⟩ := List.mem_map.mp hq
    obtain ⟨m', hm', home, v, hgives⟩ :=
      h hm ((ObjectModule.shares_iff (hms m hm).distinct).mpr ⟨x, hx, hlabel⟩)
    exact ⟨m'.parts, List.mem_map_of_mem hm', home, v,
      (ObjectModule.gives_iff (hms m' hm').distinct).mp hgives⟩

/-- **Modules fit together** if any two agree and every label is met. -/
theorem linkable_iff (hms : ∀ m ∈ ms, m.Proper) : Linkable ms ↔
    (ms.map ObjectModule.parts).Pairwise Parts.Agrees ∧ Parts.Met (ms.map ObjectModule.parts) := by
  rw [pairwise_agrees_parts_iff hms, met_parts_iff hms]
  exact ⟨fun h => ⟨⟨h.apart, h.once⟩, h.given⟩, fun h => ⟨h.1.1, h.1.2, h.2⟩⟩

theorem Linkable.perm (hms : ∀ m ∈ ms, m.Proper) (hperm : ms.Perm ms') (h : Linkable ms) :
    Linkable ms' := by
  obtain ⟨hagree, hmet⟩ := (linkable_iff hms).mp h
  have hparts := hperm.map ObjectModule.parts
  refine (linkable_iff fun m hm => hms m (hperm.mem_iff.mpr hm)).mpr ⟨?_, ?_⟩
  · exact (hparts.pairwise_iff fun h => Parts.agrees_comm.mp h).mp hagree
  · intro q hq name x hx hlabel
    obtain ⟨r, hr, hgiven⟩ := hmet q (hparts.mem_iff.mpr hq) name x hx hlabel
    exact ⟨r, hparts.mem_iff.mp hr, hgiven⟩

/-! ### Adding and resolving -/

/-- Modules that were added agree, and the linkage has their joined parts. -/
theorem proper_of_run_addAll (hms : ∀ m ∈ ms, m.Proper)
    (h : (Linkage.addAll ms).run {} = .ok () l) :
    (ms.map ObjectModule.parts).Pairwise Parts.Agrees ∧ l.Proper ∧
      l.parts = Parts.nothing.joinAll (ms.map ObjectModule.parts) := by
  by_cases hagree : Parts.nothing.AllAgree (ms.map ObjectModule.parts)
  · obtain ⟨l', hrun, hl, hparts⟩ := Linkage.run_addAll Linkage.proper_empty hms hagree
    rw [h] at hrun
    cases hrun
    exact ⟨Parts.allAgree_nothing_iff.mp hagree, hl, hparts⟩
  · obtain ⟨e, l', hrun⟩ := Linkage.run_addAll_error Linkage.proper_empty hms hagree
    rw [h] at hrun
    cases hrun

theorem sound_of_mem_parts (hms : ∀ m ∈ ms, m.Proper) :
    ∀ q ∈ ms.map ObjectModule.parts, q.Sound :=
  List.forall_mem_map.mpr fun m hm => (hms m hm).sound

theorem Resolves.linkable (hms : ∀ m ∈ ms, m.Proper) (h : Resolves ms l) : Linkable ms := by
  obtain ⟨hagree, hl, hparts⟩ := proper_of_run_addAll hms h.1
  have hset := (Linkage.checkResolved_eq_ok_iff hl).mp h.2
  rw [hparts] at hset
  exact (linkable_iff hms).mpr
    ⟨hagree, (Parts.settled_joinAll_iff (sound_of_mem_parts hms) hagree).mp hset⟩

/-- Modules that fit together can be added, and are then resolved. -/
theorem Linkable.exists_resolves (hms : ∀ m ∈ ms, m.Proper) (h : Linkable ms) :
    ∃ l, Resolves ms l := by
  obtain ⟨hagree, hmet⟩ := (linkable_iff hms).mp h
  obtain ⟨l, hrun, hl, hparts⟩ := Linkage.run_addAll Linkage.proper_empty hms
    (Parts.allAgree_nothing_iff.mpr hagree)
  change l.parts = Parts.nothing.joinAll (ms.map ObjectModule.parts) at hparts
  refine ⟨l, hrun, (Linkage.checkResolved_eq_ok_iff hl).mpr ?_⟩
  rw [hparts]
  exact (Parts.settled_joinAll_iff (sound_of_mem_parts hms) hagree).mpr hmet

theorem exists_resolves_iff (hms : ∀ m ∈ ms, m.Proper) : (∃ l, Resolves ms l) ↔ Linkable ms :=
  ⟨fun ⟨_, h⟩ => h.linkable hms, Linkable.exists_resolves hms⟩

/-- **A shared label** is had from the one module that gives it. -/
theorem Resolves.exists_hasFrom (hms : ∀ m ∈ ms, m.Proper) (h : Resolves ms l) (hm : m ∈ ms)
    (hshares : m.Shares name) : ∃ j home, l.HasFrom ms name j home := by
  obtain ⟨hagree, hl, hparts⟩ := proper_of_run_addAll hms h.1
  have hlink := h.linkable hms
  obtain ⟨m', hm', home, v, hgives⟩ := hlink.given hm hshares
  obtain ⟨j, hj⟩ := List.mem_iff_getElem?.mp hm'
  have hrole := (ObjectModule.gives_iff (hms m' hm').distinct).mp hgives
  have hdecl : m'.Declares name :=
    (ObjectModule.declares_iff (hms m' hm').distinct).mpr ⟨_, _, hrole⟩
  obtain ⟨v', hv'⟩ := Parts.exists_roles_joinAll_eq_given hagree (List.mem_map_of_mem hm') hrole
  rw [← hparts, Linkage.roles_parts, Option.map_eq_some_iff] at hv'
  obtain ⟨k, hk, hkrole⟩ := hv'
  refine ⟨j, home, ⟨m', v, hj, hgives, (hms m' hm').sound.given hrole⟩,
    fun hj' hdecl' => hlink.once hj' hj hdecl' hdecl, k, hk, ?_⟩
  rcases (hl.orderly.plain k (mem_of_entryOf hk)).cases with
    ⟨-, -, -, hr⟩ | ⟨-, -, -, hr⟩ | ⟨hsec, hexp, himp, hr⟩
  · rw [hr] at hkrole
    cases hkrole
  · rw [hr] at hkrole
    cases hkrole
  · rw [hr, Role.given.injEq] at hkrole
    refine ⟨hsec, ?_, hkrole.1⟩
    rw [LinkSymbol.isOnlyExported, hexp, himp]
    rfl

/-! ### Layout and relocation -/

theorem Linkage.size_filled (l : Linkage) (s : Segment) : (l.filled s).size = s.bytes.size := by
  refine List.foldlRecOn (motive := fun bs : Array UInt8 => bs.size = s.bytes.size) s.relocations _ rfl
    fun bs hbs r _ => ?_
  split
  · rw [size_addWord, hbs]
  · exact hbs

/-- **A linkage that was laid out can be relocated**, whether or not its names are resolved. -/
theorem Linkage.exists_run_relocate (hl : l.Proper) (h : (place places).run l = .ok unused l') :
    ∃ image, relocate.run l' = .ok image l'.moveLabels := by
  rw [run_place] at h
  cases hstarts : allocate (l.parts.demands places) with
  | error e =>
    rw [hstarts] at h
    cases h
  | ok starts =>
    rw [hstarts] at h
    cases h
    refine ⟨_, run_relocate_of_fits fun s hs => ?_⟩
    obtain ⟨s', hs', rfl⟩ := List.mem_map.mp hs
    have hdemand : (s'.name, ⟨s'.bytes.size, places.lookup s'.name⟩) ∈ l.parts.demands places :=
      List.mem_map.mpr ⟨s'.data, List.mem_map_of_mem hs', rfl⟩
    rw [size_filled]
    exact start_of_allocate hstarts (nodup_demands hl places) hdemand

/-- Linking gives an image just if the modules fit together and can be laid out. -/
theorem exists_link_iff (hms : ∀ m ∈ ms, m.Proper) : (∃ image, link ms places = .ok image) ↔
    Linkable ms ∧ ∃ l unused l', (Linkage.addAll ms).run {} = .ok () l ∧
      (Linkage.place places).run l = .ok unused l' := by
  constructor
  · rintro ⟨image, himage⟩
    obtain ⟨hagree, hset, starts, hstarts, -⟩ := (link_eq_ok_iff hms).mp himage
    have hlink := (linkable_iff hms).mpr
      ⟨hagree, (Parts.settled_joinAll_iff (sound_of_mem_parts hms) hagree).mp hset⟩
    obtain ⟨l, hrun, -⟩ := hlink.exists_resolves hms
    obtain ⟨-, -, hparts⟩ := proper_of_run_addAll hms hrun
    have hplace := Linkage.run_place l places
    rw [hparts, hstarts] at hplace
    exact ⟨hlink, l, _, _, hrun, hplace⟩
  · rintro ⟨hlink, l, unused, l', hrun, hplace⟩
    obtain ⟨l'', hrun', hres⟩ := hlink.exists_resolves hms
    rw [hrun] at hrun'
    cases hrun'
    obtain ⟨-, hl, -⟩ := proper_of_run_addAll hms hrun
    obtain ⟨image, himage⟩ := Linkage.exists_run_relocate hl hplace
    refine ⟨image, ?_⟩
    rw [link_eq, hrun]
    simp only [hres, hplace, himage]

/-- **When a link succeeds.** Assembled modules can be added and resolved just if they fit together,
in whatever order; then every shared label is had from the one module that gives it. Linking
succeeds just if the modules also can be laid out: what was laid out is relocated without a fault. -/
theorem resolves_iff_linkable (hms : ∀ m ∈ ms, Assembled m) :
    ((∃ l, Resolves ms l) ↔ Linkable ms) ∧
    (∀ ms', ms.Perm ms' → ((∃ l, Resolves ms l) ↔ ∃ l, Resolves ms' l)) ∧
    (∀ l, Resolves ms l → ∀ m ∈ ms, ∀ name, m.Shares name → ∃ j home, l.HasFrom ms name j home) ∧
    (∀ places, (∃ image, link ms places = .ok image) ↔
      Linkable ms ∧ ∃ l unused l', (Linkage.addAll ms).run {} = .ok () l ∧
        (Linkage.place places).run l = .ok unused l') ∧
    ∀ l places unused l', (Linkage.addAll ms).run {} = .ok () l →
      (Linkage.place places).run l = .ok unused l' →
      ∃ image, Linkage.relocate.run l' = .ok image l'.moveLabels := by
  have hproper : ∀ m ∈ ms, m.Proper := fun m hm => (hms m hm).proper
  refine ⟨exists_resolves_iff hproper, fun ms' hperm => ?_,
    fun l hl m hm name hshares => hl.exists_hasFrom hproper hm hshares,
    fun places => exists_link_iff hproper, fun l places unused l' hrun hplace => ?_⟩
  · have hproper' : ∀ m ∈ ms', m.Proper := fun m hm => hproper m (hperm.mem_iff.mpr hm)
    rw [exists_resolves_iff hproper, exists_resolves_iff hproper']
    exact ⟨Linkable.perm hproper hperm, Linkable.perm hproper' hperm.symm⟩
  · exact Linkage.exists_run_relocate (proper_of_run_addAll hproper hrun).2.1 hplace

theorem resolves_iff_linkable_two : Linkable [wantingModule, givingModule] ∧
    (∃ l, Resolves [givingModule, wantingModule] l) ∧
    ∃ l home, Resolves [wantingModule, givingModule] l ∧
      l.HasFrom [wantingModule, givingModule] "y" 1 home := by
  obtain ⟨hresolves, hperm, hhas, hlinks, -⟩ := resolves_iff_linkable assembled_of_mem_two
  have hlinked : (link [wantingModule, givingModule] [("code", 0x4000)]).toOption.isSome := by
    decide +kernel
  have himage : ∃ image, link [wantingModule, givingModule] [("code", 0x4000)] = .ok image := by
    cases h : link [wantingModule, givingModule] [("code", 0x4000)] with
    | error e =>
      rw [h] at hlinked
      cases hlinked
    | ok image => exact ⟨image, rfl⟩
  have hlink := ((hlinks _).mp himage).1
  obtain ⟨l, hl⟩ := hresolves.mpr hlink
  have hwants : wantingModule.Shares "y" :=
    ⟨{ name := "y", imported := true, number := 1 }, by decide +kernel, rfl, rfl⟩
  have hdeclares : givingModule.Declares "y" :=
    ⟨{ name := "y", owner := 2, value := 2, exported := true, number := 1 }, by decide +kernel,
      rfl, rfl⟩
  obtain ⟨j, home, hfrom⟩ := hhas l hl wantingModule List.mem_cons_self "y" hwants
  obtain rfl : 1 = j := hfrom.only rfl hdeclares
  exact ⟨hlink, (hperm _ (.swap _ _ _)).mp ⟨l, hl⟩, l, home, hl, hfrom⟩

end

end Sx16
