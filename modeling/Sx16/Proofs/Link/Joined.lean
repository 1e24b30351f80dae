/-
# Many modules joined

Parts are joined one after the other. They can be joined if any two of them agree. In the joined
parts every section of every module has its place: behind the sections of its name in the modules
before it. A label keeps its module, and moves by the place of its section there. Parts that are next
to each other can be joined beforehand.

Key definitions: `Parts.joinAll`, `Parts.AllAgree`, `Parts.sizeBefore`, `SectionData.Holds`.
Key theorems: `Parts.allAgree_iff`, `Parts.exists_holds`, `Parts.exists_given`,
`Parts.joinAll_eq_join`.
-/
import Mathlib.Algebra.GroupWithZero.Nat
import Mathlib.Data.List.Induction
import Sx16.Proofs.Link.Parts

namespace Sx16
namespace Parts

/-- Parts joined with others, one after the other. -/
def joinAll (p : Parts) (qs : List Parts) : Parts := qs.foldl join p

/-- Each of a list of parts agrees with those joined before. -/
def AllAgree (p : Parts) : List Parts → Prop
  | [] => True
  | q :: qs => p.Agrees q ∧ AllAgree (p.join q) qs

variable {p q r : Parts} {qs rs : List Parts} {name : String} {i j : Nat}

theorem joinAll_append (p : Parts) (qs rs : List Parts) :
    p.joinAll (qs ++ rs) = (p.joinAll qs).joinAll rs := List.foldl_append

theorem joinAll_concat (p : Parts) (qs : List Parts) (q : Parts) :
    p.joinAll (qs ++ [q]) = (p.joinAll qs).join q := joinAll_append p qs [q]

/-! ### Parts that agree -/

/-- **Parts can be joined if any two of them agree.** -/
theorem allAgree_iff : p.AllAgree qs ↔ (∀ q ∈ qs, p.Agrees q) ∧ qs.Pairwise Agrees := by
  induction qs generalizing p with
  | nil => exact ⟨fun _ => ⟨fun _ hq => (nomatch hq), List.Pairwise.nil⟩, fun _ => trivial⟩
  | cons q qs ih =>
    rw [AllAgree, List.forall_mem_cons, List.pairwise_cons, and_assoc]
    refine and_congr_right fun h => ?_
    rw [ih]
    simp only [agrees_join_left h, forall_and]
    exact and_assoc

theorem nothing_agrees (q : Parts) : nothing.Agrees q := fun _ _ hx => (nomatch hx)

theorem allAgree_nothing_iff : nothing.AllAgree qs ↔ qs.Pairwise Agrees :=
  allAgree_iff.trans (and_iff_right fun q _ => nothing_agrees q)

theorem agrees_joinAll_left (h : p.AllAgree qs) :
    (p.joinAll qs).Agrees r ↔ p.Agrees r ∧ ∀ q ∈ qs, q.Agrees r := by
  induction qs generalizing p with
  | nil => exact ⟨fun hr => ⟨hr, fun _ hq => (nomatch hq)⟩, And.left⟩
  | cons q qs ih =>
    rw [List.forall_mem_cons, ← and_assoc, ← agrees_join_left h.1]
    exact ih h.2

theorem joinAll_agrees_iff (h : qs.Pairwise Agrees) :
    (nothing.joinAll qs).Agrees r ↔ ∀ q ∈ qs, q.Agrees r :=
  (agrees_joinAll_left (allAgree_nothing_iff.mpr h)).trans (and_iff_right (nothing_agrees r))

theorem agrees_joinAll_iff (h : qs.Pairwise Agrees) :
    p.Agrees (nothing.joinAll qs) ↔ ∀ q ∈ qs, p.Agrees q := by
  rw [agrees_comm, joinAll_agrees_iff h]
  exact forall₂_congr fun q _ => agrees_comm

/-! ### Sizes -/

theorem sound_nothing : nothing.Sound :=
  ⟨List.nodup_nil, fun {_} => ⟨fun h => (nomatch h), fun h => (nomatch h)⟩, fun h => (nomatch h),
    fun _ hf => nomatch hf⟩

theorem tight_nothing : nothing.Tight := ⟨fun _ hf => (nomatch hf), fun _ hf => nomatch hf⟩

/-- The bytes that a section has in the first parts of a list. -/
def sizeBefore (qs : List Parts) (i : Nat) (name : String) : Nat :=
  ((qs.take i).map fun q => q.size name).sum

theorem sizeBefore_succ (h : qs[i]? = some q) (name : String) :
    sizeBefore qs (i + 1) name = sizeBefore qs i name + q.size name := by
  unfold sizeBefore
  rw [List.take_add_one, h, List.map_append, List.sum_append]
  exact congrArg _ (Nat.add_zero _)

theorem sizeBefore_le (h : i ≤ j) : sizeBefore qs i name ≤ sizeBefore qs j name := by
  induction h with
  | refl => exact Nat.le_refl _
  | step _ ih =>
    rename_i j _
    cases hq : qs[j]? with
    | none =>
      have hlen : qs.length ≤ j := List.getElem?_eq_none_iff.mp hq
      have hsame : sizeBefore qs (j + 1) name = sizeBefore qs j name := by
        rw [sizeBefore, sizeBefore, List.take_of_length_le hlen,
          List.take_of_length_le (Nat.le_succ_of_le hlen)]
      exact hsame ▸ ih
    | some q =>
      rw [sizeBefore_succ hq]
      exact Nat.le_trans ih (Nat.le_add_right _ _)

theorem sizeBefore_append (h : i ≤ qs.length) (rs : List Parts) (name : String) :
    sizeBefore (qs ++ rs) i name = sizeBefore qs i name := by
  unfold sizeBefore
  rw [List.take_append_of_le_length h]

/-- A byte of all parts is a byte of one of them. -/
theorem exists_of_lt_sizeBefore {n x : Nat} (h : x < sizeBefore qs n name) :
    ∃ i q k, qs[i]? = some q ∧ k < q.size name ∧ x = sizeBefore qs i name + k := by
  induction n with
  | zero => exact absurd h (Nat.not_lt_zero x)
  | succ n ih =>
    by_cases hx : x < sizeBefore qs n name
    · exact ih hx
    · cases hq : qs[n]? with
      | none =>
        have hlen : qs.length ≤ n := List.getElem?_eq_none_iff.mp hq
        rw [sizeBefore, List.take_of_length_le (Nat.le_succ_of_le hlen)] at h
        rw [sizeBefore, List.take_of_length_le hlen] at hx
        exact absurd h hx
      | some q =>
        rw [sizeBefore_succ hq] at h
        exact ⟨n, q, x - sizeBefore qs n name, hq, by omega, by omega⟩

/-- A byte of all parts is a byte of only one of them. -/
theorem sizeBefore_inj {k l : Nat} (hq : qs[i]? = some q) (hr : qs[j]? = some r)
    (hk : k < q.size name) (hl : l < r.size name)
    (h : sizeBefore qs i name + k = sizeBefore qs j name + l) : i = j ∧ k = l := by
  have hnext := sizeBefore_succ hq name
  have hnext' := sizeBefore_succ hr name
  rcases Nat.lt_trichotomy i j with hlt | rfl | hgt
  · have hle : sizeBefore qs (i + 1) name ≤ sizeBefore qs j name := sizeBefore_le hlt
    omega
  · exact ⟨rfl, by omega⟩
  · have hle : sizeBefore qs (j + 1) name ≤ sizeBefore qs i name := sizeBefore_le hgt
    omega

theorem size_joinAll (hqs : ∀ q ∈ qs, q.Sound) (p : Parts) (name : String) :
    (p.joinAll qs).size name = p.size name + sizeBefore qs qs.length name := by
  induction qs generalizing p with
  | nil => rfl
  | cons q qs ih =>
    have hq := (hqs q List.mem_cons_self).nodup
    have hfirst : sizeBefore (q :: qs) (q :: qs).length name =
        q.size name + sizeBefore qs qs.length name := by
      rw [sizeBefore, sizeBefore, List.take_length, List.take_length, List.map_cons, List.sum_cons]
    rw [hfirst, ← Nat.add_assoc, ← size_join hq]
    exact ih (fun r hr => hqs r (List.mem_cons_of_mem _ hr)) (p.join q)

theorem size_joinAll_nothing (hqs : ∀ q ∈ qs, q.Sound) (name : String) :
    (nothing.joinAll qs).size name = sizeBefore qs qs.length name :=
  (size_joinAll hqs nothing name).trans (Nat.zero_add _)

theorem Fits.of_joinAll (hqs : ∀ q ∈ qs, q.Sound) (h : (p.joinAll qs).Fits) : p.Fits := by
  intro name
  have hle := h name
  rw [size_joinAll hqs] at hle
  omega

/-! ### What joined parts keep -/

theorem Sound.joinAll (hp : p.Sound) (hqs : ∀ q ∈ qs, q.Sound) (h : p.AllAgree qs) :
    (p.joinAll qs).Sound := by
  induction qs generalizing p with
  | nil => exact hp
  | cons q qs ih =>
    have hq := hqs q List.mem_cons_self
    exact ih (hp.join hq h.1) (fun r hr => hqs r (List.mem_cons_of_mem _ hr)) h.2

theorem Tight.joinAll (hp : p.Sound) (tp : p.Tight) (hqs : ∀ q ∈ qs, q.Sound)
    (tqs : ∀ q ∈ qs, q.Tight) (h : p.AllAgree qs) (hfit : (p.joinAll qs).Fits) :
    (p.joinAll qs).Tight := by
  induction qs generalizing p with
  | nil => exact tp
  | cons q qs ih =>
    have hq := hqs q List.mem_cons_self
    have hqs' : ∀ r ∈ qs, r.Sound := fun r hr => hqs r (List.mem_cons_of_mem _ hr)
    have hfirst : (p.join q).Fits := Fits.of_joinAll hqs' hfit
    exact ih (hp.join hq h.1) (tp.join hp hq (tqs q List.mem_cons_self) hfirst) hqs'
      (fun r hr => tqs r (List.mem_cons_of_mem _ hr)) h.2 hfit

end Parts

/-- Parts that can be joined. -/
structure Parts.Joinable (qs : List Parts) : Prop where
  sound : ∀ q ∈ qs, q.Sound
  tight : ∀ q ∈ qs, q.Tight
  agree : qs.Pairwise Parts.Agrees
  fits : (Parts.nothing.joinAll qs).Fits

namespace Parts

variable {p q r : Parts} {qs rs : List Parts} {name : String} {i j : Nat}

namespace Joinable

theorem sound_joinAll (h : Joinable qs) : (nothing.joinAll qs).Sound :=
  sound_nothing.joinAll h.sound (allAgree_nothing_iff.mpr h.agree)

theorem tight_joinAll (h : Joinable qs) : (nothing.joinAll qs).Tight :=
  tight_nothing.joinAll sound_nothing h.sound h.tight (allAgree_nothing_iff.mpr h.agree) h.fits

theorem of_concat (h : Joinable (qs ++ [q])) :
    Joinable qs ∧ q.Sound ∧ q.Tight ∧ (nothing.joinAll qs).Agrees q := by
  obtain ⟨hagree, -, hlast⟩ := List.pairwise_append.mp h.agree
  have hq : q ∈ qs ++ [q] := List.mem_append_right qs List.mem_cons_self
  have hfits := h.fits
  rw [joinAll_concat] at hfits
  refine ⟨⟨fun r hr => h.sound r (List.mem_append_left _ hr),
    fun r hr => h.tight r (List.mem_append_left _ hr), hagree, ?_⟩, h.sound q hq, h.tight q hq, ?_⟩
  · exact Fits.of_join (h.sound q hq).nodup hfits
  · exact (joinAll_agrees_iff hagree).mpr fun r hr => hlast r hr q List.mem_cons_self

end Joinable

theorem join_nothing (p : Parts) : p.join nothing = p :=
  Parts.ext (funext fun _ => Option.merge_none_right) rfl

/-- **Parts can be joined beforehand.** -/
theorem joinAll_eq_join (h : Joinable qs) (p : Parts) :
    p.joinAll qs = p.join (nothing.joinAll qs) := by
  induction qs using List.reverseRecOn with
  | nil => exact (join_nothing p).symm
  | append_singleton qs q ih =>
    obtain ⟨hqs, hq, tq, hagree⟩ := h.of_concat
    have hfits := h.fits
    rw [joinAll_concat] at hfits
    rw [joinAll_concat, joinAll_concat, ih hqs]
    exact join_assoc hqs.sound_joinAll hq hagree hqs.tight_joinAll tq hfits p

/-! ### Roles of joined parts -/

theorem isSome_roles_joinAll (hq : q ∈ qs) (h : (q.roles name).isSome) :
    ((nothing.joinAll qs).roles name).isSome := by
  induction qs using List.reverseRecOn with
  | nil => cases hq
  | append_singleton qs r ih =>
    rw [joinAll_concat, isSome_roles_join, Bool.or_eq_true]
    rcases List.mem_append.mp hq with hq | hq
    · exact Or.inl (ih hq)
    · exact Or.inr (List.mem_singleton.mp hq ▸ h)

/-- A name of one of the parts is a section of the whole if it is one of theirs. -/
theorem roles_joinAll_eq_area (hqs : qs.Pairwise Agrees) (hq : q ∈ qs)
    (h : (q.roles name).isSome) :
    (nothing.joinAll qs).roles name = some .area ↔ q.roles name = some .area := by
  induction qs using List.reverseRecOn with
  | nil => cases hq
  | append_singleton qs r ih =>
    obtain ⟨hagree, -, hlast⟩ := List.pairwise_append.mp hqs
    have hr : (nothing.joinAll qs).Agrees r :=
      (joinAll_agrees_iff hagree).mpr fun q hq => hlast q hq r List.mem_cons_self
    rw [joinAll_concat]
    rcases List.mem_append.mp hq with hq | hq
    · rw [roles_join_eq_area_left hr (isSome_roles_joinAll hq h), ih hagree hq]
    · obtain rfl := List.mem_singleton.mp hq
      exact roles_join_eq_area hr h

/-- Where the sections of one of the parts start. -/
def bases (qs : List Parts) (i : Nat) (name : String) : UInt16 := UInt16.ofNat (sizeBefore qs i name)

theorem base_joinAll_nothing (hqs : ∀ q ∈ qs, q.Sound) (rs : List Parts) :
    (nothing.joinAll qs).base = bases (qs ++ rs) qs.length := by
  funext name
  rw [base, size_joinAll_nothing hqs, bases, sizeBefore_append (Nat.le_refl _)]

/-- **A label is given by one of the parts**, and moves with its section. -/
theorem exists_given (hqs : ∀ q ∈ qs, q.Sound) {home : Option String} {v : UInt16}
    (h : (nothing.joinAll qs).roles name = some (.given home v)) :
    ∃ i q v', qs[i]? = some q ∧ q.roles name = some (.given home v') ∧
      v = v' + (home.map (bases qs i)).getD 0 := by
  induction qs using List.reverseRecOn generalizing v with
  | nil => cases h
  | append_singleton qs q ih =>
    have hqs' : ∀ q ∈ qs, q.Sound := fun r hr => hqs r (List.mem_append_left _ hr)
    have hbase := base_joinAll_nothing hqs' [q]
    -- The label is the last parts' own, or one of those before.
    have hlast : ∀ y, q.roles name = some y → y.shift (bases (qs ++ [q]) qs.length) = .given home v →
        ∃ i q' v', (qs ++ [q])[i]? = some q' ∧ q'.roles name = some (.given home v') ∧
          v = v' + (home.map (bases (qs ++ [q]) i)).getD 0 := by
      intro y hy hshift
      cases y with
      | given home' v' =>
        simp only [Role.shift, Role.given.injEq] at hshift
        obtain ⟨rfl, rfl⟩ := hshift
        exact ⟨qs.length, q, v', List.getElem?_concat_length, hy, rfl⟩
      | _ => cases hshift
    have hbefore : (nothing.joinAll qs).roles name = some (.given home v) →
        ∃ i q' v', (qs ++ [q])[i]? = some q' ∧ q'.roles name = some (.given home v') ∧
          v = v' + (home.map (bases (qs ++ [q]) i)).getD 0 := by
      intro hx
      obtain ⟨i, q', v', hi, hq', hv⟩ := ih hqs' hx
      have hlt : i < qs.length := (List.getElem?_eq_some_iff.mp hi).1
      have hsame : bases (qs ++ [q]) i = bases qs i :=
        funext fun name => congrArg UInt16.ofNat (sizeBefore_append (Nat.le_of_lt hlt) [q] name)
      refine ⟨i, q', v', ?_, hq', ?_⟩
      · rw [List.getElem?_append_left hlt, hi]
      · rw [hsame, hv]
    rw [joinAll_concat, roles_join, hbase, Option.merge_eq_some_iff] at h
    rcases h with ⟨hx, -⟩ | ⟨-, hy⟩ | ⟨x, y', hx, hy, hmerge⟩
    · exact hbefore hx
    · obtain ⟨y, hy, hshift⟩ := Option.map_eq_some_iff.mp hy
      exact hlast y hy hshift
    · obtain ⟨y, hq, rfl⟩ := Option.map_eq_some_iff.mp hy
      cases x with
      | area => cases hmerge
      | wanted => exact hlast y hq hmerge
      | given home' v' => exact hbefore (hx.trans (congrArg some hmerge))

theorem given_inj (hqs : qs.Pairwise Agrees) (hq : qs[i]? = some q) (hr : qs[j]? = some r)
    {home home' : Option String} {v v' : UInt16} (hgq : q.roles name = some (.given home v))
    (hgr : r.roles name = some (.given home' v')) : i = j := by
  obtain ⟨hi, rfl⟩ := List.getElem?_eq_some_iff.mp hq
  obtain ⟨hj, rfl⟩ := List.getElem?_eq_some_iff.mp hr
  rcases Nat.lt_trichotomy i j with hlt | heq | hgt
  · have := List.pairwise_iff_getElem.mp hqs i j hi hj hlt name _ hgq _ hgr
    cases this
  · exact heq
  · have := List.pairwise_iff_getElem.mp hqs j i hj hi hgt name _ hgr _ hgq
    cases this

end Parts

/-! ### Where sections are -/

/-- A section that holds another from a byte on. -/
def SectionData.Holds (g : SectionData) (n : Nat) (f : SectionData) : Prop :=
  ∃ before behind : SectionData, g = (before.join f).join behind ∧ before.bytes.size = n ∧
    (∀ s ∈ before.relocations, s.offset.toNat + 2 ≤ n) ∧
    ∀ s ∈ behind.relocations, n + f.bytes.size ≤ s.offset.toNat

namespace SectionData

variable {f g h : SectionData} {n : Nat}

theorem Holds.le_size (h : g.Holds n f) : n + f.bytes.size ≤ g.bytes.size := by
  obtain ⟨before, behind, rfl, rfl, -, -⟩ := h
  simp only [SectionData.join, Array.size_append]
  exact Nat.le_add_right _ _

theorem Holds.join (hg : g.Holds n f) (hh : ∀ s ∈ h.relocations, g.bytes.size ≤ s.offset.toNat) :
    (g.join h).Holds n f := by
  obtain ⟨before, behind, rfl, hsize, hbefore, hbehind⟩ := hg
  refine ⟨before, behind.join h, SectionData.join_assoc _ _ _, hsize, hbefore, fun s hs => ?_⟩
  rcases List.mem_append.mp hs with hs | hs
  · exact hbehind s hs
  · have hle := hh s hs
    simp only [SectionData.join, Array.size_append] at hle
    omega

theorem holds_join (hg : ∀ s ∈ g.relocations, s.offset.toNat + 2 ≤ g.bytes.size) (f : SectionData) :
    (g.join f).Holds g.bytes.size f := by
  refine ⟨g, ⟨f.name, #[], []⟩, ?_, rfl, hg, fun s hs => (nomatch hs)⟩
  simp only [SectionData.join, Array.append_empty, List.append_nil]

theorem holds_self (f : SectionData) : f.Holds 0 f := by
  refine ⟨⟨f.name, #[], []⟩, ⟨f.name, #[], []⟩, ?_, rfl, fun s hs => (nomatch hs),
    fun s hs => (nomatch hs)⟩
  simp only [SectionData.join, Array.append_empty, Array.empty_append, List.append_nil,
    List.nil_append]

end SectionData

namespace Parts

variable {p q : Parts} {qs : List Parts} {i : Nat} {f g : SectionData}

/-- Joining puts a section behind the one of its name. -/
theorem exists_holds_last (hp : p.Sound) (tp : p.Tight) (hq : q.Sound) (hf : f ∈ q.pieces) :
    ∃ g ∈ (p.join q).pieces, g.name = f.name ∧
      g.Holds (p.size f.name) (f.moved q.roles p.base) := by
  have hentry := entryOf_join (p := p) hq.nodup f.name
  rw [entryOf_of_mem hq.nodup hf] at hentry
  cases hg : entryOf SectionData.name p.pieces f.name with
  | none =>
    rw [hg] at hentry
    refine ⟨_, mem_of_entryOf hentry, rfl, ?_⟩
    rw [size_eq_zero (entryOf_eq_none_iff.mp hg)]
    exact SectionData.holds_self _
  | some g =>
    rw [hg] at hentry
    have hmem := mem_of_entryOf hg
    have hname := key_of_entryOf hg
    refine ⟨_, mem_of_entryOf hentry, hname, ?_⟩
    rw [← hname, size_eq_of_mem hp.nodup hmem]
    exact SectionData.holds_join (tp.inside g hmem) _

/-- Joining leaves the sections of the first parts where they are. -/
theorem exists_holds_join {n : Nat} (hp : p.Sound) (hq : q.Sound) (tq : q.Tight)
    (hfit : (p.join q).Fits) (hg : g ∈ p.pieces) (h : g.Holds n f) :
    ∃ g' ∈ (p.join q).pieces, g'.name = g.name ∧ g'.Holds n f := by
  have hentry := entryOf_join (p := p) hq.nodup g.name
  rw [entryOf_of_mem hp.nodup hg] at hentry
  cases hr : entryOf SectionData.name q.pieces g.name with
  | none =>
    rw [hr] at hentry
    exact ⟨g, mem_of_entryOf hentry, rfl, h⟩
  | some r =>
    rw [hr] at hentry
    have hmem := mem_of_entryOf hr
    have hname := key_of_entryOf hr
    refine ⟨_, mem_of_entryOf hentry, rfl, h.join fun s hs => ?_⟩
    obtain ⟨s', hs', rfl⟩ := List.mem_map.mp hs
    have hoffset := toNat_offset_moved hq tq hfit hmem hs'
    change _ ≤ (s'.offset + p.base r.name).toNat
    rw [hoffset, hname, size_eq_of_mem hp.nodup hg]
    exact Nat.le_add_right _ _

/-- **Every section has its place**: behind those of its name in the parts before. -/
theorem exists_holds (h : Joinable qs) (hq : qs[i]? = some q) (hf : f ∈ q.pieces) :
    ∃ g ∈ (nothing.joinAll qs).pieces, g.name = f.name ∧
      g.Holds (sizeBefore qs i f.name) (f.moved q.roles (bases qs i)) := by
  induction qs using List.reverseRecOn with
  | nil => cases hq
  | append_singleton qs r ih =>
    obtain ⟨hqs, hr, tr, hagree⟩ := h.of_concat
    have hfits := h.fits
    rw [joinAll_concat] at hfits
    rw [joinAll_concat]
    by_cases hlt : i < qs.length
    · rw [List.getElem?_append_left hlt] at hq
      obtain ⟨g, hg, hname, hholds⟩ := ih hqs hq
      obtain ⟨g', hg', hname', hholds'⟩ :=
        exists_holds_join hqs.sound_joinAll hr tr hfits hg hholds
      have hle := Nat.le_of_lt hlt
      have hsame : bases (qs ++ [r]) i = bases qs i :=
        funext fun name => congrArg UInt16.ofNat (sizeBefore_append hle [r] name)
      refine ⟨g', hg', hname'.trans hname, ?_⟩
      rw [sizeBefore_append hle, hsame]
      exact hholds'
    · have hi : i = qs.length := by
        have := (List.getElem?_eq_some_iff.mp hq).1
        rw [List.length_append, List.length_singleton] at this
        omega
      subst hi
      rw [List.getElem?_concat_length, Option.some.injEq] at hq
      subst hq
      have hlast := exists_holds_last hqs.sound_joinAll hqs.tight_joinAll hr hf
      rw [size_joinAll_nothing hqs.sound, base_joinAll_nothing hqs.sound [r]] at hlast
      rwa [sizeBefore_append (Nat.le_refl _)]

end Parts
end Sx16
