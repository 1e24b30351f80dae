/-
# When sections can be laid out, and where they go

A layout succeeds just if the fixed demands end by the last address and share no address, the others fit
behind the highest end of a fixed one, and no empty one of them comes when all addresses are used up. Then
a fixed demand is where it asks to be, and any other one starts where the sizes of those before it end.
A layout that fails blames an overlap only on two fixed demands that do share an address, and names them
in their order.

Key definitions: `Demand.Takes`, `highestEnd`, `looseSize`, `Allocatable`, `LaidOut`.
Key theorems: `fixedRanges_eq_ok_iff_takes`, `exists_packedRanges_iff`, `mem_packedRanges`,
`fixedRanges_eq_error`, `allocate_exactly`.
-/
import Sx16.Proofs.Link.Placed

namespace Sx16

/-- An address that a fixed demand asks for. -/
def Demand.Takes (d : Demand) (x : Nat) : Prop :=
  ∃ a, d.fixed = some a ∧ a.toNat ≤ x ∧ x < a.toNat + d.size

/-- The highest end of a fixed demand; 0 if there is none. -/
def highestEnd (demands : Named Demand) : Nat :=
  (demands.filterMap fun e => e.2.fixed.map fun a => a.toNat + e.2.size).max?.getD 0

/-- The size of all demands that are not fixed. -/
def looseSize (demands : Named Demand) : Nat :=
  ((demands.filter fun e => e.2.fixed.isNone).map fun e => e.2.size).foldr (· + ·) 0

/-- An empty demand that is not fixed comes when all addresses from `next` on are used up. -/
def Crowded (next : Nat) (demands : Named Demand) : Prop :=
  ∃ before name after, demands = before ++ (name, ⟨0, none⟩) :: after ∧
    next + looseSize before = addressSpace

/-- Demands that can be met. -/
structure Allocatable (demands : Named Demand) : Prop where
  /-- Every fixed demand ends by the last address. -/
  inside : ∀ name size a, (name, ⟨size, some a⟩) ∈ demands → a.toNat + size ≤ addressSpace
  /-- No two fixed demands share an address. -/
  apart : demands.Pairwise fun e e' => ∀ x, e.2.Takes x → ¬ e'.2.Takes x
  /-- The others fit behind the fixed ones. -/
  room : highestEnd demands + looseSize demands ≤ addressSpace
  /-- No empty one of them comes too late. -/
  uncrowded : ¬ Crowded (highestEnd demands) demands

/-- Where a layout puts demands. -/
structure LaidOut (demands : Named Demand) (starts : Named UInt16) : Prop where
  /-- Every demand has one start, and nothing else has. -/
  names : (starts.map Prod.fst).Perm (demands.map Prod.fst)
  /-- A fixed demand is where it asks to be. -/
  fixed : ∀ name size a, (name, ⟨size, some a⟩) ∈ demands → starts.lookup name = some a
  /-- Any other demand is behind the fixed ones and those of the others that come before it. -/
  packed : ∀ before name size after, demands = before ++ (name, ⟨size, none⟩) :: after →
    ∃ start, starts.lookup name = some start ∧
      start.toNat = highestEnd demands + looseSize before
  /-- Every demand ends by the last address. -/
  inside : ∀ name d, (name, d) ∈ demands →
    ∃ start, starts.lookup name = some start ∧ start.toNat + d.size ≤ addressSpace
  /-- No two demands share an address. -/
  apart : ∀ name d name' d' start start', (name, d) ∈ demands → (name', d') ∈ demands →
    name ≠ name' → starts.lookup name = some start → starts.lookup name' = some start' →
    ∀ i < d.size, ∀ j < d'.size, start.toNat + i ≠ start'.toNat + j

variable {demands before after : Named Demand} {taken rs : Named Range} {next : Nat}
  {name : String} {d : Demand} {size : Nat} {a : UInt16}

/-! ### The sizes of demands -/

theorem looseSize_cons_some : looseSize ((name, ⟨size, some a⟩) :: demands) = looseSize demands := rfl

theorem looseSize_cons_none :
    looseSize ((name, ⟨size, none⟩) :: demands) = size + looseSize demands := rfl

/-- The demands with a fixed address. -/
def fixedOnes (demands : Named Demand) : Named Demand :=
  demands.filter fun e => e.2.fixed.isSome

theorem isSome_of_mem_fixedOnes : ∀ e ∈ fixedOnes demands, e.2.fixed.isSome :=
  fun _ he => (List.mem_filter.mp he).2

theorem mem_fixedOnes : (name, ⟨size, some a⟩) ∈ fixedOnes demands ↔
    (name, ⟨size, some a⟩) ∈ demands := by
  simp [fixedOnes]

/-- The highest end of a fixed demand is the one of the ranges that fixed demands ask for. -/
theorem highestStop_asked (demands : Named Demand) :
    highestStop (asked (fixedOnes demands)) = highestEnd demands := by
  have hends : (asked (fixedOnes demands)).map (fun r => r.2.stop) =
      demands.filterMap fun e => e.2.fixed.map fun a => a.toNat + e.2.size := by
    induction demands with
    | nil => rfl
    | cons e demands ih =>
      obtain ⟨name, size, fixed⟩ := e
      cases fixed with
      | none => exact ih
      | some a => exact congrArg (_ :: ·) ih
  unfold highestStop highestEnd
  rw [← hends, ← List.foldl_map (f := fun r : String × Range => r.2.stop) (g := max), List.foldl_max,
    Nat.zero_max]

/-! ### Fixed demands -/

/-- Only fixed demands count for the fixed ranges. -/
theorem fixedRanges_fixedOnes (taken : Named Range) (demands : Named Demand) :
    fixedRanges taken demands = fixedRanges taken (fixedOnes demands) := by
  induction demands generalizing taken with
  | nil => rfl
  | cons e demands ih =>
    obtain ⟨name, size, fixed⟩ := e
    cases fixed with
    | none => exact ih taken
    | some a =>
      show (if a.toNat + size > addressSpace then _ else _) =
        (if a.toNat + size > addressSpace then _ else _)
      split
      · rfl
      · split
        · rfl
        · exact ih _

/-- The ranges of two fixed demands are clear of each other just if the demands share no address. -/
theorem clear_asked_iff {e e' : String × Demand} (h : e.2.fixed.isSome) (h' : e'.2.fixed.isSome) :
    Clear (e.1, e.2.range) (e'.1, e'.2.range) ↔ ∀ x, e.2.Takes x → ¬ e'.2.Takes x := by
  obtain ⟨a, ha⟩ := Option.isSome_iff_exists.mp h
  obtain ⟨a', ha'⟩ := Option.isSome_iff_exists.mp h'
  simp only [Clear, Range.overlaps, Demand.range, Demand.Takes, ha, ha', Option.getD_some,
    Option.some.injEq, exists_eq_left', Bool.and_eq_false_iff, decide_eq_false_iff_not]
  constructor
  · intro hclear x hx hx'
    omega
  · intro hapart
    by_contra hshared
    have := hapart (max a.toNat a'.toNat)
    omega

theorem pairwise_asked_iff : (asked (fixedOnes demands)).Pairwise Clear ↔
    demands.Pairwise fun e e' => ∀ x, e.2.Takes x → ¬ e'.2.Takes x := by
  rw [asked, List.pairwise_map, fixedOnes, List.pairwise_filter]
  refine List.Pairwise.iff fun e e' => ?_
  constructor
  · intro hclear x hx hx'
    have he : e.2.fixed.isSome := by
      obtain ⟨a, ha, -⟩ := hx
      simp [ha]
    have he' : e'.2.fixed.isSome := by
      obtain ⟨a, ha, -⟩ := hx'
      simp [ha]
    exact (clear_asked_iff he he').mp (hclear he he') x hx hx'
  · intro hapart he he'
    exact (clear_asked_iff he he').mpr hapart

/-- **Fixed demands are met** just if they end by the last address and share none. -/
theorem fixedRanges_eq_ok_iff_takes : fixedRanges [] demands = .ok rs ↔
    rs = asked (fixedOnes demands) ∧
      (∀ name size a, (name, ⟨size, some a⟩) ∈ demands → a.toNat + size ≤ addressSpace) ∧
      demands.Pairwise fun e e' => ∀ x, e.2.Takes x → ¬ e'.2.Takes x := by
  rw [fixedRanges_fixedOnes, fixedRanges_eq_ok_iff isSome_of_mem_fixedOnes List.Pairwise.nil,
    List.nil_append, ← pairwise_asked_iff]
  have hinside : (∀ e ∈ fixedOnes demands, e.2.range.stop ≤ addressSpace) ↔
      ∀ name size a, (name, ⟨size, some a⟩) ∈ demands → a.toNat + size ≤ addressSpace := by
    constructor
    · intro h name size a he
      exact h _ (mem_fixedOnes.mpr he)
    · rintro h ⟨name, size, fixed⟩ he
      obtain ⟨a, rfl⟩ := Option.isSome_iff_exists.mp (isSome_of_mem_fixedOnes _ he)
      exact h name size a (mem_fixedOnes.mp he)
  rw [hinside]
  exact and_congr_right fun hrs => by rw [hrs]

/-- A range that overlaps the one of a fixed demand belongs to a fixed demand with which that shares an
address. -/
theorem exists_shared_of_find? {t : String × Range}
    (h : (asked (fixedOnes demands)).find? (fun r => (Demand.range ⟨size, some a⟩).overlaps r.2) =
      some t) : ∃ front d between x, demands = front ++ (t.1, d) :: between ∧ d.Takes x ∧
      Demand.Takes ⟨size, some a⟩ x := by
  obtain ⟨⟨first, d⟩, he, rfl⟩ := List.mem_map.mp (List.mem_of_find?_eq_some h)
  obtain ⟨front, between, rfl⟩ := List.append_of_mem (List.mem_filter.mp he).1
  have hiff := @clear_asked_iff (first, d) (first, ⟨size, some a⟩) (isSome_of_mem_fixedOnes _ he) rfl
  have hoverlap := List.find?_some h
  have hshared : ¬ ∀ x, d.Takes x → ¬ Demand.Takes ⟨size, some a⟩ x := by
    intro hapart
    have hclear : Clear (first, Demand.range ⟨size, some a⟩) (first, d.range) := (hiff.mpr hapart).symm
    exact Bool.false_ne_true (Eq.trans (Eq.symm hclear) hoverlap)
  push Not at hshared
  obtain ⟨x, hx, hx'⟩ := hshared
  exact ⟨front, d, between, x, rfl, hx, hx'⟩

/-- Where fixed ranges fail after those of the demands `before`. -/
theorem fixedRanges_eq_error {e : LinkError}
    (h : fixedRanges (asked (fixedOnes before)) demands = .error e) :
    (∃ name start size, e = .addressOutOfRange name start size) ∨
    ∃ front first d between second d' after x,
      before ++ demands = front ++ (first, d) :: between ++ (second, d') :: after ∧
      e = .overlappingSections first second ∧ d.Takes x ∧ d'.Takes x := by
  induction demands generalizing before with
  | nil => cases h
  | cons entry demands ih =>
    obtain ⟨name, size, fixed⟩ := entry
    have hsplit : before ++ (name, ⟨size, fixed⟩) :: demands =
        before ++ [(name, ⟨size, fixed⟩)] ++ demands := by
      rw [List.append_assoc]
      rfl
    cases fixed with
    | none =>
      rw [hsplit]
      refine @ih (before ++ [(name, ⟨size, none⟩)]) ?_
      rw [fixedOnes, List.filter_append]
      simpa [fixedOnes, fixedRanges] using h
    | some a =>
      rw [fixedRanges] at h
      simp only at h
      split at h
      · cases h
        exact .inl ⟨name, _, _, rfl⟩
      · split at h
        · rename_i t hfind
          cases h
          right
          obtain ⟨front, d, between, x, rfl, hx, hx'⟩ := exists_shared_of_find? hfind
          exact ⟨front, t.1, d, between, name, _, demands, x, by simp, rfl, hx, hx'⟩
        · rw [hsplit]
          refine @ih (before ++ [(name, ⟨size, some a⟩)]) ?_
          rw [fixedOnes, List.filter_append]
          simpa [fixedOnes, asked, Demand.range] using h

/-! ### The other demands -/

theorem crowded_cons_some :
    Crowded next ((name, ⟨size, some a⟩) :: demands) ↔ Crowded next demands := by
  constructor
  · rintro ⟨before, name', after, hsplit, hfull⟩
    cases before with
    | nil => cases hsplit
    | cons e before =>
      obtain ⟨rfl, rfl⟩ := List.cons.inj hsplit
      exact ⟨before, name', after, rfl, hfull⟩
  · rintro ⟨before, name', after, rfl, hfull⟩
    exact ⟨(name, ⟨size, some a⟩) :: before, name', after, rfl, hfull⟩

/-- A demand that is not fixed crowds the empty ones behind it, and itself if it is empty. -/
theorem crowded_cons_none : Crowded next ((name, ⟨size, none⟩) :: demands) ↔
    next = addressSpace ∧ size = 0 ∨ Crowded (next + size) demands := by
  constructor
  · rintro ⟨before, name', after, hsplit, hfull⟩
    cases before with
    | nil =>
      cases hsplit
      exact .inl ⟨hfull, rfl⟩
    | cons e before =>
      obtain ⟨rfl, rfl⟩ := List.cons.inj hsplit
      rw [looseSize_cons_none, ← Nat.add_assoc] at hfull
      exact .inr ⟨before, name', after, rfl, hfull⟩
  · rintro (⟨hfull, rfl⟩ | ⟨before, name', after, rfl, hfull⟩)
    · exact ⟨[], name, demands, rfl, hfull⟩
    · refine ⟨(name, ⟨size, none⟩) :: before, name', after, rfl, ?_⟩
      rw [looseSize_cons_none, ← Nat.add_assoc]
      exact hfull

/-- What a demand that is not fixed is given, if the rest can be. -/
theorem packedRanges_cons_none :
    packedRanges next ((name, ⟨size, none⟩) :: demands) = .ok rs ↔
      next + size ≤ addressSpace ∧ ¬ (next = addressSpace ∧ size = 0) ∧
        ∃ rest, packedRanges (next + size) demands = .ok rest ∧
          rs = (name, ⟨next, next + size⟩) :: rest := by
  rw [packedRanges, if_neg (by simp)]
  by_cases hfull : next + size > addressSpace ∨ next = addressSpace ∧ size = 0
  · rw [if_pos (by simpa using hfull)]
    constructor
    · intro h
      cases h
    · rintro ⟨hroom, hspace, -⟩
      rcases hfull with hfull | hfull
      · omega
      · exact absurd hfull hspace
  · rw [if_neg (by simpa using hfull)]
    obtain ⟨hroom, hspace⟩ := not_or.mp hfull
    cases packedRanges (next + size) demands with
    | error e => simp
    | ok rest =>
      simp only [Except.ok.injEq, exists_eq_left']
      constructor
      · rintro rfl
        exact ⟨Nat.le_of_not_lt hroom, hspace, rfl⟩
      · rintro ⟨-, -, rfl⟩
        rfl

/-- **The other demands are met** just if they fit, and no empty one comes when all is used up. -/
theorem exists_packedRanges_iff (hnext : next ≤ addressSpace) :
    (∃ rs, packedRanges next demands = .ok rs) ↔
      next + looseSize demands ≤ addressSpace ∧ ¬ Crowded next demands := by
  induction demands generalizing next with
  | nil =>
    have hempty : ¬ Crowded next [] := by
      rintro ⟨before, name, after, hsplit, -⟩
      simp at hsplit
    exact ⟨fun _ => ⟨hnext, hempty⟩, fun _ => ⟨[], rfl⟩⟩
  | cons e demands ih =>
    obtain ⟨name, size, fixed⟩ := e
    cases fixed with
    | some a =>
      rw [crowded_cons_some, looseSize_cons_some]
      exact ih hnext
    | none =>
      simp only [packedRanges_cons_none]
      rw [crowded_cons_none, looseSize_cons_none, not_or, ← Nat.add_assoc]
      constructor
      · rintro ⟨_, hroom, hspace, rest, hrest, -⟩
        obtain ⟨hfits, hfree⟩ := (ih hroom).mp ⟨rest, hrest⟩
        exact ⟨hfits, hspace, hfree⟩
      · rintro ⟨hfits, hspace, hfree⟩
        have hroom : next + size ≤ addressSpace := by omega
        obtain ⟨rest, hrest⟩ := (ih hroom).mpr ⟨hfits, hfree⟩
        exact ⟨_, hroom, hspace, rest, hrest, rfl⟩

/-- A demand that is not fixed starts where the sizes of those before it end. -/
theorem mem_packedRanges
    (h : packedRanges next (before ++ (name, ⟨size, none⟩) :: after) = .ok rs) :
    (name, ⟨next + looseSize before, next + looseSize before + size⟩) ∈ rs := by
  induction before generalizing next rs with
  | nil =>
    obtain ⟨-, -, rest, -, rfl⟩ := packedRanges_cons_none.mp h
    exact List.mem_cons_self
  | cons e before ih =>
    obtain ⟨name', size', fixed⟩ := e
    cases fixed with
    | some a =>
      rw [looseSize_cons_some]
      exact ih h
    | none =>
      obtain ⟨-, -, rest, hrest, rfl⟩ := packedRanges_cons_none.mp h
      rw [looseSize_cons_none, ← Nat.add_assoc]
      exact List.mem_cons_of_mem _ (ih hrest)

/-- The only complaint about the other demands is that one does not fit. -/
theorem packedRanges_eq_error {e : LinkError} (h : packedRanges next demands = .error e) :
    ∃ name start size, e = .addressOutOfRange name start size := by
  induction demands generalizing next with
  | nil => cases h
  | cons entry demands ih =>
    unfold packedRanges at h
    split at h
    · exact ih h
    · split at h
      · cases h
        exact ⟨_, _, _, rfl⟩
      · split at h
        · rename_i hrest
          cases h
          exact ih hrest
        · cases h

/-! ### Layouts -/

/-- A layout has the fixed ranges, and then the others behind the highest end of one. -/
theorem allocate_eq_ok_iff_ranges {starts : Named UInt16} : allocate demands = .ok starts ↔
    ∃ fixed, fixedRanges [] demands = .ok fixed ∧
      ∃ packed, packedRanges (highestStop fixed) demands = .ok packed ∧
        starts = (fixed ++ packed).map fun r => (r.1, UInt16.ofNat r.2.start) := by
  unfold allocate
  cases fixedRanges [] demands with
  | error e => simp [bind, Except.bind]
  | ok fixed =>
    cases hpack : packedRanges (highestStop fixed) demands with
    | error e => simp [bind, Except.bind, hpack]
    | ok packed => simp [bind, Except.bind, pure, Except.pure, hpack, eq_comm]

theorem highestEnd_le
    (hinside : ∀ name size a, (name, ⟨size, some a⟩) ∈ demands → a.toNat + size ≤ addressSpace) :
    highestEnd demands ≤ addressSpace := by
  unfold highestEnd
  cases hmax : (demands.filterMap fun e => e.2.fixed.map fun a => a.toNat + e.2.size).max? with
  | none => exact Nat.zero_le _
  | some n =>
    obtain ⟨⟨name, size, fixed⟩, he, hn⟩ := List.mem_filterMap.mp (List.max?_mem hmax)
    obtain ⟨a, rfl, rfl⟩ := Option.map_eq_some_iff.mp hn
    exact hinside name size a he

/-- **Demands have a layout just if they can be met.** -/
theorem exists_allocate_iff : (∃ starts, allocate demands = .ok starts) ↔ Allocatable demands := by
  simp only [allocate_eq_ok_iff_ranges, fixedRanges_eq_ok_iff_takes]
  constructor
  · rintro ⟨_, _, ⟨rfl, hinside, hapart⟩, packed, hpack, -⟩
    rw [highestStop_asked] at hpack
    obtain ⟨hroom, hfree⟩ := (exists_packedRanges_iff (highestEnd_le hinside)).mp ⟨packed, hpack⟩
    exact ⟨hinside, hapart, hroom, hfree⟩
  · rintro ⟨hinside, hapart, hroom, hfree⟩
    obtain ⟨packed, hpack⟩ :=
      (exists_packedRanges_iff (highestEnd_le hinside)).mpr ⟨hroom, hfree⟩
    rw [← highestStop_asked] at hpack
    exact ⟨_, _, ⟨rfl, hinside, hapart⟩, packed, hpack, rfl⟩

/-- **A layout puts demands** where they ask to be, or else one after the other. -/
theorem laidOut_of_allocate (hnames : (demands.map Prod.fst).Nodup) {starts : Named UInt16}
    (h : allocate demands = .ok starts) : LaidOut demands starts := by
  obtain ⟨rs, hrs, hperm, -, -⟩ := allocate_eq_ok h
  have hstarts : (starts.map Prod.fst).Perm (demands.map Prod.fst) := by
    rw [hrs, List.map_map]
    exact hperm
  have hlookup : ∀ e ∈ starts, starts.lookup e.1 = some e.2 :=
    fun e he => lookup_of_mem (hstarts.nodup_iff.mpr hnames) he
  have hstart : ∀ name d, (name, d) ∈ demands → ∃ start, starts.lookup name = some start ∧
      start.toNat + d.size ≤ addressSpace := by
    intro name d hd
    obtain ⟨⟨_, start⟩, he, rfl⟩ :=
      List.mem_map.mp (hstarts.mem_iff.mpr (List.mem_map_of_mem (f := Prod.fst) hd))
    have hfits := start_of_allocate h hnames hd
    rw [hlookup _ he] at hfits
    exact ⟨start, hlookup _ he, hfits⟩
  obtain ⟨fixed, hfixed, packed, hpack, hboth⟩ := allocate_eq_ok_iff_ranges.mp h
  obtain ⟨rfl, -, -⟩ := fixedRanges_eq_ok_iff_takes.mp hfixed
  rw [highestStop_asked] at hpack
  have hmem : ∀ r ∈ asked (fixedOnes demands) ++ packed,
      starts.lookup r.1 = some (UInt16.ofNat r.2.start) := by
    intro r hr
    refine hlookup (r.1, UInt16.ofNat r.2.start) ?_
    rw [hboth]
    exact List.mem_map_of_mem (f := fun r : String × Range => (r.1, UInt16.ofNat r.2.start)) hr
  refine ⟨hstarts, ?_, ?_, hstart, ?_⟩
  · intro name size a he
    have hasked : (name, Demand.range ⟨size, some a⟩) ∈ asked (fixedOnes demands) :=
      List.mem_map_of_mem (f := fun e : String × Demand => (e.1, e.2.range)) (mem_fixedOnes.mpr he)
    rw [hmem _ (List.mem_append_left _ hasked)]
    exact congrArg some UInt16.ofNat_toNat
  · rintro before name size after rfl
    have hrange := mem_packedRanges hpack
    obtain ⟨-, -, -, hfills⟩ := packedRanges_eq_ok hpack
    obtain ⟨d, -, hf⟩ := hfills _ hrange
    refine ⟨_, hmem _ (List.mem_append_right _ hrange), ?_⟩
    have hlt := hf.start
    unfold addressSpace at hlt
    rw [UInt16.toNat_ofNat', Nat.mod_eq_of_lt hlt]
  · intro name d name' d' start start' hd hd' hne hs hs' i hi j hj
    have hclear := apart_of_allocate h hnames hd hd' hne hi hj
    rw [hs, hs'] at hclear
    exact hclear

/-- **A layout that fails** names an item that does not fit, or two fixed ones that share an address. -/
theorem allocate_eq_error {e : LinkError} (h : allocate demands = .error e) :
    (∃ name start size, e = .addressOutOfRange name start size) ∨
    ∃ front first d between second d' after x,
      demands = front ++ (first, d) :: between ++ (second, d') :: after ∧
      e = .overlappingSections first second ∧ d.Takes x ∧ d'.Takes x := by
  unfold allocate at h
  cases hfixed : fixedRanges [] demands with
  | error e' =>
    rw [hfixed] at h
    cases h
    have hstart : fixedRanges (asked (fixedOnes [])) demands = .error e := hfixed
    exact fixedRanges_eq_error hstart
  | ok fixed =>
    cases hpack : packedRanges (highestStop fixed) demands with
    | error e' =>
      simp only [hfixed, hpack, bind, Except.bind] at h
      cases h
      exact .inl (packedRanges_eq_error hpack)
    | ok packed =>
      simp only [hfixed, hpack, bind, Except.bind] at h
      cases h

/-- **Laying out is sound and complete.** Demands under distinct names have a layout just if they can
be met; a layout puts them where they ask to be or else one after the other; and two of them are blamed
for an overlap only if both are fixed and share an address. -/
theorem allocate_exactly (demands : Named Demand) (hnames : (demands.map Prod.fst).Nodup) :
    ((∃ starts, allocate demands = .ok starts) ↔ Allocatable demands) ∧
    (∀ starts, allocate demands = .ok starts → LaidOut demands starts) ∧
    ∀ e, allocate demands = .error e →
      (∃ name start size, e = .addressOutOfRange name start size) ∨
      ∃ front first d between second d' after x,
        demands = front ++ (first, d) :: between ++ (second, d') :: after ∧
        e = .overlappingSections first second ∧ d.Takes x ∧ d'.Takes x :=
  ⟨exists_allocate_iff, fun _ => laidOut_of_allocate hnames, fun _ => allocate_eq_error⟩

/-- A fixed section in the middle, and others on both sides of it in the map, one of them empty. -/
def mixedDemands : Named Demand :=
  [("a", ⟨3, none⟩), ("b", ⟨4, some 0x10⟩), ("c", ⟨0, none⟩), ("d", ⟨0xFFE9, none⟩)]

theorem allocate_exactly_mixed : (mixedDemands.map Prod.fst).Nodup ∧
    allocate mixedDemands = .ok [("b", 0x10), ("a", 0x14), ("c", 0x17), ("d", 0x17)] ∧
    Allocatable mixedDemands ∧
    LaidOut mixedDemands [("b", 0x10), ("a", 0x14), ("c", 0x17), ("d", 0x17)] := by
  have hnames : (mixedDemands.map Prod.fst).Nodup := by decide
  have hallocate : allocate mixedDemands =
      .ok [("b", 0x10), ("a", 0x14), ("c", 0x17), ("d", 0x17)] := by rfl
  obtain ⟨hiff, hlaid, -⟩ := allocate_exactly mixedDemands hnames
  exact ⟨hnames, hallocate, hiff.mp ⟨_, hallocate⟩, hlaid _ hallocate⟩

end Sx16
