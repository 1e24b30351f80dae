/-
# Sections are laid out apart

A layout that succeeds gives every demand a range of its size below the end of the address space, and
no two ranges share an address: fixed ranges were checked against each other, and the others follow
the highest end of a fixed one, each behind the one before.

Key definitions: `Range.Fills`, `Clear`, `asked`.
Key theorems: `allocate_eq_ok_iff_of_fixed`, `start_of_allocate`, `apart_of_allocate`.
-/
import Mathlib.Data.List.Nodup
import Mathlib.Data.List.Pairwise
import Sx16.Link.Layout

namespace Sx16

/-- A range of the size of a demand, inside the address space. -/
structure Range.Fills (r : Range) (d : Demand) : Prop where
  stop : r.stop = r.start + d.size
  inside : r.stop ≤ addressSpace
  start : r.start < addressSpace

/-- Two named ranges that share no address. -/
def Clear (r s : String × Range) : Prop := r.2.overlaps s.2 = false

variable {demands : Named Demand} {taken rs : Named Range} {next : Nat}

theorem clear_of_le {r s : String × Range} (h : r.2.stop ≤ s.2.start) : Clear r s := by
  unfold Clear Range.overlaps
  have : ¬ s.2.start < r.2.stop := by omega
  simp [this]

theorem Clear.ne {r s : String × Range} (h : Clear r s) {i j : Nat} (hi : r.2.start + i < r.2.stop)
    (hj : s.2.start + j < s.2.stop) : r.2.start + i ≠ s.2.start + j := by
  unfold Clear Range.overlaps at h
  simp only [Bool.and_eq_false_iff, decide_eq_false_iff_not] at h
  omega

theorem Clear.symm {r s : String × Range} (h : Clear r s) : Clear s r := by
  unfold Clear Range.overlaps at h ⊢
  simp only [Bool.and_eq_false_iff, decide_eq_false_iff_not] at h ⊢
  omega

instance : Std.Symm Clear := ⟨fun _ _ => Clear.symm⟩

theorem exists_fills_cons {r : String × Range} (h : ∃ d, (r.1, d) ∈ demands ∧ r.2.Fills d)
    (e : String × Demand) : ∃ d, (r.1, d) ∈ e :: demands ∧ r.2.Fills d := by
  obtain ⟨d, hd, hf⟩ := h
  exact ⟨d, List.mem_cons_of_mem e hd, hf⟩

/-! ### Fixed ranges -/

theorem pairwise_clear_concat {range : Range} (ht : taken.Pairwise Clear)
    (hfind : (taken.find? fun t => range.overlaps t.2) = none) (name : String) :
    (taken ++ [(name, range)]).Pairwise Clear := by
  refine List.pairwise_append.mpr ⟨ht, List.pairwise_singleton _ _, fun t hmem r hr => ?_⟩
  have hno := List.find?_eq_none.mp hfind t hmem
  rw [Bool.not_eq_true] at hno
  rw [List.mem_singleton.mp hr]
  exact Clear.symm (r := (name, range)) hno

/-- Fixed ranges are checked against all before them. -/
theorem fixedRanges_eq_ok (h : fixedRanges taken demands = .ok rs) (ht : taken.Pairwise Clear) :
    rs.Pairwise Clear ∧ ∃ new, rs = taken ++ new ∧
      new.map Prod.fst = (demands.filter fun e => e.2.fixed.isSome).map Prod.fst ∧
      ∀ r ∈ new, ∃ d, (r.1, d) ∈ demands ∧ r.2.Fills d := by
  induction demands generalizing taken with
  | nil =>
    cases h
    exact ⟨ht, [], (List.append_nil _).symm, rfl, fun _ hr => (nomatch hr)⟩
  | cons e demands ih =>
    obtain ⟨name, d⟩ := e
    unfold fixedRanges at h
    cases hfix : d.fixed with
    | none =>
      rw [hfix] at h
      obtain ⟨hclear, new, hrs, hnames, hfills⟩ := ih h ht
      refine ⟨hclear, new, hrs, ?_, fun r hr => exists_fills_cons (hfills r hr) _⟩
      rw [hnames, List.filter_cons, hfix]
      rfl
    | some a =>
      simp only [hfix] at h
      split at h
      · cases h
      · rename_i hstop
        split at h
        · cases h
        · rename_i hfind
          have ht' := pairwise_clear_concat ht hfind name
          obtain ⟨hclear, new, hrs, hnames, hfills⟩ := ih h ht'
          refine ⟨hclear, (name, ⟨a.toNat, a.toNat + d.size⟩) :: new, ?_, ?_, fun r hr => ?_⟩
          · rw [hrs, List.append_assoc]
            rfl
          · rw [List.map_cons, hnames, List.filter_cons, hfix]
            rfl
          · rcases List.mem_cons.mp hr with rfl | hr
            · refine ⟨d, List.mem_cons_self, rfl, Nat.le_of_not_lt hstop, ?_⟩
              exact a.toNat_lt
            · exact exists_fills_cons (hfills r hr) _

/-! ### The other ranges -/

/-- The other ranges follow each other. -/
theorem packedRanges_eq_ok (h : packedRanges next demands = .ok rs) :
    rs.Pairwise (fun r s => r.2.stop ≤ s.2.start) ∧ (∀ r ∈ rs, next ≤ r.2.start) ∧
      rs.map Prod.fst = (demands.filter fun e => !e.2.fixed.isSome).map Prod.fst ∧
      ∀ r ∈ rs, ∃ d, (r.1, d) ∈ demands ∧ r.2.Fills d := by
  induction demands generalizing next rs with
  | nil =>
    cases h
    exact ⟨List.Pairwise.nil, fun _ hr => (nomatch hr), rfl, fun _ hr => (nomatch hr)⟩
  | cons e demands ih =>
    obtain ⟨name, d⟩ := e
    unfold packedRanges at h
    split at h
    · rename_i hfix
      obtain ⟨hpair, hnext, hnames, hfills⟩ := ih h
      refine ⟨hpair, hnext, ?_, fun r hr => exists_fills_cons (hfills r hr) _⟩
      rw [hnames, List.filter_cons, hfix]
      rfl
    · rename_i hfix
      split at h
      · cases h
      · rename_i hroom
        cases hrest : packedRanges (next + d.size) demands with
        | error e =>
          rw [hrest] at h
          cases h
        | ok rest =>
          rw [hrest] at h
          cases h
          obtain ⟨hpair, hnext, hnames, hfills⟩ := ih hrest
          simp only [Bool.or_eq_true, Bool.and_eq_true, beq_iff_eq, decide_eq_true_eq, not_or,
            not_and] at hroom
          refine ⟨List.pairwise_cons.mpr ⟨hnext, hpair⟩, ?_, ?_, ?_⟩
          · intro r hr
            rcases List.mem_cons.mp hr with rfl | hr
            · exact Nat.le_refl _
            · exact Nat.le_trans (Nat.le_add_right _ _) (hnext r hr)
          · rw [Bool.not_eq_true] at hfix
            rw [List.map_cons, hnames, List.filter_cons, hfix]
            rfl
          · intro r hr
            rcases List.mem_cons.mp hr with rfl | hr
            · refine ⟨d, List.mem_cons_self, rfl, ?_, ?_⟩
              · exact Nat.le_of_not_lt hroom.1
              · change next < addressSpace
                omega
            · exact exists_fills_cons (hfills r hr) _

theorem stop_le_highestStop {r : String × Range} (hr : r ∈ rs) : r.2.stop ≤ highestStop rs := by
  have hgrow : ∀ (rs : Named Range) (n : Nat), n ≤ rs.foldl (fun n r => max n r.2.stop) n := by
    intro rs
    induction rs with
    | nil => intro n; exact Nat.le_refl n
    | cons s rs ih => intro n; exact Nat.le_trans (Nat.le_max_left _ _) (ih _)
  have hmem : ∀ n, r.2.stop ≤ rs.foldl (fun n r => max n r.2.stop) n := by
    induction rs with
    | nil => cases hr
    | cons s rs ih =>
      intro n
      rcases List.mem_cons.mp hr with rfl | hr
      · exact Nat.le_trans (Nat.le_max_right _ _) (hgrow rs _)
      · exact ih hr _
  exact hmem 0

/-! ### Demands that are all fixed -/

/-- The range that a fixed demand asks for. -/
def Demand.range (d : Demand) : Range :=
  ⟨(d.fixed.getD 0).toNat, (d.fixed.getD 0).toNat + d.size⟩

/-- The named ranges that fixed demands ask for. -/
def asked (demands : Named Demand) : Named Range := demands.map fun e => (e.1, e.2.range)

/-- Fixed demands are met if their ranges are inside and share no address, also with those taken. -/
theorem fixedRanges_eq_ok_iff (hfixed : ∀ e ∈ demands, e.2.fixed.isSome) (ht : taken.Pairwise Clear) :
    fixedRanges taken demands = .ok rs ↔ rs = taken ++ asked demands ∧
      (∀ e ∈ demands, e.2.range.stop ≤ addressSpace) ∧ rs.Pairwise Clear := by
  induction demands generalizing taken with
  | nil =>
    have hsame : taken ++ asked [] = taken := List.append_nil taken
    rw [fixedRanges, Except.ok.injEq, hsame]
    constructor
    · rintro rfl
      exact ⟨rfl, nofun, ht⟩
    · rintro ⟨rfl, -, -⟩
      rfl
  | cons e demands ih =>
    obtain ⟨name, size, fixed⟩ := e
    obtain ⟨hfirst, hrest⟩ := List.forall_mem_cons.mp hfixed
    obtain ⟨a, rfl⟩ := Option.isSome_iff_exists.mp hfirst
    have hsplit : taken ++ asked ((name, ⟨size, some a⟩) :: demands) =
        taken ++ [(name, ⟨a.toNat, a.toNat + size⟩)] ++ asked demands := by
      rw [List.append_assoc]
      rfl
    rw [hsplit, List.forall_mem_cons]
    change (if a.toNat + size > addressSpace then _ else _) = _ ↔
      _ ∧ (a.toNat + size ≤ addressSpace ∧ _) ∧ _
    by_cases hstop : a.toNat + size > addressSpace
    · rw [if_pos hstop]
      exact ⟨nofun, fun h => absurd h.2.1.1 (Nat.not_le.mpr hstop)⟩
    · rw [if_neg hstop]
      cases hfind : taken.find? fun t => Range.overlaps ⟨a.toNat, a.toNat + size⟩ t.2 with
      | some t =>
        refine ⟨nofun, fun h => ?_⟩
        have hmem := List.mem_of_find?_eq_some hfind
        have hoverlap := List.find?_some hfind
        obtain ⟨rfl, -, hclear⟩ := h
        have hapart : Clear t (name, ⟨a.toNat, a.toNat + size⟩) :=
          (List.pairwise_append.mp (List.pairwise_append.mp hclear).1).2.2 t hmem _ List.mem_cons_self
        rw [hapart.symm] at hoverlap
        cases hoverlap
      | none =>
        rw [and_iff_right (Nat.le_of_not_lt hstop)]
        exact ih hrest (pairwise_clear_concat ht hfind name)

theorem packedRanges_of_fixed (hfixed : ∀ e ∈ demands, e.2.fixed.isSome) (next : Nat) :
    packedRanges next demands = .ok [] := by
  induction demands with
  | nil => rfl
  | cons e demands ih =>
    obtain ⟨hfirst, hrest⟩ := List.forall_mem_cons.mp hfixed
    rw [packedRanges, if_pos hfirst]
    exact ih hrest

/-- **A layout of fixed demands** has each where it asks to be, and there is one just if their ranges
are inside and share no address. -/
theorem allocate_eq_ok_iff_of_fixed (hfixed : ∀ e ∈ demands, e.2.fixed.isSome)
    {starts : Named UInt16} : allocate demands = .ok starts ↔
      starts = demands.map (fun e => (e.1, e.2.fixed.getD 0)) ∧
        (∀ e ∈ demands, e.2.range.stop ≤ addressSpace) ∧ (asked demands).Pairwise Clear := by
  have hstarts : (asked demands).map (fun r => (r.1, UInt16.ofNat r.2.start)) =
      demands.map fun e => (e.1, e.2.fixed.getD 0) := by
    rw [asked, List.map_map]
    refine List.map_congr_left fun e _ => ?_
    exact congrArg (Prod.mk e.1) UInt16.ofNat_toNat
  have hranges : ∀ rs, fixedRanges [] demands = .ok rs ↔ rs = [] ++ asked demands ∧
      (∀ e ∈ demands, e.2.range.stop ≤ addressSpace) ∧ rs.Pairwise Clear :=
    fun _ => fixedRanges_eq_ok_iff hfixed List.Pairwise.nil
  unfold allocate
  cases hfix : fixedRanges [] demands with
  | error e =>
    refine ⟨nofun, fun h => ?_⟩
    rw [(hranges _).mpr ⟨rfl, h.2⟩] at hfix
    cases hfix
  | ok fixed =>
    obtain ⟨rfl, hmet⟩ := (hranges fixed).mp hfix
    rw [List.nil_append] at hmet ⊢
    simp only [packedRanges_of_fixed hfixed, bind, Except.bind, pure, Except.pure, List.append_nil,
      Except.ok.injEq, hstarts]
    rw [and_iff_left hmet]
    exact eq_comm

theorem allocate_of_perm {demands' : Named Demand} (hfixed : ∀ e ∈ demands, e.2.fixed.isSome)
    (hp : demands.Perm demands') {starts : Named UInt16} (h : allocate demands = .ok starts) :
    allocate demands' = .ok (demands'.map fun e => (e.1, e.2.fixed.getD 0)) := by
  obtain ⟨-, hinside, hclear⟩ := (allocate_eq_ok_iff_of_fixed hfixed).mp h
  refine (allocate_eq_ok_iff_of_fixed fun e he => hfixed e (hp.mem_iff.mpr he)).mpr ⟨rfl, ?_, ?_⟩
  · exact fun e he => hinside e (hp.mem_iff.mpr he)
  · exact (hp.map _).pairwise hclear Clear.symm

/-! ### All ranges -/

/-- **A layout** has a range for every demand, and its ranges are clear of each other. -/
theorem allocate_eq_ok {starts : Named UInt16} (h : allocate demands = .ok starts) :
    ∃ rs : Named Range, starts = rs.map (fun r => (r.1, UInt16.ofNat r.2.start)) ∧
      (rs.map Prod.fst).Perm (demands.map Prod.fst) ∧ rs.Pairwise Clear ∧
      ∀ r ∈ rs, ∃ d, (r.1, d) ∈ demands ∧ r.2.Fills d := by
  unfold allocate at h
  cases hfix : fixedRanges [] demands with
  | error e =>
    rw [hfix] at h
    cases h
  | ok fixed =>
    cases hpack : packedRanges (highestStop fixed) demands with
    | error e =>
      simp only [hfix, hpack, bind, Except.bind] at h
      cases h
    | ok packed =>
      simp only [hfix, hpack, bind, Except.bind] at h
      cases h
      obtain ⟨hclear, new, hnew, hfnames, hffills⟩ := fixedRanges_eq_ok hfix List.Pairwise.nil
      obtain ⟨hpair, hnext, hpnames, hpfills⟩ := packedRanges_eq_ok hpack
      rw [List.nil_append] at hnew
      subst hnew
      refine ⟨fixed ++ packed, rfl, ?_, ?_, fun r hr => ?_⟩
      · rw [List.map_append, hfnames, hpnames, ← List.map_append]
        exact (List.filter_append_perm _ _).map _
      · refine List.pairwise_append.mpr ⟨hclear, hpair.imp clear_of_le, fun r hr s hs => ?_⟩
        exact clear_of_le (Nat.le_trans (stop_le_highestStop hr) (hnext s hs))
      · rcases List.mem_append.mp hr with hr | hr
        · exact hffills r hr
        · exact hpfills r hr

theorem lookup_of_mem {α : Type} {xs : Named α} (hn : (xs.map Prod.fst).Nodup) {e : String × α}
    (he : e ∈ xs) : xs.lookup e.1 = some e.2 := by
  induction xs with
  | nil => cases he
  | cons x xs ih =>
    obtain ⟨hx, hxs⟩ := List.nodup_cons.mp hn
    rcases List.mem_cons.mp he with rfl | he
    · exact List.lookup_cons_self
    · have hne : (e.1 == x.1) = false :=
        beq_eq_false_iff_ne.mpr fun heq => hx (heq ▸ List.mem_map_of_mem he)
      rw [List.lookup_cons, hne]
      exact ih hxs he

theorem lookup_eq_of_perm {α : Type} {xs ys : Named α} (hn : (xs.map Prod.fst).Nodup)
    (hp : xs.Perm ys) (name : String) : ys.lookup name = xs.lookup name := by
  by_cases hname : name ∈ xs.map Prod.fst
  · obtain ⟨e, he, rfl⟩ := List.mem_map.mp hname
    rw [lookup_of_mem hn he, lookup_of_mem ((hp.map _).nodup_iff.mp hn) (hp.mem_iff.mp he)]
  · have hnone : ∀ {zs : Named α}, (∀ e, e ∈ zs ↔ e ∈ xs) → zs.lookup name = none := by
      intro zs hzs
      refine List.lookup_eq_none_iff.mpr fun e he => ?_
      have hne : name ≠ e.1 := fun h => hname (h ▸ List.mem_map_of_mem ((hzs e).mp he))
      exact bne_iff_ne.mpr hne
    rw [hnone fun e => Iff.rfl, hnone fun e => hp.mem_iff.symm]

/-- The range of a demand. -/
theorem exists_range (hn : (demands.map Prod.fst).Nodup) {name : String} {d : Demand}
    (hd : (name, d) ∈ demands) (hperm : (rs.map Prod.fst).Perm (demands.map Prod.fst))
    (hfills : ∀ r ∈ rs, ∃ d, (r.1, d) ∈ demands ∧ r.2.Fills d) :
    ∃ r, (name, r) ∈ rs ∧ r.Fills d ∧
      (rs.map fun r => (r.1, UInt16.ofNat r.2.start)).lookup name = some (UInt16.ofNat r.start) := by
  obtain ⟨⟨name', r⟩, hr, hname⟩ :=
    List.mem_map.mp (hperm.mem_iff.mpr (List.mem_map_of_mem (f := Prod.fst) hd))
  cases hname
  obtain ⟨d', hd', hf⟩ := hfills _ hr
  obtain rfl : d' = d := congrArg Prod.snd (List.inj_on_of_nodup_map hn hd' hd rfl)
  refine ⟨r, hr, hf, ?_⟩
  have hnodup : ((rs.map fun r => (r.1, UInt16.ofNat r.2.start)).map Prod.fst).Nodup := by
    rw [List.map_map]
    exact hperm.nodup_iff.mpr hn
  exact lookup_of_mem hnodup (List.mem_map_of_mem (f := fun r => (r.1, UInt16.ofNat r.2.start)) hr)

/-- **Every demand has a start**, and ends inside the address space. -/
theorem start_of_allocate {starts : Named UInt16} (h : allocate demands = .ok starts)
    (hn : (demands.map Prod.fst).Nodup) {name : String} {d : Demand} (hd : (name, d) ∈ demands) :
    ((starts.lookup name).getD 0).toNat + d.size ≤ addressSpace := by
  obtain ⟨rs, rfl, hperm, -, hfills⟩ := allocate_eq_ok h
  obtain ⟨r, -, hf, hlookup⟩ := exists_range hn hd hperm hfills
  have hlt := hf.start
  unfold addressSpace at hlt
  rw [hlookup, Option.getD_some, UInt16.toNat_ofNat', Nat.mod_eq_of_lt hlt, ← hf.stop]
  exact hf.inside

/-- **No two demands share an address.** -/
theorem apart_of_allocate {starts : Named UInt16} (h : allocate demands = .ok starts)
    (hn : (demands.map Prod.fst).Nodup) {name name' : String} {d d' : Demand}
    (hd : (name, d) ∈ demands) (hd' : (name', d') ∈ demands) (hne : name ≠ name') {i j : Nat}
    (hi : i < d.size) (hj : j < d'.size) :
    ((starts.lookup name).getD 0).toNat + i ≠ ((starts.lookup name').getD 0).toNat + j := by
  obtain ⟨rs, rfl, hperm, hclear, hfills⟩ := allocate_eq_ok h
  obtain ⟨r, hr, hf, hlookup⟩ := exists_range hn hd hperm hfills
  obtain ⟨r', hr', hf', hlookup'⟩ := exists_range hn hd' hperm hfills
  have hlt := hf.start
  have hlt' := hf'.start
  unfold addressSpace at hlt hlt'
  rw [hlookup, hlookup', Option.getD_some, Option.getD_some, UInt16.toNat_ofNat',
    UInt16.toNat_ofNat', Nat.mod_eq_of_lt hlt, Nat.mod_eq_of_lt hlt']
  have hboth : Clear (name, r) (name', r') :=
    hclear.forall hr hr' fun heq => hne (congrArg Prod.fst heq)
  refine hboth.ne ?_ ?_
  · rw [hf.stop]
    exact Nat.add_lt_add_left hi _
  · rw [hf'.stop]
    exact Nat.add_lt_add_left hj _

end Sx16
