/-
# Linking modules of which one was changed

The modules before are added to both linkages, then one module to each, and then those behind. So both
linkages stay side by side and are laid out alike, every name has one address in both, and the word
that fills the changed payload is the address of the operand.

Key definitions: `Linkage.addressIn?`, `Linkage.SameAddresses`.
Key theorems: `Linkage.addressIn?_of_reads`, `Linkage.exists_beside_of_run_addAll`,
`Linkage.exists_run_linkAll_relative`.
-/
import Mathlib.Algebra.BigOperators.Group.List.Basic
import Sx16.Proofs.Link.Contents
import Sx16.Proofs.Relative.Filled

namespace Sx16
namespace Linkage

variable {l l' : Linkage} {places starts : Named UInt16} {c : Change} {k : Nat} {w : UInt16}

/-! ### Linking step by step -/

variable {ms : List ObjectModule} {image : Image}

/-- Linking adds all modules, resolves all names, lays out and relocates. -/
theorem exists_of_run_linkAll (h : (linkAll ms places).run {} = .ok image l') :
    ∃ l starts, (addAll ms).run {} = .ok () l ∧ l.checkResolved = .ok () ∧
      allocate (l.parts.demands places) = .ok starts ∧
      relocate.run (l.placed places starts) = .ok image l' := by
  obtain ⟨⟨⟩, l, hadd, h⟩ := ok_of_run_bind h
  obtain ⟨l1, l2, hget, h⟩ := ok_of_run_bind h
  cases hget
  cases hres : l.checkResolved with
  | error e =>
    simp only [hres] at h
    cases h
  | ok u =>
    simp only [hres] at h
    obtain ⟨unused, l4, hplace, h⟩ := ok_of_run_bind h
    rw [run_place] at hplace
    cases hstarts : allocate (l.parts.demands places) with
    | error e =>
      rw [hstarts] at hplace
      cases hplace
    | ok starts =>
      rw [hstarts] at hplace
      cases hplace
      exact ⟨l, starts, hadd, hres, hstarts, h⟩

theorem run_linkAll (hadd : (addAll ms).run {} = .ok () l) (hres : l.checkResolved = .ok ())
    (hstarts : allocate (l.parts.demands places) = .ok starts) :
    (linkAll ms places).run {} = relocate.run (l.placed places starts) := by
  unfold linkAll
  rw [EStateM.run_bind, hadd]
  simp only
  rw [EStateM.run_bind, EStateM.run_get]
  simp only
  rw [hres]
  simp only
  rw [EStateM.run_bind, run_place, hstarts]

/-! ### Addresses -/

/-- The address of a name in the module at a position: of a section, where the module's part of it
starts; of a shared label, the one that all modules have; of any other label, its offset behind the
start of its section's part. -/
def addressIn? (l : Linkage) (ms : List ObjectModule) (j : Nat) (name : String) : Option UInt16 := do
  let t ← (ms[j]?).map ObjectModule.symbols
  let s ← t.get? name
  if s.isSection then
    return l.startOf name + UInt16.ofNat (fragmentBase ms j name)
  else if s.isLocal then
    let home ← (t.byNumber? s.owner).map Symbol.name
    return l.startOf home + UInt16.ofNat (fragmentBase ms j home) + s.value
  else (l.symbol? name).map LinkSymbol.value

theorem fragmentBase_eq_sum (ms : List ObjectModule) (j : Nat) (name : String) :
    fragmentBase ms j name = ((ms.map fun m => sizeIn m.sections name).take j).sum := by
  rw [← List.map_take]
  rfl

theorem fragmentBase_length (before after : List ObjectModule) (name : String) :
    fragmentBase (before ++ after) before.length name =
      (before.map fun m => sizeIn m.sections name).sum := by
  rw [fragmentBase_eq_sum, List.map_append, List.take_left' (List.length_map _)]

/-- The kind of a symbol after layout and relocation. -/
theorem exists_symbol?_located {name : String} {b : Bool} (h : l.kind? name = some b) :
    ∃ s, (l.located places starts).symbol? name = some s ∧ s.isSection = b ∧ s.name = name := by
  obtain ⟨k, hk, rfl⟩ := Option.map_eq_some_iff.mp h
  refine ⟨k.located (l.placed places starts).startOf, ?_, ?_, ?_⟩
  · unfold located
    rw [symbol?_moveLabels, show (l.placed places starts).symbols = l.symbols from rfl, hk]
    rfl
  · unfold LinkSymbol.located
    split <;> rfl
  · rw [LinkSymbol.name_located, key_of_entryOf hk]

/-- No module has a section of the reserved name, so nothing lies in front of one. -/
theorem fragmentBase_reserved {ms : List ObjectModule} (hms : ∀ m ∈ ms, m.Neat) (j : Nat) :
    fragmentBase ms j Symbol.undefinedName = 0 := by
  rw [fragmentBase_eq_sum]
  refine List.sum_eq_zero fun n hn => ?_
  obtain ⟨m, hm, rfl⟩ := List.mem_map.mp (List.mem_of_mem_take hn)
  exact sizeIn_eq_zero (hms m hm).reserved

/-- **What a filled placeholder holds** is the address of its name. -/
theorem addressIn?_of_reads {before after : List ObjectModule} {m : ObjectModule} {l0 : Linkage}
    {x y : String} (hms : ∀ m' ∈ before ++ m :: after, m'.Neat) (hd : m.symbols.Distinct)
    (hx : m.Reads x y w) (hsizes : ∀ name, sizeIn l0.parts.pieces name =
      fragmentBase (before ++ m :: after) before.length name)
    (hkinds : ∀ s ∈ m.symbols.toList, s.isLocal = false → l.kind? s.name = some s.isSection) :
    ∃ s, (l.located places starts).symbol? y = some s ∧
      (l.located places starts).addressIn? (before ++ m :: after) before.length x =
        some (w + m.rebase (l0.base m) y + (l.located places starts).target s) := by
  have hm : (before ++ m :: after)[before.length]? = some m := by simp
  have hbase : ∀ {name}, name ∈ m.sections.map SectionData.name →
      l0.base m name = UInt16.ofNat (fragmentBase (before ++ m :: after) before.length name) := by
    intro name hname
    rw [base_eq l0 hname, ← hsizes]
    rfl
  -- A shared symbol keeps its kind in the linkage.
  have hshared : ∀ {s : Symbol} {name}, m.symbols.get? name = some s → s.isLocal = false →
      ∃ k, (l.located places starts).symbol? name = some k ∧ k.isSection = s.isSection ∧
        k.name = name := by
    intro s name hs hlocal
    obtain ⟨hmem, hname⟩ := hd.get?_eq_some_iff.mp hs
    have hkind := hkinds s hmem hlocal
    rw [hname] at hkind
    exact exists_symbol?_located hkind
  unfold addressIn?
  rw [hm]
  cases hx with
  | @shared s hs hlocal harea =>
    obtain ⟨k, hk, hkind, hkname⟩ := hshared hs hlocal
    refine ⟨k, hk, ?_⟩
    have hrebase : m.rebase (l0.base m) x = if s.isSection then l0.base m x else 0 := by
      rw [ObjectModule.rebase, hs]
      rfl
    simp only [Option.map_some, Option.bind_eq_bind, Option.bind_some, hs]
    rw [hrebase, target, hkind, hkname, hk]
    cases hsec : s.isSection with
    | true =>
      have hfront : l0.base m x =
          UInt16.ofNat (fragmentBase (before ++ m :: after) before.length x) := by
        rcases harea hsec with rfl | hin
        · rw [fragmentBase_reserved hms]
          exact base_eq_zero l0 (hms m (List.mem_append_right _ List.mem_cons_self)).reserved
        · exact hbase hin
      rw [if_pos rfl, if_pos rfl, if_pos rfl, hfront, UInt16.zero_add, UInt16.add_comm]
      rfl
    | false =>
      simp [hlocal]
  | @label s o hs hlocal hkind howner hhome hshared' harea hown =>
    obtain ⟨k, hk, hksec, hkname⟩ := hshared hhome hshared'
    refine ⟨k, hk, ?_⟩
    have hrebase : m.rebase (l0.base m) o.name =
        UInt16.ofNat (fragmentBase (before ++ m :: after) before.length o.name) := by
      rw [ObjectModule.rebase, hhome, Option.any_some, if_pos harea, hbase hown]
    simp only [Option.map_some, Option.bind_eq_bind, Option.bind_some, hs, howner, hkind, hlocal]
    rw [hrebase, target, hksec, harea, hkname]
    simp only [if_pos, Bool.false_eq_true, if_false]
    refine congrArg some ?_
    rw [UInt16.add_comm _ s.value, UInt16.add_assoc, UInt16.add_comm (startOf _ _)]

/-! ### Linking both lists of modules -/

theorem run_addAll_append (ms ms' : List ObjectModule) (l : Linkage) :
    (addAll (ms ++ ms')).run l =
      match (addAll ms).run l with
      | .ok _ l1 => (addAll ms').run l1
      | .error e l1 => .error e l1 := by
  induction ms generalizing l with
  | nil => rfl
  | cons m ms ih =>
    rw [List.cons_append, addAll, addAll, EStateM.run_bind, EStateM.run_bind]
    cases (add m).run l with
    | error e l1 => rfl
    | ok u l1 => exact ih l1

/-- The last of some modules is added to what the others gave. -/
theorem run_addAll_concat_eq_ok_iff {ms : List ObjectModule} {m : ObjectModule} {l l' : Linkage} :
    (addAll (ms ++ [m])).run l = .ok () l' ↔
      ∃ l1, (addAll ms).run l = .ok () l1 ∧ (add m).run l1 = .ok () l' := by
  rw [run_addAll_append]
  cases (addAll ms).run l with
  | error e l1 => simp
  | ok u l1 =>
    simp only [EStateM.Result.ok.injEq, true_and, exists_eq_left']
    rw [addAll, EStateM.run_bind]
    cases (add m).run l1 with
    | error e l2 => simp
    | ok u l2 => rfl

/-- Segments have distinct names, as modules are added. -/
theorem nodup_of_run_addAll (hms : ∀ m ∈ ms, m.Neat) (hn : (l.parts.pieces.map SectionData.name).Nodup)
    (h : (addAll ms).run l = .ok () l') : (l'.parts.pieces.map SectionData.name).Nodup := by
  induction ms generalizing l with
  | nil =>
    cases h
    exact hn
  | cons m ms ih =>
    obtain ⟨⟨⟩, l1, hm, hrest⟩ := ok_of_run_bind h
    refine ih (fun m' hm' => hms m' (List.mem_cons_of_mem m hm')) ?_ hrest
    obtain ⟨l0, -, -, hpieces, -⟩ := exists_of_run_add (hms m List.mem_cons_self).nodup hm
    rw [hpieces]
    exact nodup_upsertAll SectionData.join_key hn

/-- Linkages of two lists of modules with one layout and one address for every name. -/
structure SameAddresses (ms ms' : List ObjectModule) (l l' : Linkage) : Prop where
  layout : l'.segments.map Segment.layout = l.segments.map Segment.layout
  addresses : ∀ j name, l'.addressIn? ms' j name = l.addressIn? ms j name

/-- Addresses go by symbols and by the names and sizes of sections. -/
theorem addressIn?_congr {before after : List ObjectModule} {m m' : ObjectModule}
    (hsymbols : m'.symbols = m.symbols) (hsizes : ∀ name, sizeIn m'.sections name = sizeIn m.sections name)
    (hstarts : l'.startOf = l.startOf) (hshared : l'.symbols = l.symbols) (j : Nat) (name : String) :
    l'.addressIn? (before ++ m' :: after) j name = l.addressIn? (before ++ m :: after) j name := by
  have htables : ((before ++ m' :: after)[j]?).map ObjectModule.symbols =
      ((before ++ m :: after)[j]?).map ObjectModule.symbols := by
    rw [← List.getElem?_map, ← List.getElem?_map, List.map_append, List.map_append, List.map_cons,
      List.map_cons, hsymbols]
  have hbase : ∀ home, fragmentBase (before ++ m' :: after) j home =
      fragmentBase (before ++ m :: after) j home := by
    intro home
    rw [fragmentBase_eq_sum, fragmentBase_eq_sum, List.map_append, List.map_append, List.map_cons,
      List.map_cons, hsizes]
  unfold addressIn? symbol?
  rw [htables, hstarts, hshared]
  simp only [hbase]

/-- **Adding both lists of modules**: the modules before are added to both linkages, then one module to
each, and then those behind. In front of the module are the sections of the modules before, and its
shared symbols keep their kinds. -/
theorem exists_beside_of_run_addAll {before after : List ObjectModule} {m m' : ObjectModule}
    (hms : ∀ n ∈ before ++ m :: after, n.Neat) (hsymbols : m'.symbols = m.symbols)
    (hsections : Replaced (SectionData.Changed c 0 k w) m.sections m'.sections)
    (hadd : (addAll (before ++ m :: after)).run {} = .ok () l) (hfit : l.parts.Fits) :
    ∃ l0 l' : Linkage, (addAll (before ++ m' :: after)).run {} = .ok () l' ∧
      (∀ name, sizeIn l0.parts.pieces name =
        fragmentBase (before ++ m :: after) before.length name) ∧
      (∀ s ∈ m.symbols.toList, s.isLocal = false → l.kind? s.name = some s.isSection) ∧
      Beside c (sizeIn l0.parts.pieces c.home + k) (w + m.rebase (l0.base m) c.symbol) l l' := by
  have hbefore := fun n hn => hms n (List.mem_append_left _ hn)
  have hneat := hms m (List.mem_append_right _ List.mem_cons_self)
  have hafter := fun n hn => hms n (List.mem_append_right _ (List.mem_cons_of_mem m hn))
  rw [run_addAll_append] at hadd
  cases hadd0 : (addAll before).run {} with
  | error e l0 =>
    rw [hadd0] at hadd
    cases hadd
  | ok u l0 =>
    rw [hadd0] at hadd
    obtain ⟨⟨⟩, l1, hadd1, hadd2⟩ := ok_of_run_bind hadd
    have hfit1 : l1.parts.Fits := fits_of_run_addAll hafter hadd2 hfit
    have hfit0 : l0.parts.Fits := fits_of_run_addAll (List.forall_mem_singleton.mpr hneat)
      (show (addAll [m]).run l0 = .ok () l1 by rw [addAll, EStateM.run_bind, hadd1]; rfl) hfit1
    have hempty : Packed (Linkage.parts {}).pieces := ⟨List.nodup_nil, fun _ hf => absurd hf List.not_mem_nil⟩
    have hpacked0 : Packed l0.parts.pieces := packed_of_run_addAll hbefore hempty hadd0 hfit0
    have hpacked1 : Packed l1.parts.pieces := packed_of_run_add hneat hpacked0 hadd1 hfit1
    obtain ⟨l1', hadd1', hbeside1⟩ := beside_of_run_add hneat hpacked0 hsymbols hsections hadd1 hfit1
    obtain ⟨l', hadd2', hbeside⟩ := hbeside1.run_addAll hafter hpacked1 hadd2 hfit
    refine ⟨l0, l', ?_, fun name => ?_, fun s hs hlocal => ?_, hbeside⟩
    · rw [run_addAll_append, hadd0]
      simp only
      rw [addAll, EStateM.run_bind, hadd1']
      exact hadd2'
    · rw [sizeIn_of_run_addAll hbefore hadd0, fragmentBase_length]
      exact Nat.zero_add _
    · exact kind?_of_run_addAll hafter hadd2 ((kind?_of_run_add hneat.nodup hadd1).1 s hs hlocal)

/-- **Linking with one module changed**: the other list of modules is linked as well, with the same
addresses, and the images are the same but for the instruction. -/
theorem exists_run_linkAll_relative {before after : List ObjectModule} {m m' : ObjectModule} {x : String}
    (hms : ∀ n ∈ before ++ m :: after, n.Neat) (hd : m.symbols.Distinct)
    (hsymbols : m'.symbols = m.symbols)
    (hsections : Replaced (SectionData.Changed c 0 k w) m.sections m'.sections)
    (hx : m.Reads x c.symbol w)
    (h : (linkAll (before ++ m :: after) places).run {} = .ok image l') :
    ∃ image' l'' t, (linkAll (before ++ m' :: after) places).run {} = .ok image' l'' ∧
      SameAddresses (before ++ m :: after) (before ++ m' :: after) l' l'' ∧
      l'.addressIn? (before ++ m :: after) before.length x = some t ∧
      let a := l'.startOf c.home +
        UInt16.ofNat (fragmentBase (before ++ m :: after) before.length c.home + k)
      Image.ChangedAt a (c.head ++ Word.bytes t) (c.head' ++ Word.bytes (t - (a + 5))) image image' := by
  obtain ⟨l1, starts, hadd, hres, hstarts, hrel⟩ := exists_of_run_linkAll h
  have hn : (l1.parts.pieces.map SectionData.name).Nodup :=
    nodup_of_run_addAll (l := {}) hms List.nodup_nil hadd
  have hfit : l1.parts.Fits := Parts.fits_of_allocate hn hstarts
  obtain ⟨l0, l1', hadd', hsizes, hkinds, hbeside⟩ :=
    exists_beside_of_run_addAll hms hsymbols hsections hadd hfit
  -- What is checked and laid out goes by the symbols and by the names and sizes of segments.
  have hres' : l1'.checkResolved = .ok () := by
    unfold checkResolved at hres ⊢
    rw [hbeside.symbols]
    exact hres
  have hstarts' : allocate (l1'.parts.demands places) = .ok starts := by
    rw [hbeside.demands]
    exact hstarts
  have hn' : (l1'.parts.pieces.map SectionData.name).Nodup := by
    rw [hbeside.names]
    exact hn
  rw [run_relocate_blocks hn hstarts] at hrel
  cases hrel
  have hrel' := run_relocate_blocks hn' hstarts'
  obtain ⟨s, hs, haddress⟩ := addressIn?_of_reads hms hd hx hsizes hkinds
  refine ⟨_, _, _, (run_linkAll hadd' hres' hstarts').trans hrel', ⟨hbeside.layout, ?_⟩, haddress, ?_⟩
  · exact addressIn?_congr hsymbols hsections.sizeIn_eq hbeside.startOf_located hbeside.symbols_located
  · have hhome : c.home ∈ l1.parts.pieces.map SectionData.name := by
      obtain ⟨f, hf, f', -, hchanged⟩ := hbeside.pieces.exists_mem
      rw [← hchanged.name]
      exact List.mem_map_of_mem hf
    have hstart : (l1.located places starts).startOf c.home = startIn starts c.home :=
      startOf_placed hhome
    rw [← hsizes]
    exact hbeside.changedAt hn hstarts hs (by rw [hstart]) rfl

end Linkage
end Sx16
