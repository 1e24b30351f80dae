/-
# Linking a part of the modules first

Modules that were joined into one module offer their joined parts: its symbols are the sections and
the shared labels, with new numbers, and both stand for what they stood for before. Joining is
associative, so linking some modules first and the result with the others gives what linking all of
them at once gives, and it fails when that fails.

Key definitions: `Linkage.numbered`.
Key theorems: `Linkage.parts_toModule`, `Linkage.proper_toModule`, `Parts.linksTo_append`,
`link_of_linkPartially`.
-/
import Sx16.Link.Partial
import Sx16.Proofs.Assembly.Sound
import Sx16.Proofs.Link.Linked

namespace Sx16

/-! ### Numbered symbols -/

/-- Symbols with distinct names and their positions for numbers. -/
theorem SymbolTable.tidy_of_numbers {ss : List Symbol}
    (hnum : ss.map Symbol.number = List.range ss.length) (hn : (ss.map Symbol.name).Nodup) :
    (SymbolTable.mk ss.toArray).Tidy where
  number := by
    intro i s hs
    have hget : ss[i]? = some s := by simpa [byId?] using hs
    have hlt : i < ss.length := (List.getElem?_eq_some_iff.mp hget).1
    have hnumber : (ss.map Symbol.number)[i]? = some s.number := by rw [List.getElem?_map, hget]; rfl
    rw [hnum, List.getElem?_range hlt] at hnumber
    exact (Option.some.inj hnumber).symm
  inj := by
    refine (distinct_of_nodup (t := .mk ss.toArray) ?_).inj
    rwa [toList, List.toList_toArray]

namespace Linkage

variable {l : Linkage} {s : Symbol} {k : LinkSymbol} {name : String} {i : Nat}

/-- The shared labels in order. -/
def labels (l : Linkage) : List LinkSymbol := l.symbols.filter fun s => !s.isSection

/-- The symbols of the joined module. -/
def numbered (l : Linkage) : List Symbol :=
  Symbol.undefined :: (l.segments.zipIdx 1).map (fun p => sectionSymbol p.1 p.2) ++
    (l.labels.zipIdx (l.segments.length + 1)).map fun p => l.labelSymbol p.1 p.2

theorem symbols_toModule (l : Linkage) : l.toModule.symbols = ⟨l.numbered.toArray⟩ := rfl

theorem map_number_numbered (l : Linkage) :
    l.numbered.map Symbol.number = List.range l.numbered.length := by
  have hsections : (l.segments.zipIdx 1).map (Symbol.number ∘ fun p => sectionSymbol p.1 p.2) =
      List.range' 1 l.segments.length := List.zipIdx_map_snd 1 l.segments
  have hlabels : (l.labels.zipIdx (l.segments.length + 1)).map
      (Symbol.number ∘ fun p => l.labelSymbol p.1 p.2) =
        List.range' (l.segments.length + 1) l.labels.length := List.zipIdx_map_snd _ l.labels
  have hlen : l.numbered.length = 1 + l.segments.length + l.labels.length := by
    simp [numbered]
    omega
  have hfirst : 0 :: List.range' 1 l.segments.length = List.range' 0 (1 + l.segments.length) := by
    rw [Nat.add_comm]
    rfl
  rw [hlen, List.range_eq_range', ← List.range'_append_1, ← hfirst, numbered, List.map_append,
    List.map_cons, List.map_map, List.map_map, hsections, hlabels, Nat.zero_add, Nat.add_comm]
  rfl

theorem map_name_numbered (l : Linkage) : l.numbered.map Symbol.name =
    Symbol.undefinedName :: l.segments.map Segment.name ++ l.labels.map LinkSymbol.name := by
  have hsections : (l.segments.zipIdx 1).map (Symbol.name ∘ fun p => sectionSymbol p.1 p.2) =
      ((l.segments.zipIdx 1).map Prod.fst).map Segment.name := by
    rw [List.map_map]
    rfl
  have hlabels : (l.labels.zipIdx (l.segments.length + 1)).map
      (Symbol.name ∘ fun p => l.labelSymbol p.1 p.2) =
        ((l.labels.zipIdx (l.segments.length + 1)).map Prod.fst).map LinkSymbol.name := by
    rw [List.map_map]
    rfl
  rw [numbered, List.map_append, List.map_cons, List.map_map, List.map_map, hsections, hlabels,
    List.zipIdx_map_fst, List.zipIdx_map_fst]
  rfl

/-- A symbol is the reserved one, that of a section, or that of a label. -/
theorem mem_numbered : s ∈ l.numbered ↔ s = Symbol.undefined ∨
    (∃ i f, l.segments[i]? = some f ∧ s = sectionSymbol f (i + 1)) ∨
    ∃ k ∈ l.labels, ∃ i, s = l.labelSymbol k (l.segments.length + 1 + i) ∧ l.labels[i]? = some k := by
  have hsections : s ∈ (l.segments.zipIdx 1).map (fun p => sectionSymbol p.1 p.2) ↔
      ∃ i f, l.segments[i]? = some f ∧ s = sectionSymbol f (i + 1) := by
    rw [List.mem_map]
    constructor
    · rintro ⟨⟨f, n⟩, hmem, rfl⟩
      obtain ⟨hn, hf⟩ := List.mk_mem_zipIdx_iff_le_and_getElem?_sub.mp hmem
      exact ⟨n - 1, f, hf, by rw [Nat.sub_add_cancel hn]⟩
    · rintro ⟨i, f, hf, rfl⟩
      refine ⟨(f, i + 1), List.mk_mem_zipIdx_iff_le_and_getElem?_sub.mpr ⟨?_, hf⟩, rfl⟩
      exact Nat.le_add_left 1 i
  have hlabels : s ∈ (l.labels.zipIdx (l.segments.length + 1)).map
      (fun p => l.labelSymbol p.1 p.2) ↔
      ∃ k ∈ l.labels, ∃ i, s = l.labelSymbol k (l.segments.length + 1 + i) ∧
        l.labels[i]? = some k := by
    rw [List.mem_map]
    constructor
    · rintro ⟨⟨k, n⟩, hmem, rfl⟩
      obtain ⟨hn, hk⟩ := List.mk_mem_zipIdx_iff_le_and_getElem?_sub.mp hmem
      refine ⟨k, List.mem_of_getElem? hk, n - (l.segments.length + 1), ?_, hk⟩
      rw [Nat.add_sub_of_le hn]
    · rintro ⟨k, -, i, rfl, hk⟩
      refine ⟨(k, l.segments.length + 1 + i),
        List.mk_mem_zipIdx_iff_le_and_getElem?_sub.mpr ⟨Nat.le_add_right _ _, ?_⟩, rfl⟩
      rwa [Nat.add_sub_cancel_left]
  rw [numbered, List.mem_append, List.mem_cons, hsections, hlabels, or_assoc]

/-! ### The joined module -/

theorem names_parts (l : Linkage) :
    l.parts.pieces.map SectionData.name = l.segments.map Segment.name := List.map_map

theorem mem_labels : k ∈ l.labels ↔ k ∈ l.symbols ∧ k.isSection = false := by
  rw [labels, List.mem_filter, Bool.not_eq_true']

theorem roles_of_mem (hl : l.Proper) (hk : k ∈ l.symbols) : l.parts.roles k.name = some k.role := by
  rw [roles_parts, entryOf_of_mem hl.orderly.nodup hk]
  rfl

theorem role_of_mem_labels (hk : k ∈ l.labels) : k.role ≠ .area := by
  unfold LinkSymbol.role
  rw [(mem_labels.mp hk).2]
  cases k.exported <;> simp

/-- The symbols of the joined module are in order if the reserved name was not shared. -/
theorem tidy_toModule (hl : l.Proper) (hfree : l.parts.roles Symbol.undefinedName = none) :
    l.toModule.symbols.Tidy := by
  have hsections : (l.segments.map Segment.name).Nodup := names_parts l ▸ hl.sound.nodup
  have hlabels : (l.labels.map LinkSymbol.name).Nodup :=
    hl.orderly.nodup.sublist (List.filter_sublist.map _)
  have harea : ∀ name ∈ l.segments.map Segment.name, l.parts.roles name = some .area := by
    intro name hname
    rw [← names_parts] at hname
    exact hl.sound.area.mpr hname
  have hlabel : ∀ name ∈ l.labels.map LinkSymbol.name,
      ∃ x, l.parts.roles name = some x ∧ x ≠ .area := by
    intro name hname
    obtain ⟨k, hk, rfl⟩ := List.mem_map.mp hname
    exact ⟨k.role, roles_of_mem hl (mem_labels.mp hk).1, role_of_mem_labels hk⟩
  rw [symbols_toModule]
  refine SymbolTable.tidy_of_numbers (map_number_numbered l) ?_
  rw [map_name_numbered]
  refine List.nodup_append.mpr ⟨List.nodup_cons.mpr ⟨fun hmem => ?_, hsections⟩, hlabels,
    fun a ha b hb hab => ?_⟩
  · have := harea _ hmem
    rw [hfree] at this
    cases this
  · subst hab
    obtain ⟨x, hx, hne⟩ := hlabel a hb
    rcases List.mem_cons.mp ha with rfl | ha
    · rw [hfree] at hx
      cases hx
    · exact hne (Option.some.inj (hx.symm.trans (harea a ha)))

/-- The number of a section is that of its symbol. -/
theorem byNumber?_sectionNumber (ht : l.toModule.symbols.Tidy)
    (h : name ∈ l.segments.map Segment.name) : l.sectionNumber name ≠ 0 ∧
      (l.toModule.symbols.byNumber? (l.sectionNumber name)).map Symbol.name = some name := by
  obtain ⟨f, hf, hname⟩ := List.mem_map.mp h
  have hsome : (l.segments.findIdx? (·.name == name)).isSome := by
    rw [List.findIdx?_isSome]
    exact List.any_eq_true.mpr ⟨f, hf, beq_iff_eq.mpr hname⟩
  obtain ⟨i, hi⟩ := Option.isSome_iff_exists.mp hsome
  obtain ⟨hlt, hfound, -⟩ := List.findIdx?_eq_some_iff_getElem.mp hi
  have hnumber : l.sectionNumber name = i + 1 := by
    rw [sectionNumber, hi]
    rfl
  have hmem : sectionSymbol l.segments[i] (i + 1) ∈ l.toModule.symbols.toList := by
    rw [symbols_toModule]
    exact mem_numbered.mpr (Or.inr (Or.inl ⟨i, _, List.getElem?_eq_getElem hlt, rfl⟩))
  have hget := ht.byNumber?_of_get? (ht.get?_eq_some_iff.mpr ⟨hmem, rfl⟩)
  rw [hnumber]
  refine ⟨Nat.succ_ne_zero i, ?_⟩
  have hbyNumber : l.toModule.symbols.byNumber? (i + 1) =
      some (sectionSymbol l.segments[i] (i + 1)) := hget
  rw [hbyNumber]
  exact congrArg some (beq_iff_eq.mp hfound)

/-- A label of the joined module is the one that was shared. -/
theorem ofSymbol_labelSymbol (hl : l.Proper) (ht : l.toModule.symbols.Tidy) (hk : k ∈ l.labels)
    (n : Nat) : LinkSymbol.ofSymbol l.toModule 0 (l.labelSymbol k n) = { k with origin := 0 } := by
  obtain ⟨hmem, hsec⟩ := mem_labels.mp hk
  have hplain := hl.orderly.plain k hmem
  have hhome : (if (l.labelSymbol k n).isDefined then
      (l.toModule.symbols.byNumber? (l.labelSymbol k n).owner).map Symbol.name else none) = k.home := by
    cases hh : k.home with
    | none =>
      have howner : (l.labelSymbol k n).owner = 0 := by
        rw [labelSymbol, hh]
        rfl
      rw [Symbol.isDefined, howner]
      rfl
    | some home =>
      have hgiven : l.parts.roles k.name = some (.given (some home) k.value) := by
        rw [roles_of_mem hl hmem]
        rcases hplain.cases with ⟨hs, -⟩ | ⟨-, -, hi, -⟩ | ⟨-, -, -, hr⟩
        · rw [hsec] at hs
          cases hs
        · rw [hplain.wanted hsec hi] at hh
          cases hh
        · rw [hr, hh]
      have hname := hl.sound.given hgiven
      rw [names_parts] at hname
      obtain ⟨hne, hbyNumber⟩ := byNumber?_sectionNumber ht hname
      have howner : (l.labelSymbol k n).owner = l.sectionNumber home := by
        rw [labelSymbol, hh]
        rfl
      rw [Symbol.isDefined, howner, hbyNumber, if_pos (bne_iff_ne.mpr hne)]
  have hnot : (l.labelSymbol k n).isSection = false := rfl
  unfold LinkSymbol.ofSymbol
  rw [hnot, hhome]
  simp only [Bool.false_eq_true, if_false, labelSymbol]
  rw [← hsec]

/-- The symbols of the joined module are plain. -/
theorem plain_toModule (hl : l.Proper) (ht : l.toModule.symbols.Tidy)
    (hs : s ∈ l.toModule.symbols.toList) (hshared : s.isLocal = false) :
    (LinkSymbol.ofSymbol l.toModule 0 s).Plain := by
  rcases mem_numbered.mp hs with rfl | ⟨i, f, -, rfl⟩ | ⟨k, hk, i, rfl, -⟩
  · cases hshared
  · exact ⟨fun _ => ⟨rfl, rfl, rfl⟩, fun h => (nomatch h), fun h => (nomatch h)⟩
  · rw [ofSymbol_labelSymbol hl ht hk]
    have hplain := hl.orderly.plain k (mem_labels.mp hk).1
    exact ⟨hplain.area, hplain.label, hplain.wanted⟩

/-- **The joined module offers the joined parts.** -/
theorem parts_toModule (hl : l.Proper) (ht : l.toModule.symbols.Tidy) :
    l.toModule.parts = l.parts := by
  refine Parts.ext (funext fun name => Option.ext fun x => ?_) rfl
  rw [ObjectModule.roles_eq_some_iff ht.distinct]
  constructor
  · rintro ⟨s, hget, hshared, rfl⟩
    obtain ⟨hs, rfl⟩ := ht.get?_eq_some_iff.mp hget
    rcases mem_numbered.mp hs with rfl | ⟨i, f, hf, rfl⟩ | ⟨k, hk, i, rfl, -⟩
    · cases hshared
    · refine hl.sound.area.mpr ?_
      rw [names_parts]
      exact List.mem_map_of_mem (List.mem_of_getElem? hf)
    · rw [ofSymbol_labelSymbol hl ht hk]
      exact roles_of_mem hl (mem_labels.mp hk).1
  · intro hx
    obtain ⟨k, hk, rfl⟩ := Option.map_eq_some_iff.mp hx
    have hmem := mem_of_entryOf hk
    obtain rfl := key_of_entryOf hk
    rcases (hl.orderly.plain k hmem).cases with
      ⟨hsec, -, -, hr⟩ | ⟨hsec, he, hi, -⟩ | ⟨hsec, he, hi, -⟩
    · rw [hr] at hx ⊢
      have hname := hl.sound.area.mp hx
      rw [names_parts] at hname
      obtain ⟨f, hf, hname⟩ := List.mem_map.mp hname
      obtain ⟨i, hi⟩ := List.mem_iff_getElem?.mp hf
      refine ⟨sectionSymbol f (i + 1), ht.get?_eq_some_iff.mpr ⟨?_, hname⟩, rfl, rfl⟩
      exact mem_numbered.mpr (Or.inr (Or.inl ⟨i, f, hi, rfl⟩))
    all_goals
      have hlabel : k ∈ l.labels := mem_labels.mpr ⟨hmem, hsec⟩
      obtain ⟨i, hi⟩ := List.mem_iff_getElem?.mp hlabel
      refine ⟨l.labelSymbol k (l.segments.length + 1 + i), ht.get?_eq_some_iff.mpr ⟨?_, rfl⟩, ?_, ?_⟩
      · exact mem_numbered.mpr (Or.inr (Or.inr ⟨k, hlabel, i, rfl, hi⟩))
      · simp [Symbol.isLocal, labelSymbol, *]
      · rw [ofSymbol_labelSymbol hl ht hlabel]
        rfl

/-- **The joined module is proper** if the reserved name was not shared. -/
theorem proper_toModule (hl : l.Proper) (hfree : l.parts.roles Symbol.undefinedName = none) :
    l.toModule.Proper where
  distinct := (tidy_toModule hl hfree).distinct
  plain _ hs hshared := plain_toModule hl (tidy_toModule hl hfree) hs hshared
  sound := by
    rw [parts_toModule hl (tidy_toModule hl hfree)]
    exact hl.sound

theorem roles_joinAll_eq_none {qs : List Parts} (h : ∀ q ∈ qs, q.roles name = none) :
    (Parts.nothing.joinAll qs).roles name = none := by
  induction qs using List.reverseRecOn with
  | nil => rfl
  | append_singleton qs q ih =>
    rw [Parts.joinAll_concat, Parts.roles_join, h q (List.mem_append_right _ List.mem_cons_self),
      ih fun r hr => h r (List.mem_append_left _ hr)]
    rfl

end Linkage

/-! ### Parts joined beforehand -/

namespace Parts

variable {as bs cs : List Parts}

theorem joinAll_fits_of_append (h : ∀ q ∈ as ++ bs ++ cs, q.Sound)
    (hfit : (nothing.joinAll (as ++ bs ++ cs)).Fits) : (nothing.joinAll bs).Fits := by
  have hbs : ∀ q ∈ bs, q.Sound := fun q hq =>
    h q (List.mem_append_left _ (List.mem_append_right _ hq))
  rw [joinAll_append, joinAll_append] at hfit
  have hfirst := Fits.of_joinAll (fun q hq => h q (List.mem_append_right _ hq)) hfit
  intro name
  have hle := hfirst name
  rw [size_joinAll hbs] at hle
  rw [size_joinAll_nothing hbs]
  omega

/-- Parts agree if those joined beforehand do, and the result agrees with the others. -/
theorem pairwise_agrees_append : (as ++ bs ++ cs).Pairwise Agrees ↔
    bs.Pairwise Agrees ∧ (as ++ [nothing.joinAll bs] ++ cs).Pairwise Agrees := by
  by_cases hbs : bs.Pairwise Agrees
  · rw [and_iff_right hbs]
    simp only [List.pairwise_append, List.mem_append, or_imp, forall_and, List.mem_singleton,
      forall_eq, List.pairwise_singleton, true_and, and_iff_right hbs, joinAll_agrees_iff hbs,
      agrees_joinAll_iff hbs]
    constructor <;> simp +contextual
  · refine ⟨fun h => absurd ?_ hbs, fun h => absurd h.1 hbs⟩
    exact (List.pairwise_append.mp (List.pairwise_append.mp h).1).2.1

/-- **Parts joined beforehand** give the same joined parts. -/
theorem joinAll_append_joinAll (h : Joinable bs) (as cs : List Parts) :
    nothing.joinAll (as ++ [nothing.joinAll bs] ++ cs) = nothing.joinAll (as ++ bs ++ cs) := by
  rw [joinAll_append, joinAll_concat, joinAll_append nothing (as ++ bs), joinAll_append,
    joinAll_eq_join h (nothing.joinAll as)]

/-- **Parts joined beforehand** give the same image, or none. -/
theorem linksTo_append (has : ∀ q ∈ as, q.Sound) (hbs : ∀ q ∈ bs, q.Sound)
    (tbs : ∀ q ∈ bs, q.Tight) (hcs : ∀ q ∈ cs, q.Sound) {places : Named UInt16} {image : Image} :
    LinksTo (as ++ bs ++ cs) places image ↔
      bs.Pairwise Agrees ∧ LinksTo (as ++ [nothing.joinAll bs] ++ cs) places image := by
  have hall : ∀ {ds : List Parts}, (∀ q ∈ ds, q.Sound) → ∀ q ∈ as ++ ds ++ cs, q.Sound := by
    intro ds hds q hq
    rcases List.mem_append.mp hq with hq | hq
    · exact (List.mem_append.mp hq).elim (has q) (hds q)
    · exact hcs q hq
  constructor
  · intro h
    obtain ⟨hagree, hpair⟩ := pairwise_agrees_append.mp h.agree
    have hfits := joinAll_fits_of_append (hall hbs) (h.fits (hall hbs))
    have heq := joinAll_append_joinAll ⟨hbs, tbs, hagree, hfits⟩ as cs
    exact ⟨hagree, hpair, heq ▸ h.settled, heq ▸ h.laidOut⟩
  · rintro ⟨hagree, h⟩
    have hjoined : (nothing.joinAll bs).Sound :=
      sound_nothing.joinAll hbs (allAgree_nothing_iff.mpr hagree)
    have hone : ∀ q ∈ [nothing.joinAll bs], q.Sound := fun q hq => List.mem_singleton.mp hq ▸ hjoined
    have hfits : (nothing.joinAll bs).Fits := by
      have hfit := joinAll_fits_of_append (hall hone) (h.fits (hall hone))
      intro name
      have hle := hfit name
      have hsize := size_join (p := nothing) hjoined.nodup name
      change ((nothing.join (nothing.joinAll bs)).size name ≤ addressSpace) at hle
      omega
    have heq := joinAll_append_joinAll ⟨hbs, tbs, hagree, hfits⟩ as cs
    exact ⟨pairwise_agrees_append.mpr ⟨hagree, h.agree⟩, heq ▸ h.settled, heq ▸ h.laidOut⟩

end Parts

/-! ### Modules linked beforehand -/

variable {ys : List ObjectModule} {m : ObjectModule}

theorem linkPartially_eq (ms : List ObjectModule) :
    linkPartially ms = match (Linkage.addAll ms).run {} with
      | .ok _ l => .ok l.toModule
      | .error e _ => .error e := by
  unfold linkPartially LinkM.result EStateM.run
  simp only [bind, EStateM.bind]
  cases Linkage.addAll ms {} <;> rfl

/-- Partial linking fails just if two modules do not agree; else it gives a module that offers the
joined parts. -/
theorem linkPartially_cases (hys : ∀ m ∈ ys, Assembled m) :
    (¬ (ys.map ObjectModule.parts).Pairwise Parts.Agrees ∧ ∃ e, linkPartially ys = .error e) ∨
    ((ys.map ObjectModule.parts).Pairwise Parts.Agrees ∧ ∃ m, linkPartially ys = .ok m ∧ m.Proper ∧
      m.parts = Parts.nothing.joinAll (ys.map ObjectModule.parts)) := by
  have hproper : ∀ m ∈ ys, m.Proper := fun m hm => (hys m hm).proper
  by_cases hagree : (ys.map ObjectModule.parts).Pairwise Parts.Agrees
  · obtain ⟨l, hl, hl', hparts⟩ := Linkage.run_addAll Linkage.proper_empty hproper
      (Parts.allAgree_nothing_iff.mpr hagree)
    change l.parts = Parts.nothing.joinAll (ys.map ObjectModule.parts) at hparts
    have hfree : l.parts.roles Symbol.undefinedName = none := by
      rw [hparts]
      exact Linkage.roles_joinAll_eq_none (List.forall_mem_map.mpr fun m hm => (hys m hm).reserved)
    refine Or.inr ⟨hagree, l.toModule, ?_, Linkage.proper_toModule hl' hfree, ?_⟩
    · rw [linkPartially_eq, hl]
    · rw [Linkage.parts_toModule hl' (Linkage.tidy_toModule hl' hfree), hparts]
  · obtain ⟨e, l, he⟩ := Linkage.run_addAll_error Linkage.proper_empty hproper
      (mt Parts.allAgree_nothing_iff.mp hagree)
    refine Or.inl ⟨hagree, e, ?_⟩
    rw [linkPartially_eq, he]

/-- **Partial linking makes no difference**: if some modules cannot be linked partially, then they
cannot be linked with others either, and else the module they give stands for them. -/
theorem link_of_linkPartially {xs ys zs : List ObjectModule} {places : Named UInt16}
    (hxs : ∀ m ∈ xs, Assembled m) (hys : ∀ m ∈ ys, Assembled m) (hzs : ∀ m ∈ zs, Assembled m) :
    (∀ e, linkPartially ys = .error e → ∃ e', link (xs ++ ys ++ zs) places = .error e') ∧
    ∀ m, linkPartially ys = .ok m → ∀ image,
      link (xs ++ [m] ++ zs) places = .ok image ↔ link (xs ++ ys ++ zs) places = .ok image := by
  have hproper : ∀ {ms : List ObjectModule}, (∀ m ∈ ms, Assembled m) → ∀ m ∈ ms, m.Proper :=
    fun hms m hm => (hms m hm).proper
  have hall : ∀ m ∈ xs ++ ys ++ zs, m.Proper :=
    List.forall_mem_append.mpr
      ⟨List.forall_mem_append.mpr ⟨hproper hxs, hproper hys⟩, hproper hzs⟩
  have hsound : ∀ {ms : List ObjectModule}, (∀ m ∈ ms, Assembled m) →
      ∀ q ∈ ms.map ObjectModule.parts, q.Sound := by
    intro ms hms
    exact List.forall_mem_map.mpr fun m hm => (hms m hm).proper.sound
  have htight : ∀ q ∈ ys.map ObjectModule.parts, q.Tight :=
    List.forall_mem_map.mpr fun m hm => (hys m hm).tight
  have hok : ∀ image, link (xs ++ ys ++ zs) places = .ok image ↔
      (ys.map ObjectModule.parts).Pairwise Parts.Agrees ∧
        Parts.LinksTo (xs.map ObjectModule.parts ++
          [Parts.nothing.joinAll (ys.map ObjectModule.parts)] ++ zs.map ObjectModule.parts)
          places image := by
    intro image
    rw [link_eq_ok_iff hall, List.map_append, List.map_append]
    exact Parts.linksTo_append (hsound hxs) (hsound hys) htight (hsound hzs)
  rcases linkPartially_cases hys with ⟨hno, e, he⟩ | ⟨hagree, m, hm, hpartial, hparts⟩
  · refine ⟨fun _ _ => ?_, fun m hm => ?_⟩
    · cases h : link (xs ++ ys ++ zs) places with
      | error e => exact ⟨e, rfl⟩
      | ok image => exact absurd ((hok image).mp h).1 hno
    · rw [he] at hm
      cases hm
  · refine ⟨fun e he => ?_, fun m' hm' image => ?_⟩
    · rw [hm] at he
      cases he
    · obtain rfl : m = m' := by
        rw [hm] at hm'
        exact Except.ok.inj hm'
      have hall' : ∀ m' ∈ xs ++ [m] ++ zs, m'.Proper :=
        List.forall_mem_append.mpr ⟨List.forall_mem_append.mpr
          ⟨hproper hxs, List.forall_mem_singleton.mpr hpartial⟩, hproper hzs⟩
      rw [hok, and_iff_right hagree, link_eq_ok_iff hall', List.map_append, List.map_append,
        List.map_singleton, hparts]

theorem link_of_linkPartially_two : ∃ m image,
    linkPartially [wantingModule, givingModule] = .ok m ∧
    link ([wantingModule] ++ [m] ++ []) [("code", 0x4000)] = .ok image ∧
    link ([wantingModule] ++ [wantingModule, givingModule] ++ []) [("code", 0x4000)] = .ok image := by
  have hpartial : (linkPartially [wantingModule, givingModule]).toOption.isSome = true := by
    decide +kernel
  have hlink : (link ([wantingModule] ++ [wantingModule, givingModule] ++ [])
      [("code", 0x4000)]).toOption.isSome = true := by
    decide +kernel
  have hone : ∀ m ∈ [wantingModule], Assembled m :=
    List.forall_mem_singleton.mpr assembled_wantingModule
  have htwo : ∀ m ∈ [wantingModule, givingModule], Assembled m := by
    intro m hm
    rcases List.mem_cons.mp hm with rfl | hm
    · exact assembled_wantingModule
    · exact List.mem_singleton.mp hm ▸ assembled_givingModule
  have hnil : ∀ m ∈ ([] : List ObjectModule), Assembled m := fun _ hm => nomatch hm
  cases hm : linkPartially [wantingModule, givingModule] with
  | error e =>
    rw [hm] at hpartial
    cases hpartial
  | ok m =>
    cases hi : link ([wantingModule] ++ [wantingModule, givingModule] ++ []) [("code", 0x4000)] with
    | error e =>
      rw [hi] at hlink
      cases hlink
    | ok image =>
      exact ⟨m, image, rfl, ((link_of_linkPartially hone htwo hnil).2 m hm image).mpr hi, rfl⟩

end Sx16
