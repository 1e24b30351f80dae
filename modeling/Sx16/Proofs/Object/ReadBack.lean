/-
# Modules are read back from their text

The text of a module is read as the module with its symbols in the order of names and without their
pending uses; the sections are the same. What is read has the same text again. A module can be
written this way if its names fit into their lines, and every module that was read can.

Key definitions: `ObjectModule.Writable`, `NameOrdered`, `ObjectModule.settled`.
Key theorems: `readSymbols_lines`, `readSections_lines`, `ObjectModule.ofText_text`,
`ObjectModule.writable_of_ofText`, `ObjectModule.text_round_trip`.
-/
import Sx16.Proofs.Object.Lines
import Sx16.Proofs.SymbolTable

namespace Sx16

/-- A section that lines can hold. -/
structure SectionData.Writable (s : SectionData) : Prop where
  name : Text.IsTrimmed s.name
  relocations : ∀ r ∈ s.relocations, r.Writable

/-- A module that lines can hold: the reserved symbol is there once, as it was created, and every
name fits into its line. -/
structure ObjectModule.Writable (m : ObjectModule) : Prop where
  reserved : m.symbols.toList.head? = some Symbol.undefined
  symbols : ∀ s ∈ m.symbols.toList.tail, s.Writable ∧ s.name ≠ Symbol.undefinedName
  sections : ∀ s ∈ m.sections, s.Writable

/-- `l'` is `l` in the order of names, where symbols of one name stay in their order. -/
structure NameOrdered (l l' : List Symbol) : Prop where
  perm : l'.Perm l
  ordered : l'.Pairwise fun a b => a.name ≤ b.name
  stable : ∀ name, l'.filter (·.name == name) = l.filter (·.name == name)

variable {ls : List Text.NumberedLine} {rest : List String} {t : SymbolTable} {m : ObjectModule}

/-! ### Sorting by name -/

/-- The symbols in the order of names. -/
def sortByName (ss : List Symbol) : List Symbol :=
  ss.mergeSort fun a b => decide (a.name ≤ b.name)

theorem le_name_trans (a b c : Symbol) (hab : decide (a.name ≤ b.name) = true)
    (hbc : decide (b.name ≤ c.name) = true) : decide (a.name ≤ c.name) = true :=
  decide_eq_true (String.le_trans (of_decide_eq_true hab) (of_decide_eq_true hbc))

theorem le_name_total (a b : Symbol) :
    (decide (a.name ≤ b.name) || decide (b.name ≤ a.name)) = true := by
  rw [Bool.or_eq_true, decide_eq_true_eq, decide_eq_true_eq]
  exact String.le_total a.name b.name

theorem pairwise_sortByName (ss : List Symbol) :
    (sortByName ss).Pairwise fun a b => decide (a.name ≤ b.name) = true :=
  List.pairwise_mergeSort le_name_trans le_name_total ss

/-- **The sort** is stable. -/
theorem nameOrdered_sortByName (ss : List Symbol) : NameOrdered ss (sortByName ss) where
  perm := List.mergeSort_perm ss _
  ordered := (pairwise_sortByName ss).imp of_decide_eq_true
  stable name := by
    -- The symbols of one name are in order already, so they are a sublist of the sorted list.
    have hpair : (ss.filter (·.name == name)).Pairwise fun a b =>
        decide (a.name ≤ b.name) = true := by
      refine List.pairwise_of_forall_mem_list fun a ha b hb => ?_
      have hname : ∀ c ∈ ss.filter (·.name == name), c.name = name := fun c hc => by
        simpa using (List.mem_filter.mp hc).2
      rw [hname a ha, hname b hb]
      exact decide_eq_true (String.le_refl name)
    have hsub : (ss.filter (·.name == name)).Sublist ((sortByName ss).filter (·.name == name)) := by
      have h := (List.sublist_mergeSort le_name_trans le_name_total hpair
        List.filter_sublist).filter (·.name == name)
      rwa [List.filter_filter, List.filter_congr fun a _ => Bool.and_self _] at h
    have hlen := ((List.mergeSort_perm ss fun a b => decide (a.name ≤ b.name)).filter
      (·.name == name)).length_eq
    exact (hsub.eq_of_length hlen.symm).symm

theorem map_withoutUses_sortByName (ss : List Symbol) :
    (sortByName ss).map Symbol.withoutUses = sortByName (ss.map Symbol.withoutUses) :=
  List.map_mergeSort fun _ _ _ _ => rfl

theorem sortByName_sortByName (ss : List Symbol) : sortByName (sortByName ss) = sortByName ss :=
  List.mergeSort_of_pairwise (pairwise_sortByName ss)

/-! ### What is written is read -/

/-- **Symbol lines** are read up to their end marker. -/
theorem readSymbols_lines {ss : List Symbol}
    (hss : ∀ s ∈ ss, s.Writable ∧ s.name ≠ Symbol.undefinedName)
    (hls : ls.map Prod.snd = ss.map Symbol.line ++ Awaited.endSymbols.text :: rest) :
    ∃ r, readSymbols t ls = .ok (⟨t.arena ++ (ss.map Symbol.withoutUses).toArray⟩, r) ∧
      r.map Prod.snd = rest := by
  induction ss generalizing t ls with
  | nil =>
    obtain ⟨⟨n, l⟩, r, rfl, rfl, hr⟩ := List.map_eq_cons_iff.mp hls
    refine ⟨r, ?_, hr⟩
    rw [readSymbols, if_pos rfl, List.map_nil, Array.append_empty]
  | cons s ss ih =>
    obtain ⟨⟨n, l⟩, ls, rfl, rfl, hrest⟩ := List.map_eq_cons_iff.mp hls
    obtain ⟨hs, hname⟩ := hss s List.mem_cons_self
    obtain ⟨r, hread, hr⟩ := ih (t := t.insert s.withoutUses)
      (fun s' hs' => hss s' (List.mem_cons_of_mem s hs')) hrest
    refine ⟨r, ?_, hr⟩
    rw [readSymbols, if_neg (Symbol.line_ne (by decide)), Symbol.ofLine?_line hs]
    simp only
    rw [if_neg (show ¬ s.withoutUses.name = Symbol.undefinedName from hname), hread,
      SymbolTable.insert]
    simp

/-- **Relocation lines** are read up to their end marker. -/
theorem readRelocations_lines {rs : List Relocation} (hrs : ∀ r ∈ rs, r.Writable)
    (hls : ls.map Prod.snd = rs.map Relocation.line ++ Awaited.endRelocations.text :: rest) :
    ∃ r, readRelocations ls = .ok (rs, r) ∧ r.map Prod.snd = rest := by
  induction rs generalizing ls with
  | nil =>
    obtain ⟨⟨n, l⟩, r, rfl, rfl, hr⟩ := List.map_eq_cons_iff.mp hls
    refine ⟨r, ?_, hr⟩
    rw [readRelocations, if_pos rfl]
  | cons x rs ih =>
    obtain ⟨⟨n, l⟩, ls, rfl, rfl, hrest⟩ := List.map_eq_cons_iff.mp hls
    obtain ⟨r, hread, hr⟩ := ih (fun y hy => hrs y (List.mem_cons_of_mem x hy)) hrest
    refine ⟨r, ?_, hr⟩
    rw [readRelocations, if_neg (Relocation.line_ne (by decide)),
      Relocation.ofLine?_line (hrs x List.mem_cons_self)]
    simp only
    rw [hread]

/-- The end of a section is read. -/
theorem readSectionEnd_lines {s : SectionData} (hs : s.Writable)
    (hls : ls.map Prod.snd = s.relocationLines ++ Awaited.endSection.text :: rest) :
    ∃ r, readSectionEnd ls = .ok (s.relocations, r) ∧ r.map Prod.snd = rest := by
  unfold SectionData.relocationLines at hls
  split at hls
  · rename_i hnil
    obtain ⟨⟨n, l⟩, r, rfl, rfl, hr⟩ := List.map_eq_cons_iff.mp hls
    refine ⟨r, ?_, hr⟩
    rw [readSectionEnd, if_pos rfl, List.isEmpty_iff.mp hnil]
  · simp only [List.cons_append, List.append_assoc, List.nil_append] at hls
    obtain ⟨⟨n, l⟩, ls', rfl, rfl, hlines⟩ := List.map_eq_cons_iff.mp hls
    obtain ⟨r, hread, hr⟩ := readRelocations_lines hs.relocations hlines
    obtain ⟨⟨n', l'⟩, r', rfl, rfl, hr'⟩ := List.map_eq_cons_iff.mp hr
    refine ⟨r', ?_, hr'⟩
    rw [readSectionEnd, if_neg (by decide), if_pos rfl, hread]
    simp only [if_true]

/-- **Sections** are read up to the marker for the end of the file. -/
theorem readSections_lines {ss : List SectionData} (hss : ∀ s ∈ ss, s.Writable)
    (hls : ls.map Prod.snd = ss.flatMap SectionData.lines ++ Awaited.endFile.text :: rest) :
    readSections ls = .ok ss := by
  induction ss generalizing ls with
  | nil =>
    obtain ⟨⟨n, l⟩, r, rfl, rfl, hr⟩ := List.map_eq_cons_iff.mp hls
    unfold readSections
    rw [if_pos rfl]
  | cons s ss ih =>
    rw [List.flatMap_cons, SectionData.lines] at hls
    simp only [List.cons_append, List.append_assoc, List.nil_append] at hls
    obtain ⟨⟨n, l⟩, ls', rfl, rfl, hname⟩ := List.map_eq_cons_iff.mp hls
    obtain ⟨⟨n', name⟩, ls', rfl, rfl, hcode⟩ := List.map_eq_cons_iff.mp hname
    obtain ⟨⟨n'', code⟩, ls', rfl, rfl, hend⟩ := List.map_eq_cons_iff.mp hcode
    obtain ⟨r, hread, hr⟩ := readSectionEnd_lines (hss s List.mem_cons_self) hend
    have hrest := ih (fun s' hs' => hss s' (List.mem_cons_of_mem s hs')) hr
    unfold readSections
    rw [if_neg (by decide), if_pos rfl]
    simp only
    rw [readBytes_bytesLine]
    simp only
    split
    · rename_i herr
      rw [hread] at herr
      cases herr
    · rename_i relocations r' hok
      rw [hread] at hok
      cases hok
      rw [hrest]

/-! ### Every line is one that a text can hold -/

theorem isTrimmed_text (a : Awaited) : Text.IsTrimmed a.text := by
  cases a <;> exact Text.isTrimmed_of_all (by decide) (by decide)

theorem SectionData.Writable.isTrimmed_relocationLines {s : SectionData} (h : s.Writable) :
    ∀ l ∈ s.relocationLines, Text.IsTrimmed l := by
  intro l hl
  unfold SectionData.relocationLines at hl
  split at hl
  · cases hl
  · rcases List.mem_append.mp hl with hl | hl
    · rcases List.mem_cons.mp hl with rfl | hl
      · exact isTrimmed_text _
      · obtain ⟨r, hr, rfl⟩ := List.mem_map.mp hl
        exact (h.relocations r hr).isTrimmed_line
    · rw [List.mem_singleton.mp hl]
      exact isTrimmed_text _

theorem SectionData.Writable.isTrimmed_lines {s : SectionData} (h : s.Writable) :
    ∀ l ∈ s.lines, Text.IsTrimmed l := by
  unfold SectionData.lines
  simp only [List.forall_mem_append, List.forall_mem_cons]
  exact ⟨⟨isTrimmed_text _, h.name, isTrimmed_bytesLine s, h.isTrimmed_relocationLines⟩,
    isTrimmed_text _, fun l hl => nomatch hl⟩

namespace ObjectModule

/-- The symbols besides the reserved one. -/
def others (m : ObjectModule) : List Symbol := m.symbols.toList.tail

/-- The module that is read from the text of a module. -/
def settled (m : ObjectModule) : ObjectModule where
  symbols := ⟨#[Symbol.undefined] ++ ((sortByName m.others).map Symbol.withoutUses).toArray⟩
  sections := m.sections

theorem writable_undefined : Symbol.undefined.Writable :=
  ⟨⟨by decide, by decide, by decide⟩, by decide, by decide⟩

namespace Writable

theorem toList_symbols (h : m.Writable) : m.symbols.toList = Symbol.undefined :: m.others := by
  obtain ⟨ss, hss⟩ := List.head?_eq_some_iff.mp h.reserved
  rw [others, hss]
  rfl

/-- The reserved name stands for the reserved symbol. -/
theorem get?_undefinedName (h : m.Writable) :
    m.symbols.get? Symbol.undefinedName = some Symbol.undefined := by
  have hid : ∀ i, m.symbols.byId? i = (Symbol.undefined :: m.others)[i]? := fun i => by
    rw [← h.toList_symbols]
    exact Array.getElem?_toList.symm
  have hzero : m.symbols.byId? 0 = some Symbol.undefined := hid 0
  cases hi : m.symbols.id? Symbol.undefinedName with
  | none => exact absurd rfl (SymbolTable.id?_eq_none hi hzero)
  | some i =>
    obtain ⟨s, hs, hname⟩ := SymbolTable.id?_eq_some hi
    cases i with
    | zero => rw [SymbolTable.get?, hi, Option.bind_some, hzero]
    | succ i =>
      rw [hid, List.getElem?_cons_succ] at hs
      exact absurd hname (h.symbols s (List.mem_of_getElem? hs)).2

theorem sorted (h : m.Writable) : m.symbols.sorted = Symbol.undefined :: sortByName m.others := by
  have hothers : (Symbol.undefined :: m.others).filter (·.name != Symbol.undefinedName) =
      m.others := by
    rw [List.filter_cons_of_neg (by decide), List.filter_eq_self]
    exact fun s hs => bne_iff_ne.mpr (h.symbols s hs).2
  rw [SymbolTable.sorted, h.get?_undefinedName, h.toList_symbols, hothers]
  rfl

theorem mem_sortByName (h : m.Writable) :
    ∀ s ∈ sortByName m.others, s.Writable ∧ s.name ≠ Symbol.undefinedName :=
  fun s hs => h.symbols s ((List.mergeSort_perm _ _).mem_iff.mp hs)

theorem isTrimmed_lines (h : m.Writable) : ∀ l ∈ m.lines, Text.IsTrimmed l := by
  have hsymbols : ∀ l ∈ (sortByName m.others).map Symbol.line, Text.IsTrimmed l :=
    List.forall_mem_map.mpr fun s hs => (h.mem_sortByName s hs).1.isTrimmed_line
  have hsections : ∀ l ∈ m.sections.flatMap SectionData.lines, Text.IsTrimmed l := by
    intro l hl
    obtain ⟨s, hs, hl⟩ := List.mem_flatMap.mp hl
    exact (h.sections s hs).isTrimmed_lines l hl
  unfold lines
  rw [h.sorted, List.map_cons]
  simp only [List.forall_mem_append, List.forall_mem_cons]
  exact ⟨⟨⟨writable_undefined.isTrimmed_line, hsymbols⟩, isTrimmed_text _, hsections⟩,
    isTrimmed_text _, fun l hl => nomatch hl⟩

/-- **A module is read back** with its symbols in order. -/
theorem ofText_text (h : m.Writable) : ofText m.text = .ok m.settled := by
  have hlines : Text.lines m.text = m.lines :=
    Text.lines_unlines fun l hl => (h.isTrimmed_lines l hl).isLine
  have htrim : ∀ l ∈ m.lines, String.ofList (Text.trimEnd l.toList) = l := fun l hl => by
    rw [Text.trimEnd_eq_self (h.isTrimmed_lines l hl).last, String.ofList_toList]
  have hls : (((Text.numberedLines m.text).map fun p =>
      (p.1, String.ofList (Text.trimEnd p.2.toList))).map Prod.snd) = m.lines := by
    rw [List.map_map]
    calc (Text.numberedLines m.text).map (fun p => String.ofList (Text.trimEnd p.2.toList))
        = ((Text.numberedLines m.text).map Prod.snd).map
            (fun l => String.ofList (Text.trimEnd l.toList)) := by rw [List.map_map]; rfl
      _ = m.lines := by rw [Text.map_snd_numberedLines, hlines, List.map_congr_left htrim, List.map_id']
  unfold ofText
  simp only
  generalize (Text.numberedLines m.text).map (fun p =>
    (p.1, String.ofList (Text.trimEnd p.2.toList))) = ls at hls ⊢
  rw [lines, h.sorted, List.map_cons, List.cons_append, List.cons_append, List.append_assoc] at hls
  -- The reserved symbol's line is passed over.
  obtain ⟨⟨n, l⟩, ls', rfl, rfl, hrest⟩ := List.map_eq_cons_iff.mp hls
  obtain ⟨r, hread, hr⟩ := readSymbols_lines (t := SymbolTable.new) h.mem_sortByName hrest
  rw [readSymbols, if_neg (Symbol.line_ne (by decide)), Symbol.ofLine?_line writable_undefined]
  simp only
  rw [if_pos (show Symbol.undefined.withoutUses.name = Symbol.undefinedName from rfl), hread]
  simp only
  rw [readSections_lines h.sections hr]
  rfl

theorem others_settled (m : ObjectModule) :
    m.settled.others = (sortByName m.others).map Symbol.withoutUses := by
  rw [others, SymbolTable.toList, ObjectModule.settled, Array.toList_append]
  rfl

theorem settled (h : m.Writable) : m.settled.Writable where
  reserved := by
    rw [SymbolTable.toList, ObjectModule.settled, Array.toList_append]
    rfl
  symbols := by
    show ∀ s ∈ m.settled.others, s.Writable ∧ s.name ≠ Symbol.undefinedName
    rw [others_settled]
    refine List.forall_mem_map.mpr fun s hs => ?_
    obtain ⟨hs, hname⟩ := h.mem_sortByName s hs
    exact ⟨⟨hs.name, hs.owner, hs.number⟩, hname⟩
  sections := h.sections

/-- **The text stays the same.** -/
theorem text_settled (h : m.Writable) : m.settled.text = m.text := by
  have hsorted : m.settled.symbols.sorted.map Symbol.line = m.symbols.sorted.map Symbol.line := by
    rw [h.settled.sorted, h.sorted, others_settled, ← map_withoutUses_sortByName,
      sortByName_sortByName, List.map_cons, List.map_cons, List.map_map]
    rfl
  rw [text, text, lines, lines, hsorted]
  rfl

end Writable

/-! ### What is read can be written -/

/-- Symbols that were read. -/
theorem readSymbols_writable {t t' : SymbolTable} {r : List Text.NumberedLine}
    (hls : ∀ p ∈ ls, Text.IsTrimmed p.2) (h : readSymbols t ls = .ok (t', r)) :
    r <:+ ls ∧ ∃ ss : List Symbol, t'.toList = t.toList ++ ss ∧
      ∀ s ∈ ss, s.Writable ∧ s.name ≠ Symbol.undefinedName := by
  induction ls generalizing t with
  | nil => cases h
  | cons p ls ih =>
    obtain ⟨n, l⟩ := p
    rw [readSymbols] at h
    split at h
    · cases h
      exact ⟨List.suffix_cons _ _, [], (List.append_nil _).symm, fun s hs => nomatch hs⟩
    · split at h
      · cases h
      · rename_i s hs
        obtain ⟨hr, ss, hss, hall⟩ := ih (fun q hq => hls q (List.mem_cons_of_mem _ hq)) h
        refine ⟨hr.trans (List.suffix_cons _ _), ?_⟩
        have hwritable := Symbol.writable_of_ofLine? (hls _ List.mem_cons_self).feed hs
        split at hss
        · exact ⟨ss, hss, hall⟩
        · rename_i hname
          refine ⟨s :: ss, ?_, List.forall_mem_cons.mpr ⟨⟨hwritable, hname⟩, hall⟩⟩
          rw [hss, SymbolTable.insert, SymbolTable.toList, Array.toList_push, List.append_assoc]
          rfl

theorem readRelocations_writable {rs : List Relocation} {r : List Text.NumberedLine}
    (hls : ∀ p ∈ ls, Text.IsTrimmed p.2) (h : readRelocations ls = .ok (rs, r)) :
    r <:+ ls ∧ ∀ x ∈ rs, x.Writable := by
  induction ls generalizing rs with
  | nil => cases h
  | cons p ls ih =>
    obtain ⟨n, l⟩ := p
    rw [readRelocations] at h
    split at h
    · cases h
      exact ⟨List.suffix_cons _ _, fun x hx => absurd hx List.not_mem_nil⟩
    · split at h
      · cases h
      · rename_i x hx
        split at h
        · cases h
        · rename_i xs r' hrest
          cases h
          obtain ⟨hr, hall⟩ := ih (fun q hq => hls q (List.mem_cons_of_mem _ hq)) hrest
          have hwritable := Relocation.writable_of_ofLine? (hls _ List.mem_cons_self).feed hx
          exact ⟨hr.trans (List.suffix_cons _ _), List.forall_mem_cons.mpr ⟨hwritable, hall⟩⟩

theorem readSectionEnd_writable {rs : List Relocation} {r : List Text.NumberedLine}
    (hls : ∀ p ∈ ls, Text.IsTrimmed p.2) (h : readSectionEnd ls = .ok (rs, r)) :
    r <:+ ls ∧ ∀ x ∈ rs, x.Writable := by
  unfold readSectionEnd at h
  split at h
  · cases h
  · split at h
    · cases h
      exact ⟨List.suffix_cons _ _, fun x hx => absurd hx List.not_mem_nil⟩
    · split at h
      · split at h
        · cases h
        · cases h
        · rename_i hread
          split at h
          · cases h
            obtain ⟨hr, hall⟩ := readRelocations_writable
              (fun q hq => hls q (List.mem_cons_of_mem _ hq)) hread
            exact ⟨((List.suffix_cons _ _).trans hr).trans (List.suffix_cons _ _), hall⟩
          · cases h
      · cases h

theorem readSections_writable {ss : List SectionData} (hls : ∀ p ∈ ls, Text.IsTrimmed p.2)
    (h : readSections ls = .ok ss) : ∀ s ∈ ss, s.Writable := by
  fun_induction readSections ls generalizing ss
  case case2 =>
    cases h
    exact fun s hs => nomatch hs
  case case8 r' bytes _ relocations r'' hend sections hrest _ ih =>
    cases h
    have hname := hls _ (List.mem_cons_of_mem _ List.mem_cons_self)
    have hr' : ∀ p ∈ r', Text.IsTrimmed p.2 := fun p hp => hls p
      (List.mem_cons_of_mem _ (List.mem_cons_of_mem _ (List.mem_cons_of_mem _ hp)))
    obtain ⟨hr, hrelocations⟩ := readSectionEnd_writable hr' hend
    exact List.forall_mem_cons.mpr
      ⟨⟨hname, hrelocations⟩, ih (fun p hp => hr' p (hr.subset hp)) hrest⟩
  -- All other ends are errors.
  all_goals cases h

/-- **A module that was read** can be written. -/
theorem writable_of_ofText {s : String} (h : ofText s = .ok m) : m.Writable := by
  unfold ofText at h
  simp only at h
  have hls : ∀ p ∈ (Text.numberedLines s).map fun p =>
      (p.1, String.ofList (Text.trimEnd p.2.toList)), Text.IsTrimmed p.2 := by
    refine List.forall_mem_map.mpr fun p hp => Text.isTrimmed_of_mem_lines (s := s) ?_
    rw [← Text.map_snd_numberedLines]
    exact List.mem_map_of_mem hp
  split at h
  · cases h
  · rename_i symbols r hsymbols
    split at h
    · cases h
    · rename_i sections hsections
      cases h
      obtain ⟨hr, ss, hss, hall⟩ := readSymbols_writable hls hsymbols
      have hlist : symbols.toList = Symbol.undefined :: ss := hss
      refine ⟨?_, ?_, readSections_writable (fun p hp => hls p (hr.subset hp)) hsections⟩
      · show symbols.toList.head? = _
        rw [hlist]
        rfl
      · show ∀ s ∈ symbols.toList.tail, _
        rw [hlist]
        exact hall

/-- **The text of a module is read back** with the same sections, and with the same symbols in a
stable order of names, without pending uses; the text stays the same. A module that was read is one
that can be written. -/
theorem text_round_trip (m : ObjectModule) :
    (m.Writable → ∃ m', ofText m.text = .ok m' ∧ m'.sections = m.sections ∧
      m'.symbols.toList.head? = some Symbol.undefined ∧
      NameOrdered (m.symbols.toList.tail.map Symbol.withoutUses) m'.symbols.toList.tail ∧
      m'.text = m.text) ∧
    ∀ s, ofText s = .ok m → m.Writable := by
  refine ⟨fun h => ⟨m.settled, h.ofText_text, rfl, h.settled.reserved, ?_, h.text_settled⟩,
    fun s => writable_of_ofText⟩
  have hothers : m.settled.symbols.toList.tail = sortByName (m.others.map Symbol.withoutUses) := by
    rw [← map_withoutUses_sortByName]
    exact Writable.others_settled m
  rw [hothers]
  exact nameOrdered_sortByName _

/-- Two symbols against the order of names, one of them used, and a section with a relocation. -/
def sample : ObjectModule where
  symbols := ⟨#[Symbol.undefined, { name := "b", number := 1, uses := [⟨1, 0, .symbolWord⟩] },
    { name := "a", owner := 2, number := 2, size := some 4 }]⟩
  sections := [⟨"a", #[0x1F, 0, 0, 0], [⟨.symbolWord, 1, "b"⟩]⟩]

theorem writable_sample : sample.Writable where
  reserved := rfl
  symbols := by
    have hb : IsField "b" := ⟨by decide, by decide, by decide⟩
    have ha : IsField "a" := ⟨by decide, by decide, by decide⟩
    show ∀ s ∈ [_, _], Symbol.Writable s ∧ s.name ≠ Symbol.undefinedName
    simp only [List.forall_mem_cons]
    exact ⟨⟨⟨hb, by decide, by decide⟩, by decide⟩, ⟨⟨ha, by decide, by decide⟩, by decide⟩,
      fun s hs => nomatch hs⟩
  sections := by
    show ∀ s ∈ [_], SectionData.Writable s
    simp only [List.forall_mem_cons]
    refine ⟨⟨Text.isTrimmed_of_all (by decide) (by decide), ?_⟩, fun s hs => nomatch hs⟩
    show ∀ r ∈ [_], Relocation.Writable r
    simp only [List.forall_mem_cons]
    exact ⟨⟨by decide, by decide, by decide⟩, fun r hr => nomatch hr⟩

theorem text_round_trip_sample : sample.Writable ∧ ∃ m', ofText sample.text = .ok m' ∧
    m'.sections = sample.sections ∧
    NameOrdered (sample.symbols.toList.tail.map Symbol.withoutUses) m'.symbols.toList.tail ∧
    m'.text = sample.text ∧ m'.Writable := by
  obtain ⟨m', hread, hsections, -, hordered, htext⟩ := (text_round_trip sample).1 writable_sample
  exact ⟨writable_sample, m', hread, hsections, hordered, htext, (text_round_trip m').2 _ hread⟩

end ObjectModule
end Sx16
