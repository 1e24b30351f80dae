/-
# The grammar of object modules

The lines that make up an object module: those of symbols up to their end marker, sections between their
markers, the marker for the end of the file, and anything after it. The reader follows the grammar line
by line, so a text is read just if its lines are of that form, and what is read is what they say. What a
relocation's line may be is left open in the grammar; the reader takes the longer lines too.

Key definitions: `SectionLines`, `ModuleLines`, `LinesUpTo`.
Key theorems: `readSymbols_eq_ok_iff`, `readRelocations_eq_ok_iff`, `readSections_eq_ok_iff`,
`ModuleLines.mem`, `ModuleLines.mono`.
-/
import Sx16.Proofs.Object.Fields

namespace Sx16

open Text (NumberedLine)

/-! ### The grammar -/

/-- The lines of a section's relocations, with their markers; or none. -/
def EntryLines (R : String → Relocation → Prop) (ls : List String) (xs : List Relocation) : Prop :=
  ls = [] ∧ xs = [] ∨ ∃ entries,
    ls = Awaited.relocations.text :: entries ++ [Awaited.endRelocations.text] ∧
      List.Forall₂ R entries xs

/-- The lines of a section, with its markers. -/
def SectionLines (R : String → Relocation → Prop) (ls : List String) (s : SectionData) : Prop :=
  ∃ code entries,
    ls = Awaited.newSection.text :: s.name :: code :: entries ++ [Awaited.endSection.text] ∧
      BytesLine code s.bytes.toList ∧ EntryLines R entries s.relocations

/-- The lines of a module, and what comes after them. Lines of the reserved symbol tell nothing, for
every table begins with it. -/
def ModuleLines (R : String → Relocation → Prop) (ls : List String) (m : ObjectModule) : Prop :=
  ∃ front symbols parts rest,
    ls = front ++ Awaited.endSymbols.text :: parts.flatten ++ Awaited.endFile.text :: rest ∧
      List.Forall₂ SymbolLine front symbols ∧
      m.symbols.toList =
        Symbol.undefined :: symbols.filter (fun s => s.name ≠ Symbol.undefinedName) ∧
      List.Forall₂ (SectionLines R) parts m.sections

variable {R R' : String → Relocation → Prop} {lines : List String} {xs : List Relocation}
  {s : SectionData} {ss : List SectionData} {m : ObjectModule}

/-- What pairs up may be weakened entry by entry. -/
theorem forall₂_imp_of_mem {α β : Type} {P Q : α → β → Prop} {as : List α} {bs : List β}
    (h : List.Forall₂ P as bs) (himp : ∀ a ∈ as, ∀ b, P a b → Q a b) : List.Forall₂ Q as bs := by
  have hboth : List.Forall₂ (fun a b => a ∈ as ∧ P a b) as bs :=
    (List.forall₂_and_left as bs).mpr ⟨fun _ ha => ha, h⟩
  exact hboth.imp fun a b hab => himp a hab.1 b hab.2

/-- **A grammar that takes more lines** for relocations takes more modules. -/
theorem ModuleLines.mono (h : ModuleLines R lines m) (hR : ∀ l ∈ lines, ∀ x, R l x → R' l x) :
    ModuleLines R' lines m := by
  obtain ⟨front, symbols, parts, rest, rfl, hsymbols, htable, hparts⟩ := h
  refine ⟨front, symbols, parts, rest, rfl, hsymbols, htable, ?_⟩
  refine forall₂_imp_of_mem hparts fun part hpart s hs => ?_
  obtain ⟨code, entries, rfl, hbytes, hentries⟩ := hs
  refine ⟨code, entries, rfl, hbytes, ?_⟩
  rcases hentries with hnone | ⟨entries, rfl, hentries⟩
  · exact .inl hnone
  · refine .inr ⟨entries, rfl, forall₂_imp_of_mem hentries fun l hl => hR l ?_⟩
    have hmem : l ∈ parts.flatten := List.mem_flatten.mpr ⟨_, hpart, by simp [hl]⟩
    simp [hmem]

theorem ModuleLines.mem (h : ModuleLines R lines m) (hs : s ∈ m.sections) {x : Relocation}
    (hx : x ∈ s.relocations) : ∃ l ∈ lines, R l x := by
  obtain ⟨front, symbols, parts, rest, rfl, -, -, hparts⟩ := h
  obtain ⟨part, hpart, code, entries, rfl, -, hentries⟩ := exists_mem_of_forall₂ hparts hs
  rcases hentries with ⟨-, hnone⟩ | ⟨entries, rfl, hentries⟩
  · rw [hnone] at hx
    cases hx
  · obtain ⟨l, hl, hlx⟩ := exists_mem_of_forall₂ hentries hx
    have hmem : l ∈ parts.flatten := List.mem_flatten.mpr ⟨_, hpart, by simp [hl]⟩
    exact ⟨l, by simp [hmem], hlx⟩

/-! ### Lines up to a marker -/

/-- Lines that each tell something, up to a marker, and the lines after it. -/
def LinesUpTo {α : Type} (marker : Awaited) (P : String → α → Prop) (ls : List NumberedLine)
    (xs : List α) (r : List NumberedLine) : Prop :=
  ∃ front n, ls = front ++ (n, marker.text) :: r ∧ List.Forall₂ P (front.map Prod.snd) xs

section

variable {α : Type} {marker : Awaited} {P : String → α → Prop} {ls r : List NumberedLine} {as : List α}
  {n : Nat} {l : String}

theorem not_linesUpTo_nil : ¬ LinesUpTo marker P [] as r := by
  rintro ⟨front, n, hsplit, -⟩
  exact absurd hsplit.symm (by simp)

/-- A marker ends the lines, if it tells nothing itself. -/
theorem linesUpTo_cons_marker (hP : ∀ a, ¬ P marker.text a) :
    LinesUpTo marker P ((n, marker.text) :: ls) as r ↔ as = [] ∧ r = ls := by
  constructor
  · rintro ⟨front, n', hsplit, hfront⟩
    cases front with
    | nil =>
      obtain ⟨-, rfl⟩ := List.cons.inj hsplit
      exact ⟨List.forall₂_nil_left_iff.mp hfront, rfl⟩
    | cons p front =>
      obtain ⟨rfl, -⟩ := List.cons.inj hsplit
      obtain ⟨a, as', ha, -, -⟩ := List.forall₂_cons_left_iff.mp hfront
      exact absurd ha (hP a)
  · rintro ⟨rfl, rfl⟩
    exact ⟨[], n, rfl, List.Forall₂.nil⟩

/-- A line before the marker tells the first thing. -/
theorem linesUpTo_cons (hl : l ≠ marker.text) :
    LinesUpTo marker P ((n, l) :: ls) as r ↔
      ∃ a as', P l a ∧ LinesUpTo marker P ls as' r ∧ as = a :: as' := by
  constructor
  · rintro ⟨front, n', hsplit, hfront⟩
    cases front with
    | nil =>
      obtain ⟨hfirst, -⟩ := List.cons.inj hsplit
      exact absurd (congrArg Prod.snd hfirst) hl
    | cons p front =>
      obtain ⟨rfl, rfl⟩ := List.cons.inj hsplit
      obtain ⟨a, as', ha, has, rfl⟩ := List.forall₂_cons_left_iff.mp hfront
      exact ⟨a, as', ha, ⟨front, n', rfl, has⟩, rfl⟩
  · rintro ⟨a, as', ha, ⟨front, n', rfl, has⟩, rfl⟩
    exact ⟨(n, l) :: front, n', rfl, List.Forall₂.cons ha has⟩

end

/-! ### What the readers take -/

variable {t t' : SymbolTable} {ls r : List NumberedLine}

theorem colon_not_mem_marker (a : Awaited) : ':' ∉ a.text.toList := by
  cases a <;> decide

theorem not_symbolLine_marker (a : Awaited) (x : Symbol) : ¬ SymbolLine a.text x := by
  rintro ⟨_, _, _, _, hline, -⟩
  exact fieldLine_ne (List.cons_ne_nil _ _) (colon_not_mem_marker a) hline.symm

theorem not_longRelocationLine_marker (a : Awaited) (x : Relocation) :
    ¬ LongRelocationLine a.text x := by
  rintro ⟨line, rest, hline, ⟨kind, offset, rfl, -⟩, -⟩
  apply colon_not_mem_marker a
  rw [hline, String.toList_append, Text.toList_fieldLine]
  simp

theorem toList_insert (t : SymbolTable) (x : Symbol) : (t.insert x).toList = t.toList ++ [x] :=
  Array.toList_push

/-- **Symbols are read** just from their lines and the marker behind them. -/
theorem readSymbols_eq_ok_iff : readSymbols t ls = .ok (t', r) ↔
    ∃ symbols, LinesUpTo .endSymbols SymbolLine ls symbols r ∧
      t'.toList = t.toList ++ symbols.filter (fun x => x.name ≠ Symbol.undefinedName) := by
  induction ls generalizing t with
  | nil =>
    refine ⟨nofun, ?_⟩
    rintro ⟨symbols, h, -⟩
    exact absurd h not_linesUpTo_nil
  | cons p ls ih =>
    obtain ⟨n, l⟩ := p
    rw [readSymbols]
    by_cases hmarker : l = Awaited.endSymbols.text
    · rw [if_pos hmarker, hmarker]
      simp only [linesUpTo_cons_marker (not_symbolLine_marker _), Except.ok.injEq, Prod.mk.injEq]
      constructor
      · rintro ⟨rfl, rfl⟩
        exact ⟨[], ⟨rfl, rfl⟩, by simp⟩
      · rintro ⟨_, ⟨rfl, rfl⟩, htable⟩
        rw [List.filter_nil, List.append_nil] at htable
        exact ⟨congrArg SymbolTable.mk (Array.toList_inj.mp htable).symm, rfl⟩
    · rw [if_neg hmarker]
      simp only [linesUpTo_cons hmarker, ← Symbol.ofLine?_eq_some_iff]
      cases Symbol.ofLine? l with
      | none =>
        refine ⟨nofun, ?_⟩
        rintro ⟨_, ⟨_, _, h, -⟩, -⟩
        cases h
      | some x =>
        simp only [ih, Option.some.injEq]
        have htable : ∀ symbols : List Symbol,
            (if x.name = Symbol.undefinedName then t else t.insert x).toList ++
                symbols.filter (fun x => x.name ≠ Symbol.undefinedName) =
              t.toList ++ (x :: symbols).filter (fun x => x.name ≠ Symbol.undefinedName) := by
          intro symbols
          by_cases hname : x.name = Symbol.undefinedName
          · simp [hname]
          · simp [hname, toList_insert]
        simp only [htable]
        constructor
        · rintro ⟨symbols, hsymbols, h⟩
          exact ⟨x :: symbols, ⟨x, symbols, rfl, hsymbols, rfl⟩, h⟩
        · rintro ⟨_, ⟨_, symbols, rfl, hsymbols, rfl⟩, h⟩
          exact ⟨symbols, hsymbols, h⟩

/-- **Relocations are read** just from their lines, or longer ones, and the marker behind them. -/
theorem readRelocations_eq_ok_iff : readRelocations ls = .ok (xs, r) ↔
    LinesUpTo .endRelocations LongRelocationLine ls xs r := by
  induction ls generalizing xs with
  | nil => exact ⟨nofun, fun h => absurd h not_linesUpTo_nil⟩
  | cons p ls ih =>
    obtain ⟨n, l⟩ := p
    rw [readRelocations]
    by_cases hmarker : l = Awaited.endRelocations.text
    · rw [if_pos hmarker, hmarker, linesUpTo_cons_marker (not_longRelocationLine_marker _)]
      simp only [Except.ok.injEq, Prod.mk.injEq]
      exact and_congr eq_comm eq_comm
    · rw [if_neg hmarker]
      simp only [linesUpTo_cons hmarker, ← Relocation.ofLine?_eq_some_iff, ← ih]
      cases Relocation.ofLine? l with
      | none => simp
      | some x =>
        cases readRelocations ls with
        | error e => simp
        | ok y =>
          obtain ⟨ys, r'⟩ := y
          simp only [Except.ok.injEq, Prod.mk.injEq, Option.some.injEq]
          constructor
          · rintro ⟨rfl, rfl⟩
            exact ⟨x, ys, rfl, ⟨rfl, rfl⟩, rfl⟩
          · rintro ⟨_, _, rfl, ⟨rfl, rfl⟩, rfl⟩
            exact ⟨rfl, rfl⟩

/-- **The end of a section is read** just from the lines of its relocations and the end marker. -/
theorem readSectionEnd_eq_ok_iff : readSectionEnd ls = .ok (xs, r) ↔
    ∃ front n, ls = front ++ (n, Awaited.endSection.text) :: r ∧
      EntryLines LongRelocationLine (front.map Prod.snd) xs := by
  have hdiffer : Awaited.relocations.text ≠ Awaited.endSection.text := by decide
  constructor
  · intro h
    unfold readSectionEnd at h
    split at h
    · cases h
    · rename_i n l ls
      split at h
      · rename_i hend
        cases h
        exact ⟨[], n, by rw [hend]; rfl, .inl ⟨rfl, rfl⟩⟩
      · split at h
        · rename_i hrelocations
          split at h
          · cases h
          · cases h
          · rename_i ys n' l' r' hread
            split at h
            · rename_i hend
              cases h
              obtain ⟨front, n'', rfl, hfront⟩ := readRelocations_eq_ok_iff.mp hread
              refine ⟨(n, l) :: front ++ [(n'', Awaited.endRelocations.text)], n', ?_, ?_⟩
              · simp [hend]
              · exact .inr ⟨front.map Prod.snd, by simp [hrelocations], hfront⟩
            · cases h
        · cases h
  · rintro ⟨front, n, rfl, hentries⟩
    rcases hentries with ⟨hnone, rfl⟩ | ⟨entries, hentries, hlines⟩
    · rw [List.map_eq_nil_iff.mp hnone, List.nil_append, readSectionEnd, if_pos rfl]
    · obtain ⟨⟨n', _⟩, front', rfl, rfl, hfront⟩ := List.map_eq_cons_iff.mp hentries
      obtain ⟨front, last, rfl, rfl, hlast⟩ := List.map_eq_append_iff.mp hfront
      obtain ⟨⟨n'', _⟩, _, rfl, rfl, hnil⟩ := List.map_eq_cons_iff.mp hlast
      obtain rfl := List.map_eq_nil_iff.mp hnil
      have hread : readRelocations (front ++ (n'', Awaited.endRelocations.text) ::
          (n, Awaited.endSection.text) :: r) = .ok (xs, (n, Awaited.endSection.text) :: r) :=
        readRelocations_eq_ok_iff.mpr ⟨front, n'', rfl, hlines⟩
      have hsplit : (n', Awaited.relocations.text) :: (front ++ [(n'', Awaited.endRelocations.text)]) ++
          (n, Awaited.endSection.text) :: r = (n', Awaited.relocations.text) ::
          (front ++ (n'', Awaited.endRelocations.text) :: (n, Awaited.endSection.text) :: r) := by
        simp
      rw [hsplit, readSectionEnd, if_neg hdiffer, if_pos rfl, hread]
      exact if_pos rfl

/-- What is read after the marker of a section, its name and its bytes. -/
theorem readSections_cons (n : Nat) (name code : NumberedLine) (ls : List NumberedLine) :
    readSections ((n, Awaited.newSection.text) :: name :: code :: ls) =
      match readBytes code.2 with
      | none => .error (.malformed .sectionBytes code.1 code.2)
      | some bytes =>
        match readSectionEnd ls with
        | .error e => .error e
        | .ok (xs, r) => (readSections r).map (⟨name.2, bytes.toArray, xs⟩ :: ·) := by
  have hdiffer : Awaited.newSection.text ≠ Awaited.endFile.text := by decide
  obtain ⟨n', name⟩ := name
  obtain ⟨n'', code⟩ := code
  rw [readSections, if_neg hdiffer, if_pos rfl]
  cases readBytes code with
  | none => rfl
  | some bytes =>
    simp only
    split
    · rename_i hend
      rw [hend]
    · rename_i xs r hend
      rw [hend]
      cases hrest : readSections r with
      | error e => simp only [hrest, Except.map]
      | ok ss => simp only [hrest, Except.map]

theorem readSections_endFile (n : Nat) (ls : List NumberedLine) :
    readSections ((n, Awaited.endFile.text) :: ls) = .ok [] := by
  rw [readSections.eq_def]
  exact if_pos rfl

theorem readSections_other {l : String} (hend : l ≠ Awaited.endFile.text)
    (hnew : l ≠ Awaited.newSection.text) (n : Nat) (ls : List NumberedLine) :
    readSections ((n, l) :: ls) = .error (.expected .newSection n l) := by
  rw [readSections.eq_def]
  simp only
  rw [if_neg hend, if_neg hnew]

/-- A section is read just if its name, its bytes, its end and the sections behind it are. -/
theorem readSections_cons_eq_ok_iff {n : Nat} {name code : NumberedLine} :
    readSections ((n, Awaited.newSection.text) :: name :: code :: ls) = .ok ss ↔
      ∃ bytes xs r ss', BytesLine code.2 bytes ∧ readSectionEnd ls = .ok (xs, r) ∧
        readSections r = .ok ss' ∧ ss = ⟨name.2, bytes.toArray, xs⟩ :: ss' := by
  rw [readSections_cons]
  simp only [← readBytes_eq_some_iff]
  cases readBytes code.2 with
  | none => simp
  | some bytes =>
    cases readSectionEnd ls with
    | error e => simp
    | ok y =>
      obtain ⟨xs, r⟩ := y
      simp only [Option.some.injEq, Except.ok.injEq, Prod.mk.injEq]
      cases hrest : readSections r with
      | error e =>
        constructor
        · intro h
          cases h
        · rintro ⟨_, _, _, ss', rfl, ⟨rfl, rfl⟩, h, -⟩
          rw [hrest] at h
          cases h
      | ok ss' =>
        constructor
        · intro h
          exact ⟨bytes, xs, r, ss', rfl, ⟨rfl, rfl⟩, hrest, (Except.ok.inj h).symm⟩
        · rintro ⟨_, _, _, ss'', rfl, ⟨rfl, rfl⟩, h, rfl⟩
          rw [hrest] at h
          cases h
          rfl

/-- The lines of a section that is read, and those of the sections behind it. -/
theorem exists_of_readSections (h : readSections ls = .ok ss) :
    ∃ front n rest parts, ls = front ++ (n, Awaited.endFile.text) :: rest ∧
      front.map Prod.snd = parts.flatten ∧
      List.Forall₂ (SectionLines LongRelocationLine) parts ss := by
  induction hlen : ls.length using Nat.strongRecOn generalizing ls ss with
  | ind len ih =>
    cases ls with
    | nil => simp [readSections] at h
    | cons p ls =>
      obtain ⟨n, l⟩ := p
      by_cases hend : l = Awaited.endFile.text
      · subst hend
        rw [readSections_endFile] at h
        cases h
        exact ⟨[], n, ls, [], rfl, rfl, List.Forall₂.nil⟩
      · by_cases hnew : l = Awaited.newSection.text
        · subst hnew
          rcases ls with _ | ⟨name, _ | ⟨code, ls⟩⟩
          · simp [readSections, hend] at h
          · simp [readSections, hend] at h
          · obtain ⟨bytes, xs, r, ss', hbytes, hread, hrest, rfl⟩ :=
              readSections_cons_eq_ok_iff.mp h
            obtain ⟨front, n', rfl, hentries⟩ := readSectionEnd_eq_ok_iff.mp hread
            have hshort : r.length < len := by
              rw [← hlen]
              simp
              omega
            obtain ⟨front', n'', rest, parts, rfl, hparts, hss⟩ := ih r.length hshort hrest rfl
            refine ⟨(n, Awaited.newSection.text) :: name :: code :: front ++
              (n', Awaited.endSection.text) :: front', n'', rest,
              (Awaited.newSection.text :: name.2 :: code.2 :: front.map Prod.snd ++
                [Awaited.endSection.text]) :: parts, ?_, ?_, List.Forall₂.cons ?_ hss⟩
            · simp
            · simp [hparts]
            · exact ⟨code.2, front.map Prod.snd, rfl, hbytes, hentries⟩
        · rw [readSections_other hend hnew] at h
          cases h

/-- **Sections are read** just from their lines and the marker for the end of the file. -/
theorem readSections_eq_ok_iff : readSections ls = .ok ss ↔
    ∃ front n rest parts, ls = front ++ (n, Awaited.endFile.text) :: rest ∧
      front.map Prod.snd = parts.flatten ∧
      List.Forall₂ (SectionLines LongRelocationLine) parts ss := by
  refine ⟨exists_of_readSections, ?_⟩
  rintro ⟨front, n, rest, parts, rfl, hparts, hss⟩
  induction hss generalizing front with
  | nil =>
    rw [List.map_eq_nil_iff.mp hparts, List.nil_append]
    exact readSections_endFile n rest
  | @cons part s parts ss hs _ ih =>
    obtain ⟨code, entries, rfl, hbytes, hentries⟩ := hs
    rw [List.flatten_cons] at hparts
    obtain ⟨own, front', rfl, hown, hfront'⟩ := List.map_eq_append_iff.mp hparts
    obtain ⟨⟨n', _⟩, own₁, rfl, rfl, hown₁⟩ := List.map_eq_cons_iff.mp hown
    obtain ⟨name, own₂, rfl, hname, hown₂⟩ := List.map_eq_cons_iff.mp hown₁
    obtain ⟨line, own₃, rfl, rfl, hown₃⟩ := List.map_eq_cons_iff.mp hown₂
    obtain ⟨own, last, rfl, rfl, hlast⟩ := List.map_eq_append_iff.mp hown₃
    obtain ⟨⟨n'', _⟩, _, rfl, rfl, hnil⟩ := List.map_eq_cons_iff.mp hlast
    obtain rfl := List.map_eq_nil_iff.mp hnil
    have hread : readSectionEnd (own ++ (n'', Awaited.endSection.text) ::
        (front' ++ (n, Awaited.endFile.text) :: rest)) =
          .ok (s.relocations, front' ++ (n, Awaited.endFile.text) :: rest) :=
      readSectionEnd_eq_ok_iff.mpr ⟨own, n'', rfl, hentries⟩
    have hsplit : (n', Awaited.newSection.text) :: name :: line ::
          (own ++ [(n'', Awaited.endSection.text)]) ++ front' ++ (n, Awaited.endFile.text) :: rest =
        (n', Awaited.newSection.text) :: name :: line :: (own ++ (n'', Awaited.endSection.text) ::
          (front' ++ (n, Awaited.endFile.text) :: rest)) := by
      simp
    rw [hsplit]
    refine readSections_cons_eq_ok_iff.mpr ⟨_, _, _, _, hbytes, hread, ih front' hfront', ?_⟩
    rw [hname]

/-! ### What is read as a module -/

namespace ObjectModule

/-- The module of lines with their numbers. -/
def ofLines (ls : List NumberedLine) : Except FormatError ObjectModule :=
  match readSymbols SymbolTable.new ls with
  | .error e => .error e
  | .ok (t, r) => (readSections r).map fun ss => ⟨t, ss⟩

/-- **A module is read** just from its lines. -/
theorem ofLines_eq_ok_iff : ofLines ls = .ok m ↔
    ModuleLines LongRelocationLine (ls.map Prod.snd) m := by
  constructor
  · intro h
    unfold ofLines at h
    cases hsymbols : readSymbols SymbolTable.new ls with
    | error e =>
      rw [hsymbols] at h
      cases h
    | ok y =>
      obtain ⟨t, r⟩ := y
      cases hsections : readSections r with
      | error e =>
        simp only [hsymbols, hsections] at h
        cases h
      | ok ss =>
        simp only [hsymbols, hsections] at h
        cases h
        obtain ⟨symbols, ⟨front, n, rfl, hfront⟩, htable⟩ := readSymbols_eq_ok_iff.mp hsymbols
        obtain ⟨front', n', rest, parts, rfl, hparts, hss⟩ := readSections_eq_ok_iff.mp hsections
        exact ⟨front.map Prod.snd, symbols, parts, rest.map Prod.snd, by simp [hparts], hfront,
          htable, hss⟩
  · rintro ⟨front, symbols, parts, rest, hsplit, hfront, htable, hss⟩
    rw [List.append_assoc, List.cons_append] at hsplit
    obtain ⟨front, r₁, rfl, rfl, hr₁⟩ := List.map_eq_append_iff.mp hsplit
    obtain ⟨⟨n, _⟩, r₂, rfl, rfl, hr₂⟩ := List.map_eq_cons_iff.mp hr₁
    obtain ⟨front', r₃, rfl, hparts, hr₃⟩ := List.map_eq_append_iff.mp hr₂
    obtain ⟨⟨n', _⟩, rest, rfl, rfl, -⟩ := List.map_eq_cons_iff.mp hr₃
    have hsymbols : readSymbols SymbolTable.new (front ++ (n, Awaited.endSymbols.text) ::
        (front' ++ (n', Awaited.endFile.text) :: rest)) =
          .ok (m.symbols, front' ++ (n', Awaited.endFile.text) :: rest) :=
      readSymbols_eq_ok_iff.mpr ⟨symbols, ⟨front, n, rfl, hfront⟩, htable⟩
    have hsections : readSections (front' ++ (n', Awaited.endFile.text) :: rest) = .ok m.sections :=
      readSections_eq_ok_iff.mpr ⟨front', n', rest, parts, rfl, hparts, hss⟩
    unfold ofLines
    rw [hsymbols]
    simp only [hsections]
    rfl

end ObjectModule
end Sx16
