/-
# Where the reader of object modules complains

A reader of lines is prompt if it decides about a line as soon as it sees it. Then it complains about the
first line with which no module can begin, whatever follows that line, and what is before it could still
become one; and if it runs out of lines, all of them could. Each reader of an object module is prompt,
and so is one that goes on with another where the first one stops. Together with the grammar this tells
what becomes of any text.

A relocation's line should end with its third field. The reader does not mind a longer one, so its
grammar is the one with longer lines; for a text without such lines it is the stricter one.

Key definitions: `FormatError.at?`, `Prompt`, `Text.trimmedLines`, `Viable`.
Key theorems: `Prompt.andThen`, `prompt_readSections`, `ObjectModule.prompt_ofLines`,
`ObjectModule.ofText_exactly`, `ObjectModule.ofText_overlong`.
-/
import Sx16.Proofs.Object.Grammar
import Sx16.Proofs.Object.ReadBack

namespace Sx16

open Text (NumberedLine)

/-- The line that a complaint is about, with its number. -/
def FormatError.at? : FormatError → Option NumberedLine
  | malformed _ n l => some (n, l)
  | expected _ n l => some (n, l)
  | unexpectedEof _ => none
  | addressOverflow _ => none

/-! ### Prompt readers -/

section

variable {γ δ : Type} {rest : γ → List NumberedLine} {rest' : δ → List NumberedLine}
  {read : List NumberedLine → Except FormatError γ} {read' : List NumberedLine → Except FormatError δ}
  {ls : List NumberedLine} {p : NumberedLine} {e : FormatError}

/-- A reader that misses something at the end of the lines. -/
def Starved (read : List NumberedLine → Except FormatError γ) (ls : List NumberedLine) : Prop :=
  ∃ a, read ls = .error (.unexpectedEof a)

/-- Further lines exist with which a reader comes to its end, without any left over. -/
def Completable (rest : γ → List NumberedLine) (read : List NumberedLine → Except FormatError γ)
    (ls : List NumberedLine) : Prop :=
  ∃ more, (∀ p ∈ more, Text.IsTrimmed p.2) ∧ ∃ x, read (ls ++ more) = .ok x ∧ rest x = []

/-- A reader that complains about a line whatever follows it, and only misses something before it. -/
def ComplainsAt (read : List NumberedLine → Except FormatError γ) (ls : List NumberedLine)
    (e : FormatError) (p : NumberedLine) : Prop :=
  ∃ front back, ls = front ++ p :: back ∧ Starved read front ∧
    ∀ back', read (front ++ p :: back') = .error e

/-- A reader that goes on with another one on the lines that it leaves. -/
def andThen (first : List NumberedLine → Except FormatError (δ × List NumberedLine))
    (next : δ → List NumberedLine → Except FormatError γ) (ls : List NumberedLine) :
    Except FormatError γ :=
  match first ls with
  | .error e => .error e
  | .ok (y, r) => next y r

/-- A reader that does not look at the lines that it leaves. -/
def LeavesRest (read : List NumberedLine → Except FormatError (δ × List NumberedLine)) : Prop :=
  ∀ ls y r, read ls = .ok (y, r) → ∃ front, ls = front ++ r ∧ ∀ r', read (front ++ r') = .ok (y, r')

/-- A reader that decides about each of these lines as soon as it sees it. -/
structure Prompt (rest : γ → List NumberedLine) (read : List NumberedLine → Except FormatError γ)
    (ls : List NumberedLine) : Prop where
  starved : Starved read []
  error : ∀ e, read ls = .error e →
    (∃ a, e = .unexpectedEof a) ∧ Completable rest read ls ∨
      ∃ p, e.at? = some p ∧ ComplainsAt read ls e p

namespace Prompt

theorem nil (hs : Starved read []) (hc : Completable rest read []) : Prompt rest read [] where
  starved := hs
  error e h := by
    obtain ⟨a, ha⟩ := hs
    rw [ha] at h
    cases h
    exact .inl ⟨⟨a, rfl⟩, hc⟩

theorem accept {x : γ} (hs : Starved read []) (h : read ls = .ok x) : Prompt rest read ls where
  starved := hs
  error e he := by
    rw [h] at he
    cases he

theorem complain (hs : Starved read []) (he : e.at? = some p)
    (h : ∀ ls, read (p :: ls) = .error e) : Prompt rest read (p :: ls) where
  starved := hs
  error e' h' := by
    rw [h] at h'
    cases h'
    exact .inr ⟨p, he, [], ls, rfl, hs, h⟩

theorem step (hs : Starved read []) {read' : List NumberedLine → Except FormatError γ}
    (h : ∀ ls, read (p :: ls) = read' ls) (hp : Prompt rest read' ls) :
    Prompt rest read (p :: ls) where
  starved := hs
  error e he := by
    rw [h] at he
    rcases hp.error e he with ⟨heof, more, htrimmed, x, hx, hrest⟩ |
      ⟨q, hq, front, back, rfl, ⟨a, ha⟩, hback⟩
    · exact .inl ⟨heof, more, htrimmed, x, (h _).trans hx, hrest⟩
    · exact .inr ⟨q, hq, p :: front, back, rfl, ⟨a, (h _).trans ha⟩, fun back' => (h _).trans (hback _)⟩

/-- What a reader gives may be changed. -/
theorem map {f : δ → γ} (hf : ∀ y, rest (f y) = rest' y) (hp : Prompt rest' read' ls) :
    Prompt rest (fun ls => (read' ls).map f) ls where
  starved := by
    obtain ⟨a, ha⟩ := hp.starved
    exact ⟨a, congrArg (Except.map f) ha⟩
  error e he := by
    have he' : read' ls = .error e := by
      cases h : read' ls with
      | error e' =>
        simp only [h, Except.map] at he
        rw [Except.error.inj he]
      | ok y =>
        simp only [h, Except.map] at he
        cases he
    rcases hp.error e he' with ⟨heof, more, htrimmed, y, hy, hrest⟩ |
      ⟨q, hq, front, back, hls, ⟨a, ha⟩, hback⟩
    · exact .inl ⟨heof, more, htrimmed, f y, congrArg (Except.map f) hy, (hf y).trans hrest⟩
    · exact .inr ⟨q, hq, front, back, hls, ⟨a, congrArg (Except.map f) ha⟩,
        fun back' => congrArg (Except.map f) (hback back')⟩

section

variable {first : List NumberedLine → Except FormatError (δ × List NumberedLine)}
  {next : δ → List NumberedLine → Except FormatError γ} {y : δ} {r : List NumberedLine}

theorem andThen_error (h : first ls = .error e) : andThen first next ls = .error e := by
  rw [andThen, h]

theorem andThen_ok (h : first ls = .ok (y, r)) : andThen first next ls = next y r := by
  rw [andThen, h]

/-- **A reader that goes on with another** where the first one stops is prompt, if both are. -/
theorem andThen (hlocal : LeavesRest first) (hfirst : Prompt Prod.snd first ls)
    (hempty : ∀ y, Prompt rest (next y) [])
    (hnext : ∀ y r, first ls = .ok (y, r) → Prompt rest (next y) r) :
    Prompt rest (andThen first next) ls where
  starved := by
    obtain ⟨a, ha⟩ := hfirst.starved
    exact ⟨a, andThen_error ha⟩
  error e he := by
    cases h : first ls with
    | error e' =>
      rw [andThen_error h] at he
      obtain rfl := Except.error.inj he
      rcases hfirst.error e' h with ⟨heof, more, htrimmed, ⟨y, r⟩, hy, rfl⟩ |
        ⟨q, hq, front, back, hls, ⟨a, ha⟩, hback⟩
      · -- the lines that complete the first reader, and then those that complete the next one
        obtain ⟨a, ha⟩ := (hempty y).starved
        rcases (hempty y).error _ ha with ⟨-, more', htrimmed', x, hx, hrest⟩ | ⟨q, hq, -⟩
        · obtain ⟨front, hfront, hread⟩ := hlocal _ _ _ hy
          rw [List.append_nil] at hfront
          refine .inl ⟨heof, more ++ more', ?_, x, ?_, hrest⟩
          · intro p hp
            rcases List.mem_append.mp hp with hp | hp
            · exact htrimmed p hp
            · exact htrimmed' p hp
          · rw [← List.append_assoc, hfront, andThen_ok (hread more')]
            exact hx
        · cases hq
      · exact .inr ⟨q, hq, front, back, hls, ⟨a, andThen_error ha⟩,
          fun back' => andThen_error (hback back')⟩
    | ok yr =>
      obtain ⟨y, r⟩ := yr
      obtain ⟨front, rfl, hread⟩ := hlocal _ _ _ h
      rw [andThen_ok h] at he
      rcases (hnext y r h).error e he with ⟨heof, more, htrimmed, x, hx, hrest⟩ |
        ⟨q, hq, front', back, rfl, ⟨a, ha⟩, hback⟩
      · refine .inl ⟨heof, more, htrimmed, x, ?_, hrest⟩
        rw [List.append_assoc, andThen_ok (hread _)]
        exact hx
      · refine .inr ⟨q, hq, front ++ front', back, (List.append_assoc ..).symm,
          ⟨a, (andThen_ok (hread _)).trans ha⟩, fun back' => ?_⟩
        rw [List.append_assoc, andThen_ok (hread _)]
        exact hback back'

end

end Prompt

end

/-! ### The readers of an object module -/

variable {t : SymbolTable} {ls : List NumberedLine}

theorem isTrimmed_empty : Text.IsTrimmed "" := Text.isTrimmed_of_all (by decide) (by decide)

/-- Markers and empty lines have no blank at their end. -/
theorem completable_of_markers {γ : Type} {rest : γ → List NumberedLine}
    {read : List NumberedLine → Except FormatError γ} (more : List NumberedLine)
    (hmore : ∀ p ∈ more, p.2 = "" ∨ ∃ a : Awaited, p.2 = a.text) {x : γ} (hx : read more = .ok x)
    (hrest : rest x = []) : Completable rest read [] := by
  refine ⟨more, fun p hp => ?_, x, hx, hrest⟩
  rcases hmore p hp with h | ⟨a, h⟩
  · rw [h]
    exact isTrimmed_empty
  · rw [h]
    exact isTrimmed_text a

theorem prompt_readSymbols (ls : List NumberedLine) (t : SymbolTable) :
    Prompt Prod.snd (readSymbols t) ls := by
  have hs : ∀ t, Starved (readSymbols t) [] := fun _ => ⟨.endSymbols, rfl⟩
  induction ls generalizing t with
  | nil =>
    refine Prompt.nil (hs t) (completable_of_markers [(0, Awaited.endSymbols.text)] ?_ rfl rfl)
    simp
  | cons p ls ih =>
    obtain ⟨n, l⟩ := p
    by_cases hmarker : l = Awaited.endSymbols.text
    · exact Prompt.accept (x := (t, ls)) (hs t) (if_pos hmarker)
    · cases hl : Symbol.ofLine? l with
      | none =>
        refine Prompt.complain (e := .malformed .symbol n l) (hs t) rfl fun ls => ?_
        rw [readSymbols, if_neg hmarker, hl]
      | some x =>
        refine Prompt.step (hs t) (fun ls => ?_)
          (ih (if x.name = Symbol.undefinedName then t else t.insert x))
        rw [readSymbols, if_neg hmarker, hl]

theorem prompt_readRelocations (ls : List NumberedLine) : Prompt Prod.snd readRelocations ls := by
  have hs : Starved readRelocations [] := ⟨.endRelocations, rfl⟩
  induction ls with
  | nil =>
    refine Prompt.nil hs (completable_of_markers [(0, Awaited.endRelocations.text)] ?_ rfl rfl)
    simp
  | cons p ls ih =>
    obtain ⟨n, l⟩ := p
    by_cases hmarker : l = Awaited.endRelocations.text
    · exact Prompt.accept (x := ([], ls)) hs (if_pos hmarker)
    · cases hl : Relocation.ofLine? l with
      | none =>
        refine Prompt.complain (e := .malformed .relocation n l) hs rfl fun ls => ?_
        rw [readRelocations, if_neg hmarker, hl]
      | some x =>
        refine Prompt.step hs (fun ls => ?_)
          (ih.map (f := fun y : List Relocation × List NumberedLine => (x :: y.1, y.2)) fun _ => rfl)
        rw [readRelocations, if_neg hmarker, hl]
        cases readRelocations ls <;> rfl

/-- The end marker of a section, after its relocations. -/
def readClose (xs : List Relocation) :
    List NumberedLine → Except FormatError (List Relocation × List NumberedLine)
  | [] => .error (.unexpectedEof .endSection)
  | (n, l) :: r =>
    if l = Awaited.endSection.text then .ok (xs, r) else .error (.expected .endSection n l)

theorem prompt_readClose (xs : List Relocation) (ls : List NumberedLine) :
    Prompt Prod.snd (readClose xs) ls := by
  have hs : Starved (readClose xs) [] := ⟨.endSection, rfl⟩
  cases ls with
  | nil =>
    refine Prompt.nil hs (completable_of_markers [(0, Awaited.endSection.text)] ?_ rfl rfl)
    simp
  | cons p ls =>
    obtain ⟨n, l⟩ := p
    by_cases hmarker : l = Awaited.endSection.text
    · exact Prompt.accept (x := (xs, ls)) hs (if_pos hmarker)
    · exact Prompt.complain (e := .expected .endSection n l) hs rfl fun ls => if_neg hmarker

theorem leavesRest_readSymbols : LeavesRest (readSymbols t) := by
  intro ls t' r h
  obtain ⟨symbols, ⟨front, n, rfl, hlines⟩, htable⟩ := readSymbols_eq_ok_iff.mp h
  refine ⟨front ++ [(n, Awaited.endSymbols.text)], by simp, fun r' => ?_⟩
  exact readSymbols_eq_ok_iff.mpr ⟨symbols, ⟨front, n, by simp, hlines⟩, htable⟩

theorem leavesRest_readRelocations : LeavesRest readRelocations := by
  intro ls xs r h
  obtain ⟨front, n, rfl, hlines⟩ := readRelocations_eq_ok_iff.mp h
  refine ⟨front ++ [(n, Awaited.endRelocations.text)], by simp, fun r' => ?_⟩
  exact readRelocations_eq_ok_iff.mpr ⟨front, n, by simp, hlines⟩

theorem leavesRest_readSectionEnd : LeavesRest readSectionEnd := by
  intro ls xs r h
  obtain ⟨front, n, rfl, hlines⟩ := readSectionEnd_eq_ok_iff.mp h
  refine ⟨front ++ [(n, Awaited.endSection.text)], by simp, fun r' => ?_⟩
  exact readSectionEnd_eq_ok_iff.mpr ⟨front, n, by simp, hlines⟩

theorem prompt_readSectionEnd (ls : List NumberedLine) : Prompt Prod.snd readSectionEnd ls := by
  have hs : Starved readSectionEnd [] := ⟨.endSection, rfl⟩
  cases ls with
  | nil =>
    refine Prompt.nil hs (completable_of_markers [(0, Awaited.endSection.text)] ?_ rfl rfl)
    simp
  | cons p ls =>
    obtain ⟨n, l⟩ := p
    by_cases hend : l = Awaited.endSection.text
    · exact Prompt.accept (x := ([], ls)) hs (if_pos hend)
    · by_cases hrelocations : l = Awaited.relocations.text
      · have hboth : Prompt Prod.snd (andThen readRelocations readClose) ls :=
          Prompt.andThen leavesRest_readRelocations (prompt_readRelocations ls)
            (fun xs => prompt_readClose xs []) fun xs r _ => prompt_readClose xs r
        refine Prompt.step hs (fun ls => ?_) hboth
        rw [readSectionEnd, if_neg hend, if_pos hrelocations, andThen]
        cases readRelocations ls with
        | error e => rfl
        | ok y =>
          obtain ⟨xs, r⟩ := y
          cases r <;> rfl
      · refine Prompt.complain (e := .expected .endSection n l) hs rfl fun ls => ?_
        rw [readSectionEnd, if_neg hend, if_neg hrelocations]

/-- What is read after the name of a section. -/
def readCode (name : String) : List NumberedLine → Except FormatError (List SectionData)
  | [] => .error (.unexpectedEof .sectionBytes)
  | (n, code) :: ls =>
    match readBytes code with
    | none => .error (.malformed .sectionBytes n code)
    | some bytes =>
      andThen readSectionEnd (fun xs r => (readSections r).map (⟨name, bytes.toArray, xs⟩ :: ·)) ls

/-- What is read after the marker of a section. -/
def readNamed : List NumberedLine → Except FormatError (List SectionData)
  | [] => .error (.unexpectedEof .sectionName)
  | (_, name) :: ls => readCode name ls

theorem readSections_newSection (n : Nat) (ls : List NumberedLine) :
    readSections ((n, Awaited.newSection.text) :: ls) = readNamed ls := by
  have hdiffer : Awaited.newSection.text ≠ Awaited.endFile.text := by decide
  match ls with
  | [] | [_] =>
    rw [readSections.eq_def]
    simp only [if_neg hdiffer, if_true]
    rfl
  | name :: code :: ls =>
    rw [readSections_cons, readNamed, readCode]
    cases readBytes code.2 with
    | none => rfl
    | some bytes =>
      simp only [andThen]
      cases readSectionEnd ls <;> rfl

theorem starved_readSections : Starved readSections [] := ⟨.endFile, by rw [readSections]⟩

theorem prompt_readSections_nil : Prompt (fun _ => []) readSections [] := by
  refine Prompt.nil starved_readSections (completable_of_markers [(0, Awaited.endFile.text)] ?_
    (readSections_endFile 0 []) rfl)
  simp

theorem readCode_empty (name : String) : readCode name [(0, ""), (0, Awaited.endSection.text),
    (0, Awaited.endFile.text)] = .ok [⟨name, #[], []⟩] := by
  change (readSections [(0, Awaited.endFile.text)]).map _ = _
  rw [readSections_endFile]
  rfl

theorem prompt_readCode (name : String) (ls : List NumberedLine)
    (hrest : ∀ r : List NumberedLine, r.length < ls.length → Prompt (fun _ => []) readSections r) :
    Prompt (fun _ => []) (readCode name) ls := by
  have hs : Starved (readCode name) [] := ⟨.sectionBytes, rfl⟩
  cases ls with
  | nil =>
    refine Prompt.nil hs (completable_of_markers _ ?_ (readCode_empty name) rfl)
    simp
  | cons p ls =>
    obtain ⟨n, code⟩ := p
    cases hbytes : readBytes code with
    | none =>
      refine Prompt.complain (e := .malformed .sectionBytes n code) hs rfl fun ls => ?_
      rw [readCode, hbytes]
    | some bytes =>
      have hboth : Prompt (fun _ => []) (andThen readSectionEnd fun xs r =>
          (readSections r).map (⟨name, bytes.toArray, xs⟩ :: ·)) ls := by
        refine Prompt.andThen leavesRest_readSectionEnd (prompt_readSectionEnd ls)
          (fun xs => prompt_readSections_nil.map fun _ => rfl) fun xs r hread => ?_
        have hshort : r.length < ((n, code) :: ls).length :=
          Nat.lt_succ_of_le (length_readSectionEnd hread)
        exact (hrest r hshort).map fun _ => rfl
      refine Prompt.step hs (fun ls => ?_) hboth
      rw [readCode, hbytes]

theorem prompt_readNamed (ls : List NumberedLine)
    (hrest : ∀ r : List NumberedLine, r.length < ls.length → Prompt (fun _ => []) readSections r) :
    Prompt (fun _ => []) readNamed ls := by
  have hs : Starved readNamed [] := ⟨.sectionName, rfl⟩
  cases ls with
  | nil =>
    refine Prompt.nil hs (completable_of_markers [(0, ""), (0, ""), (0, Awaited.endSection.text),
      (0, Awaited.endFile.text)] ?_ (readCode_empty "") rfl)
    simp
  | cons p ls =>
    obtain ⟨n, name⟩ := p
    have hcode : Prompt (fun _ => []) (readCode name) ls :=
      prompt_readCode name ls fun r hr => hrest r (Nat.lt_succ_of_lt hr)
    exact hcode.step hs fun ls => rfl

/-- **Sections are read promptly.** -/
theorem prompt_readSections (ls : List NumberedLine) : Prompt (fun _ => []) readSections ls := by
  induction hlen : ls.length using Nat.strongRecOn generalizing ls with
  | ind len ih =>
    cases ls with
    | nil => exact prompt_readSections_nil
    | cons p ls =>
      obtain ⟨n, l⟩ := p
      by_cases hfile : l = Awaited.endFile.text
      · subst hfile
        exact Prompt.accept starved_readSections (readSections_endFile n ls)
      · by_cases hnew : l = Awaited.newSection.text
        · subst hnew
          apply Prompt.step starved_readSections (readSections_newSection n)
          refine prompt_readNamed ls fun r hr => ih r.length ?_ r rfl
          rw [← hlen]
          exact Nat.lt_succ_of_lt hr
        · exact Prompt.complain (e := .expected .newSection n l) starved_readSections rfl fun ls =>
            readSections_other hfile hnew n ls

/-! ### Texts -/

/-- The lines of a text, each without the blanks at its end. -/
def Text.trimmedLines (s : String) : List String :=
  (lines s).map fun l => String.ofList (trimEnd l.toList)

theorem Text.trimmedLines_unlines {ls : List String} (h : ∀ l ∈ ls, IsTrimmed l) :
    trimmedLines (unlines ls) = ls := by
  rw [trimmedLines, lines_unlines fun l hl => (h l hl).isLine]
  have hsame : ∀ l ∈ ls, String.ofList (trimEnd l.toList) = l := by
    intro l hl
    rw [trimEnd_eq_self (h l hl).last, String.ofList_toList]
  rw [List.map_congr_left hsame, List.map_id']

/-- Lines with which a module can begin. -/
def Viable (R : String → Relocation → Prop) (ls : List String) : Prop :=
  ∃ more m, (∀ l ∈ more, Text.IsTrimmed l) ∧ ModuleLines R (ls ++ more) m

namespace ObjectModule

theorem ofLines_eq : ofLines =
    andThen (readSymbols SymbolTable.new) fun t r => (readSections r).map fun ss => ⟨t, ss⟩ := by
  funext ls
  rw [ofLines, andThen]
  cases readSymbols SymbolTable.new ls <;> rfl

/-- **A module is read promptly.** -/
theorem prompt_ofLines (ls : List NumberedLine) : Prompt (fun _ => []) ofLines ls := by
  rw [ofLines_eq]
  refine Prompt.andThen leavesRest_readSymbols (prompt_readSymbols ls SymbolTable.new)
    (fun t => ?_) fun t r _ => ?_
  · exact prompt_readSections_nil.map fun _ => rfl
  · exact (prompt_readSections r).map fun _ => rfl

/-- Lines with their numbers, counted from 1. -/
def numbered (ls : List String) : List NumberedLine := (ls.zipIdx 1).map Prod.swap

theorem map_snd_numbered (ls : List String) : (numbered ls).map Prod.snd = ls := by
  rw [numbered, List.map_map]
  exact List.zipIdx_map_fst 1 ls

theorem number_eq {ls : List String} {front back : List NumberedLine} {n : Nat} {l : String}
    (h : numbered ls = front ++ (n, l) :: back) : n = front.length + 1 := by
  have hget : (numbered ls)[front.length]? = some (n, l) := by
    rw [h]
    simp
  rw [numbered, List.getElem?_map, List.getElem?_zipIdx, Option.map_map,
    Option.map_eq_some_iff] at hget
  obtain ⟨l', -, hl'⟩ := hget
  have hn := congrArg Prod.fst hl'
  simp at hn
  omega

/-- The module of a text is the one of its lines. -/
theorem ofText_eq (s : String) : ofText s = ofLines (numbered (Text.trimmedLines s)) := by
  have hlines : (Text.numberedLines s).map (fun p => (p.1, String.ofList (Text.trimEnd p.2.toList))) =
      numbered (Text.trimmedLines s) := by
    rw [Text.numberedLines, numbered, Text.trimmedLines, List.zipIdx_map, List.map_map, List.map_map]
    rfl
  unfold ofText
  simp only [hlines]
  rw [ofLines]
  cases readSymbols SymbolTable.new (numbered (Text.trimmedLines s)) with
  | error e => rfl
  | ok y =>
    obtain ⟨t, r⟩ := y
    cases hr : readSections r <;> simp only [hr, Except.map]

theorem ofText_eq_ok_iff {s : String} {m : ObjectModule} :
    ofText s = .ok m ↔ ModuleLines LongRelocationLine (Text.trimmedLines s) m := by
  rw [ofText_eq, ofLines_eq_ok_iff, map_snd_numbered]

/-- **What becomes of a text.** It is read just if its lines are those of a module, and then as that module.
A complaint is about the first line with which no module can begin; where lines are missing, more of
them could follow. The lines of relocations may be longer than they should; that is the only difference
from the stricter grammar. -/
theorem ofText_exactly (s : String) :
    (∀ m, ofText s = .ok m ↔ ModuleLines LongRelocationLine (Text.trimmedLines s) m) ∧
    (∀ e, ofText s = .error e →
      (∃ a, e = .unexpectedEof a) ∧ Viable LongRelocationLine (Text.trimmedLines s) ∨
      ∃ front l back, Text.trimmedLines s = front ++ l :: back ∧
        e.at? = some (front.length + 1, l) ∧ Viable LongRelocationLine front ∧
        ¬ Viable LongRelocationLine (front ++ [l])) ∧
    (∀ m, ModuleLines RelocationLine (Text.trimmedLines s) m → ofText s = .ok m) ∧
    ((∀ l ∈ Text.trimmedLines s, ∀ x, LongRelocationLine l x → RelocationLine l x) →
      ∀ m, ofText s = .ok m → ModuleLines RelocationLine (Text.trimmedLines s) m) := by
  refine ⟨fun m => ofText_eq_ok_iff, fun e he => ?_, fun m hm => ?_, fun hstrict m hm => ?_⟩
  · rw [ofText_eq] at he
    rcases (prompt_ofLines _).error e he with ⟨heof, more, htrimmed, m, hm, -⟩ |
      ⟨⟨n, l⟩, hat, front, back, hls, ⟨a, ha⟩, hback⟩
    · refine .inl ⟨heof, more.map Prod.snd, m, List.forall_mem_map.mpr htrimmed, ?_⟩
      rw [← map_snd_numbered (Text.trimmedLines s), ← List.map_append]
      exact ofLines_eq_ok_iff.mp hm
    · refine .inr ⟨front.map Prod.snd, l, back.map Prod.snd, ?_, ?_, ?_, ?_⟩
      · rw [← map_snd_numbered (Text.trimmedLines s), hls]
        simp
      · rw [hat, number_eq hls, List.length_map]
      · rcases (prompt_ofLines front).error _ ha with ⟨-, more, htrimmed, m, hm, -⟩ | ⟨q, hq, -⟩
        · refine ⟨more.map Prod.snd, m, List.forall_mem_map.mpr htrimmed, ?_⟩
          rw [← List.map_append]
          exact ofLines_eq_ok_iff.mp hm
        · cases hq
      · rintro ⟨more, m, -, hm⟩
        -- the lines that follow need no numbers of their own
        have hread := hback (more.map fun l => (0, l))
        have hok : ofLines (front ++ (n, l) :: more.map fun l => (0, l)) = .ok m := by
          refine ofLines_eq_ok_iff.mpr ?_
          simpa [Function.comp_def] using hm
        rw [hread] at hok
        cases hok
  · exact ofText_eq_ok_iff.mpr (hm.mono fun _ _ _ => RelocationLine.long)
  · exact (ofText_eq_ok_iff.mp hm).mono hstrict

/-- A text that ends within the line of a symbol. -/
def cutLines : List String := ["UND:0:0:false:false:0:0:", "a:1:0:fal"]

theorem ofText_exactly_cut :
    ofText (Text.unlines cutLines) = .error (.malformed .symbol 2 "a:1:0:fal") ∧
      Viable LongRelocationLine ["UND:0:0:false:false:0:0:"] ∧
      ¬ Viable LongRelocationLine cutLines := by
  have htrimmed : ∀ l ∈ cutLines, Text.IsTrimmed l := by
    simp only [cutLines, List.forall_mem_cons]
    exact ⟨Text.isTrimmed_of_all (by decide) (by decide), Text.isTrimmed_of_all (by decide) (by decide),
      nofun⟩
  have hread : ofText (Text.unlines cutLines) = .error (.malformed .symbol 2 "a:1:0:fal") := by
    rw [ofText_eq, Text.trimmedLines_unlines htrimmed]
    rfl
  refine ⟨hread, ?_⟩
  obtain ⟨-, hcomplaint, -⟩ := ofText_exactly (Text.unlines cutLines)
  rcases hcomplaint _ hread with ⟨⟨a, ha⟩, -⟩ | ⟨front, l, back, hls, hat, hfront, hline⟩
  · cases ha
  · rw [Text.trimmedLines_unlines htrimmed] at hls
    match front, hat with
    | [first], _ =>
      obtain ⟨rfl, hsecond⟩ := List.cons.inj hls
      obtain ⟨rfl, -⟩ := List.cons.inj hsecond
      exact ⟨hfront, hline⟩

/-- A module whose only relocation has a line that goes on behind its third field. -/
def overlongLines : List String :=
  ["end symbol table", "new section", "a", "", "rel entries", "2:4:foo::x", "end rel entries",
    "end section", "end file"]

/-- A line that should not be one of a relocation is read as one. -/
theorem ofText_overlong :
    ofText (Text.unlines overlongLines) =
        .ok ⟨SymbolTable.new, [⟨"a", #[], [⟨.symbolWord, 4, "foo"⟩]⟩]⟩ ∧
      ¬ ∃ m, ModuleLines RelocationLine (Text.trimmedLines (Text.unlines overlongLines)) m := by
  have htrimmed : ∀ l ∈ overlongLines, Text.IsTrimmed l := by
    simp only [overlongLines, List.forall_mem_cons]
    exact ⟨isTrimmed_text .endSymbols, isTrimmed_text .newSection,
      Text.isTrimmed_of_all (by decide) (by decide), isTrimmed_empty, isTrimmed_text .relocations,
      Text.isTrimmed_of_all (by decide) (by decide), isTrimmed_text .endRelocations,
      isTrimmed_text .endSection, isTrimmed_text .endFile, nofun⟩
  have hlong : Relocation.ofLine? "2:4:foo::x" = some ⟨.symbolWord, 4, "foo"⟩ := by rfl
  have hread : ofText (Text.unlines overlongLines) =
      .ok ⟨SymbolTable.new, [⟨"a", #[], [⟨.symbolWord, 4, "foo"⟩]⟩]⟩ := by
    refine ofText_eq_ok_iff.mpr ?_
    rw [Text.trimmedLines_unlines htrimmed]
    refine ⟨[], [], [["new section", "a", "", "rel entries", "2:4:foo::x", "end rel entries",
      "end section"]], [], rfl, List.Forall₂.nil, rfl, List.Forall₂.cons ?_ List.Forall₂.nil⟩
    exact ⟨"", ["rel entries", "2:4:foo::x", "end rel entries"], rfl,
      readBytes_eq_some_iff.mp rfl, .inr ⟨["2:4:foo::x"], rfl,
        List.Forall₂.cons (Relocation.ofLine?_eq_some_iff.mp hlong) List.Forall₂.nil⟩⟩
  refine ⟨hread, ?_⟩
  rintro ⟨m, hm⟩
  have hm' := ofText_eq_ok_iff.mpr (hm.mono fun _ _ _ => RelocationLine.long)
  rw [hread] at hm'
  obtain rfl := Except.ok.inj hm'
  -- no line has three fields with a colon behind each
  obtain ⟨l, hl, kind, offset, rfl, -, hcolon, hkind, hoffset⟩ :=
    hm.mem List.mem_cons_self List.mem_cons_self
  rw [Text.trimmedLines_unlines htrimmed] at hl
  have hcolons : ∀ f ∈ [kind, offset, "foo"], ':' ∉ f.toList := by
    simp only [List.forall_mem_cons]
    exact ⟨colon_not_mem_unsigned hkind, colon_not_mem_unsigned hoffset, hcolon, nofun⟩
  have hfields := Text.splitOn_fieldLine hcolons
  have hcount : ∀ l ∈ overlongLines, (l.toList.splitOn ':').length ≠ 4 := by decide
  exact hcount _ hl (by rw [hfields]; rfl)

end ObjectModule
end Sx16
