/-
# What a line does to a run, whether it is taken or refused

A line that is refused keeps what it changed before. Still there is little that a line can do. It
edits: it makes names known, defines a label, marks names as exported or imported, closes the open
section or begins a new one. A line with bytes, after its label, notes its placeholders at their
symbols and then puts its bytes into the open section; if they do not fit it is refused, and the
notes stay. So what every line keeps is shown for the edits, for a note and for bytes that fit.

Key definitions: `Assembly.fed`, `Assembly.fedAll`, `SourceLine.uses`, `Edit`, `Effect`.
Key theorems: `effect_line`, `Assembly.fed_of_edits`.
-/
import Mathlib.Logic.Relation
import Sx16.Proofs.Assembly.Resolved

namespace Sx16

/-! ### The placeholders of a line -/

/-- The symbols among values, each with the place of its word. -/
def Value.uses (home : Nat) : UInt16 → List Value → List (String × PendingUse)
  | _, [] => []
  | offset, .literal _ :: vs => uses home (offset + 2) vs
  | offset, .symbol name :: vs => (name, ⟨offset, home, .symbolWord⟩) :: uses home (offset + 2) vs

/-- The symbols in a line, each with the place of its placeholder, if the line's bytes begin at an
offset of a section. -/
def SourceLine.uses (l : SourceLine) (home : Nat) (offset : UInt16) : List (String × PendingUse) :=
  match l.statement with
  | some (.directive (.words values)) => Value.uses home offset values
  | some (.instruction i) =>
    (i.encode.fixup.map fun f => (f.symbol, ⟨offset + f.pos, home, f.kind⟩)).toList
  | _ => []

namespace Assembly

/-! ### States -/

/-- The run after a line, whether the line was taken or refused. -/
def fed (a : Assembly) (t : String) : Assembly :=
  match (feed t).run a with
  | .ok _ b => b
  | .error _ b => b

/-- The run after lines, each of them taken or refused. -/
def fedAll (ts : List String) : Assembly := ts.foldl fed {}

/-- The run with pending uses noted at their symbols. -/
def recorded (a : Assembly) (us : List (String × PendingUse)) : Assembly :=
  us.foldl (fun a u => a.change u.1 fun s => { s with uses := s.uses ++ [u.2] }) a

/-- The run with bytes put into a section. -/
def emitted (a : Assembly) (home : Nat) (bytes : List UInt8) : Assembly :=
  { a with
    sections := a.sections.modify home fun s => { s with bytes := s.bytes ++ bytes }
    listing := a.listing.push ⟨a.line, home, a.location, bytes⟩
    location := UInt16.ofNat (a.sizeAt home + bytes.length) }

/-- The run with a new section opened. -/
def opened (a : Assembly) (name : String) : Assembly :=
  { a with
    symbols := a.symbols.insert (a.symbols.freshSection name)
    sections := a.sections.push { name }
    current := some a.sections.size
    location := 0 }

theorem closeSection_of_none {a : Assembly} (hc : a.current = none) : a.closeSection = a := by
  simp [closeSection, hc]

theorem closeSection_eq_symbols (a : Assembly) :
    a.closeSection = { a with symbols := a.closeSection.symbols } := by
  unfold closeSection
  split <;> rfl

@[simp] theorem sections_closeSection (a : Assembly) : a.closeSection.sections = a.sections := by
  rw [closeSection_eq_symbols]

@[simp] theorem listing_closeSection (a : Assembly) : a.closeSection.listing = a.listing := by
  rw [closeSection_eq_symbols]

@[simp] theorem line_closeSection (a : Assembly) : a.closeSection.line = a.line := by
  rw [closeSection_eq_symbols]

@[simp] theorem sizeAt_closeSection (a : Assembly) (home : Nat) :
    a.closeSection.sizeAt home = a.sizeAt home := by
  rw [sizeAt, sections_closeSection, sizeAt]

theorem fedAll_concat (ts : List String) (t : String) : fedAll (ts ++ [t]) = (fedAll ts).fed t := by
  simp [fedAll]

theorem recorded_eq (a : Assembly) (us : List (String × PendingUse)) :
    a.recorded us = { a with symbols := (a.recorded us).symbols } := by
  induction us generalizing a with
  | nil => rfl
  | cons u us ih => exact ih _

end Assembly

open Assembly

/-! ### Edits -/

/-- A change that a line makes without placing bytes. -/
inductive Edit (l : SourceLine) (a : Assembly) : Assembly → Prop where
  | mention (name : String) : Edit l a (a.mention name)
  /-- A name that is free for it becomes a label of the open section. -/
  | label {home : Nat} (name : String) (hc : a.current = some home)
      (hsec : (a.symbols.meaning name).isSection = false)
      (hdef : (a.symbols.meaning name).isDefined = false)
      (himp : (a.symbols.meaning name).imported = false) :
      Edit l a (a.change name fun s => { s with owner := a.ownerOf home, value := a.location })
  | exports (name : String) (hl : name ∈ Program.exported l.items)
      (himp : (a.symbols.meaning name).imported = false) :
      Edit l a (a.change name fun s => { s with exported := true })
  | imports (name : String) (hl : name ∈ Program.imported l.items)
      (hexp : (a.symbols.meaning name).exported = false)
      (hdef : (a.symbols.meaning name).isDefined = false) :
      Edit l a (a.change name fun s => { s with imported := true })
  | close : Edit l a a.closeSection
  /-- The open section is closed, and a section with a new name begins. -/
  | newSection (name : String) (hnew : a.closeSection.symbols.get? name = none) :
      Edit l a (a.closeSection.opened name)

/-- Several edits of a line. -/
abbrev Edits (l : SourceLine) : Assembly → Assembly → Prop := Relation.ReflTransGen (Edit l)

/-- An action that only edits, and is never refused for want of room. -/
structure Editing {α : Type} (l : SourceLine) (x : AssemblyM α) (a : Assembly) : Prop where
  ok : ∀ {r b}, x.run a = .ok r b → Edits l a b
  error : ∀ {e b}, x.run a = .error e b → Edits l a b ∧ ∀ n, e ≠ .sectionTooLarge n

variable {l : SourceLine} {a : Assembly}

namespace Editing

theorem pure {α : Type} (r : α) : Editing l (Pure.pure r) a where
  ok h := by cases h; exact .refl
  error h := by cases h

theorem of_run {α : Type} {x y : AssemblyM α} {b : Assembly} (hxy : x.run a = y.run b)
    (hab : Edit l a b) (hy : Editing l y b) : Editing l x a where
  ok h := (hy.ok (hxy.symm.trans h)).head hab
  error h := ⟨(hy.error (hxy.symm.trans h)).1.head hab, (hy.error (hxy.symm.trans h)).2⟩

theorem of_error {α : Type} {x : AssemblyM α} {b : Assembly} {e : AssemblyError}
    (hx : x.run a = .error e b) (hab : Edits l a b) (he : ∀ n, e ≠ .sectionTooLarge n) :
    Editing l x a where
  ok h := by rw [hx] at h; cases h
  error h := by rw [hx] at h; cases h; exact ⟨hab, he⟩

theorem of_ok {α : Type} {x : AssemblyM α} {b : Assembly} {r : α} (hx : x.run a = .ok r b)
    (hab : Edits l a b) : Editing l x a where
  ok h := by rw [hx] at h; cases h; exact hab
  error h := by rw [hx] at h; cases h

theorem bind_pure {α β : Type} {x : AssemblyM α} (h : Editing l x a) (r : β) :
    Editing l (x >>= fun _ => Pure.pure r) a where
  ok hrun := by
    obtain ⟨_, b, hx, hb⟩ := ok_of_run_bind hrun
    cases hb
    exact h.ok hx
  error hrun := by
    rcases error_of_run_bind hrun with hx | ⟨_, _, _, hb⟩
    · exact h.error hx
    · cases hb

end Editing

theorem editing_defineLabel (l : SourceLine) (a : Assembly) (name : String) :
    Editing l (defineLabel name) a := by
  have hrun := run_defineLabel a name
  cases hc : a.current with
  | none =>
    rw [hc] at hrun
    exact .of_error hrun .refl (by simp)
  | some home =>
    simp only [hc] at hrun
    by_cases hfree : (a.symbols.meaning name).isSection || (a.symbols.meaning name).isDefined
    · rw [if_pos hfree] at hrun
      exact .of_error hrun (.single (.mention name)) (by simp)
    · rw [if_neg hfree] at hrun
      by_cases himp : (a.symbols.meaning name).imported
      · rw [if_pos himp] at hrun
        exact .of_error hrun (.single (.mention name)) (by simp)
      · rw [if_neg himp] at hrun
        rw [Bool.or_eq_true, not_or, Bool.not_eq_true, Bool.not_eq_true] at hfree
        exact .of_ok hrun (.single (.label name hc hfree.1 hfree.2 (Bool.eq_false_iff.mpr himp)))

theorem exported_items_exports (label : Option String) (names : List String) :
    Program.exported (SourceLine.mk label (some (.directive (.exports names)))).items = names := by
  cases label <;> simp [Program.exported, SourceLine.items, Statement.items, Directive.items,
    Item.exported?, List.filterMap_cons, List.filterMap_map, Function.comp_def]

theorem imported_items_imports (label : Option String) (names : List String) :
    Program.imported (SourceLine.mk label (some (.directive (.imports names)))).items = names := by
  cases label <;> simp [Program.imported, SourceLine.items, Statement.items, Directive.items,
    Item.imported?, List.filterMap_cons, List.filterMap_map, Function.comp_def]

theorem editing_markExported {names : List String} (h : ∀ x ∈ names, x ∈ Program.exported l.items)
    (a : Assembly) : Editing l (markExported names) a := by
  induction names generalizing a with
  | nil => exact .pure ()
  | cons name names ih =>
    have hrun := run_markExported_cons a name names
    by_cases himp : (a.symbols.meaning name).imported
    · rw [if_pos himp] at hrun
      exact .of_error hrun (.single (.mention name)) (by simp)
    · rw [if_neg himp] at hrun
      exact .of_run hrun (.exports name (h name List.mem_cons_self) (Bool.eq_false_iff.mpr himp))
        (ih (fun x hx => h x (List.mem_cons_of_mem _ hx)) _)

theorem editing_markImported {names : List String} (h : ∀ x ∈ names, x ∈ Program.imported l.items)
    (a : Assembly) : Editing l (markImported names) a := by
  induction names generalizing a with
  | nil => exact .pure ()
  | cons name names ih =>
    have hrun := run_markImported_cons a name names
    by_cases hexp : (a.symbols.meaning name).exported
    · rw [if_pos hexp] at hrun
      exact .of_error hrun (.single (.mention name)) (by simp)
    · rw [if_neg hexp] at hrun
      by_cases hdef : (a.symbols.meaning name).isDefined
      · rw [if_pos hdef] at hrun
        exact .of_error hrun (.single (.mention name)) (by simp)
      · rw [if_neg hdef] at hrun
        exact .of_run hrun (.imports name (h name List.mem_cons_self) (Bool.eq_false_iff.mpr hexp)
          (Bool.eq_false_iff.mpr hdef)) (ih (fun x hx => h x (List.mem_cons_of_mem _ hx)) _)

theorem editing_startSection (l : SourceLine) (a : Assembly) (name : String) :
    Editing l (startSection name) a := by
  have hrun := run_startSection a name
  by_cases hold : a.closeSection.symbols.contains name
  · rw [if_pos hold] at hrun
    exact .of_error hrun (.single .close) (by simp)
  · rw [if_neg hold] at hrun
    rw [SymbolTable.contains_eq_isSome, Option.not_isSome_iff_eq_none] at hold
    exact .of_ok hrun (.single (.newSection name hold))

/-! ### Lines -/

/-- What a line does to a run, by its result. -/
inductive Effect (l : SourceLine) (a : Assembly) :
    EStateM.Result AssemblyError Assembly Flow → Prop where
  | edited {b : Assembly} {flow : Flow} (h : Edits l a b) : Effect l a (.ok flow b)
  | failed {b : Assembly} {e : AssemblyError} (h : Edits l a b) (he : ∀ n, e ≠ .sectionTooLarge n) :
      Effect l a (.error e b)
  /-- After the label the placeholders are noted, and the bytes go into the open section. -/
  | emitted {b : Assembly} {home : Nat} (h : (enter l.label).run a = .ok () b)
      (hc : a.current = some home) (hfits : a.sizeAt home + l.encoding.length ≤ sectionLimit) :
      Effect l a (.ok .more ((b.recorded (l.uses home a.location)).emitted home l.encoding))
  /-- After the label the placeholders are noted, and then the bytes do not fit. -/
  | refused {b : Assembly} {home : Nat} (h : (enter l.label).run a = .ok () b)
      (hc : a.current = some home) (hfull : sectionLimit < a.sizeAt home + l.encoding.length) :
      Effect l a (.error (.sectionTooLarge a.line) (b.recorded (l.uses home a.location)))

theorem editing_enter (l : SourceLine) (a : Assembly) : Editing l (enter l.label) a := by
  cases l.label with
  | none => exact .pure ()
  | some name => exact editing_defineLabel l a name

/-- A label changes symbols only. -/
theorem eq_of_run_enter {label : Option String} {b : Assembly} (h : (enter label).run a = .ok () b) :
    b = { a with symbols := b.symbols } := by
  cases label with
  | none =>
    cases h
    rfl
  | some name =>
    rw [enter, run_defineLabel] at h
    split at h
    · cases h
    · split at h
      · cases h
      · split at h
        · cases h
        · cases h
          rfl

theorem recorded_eq_of_enter {label : Option String} {b : Assembly}
    (h : (enter label).run a = .ok () b) (us : List (String × PendingUse)) :
    b.recorded us = { a with symbols := (b.recorded us).symbols } := by
  have hb : ∀ t, { b with symbols := t } = { a with symbols := t } := by
    intro t
    rw [eq_of_run_enter h]
  exact (recorded_eq b us).trans (hb _)

theorem run_recordWords (home : Nat) (offset : UInt16) (values : List Value) (a : Assembly) :
    (recordWords home offset values).run a = .ok () (a.recorded (Value.uses home offset values)) := by
  induction values generalizing offset a with
  | nil => rfl
  | cons v vs ih =>
    cases v with
    | literal v => exact ih (offset + 2) a
    | symbol name => exact ih (offset + 2) _

theorem run_emit_of_le {bytes : List UInt8} {home : Nat} (hc : a.current = some home)
    (hfits : a.sizeAt home + bytes.length ≤ sectionLimit) :
    (emit bytes).run a = .ok () (a.emitted home bytes) := by
  obtain ⟨symbols, sections, current, location, line, listing⟩ := a
  obtain rfl : current = some home := hc
  rw [run_emit]
  exact if_neg (Nat.not_lt.mpr hfits)

theorem run_emit_of_lt {bytes : List UInt8} {home : Nat} (hc : a.current = some home)
    (hfull : sectionLimit < a.sizeAt home + bytes.length) :
    (emit bytes).run a = .error (.sectionTooLarge a.line) a := by
  rw [run_emit, hc]
  exact if_pos hfull

/-- The bytes of a line go behind the notes of its placeholders. -/
theorem effect_of_emit {x : AssemblyM Flow} {b : Assembly} (h : (enter l.label).run a = .ok () b)
    (hx : x.run b = match b.current with
      | none => .error (.noSection b.line) b
      | some home => (emit l.encoding >>= fun _ => pure Flow.more).run
          (b.recorded (l.uses home b.location))) : Effect l a (x.run b) := by
  have hb := eq_of_run_enter h
  have hcurrent : b.current = a.current := by rw [hb]
  have hlocation : b.location = a.location := by rw [hb]
  rw [hx, hcurrent, hlocation]
  cases hc : a.current with
  | none => exact .failed ((editing_enter l a).ok h) (by simp)
  | some home =>
    have hrec := recorded_eq_of_enter h (l.uses home a.location)
    have hcur : (b.recorded (l.uses home a.location)).current = some home := by rw [hrec, ← hc]
    have hsize : (b.recorded (l.uses home a.location)).sizeAt home = a.sizeAt home := by
      rw [hrec]
      rfl
    have hline : (b.recorded (l.uses home a.location)).line = a.line := by rw [hrec]
    simp only [EStateM.run_bind]
    by_cases hfull : sectionLimit < a.sizeAt home + l.encoding.length
    · rw [run_emit_of_lt hcur (by rwa [hsize]), hline]
      exact .refused h hc hfull
    · rw [run_emit_of_le hcur (by rw [hsize]; exact Nat.le_of_not_lt hfull)]
      exact .emitted h hc (Nat.le_of_not_lt hfull)

theorem effect_of_editing {x : AssemblyM Flow} {b : Assembly} (h : (enter l.label).run a = .ok () b)
    (hx : Editing l x b) : Effect l a (x.run b) := by
  have hb := (editing_enter l a).ok h
  cases hrun : x.run b with
  | ok flow c => exact .edited (hb.trans (hx.ok hrun))
  | error e c => exact .failed (hb.trans (hx.error hrun).1) (hx.error hrun).2

theorem run_emit_alone (b : Assembly) (bytes : List UInt8) :
    (emit bytes >>= fun _ => pure Flow.more).run b = match b.current with
      | none => .error (.noSection b.line) b
      | some _ => (emit bytes >>= fun _ => pure Flow.more).run b := by
  rw [EStateM.run_bind, run_emit]
  cases b.current <;> rfl

theorem run_words (label : Option String) (values : List Value) (b : Assembly) :
    (direct (.words values)).run b = match b.current with
      | none => .error (.noSection b.line) b
      | some home =>
        (emit (SourceLine.mk label (some (.directive (.words values)))).encoding >>= fun _ =>
          pure Flow.more).run (b.recorded (Value.uses home b.location values)) := by
  unfold direct
  rw [EStateM.run_bind, run_openSection]
  cases b.current with
  | none => rfl
  | some home =>
    simp only [EStateM.run_bind, EStateM.run_get, run_recordWords]
    rfl

theorem run_instruct_eq (label : Option String) (i : Instruction) (b : Assembly) :
    (instruct i).run b = match b.current with
      | none => .error (.noSection b.line) b
      | some home => (emit i.encode.bytes >>= fun _ => pure Flow.more).run
          (b.recorded ((SourceLine.mk label (some (.instruction i))).uses home b.location)) := by
  unfold instruct
  rw [EStateM.run_bind, run_openSection]
  cases b.current with
  | none => rfl
  | some home =>
    simp only [SourceLine.uses]
    cases i.encode.fixup with
    | none => rfl
    | some f => rfl

/-- **What a line does**: it only edits, or it notes its placeholders and then places its bytes or is
refused. -/
theorem effect_line (l : SourceLine) (a : Assembly) :
    Effect l a ((enter l.label >>= fun _ => carryOut l.statement).run a) := by
  rw [EStateM.run_bind]
  cases h : (enter l.label).run a with
  | error e b =>
    obtain ⟨hb, he⟩ := (editing_enter l a).error h
    exact .failed hb he
  | ok r b =>
    obtain ⟨label, statement⟩ := l
    cases statement with
    | none => exact effect_of_editing h (.pure _)
    | some s =>
      cases s with
      | instruction i => exact effect_of_emit h (run_instruct_eq label i b)
      | directive d =>
        cases d with
        | exports names =>
          refine effect_of_editing h ((editing_markExported (fun x hx => ?_) b).bind_pure _)
          rwa [exported_items_exports]
        | imports names =>
          refine effect_of_editing h ((editing_markImported (fun x hx => ?_) b).bind_pure _)
          rwa [imported_items_imports]
        | newSection name => exact effect_of_editing h ((editing_startSection _ b name).bind_pure _)
        | words values => exact effect_of_emit h (run_words label values b)
        | ascii bytes => exact effect_of_emit h (run_emit_alone b bytes)
        | skip count => exact effect_of_emit h (run_emit_alone b (List.replicate count.toNat 0))
        | finish => exact effect_of_editing h (.of_ok rfl (.single .close))

namespace Assembly

theorem fed_of_fault {t : String} {fault : LineFault} (h : SourceLine.ofText t = .error fault)
    (a : Assembly) : a.fed t = { a with line := a.line + 1 } := by
  rw [fed, run_feed, h]

theorem run_feed_of_directive {t : String} {d : Directive}
    (h : SourceLine.ofText t = .ok ⟨none, some (.directive d)⟩) (a : Assembly) :
    (feed t).run a = (direct d).run { a with line := a.line + 1 } := by
  rw [run_feed, h]
  rfl

/-- Zero bytes that fit. -/
theorem run_feed_of_skip {t : String} {count : UInt16} {home : Nat}
    (h : SourceLine.ofText t = .ok ⟨none, some (.directive (.skip count))⟩)
    (hc : a.current = some home) (hfits : a.sizeAt home + count.toNat ≤ sectionLimit) :
    (feed t).run a = .ok .more
      (({ a with line := a.line + 1 } : Assembly).emitted home (List.replicate count.toNat 0)) := by
  have hcounted : ({ a with line := a.line + 1 } : Assembly).current = some home := hc
  rw [run_feed_of_directive h, direct, EStateM.run_bind, run_emit_of_le hcounted]
  · rfl
  · rw [List.length_replicate]
    exact hfits

/-- **What holds of runs whatever lines they are fed**: what counting lines, edits, notes of
placeholders and bytes that fit keep. -/
theorem fed_of_edits {P : Assembly → Prop} {t : String} (h : P a)
    (count : ∀ {b}, P b → P { b with line := b.line + 1 })
    (edit : ∀ {l b c}, SourceLine.ofText t = .ok l → P b → Edit l b c → P c)
    (use : ∀ {b} name u, P b → P (b.change name fun s => { s with uses := s.uses ++ [u] }))
    (emit : ∀ {b home} bytes, P b → b.current = some home →
      b.sizeAt home + bytes.length ≤ sectionLimit → P (b.emitted home bytes)) : P (a.fed t) := by
  have hcount := count h
  cases ht : SourceLine.ofText t with
  | error fault =>
    rw [fed_of_fault ht]
    exact hcount
  | ok l =>
    have hedits : ∀ {b}, Edits l { a with line := a.line + 1 } b → P b := by
      intro b hb
      induction hb with
      | refl => exact hcount
      | tail _ hstep ih => exact edit ht ih hstep
    have huses : ∀ {b} us, P b → P (b.recorded us) := by
      intro b us hb
      induction us generalizing b with
      | nil => exact hb
      | cons u us ih => exact ih (use u.1 u.2 hb)
    have heffect := effect_line l { a with line := a.line + 1 }
    rw [fed, run_feed, ht]
    simp only
    generalize (enter l.label >>= fun _ => carryOut l.statement).run _ = r at heffect
    cases heffect with
    | edited hb => exact hedits hb
    | failed hb _ => exact hedits hb
    | @emitted b home hb hc hfits =>
      have hsame := recorded_eq_of_enter hb (l.uses home a.location)
      refine emit l.encoding (huses _ (hedits ((editing_enter l _).ok hb))) ?_ ?_
      · rw [hsame]
        exact hc
      · rw [hsame]
        exact hfits
    | refused hb _ _ => exact huses _ (hedits ((editing_enter l _).ok hb))

end Assembly
end Sx16
