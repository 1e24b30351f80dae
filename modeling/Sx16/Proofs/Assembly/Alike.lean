/-
# Runs over source texts that differ in operands

Two source texts are alike if they differ in operands at most, and there in the encoding of the
operand and not in its size or its symbol. What a run over one of them does to the symbol table, but
for the kinds of pending uses, and to the sizes of sections, a run over the other does as well. So if
one of them is assembled, the other is too, and the modules have the same symbols.

Key definitions: `SymbolTable.outline`, `Assembly.Alike`, `Tracks`, `SourceLine.Alike`.
Key theorems: `tracks_take`, `tracks_takeAll`, `exists_assemble_of_alike`.
-/
import Sx16.Proofs.Assembly.Resolved

namespace Sx16

/-! ### Symbols but for the kinds of their uses -/

/-- The symbol with the number of its pending uses in place of the uses. -/
def Symbol.outline (s : Symbol) : Symbol :=
  { s with uses := s.uses.map fun _ => ⟨0, 0, .symbolWord⟩ }

namespace SymbolTable

/-- The table with outlines of its symbols. -/
def outline (t : SymbolTable) : SymbolTable := ⟨t.arena.map Symbol.outline⟩

variable {t t' : SymbolTable} {name : String} {f g : Symbol → Symbol}

theorem carries_outline : Carries Symbol.outline id where
  inj h := h
  name _ := rfl
  number _ := rfl
  fresh _ _ := rfl

theorem size_outline (t : SymbolTable) : t.outline.size = t.size := size_map Symbol.outline t

theorem get?_outline (t : SymbolTable) (name : String) :
    t.outline.get? name = (t.get? name).map Symbol.outline := carries_outline.get?_map t name

theorem contains_outline (t : SymbolTable) (name : String) :
    t.outline.contains name = t.contains name := carries_outline.contains_map t name

theorem outline_insert (t : SymbolTable) (s : Symbol) :
    (t.insert s).outline = t.outline.insert s.outline := carried_insert Symbol.outline t s

theorem meaning_outline (t : SymbolTable) (name : String) :
    t.outline.meaning name = (t.meaning name).outline := carries_outline.meaning_map t name

theorem outline_change (hf : ∀ s, (f s).outline = g s.outline) (t : SymbolTable) (name : String) :
    (t.change name f).outline = t.outline.change name g := carries_outline.map_change hf t name

theorem outline_modifyName (hf : ∀ s, (f s).outline = g s.outline) (t : SymbolTable) (name : String) :
    (t.modifyName name f).outline = t.outline.modifyName name g :=
  carries_outline.map_modifyName hf t name

theorem settled_outline (t : SymbolTable) : t.outline.settled = t.settled := by
  unfold settled outline
  rw [Array.map_map]
  rfl

end SymbolTable

/-! ### Runs that are alike -/

/-- The name and the size of a section. -/
def SectionData.outline (f : SectionData) : String × Nat := (f.name, f.bytes.size)

/-- Two runs with symbols and sections alike. -/
structure Assembly.Alike (a a' : Assembly) : Prop where
  symbols : a'.symbols.outline = a.symbols.outline
  sections : a'.sections.map SectionData.outline = a.sections.map SectionData.outline
  current : a'.current = a.current
  location : a'.location = a.location
  line : a'.line = a.line

/-- Whatever the first action does to a run, the second does to a run that is alike. -/
structure Tracks {α : Type} (x x' : AssemblyM α) : Prop where
  run : ∀ {a a' b : Assembly} {r : α}, a.Alike a' → x.run a = .ok r b →
    ∃ b', x'.run a' = .ok r b' ∧ b.Alike b'

namespace Tracks

variable {α β : Type}

theorem pure (r : α) : Tracks (Pure.pure r) (Pure.pure r) := by
  constructor
  intro a a' b r' h hrun
  cases hrun
  exact ⟨a', rfl, h⟩

theorem bind {x x' : AssemblyM α} {f f' : α → AssemblyM β} (hx : Tracks x x')
    (hf : ∀ r, Tracks (f r) (f' r)) : Tracks (x >>= f) (x' >>= f') := by
  constructor
  intro a a' c r h hrun
  obtain ⟨r1, b, hxrun, hfrun⟩ := ok_of_run_bind hrun
  obtain ⟨b', hx', hb⟩ := hx.run h hxrun
  obtain ⟨c', hf', hc⟩ := (hf r1).run hb hfrun
  refine ⟨c', ?_, hc⟩
  rw [EStateM.run_bind, hx']
  exact hf'

end Tracks

namespace Assembly

variable {a a' : Assembly} {f g f' : Symbol → Symbol}

namespace Alike

theorem meaning {α : Type} {p : Symbol → α} (h : a.Alike a') (hp : ∀ s, p s.outline = p s)
    (name : String) : p (a'.symbols.meaning name) = p (a.symbols.meaning name) := by
  rw [← hp, ← SymbolTable.meaning_outline, h.symbols, SymbolTable.meaning_outline, hp]

theorem change (h : a.Alike a') (hf : ∀ s, (f s).outline = g s.outline)
    (hf' : ∀ s, (f' s).outline = g s.outline) (name : String) :
    (a.change name f).Alike (a'.change name f') where
  symbols := by
    show (a'.symbols.change name f').outline = (a.symbols.change name f).outline
    rw [SymbolTable.outline_change hf', h.symbols, SymbolTable.outline_change hf]
  sections := h.sections
  current := h.current
  location := h.location
  line := h.line

theorem changed (h : a.Alike a') (hf : ∀ s, (f s).outline = f s.outline) (name : String) :
    (a.change name f).Alike (a'.change name f) := h.change hf hf name

theorem outline_getElem? (h : a.Alike a') (home : Nat) :
    a'.sections[home]?.map SectionData.outline = a.sections[home]?.map SectionData.outline := by
  rw [← Array.getElem?_map, h.sections, Array.getElem?_map]

theorem sectionName (h : a.Alike a') (home : Nat) : a'.sectionName home = a.sectionName home := by
  have hname : ∀ a : Assembly, a.sectionName home =
      ((a.sections[home]?.map SectionData.outline).map Prod.fst).getD "" := by
    intro a
    rw [Option.map_map]
    rfl
  rw [hname, hname, h.outline_getElem?]

theorem sizeAt (h : a.Alike a') (home : Nat) : a'.sizeAt home = a.sizeAt home := by
  have hsize : ∀ a : Assembly, a.sizeAt home =
      ((a.sections[home]?.map SectionData.outline).map Prod.snd).getD 0 := by
    intro a
    rw [Option.map_map]
    rfl
  rw [hsize, hsize, h.outline_getElem?]

theorem ownerOf (h : a.Alike a') (home : Nat) : a'.ownerOf home = a.ownerOf home := by
  have hnumber : ∀ a : Assembly, a.ownerOf home =
      ((a.symbols.outline.get? (a.sectionName home)).map Symbol.number).getD 0 := by
    intro a
    rw [SymbolTable.get?_outline, Option.map_map]
    rfl
  rw [hnumber, hnumber, h.symbols, h.sectionName]

theorem closeSection (h : a.Alike a') : a.closeSection.Alike a'.closeSection := by
  unfold Assembly.closeSection
  rw [h.current]
  cases a.current with
  | none => exact h
  | some home =>
    refine ⟨?_, h.sections, rfl, h.location, h.line⟩
    simp only
    have hone : ∀ (t : SymbolTable) (name : String),
        (t.modifyName name fun s => { s with size := some a.location }).outline =
          t.outline.modifyName name fun s => { s with size := some a.location } :=
      SymbolTable.outline_modifyName fun _ => rfl
    rw [h.sectionName, h.location, hone, hone, h.symbols]

theorem size_sections (h : a.Alike a') : a'.sections.size = a.sections.size := by
  have hsize := congrArg Array.size h.sections
  rwa [Array.size_map, Array.size_map] at hsize

end Alike

/-! ### Each operation -/

theorem tracks_openSection : Tracks openSection openSection := by
  constructor
  intro a a' b r h hrun
  rw [run_openSection] at hrun
  rw [run_openSection, h.current]
  cases hc : a.current with
  | none =>
    rw [hc] at hrun
    cases hrun
  | some home =>
    rw [hc] at hrun
    cases hrun
    exact ⟨a', rfl, h⟩

theorem tracks_emit {bytes bytes' : List UInt8} (hlen : bytes'.length = bytes.length) :
    Tracks (emit bytes) (emit bytes') := by
  constructor
  intro a a' b r h hrun
  rw [run_emit] at hrun
  rw [run_emit, h.current]
  cases hc : a.current with
  | none =>
    rw [hc] at hrun
    cases hrun
  | some home =>
    simp only [hc] at hrun
    simp only [h.sizeAt, hlen]
    split at hrun
    · cases hrun
    · rename_i hfits
      cases hrun
      rw [if_neg hfits]
      refine ⟨_, rfl, h.symbols, ?_, rfl, rfl, h.line⟩
      refine Array.ext_getElem? fun k => ?_
      have hk := h.outline_getElem? k
      simp only [Array.getElem?_map, Array.getElem?_modify]
      split
      · cases ha : a.sections[k]? with
        | none =>
          rw [ha] at hk
          rw [Option.map_eq_none_iff.mp hk]
          rfl
        | some f =>
          rw [ha] at hk
          obtain ⟨f', hf', hout⟩ := Option.map_eq_some_iff.mp hk
          have hname : f'.name = f.name := congrArg Prod.fst hout
          have hsize : f'.bytes.size = f.bytes.size := congrArg Prod.snd hout
          have hsize' : (f'.bytes ++ bytes').size = (f.bytes ++ bytes).size := by
            rw [← Array.length_toList, ← Array.length_toList, Array.toList_appendList,
              Array.toList_appendList, List.length_append, List.length_append, hlen]
            exact congrArg (· + bytes.length) hsize
          rw [hf']
          simp [SectionData.outline, hname, hsize']
      · exact hk

theorem tracks_recordUse (name : String) (u u' : PendingUse) :
    Tracks (recordUse name u) (recordUse name u') := by
  constructor
  intro a a' b r h hrun
  rw [run_recordUse] at hrun
  cases hrun
  refine ⟨_, run_recordUse a' name u', h.change
    (g := fun s => { s with uses := s.uses ++ [⟨0, 0, .symbolWord⟩] }) (fun s => ?_) (fun s => ?_) name⟩
  · simp [Symbol.outline]
  · simp [Symbol.outline]

theorem tracks_defineLabel (name : String) : Tracks (defineLabel name) (defineLabel name) := by
  constructor
  intro a a' b r h hrun
  have hsec := h.meaning (p := Symbol.isSection) (fun _ => rfl) name
  have hdef := h.meaning (p := Symbol.isDefined) (fun _ => rfl) name
  have himp := h.meaning (p := Symbol.imported) (fun _ => rfl) name
  rw [run_defineLabel] at hrun
  rw [run_defineLabel, h.current, hsec, hdef, himp]
  cases hc : a.current with
  | none =>
    rw [hc] at hrun
    cases hrun
  | some home =>
    simp only [hc] at hrun
    simp only
    split at hrun
    · cases hrun
    · rename_i hfree
      split at hrun
      · cases hrun
      · rename_i hown
        cases hrun
        rw [if_neg hfree, if_neg hown, h.ownerOf, h.location]
        exact ⟨_, rfl, h.changed (fun _ => by rfl) name⟩

theorem tracks_markExported (names : List String) :
    Tracks (markExported names) (markExported names) := by
  induction names with
  | nil => exact Tracks.pure ()
  | cons name names ih =>
    constructor
    intro a a' b r h hrun
    have himp := h.meaning (p := Symbol.imported) (fun _ => rfl) name
    rw [run_markExported_cons] at hrun
    rw [run_markExported_cons, himp]
    split at hrun
    · cases hrun
    · rename_i hfree
      rw [if_neg hfree]
      exact ih.run (h.changed (fun _ => by rfl) name) hrun

theorem tracks_markImported (names : List String) :
    Tracks (markImported names) (markImported names) := by
  induction names with
  | nil => exact Tracks.pure ()
  | cons name names ih =>
    constructor
    intro a a' b r h hrun
    have hexp := h.meaning (p := Symbol.exported) (fun _ => rfl) name
    have hdef := h.meaning (p := Symbol.isDefined) (fun _ => rfl) name
    rw [run_markImported_cons] at hrun
    rw [run_markImported_cons, hexp, hdef]
    split at hrun
    · cases hrun
    · rename_i hfree
      split at hrun
      · cases hrun
      · rename_i hown
        rw [if_neg hfree, if_neg hown]
        exact ih.run (h.changed (fun _ => by rfl) name) hrun

theorem tracks_startSection (name : String) : Tracks (startSection name) (startSection name) := by
  constructor
  intro a a' b r h hrun
  have hclose := h.closeSection
  have hknown : a'.closeSection.symbols.contains name = a.closeSection.symbols.contains name := by
    rw [← SymbolTable.contains_outline, hclose.symbols, SymbolTable.contains_outline]
  have hsize : a'.closeSection.symbols.size = a.closeSection.symbols.size := by
    rw [← SymbolTable.size_outline, hclose.symbols, SymbolTable.size_outline]
  rw [run_startSection] at hrun
  rw [run_startSection, hknown]
  split at hrun
  · cases hrun
  · rename_i hnew
    cases hrun
    rw [if_neg hnew]
    refine ⟨_, rfl, ?_, ?_, congrArg some hclose.size_sections, rfl, hclose.line⟩
    · simp only
      rw [SymbolTable.outline_insert, SymbolTable.outline_insert, hclose.symbols,
        SymbolTable.freshSection, SymbolTable.freshSection, hsize]
    · simp only
      rw [Array.map_push, Array.map_push, hclose.sections]

theorem tracks_recordWords (home : Nat) (offset : UInt16) (values : List Value) :
    Tracks (recordWords home offset values) (recordWords home offset values) := by
  induction values generalizing offset with
  | nil => exact Tracks.pure ()
  | cons v vs ih =>
    cases v with
    | literal v => exact ih (offset + 2)
    | symbol name => exact (tracks_recordUse name _ _).bind fun _ => ih (offset + 2)

theorem tracks_get {α : Type} {k k' : Assembly → AssemblyM α}
    (hk : ∀ a a', a.Alike a' → Tracks (k a) (k' a')) : Tracks (get >>= k) (get >>= k') := by
  constructor
  intro a a' b r h hrun
  exact (hk a a' h).run h hrun

theorem tracks_direct (d : Directive) : Tracks (direct d) (direct d) := by
  cases d with
  | exports names => exact (tracks_markExported names).bind fun _ => Tracks.pure _
  | imports names => exact (tracks_markImported names).bind fun _ => Tracks.pure _
  | newSection name => exact (tracks_startSection name).bind fun _ => Tracks.pure _
  | words values =>
    refine tracks_openSection.bind fun home => tracks_get fun a a' h => ?_
    rw [h.location]
    exact (tracks_recordWords home a.location values).bind fun _ =>
      (tracks_emit rfl).bind fun _ => Tracks.pure _
  | ascii bytes => exact (tracks_emit rfl).bind fun _ => Tracks.pure _
  | skip count => exact (tracks_emit rfl).bind fun _ => Tracks.pure _
  | finish =>
    constructor
    intro a a' b r h hrun
    cases hrun
    exact ⟨_, rfl, h.closeSection⟩

end Assembly

/-! ### Lines -/

/-- Instructions whose bytes have one size and whose placeholders have one symbol. -/
structure Instruction.Alike (i i' : Instruction) : Prop where
  length : i'.encode.bytes.length = i.encode.bytes.length
  symbol : i'.encode.fixup.map Fixup.symbol = i.encode.fixup.map Fixup.symbol

/-- Lines that are the same, or are the same but for instructions that are alike. -/
inductive SourceLine.Alike : SourceLine → SourceLine → Prop where
  | same (l : SourceLine) : Alike l l
  | instruction {i i' : Instruction} (label : Option String) (h : i.Alike i') :
      Alike ⟨label, some (.instruction i)⟩ ⟨label, some (.instruction i')⟩

namespace Assembly

/-- Takes a line that was read. -/
def take (l : SourceLine) : AssemblyM Flow := do
  modify fun a => { a with line := a.line + 1 }
  enter l.label
  carryOut l.statement

/-- Takes lines that were read, up to the first that ends the source text. -/
def takeAll : List SourceLine → AssemblyM Unit
  | [] => pure ()
  | l :: ls => do
    match ← take l with
    | .finished => pure ()
    | .more => takeAll ls

theorem run_feed_of_read {t : String} {l : SourceLine} (h : SourceLine.ofText t = .ok l)
    (a : Assembly) : (feed t).run a = (take l).run a := by
  rw [run_feed, h]
  rfl

theorem finished_of_ends {l : SourceLine} {a b : Assembly} {flow : Flow} (h : l.ends = true)
    (hrun : (take l).run a = .ok flow b) : flow = .finished := by
  obtain ⟨label, statement⟩ := l
  obtain rfl : statement = some (.directive .finish) := beq_iff_eq.mp h
  obtain ⟨⟨⟩, a1, -, hrun⟩ := ok_of_run_bind hrun
  obtain ⟨⟨⟩, a2, -, hrun⟩ := ok_of_run_bind hrun
  cases hrun
  rfl

/-- **A run over a text** is one over the lines that count. -/
theorem run_feedAll_of_counted {ts : List String} {ls : List SourceLine} (h : counted ts = some ls)
    (a : Assembly) : (feedAll ts).run a = (takeAll ls).run a := by
  induction ts generalizing ls a with
  | nil =>
    cases h
    rfl
  | cons t ts ih =>
    unfold counted at h
    split at h
    · cases h
    · rename_i l hl
      rw [feedAll, EStateM.run_bind, run_feed_of_read hl]
      split at h
      · rename_i hends
        cases h
        rw [takeAll, EStateM.run_bind]
        cases hrun : (take l).run a with
        | error e b => rfl
        | ok flow b => rw [finished_of_ends hends hrun]
      · obtain ⟨ls', hls', rfl⟩ := Option.map_eq_some_iff.mp h
        rw [takeAll, EStateM.run_bind]
        cases (take l).run a with
        | error e b => rfl
        | ok flow b =>
          cases flow with
          | finished => rfl
          | more => exact ih hls' b

theorem tracks_enter (label : Option String) : Tracks (enter label) (enter label) := by
  cases label with
  | none => exact Tracks.pure ()
  | some name => exact tracks_defineLabel name

theorem tracks_instruct {i i' : Instruction} (h : i.Alike i') : Tracks (instruct i) (instruct i') := by
  have hfix := h.symbol
  have hemit := fun (_ : Unit) => (tracks_emit h.length).bind fun _ => Tracks.pure Flow.more
  refine tracks_openSection.bind fun home => ?_
  simp only
  cases hf : i.encode.fixup with
  | none =>
    rw [hf, Option.map_none, Option.map_eq_none_iff] at hfix
    rw [hfix]
    exact (Tracks.pure ()).bind hemit
  | some f =>
    rw [hf] at hfix
    obtain ⟨f', hf', hsymbol⟩ := Option.map_eq_some_iff.mp hfix
    rw [hf']
    simp only
    rw [hsymbol]
    exact tracks_get fun a a' ha => (tracks_recordUse f.symbol _ _).bind hemit

/-- **Lines that are alike** have the same effect. -/
theorem tracks_take {l l' : SourceLine} (h : l.Alike l') : Tracks (take l) (take l') := by
  have hline : Tracks (modify fun a => { a with line := a.line + 1 })
      (modify fun a => { a with line := a.line + 1 }) := by
    constructor
    intro a a' b r h hrun
    cases hrun
    exact ⟨_, rfl, h.symbols, h.sections, h.current, h.location, congrArg (· + 1) h.line⟩
  cases h with
  | same =>
    refine hline.bind fun _ => (tracks_enter l.label).bind fun _ => ?_
    cases l.statement with
    | none => exact Tracks.pure _
    | some s =>
      cases s with
      | directive d => exact tracks_direct d
      | instruction i => exact tracks_instruct ⟨rfl, rfl⟩
  | instruction label hi =>
    exact hline.bind fun _ => (tracks_enter label).bind fun _ => tracks_instruct hi

theorem tracks_takeAll {ls ls' : List SourceLine} (h : List.Forall₂ SourceLine.Alike ls ls') :
    Tracks (takeAll ls) (takeAll ls') := by
  induction h with
  | nil => exact Tracks.pure ()
  | cons hl hls ih =>
    refine (tracks_take hl).bind fun flow => ?_
    cases flow with
    | finished => exact Tracks.pure ()
    | more => exact ih

end Assembly

/-! ### Modules -/

/-- The uses of a symbol are resolved if there are none, or if the symbol is shared or defined. -/
theorem Symbol.exists_resolve_iff {t : SymbolTable} {s : Symbol} :
    (∃ rs, s.resolve t = .ok rs) ↔ (s.uses.isEmpty || !s.isLocal || s.isDefined) = true := by
  unfold resolve
  split
  · rename_i h
    simp [h]
  · rename_i h
    split
    · rename_i h'
      simp [h']
    · rename_i h'
      split
      · rename_i hdef
        simp [hdef]
      · rename_i hdef
        simp [h, h', hdef]

theorem exists_resolveAll_iff {t : SymbolTable} {ss : List Symbol} :
    (∃ rs, resolveAll t ss = .ok rs) ↔ ∀ s ∈ ss, ∃ rs, s.resolve t = .ok rs := by
  induction ss with
  | nil => exact ⟨fun _ _ hs => (nomatch hs), fun _ => ⟨[], rfl⟩⟩
  | cons s ss ih =>
    rw [List.forall_mem_cons, ← ih, resolveAll]
    cases s.resolve t with
    | error e => simp [bind, Except.bind]
    | ok rs =>
      cases resolveAll t ss with
      | error e => simp [bind, Except.bind]
      | ok rs' => simp [bind, Except.bind, pure, Except.pure]

/-- Runs that are alike are finished alike, if the second fills only what is there. -/
theorem Assembly.Alike.finish {a a' : Assembly} {m : ObjectModule} (h : a.Alike a')
    (hin : a'.closeSection.overrun? = none) (hm : a.finish = .ok m) :
    ∃ m', a'.finish = .ok m' ∧ m'.symbols = m.symbols := by
  have hclose := h.closeSection
  have hall : ∀ t : SymbolTable, t.outline.toList = t.toList.map Symbol.outline := fun t =>
    Array.toList_map
  have hresolved : ∀ t : SymbolTable, (∃ rs, resolveAll t t.toList = .ok rs) ↔
      ∀ s ∈ t.outline.toList, (s.uses.isEmpty || !s.isLocal || s.isDefined) = true := by
    intro t
    rw [exists_resolveAll_iff, hall, List.forall_mem_map]
    refine forall₂_congr fun s _ => Symbol.exists_resolve_iff.trans ?_
    have hempty : s.outline.uses.isEmpty = s.uses.isEmpty := by
      rw [Symbol.outline, List.isEmpty_map]
    rw [hempty]
    rfl
  obtain ⟨rs, hrs, -, rfl⟩ := Assembly.finish_eq_ok_iff.mp hm
  have hok := (hresolved _).mp ⟨rs, hrs⟩
  rw [← hclose.symbols] at hok
  obtain ⟨rs', hrs'⟩ := (hresolved _).mpr hok
  refine ⟨_, Assembly.finish_eq_ok_iff.mpr ⟨rs', hrs', hin, rfl⟩, ?_⟩
  show a'.closeSection.symbols.settled = a.closeSection.symbols.settled
  rw [← SymbolTable.settled_outline, hclose.symbols, SymbolTable.settled_outline]

/-- **Source texts that are alike are assembled alike**: with one the other is assembled, to a module
with the same symbols. -/
theorem exists_assemble_of_alike {src src' : String} {ls ls' : List SourceLine} {m : ObjectModule}
    (hls : counted (Text.lines src) = some ls) (hls' : counted (Text.lines src') = some ls')
    (h : List.Forall₂ SourceLine.Alike ls ls') (hm : assemble src = .ok m) :
    ∃ m', assemble src' = .ok m' ∧ m'.symbols = m.symbols := by
  unfold assemble at hm
  split at hm
  · cases hm
  · rename_i a hrun
    have hrun' : (Assembly.takeAll ls).run {} = .ok () a := by
      rw [← Assembly.run_feedAll_of_counted hls]
      exact hrun
    obtain ⟨a', ha', halike⟩ := (Assembly.tracks_takeAll h).run ⟨rfl, rfl, rfl, rfl, rfl⟩ hrun'
    rw [← Assembly.run_feedAll_of_counted hls'] at ha'
    obtain ⟨_, _, hfollows⟩ := Follows.start.feedAll ha'
    obtain ⟨m', hm', hsymbols⟩ := halike.finish hfollows.closeSection.overrun?_eq_none hm
    refine ⟨m', ?_, hsymbols⟩
    unfold assemble
    rw [show Assembly.feedAll (Text.lines src') {} = .ok () a' from ha']
    exact hm'

end Sx16
