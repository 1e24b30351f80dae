/-
# Assembly does not depend on how names are spelled

A renaming replaces names one to one and leaves the reserved name alone. An assembly run compares
names with each other and with the reserved one and does nothing else with them, so every operation
commutes with a renaming: from a renamed state it ends in the renamed state, well or with the renamed
error. So a renamed source text is assembled to the renamed module.

Key definitions: `Renaming`, `Assembly.rename`, `ObjectModule.rename`, `Equivariant`.
Key theorems: `equivariant_take`, `equivariant_takeAll`, `Assembly.finish_rename`,
`assemble_rename`.
-/
import Sx16.Proofs.Assembly.Alike
import Sx16.Proofs.Source.Renamed

namespace Sx16

/-- A replacement of names, different ones by different ones, that leaves the reserved name and the
empty one alone. -/
structure Renaming where
  toFun : String → String
  inj : ∀ {x y}, toFun x = toFun y → x = y
  reserved : toFun Symbol.undefinedName = Symbol.undefinedName
  empty : toFun "" = ""

instance : CoeFun Renaming fun _ => String → String := ⟨Renaming.toFun⟩

/-! ### Renamed states -/

/-- The symbol under its new name. -/
def Symbol.rename (ρ : Renaming) (s : Symbol) : Symbol := { s with name := ρ s.name }

/-- The relocation with its symbol renamed. -/
def Relocation.rename (ρ : Renaming) (r : Relocation) : Relocation := { r with symbol := ρ r.symbol }

/-- The section under its new name, with the symbols of its relocations renamed. -/
def SectionData.rename (ρ : Renaming) (f : SectionData) : SectionData :=
  { f with name := ρ f.name, relocations := f.relocations.map (Relocation.rename ρ) }

/-- The error with its symbol renamed. -/
def AssemblyError.rename (ρ : Renaming) : AssemblyError → AssemblyError
  | exportsImported name => exportsImported (ρ name)
  | importsExported name => importsExported (ρ name)
  | importsDefined name => importsDefined (ρ name)
  | definesImported name => definesImported (ρ name)
  | redefinedLabel name => redefinedLabel (ρ name)
  | undefinedLabel name => undefinedLabel (ρ name)
  | e => e

/-- The run with its symbols and sections renamed. -/
def Assembly.rename (ρ : Renaming) (a : Assembly) : Assembly :=
  { a with
    symbols := a.symbols.map (Symbol.rename ρ)
    sections := a.sections.map (SectionData.rename ρ) }

/-- The module with its symbols and sections renamed. -/
def ObjectModule.rename (ρ : Renaming) (m : ObjectModule) : ObjectModule where
  symbols := m.symbols.map (Symbol.rename ρ)
  sections := m.sections.map (SectionData.rename ρ)

/-- The outcome of an action with its error and its last state renamed. -/
def renameOutcome {α : Type} (ρ : Renaming) :
    EStateM.Result AssemblyError Assembly α → EStateM.Result AssemblyError Assembly α
  | .ok r a => .ok r (a.rename ρ)
  | .error e a => .error (e.rename ρ) (a.rename ρ)

/-- Whatever the first action does to a run, the second does to the renamed run. -/
structure Equivariant {α : Type} (ρ : Renaming) (x x' : AssemblyM α) : Prop where
  run : ∀ a : Assembly, x'.run (a.rename ρ) = renameOutcome ρ (x.run a)

namespace Equivariant

variable {α β : Type} {ρ : Renaming}

theorem pure (r : α) : Equivariant ρ (Pure.pure r) (Pure.pure r) := ⟨fun _ => rfl⟩

theorem bind {x x' : AssemblyM α} {f f' : α → AssemblyM β} (hx : Equivariant ρ x x')
    (hf : ∀ r, Equivariant ρ (f r) (f' r)) : Equivariant ρ (x >>= f) (x' >>= f') := by
  constructor
  intro a
  rw [EStateM.run_bind, EStateM.run_bind, hx.run]
  cases x.run a with
  | error e b => rfl
  | ok r b => exact (hf r).run b

theorem get {k k' : Assembly → AssemblyM α} (hk : ∀ a, Equivariant ρ (k a) (k' (a.rename ρ))) :
    Equivariant ρ (MonadState.get >>= k) (MonadState.get >>= k') := by
  constructor
  intro a
  exact (hk a).run a

end Equivariant

theorem Renaming.carries (ρ : Renaming) : SymbolTable.Carries (Symbol.rename ρ) ρ where
  inj := ρ.inj
  name _ := rfl
  number _ := rfl
  fresh _ _ := rfl

namespace Assembly

variable {ρ : Renaming} (a : Assembly)

/-! ### What the operations look at -/

theorem getElem?_rename (home : Nat) :
    (a.rename ρ).sections[home]? = a.sections[home]?.map (SectionData.rename ρ) := Array.getElem?_map

theorem sectionName_rename (home : Nat) : (a.rename ρ).sectionName home = ρ (a.sectionName home) := by
  unfold sectionName
  rw [getElem?_rename]
  cases a.sections[home]? with
  | none => exact ρ.empty.symm
  | some f => rfl

theorem sizeAt_rename (home : Nat) : (a.rename ρ).sizeAt home = a.sizeAt home := by
  unfold sizeAt
  rw [getElem?_rename]
  cases a.sections[home]? <;> rfl

theorem meaning_rename (name : String) :
    (a.rename ρ).symbols.meaning (ρ name) = (a.symbols.meaning name).rename ρ :=
  ρ.carries.meaning_map a.symbols name

theorem ownerOf_rename (home : Nat) : (a.rename ρ).ownerOf home = a.ownerOf home := by
  unfold ownerOf
  rw [sectionName_rename]
  have hget : (a.rename ρ).symbols.get? (ρ (a.sectionName home)) =
      (a.symbols.get? (a.sectionName home)).map (Symbol.rename ρ) := ρ.carries.get?_map _ _
  rw [hget]
  cases a.symbols.get? (a.sectionName home) <;> rfl

variable {a}

theorem change_rename {f : Symbol → Symbol} (hf : ∀ s, (f s).rename ρ = f (s.rename ρ)) (name : String) :
    (a.rename ρ).change (ρ name) f = (a.change name f).rename ρ := by
  unfold change rename
  rw [ρ.carries.map_change hf]

theorem mention_rename (name : String) :
    (a.rename ρ).mention (ρ name) = (a.mention name).rename ρ := by
  unfold mention rename
  rw [ρ.carries.intern_map]

theorem closeSection_rename : (a.rename ρ).closeSection = a.closeSection.rename ρ := by
  unfold closeSection
  have hcurrent : (a.rename ρ).current = a.current := rfl
  rw [hcurrent]
  cases a.current with
  | none => rfl
  | some home =>
    have htable : (a.symbols.modifyName (a.sectionName home) fun s =>
        { s with size := some a.location }).map (Symbol.rename ρ) =
          (a.rename ρ).symbols.modifyName (ρ (a.sectionName home)) fun s =>
            { s with size := some a.location } :=
      ρ.carries.map_modifyName (fun _ => by rfl) a.symbols (a.sectionName home)
    simp only
    rw [sectionName_rename]
    unfold rename at htable ⊢
    rw [htable]

/-! ### Each operation -/

theorem equivariant_openSection : Equivariant ρ openSection openSection := by
  constructor
  intro a
  have hcurrent : (a.rename ρ).current = a.current := rfl
  rw [run_openSection, run_openSection, hcurrent]
  cases a.current <;> rfl

theorem equivariant_emit (bytes : List UInt8) : Equivariant ρ (emit bytes) (emit bytes) := by
  constructor
  intro a
  have hcurrent : (a.rename ρ).current = a.current := rfl
  rw [run_emit, run_emit, hcurrent]
  cases a.current with
  | none => rfl
  | some home =>
    simp only [sizeAt_rename]
    split
    · rfl
    · refine congrArg (EStateM.Result.ok ()) ?_
      unfold rename
      congr 1
      refine Array.ext_getElem? fun k => ?_
      simp only [Array.getElem?_map, Array.getElem?_modify]
      split
      · cases a.sections[k]? <;> rfl
      · rfl

theorem equivariant_recordUse (name : String) (use : PendingUse) :
    Equivariant ρ (recordUse name use) (recordUse (ρ name) use) := by
  constructor
  intro a
  rw [run_recordUse, run_recordUse]
  exact congrArg (EStateM.Result.ok ()) (change_rename (fun _ => by rfl) name)

theorem equivariant_defineLabel (name : String) :
    Equivariant ρ (defineLabel name) (defineLabel (ρ name)) := by
  constructor
  intro a
  have hcurrent : (a.rename ρ).current = a.current := rfl
  rw [run_defineLabel, run_defineLabel, hcurrent, meaning_rename, mention_rename]
  cases a.current with
  | none => rfl
  | some home =>
    simp only [ownerOf_rename]
    show (if (a.symbols.meaning name).isSection || (a.symbols.meaning name).isDefined then _
      else if (a.symbols.meaning name).imported then _ else _) = _
    split
    · rfl
    · split
      · rfl
      · exact congrArg (EStateM.Result.ok ()) (change_rename (fun _ => by rfl) name)

theorem equivariant_markExported (names : List String) :
    Equivariant ρ (markExported names) (markExported (names.map ρ)) := by
  induction names with
  | nil => exact Equivariant.pure ()
  | cons name names ih =>
    constructor
    intro a
    have hchange := change_rename (a := a) (ρ := ρ) (f := fun s => { s with exported := true })
      (fun _ => rfl) name
    rw [List.map_cons, run_markExported_cons, run_markExported_cons, meaning_rename, mention_rename,
      hchange]
    show (if (a.symbols.meaning name).imported then _ else _) = _
    split
    · rfl
    · exact ih.run _

theorem equivariant_markImported (names : List String) :
    Equivariant ρ (markImported names) (markImported (names.map ρ)) := by
  induction names with
  | nil => exact Equivariant.pure ()
  | cons name names ih =>
    constructor
    intro a
    have hchange := change_rename (a := a) (ρ := ρ) (f := fun s => { s with imported := true })
      (fun _ => rfl) name
    rw [List.map_cons, run_markImported_cons, run_markImported_cons, meaning_rename, mention_rename,
      hchange]
    show (if (a.symbols.meaning name).exported then _
      else if (a.symbols.meaning name).isDefined then _ else _) = _
    split
    · rfl
    · split
      · rfl
      · exact ih.run _

theorem freshSection_rename (t : SymbolTable) (name : String) :
    (t.map (Symbol.rename ρ)).freshSection (ρ name) = (t.freshSection name).rename ρ := by
  unfold SymbolTable.freshSection
  rw [SymbolTable.size_map]
  rfl

theorem equivariant_startSection (name : String) :
    Equivariant ρ (startSection name) (startSection (ρ name)) := by
  constructor
  intro a
  rw [run_startSection, run_startSection, closeSection_rename]
  have hknown : (a.closeSection.rename ρ).symbols.contains (ρ name) =
      a.closeSection.symbols.contains name := ρ.carries.contains_map _ _
  rw [hknown]
  split
  · rfl
  · refine congrArg (EStateM.Result.ok ()) ?_
    unfold rename
    simp only [SymbolTable.carried_insert, freshSection_rename, Array.map_push, Array.size_map]
    rfl

theorem equivariant_recordWords (home : Nat) (offset : UInt16) (values : List Value) :
    Equivariant ρ (recordWords home offset values) (recordWords home offset (values.map (Value.rename ρ))) := by
  induction values generalizing offset with
  | nil => exact Equivariant.pure ()
  | cons v vs ih =>
    cases v with
    | literal v => exact ih (offset + 2)
    | symbol name => exact (equivariant_recordUse name _).bind fun _ => ih (offset + 2)

theorem equivariant_direct (d : Directive) : Equivariant ρ (direct d) (direct (d.rename ρ)) := by
  cases d with
  | exports names => exact (equivariant_markExported names).bind fun _ => Equivariant.pure _
  | imports names => exact (equivariant_markImported names).bind fun _ => Equivariant.pure _
  | newSection name => exact (equivariant_startSection name).bind fun _ => Equivariant.pure _
  | words values =>
    have hbytes : ((values.map (Value.rename ρ)).flatMap fun v => Word.bytes v.placeholder) =
        values.flatMap fun v => Word.bytes v.placeholder := by
      rw [List.flatMap_map]
      refine List.flatMap_congr fun v _ => ?_
      cases v <;> rfl
    refine equivariant_openSection.bind fun home => Equivariant.get fun a => ?_
    rw [hbytes]
    exact (equivariant_recordWords home a.location values).bind fun _ =>
      (equivariant_emit _).bind fun _ => Equivariant.pure _
  | ascii bytes => exact (equivariant_emit _).bind fun _ => Equivariant.pure _
  | skip count => exact (equivariant_emit _).bind fun _ => Equivariant.pure _
  | finish =>
    constructor
    intro a
    exact congrArg (EStateM.Result.ok Flow.finished) closeSection_rename

end Assembly

/-! ### Instructions and lines -/

/-- The fixup with its symbol renamed. -/
def Fixup.rename (ρ : String → String) (f : Fixup) : Fixup := { f with symbol := ρ f.symbol }

/-- The encoding of an operand has its symbol in the fixup and nowhere else. -/
theorem Operand.encode_rename (ρ : String → String) (o : Operand) (op dst : UInt8) (mode : AddressMode) :
    (o.rename ρ).encode op dst mode =
      { o.encode op dst mode with fixup := (o.encode op dst mode).fixup.map (Fixup.rename ρ) } := by
  cases o with
  | immediate v => cases v <;> rfl
  | memory v => cases v <;> rfl
  | indexed r v => cases v <;> rfl
  | _ => rfl

theorem Instruction.encode_rename (ρ : String → String) (i : Instruction) :
    (i.rename ρ).encode = { i.encode with fixup := i.encode.fixup.map (Fixup.rename ρ) } := by
  obtain ⟨m, args⟩ := i
  cases args with
  | none => rfl
  | one r => cases m <;> rfl
  | two dst src => rfl
  | jump target => exact Operand.encode_rename ρ target _ _ _
  | data r operand => exact Operand.encode_rename ρ operand _ _ _

namespace Assembly

variable {ρ : Renaming}

theorem equivariant_instruct (i : Instruction) :
    Equivariant ρ (instruct i) (instruct (i.rename ρ)) := by
  have hemit := fun (_ : Unit) =>
    (equivariant_emit (ρ := ρ) i.encode.bytes).bind fun _ => Equivariant.pure Flow.more
  refine equivariant_openSection.bind fun home => ?_
  simp only
  rw [Instruction.encode_rename]
  cases i.encode.fixup with
  | none => exact (Equivariant.pure ()).bind hemit
  | some f =>
    exact Equivariant.get fun a => (equivariant_recordUse f.symbol _).bind hemit

theorem equivariant_enter (label : Option String) :
    Equivariant ρ (enter label) (enter (label.map ρ)) := by
  cases label with
  | none => exact Equivariant.pure ()
  | some name => exact equivariant_defineLabel name

/-- **A renamed line** does to a renamed run what the line does to the run. -/
theorem equivariant_take (l : SourceLine) : Equivariant ρ (take l) (take (l.rename ρ)) := by
  have hline : Equivariant ρ (modify fun a => { a with line := a.line + 1 })
      (modify fun a => { a with line := a.line + 1 }) := ⟨fun _ => rfl⟩
  refine hline.bind fun _ => (equivariant_enter l.label).bind fun _ => ?_
  obtain ⟨label, statement⟩ := l
  cases statement with
  | none => exact Equivariant.pure _
  | some s =>
    cases s with
    | directive d => exact equivariant_direct d
    | instruction i => exact equivariant_instruct i

theorem equivariant_takeAll (ls : List SourceLine) :
    Equivariant ρ (takeAll ls) (takeAll (ls.map (SourceLine.rename ρ))) := by
  induction ls with
  | nil => exact Equivariant.pure ()
  | cons l ls ih =>
    refine (equivariant_take l).bind fun flow => ?_
    cases flow with
    | finished => exact Equivariant.pure ()
    | more => exact ih

end Assembly

/-! ### Modules -/

/-- The resolution with the symbol of its relocation renamed. -/
def Resolution.rename (ρ : Renaming) (r : Resolution) : Resolution :=
  { r with relocation := r.relocation.rename ρ }

variable {ρ : Renaming}

theorem Symbol.resolve_rename (t : SymbolTable) (s : Symbol) :
    (s.rename ρ).resolve (t.map (Symbol.rename ρ)) =
      ((s.resolve t).map (List.map (Resolution.rename ρ))).mapError (AssemblyError.rename ρ) := by
  have howner : (((t.map (Symbol.rename ρ)).byNumber? s.owner).map Symbol.name).getD "" =
      ρ (((t.byNumber? s.owner).map Symbol.name).getD "") := by
    rw [ρ.carries.byNumber?_map]
    cases t.byNumber? s.owner with
    | none => exact ρ.empty.symm
    | some x => rfl
  unfold resolve
  show (if s.uses.isEmpty then _ else if !s.isLocal then _ else if s.isDefined then _ else _) = _
  split
  · rfl
  · split
    · simp only [Except.map, Except.mapError, List.map_map]
      rfl
    · split
      · have howner' : (((t.map (Symbol.rename ρ)).byNumber? (s.rename ρ).owner).map Symbol.name).getD "" =
            _ := howner
        rw [howner']
        simp only [Except.map, Except.mapError, List.map_map]
        rfl
      · rfl

theorem resolveAll_rename (t : SymbolTable) (ss : List Symbol) :
    resolveAll (t.map (Symbol.rename ρ)) (ss.map (Symbol.rename ρ)) =
      ((resolveAll t ss).map (List.map (Resolution.rename ρ))).mapError (AssemblyError.rename ρ) := by
  induction ss with
  | nil => rfl
  | cons s ss ih =>
    rw [List.map_cons, resolveAll, Symbol.resolve_rename, ih, resolveAll]
    cases s.resolve t with
    | error e => rfl
    | ok rs =>
      cases resolveAll t ss with
      | error e => rfl
      | ok rs' =>
        simp only [Except.map, Except.mapError, bind, Except.bind, pure, Except.pure, List.map_append]

/-- The resolved section has the same bytes, and its relocations in the same order. -/
theorem SectionData.resolved_rename (f : SectionData) (rs : List Resolution) :
    (f.rename ρ).resolved (rs.map (Resolution.rename ρ)) = (f.resolved rs).rename ρ := by
  have hbytes : (rs.map (Resolution.rename ρ)).foldl
      (fun bs r => addWord bs r.relocation.offset.toNat r.addend) f.bytes =
        rs.foldl (fun bs r => addWord bs r.relocation.offset.toNat r.addend) f.bytes := by
    rw [List.foldl_map]
    rfl
  have hrelocations : (rs.map (Resolution.rename ρ)).map Resolution.relocation =
      (rs.map Resolution.relocation).map (Relocation.rename ρ) := by
    rw [List.map_map, List.map_map]
    rfl
  unfold resolved rename
  simp only
  rw [hbytes, hrelocations, ← List.map_append, List.map_mergeSort]
  exact fun _ _ _ _ => rfl

theorem Assembly.overrun?_rename (a : Assembly) : (a.rename ρ).overrun? = a.overrun? := by
  have hfills : (a.rename ρ).fills = a.fills := by
    unfold fills
    have htable : (a.rename ρ).symbols.toList = a.symbols.toList.map (Symbol.rename ρ) :=
      SymbolTable.toList_map _ _
    rw [htable, List.filter_map, List.flatMap_map]
    rfl
  unfold overrun?
  rw [hfills]
  simp only [sizeAt_rename]

/-- A renamed run is finished to the renamed module. -/
theorem Assembly.finish_rename (a : Assembly) :
    (a.rename ρ).finish = (a.finish.map (ObjectModule.rename ρ)).mapError (AssemblyError.rename ρ) := by
  have htable : (a.rename ρ).closeSection.symbols = a.closeSection.symbols.map (Symbol.rename ρ) :=
    congrArg Assembly.symbols closeSection_rename
  have hresolve := resolveAll_rename (ρ := ρ) a.closeSection.symbols a.closeSection.symbols.toList
  rw [← SymbolTable.toList_map, ← htable] at hresolve
  simp only [finish]
  rw [hresolve]
  cases resolveAll a.closeSection.symbols a.closeSection.symbols.toList with
  | error e => rfl
  | ok rs =>
    simp only [Except.map, Except.mapError, bind, Except.bind]
    rw [closeSection_rename, overrun?_rename]
    cases a.closeSection.overrun? with
    | some p => rfl
    | none =>
      refine congrArg Except.ok (congrArg₂ ObjectModule.mk ?_ ?_)
      · refine congrArg SymbolTable.mk ?_
        show (a.closeSection.symbols.arena.map _).map _ = (a.closeSection.symbols.arena.map _).map _
        rw [Array.map_map, Array.map_map]
        rfl
      · show (a.closeSection.sections.map (SectionData.rename ρ)).toList.zipIdx.map _ =
          (a.closeSection.sections.toList.zipIdx.map _).map (SectionData.rename ρ)
        rw [Array.toList_map, List.zipIdx_map, List.map_map, List.map_map]
        refine List.map_congr_left fun p _ => ?_
        show (p.1.rename ρ).resolved ((rs.map (Resolution.rename ρ)).filter _) = _
        rw [List.filter_map]
        exact SectionData.resolved_rename p.1 _

theorem Assembly.rename_start : Assembly.rename ρ {} = {} := by
  have hfirst : Symbol.undefined.rename ρ = Symbol.undefined :=
    congrArg (fun name => { Symbol.undefined with name }) ρ.reserved
  simp [rename, SymbolTable.map, SymbolTable.new, hfirst]

/-- **A renamed source text** is assembled to the renamed module, or has the renamed error. -/
theorem assemble_rename {src src' : String} {ls : List SourceLine}
    (hls : counted (Text.lines src) = some ls)
    (hls' : counted (Text.lines src') = some (ls.map (SourceLine.rename ρ))) :
    assemble src' = ((assemble src).map (ObjectModule.rename ρ)).mapError (AssemblyError.rename ρ) := by
  have hrun := (Assembly.equivariant_takeAll (ρ := ρ) ls).run {}
  rw [Assembly.rename_start, ← Assembly.run_feedAll_of_counted hls',
    ← Assembly.run_feedAll_of_counted hls] at hrun
  unfold EStateM.run at hrun
  unfold assemble
  rw [hrun]
  cases Assembly.feedAll (Text.lines src) {} with
  | error e a => rfl
  | ok r a => exact Assembly.finish_rename a

end Sx16
