/-
# An assembled module is its source text in two passes

When a run is finished, pending uses are resolved symbol by symbol. The resolutions of one symbol are
those of the placeholders that stand for it; together they are the resolutions of all placeholders in
another order. Placeholders of a section lie apart, so the order in which they are filled does not
matter, and sorting by offset gives the relocations in the order of the source text.

Key definitions: `Program.resolution`, `SourceLine.encoding`, `SourceLine.symbols`.
Key theorems: `Follows.finish`, `SourceLine.filter_isHole_items`, `assemble_transcribes`.
-/
import Mathlib.Data.List.Nodup
import Mathlib.Tactic.Tauto
import Sx16.Proofs.Assembly.Follows

namespace Sx16

/-- What becomes of a placeholder. -/
def Program.resolution (is : Program) (r : Reference) : Resolution :=
  ⟨r.home, is.relocation r, is.value r.symbol⟩

/-- What a resolution adds to its placeholder. -/
def Resolution.patch (r : Resolution) : Patch := ⟨r.relocation.offset.toNat, r.addend⟩

/-- A name of which the second pass knows what to write for it. -/
def Program.IsKnown (is : Program) (name : String) : Prop :=
  is.isShared name = true ∨
    ∃ home offset x, is.labelAt? name = some (home, offset) ∧ is.sectionNames[home]? = some x

open Program

variable {is : Program} {t : SymbolTable} {name : String}

/-! ### One symbol -/

theorem Program.isShared_eq_true :
    is.isShared name = true ↔ name ∈ is.exported ∨ name ∈ is.imported ∨ name ∈ is.sectionNames := by
  rw [Program.isShared, decide_eq_true_iff]

/-- A shared name is mentioned. -/
theorem exists_of_isShared {name : String} (h : is.isShared name = true) :
    ∃ i ∈ is, i.name? = some name := by
  rcases Program.isShared_eq_true.mp h with hexp | himp | hsec
  · obtain ⟨i, hi, hname⟩ := List.mem_filterMap.mp hexp
    cases i <;> cases hname
    exact ⟨_, hi, rfl⟩
  · obtain ⟨i, hi, hname⟩ := List.mem_filterMap.mp himp
    cases i <;> cases hname
    exact ⟨_, hi, rfl⟩
  · obtain ⟨i, hi, hname⟩ := List.mem_filterMap.mp hsec
    cases i <;> cases hname
    exact ⟨_, hi, rfl⟩

theorem Describes.isLocal {s : Symbol} (h : Describes is t name s) :
    s.isLocal = !is.isShared name := by
  have hiff : s.isLocal = false ↔ is.isShared name = true := by
    rw [Program.isShared_eq_true, Symbol.isLocal, Bool.and_eq_false_iff, Bool.not_eq_false',
      Bool.not_eq_false', h.exported, h.imported]
    tauto
  cases hs : is.isShared name with
  | true => exact hiff.mpr hs
  | false =>
    cases hl : s.isLocal with
    | true => rfl
    | false => rw [hiff.mp hl] at hs; cases hs

/-- The resolutions of a symbol are those of the placeholders that stand for it. -/
theorem Knows.resolve {s : Symbol} {rs : List Resolution} (h : Knows is t)
    (hs : s ∈ t.toList) (hrun : s.resolve t = .ok rs) :
    rs = (is.referencesTo s.name).map is.resolution ∧
      (is.referencesTo s.name ≠ [] → is.IsKnown s.name) := by
  have hd := h.describes_of_mem hs
  have hsym : ∀ r ∈ is.referencesTo s.name, r.symbol = s.name := fun r hr =>
    beq_iff_eq.mp (List.mem_filter.mp hr).2
  unfold Symbol.resolve at hrun
  rw [hd.uses] at hrun
  split at hrun
  · rename_i hempty
    cases hrun
    rw [List.isEmpty_iff, List.map_eq_nil_iff] at hempty
    rw [hempty]
    exact ⟨rfl, fun hne => absurd rfl hne⟩
  · rw [hd.isLocal, Bool.not_not] at hrun
    split at hrun
    · rename_i hshared
      cases hrun
      rw [List.map_map]
      refine ⟨List.map_congr_left fun r hr => ?_, fun _ => Or.inl hshared⟩
      rw [resolution, relocation, target, value, hsym r hr, if_pos hshared, if_pos hshared]
      rfl
    · rename_i hlocal
      split at hrun
      · rename_i hdef
        cases hrun
        have hsec : s.name ∉ is.sectionNames := fun hmem =>
          hlocal (Program.isShared_eq_true.mpr (Or.inr (Or.inr hmem)))
        obtain ⟨home, offset, x, hl, hx, howner, hvalue⟩ := hd.exists_label hdef hsec
        rw [List.map_map]
        refine ⟨List.map_congr_left fun r hr => ?_, fun _ => Or.inr ⟨home, offset, x, hl, hx⟩⟩
        rw [SymbolTable.nameOf?] at howner
        rw [resolution, relocation, target, value, hsym r hr, if_neg hlocal, if_neg hlocal, hl,
          h.tidy.byNumber?_eq, howner, hvalue, Option.bind_some, hx]
        rfl
      · cases hrun

/-! ### All symbols -/

/-- The elements with one of several keys, key by key. -/
theorem perm_flatMap_filter {α κ : Type} [DecidableEq κ] (key : α → κ) (xs : List α) {ks : List κ}
    (hks : ks.Nodup) (hall : ∀ x ∈ xs, key x ∈ ks) :
    (ks.flatMap fun k => xs.filter (key · == k)).Perm xs := by
  induction ks generalizing xs with
  | nil =>
    have : xs = [] := List.eq_nil_iff_forall_not_mem.mpr fun x hx => nomatch hall x hx
    rw [this]
    exact List.Perm.nil
  | cons k ks ih =>
    obtain ⟨hk, hks⟩ := List.nodup_cons.mp hks
    have hrest : (ks.flatMap fun k' => xs.filter (key · == k')) =
        ks.flatMap fun k' => (xs.filter fun x => !(key x == k)).filter (key · == k') := by
      refine List.flatMap_congr fun k' hk' => ?_
      rw [List.filter_filter]
      refine List.filter_congr fun x _ => ?_
      by_cases hx : key x = k'
      · have hne : k' ≠ k := fun he => hk (he ▸ hk')
        simp [hx, hne]
      · simp [hx]
    rw [List.flatMap_cons, hrest]
    have hperm := ih (xs.filter fun x => !(key x == k)) hks fun x hx => by
      obtain ⟨hx, hne⟩ := List.mem_filter.mp hx
      rcases List.mem_cons.mp (hall x hx) with h | h
      · simp [h] at hne
      · exact h
    exact (hperm.append_left _).trans (List.filter_append_perm _ xs)

/-- Every symbol in turn. -/
theorem resolveAll_eq_ok {ss : List Symbol} {rs : List Resolution} (h : Knows is t)
    (hss : ∀ s ∈ ss, s ∈ t.toList) (hrun : resolveAll t ss = .ok rs) :
    rs = ((ss.map Symbol.name).flatMap is.referencesTo).map is.resolution ∧
      ∀ s ∈ ss, is.referencesTo s.name ≠ [] → is.IsKnown s.name := by
  induction ss generalizing rs with
  | nil =>
    cases hrun
    exact ⟨rfl, by simp⟩
  | cons s ss ih =>
    unfold resolveAll at hrun
    cases hs : s.resolve t with
    | error e => rw [hs] at hrun; cases hrun
    | ok rs1 =>
      cases hrest : resolveAll t ss with
      | error e => rw [hs, hrest] at hrun; cases hrun
      | ok rs2 =>
        rw [hs, hrest] at hrun
        cases hrun
        obtain ⟨rfl, hknown⟩ := h.resolve (hss s List.mem_cons_self) hs
        obtain ⟨rfl, hknowns⟩ := ih (fun s' hs' => hss s' (List.mem_cons_of_mem _ hs')) hrest
        refine ⟨?_, List.forall_mem_cons.mpr ⟨hknown, hknowns⟩⟩
        rw [List.map_cons, List.flatMap_cons, List.map_append]

theorem Knows.mem_names (h : Knows is t) {r : Reference} (hr : r ∈ is.references) :
    r.symbol ∈ t.toList.map Symbol.name := by
  have huses := (h.describes r.symbol).uses
  have hmem : r ∈ is.referencesTo r.symbol := List.mem_filter.mpr ⟨hr, beq_self_eq_true _⟩
  cases hg : t.get? r.symbol with
  | some s =>
    obtain ⟨hs, hname⟩ := h.tidy.get?_eq_some_iff.mp hg
    exact List.mem_map.mpr ⟨s, hs, hname⟩
  | none =>
    rw [SymbolTable.meaning_of_none hg] at huses
    rw [List.map_eq_nil_iff.mp huses.symm] at hmem
    cases hmem

/-- **No use is lost or doubled**: the resolutions of all symbols are those of all placeholders. -/
theorem Knows.resolveAll (h : Knows is t) {rs : List Resolution}
    (hrun : resolveAll t t.toList = .ok rs) :
    rs.Perm (is.references.map is.resolution) ∧ ∀ r ∈ is.references, is.IsKnown r.symbol := by
  obtain ⟨rfl, hknown⟩ := resolveAll_eq_ok h (fun _ => id) hrun
  refine ⟨(perm_flatMap_filter Reference.symbol is.references h.tidy.nodup_names
    fun r hr => h.mem_names hr).map _, fun r hr => ?_⟩
  obtain ⟨s, hs, hname⟩ := List.mem_map.mp (h.mem_names hr)
  rw [← hname]
  refine hknown s hs (List.ne_nil_of_mem (a := r) (List.mem_filter.mpr ⟨hr, ?_⟩))
  rw [hname]
  exact beq_self_eq_true _

/-! ### One section -/

theorem Buffers.toNat_offset {a : Assembly} (h : Buffers is a) {home : Nat} {r : Reference}
    (hr : r ∈ is.referencesIn home) : (UInt16.ofNat r.offset).toNat = r.offset := by
  have hin := reference_inside (List.mem_filter.mp hr).1
  have hle := h.limit r.home
  unfold Assembly.sectionLimit at hle
  rw [UInt16.toNat_ofNat']
  exact Nat.mod_eq_of_lt (by omega)

theorem Buffers.pairwise_relocation {a : Assembly} (h : Buffers is a) (home : Nat) :
    ((is.referencesIn home).map is.relocation).Pairwise fun p q =>
      p.offset.toNat + 2 ≤ q.offset.toNat := by
  rw [List.pairwise_map]
  refine (pairwise_referencesIn is home).imp_of_mem fun hr hr' hle => ?_
  rw [relocation, relocation, h.toNat_offset hr, h.toNat_offset hr']
  exact hle

/-- **A section is resolved as the second pass writes it down**, in whatever order its placeholders
were filled. -/
theorem Buffers.resolved {a : Assembly} (h : Buffers is a) {home : Nat} {rs : List Resolution}
    (hrs : rs.Perm ((is.referencesIn home).map is.resolution)) (x : String) :
    (SectionData.holding (is.rawCode home) x).resolved rs =
      { name := x
        bytes := ((is.code home).flatMap (Item.resolved is.value)).toArray
        relocations := (is.referencesIn home).map is.relocation } := by
  have hsorted := h.pairwise_relocation home
  have hpatch : ∀ r ∈ is.referencesIn home,
      (Resolution.patch ∘ is.resolution) r = r.patch is.value := by
    intro r hr
    rw [Function.comp_apply, Resolution.patch, resolution, relocation, Reference.patch,
      h.toNat_offset hr]
  have hbytes : rs.foldl (fun bs r => addWord bs r.relocation.offset.toNat r.addend)
      (is.rawCode home).toArray = ((is.code home).flatMap (Item.resolved is.value)).toArray := by
    have hperm := hrs.map Resolution.patch
    rw [List.map_map, List.map_congr_left hpatch] at hperm
    rw [← patched_rawCode, patched_perm (pairwise_patch is home is.value) hperm.symm, patched,
      List.foldl_map]
    rfl
  -- Sorting gives the only list of these relocations that is in the order of offsets.
  have hrel : (rs.map Resolution.relocation).mergeSort (fun p q => decide (p.offset ≤ q.offset)) =
      (is.referencesIn home).map is.relocation := by
    have hperm := hrs.map Resolution.relocation
    rw [List.map_map] at hperm
    have hperm' := (List.mergeSort_perm _ fun p q => decide (p.offset ≤ q.offset)).trans hperm
    have htrans : ∀ p q r : Relocation, decide (p.offset ≤ q.offset) = true →
        decide (q.offset ≤ r.offset) = true → decide (p.offset ≤ r.offset) = true := by
      intro p q r hpq hqr
      rw [decide_eq_true_iff] at hpq hqr ⊢
      exact UInt16.le_trans hpq hqr
    have htotal : ∀ p q : Relocation,
        (decide (p.offset ≤ q.offset) || decide (q.offset ≤ p.offset)) = true := by
      intro p q
      rw [Bool.or_eq_true, decide_eq_true_iff, decide_eq_true_iff]
      exact UInt16.le_total _ _
    have hmerge := List.pairwise_mergeSort htrans htotal (rs.map Resolution.relocation)
    have hle := hsorted.imp fun {p q : Relocation} (hpq : p.offset.toNat + 2 ≤ q.offset.toNat) =>
      (decide_eq_true (UInt16.le_iff_toNat_le.mpr (by omega)) : decide (p.offset ≤ q.offset) = true)
    refine List.Perm.eq_of_pairwise (fun p q hp hq hpq hqp => ?_) hmerge hle hperm'
    have hnodup : (((is.referencesIn home).map is.relocation).map Relocation.offset).Nodup :=
      List.pairwise_map.mpr (hsorted.imp fun hlt heq => by rw [heq] at hlt; omega)
    rw [decide_eq_true_iff] at hpq hqp
    exact List.inj_on_of_nodup_map hnodup (hperm'.subset hp) hq (UInt16.le_antisymm hpq hqp)
  rw [SectionData.resolved, SectionData.holding]
  simp only [List.nil_append]
  rw [hbytes, hrel]

/-! ### The module -/

/-- The table with all uses settled. -/
def SymbolTable.settled (t : SymbolTable) : SymbolTable :=
  ⟨t.arena.map fun s => { s with uses := [] }⟩

theorem Buffers.zipIdx_sections {a : Assembly} (h : Buffers is a) :
    a.sections.toList.zipIdx =
      is.sectionNames.zipIdx.map fun s => (SectionData.holding (is.rawCode s.2) s.1, s.2) := by
  apply List.ext_getElem?
  intro k
  rw [List.getElem?_zipIdx, List.getElem?_map, List.getElem?_zipIdx, Array.getElem?_toList,
    h.sections, Nat.zero_add, Option.map_map, Option.map_map]
  rfl

/-- Every pending use is of a placeholder, and placeholders are inside their sections. -/
theorem Follows.overrun?_eq_none {a : Assembly} (h : Follows is a) : a.overrun? = none := by
  refine List.findSome?_eq_none_iff.mpr fun u hu => if_pos ?_
  obtain ⟨s, hs, hu⟩ := List.mem_flatMap.mp hu
  rw [(h.knows.describes_of_mem (List.mem_filter.mp hs).1).uses] at hu
  obtain ⟨r, hr, rfl⟩ := List.mem_map.mp hu
  have hmem : r ∈ is.references := (List.mem_filter.mp hr).1
  have hoffset := h.toNat_offset (List.mem_filter.mpr ⟨hmem, beq_self_eq_true r.home⟩)
  show (UInt16.ofNat r.offset).toNat + 2 ≤ a.sizeAt r.home
  rw [hoffset, h.sizeAt]
  exact reference_inside hmem

/-- What it takes to finish a run: every use is resolved, and every placeholder that is filled is
there. -/
theorem Assembly.finish_eq_ok_iff {a : Assembly} {m : ObjectModule} :
    a.finish = .ok m ↔ ∃ rs,
      Sx16.resolveAll a.closeSection.symbols a.closeSection.symbols.toList = .ok rs ∧
      a.closeSection.overrun? = none ∧ m = {
        symbols := a.closeSection.symbols.settled
        sections := a.closeSection.sections.toList.zipIdx.map fun p =>
          p.1.resolved (rs.filter (·.home == p.2)) } := by
  unfold Assembly.finish
  cases hrs : Sx16.resolveAll a.closeSection.symbols a.closeSection.symbols.toList with
  | error e => simp [hrs, bind, Except.bind]
  | ok rs =>
    cases hover : a.closeSection.overrun? with
    | some p => simp [hrs, hover, bind, Except.bind, throw, throwThe, MonadExceptOf.throw]
    | none => simp [hrs, hover, bind, Except.bind, pure, Except.pure, SymbolTable.settled, eq_comm]

/-- **A run that is finished** gives the sections of the second pass. -/
theorem Follows.finish {a : Assembly} {m : ObjectModule} (h : Follows is a)
    (hrun : a.finish = .ok m) :
    m.sections = is.sections ∧ (∀ r ∈ is.references, is.IsKnown r.symbol) ∧
      ∃ t, Knows is t ∧ m.symbols = t.settled := by
  have hclose := h.closeSection
  obtain ⟨rs, hrs, -, rfl⟩ := Assembly.finish_eq_ok_iff.mp hrun
  obtain ⟨hperm, hknown⟩ := hclose.knows.resolveAll hrs
  refine ⟨?_, hknown, _, hclose.knows, rfl⟩
  simp only
  rw [hclose.zipIdx_sections, List.map_map, sections]
  refine List.map_congr_left fun s _ => hclose.toBuffers.resolved ?_ s.1
  have hfilter := hperm.filter (·.home == s.2)
  rwa [List.filter_map] at hfilter

/-- A module that was assembled comes from a run over the lines that count. -/
theorem exists_run_of_assemble {src : String} {m : ObjectModule} (h : assemble src = .ok m) :
    ∃ ls a, counted (Text.lines src) = some ls ∧ Follows (ls.flatMap SourceLine.items) a ∧
      a.finish = .ok m := by
  unfold assemble at h
  split at h
  · cases h
  · rename_i a hrun
    obtain ⟨ls, hls, hfollows⟩ := Follows.start.feedAll hrun
    exact ⟨ls, a, hls, hfollows, h⟩

/-! ### What the second pass writes -/

/-- The bytes of a directive before symbols have values. -/
def Directive.encoding : Directive → List UInt8
  | words values => values.flatMap fun v => Word.bytes v.placeholder
  | ascii bytes => bytes
  | skip count => List.replicate count.toNat 0
  | _ => []

/-- The bytes of a line before symbols have values. -/
def SourceLine.encoding (l : SourceLine) : List UInt8 :=
  match l.statement with
  | none => []
  | some (.directive d) => d.encoding
  | some (.instruction i) => i.encode.bytes

theorem SourceLine.flatMap_raw_items (l : SourceLine) :
    l.items.flatMap Item.raw = l.encoding := by
  have hdir : ∀ d : Directive, d.items.flatMap Item.raw = d.encoding := by
    intro d
    cases d with
    | exports names => simp [Directive.items, Directive.encoding, List.flatMap_map, Item.raw]
    | imports names => simp [Directive.items, Directive.encoding, List.flatMap_map, Item.raw]
    | words values => exact Value.flatMap_raw_item values
    | newSection name => rfl
    | ascii bytes => exact List.append_nil _
    | skip count => exact List.append_nil _
    | finish => rfl
  have hlabel : (l.label.map Item.label).toList.flatMap Item.raw = [] := by
    cases l.label <;> rfl
  rw [SourceLine.items, List.flatMap_append, hlabel, List.nil_append, SourceLine.encoding]
  cases l.statement with
  | none => rfl
  | some s =>
    cases s with
    | directive d => exact hdir d
    | instruction i => exact Encoded.flatMap_raw_items (Instruction.fixup_inside i)

/-- The word that a placeholder holds before its symbol has a value. -/
def RelocationKind.placeholder : RelocationKind → UInt16
  | pcRelative => pcRelativePlaceholder
  | symbolWord => 0

/-- The operand of an instruction, if it takes one. -/
def Arguments.operand? : Arguments → Option Operand
  | jump operand | data _ operand => some operand
  | none | one _ | two _ _ => .none

/-- The symbols that words of a line stand for, in order, and how each word is filled in: the values
of a word directive that are symbols, or the symbol of an operand. -/
def SourceLine.symbols (l : SourceLine) : List (String × RelocationKind) :=
  match l.statement with
  | some (.directive (.words values)) =>
    values.filterMap fun v => v.symbol?.map fun x => (x, .symbolWord)
  | some (.instruction i) => (i.arguments.operand?.bind Operand.reference?).toList
  | _ => []

/-- Whether an item is a placeholder. -/
def Item.isHole : Item → Bool
  | hole _ _ _ => true
  | _ => false

/-- The placeholder of a symbol. -/
def Item.ofSymbol (p : String × RelocationKind) : Item := .hole p.2.placeholder p.1 p.2

section Symbols

variable {p : String × RelocationKind}

/-- A placeholder behind three bytes, at the end of an encoding. -/
theorem Encoded.items_behind (a b c : UInt8) (w : UInt16) (x : String) (kind : RelocationKind) :
    Encoded.items ⟨[a, b, c] ++ Word.bytes w, some ⟨3, x, kind⟩⟩ =
      [.bytes [a, b, c], .hole w x kind, .bytes []] := by
  have hword : wordAt? ([a, b, c] ++ Word.bytes w).toArray 3 = some w :=
    congrArg some (Word.ofBytes_low_high w)
  show [Item.bytes [a, b, c], .hole ((wordAt? ([a, b, c] ++ Word.bytes w).toArray 3).getD 0) x kind,
    .bytes []] = _
  rw [hword]
  rfl

theorem Value.placeholder_of_symbol? {v : Value} {x : String} (h : v.symbol? = some x) :
    v.placeholder = 0 := by
  cases v with
  | literal n => cases h
  | symbol y => rfl

theorem Operand.payload?_of_reference? {o : Operand} (h : o.reference? = some p) :
    o.payload? = some p.2.placeholder := by
  cases o with
  | immediate v | memory v | indexed _ v =>
    obtain ⟨x, hx, rfl⟩ := Option.map_eq_some_iff.mp h
    exact congrArg some (Value.placeholder_of_symbol? hx)
  | pcRelative x =>
    cases h
    rfl
  | register r | indirect r => cases h

/-- An operand with a symbol has one placeholder, which is the word behind the mode byte. -/
theorem Operand.items_encode {o : Operand} (op dst : UInt8) (m : AddressMode)
    (h : o.reference? = some p) : (o.encode op dst m).items =
      [.bytes [op, (Descriptor.mk dst o.source).toByte, (o.mode m).byte .none], .ofSymbol p,
        .bytes []] := by
  have hencode : o.encode op dst m =
      ⟨[op, (Descriptor.mk dst o.source).toByte, (o.mode m).byte .none] ++
        Word.bytes p.2.placeholder, some ⟨3, p.1, p.2⟩⟩ := by
    rw [Operand.encode, h, Operand.payload?_of_reference? h]
    rfl
  rw [hencode]
  exact Encoded.items_behind _ _ _ _ _ _

theorem Operand.filter_isHole_items (o : Operand) (op dst : UInt8) (m : AddressMode) :
    (o.encode op dst m).items.filter Item.isHole = o.reference?.toList.map Item.ofSymbol := by
  cases h : o.reference? with
  | none =>
    rw [Operand.encode, h]
    rfl
  | some p =>
    rw [Operand.items_encode op dst m h]
    rfl

theorem Instruction.filter_isHole_items (i : Instruction) : i.encode.items.filter Item.isHole =
    (i.arguments.operand?.bind Operand.reference?).toList.map Item.ofSymbol := by
  obtain ⟨m, args⟩ := i
  cases args with
  | none | two dst src => rfl
  | one r => cases m <;> rfl
  | jump operand => exact operand.filter_isHole_items _ _ _
  | data r operand => exact operand.filter_isHole_items _ _ _

theorem Value.filter_isHole_item (values : List Value) : (values.map Value.item).filter Item.isHole =
    (values.filterMap fun v => v.symbol?.map fun x => (x, .symbolWord)).map Item.ofSymbol := by
  induction values with
  | nil => rfl
  | cons v values ih =>
    cases v with
    | literal w => exact ih
    | symbol x => exact congrArg (Item.hole 0 x .symbolWord :: ·) ih

/-- **Each symbol in an operand or a word directive is one placeholder**, in the order of the line, and a
line has no others. -/
theorem SourceLine.filter_isHole_items (l : SourceLine) :
    l.items.filter Item.isHole = l.symbols.map Item.ofSymbol := by
  have hdirective : ∀ d : Directive, d.items.filter Item.isHole =
      (SourceLine.symbols ⟨none, some (.directive d)⟩).map Item.ofSymbol := by
    intro d
    cases d with
    | words values => exact Value.filter_isHole_item values
    | exports names | imports names =>
      exact List.filter_eq_nil_iff.mpr (by simp [Directive.items, Item.isHole])
    | newSection _ | ascii _ | skip _ | finish => rfl
  have hlabel : (l.label.map Item.label).toList.filter Item.isHole = [] := by
    cases l.label <;> rfl
  rw [SourceLine.items, List.filter_append, hlabel, List.nil_append, SourceLine.symbols]
  cases l.statement with
  | none => rfl
  | some s =>
    cases s with
    | directive d => exact hdirective d
    | instruction i => exact i.filter_isHole_items

end Symbols

theorem SourceLine.initial_of_mem {l : SourceLine} {w : UInt16} {x : String}
    {kind : RelocationKind} (h : Item.hole w x kind ∈ l.items) : w = kind.placeholder := by
  have hhole := List.mem_filter.mpr ⟨h, show (Item.hole w x kind).isHole = true from rfl⟩
  rw [l.filter_isHole_items] at hhole
  obtain ⟨p, -, hp⟩ := List.mem_map.mp hhole
  cases hp
  rfl

/-- What has become of a placeholder in a section: a word and a relocation. A shared name keeps its
word and its name; any other name is a label of some section, which adds its offset and gives its
section's name. -/
structure Reference.WrittenIn (is : Program) (f : SectionData) (r : Reference) : Prop where
  offset : (UInt16.ofNat r.offset).toNat = r.offset
  initial : r.initial = r.kind.placeholder
  shared : is.isShared r.symbol = true →
    wordAt? f.bytes r.offset = some r.initial ∧
      is.relocation r = ⟨r.kind, UInt16.ofNat r.offset, r.symbol⟩
  labelled : is.isShared r.symbol = false → ∃ home v x,
    is.labelAt? r.symbol = some (home, v) ∧ is.sectionNames[home]? = some x ∧
      wordAt? f.bytes r.offset = some (r.initial + UInt16.ofNat v) ∧
      is.relocation r = ⟨r.kind, UInt16.ofNat r.offset, x⟩

/-- A section holds the encodings of its lines one after the other, but for its placeholders, and has
a relocation for each placeholder, in the same order. -/
structure SectionData.Transcribes (is : Program) (home : Nat) (f : SectionData) : Prop where
  size : f.bytes.size = (is.rawCode home).length
  bytes : ∀ k, (∀ r ∈ is.referencesIn home, k ≠ r.offset ∧ k ≠ r.offset + 1) →
    f.bytes[k]? = (is.rawCode home)[k]?
  words : ∀ r ∈ is.referencesIn home, r.WrittenIn is f
  relocations : f.relocations = (is.referencesIn home).map is.relocation
  apart : f.relocations.Pairwise fun p q => p.offset.toNat + 2 ≤ q.offset.toNat
  inside : ∀ p ∈ f.relocations, p.offset.toNat + 2 ≤ f.bytes.size

/-- The second pass transcribes a section if every name it comes across is known. -/
theorem Buffers.transcribes {a : Assembly} (h : Buffers is a)
    (hknown : ∀ r ∈ is.references, is.IsKnown r.symbol)
    (hinitial : ∀ r ∈ is.references, r.initial = r.kind.placeholder) (home : Nat) (x : String) :
    SectionData.Transcribes is home
      { name := x
        bytes := ((is.code home).flatMap (Item.resolved is.value)).toArray
        relocations := (is.referencesIn home).map is.relocation } := by
  have hsize : ((is.code home).flatMap (Item.resolved is.value)).toArray.size =
      (is.rawCode home).length := by
    rw [← patched_rawCode, size_patched, List.size_toArray]
  refine ⟨hsize, fun k hk => ?_, fun r hr => ?_, rfl, h.pairwise_relocation home, fun p hp => ?_⟩
  · simp only
    rw [← patched_rawCode, getElem?_patched fun p hp => ?_, List.getElem?_toArray]
    obtain ⟨r, hr, rfl⟩ := List.mem_map.mp hp
    exact hk r hr
  · have hmem := (List.mem_filter.mp hr).1
    have hword := wordAt?_code hr is.value
    refine ⟨h.toNat_offset hr, hinitial r hmem, fun hs => ?_, fun hs => ?_⟩
    · rw [value, if_pos hs, UInt16.add_zero] at hword
      rw [relocation, target, if_pos hs]
      exact ⟨hword, rfl⟩
    · have hno : ¬ is.isShared r.symbol = true := by rw [hs]; exact Bool.false_ne_true
      rcases hknown r hmem with hshared | ⟨home', v, x', hl, hx⟩
      · exact absurd hshared hno
      · refine ⟨home', v, x', hl, hx, ?_, ?_⟩
        · rw [value, if_neg hno, hl] at hword
          exact hword
        · rw [relocation, target, if_neg hno, hl, Option.bind_some, hx]
          rfl
  · obtain ⟨r, hr, rfl⟩ := List.mem_map.mp hp
    have hin := reference_inside (List.mem_filter.mp hr).1
    rw [beq_iff_eq.mp (List.mem_filter.mp hr).2] at hin
    rw [relocation, h.toNat_offset hr, hsize]
    exact hin

/-- The sections of an assembled module transcribe the lines that count. -/
theorem transcribes_of_assemble {src : String} {m : ObjectModule} (h : assemble src = .ok m) :
    ∃ ls, counted (Text.lines src) = some ls ∧
      m.sections.map SectionData.name = sectionNames (ls.flatMap SourceLine.items) ∧
      ∀ home f, m.sections[home]? = some f →
        SectionData.Transcribes (ls.flatMap SourceLine.items) home f := by
  obtain ⟨ls, a, hls, hfollows, hfin⟩ := exists_run_of_assemble h
  obtain ⟨hsec, hknown, -⟩ := hfollows.finish hfin
  have hinitial : ∀ r ∈ references (ls.flatMap SourceLine.items), r.initial = r.kind.placeholder := by
    intro r hr
    obtain ⟨l, -, hl⟩ := List.mem_flatMap.mp (mem_of_mem_references hr)
    exact SourceLine.initial_of_mem hl
  refine ⟨ls, hls, ?_, fun home f hf => ?_⟩
  · rw [hsec, sections, List.map_map]
    exact List.zipIdx_map_fst 0 _
  · rw [hsec, getElem?_sections] at hf
    obtain ⟨x, -, rfl⟩ := Option.map_eq_some_iff.mp hf
    exact hfollows.toBuffers.transcribes hknown hinitial home x

/-- **Assembly is assembly in two passes**, the first of which finds the place of every label: the
sections of an assembled module transcribe the lines up to the first that ends the source text. The bytes
of a line are those of its instruction or directive, and its placeholders stand for the symbols in its
operand or among its values. -/
theorem assemble_transcribes {src : String} {m : ObjectModule} (h : assemble src = .ok m) :
    ∃ ls, counted (Text.lines src) = some ls ∧
      (∀ l ∈ ls, l.items.flatMap Item.raw = l.encoding) ∧
      (∀ l ∈ ls, l.items.filter Item.isHole = l.symbols.map Item.ofSymbol) ∧
      m.sections.map SectionData.name = sectionNames (ls.flatMap SourceLine.items) ∧
      ∀ home f, m.sections[home]? = some f →
        SectionData.Transcribes (ls.flatMap SourceLine.items) home f := by
  obtain ⟨ls, hls, hnames, htrans⟩ := transcribes_of_assemble h
  exact ⟨ls, hls, fun l _ => l.flatMap_raw_items, fun l _ => l.filter_isHole_items, hnames, htrans⟩

/-- A label that is used before its line and a name that is shared after its use. -/
def forwardText : String :=
  ".section code\n ldr r0, %x\n.word x, y\nx: .word 7\n.global y\n.end\nx:"

theorem assemble_transcribes_forward : ∃ m, assemble forwardText = .ok m ∧
    m.sections.map SectionData.bytes =
      [#[0xA0, 0x07, 0x03, 0x07, 0x00, 0x09, 0x00, 0x00, 0x00, 0x07, 0x00]] ∧
    ∃ ls, counted (Text.lines forwardText) = some ls ∧
      (∀ l ∈ ls, l.items.flatMap Item.raw = l.encoding) ∧
      (∀ l ∈ ls, l.items.filter Item.isHole = l.symbols.map Item.ofSymbol) ∧
      m.sections.map SectionData.name = sectionNames (ls.flatMap SourceLine.items) ∧
      ∀ home f, m.sections[home]? = some f →
        SectionData.Transcribes (ls.flatMap SourceLine.items) home f := by
  have hbytes : (assemble forwardText).toOption.map (fun m => m.sections.map SectionData.bytes) =
      some [#[0xA0, 0x07, 0x03, 0x07, 0x00, 0x09, 0x00, 0x00, 0x00, 0x07, 0x00]] := by
    decide +kernel
  cases hm : assemble forwardText with
  | error e =>
    rw [hm] at hbytes
    cases hbytes
  | ok m =>
    rw [hm] at hbytes
    exact ⟨m, rfl, Option.some.inj hbytes, assemble_transcribes hm⟩

end Sx16
