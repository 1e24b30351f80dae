/-
# Assembling with an operand made relative

Of two source texts that differ in one operand, which is relative to the program counter in the
second, one is assembled if the other is. The modules have the same symbols, and their sections are
the same but for the five bytes of that instruction and the kind of its relocation.

Key definitions: `Program.around`, `ObjectModule.Reads`, `ObjectModule.Neat`.
Key theorems: `Program.replaced_sections`, `exists_assemble_relative`, `neat_of_assemble`.
-/
import Sx16.Proofs.Assembly.Alike
import Sx16.Proofs.Assembly.Sound
import Sx16.Proofs.Relative.Operand

namespace Sx16

/-! ### An instruction among other items -/

namespace Program

/-- The items of an instruction with a placeholder behind three bytes, and what comes before and
after them. -/
def around (p q : Program) (head : List UInt8) (w : UInt16) (x : String) (kind : RelocationKind) :
    Program :=
  p ++ ([.bytes head, .hole w x kind, .bytes []] ++ q)

variable {p q : Program} {head head' : List UInt8} {w w' : UInt16} {x : String}
  {kind kind' : RelocationKind} {home k : Nat}

theorem sectionNames_around (p q : Program) (head : List UInt8) (w : UInt16) (x : String)
    (kind : RelocationKind) :
    (around p q head w x kind).sectionNames = p.sectionNames ++ q.sectionNames := by
  unfold around sectionNames
  rw [List.filterMap_append, List.filterMap_append]
  rfl

theorem isShared_around (p q : Program) (head : List UInt8) (w : UInt16) (x : String)
    (kind : RelocationKind) (name : String) :
    (around p q head w x kind).isShared name = isShared (p ++ q) name := by
  unfold isShared around sectionNames exported imported
  simp only [List.filterMap_append]
  rfl

theorem located_around (hp : p.place = ⟨some home, k⟩) (h : head.length = 3) (q : Program)
    (w : UInt16) (x : String) (kind : RelocationKind) :
    (around p q head w x kind).located = p.located ++
      ([(⟨some home, k⟩, .bytes head), (⟨some home, k + 3⟩, .hole w x kind),
        (⟨some home, k + 5⟩, .bytes [])] ++ locatedFrom ⟨some home, k + 5⟩ q) := by
  have hplace : p.foldl Place.after {} = ⟨some home, k⟩ := hp
  have hafter : Place.after ⟨some home, k⟩ (.bytes head) = ⟨some home, k + 3⟩ := by
    show (⟨some home, k + head.length⟩ : Place) = _
    rw [h]
  unfold around located
  rw [locatedFrom_append, hplace]
  refine congrArg (_ ++ ·) ?_
  show (_, _) :: locatedFrom (Place.after ⟨some home, k⟩ (.bytes head)) _ = _
  rw [hafter]
  rfl

theorem labelAt?_around (hp : p.place = ⟨some home, k⟩) (h : head.length = 3) (q : Program)
    (w : UInt16) (x : String) (kind : RelocationKind) (name : String) :
    (around p q head w x kind).labelAt? name =
      (p.labels ++ (locatedFrom ⟨some home, k + 5⟩ q).filterMap labelOf?).lookup name := by
  unfold labelAt? labels
  rw [located_around hp h, List.filterMap_append, List.filterMap_append]
  rfl

theorem references_around (hp : p.place = ⟨some home, k⟩) (h : head.length = 3) (q : Program)
    (w : UInt16) (x : String) (kind : RelocationKind) :
    (around p q head w x kind).references = p.references ++ ⟨home, k + 3, w, x, kind⟩ ::
      (locatedFrom ⟨some home, k + 5⟩ q).filterMap Reference.of? := by
  unfold references
  rw [located_around hp h, List.filterMap_append, List.filterMap_append]
  rfl

theorem code_around (hp : p.place = ⟨some home, k⟩) (h : head.length = 3) (q : Program)
    (w : UInt16) (x : String) (kind : RelocationKind) (n : Nat) :
    (around p q head w x kind).code n = p.code n ++
      ((if n = home then [.bytes head, .hole w x kind, .bytes []] else []) ++
        ((locatedFrom ⟨some home, k + 5⟩ q).filter fun p => p.1.home == some n).map Prod.snd) := by
  unfold code
  rw [located_around hp h, List.filter_append, List.filter_append, List.map_append, List.map_append]
  by_cases hn : n = home
  · simp [hn]
  · simp [hn, Ne.symm hn]

theorem value_around (hp : p.place = ⟨some home, k⟩) (h : head.length = 3) (h' : head'.length = 3)
    (name : String) : (around p q head' w' x kind').value name = (around p q head w x kind).value name := by
  unfold value
  rw [isShared_around, isShared_around, labelAt?_around hp h, labelAt?_around hp h']

theorem target_around (hp : p.place = ⟨some home, k⟩) (h : head.length = 3) (h' : head'.length = 3)
    (name : String) : (around p q head' w' x kind').target name = (around p q head w x kind).target name := by
  unfold target
  rw [isShared_around, isShared_around, labelAt?_around hp h, labelAt?_around hp h',
    sectionNames_around, sectionNames_around]

theorem relocation_around (hp : p.place = ⟨some home, k⟩) (h : head.length = 3)
    (h' : head'.length = 3) (r : Reference) :
    (around p q head' w' x kind').relocation r = (around p q head w x kind).relocation r := by
  unfold relocation
  rw [target_around hp h h']

theorem bytes_around (hp : p.place = ⟨some home, k⟩) (h : head.length = 3) (q : Program)
    (w : UInt16) (x : String) (kind : RelocationKind) (v : String → UInt16) :
    (((around p q head w x kind).code home).flatMap (Item.resolved v)).toArray =
      ((p.code home).flatMap (Item.resolved v)).toArray ++ (head ++ Word.bytes (w + v x)).toArray ++
        ((((locatedFrom ⟨some home, k + 5⟩ q).filter fun p => p.1.home == some home).map
          Prod.snd).flatMap (Item.resolved v)).toArray := by
  have hmiddle : ([.bytes head, .hole w x kind, .bytes []] : List Item).flatMap (Item.resolved v) =
      head ++ Word.bytes (w + v x) := by
    show head ++ (Word.bytes (w + v x) ++ []) = _
    rw [List.append_nil]
  rw [code_around hp h, if_pos rfl, List.flatMap_append, List.flatMap_append, hmiddle,
    List.append_toArray, List.append_toArray, ← List.append_assoc]

theorem referencesIn_around (hp : p.place = ⟨some home, k⟩) (h : head.length = 3) (q : Program)
    (w : UInt16) (x : String) (kind : RelocationKind) :
    (around p q head w x kind).referencesIn home = p.referencesIn home ++ ⟨home, k + 3, w, x, kind⟩ ::
      ((locatedFrom ⟨some home, k + 5⟩ q).filterMap Reference.of?).filter (·.home == home) := by
  unfold referencesIn
  rw [references_around hp h, List.filter_append, List.filter_cons, beq_self_eq_true, if_pos rfl]

theorem referencesIn_around_of_ne (hp : p.place = ⟨some home, k⟩) (h : head.length = 3)
    (h' : head'.length = 3) {n : Nat} (hn : n ≠ home) :
    (around p q head' w' x kind').referencesIn n = (around p q head w x kind).referencesIn n := by
  have hno : (home == n) = false := beq_eq_false_iff_ne.mpr (Ne.symm hn)
  unfold referencesIn
  rw [references_around hp h, references_around hp h', List.filter_append, List.filter_append,
    List.filter_cons, List.filter_cons, hno]
  rfl

theorem code_around_of_ne (hp : p.place = ⟨some home, k⟩) (h : head.length = 3)
    (h' : head'.length = 3) {n : Nat} (hn : n ≠ home) :
    (around p q head' w' x kind').code n = (around p q head w x kind).code n := by
  rw [code_around hp h, code_around hp h', if_neg hn, if_neg hn]

theorem length_resolved (is : Program) (n : Nat) (v : String → UInt16) :
    ((is.code n).flatMap (Item.resolved v)).length = (is.rawCode n).length := by
  rw [← List.size_toArray, ← patched_rawCode, size_patched, List.size_toArray]

/-- **The sections of both texts** are the same but for the instruction. -/
theorem replaced_sections {a : Assembly} {c : Change} (hp : p.place = ⟨some home, k⟩)
    (ha : Buffers (around p q c.head 0 x .symbolWord) a)
    (hname : p.sectionNames[home]? = some c.home)
    (hsymbol : (around p q c.head 0 x .symbolWord).target x = c.symbol) :
    Replaced (SectionData.Changed c 0 k ((around p q c.head 0 x .symbolWord).value x))
      (around p q c.head 0 x .symbolWord).sections
      (around p q c.head' pcRelativePlaceholder x .pcRelative).sections := by
  have h := c.length
  have h' := c.length'
  let is := around p q c.head 0 x .symbolWord
  have hnames : is.sectionNames[home]? = some c.home := by
    rw [sectionNames_around]
    exact (List.getElem?_append_left (List.getElem?_eq_some_iff.mp hname).1).trans hname
  have hnames' : (around p q c.head' pcRelativePlaceholder x .pcRelative).sectionNames =
      is.sectionNames := by
    rw [sectionNames_around, sectionNames_around]
  have hvalue : (around p q c.head' pcRelativePlaceholder x .pcRelative).value = is.value :=
    funext fun y => value_around hp h h' y
  have hrelocation : (around p q c.head' pcRelativePlaceholder x .pcRelative).relocation =
      is.relocation := funext fun r => relocation_around hp h h' r
  let rest := locatedFrom ⟨some home, k + 5⟩ q
  let as := ((p.code home).flatMap (Item.resolved is.value)).toArray
  let bs := (((rest.filter fun p => p.1.home == some home).map Prod.snd).flatMap
    (Item.resolved is.value)).toArray
  let rs := (p.referencesIn home).map is.relocation
  let ss := ((rest.filterMap Reference.of?).filter (·.home == home)).map is.relocation
  have hone : is.sections[home]? = some ⟨c.home, as ++ (c.head ++ Word.bytes (is.value x)).toArray ++ bs,
      rs ++ ⟨.symbolWord, UInt16.ofNat (k + 3), c.symbol⟩ :: ss⟩ := by
    rw [getElem?_sections, hnames, bytes_around hp h, referencesIn_around hp h, UInt16.zero_add,
      List.map_append, List.map_cons, ← hsymbol]
    rfl
  have hone' : (around p q c.head' pcRelativePlaceholder x .pcRelative).sections[home]? =
      some ⟨c.home, as ++ (c.head' ++ Word.bytes (is.value x + pcRelativePlaceholder)).toArray ++ bs,
        rs ++ ⟨.pcRelative, UInt16.ofNat (k + 3), c.symbol⟩ :: ss⟩ := by
    rw [getElem?_sections, hnames', hnames, hvalue, hrelocation, bytes_around hp h',
      referencesIn_around hp h', UInt16.add_comm pcRelativePlaceholder, List.map_append,
      List.map_cons, ← hsymbol]
    rfl
  have hoffset : ∀ r ∈ is.referencesIn home, (UInt16.ofNat r.offset).toNat = r.offset :=
    fun r hr => ha.toNat_offset hr
  have hapart := pairwise_referencesIn is home
  rw [referencesIn_around hp h] at hoffset hapart
  have hbehind := (List.pairwise_cons.mp (List.pairwise_append.mp hapart).2.1).1
  refine Replaced.of_getElem? hone hone' (.intro ?_ ?_ ?_ ?_) fun n hn => ?_
  · show as.size = k
    rw [List.size_toArray, length_resolved, length_rawCode (congrArg Place.home hp), hp]
  · have ho := hoffset _ (List.mem_append_right _ List.mem_cons_self)
    rw [Nat.zero_add]
    exact ho
  · intro s hs
    obtain ⟨r, hr, rfl⟩ := List.mem_map.mp hs
    obtain ⟨hmem, hhome⟩ := List.mem_filter.mp hr
    have hin := reference_inside hmem
    rw [beq_iff_eq.mp hhome, length_rawCode (congrArg Place.home hp), hp] at hin
    show (UInt16.ofNat r.offset).toNat + 2 ≤ 0 + k
    rw [hoffset r (List.mem_append_left _ hr), Nat.zero_add]
    exact hin
  · intro s hs
    obtain ⟨r, hr, rfl⟩ := List.mem_map.mp hs
    have hle := hbehind r hr
    show 0 + k + 5 ≤ (UInt16.ofNat r.offset).toNat
    rw [hoffset r (List.mem_append_right _ (List.mem_cons_of_mem _ hr)), Nat.zero_add]
    exact hle
  · rw [getElem?_sections, getElem?_sections, hnames', hvalue, hrelocation,
      code_around_of_ne hp h h' hn, referencesIn_around_of_ne hp h h' hn]

end Program

/-! ### The place of the instruction -/

/-- A run that took all lines took those before a line, and then the line. -/
theorem Follows.exists_take {is : Program} {a a' : Assembly} {ts : List String}
    {pre post : List SourceLine} {l : SourceLine} (h : Follows is a)
    (hc : counted ts = some (pre ++ l :: post)) (hrun : (Assembly.feedAll ts).run a = .ok () a') :
    ∃ b b' flow, Follows (is ++ pre.flatMap SourceLine.items) b ∧
      (Assembly.take l).run b = .ok flow b' := by
  induction pre generalizing ts is a with
  | nil =>
    obtain ⟨t, ts, rfl, ht, -⟩ := exists_of_counted_eq_cons hc
    obtain ⟨flow, a1, hfeed, -⟩ := ok_of_run_bind hrun
    rw [Assembly.run_feed_of_read ht] at hfeed
    refine ⟨a, a1, flow, ?_, hfeed⟩
    rwa [List.flatMap_nil, List.append_nil]
  | cons k pre ih =>
    obtain ⟨t, ts, rfl, ht, hrest⟩ := exists_of_counted_eq_cons hc
    obtain ⟨flow, a1, hfeed, hrun⟩ := ok_of_run_bind hrun
    obtain ⟨k', ht', hk, hflow⟩ := h.feed hfeed
    obtain rfl : k' = k := Except.ok.inj (ht'.symm.trans ht)
    by_cases hends : k'.ends = true
    · rw [if_pos hends] at hrest
      exact absurd hrest (by simp)
    · rw [if_neg hends] at hrest
      cases flow with
      | finished => exact absurd (hflow.mp rfl) hends
      | more =>
        obtain ⟨b, b', flow, hb, htake⟩ := ih hk hrest hrun
        rw [List.flatMap_cons, ← List.append_assoc]
        exact ⟨b, b', flow, hb, htake⟩

variable {src src' : String} {pre post : List SourceLine} {label : Option String}
  {i i' : Instruction} {x : String} {m : ObjectModule}

/-- The items before an instruction: those of the lines before, and the label of its line. -/
def itemsBefore (pre : List SourceLine) (label : Option String) : Program :=
  pre.flatMap SourceLine.items ++ (label.map Item.label).toList

/-- An instruction that was taken stands in a section. -/
theorem exists_place_of_assemble
    (hls : counted (Text.lines src) = some (pre ++ ⟨label, some (.instruction i)⟩ :: post))
    (hm : assemble src = .ok m) : ∃ home k name,
      (itemsBefore pre label).place = ⟨some home, k⟩ ∧
        (itemsBefore pre label).sectionNames[home]? = some name := by
  unfold assemble at hm
  split at hm
  · cases hm
  · rename_i a hrun
    obtain ⟨b, b', flow, hb, htake⟩ := Follows.start.exists_take hls hrun
    obtain ⟨⟨⟩, b1, hmod, htake⟩ := ok_of_run_bind htake
    cases hmod
    obtain ⟨⟨⟩, b2, henter, htake⟩ := ok_of_run_bind htake
    have hline : Follows ([] ++ pre.flatMap SourceLine.items) { b with line := b.line + 1 } :=
      ⟨hb.toBuffers.congr rfl rfl rfl, hb.knows⟩
    have hb2 := hline.enter henter
    rw [List.nil_append] at hb2
    obtain ⟨home, b3, hopen, -⟩ := ok_of_run_bind htake
    rw [Assembly.run_openSection] at hopen
    cases hcur : b2.current with
    | none =>
      rw [hcur] at hopen
      cases hopen
    | some home =>
      obtain ⟨name, hname⟩ := hb2.toBuffers.exists_name hcur
      have hhome : (itemsBefore pre label).place.home = some home := hb2.current.symm.trans hcur
      exact ⟨home, (itemsBefore pre label).place.offset, name, by rw [← hhome], hname⟩

/-- The items of the lines are those of the instruction and what is around them. -/
theorem items_eq_around {kind : RelocationKind} {w : UInt16} {head : List UInt8}
    (hhead : head.length = 3) (he : i.encode = ⟨head ++ Word.bytes w, some ⟨3, x, kind⟩⟩) :
    (pre ++ ⟨label, some (.instruction i)⟩ :: post).flatMap SourceLine.items =
      Program.around (itemsBefore pre label) (post.flatMap SourceLine.items) head w x kind := by
  have hitems : i.encode.items = [.bytes head, .hole w x kind, .bytes []] := by
    obtain ⟨a, b, c, rfl⟩ := List.length_eq_three.mp hhead
    rw [he]
    exact Encoded.items_behind a b c w x kind
  have hline : SourceLine.items ⟨label, some (.instruction i)⟩ =
      (label.map Item.label).toList ++ [.bytes head, .hole w x kind, .bytes []] := by
    rw [← hitems]
    rfl
  rw [List.flatMap_append, List.flatMap_cons, hline]
  unfold Program.around itemsBefore
  simp only [List.append_assoc]

theorem Instruction.MadeRelative.alike (h : i.MadeRelative x i') : i.Alike i' where
  length := by
    rw [h.encode, h.encode', List.length_append, List.length_append, h.length_head, h.length_head']
    rfl
  symbol := by
    rw [h.encode, h.encode']
    rfl

/-! ### What a placeholder says -/

/-- The relocation of a placeholder for `x` is of a name, with a word in front: the name itself if it
is shared, or else the section of the label with its offset. -/
inductive ObjectModule.Reads (m : ObjectModule) (x : String) : String → UInt16 → Prop where
  | shared {s : Symbol} (symbol : m.symbols.get? x = some s) (flags : s.isLocal = false)
      (area : s.isSection = true →
        x = Symbol.undefinedName ∨ x ∈ m.sections.map SectionData.name) : Reads m x x 0
  | label {s o : Symbol} (symbol : m.symbols.get? x = some s) (flags : s.isLocal = true)
      (kind : s.isSection = false) (owner : m.symbols.byNumber? s.owner = some o)
      (home : m.symbols.get? o.name = some o) (shared : o.isLocal = false)
      (area : o.isSection = true) (own : o.name ∈ m.sections.map SectionData.name) :
      Reads m x o.name s.value

theorem MadeOf.reads {is : Program} {t : SymbolTable} (h : MadeOf is t m) (hx : is.IsKnown x) :
    m.Reads x (is.target x) (is.value x) := by
  unfold Program.target Program.value
  by_cases hshared : is.isShared x = true
  · rw [if_pos hshared, if_pos hshared]
    obtain ⟨s, hs, hlocal⟩ := h.get?_of_isShared hshared
    refine .shared hs hlocal fun hsec => ?_
    obtain ⟨s', rfl, hd⟩ := h.describes hs
    rw [h.names]
    exact hd.isSection.mp hsec
  · rw [if_neg hshared, if_neg hshared]
    obtain ⟨home, offset, z, hl, hz⟩ := hx.resolve_left hshared
    have hmem : z ∈ is.sectionNames := List.mem_of_getElem? hz
    have hd := h.knows.describes x
    obtain ⟨hdef, hvalue, z', hz', howner⟩ := hd.labelled hl
    obtain rfl : z' = z := Option.some.inj (hz'.symm.trans hz)
    cases hg : t.get? x with
    | none =>
      rw [SymbolTable.meaning_of_none hg] at hdef
      cases hdef
    | some s =>
      rw [SymbolTable.meaning_of_some hg] at hd hvalue howner
      have hsymbol : m.symbols.get? x = some { s with uses := [] } := by
        rw [h.symbols]
        exact h.knows.tidy.get?_settled hg
      have hlocal : s.isLocal = true := by
        rw [hd.isLocal, Bool.not_eq_true', Bool.eq_false_iff]
        exact hshared
      have hkind : s.isSection = false := by
        refine Bool.eq_false_iff.mpr fun hsec => ?_
        rcases hd.isSection.mp hsec with rfl | hin
        · rw [h.knows.coherent.reserved_label] at hl
          cases hl
        · rw [h.knows.coherent.section_label hin] at hl
          cases hl
      rw [← SymbolTable.nameOf?_settled, ← h.symbols] at howner
      obtain ⟨o, ho, rfl⟩ := Option.map_eq_some_iff.mp howner
      have hhome := h.tidy.get?_of_byId? ho
      obtain ⟨o', rfl, hdo⟩ := h.describes hhome
      have hvalue' : UInt16.ofNat offset = ({ s with uses := [] } : Symbol).value := hvalue.symm
      rw [hl, Option.bind_some, hz, Option.map_some, Option.getD_some, Option.getD_some, hvalue']
      refine .label hsymbol hlocal hkind ((h.tidy.byNumber?_eq _).trans ho) hhome ?_ ?_ ?_
      · show o'.isLocal = false
        rw [hdo.isLocal, Program.isShared_eq_true.mpr (Or.inr (Or.inr hmem))]
        rfl
      · exact hdo.isSection.mpr (Or.inr hmem)
      · rw [h.names]
        exact hmem

/-! ### Assembling both texts -/

/-- The instruction of the line after `pre` stands in the section `name`, behind `k` bytes. -/
def InstructionAt (pre : List SourceLine) (label : Option String) (name : String) (k : Nat) : Prop :=
  ∃ home, (itemsBefore pre label).place = ⟨some home, k⟩ ∧
    (itemsBefore pre label).sectionNames[home]? = some name

/-- **Assembling with an operand made relative**: the second text is assembled as well, to the same
symbols, and to the same sections but for the instruction. -/
theorem exists_assemble_relative (hi : i.MadeRelative x i')
    (hls : counted (Text.lines src) = some (pre ++ ⟨label, some (.instruction i)⟩ :: post))
    (hls' : counted (Text.lines src') = some (pre ++ ⟨label, some (.instruction i')⟩ :: post))
    (hm : assemble src = .ok m) : ∃ m' name k y w, assemble src' = .ok m' ∧ m'.symbols = m.symbols ∧
      InstructionAt pre label name k ∧ m.Reads x y w ∧
      Replaced (SectionData.Changed (hi.change y name) 0 k w) m.sections m'.sections := by
  have hsame : ∀ ls : List SourceLine, List.Forall₂ SourceLine.Alike ls ls := fun ls =>
    List.forall₂_same.mpr fun l _ => .same l
  have halike := List.rel_append (hsame pre)
    (List.Forall₂.cons (.instruction label hi.alike) (hsame post))
  obtain ⟨m', hm', hsymbols⟩ := exists_assemble_of_alike hls hls' halike hm
  obtain ⟨home, k, name, hplace, hname⟩ := exists_place_of_assemble hls hm
  obtain ⟨a, t, hbuffers, hmade⟩ := madeOf_of_assemble hls hm
  obtain ⟨a', t', -, hmade'⟩ := madeOf_of_assemble hls' hm'
  rw [items_eq_around hi.length_head hi.encode] at hbuffers hmade
  rw [items_eq_around hi.length_head' hi.encode'] at hmade'
  have hknown : Program.IsKnown _ x := hmade.known ⟨home, k + 3, 0, x, .symbolWord⟩ (by
    rw [Program.references_around hplace hi.length_head]
    exact List.mem_append_right _ List.mem_cons_self)
  refine ⟨m', name, k, _, _, hm', hsymbols, ⟨home, hplace, hname⟩, hmade.reads hknown, ?_⟩
  rw [hmade.sections, hmade'.sections]
  exact Program.replaced_sections (c := hi.change _ name) hplace hbuffers hname rfl

/-- A module with distinct sections, none of the reserved name, and placeholders inside them. -/
structure ObjectModule.Neat (m : ObjectModule) : Prop where
  nodup : (m.sections.map SectionData.name).Nodup
  inside : ∀ f ∈ m.sections, ∀ r ∈ f.relocations, r.offset.toNat + 2 ≤ f.bytes.size
  reserved : Symbol.undefinedName ∉ m.sections.map SectionData.name

theorem neat_of_assemble (hm : assemble src = .ok m) : m.Neat := by
  obtain ⟨ls, hls, -, htrans⟩ := transcribes_of_assemble hm
  obtain ⟨a, t, -, hmade⟩ := madeOf_of_assemble hls hm
  refine ⟨?_, fun f hf => ?_, ?_⟩
  · rw [hmade.names]
    exact hmade.knows.coherent.nodup_sections
  · obtain ⟨home, hhome⟩ := List.mem_iff_getElem?.mp hf
    exact (htrans home f hhome).inside
  · rw [hmade.names]
    exact hmade.knows.coherent.reserved_section

end Sx16
