/-
# The grammar of a source line, from both sides

A line is a row of pieces. Most pieces are one token and no other; a mnemonic may be spelled in any
mixture of cases and a register by either of its names. Each reader accepts just the tokens that spell
the pieces of what it reads, and it reads nothing that the grammar does not have: lists are not empty, an
instruction has arguments of its form, and a name in the place of an operand is a symbol only if it is no
register's.

Key definitions: `Piece`, `Spelled`, `SourceLine.pieces`, `SourceLine.Grammatical`.
Key theorems: `Operand.readData_eq_ok_iff`, `Operand.readTarget_eq_ok_iff`,
`Statement.read_eq_ok_iff`, `SourceLine.ofTokens_eq_ok_iff`.
-/
import Sx16.Proofs.Sequence
import Sx16.Source.Grammar

namespace Sx16

/-! ### Names with more than one spelling -/

theorem Mnemonic.ofName?_eq_some_iff {s : String} {m : Mnemonic} :
    ofName? s = some m ↔ s.map Char.toUpper = m.name := by
  have hfind : ∀ k : Mnemonic, (all.find? fun j => j.name == k.name) = some k := by
    intro k
    cases k <;> decide +kernel
  unfold ofName?
  constructor
  · intro h
    exact (beq_iff_eq.mp (List.find?_some h :)).symm
  · intro h
    rw [h]
    exact hfind m

theorem Register.ofName?_eq_some_iff {s : String} {r : Register} :
    ofName? s = some r ↔ s = r.name ∨ (s, r) ∈ aliases := by
  constructor
  · intro h
    unfold ofName? at h
    rcases Option.or_eq_some_iff.mp h with h | ⟨-, h⟩
    · exact .inl (beq_iff_eq.mp (List.find?_some h :)).symm
    · obtain ⟨before, after, haliases, -⟩ := List.lookup_eq_some_iff.mp h
      rw [haliases]
      exact .inr (List.mem_append_right before List.mem_cons_self)
  · rintro (rfl | h)
    · exact ofName?_name r
    · simp only [aliases, List.mem_cons, Prod.mk.injEq, List.not_mem_nil, or_false] at h
      rcases h with ⟨rfl, rfl⟩ | ⟨rfl, rfl⟩ <;> decide +kernel

/-! ### Pieces -/

/-- What stands in one place of a line. -/
inductive Piece where
  /-- A token that has no other spelling. -/
  | exactly (t : Token)
  | mnemonic (m : Mnemonic)
  | register (r : Register)

namespace Piece

/-- The usual spelling: mnemonics are in lower case, registers have their first names. -/
def token : Piece → Token
  | exactly t => t
  | mnemonic m => .ident (m.name.map Char.toLower)
  | register r => .ident r.name

/-- The tokens that spell a piece. -/
inductive SpelledBy : Piece → Token → Prop
  | exactly (t : Token) : SpelledBy (.exactly t) t
  | mnemonic {m : Mnemonic} {name : String} (h : name.map Char.toUpper = m.name) :
    SpelledBy (.mnemonic m) (.ident name)
  | register (r : Register) : SpelledBy (.register r) (.ident r.name)
  | second {r : Register} {name : String} (h : (name, r) ∈ Register.aliases) :
    SpelledBy (.register r) (.ident name)

variable {t u : Token} {m : Mnemonic} {reg : Register}

theorem spelledBy_token (p : Piece) : p.SpelledBy p.token := by
  cases p with
  | exactly t => exact .exactly t
  | mnemonic m =>
    refine .mnemonic ?_
    cases m <;> decide +kernel
  | register r => exact .register r

@[simp] theorem spelledBy_exactly : (Piece.exactly t).SpelledBy u ↔ u = t := by
  constructor
  · intro h
    cases h
    rfl
  · rintro rfl
    exact .exactly u

theorem spelledBy_mnemonic : (Piece.mnemonic m).SpelledBy t ↔
    ∃ name, t = .ident name ∧ Mnemonic.ofName? name = some m := by
  simp only [Mnemonic.ofName?_eq_some_iff]
  constructor
  · intro h
    cases h with
    | mnemonic h => exact ⟨_, rfl, h⟩
  · rintro ⟨name, rfl, h⟩
    exact .mnemonic h

theorem spelledBy_register : (Piece.register reg).SpelledBy t ↔
    ∃ name, t = .ident name ∧ Register.ofName? name = some reg := by
  simp only [Register.ofName?_eq_some_iff]
  constructor
  · intro h
    cases h with
    | register => exact ⟨_, rfl, .inl rfl⟩
    | second h => exact ⟨_, rfl, .inr h⟩
  · rintro ⟨name, rfl, rfl | h⟩
    · exact .register reg
    · exact .second h

end Piece

/-- The pieces are spelled by the tokens up to those that are left. -/
def Spelled : List Piece → List Token → List Token → Prop
  | [], ts, r => ts = r
  | p :: ps, ts, r => ∃ t ts', ts = t :: ts' ∧ p.SpelledBy t ∧ Spelled ps ts' r

section Spelled

variable {p : Piece} {ps qs : List Piece} {t : Token} {ts us r : List Token}

@[simp] theorem spelled_nil : Spelled [] ts r ↔ ts = r := Iff.rfl

@[simp] theorem spelled_exactly : Spelled (.exactly t :: ps) ts r ↔ ∃ ts', ts = t :: ts' ∧
    Spelled ps ts' r := by
  constructor
  · rintro ⟨u, ts', rfl, hu, h⟩
    obtain rfl := Piece.spelledBy_exactly.mp hu
    exact ⟨ts', rfl, h⟩
  · rintro ⟨ts', rfl, h⟩
    exact ⟨t, ts', rfl, .exactly t, h⟩

@[simp] theorem spelled_map_exactly : Spelled (us.map .exactly) ts [] ↔ ts = us := by
  induction us generalizing ts with
  | nil => exact Iff.rfl
  | cons u us ih => simp [ih]

theorem spelled_iff_forall₂ : Spelled ps ts [] ↔ List.Forall₂ Piece.SpelledBy ps ts := by
  induction ps generalizing ts with
  | nil => exact List.forall₂_nil_left_iff.symm
  | cons p ps ih =>
    rw [List.forall₂_cons_left_iff]
    constructor
    · rintro ⟨t, ts', rfl, ht, h⟩
      exact ⟨t, ts', ht, ih.mp h, rfl⟩
    · rintro ⟨t, ts', ht, h, rfl⟩
      exact ⟨t, ts', rfl, ht, ih.mpr h⟩

theorem spelled_append : Spelled (ps ++ qs) ts [] ↔
    ∃ us vs, ts = us ++ vs ∧ Spelled ps us [] ∧ Spelled qs vs [] := by
  induction ps generalizing ts with
  | nil =>
    constructor
    · intro h
      exact ⟨[], ts, rfl, rfl, h⟩
    · rintro ⟨us, vs, rfl, rfl, h⟩
      exact h
  | cons p ps ih =>
    constructor
    · rintro ⟨t, ts', rfl, ht, h⟩
      obtain ⟨us, vs, rfl, hus, hvs⟩ := ih.mp h
      exact ⟨t :: us, vs, rfl, ⟨t, us, rfl, ht, hus⟩, hvs⟩
    · rintro ⟨us, vs, rfl, ⟨t, us', rfl, ht, hus⟩, hvs⟩
      exact ⟨t, us' ++ vs, rfl, ht, ih.mpr ⟨us', vs, rfl, hus, hvs⟩⟩

/-- A token that has no other spelling is itself among the tokens. -/
theorem Spelled.mem_of_exactly (h : Spelled ps ts []) (ht : .exactly t ∈ ps) : t ∈ ts := by
  induction ps generalizing ts with
  | nil => cases ht
  | cons p ps ih =>
    obtain ⟨u, ts', rfl, hu, h⟩ := h
    rcases List.mem_cons.mp ht with rfl | ht
    · obtain rfl := Piece.spelledBy_exactly.mp hu
      exact List.mem_cons_self
    · exact List.mem_cons_of_mem _ (ih h ht)

end Spelled

variable {ts r : List Token}

/-! ### Values and names -/

theorem word_eq_ok_iff {n : UInt32} {w : UInt16} : word n = .ok w ↔ n = w.toUInt32 := by
  unfold word
  constructor
  · intro h
    split at h
    · rename_i hn
      cases h
      apply UInt32.toNat_inj.mp
      rw [UInt16.toNat_toUInt32, UInt16.toNat_ofNat_of_lt' hn]
    · cases h
  · rintro rfl
    rw [UInt16.toNat_toUInt32, if_pos w.toNat_lt, UInt16.ofNat_toNat]

namespace Value

/-- The token of a value. -/
def token : Value → Token
  | literal w => .number w.toUInt32
  | symbol name => .ident name

theorem read_eq_ok_iff {v : Value} : read ts = .ok (v, r) ↔ ts = v.token :: r := by
  constructor
  · intro h
    unfold read at h
    split at h
    · obtain ⟨w, hw, h⟩ := ok_of_bind h
      cases h
      rw [word_eq_ok_iff.mp hw]
      rfl
    · cases h
      rfl
    · cases h
  · rintro rfl
    cases v with
    | literal w =>
      simp only [token, read, word_eq_ok_iff.mpr rfl]
      rfl
    | symbol name => rfl

/-- One value or more, between commas. -/
theorem readList_eq_ok_iff {vs : List Value} :
    readList ts = .ok (vs, []) ↔ vs ≠ [] ∧ ts = (vs.map token).intersperse .comma := by
  constructor
  · intro h
    fun_induction readList ts generalizing vs with
    | case1 => cases h
    | case2 t r ih =>
      obtain ⟨⟨v, r'⟩, hv, h⟩ := ok_of_bind h
      obtain ⟨rfl, rfl⟩ := List.cons.inj (read_eq_ok_iff.mp hv)
      simp only at h
      split at h
      · obtain ⟨⟨vs', r''⟩, hvs, h⟩ := ok_of_bind h
        cases h
        obtain ⟨hne, rfl⟩ := ih hvs
        obtain ⟨v', vs', rfl⟩ := List.exists_cons_of_ne_nil hne
        exact ⟨List.cons_ne_nil _ _, rfl⟩
      · cases h
        exact ⟨List.cons_ne_nil _ _, rfl⟩
  · rintro ⟨hne, rfl⟩
    induction vs with
    | nil => exact absurd rfl hne
    | cons v vs ih =>
      have hv : read [v.token] = .ok (v, []) := read_eq_ok_iff.mpr rfl
      cases vs with
      | nil =>
        show readList [v.token] = _
        rw [readList, hv]
        rfl
      | cons v' vs =>
        have hrest := ih (List.cons_ne_nil _ _)
        show readList (v.token :: .comma :: ((v' :: vs).map token).intersperse .comma) = _
        rw [readList, hv]
        simp only [bind, Except.bind, hrest]
        rfl

end Value

/-- One name or more, between commas. -/
theorem readNames_eq_ok_iff {names : List String} : readNames ts = .ok (names, []) ↔
    names ≠ [] ∧ ts = (names.map Token.ident).intersperse .comma := by
  constructor
  · intro h
    fun_induction readNames ts generalizing names with
    | case1 name r ih =>
      obtain ⟨⟨names', r'⟩, hnames, h⟩ := ok_of_bind h
      cases h
      obtain ⟨hne, rfl⟩ := ih hnames
      obtain ⟨name', names', rfl⟩ := List.exists_cons_of_ne_nil hne
      exact ⟨List.cons_ne_nil _ _, rfl⟩
    | case2 name r _ =>
      cases h
      exact ⟨List.cons_ne_nil _ _, rfl⟩
    | case3 => cases h
  · rintro ⟨hne, rfl⟩
    induction names with
    | nil => exact absurd rfl hne
    | cons name names ih =>
      cases names with
      | nil => rfl
      | cons name' names =>
        have hrest := ih (List.cons_ne_nil _ _)
        show readNames (.ident name :: .comma ::
          ((name' :: names).map Token.ident).intersperse .comma) = _
        rw [readNames, hrest]
        rfl

/-! ### Directives -/

namespace Directive

/-- The tokens of a directive after its period. -/
def tokens : Directive → List Token
  | exports names => .ident "global" :: (names.map Token.ident).intersperse .comma
  | imports names => .ident "extern" :: (names.map Token.ident).intersperse .comma
  | newSection name => [.ident "section", .ident name]
  | words values => .ident "word" :: (values.map Value.token).intersperse .comma
  | ascii bytes => [.ident "ascii", .text bytes]
  | skip count => [.ident "skip", .number count.toUInt32]
  | finish => [.ident "end"]

/-- Nothing is missing: lists have entries, and a text has bytes. -/
def Complete : Directive → Prop
  | exports names | imports names => names ≠ []
  | words values => values ≠ []
  | ascii bytes => bytes ≠ []
  | _ => True

theorem read_eq_ok_iff {d : Directive} : read ts = .ok (d, []) ↔ d.Complete ∧ ts = d.tokens := by
  constructor
  · intro h
    unfold read at h
    split at h
    · obtain ⟨⟨names, r⟩, hnames, h⟩ := ok_of_bind h
      cases h
      obtain ⟨hne, rfl⟩ := readNames_eq_ok_iff.mp hnames
      exact ⟨hne, rfl⟩
    · obtain ⟨⟨names, r⟩, hnames, h⟩ := ok_of_bind h
      cases h
      obtain ⟨hne, rfl⟩ := readNames_eq_ok_iff.mp hnames
      exact ⟨hne, rfl⟩
    · cases h
      exact ⟨trivial, rfl⟩
    · obtain ⟨⟨values, r⟩, hvalues, h⟩ := ok_of_bind h
      cases h
      obtain ⟨hne, rfl⟩ := Value.readList_eq_ok_iff.mp hvalues
      exact ⟨hne, rfl⟩
    · cases h
      exact ⟨List.cons_ne_nil _ _, rfl⟩
    · obtain ⟨w, hw, h⟩ := ok_of_bind h
      cases h
      rw [word_eq_ok_iff.mp hw]
      exact ⟨trivial, rfl⟩
    · cases h
      exact ⟨trivial, rfl⟩
    · cases h
  · rintro ⟨hcomplete, rfl⟩
    cases d with
    | exports names =>
      simp only [tokens, read, readNames_eq_ok_iff.mpr ⟨hcomplete, rfl⟩]
      rfl
    | imports names =>
      simp only [tokens, read, readNames_eq_ok_iff.mpr ⟨hcomplete, rfl⟩]
      rfl
    | newSection name => rfl
    | words values =>
      simp only [tokens, read, Value.readList_eq_ok_iff.mpr ⟨hcomplete, rfl⟩]
      rfl
    | ascii bytes =>
      obtain ⟨b, bs, rfl⟩ := List.exists_cons_of_ne_nil hcomplete
      rfl
    | skip count =>
      simp only [tokens, read, word_eq_ok_iff.mpr rfl]
      rfl
    | finish => rfl

end Directive

/-! ### Operands -/

/-- A register is read from its name. -/
theorem Register.read_eq_ok_iff {reg : Register} :
    read ts = .ok (reg, r) ↔ Spelled [.register reg] ts r := by
  constructor
  · intro h
    unfold read at h
    split at h
    · rename_i name r'
      cases hname : ofName? name with
      | none =>
        rw [hname] at h
        cases h
      | some reg' =>
        rw [hname] at h
        cases h
        exact ⟨_, _, rfl, Piece.spelledBy_register.mpr ⟨name, rfl, hname⟩, rfl⟩
    · cases h
  · rintro ⟨t, r', rfl, ht, rfl⟩
    obtain ⟨name, rfl, hname⟩ := Piece.spelledBy_register.mp ht
    simp only [read, hname]

theorem skipComma_eq_ok_iff : skipComma ts = .ok r ↔ ts = .comma :: r := by
  constructor
  · intro h
    unfold skipComma at h
    split at h
    · cases h
      rfl
    · cases h
  · rintro rfl
    rfl

theorem spelled_register {reg : Register} {ps : List Piece} : Spelled (.register reg :: ps) ts r ↔
    ∃ ts', Register.read ts = .ok (reg, ts') ∧ Spelled ps ts' r := by
  simp only [Register.read_eq_ok_iff]
  constructor
  · rintro ⟨t, ts', rfl, ht, h⟩
    exact ⟨ts', ⟨t, ts', rfl, ht, rfl⟩, h⟩
  · rintro ⟨ts', ⟨t, r', rfl, ht, rfl⟩, h⟩
    exact ⟨t, r', rfl, ht, h⟩

namespace Operand

/-- The pieces of an operand of a load or store. -/
def dataPieces : Operand → List Piece
  | immediate v => [.exactly .dollar, .exactly v.token]
  | memory v => [.exactly v.token]
  | pcRelative symbol => [.exactly .percent, .exactly (.ident symbol)]
  | register reg => [.register reg]
  | indirect reg => [.exactly .lbracket, .register reg, .exactly .rbracket]
  | indexed reg v =>
    [.exactly .lbracket, .register reg, .exactly .plus, .exactly v.token, .exactly .rbracket]

/-- The pieces of a jump target: a value stands for itself, and what a load would find is behind a
star. -/
def targetPieces : Operand → List Piece
  | immediate v => [.exactly v.token]
  | pcRelative symbol => [.exactly .percent, .exactly (.ident symbol)]
  | o => .exactly .star :: o.dataPieces

/-- An operand in brackets. -/
def IsBracketed : Operand → Prop
  | indirect _ | indexed _ _ => True
  | _ => False

/-- A plain symbol is no register's name, which would be taken for the register. -/
def Unambiguous : Operand → Prop
  | memory (.symbol name) => Register.ofName? name = none
  | _ => True

variable {o : Operand}

theorem readBracket_eq_ok_iff : readBracket ts = .ok (o, r) ↔
    o.IsBracketed ∧ Spelled o.dataPieces (.lbracket :: ts) r := by
  constructor
  · intro h
    obtain ⟨⟨reg, afterReg⟩, hreg, h⟩ := ok_of_bind h
    simp only at h
    split at h
    · cases h
      exact ⟨trivial, spelled_exactly.mpr ⟨ts, rfl, spelled_register.mpr ⟨_, hreg, by simp⟩⟩⟩
    · obtain ⟨⟨v, afterValue⟩, hv, h⟩ := ok_of_bind h
      simp only at h
      split at h
      · cases h
        rw [Value.read_eq_ok_iff.mp hv] at hreg
        exact ⟨trivial, spelled_exactly.mpr ⟨ts, rfl, spelled_register.mpr ⟨_, hreg, by simp⟩⟩⟩
      · cases h
    · cases h
  · rintro ⟨hbracketed, h⟩
    cases o with
    | indirect reg =>
      obtain ⟨ts', hts, h⟩ := spelled_exactly.mp h
      obtain ⟨-, rfl⟩ := List.cons.inj hts
      obtain ⟨ts', hreg, h⟩ := spelled_register.mp h
      obtain ⟨r', rfl, rfl⟩ := spelled_exactly.mp h
      unfold readBracket
      rw [hreg]
      rfl
    | indexed reg v =>
      obtain ⟨ts', hts, h⟩ := spelled_exactly.mp h
      obtain ⟨-, rfl⟩ := List.cons.inj hts
      obtain ⟨ts', hreg, h⟩ := spelled_register.mp h
      have hrest : ts' = .plus :: v.token :: .rbracket :: r := by simpa using h
      have hvalue : Value.read (v.token :: .rbracket :: r) = .ok (v, .rbracket :: r) :=
        Value.read_eq_ok_iff.mpr rfl
      unfold readBracket
      rw [hreg, hrest]
      show (Value.read (v.token :: .rbracket :: r) >>= _) = _
      rw [hvalue]
      rfl
    | immediate v => cases hbracketed
    | memory v => cases hbracketed
    | pcRelative name => cases hbracketed
    | register reg => cases hbracketed

theorem unambiguous_of_isBracketed (h : o.IsBracketed) : o.Unambiguous := by
  cases o with
  | indirect reg => trivial
  | indexed reg v => trivial
  | _ => cases h

/-- A name in the place of an operand is a register's or else a symbol. -/
theorem spelled_ofName (name : String) (r : List Token) : (ofName name).Unambiguous ∧
    Spelled (ofName name).dataPieces (.ident name :: r) r := by
  unfold ofName
  cases hname : Register.ofName? name with
  | some reg => exact ⟨trivial, _, _, rfl, Piece.spelledBy_register.mpr ⟨name, rfl, hname⟩, rfl⟩
  | none => exact ⟨hname, spelled_exactly.mpr ⟨r, rfl, rfl⟩⟩

theorem spelled_of_readData (h : readData ts = .ok (o, r)) :
    o.Unambiguous ∧ Spelled o.dataPieces ts r := by
  unfold readData at h
  split at h
  · obtain ⟨⟨v, r'⟩, hv, h⟩ := ok_of_bind h
    cases h
    obtain rfl := Value.read_eq_ok_iff.mp hv
    exact ⟨trivial, by simp [dataPieces]⟩
  · cases h
    exact ⟨trivial, by simp [dataPieces]⟩
  · obtain ⟨hbracketed, h⟩ := readBracket_eq_ok_iff.mp h
    exact ⟨unambiguous_of_isBracketed hbracketed, h⟩
  · obtain ⟨w, hw, h⟩ := ok_of_bind h
    cases h
    rw [word_eq_ok_iff.mp hw]
    exact ⟨trivial, by simp [dataPieces, Value.token]⟩
  · cases h
    exact spelled_ofName _ _
  · cases h

theorem readData_of_spelled (hplain : o.Unambiguous) (h : Spelled o.dataPieces ts r) :
    readData ts = .ok (o, r) := by
  cases o with
  | immediate v =>
    have hts : ts = .dollar :: v.token :: r := by simpa [dataPieces] using h
    simp only [hts, readData, Value.read_eq_ok_iff.mpr rfl]
    rfl
  | memory v =>
    have hts : ts = v.token :: r := by simpa [dataPieces] using h
    rw [hts]
    cases v with
    | literal w =>
      simp only [Value.token, readData, word_eq_ok_iff.mpr rfl]
      rfl
    | symbol name =>
      have hname : Register.ofName? name = none := hplain
      simp only [Value.token, readData, ofName, hname]
  | pcRelative name =>
    have hts : ts = .percent :: .ident name :: r := by simpa [dataPieces] using h
    rw [hts]
    rfl
  | register reg =>
    obtain ⟨t, r', rfl, ht, rfl⟩ := h
    obtain ⟨name, rfl, hname⟩ := Piece.spelledBy_register.mp ht
    simp only [readData, ofName, hname]
  | indirect reg =>
    obtain ⟨ts', rfl, -⟩ := spelled_exactly.mp h
    exact readBracket_eq_ok_iff.mpr ⟨trivial, h⟩
  | indexed reg v =>
    obtain ⟨ts', rfl, -⟩ := spelled_exactly.mp h
    exact readBracket_eq_ok_iff.mpr ⟨trivial, h⟩

/-- **The operand of a load or store.** -/
theorem readData_eq_ok_iff : readData ts = .ok (o, r) ↔
    o.Unambiguous ∧ Spelled o.dataPieces ts r :=
  ⟨spelled_of_readData, fun h => readData_of_spelled h.1 h.2⟩

/-- An operand that a jump target has behind a star. -/
def IsStarred : Operand → Prop
  | immediate _ | pcRelative _ => False
  | _ => True

theorem targetPieces_of_isStarred (h : o.IsStarred) :
    o.targetPieces = .exactly .star :: o.dataPieces := by
  cases o with
  | immediate v => cases h
  | pcRelative name => cases h
  | _ => rfl

/-- Behind a star stands what a load would read. -/
theorem readTarget_star (ho : o.IsStarred) (h : Spelled o.dataPieces ts r) :
    readTarget (.star :: ts) = readData ts := by
  cases o with
  | immediate v => cases ho
  | pcRelative name => cases ho
  | memory v =>
    obtain ⟨ts', rfl, -⟩ := spelled_exactly.mp h
    cases v <;> rfl
  | register reg =>
    obtain ⟨t, ts', rfl, ht, -⟩ := h
    obtain ⟨name, rfl, -⟩ := Piece.spelledBy_register.mp ht
    rfl
  | indirect reg =>
    obtain ⟨ts', rfl, -⟩ := spelled_exactly.mp h
    rfl
  | indexed reg v =>
    obtain ⟨ts', rfl, -⟩ := spelled_exactly.mp h
    rfl

theorem isStarred_of_isBracketed (h : o.IsBracketed) : o.IsStarred := by
  cases o with
  | indirect reg => trivial
  | indexed reg v => trivial
  | _ => cases h

theorem isStarred_ofName (name : String) : (ofName name).IsStarred := by
  unfold ofName
  cases Register.ofName? name <;> trivial

theorem spelled_of_readTarget (h : readTarget ts = .ok (o, r)) :
    o.Unambiguous ∧ Spelled o.targetPieces ts r := by
  have hstarred : ∀ ts', o.IsStarred → readData ts' = .ok (o, r) →
      o.Unambiguous ∧ Spelled o.targetPieces (.star :: ts') r := by
    intro ts' ho hdata
    obtain ⟨hplain, hpieces⟩ := spelled_of_readData hdata
    rw [targetPieces_of_isStarred ho, spelled_exactly]
    exact ⟨hplain, ts', rfl, hpieces⟩
  unfold readTarget at h
  split at h
  · exact hstarred _ (isStarred_of_isBracketed (readBracket_eq_ok_iff.mp h).1) h
  · refine hstarred _ ?_ h
    obtain ⟨w, -, h⟩ := ok_of_bind h
    cases h
    trivial
  · refine hstarred _ ?_ h
    cases h
    exact isStarred_ofName _
  · cases h
    exact ⟨trivial, by simp [targetPieces]⟩
  · obtain ⟨w, hw, h⟩ := ok_of_bind h
    cases h
    rw [word_eq_ok_iff.mp hw]
    exact ⟨trivial, by simp [targetPieces, Value.token]⟩
  · cases h
    exact ⟨trivial, by simp [targetPieces, Value.token]⟩
  · cases h

theorem readTarget_of_spelled (hplain : o.Unambiguous) (h : Spelled o.targetPieces ts r) :
    readTarget ts = .ok (o, r) := by
  by_cases ho : o.IsStarred
  · rw [targetPieces_of_isStarred ho] at h
    obtain ⟨ts', rfl, hdata⟩ := spelled_exactly.mp h
    rw [readTarget_star ho hdata]
    exact readData_of_spelled hplain hdata
  · cases o with
    | immediate v =>
      have hts : ts = v.token :: r := by simpa [targetPieces] using h
      rw [hts]
      cases v with
      | literal w =>
        simp only [Value.token, readTarget, word_eq_ok_iff.mpr rfl]
        rfl
      | symbol name => rfl
    | pcRelative name =>
      have hts : ts = .percent :: .ident name :: r := by simpa [targetPieces] using h
      rw [hts]
      rfl
    | _ => exact absurd trivial ho

/-- **The target of a jump.** -/
theorem readTarget_eq_ok_iff : readTarget ts = .ok (o, r) ↔
    o.Unambiguous ∧ Spelled o.targetPieces ts r :=
  ⟨spelled_of_readTarget, fun h => readTarget_of_spelled h.1 h.2⟩

end Operand

/-! ### Instructions -/

namespace Arguments

/-- Arguments of a form. -/
def Fit : Arguments → Form → Prop
  | none, .bare | one _, .oneReg | one _, .stack | two _ _, .twoReg | jump _, .jump
  | data _ _, .data => True
  | _, _ => False

/-- The pieces of arguments. -/
def pieces : Arguments → List Piece
  | none => []
  | one reg => [.register reg]
  | two dst src => [.register dst, .exactly .comma, .register src]
  | jump target => target.targetPieces
  | data reg operand => .register reg :: .exactly .comma :: operand.dataPieces

/-- Arguments whose operand, if any, is not taken for another one. -/
def Unambiguous : Arguments → Prop
  | jump o | data _ o => o.Unambiguous
  | _ => True

variable {form : Form} {args : Arguments}

theorem spelled_of_read (h : read form ts = .ok (args, r)) :
    args.Fit form ∧ args.Unambiguous ∧ Spelled args.pieces ts r := by
  unfold read at h
  split at h
  · cases h
    exact ⟨trivial, trivial, rfl⟩
  · obtain ⟨⟨reg, r'⟩, hreg, h⟩ := ok_of_bind h
    cases h
    exact ⟨trivial, trivial, Register.read_eq_ok_iff.mp hreg⟩
  · obtain ⟨⟨reg, r'⟩, hreg, h⟩ := ok_of_bind h
    cases h
    exact ⟨trivial, trivial, Register.read_eq_ok_iff.mp hreg⟩
  · obtain ⟨⟨dst, r1⟩, hdst, h⟩ := ok_of_bind h
    obtain ⟨r2, hcomma, h⟩ := ok_of_bind h
    obtain ⟨⟨src, r3⟩, hsrc, h⟩ := ok_of_bind h
    cases h
    have hrest : Spelled [.exactly .comma, .register src] r1 r :=
      spelled_exactly.mpr ⟨r2, skipComma_eq_ok_iff.mp hcomma, Register.read_eq_ok_iff.mp hsrc⟩
    exact ⟨trivial, trivial, spelled_register.mpr ⟨r1, hdst, hrest⟩⟩
  · obtain ⟨⟨target, r'⟩, htarget, h⟩ := ok_of_bind h
    cases h
    obtain ⟨hplain, hpieces⟩ := Operand.readTarget_eq_ok_iff.mp htarget
    exact ⟨trivial, hplain, hpieces⟩
  · obtain ⟨⟨reg, r1⟩, hreg, h⟩ := ok_of_bind h
    obtain ⟨r2, hcomma, h⟩ := ok_of_bind h
    obtain ⟨⟨operand, r3⟩, hoperand, h⟩ := ok_of_bind h
    cases h
    obtain ⟨hplain, hpieces⟩ := Operand.readData_eq_ok_iff.mp hoperand
    have hrest : Spelled (.exactly .comma :: operand.dataPieces) r1 r :=
      spelled_exactly.mpr ⟨r2, skipComma_eq_ok_iff.mp hcomma, hpieces⟩
    exact ⟨trivial, hplain, spelled_register.mpr ⟨r1, hreg, hrest⟩⟩

theorem read_of_spelled (hfit : args.Fit form) (hplain : args.Unambiguous)
    (h : Spelled args.pieces ts r) : read form ts = .ok (args, r) := by
  unfold Fit at hfit
  split at hfit
  · cases h
    rfl
  · rw [read, Register.read_eq_ok_iff.mpr h]
    rfl
  · rw [read, Register.read_eq_ok_iff.mpr h]
    rfl
  · obtain ⟨r1, hdst, hrest⟩ := spelled_register.mp h
    obtain ⟨r2, rfl, hlast⟩ := spelled_exactly.mp hrest
    have hsrc := Register.read_eq_ok_iff.mpr hlast
    simp only [read, hdst, skipComma, hsrc, bind, Except.bind]
    rfl
  · have htarget := Operand.readTarget_eq_ok_iff.mpr ⟨hplain, h⟩
    rw [read, htarget]
    rfl
  · obtain ⟨r1, hreg, hrest⟩ := spelled_register.mp h
    obtain ⟨r2, rfl, hlast⟩ := spelled_exactly.mp hrest
    have hoperand := Operand.readData_eq_ok_iff.mpr ⟨hplain, hlast⟩
    simp only [read, hreg, skipComma, hoperand, bind, Except.bind]
    rfl
  · cases hfit

/-- **The arguments of a form.** -/
theorem read_eq_ok_iff : read form ts = .ok (args, r) ↔
    args.Fit form ∧ args.Unambiguous ∧ Spelled args.pieces ts r :=
  ⟨spelled_of_read, fun ⟨hfit, hplain, h⟩ => read_of_spelled hfit hplain h⟩

theorem read_colon : read form (.colon :: r) ≠ .ok (args, []) := by
  cases form <;> nofun

end Arguments

/-! ### Statements and lines -/

namespace Statement

/-- The pieces of a statement. -/
def pieces : Statement → List Piece
  | directive d => .exactly .period :: d.tokens.map .exactly
  | instruction i => .mnemonic i.mnemonic :: i.arguments.pieces

/-- The statement is one of the grammar. -/
def Grammatical : Statement → Prop
  | directive d => d.Complete
  | instruction i => i.arguments.Fit i.mnemonic.form ∧ i.arguments.Unambiguous

theorem read_eq_ok_iff {s : Statement} : read ts = .ok (s, []) ↔
    s.Grammatical ∧ Spelled s.pieces ts [] := by
  constructor
  · intro h
    unfold read at h
    split at h
    · obtain ⟨⟨d, r⟩, hd, h⟩ := ok_of_bind h
      cases h
      obtain ⟨hcomplete, rfl⟩ := Directive.read_eq_ok_iff.mp hd
      exact ⟨hcomplete, by simp [pieces]⟩
    · rename_i op r
      cases hop : Mnemonic.ofName? op with
      | none =>
        rw [hop] at h
        cases h
      | some m =>
        rw [hop] at h
        obtain ⟨⟨args, r'⟩, hargs, h⟩ := ok_of_bind h
        cases h
        obtain ⟨hfit, hplain, hpieces⟩ := Arguments.read_eq_ok_iff.mp hargs
        exact ⟨⟨hfit, hplain⟩, _, _, rfl, Piece.spelledBy_mnemonic.mpr ⟨op, rfl, hop⟩, hpieces⟩
    · cases h
  · rintro ⟨hs, h⟩
    cases s with
    | directive d =>
      obtain ⟨ts', rfl, htokens⟩ := spelled_exactly.mp h
      have hd := Directive.read_eq_ok_iff.mpr ⟨hs, spelled_map_exactly.mp htokens⟩
      simp only [read, hd]
      rfl
    | instruction i =>
      obtain ⟨t, ts', rfl, ht, h⟩ := h
      obtain ⟨op, rfl, hop⟩ := Piece.spelledBy_mnemonic.mp ht
      have hargs := Arguments.read_eq_ok_iff.mpr ⟨hs.1, hs.2, h⟩
      simp only [read, hop, hargs]
      rfl

/-- A statement does not start with a name before a colon, so there the name is a label. -/
theorem not_spelled_colon {s : Statement} {name : String} (hs : s.Grammatical) :
    ¬ Spelled s.pieces (.ident name :: .colon :: r) [] := by
  intro h
  cases s with
  | directive d =>
    obtain ⟨ts', hts, -⟩ := spelled_exactly.mp h
    cases hts
  | instruction i =>
    obtain ⟨t, ts', hts, -, hpieces⟩ := h
    obtain ⟨-, rfl⟩ := List.cons.inj hts
    exact Arguments.read_colon (Arguments.read_eq_ok_iff.mpr ⟨hs.1, hs.2, hpieces⟩)

end Statement

namespace SourceLine

/-- The pieces of a line. -/
def pieces (l : SourceLine) : List Piece :=
  (l.label.elim [] fun name => [.exactly (.ident name), .exactly .colon]) ++
    l.statement.elim [] Statement.pieces

/-- The line's statement, if any, is one of the grammar. -/
def Grammatical (l : SourceLine) : Prop := ∀ s ∈ l.statement, s.Grammatical

variable {l : SourceLine} {label : Option String} {statement : Option Statement}

theorem afterLabel_eq_ok_iff : afterLabel label ts = .ok l ↔
    l.label = label ∧ l.Grammatical ∧ Spelled (l.statement.elim [] Statement.pieces) ts [] := by
  obtain ⟨label', statement⟩ := l
  constructor
  · intro h
    unfold afterLabel at h
    split at h
    · cases h
      exact ⟨rfl, fun s hs => (nomatch hs), rfl⟩
    · obtain ⟨⟨s, r⟩, hs, h⟩ := ok_of_bind h
      cases r with
      | cons t r => cases h
      | nil =>
        cases h
        obtain ⟨hgrammatical, hpieces⟩ := Statement.read_eq_ok_iff.mp hs
        refine ⟨rfl, fun s' hs' => ?_, hpieces⟩
        cases hs'
        exact hgrammatical
  · rintro ⟨rfl, hgrammatical, h⟩
    cases statement with
    | none =>
      cases h
      rfl
    | some s =>
      have hs := Statement.read_eq_ok_iff.mpr ⟨hgrammatical s rfl, h⟩
      cases ts with
      | nil => cases hs
      | cons t ts =>
        show (Statement.read (t :: ts) >>= _) = _
        rw [hs]
        rfl

/-- **The lines of the grammar.** -/
theorem ofTokens_eq_ok_iff : ofTokens ts = .ok l ↔ l.Grammatical ∧ Spelled l.pieces ts [] := by
  constructor
  · intro h
    unfold ofTokens at h
    split at h
    · obtain ⟨hlabel, hgrammatical, h⟩ := afterLabel_eq_ok_iff.mp h
      rw [pieces, hlabel]
      exact ⟨hgrammatical, by simpa using h⟩
    · obtain ⟨hlabel, hgrammatical, h⟩ := afterLabel_eq_ok_iff.mp h
      rw [pieces, hlabel]
      exact ⟨hgrammatical, h⟩
  · rintro ⟨hgrammatical, h⟩
    obtain ⟨label, statement⟩ := l
    cases label with
    | some name =>
      have hpieces : ∃ r, ts = .ident name :: .colon :: r ∧
          Spelled (statement.elim [] Statement.pieces) r [] := by
        simpa [pieces] using h
      obtain ⟨r, rfl, hr⟩ := hpieces
      exact afterLabel_eq_ok_iff.mpr ⟨rfl, hgrammatical, hr⟩
    | none =>
      have hline : afterLabel none ts = .ok ⟨none, statement⟩ :=
        afterLabel_eq_ok_iff.mpr ⟨rfl, hgrammatical, h⟩
      unfold ofTokens
      split
      · -- The line would start with a mnemonic before a colon.
        rename_i name r
        cases statement with
        | none => cases h
        | some s => exact absurd h (Statement.not_spelled_colon (hgrammatical s rfl))
      · exact hline

end SourceLine
end Sx16
