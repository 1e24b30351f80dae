/-
# Source lines are read back

A line is written as the usual tokens of its pieces, with a blank between two of them unless the one is a
sign in front of what follows or the other a sign behind what precedes. The text is cut into the same
tokens: a word ends at the blank or sign behind it, and what would end a text or start an escape is written
as one. So the lines that are read are just the well-formed ones, each from its own text and from every other
spelling of its tokens.

Key definitions: `Token.Writable`, `Token.write`, `SourceLine.text`, `SourceLine.WellFormed`.
Key theorems: `Token.tokens_write`, `SourceLine.ofText_text`, `SourceLine.ofText_eq_ok_iff`,
`SourceLine.read_exactly`.
-/
import Sx16.Proofs.Source.Names
import Sx16.Proofs.Text.Numeral

namespace Sx16

namespace Token

/-! ### How a token is written -/

/-- A token that is read from some text: names are identifiers, and texts have characters. -/
def Writable : Token → Prop
  | ident name => isIdentifier name = true
  | text bytes => IsText bytes
  | bad _ => False
  | _ => True

/-- A character as it is written between quotes. -/
def escape (c : Char) : List Char :=
  match c with
  | '\n' => ['\\', 'n']
  | '\t' => ['\\', 't']
  | '\r' => ['\\', 'r']
  | '\x00' => ['\\', '0']
  | '\\' => ['\\', '\\']
  | '"' => ['\\', '"']
  | c => [c]

/-- The characters of a text's bytes. -/
def textChars (bytes : List UInt8) : List Char :=
  ((String.fromUTF8? bytes.toByteArray).getD "").toList

/-- A token as it is written. -/
def chars : Token → List Char
  | ident name => name.toList
  | number n => (Text.decimal n.toNat).toList
  | text bytes => '"' :: ((textChars bytes).flatMap escape ++ ['"'])
  | dollar => ['$']
  | percent => ['%']
  | star => ['*']
  | plus => ['+']
  | comma => [',']
  | colon => [':']
  | period => ['.']
  | lbracket => ['[']
  | rbracket => [']']
  | bad lexeme => lexeme.toList

/-- A sign that stands right before what follows it. -/
def opens : Token → Bool
  | dollar | percent | star | period | lbracket => true
  | _ => false

/-- A sign that stands right behind what precedes it. -/
def closes : Token → Bool
  | comma | colon | rbracket => true
  | _ => false

/-- Tokens as they are written in a row. -/
def write : List Token → List Char
  | [] => []
  | [t] => t.chars
  | t :: u :: ts =>
    t.chars ++ ((if t.opens || u.closes then [] else [' ']) ++ write (u :: ts))

/-! ### What is written is read -/

variable {t : Token} {r : List Char}

theorem readText_escape {c : Char} {bs : List UInt8} {r' : List Char}
    (h : readText r = some (bs, r')) :
    readText (escape c ++ r) = some (String.utf8EncodeChar c ++ bs, r') := by
  have hescape : ∀ {e : Char} {b : UInt8}, unescape? e = some b → String.utf8EncodeChar c = [b] →
      readText ('\\' :: e :: r) = some (String.utf8EncodeChar c ++ bs, r') := by
    intro e b he hc
    rw [readText, he, h, hc]
    rfl
  unfold escape
  split
  · exact hescape rfl (by decide)
  · exact hescape rfl (by decide)
  · exact hescape rfl (by decide)
  · exact hescape rfl (by decide)
  · exact hescape rfl (by decide)
  · exact hescape rfl (by decide)
  · rename_i hslash hquote
    show readText (c :: r) = _
    rw [readText, if_neg hslash, h]
    · exact hquote
    · intro d ds hc
      exact absurd hc hslash

theorem readText_escaped (cs r : List Char) :
    readText (cs.flatMap escape ++ '"' :: r) = some (cs.flatMap String.utf8EncodeChar, r) := by
  induction cs with
  | nil => rfl
  | cons c cs ih =>
    rw [List.flatMap_cons, List.append_assoc, List.flatMap_cons]
    exact readText_escape ih

theorem flatMap_textChars {bytes : List UInt8} (h : IsText bytes) :
    (textChars bytes).flatMap String.utf8EncodeChar = bytes := by
  obtain ⟨s, rfl⟩ := h
  rw [textChars, fromUTF8?_flatMap]
  rfl

theorem tokens_of_read {c : Char} {s : List Char} (hblank : Text.isBlank c = false) (hsharp : c ≠ '#')
    (hread : read c s = (t, r)) (hgood : t.isBad = false) : tokens (c :: s) = t :: tokens r := by
  rw [tokens_cons, hblank, if_neg Bool.false_ne_true, if_neg hsharp, hread]
  simp only [hgood, Bool.false_eq_true, if_false]

theorem tokens_sign {c : Char} (h : punctuation? c = some t) : tokens (c :: r) = t :: tokens r := by
  have hread : read c r = (t, r) := by
    unfold read
    rw [h]
  unfold punctuation? at h
  split at h
  case h_10 => cases h
  all_goals
    cases h
    exact tokens_of_read (by decide) (by decide) hread rfl

/-- A word that starts with a digit is read as the number that it spells. -/
theorem tokens_number {w : List Char} {n : UInt32} (hvalue : Text.readPrefixed w = some n)
    (hfirst : ∀ c ∈ w.head?, c.isDigit = true) (hword : ∀ c ∈ w, isWordChar c = true)
    (hr : ∀ d ∈ r.head?, isWordChar d = false) : tokens (w ++ r) = number n :: tokens r := by
  cases w with
  | nil => cases hvalue
  | cons c w =>
    have hc := hfirst c rfl
    have hchar := isWordChar_of_isDigit hc
    obtain ⟨htake, hdrop⟩ := takeWhile_append (fun d hd => hword d (List.mem_cons_of_mem c hd)) hr
    have hread : read c (w ++ r) = (number n, r) := by
      unfold read
      rw [punctuation?_of_isWordChar hchar, isWordStart_of_isDigit hc, hc, htake, hdrop, ofDigits,
        hvalue]
      rfl
    have hsharp : c ≠ '#' := by
      rintro rfl
      exact absurd hchar (by decide)
    exact tokens_of_read (isBlank_of_isWordChar hchar) hsharp hread rfl

theorem tokens_text {w : List Char} {bs : List UInt8} (h : readText w = some (bs, r)) :
    tokens ('"' :: w) = text bs :: tokens r := by
  have hread : read '"' w = (text bs, r) := by
    unfold read
    simp only [h]
    rfl
  exact tokens_of_read (by decide) (by decide) hread rfl

/-- **A token is read where it was written.** -/
theorem tokens_chars (ht : t.Writable) (hr : ∀ d ∈ r.head?, t.opens = true ∨ isWordChar d = false) :
    tokens (t.chars ++ r) = t :: tokens r := by
  cases t with
  | ident name =>
    obtain ⟨c, w, hlist, hstart, hword⟩ := isIdentifier_iff.mp ht
    have hchar := isWordChar_of_isWordStart hstart
    obtain ⟨htake, hdrop⟩ := takeWhile_append hword fun d hd => (hr d hd).resolve_left nofun
    have hread : read c (w ++ r) = (ident name, r) := by
      unfold read
      rw [punctuation?_of_isWordChar hchar, hstart, htake, hdrop, ← hlist, String.ofList_toList]
      rfl
    have hsharp : c ≠ '#' := by
      rintro rfl
      exact absurd hchar (by decide)
    rw [chars, hlist]
    exact tokens_of_read (isBlank_of_isWordChar hchar) hsharp hread rfl
  | number n =>
    have hdigit : ∀ d ∈ (Text.decimal n.toNat).toList, d.isDigit = true :=
      fun d => Text.char_isDigit_of_mem_decimal
    exact tokens_number (Text.readPrefixed_decimal n) (fun d hd => hdigit d (List.mem_of_mem_head? hd))
      (fun d hd => isWordChar_of_isDigit (hdigit d hd)) fun d hd => (hr d hd).resolve_left nofun
  | text bytes =>
    have htext := readText_escaped (textChars bytes) r
    rw [flatMap_textChars ht] at htext
    rw [chars, List.cons_append, List.append_assoc]
    exact tokens_text htext
  | bad lexeme => cases ht
  | _ => exact tokens_sign rfl

theorem tokens_blank : tokens (' ' :: r) = tokens r := by
  rw [tokens_cons, if_pos (by decide)]

theorem isWordChar_of_closes {u : Token} {ts : List Token} (h : u.closes = true) :
    ∀ d ∈ (write (u :: ts)).head?, isWordChar d = false := by
  intro d hd
  cases u with
  | comma => cases ts <;> cases hd <;> rfl
  | colon => cases ts <;> cases hd <;> rfl
  | rbracket => cases ts <;> cases hd <;> rfl
  | _ => cases h

/-- **Tokens are read as they were written.** -/
theorem tokens_write {ts : List Token} (h : ∀ t ∈ ts, t.Writable) : tokens (write ts) = ts := by
  fun_induction write ts with
  | case1 => rw [tokens.eq_def]
  | case2 t =>
    have hfirst := tokens_chars (r := []) (h t List.mem_cons_self) nofun
    rw [List.append_nil] at hfirst
    rw [hfirst, tokens.eq_def]
  | case3 t u ts ih =>
    have hrest := ih fun v hv => h v (List.mem_cons_of_mem t hv)
    by_cases hsign : (t.opens || u.closes) = true
    · rw [if_pos hsign, List.nil_append, tokens_chars (h t List.mem_cons_self), hrest]
      intro d hd
      rcases Bool.or_eq_true_iff.mp hsign with hopens | hcloses
      · exact .inl hopens
      · exact .inr (isWordChar_of_closes hcloses d hd)
    · rw [if_neg hsign, tokens_chars (h t List.mem_cons_self), List.singleton_append, tokens_blank,
        hrest]
      intro d hd
      cases hd
      exact .inr rfl

end Token

/-! ### Lines that can be written -/

/-- A line of the grammar whose names are identifiers and whose text has characters. -/
structure SourceLine.WellFormed (l : SourceLine) : Prop where
  /-- Lists and texts are not empty, arguments are of the mnemonic's form, and a plain symbol in the place
  of an operand is no register's name. -/
  grammatical : l.Grammatical
  names : ∀ name ∈ l.names, isIdentifier name = true
  /-- Bytes that no characters have cannot be spelled. -/
  texts : ∀ bytes, l.statement = some (.directive (.ascii bytes)) → IsText bytes

/-- The line in its usual spelling. -/
def SourceLine.text (l : SourceLine) : String :=
  String.ofList (Token.write (l.pieces.map Piece.token))

theorem Piece.writable_register (reg : Register) : (Piece.register reg).token.Writable := by
  show isIdentifier reg.name = true
  cases reg <;> decide +kernel

theorem Piece.writable_mnemonic (m : Mnemonic) : (Piece.mnemonic m).token.Writable := by
  show isIdentifier (m.name.map Char.toLower) = true
  cases m <;> decide +kernel

theorem Value.writable_token {v : Value}
    (h : ∀ name ∈ v.symbol?.toList, isIdentifier name = true) : v.token.Writable := by
  cases v with
  | literal w => trivial
  | symbol name => exact h name (List.mem_singleton.mpr rfl)

namespace Operand

variable {o : Operand} {p : Piece}

theorem writable_of_mem_dataPieces (h : ∀ name ∈ o.names, isIdentifier name = true)
    (hp : p ∈ o.dataPieces) : p.token.Writable := by
  have hvalue : ∀ v : Value, o.names = v.symbol?.toList → v.token.Writable := by
    intro v hv
    rw [hv] at h
    exact Value.writable_token h
  cases o with
  | immediate v =>
    have hv := hvalue v (by cases v <;> rfl)
    simp only [dataPieces, List.mem_cons, List.not_mem_nil, or_false] at hp
    rcases hp with rfl | rfl
    · trivial
    · exact hv
  | memory v =>
    have hv := hvalue v (by cases v <;> rfl)
    obtain rfl := List.mem_singleton.mp hp
    exact hv
  | pcRelative name =>
    simp only [dataPieces, List.mem_cons, List.not_mem_nil, or_false] at hp
    rcases hp with rfl | rfl
    · trivial
    · exact h name (List.mem_singleton.mpr rfl)
  | register reg =>
    obtain rfl := List.mem_singleton.mp hp
    exact Piece.writable_register reg
  | indirect reg =>
    simp only [dataPieces, List.mem_cons, List.not_mem_nil, or_false] at hp
    rcases hp with rfl | rfl | rfl
    · trivial
    · exact Piece.writable_register reg
    · trivial
  | indexed reg v =>
    have hv := hvalue v (by cases v <;> rfl)
    simp only [dataPieces, List.mem_cons, List.not_mem_nil, or_false] at hp
    rcases hp with rfl | rfl | rfl | rfl | rfl
    · trivial
    · exact Piece.writable_register reg
    · trivial
    · exact hv
    · trivial

theorem mem_dataPieces_of_mem_targetPieces (hp : p ∈ o.targetPieces) :
    p = .exactly .star ∨ p ∈ o.dataPieces := by
  cases o with
  | immediate v => exact .inr (List.mem_cons_of_mem _ hp)
  | pcRelative name => exact .inr hp
  | _ => exact List.mem_cons.mp hp

theorem writable_of_mem_targetPieces (h : ∀ name ∈ o.names, isIdentifier name = true)
    (hp : p ∈ o.targetPieces) : p.token.Writable := by
  rcases mem_dataPieces_of_mem_targetPieces hp with rfl | hp
  · trivial
  · exact writable_of_mem_dataPieces h hp

end Operand

theorem Arguments.writable_of_mem_pieces {args : Arguments} {p : Piece}
    (h : ∀ name ∈ args.names, isIdentifier name = true) (hp : p ∈ args.pieces) :
    p.token.Writable := by
  cases args with
  | none => cases hp
  | one reg =>
    obtain rfl := List.mem_singleton.mp hp
    exact Piece.writable_register reg
  | two dst src =>
    simp only [pieces, List.mem_cons, List.not_mem_nil, or_false] at hp
    rcases hp with rfl | rfl | rfl
    · exact Piece.writable_register dst
    · trivial
    · exact Piece.writable_register src
  | jump target => exact Operand.writable_of_mem_targetPieces h hp
  | data reg operand =>
    simp only [pieces, List.mem_cons] at hp
    rcases hp with rfl | rfl | hp
    · exact Piece.writable_register reg
    · trivial
    · exact Operand.writable_of_mem_dataPieces h hp

theorem mem_of_mem_intersperse {α : Type} {a sep : α} {l : List α} (h : a ∈ l.intersperse sep) :
    a = sep ∨ a ∈ l := by
  fun_induction List.intersperse sep l with
  | case1 => cases h
  | case2 => exact .inr h
  | case3 x y l ih =>
    simp only [List.mem_cons] at h ih ⊢
    tauto

theorem Directive.writable_of_mem_tokens {d : Directive} {t : Token}
    (h : ∀ name ∈ d.names, isIdentifier name = true) (htext : ∀ bytes, d = ascii bytes → IsText bytes)
    (ht : t ∈ d.tokens) : t.Writable := by
  have hnames : ∀ {names : List String}, (∀ name ∈ names, isIdentifier name = true) →
      t ∈ (names.map Token.ident).intersperse .comma → t.Writable := by
    intro names hident ht
    rcases mem_of_mem_intersperse ht with rfl | ht
    · trivial
    · obtain ⟨name, hname, rfl⟩ := List.mem_map.mp ht
      exact hident name hname
  cases d with
  | exports names =>
    rcases List.mem_cons.mp ht with rfl | ht
    · exact (by decide +kernel : isIdentifier "global" = true)
    · exact hnames h ht
  | imports names =>
    rcases List.mem_cons.mp ht with rfl | ht
    · exact (by decide +kernel : isIdentifier "extern" = true)
    · exact hnames h ht
  | newSection name =>
    simp only [tokens, List.mem_cons, List.not_mem_nil, or_false] at ht
    rcases ht with rfl | rfl
    · exact (by decide +kernel : isIdentifier "section" = true)
    · exact h name (List.mem_singleton.mpr rfl)
  | words values =>
    rcases List.mem_cons.mp ht with rfl | ht
    · exact (by decide +kernel : isIdentifier "word" = true)
    · rcases mem_of_mem_intersperse ht with rfl | ht
      · trivial
      · obtain ⟨v, hv, rfl⟩ := List.mem_map.mp ht
        refine Value.writable_token fun name hname => h name ?_
        exact List.mem_filterMap.mpr ⟨v, hv, Option.mem_toList.mp hname⟩
  | ascii bytes =>
    simp only [tokens, List.mem_cons, List.not_mem_nil, or_false] at ht
    rcases ht with rfl | rfl
    · exact (by decide +kernel : isIdentifier "ascii" = true)
    · exact htext bytes rfl
  | skip count =>
    simp only [tokens, List.mem_cons, List.not_mem_nil, or_false] at ht
    rcases ht with rfl | rfl
    · exact (by decide +kernel : isIdentifier "skip" = true)
    · trivial
  | finish =>
    obtain rfl := List.mem_singleton.mp ht
    exact (by decide +kernel : isIdentifier "end" = true)

namespace SourceLine

variable {l : SourceLine} {s : String}

/-- The tokens of a well-formed line can be written. -/
theorem WellFormed.writable (h : l.WellFormed) {p : Piece} (hp : p ∈ l.pieces) :
    p.token.Writable := by
  obtain ⟨label, statement⟩ := l
  have hnames : ∀ st, statement = some st → ∀ name ∈ st.names, isIdentifier name = true := by
    rintro st rfl name hname
    exact h.names name (List.mem_append_right _ hname)
  rcases List.mem_append.mp hp with hp | hp
  · cases label with
    | none => cases hp
    | some name =>
      simp only [Option.elim_some, List.mem_cons, List.not_mem_nil, or_false] at hp
      rcases hp with rfl | rfl
      · exact h.names name (List.mem_append_left _ (List.mem_singleton.mpr rfl))
      · trivial
  · cases statement with
    | none => cases hp
    | some st =>
      have hident := hnames st rfl
      cases st with
      | directive d =>
        rcases List.mem_cons.mp hp with rfl | hp
        · trivial
        · obtain ⟨t, ht, rfl⟩ := List.mem_map.mp hp
          refine Directive.writable_of_mem_tokens hident (fun bytes hd => ?_) ht
          exact h.texts bytes (by rw [hd])
      | instruction i =>
        rcases List.mem_cons.mp hp with rfl | hp
        · exact Piece.writable_mnemonic i.mnemonic
        · exact Arguments.writable_of_mem_pieces hident hp

/-- **The tokens of a written line.** -/
theorem tokens_text (h : l.WellFormed) : tokens l.text.toList = l.pieces.map Piece.token := by
  rw [text, String.toList_ofList]
  refine Token.tokens_write fun t ht => ?_
  obtain ⟨p, hp, rfl⟩ := List.mem_map.mp ht
  exact h.writable hp

/-- **A line that is read** is well-formed. -/
theorem wellFormed_of_ofText (h : ofText s = .ok l) : l.WellFormed where
  grammatical := (ofTokens_eq_ok_iff.mp h).1
  names name hname := isIdentifier_of_mem_tokens (ident_mem_tokens h hname)
  texts bytes hbytes := by
    have hpiece : .exactly (.text bytes) ∈ l.pieces := by
      refine List.mem_append_right _ ?_
      rw [hbytes]
      simp [Statement.pieces, Directive.tokens]
    exact isText_of_mem_tokens ((ofTokens_eq_ok_iff.mp h).2.mem_of_exactly hpiece)

/-- **A text is read as a line** just if the line is well-formed and the tokens of the text spell it. -/
theorem ofText_eq_ok_iff : ofText s = .ok l ↔
    l.WellFormed ∧ List.Forall₂ Piece.SpelledBy l.pieces (tokens s.toList) := by
  constructor
  · intro h
    exact ⟨wellFormed_of_ofText h, spelled_iff_forall₂.mp (ofTokens_eq_ok_iff.mp h).2⟩
  · rintro ⟨hl, h⟩
    exact ofTokens_eq_ok_iff.mpr ⟨hl.grammatical, spelled_iff_forall₂.mpr h⟩

/-- **A well-formed line is read back.** -/
theorem ofText_text (h : l.WellFormed) : ofText l.text = .ok l := by
  refine ofText_eq_ok_iff.mpr ⟨h, ?_⟩
  rw [tokens_text h, List.forall₂_map_right_iff, List.forall₂_same]
  exact fun p _ => p.spelledBy_token

/-- **The reader of lines has exactly its grammar.** A well-formed line is read back from its text. A
text that is read as a line has tokens that spell this line, which is well-formed; they are the tokens
of the line's own text but for the case of the mnemonic and the names of registers. Any text with such
tokens is read as the line. The number of the line does not matter: it only goes into complaints. -/
theorem read_exactly :
    (∀ l : SourceLine, l.WellFormed →
      ofText l.text = .ok l ∧ tokens l.text.toList = l.pieces.map Piece.token) ∧
    ∀ (s : String) (l : SourceLine), ofText s = .ok l ↔
      l.WellFormed ∧ List.Forall₂ Piece.SpelledBy l.pieces (tokens s.toList) :=
  ⟨fun _ h => ⟨ofText_text h, tokens_text h⟩, fun _ _ => ofText_eq_ok_iff⟩

/-- A label, capitals, the second name of the stack pointer and a hexadecimal number. -/
theorem read_exactly_load :
    let l : SourceLine :=
      ⟨some "loop", some (.instruction ⟨.ldr, .data .r1 (.indexed .sp (.literal 16))⟩)⟩
    ofText "loop:LDR r1 , [r6+0x10] # next" = .ok l ∧ l.WellFormed ∧
      l.text = "loop: ldr r1, [sp + 16]" ∧ ofText "loop: ldr r1, [sp + 16]" = .ok l := by
  intro l
  have hread : ofText "loop:LDR r1 , [r6+0x10] # next" = .ok l := ok_of_toOption (by decide +kernel)
  obtain ⟨hwell, -⟩ := (read_exactly.2 _ _).mp hread
  have htext : l.text = "loop: ldr r1, [sp + 16]" := by decide +kernel
  have hback := (read_exactly.1 l hwell).1
  rw [htext] at hback
  exact ⟨hread, hwell, htext, hback⟩

end SourceLine
end Sx16
