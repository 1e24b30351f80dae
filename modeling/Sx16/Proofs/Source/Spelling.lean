/-
# Every spelling of a row of tokens is read

A token has many spellings: a number may be in any of four bases and start with zeros, and a character of a
text may stand for itself or behind a backslash. Blanks may stand anywhere between two tokens and must stand
between two words. Whatever spelling is chosen, these tokens are read from it, also if a comment follows; and
a line without a bad token is such a spelling. Nothing is read after a bad token, and no line has one.

Key definitions: `Text.IsLiteral`, `Token.SpelledText`, `Token.WrittenAs`, `Token.Row`.
Key theorems: `Text.readPrefixed_eq_some_iff`, `Token.tokens_writtenAs`, `Token.tokens_row`,
`Token.exists_row`, `tokens_exactly`.
-/
import Sx16.Proofs.Source.Written

namespace Sx16

/-! ### Numbers -/

namespace Text

/-- The marks behind a zero, with the bases of the digits behind them. -/
def baseMarks : List (Char × Nat) := [('x', 16), ('X', 16), ('o', 8), ('b', 2)]

/-- A 32-bit number as it may be written: in decimal digits, or in those of the base of a mark. -/
def IsLiteral (n : UInt32) (w : List Char) : Prop :=
  IsNumeral 10 w n.toNat ∨
    ∃ mark base ds, (mark, base) ∈ baseMarks ∧ w = '0' :: mark :: ds ∧ IsNumeral base ds n.toNat

variable {c : Char} {w : List Char} {n : UInt32} {base : Nat}

theorem IsNumeral.isSome_digitValue? {k : Nat} (h : IsNumeral base w k) (hc : c ∈ w) :
    (digitValue? base c).isSome = true := by
  obtain ⟨ds, -, hds, -⟩ := h
  have hmem := List.mem_map_of_mem (f := digitValue? base) hc
  rw [hds] at hmem
  obtain ⟨d, -, hd⟩ := List.mem_map.mp hmem
  rw [← hd]
  rfl

theorem IsNumeral.ne_nil {k : Nat} (h : IsNumeral base w k) : w ≠ [] := by
  rintro rfl
  cases readNat_eq_some_iff.mpr h

/-- A decimal digit is a digit in the narrow sense. -/
theorem isDigit_of_digitValue?_ten (h : (digitValue? 10 c).isSome = true) : c.isDigit = true := by
  have hle : ∀ a b : Char, a ≤ b ↔ a.toNat ≤ b.toNat := fun a b => Iff.rfl
  obtain ⟨d, hd⟩ := Option.isSome_iff_exists.mp h
  obtain ⟨hvalue, hlt⟩ := Option.filter_eq_some_iff.mp hd
  unfold hexValue? at hvalue
  simp only [hle] at hvalue
  have hten := of_decide_eq_true hlt
  split at hvalue
  · rename_i hdigit
    exact char_isDigit_iff.mpr hdigit
  · split at hvalue
    · rename_i hlower
      have hfrom : 97 ≤ c.toNat := hlower.1
      have hd := Option.some.inj hvalue
      omega
    · split at hvalue
      · rename_i hupper
        have hfrom : 65 ≤ c.toNat := hupper.1
        have hd := Option.some.inj hvalue
        omega
      · cases hvalue

theorem isWordChar_of_isDigit (h : IsDigit c) : Token.isWordChar c = true := by
  refine isWordChar_iff.mpr ?_
  rcases isDigit_iff.mp h with hdigit | hlower | hupper
  · exact .inr (char_isDigit_iff.mpr hdigit)
  · exact .inl (isWordStart_iff.mpr (.inr (.inl ⟨hlower.1, by omega⟩)))
  · exact .inl (isWordStart_iff.mpr (.inl ⟨hupper.1, by omega⟩))

namespace IsLiteral

theorem isWordChar (h : IsLiteral n w) (hc : c ∈ w) : Token.isWordChar c = true := by
  rcases h with h | ⟨mark, base, ds, hmark, rfl, h⟩
  · exact isWordChar_of_isDigit (h.isDigit hc)
  · have hmarks : ∀ p ∈ baseMarks, Token.isWordChar p.1 = true := by decide
    simp only [List.mem_cons] at hc
    rcases hc with rfl | rfl | hc
    · decide
    · exact hmarks _ hmark
    · exact isWordChar_of_isDigit (h.isDigit hc)

theorem exists_cons (h : IsLiteral n w) : ∃ c r, w = c :: r ∧ c.isDigit = true := by
  rcases h with h | ⟨mark, base, ds, -, rfl, -⟩
  · obtain ⟨c, r, rfl⟩ := List.exists_cons_of_ne_nil h.ne_nil
    exact ⟨c, r, rfl, isDigit_of_digitValue?_ten (h.isSome_digitValue? List.mem_cons_self)⟩
  · exact ⟨'0', mark :: ds, rfl, by decide⟩

end IsLiteral

/-- Digits that are read without a plus sign in front are a numeral. -/
theorem map_readBelow_eq_some_iff (hplus : '+' ∉ w) :
    (readBelow base 0x100000000 w).map UInt32.ofNat = some n ↔ IsNumeral base w n.toNat := by
  rw [Option.map_eq_some_iff]
  simp only [readBelow_eq_some_iff]
  constructor
  · rintro ⟨k, ⟨hk | ⟨ds, rfl, -⟩, hlt⟩, rfl⟩
    · rwa [UInt32.toNat_ofNat', Nat.mod_eq_of_lt hlt]
    · exact absurd List.mem_cons_self hplus
  · exact fun h => ⟨n.toNat, ⟨.inl h, n.toNat_lt⟩, UInt32.ofNat_toNat⟩

/-- **A number is read** from its spellings and from nothing else, as long as there is no plus sign. -/
theorem readPrefixed_eq_some_iff (hplus : '+' ∉ w) : readPrefixed w = some n ↔ IsLiteral n w := by
  have hmarked : ∀ {mark base ds}, w = '0' :: mark :: ds →
      ((readBelow base 0x100000000 ds).map UInt32.ofNat = some n ↔ IsNumeral base ds n.toNat) := by
    rintro mark base ds rfl
    exact map_readBelow_eq_some_iff fun h => hplus (List.mem_cons_of_mem _ (List.mem_cons_of_mem _ h))
  -- A mark of a base is no decimal digit, so the two forms of a number exclude each other.
  have hforms : ∀ p ∈ baseMarks, ∀ {ds}, w = '0' :: p.1 :: ds →
      (IsLiteral n w ↔ IsNumeral p.2 ds n.toNat) := by
    rintro ⟨mark, base⟩ hmark ds rfl
    have hnone : ∀ p ∈ baseMarks, digitValue? 10 p.1 = none := by decide
    have hone : ∀ p ∈ baseMarks, ∀ q ∈ baseMarks, p.1 = q.1 → p.2 = q.2 := by decide
    constructor
    · rintro (h | ⟨mark', base', ds', hmark', heq, h⟩)
      · have hdigit := h.isSome_digitValue? (List.mem_cons_of_mem _ List.mem_cons_self)
        rw [hnone _ hmark] at hdigit
        cases hdigit
      · obtain ⟨-, htail⟩ := List.cons.inj heq
        obtain ⟨rfl, rfl⟩ := List.cons.inj htail
        obtain rfl : base = base' := hone _ hmark _ hmark' rfl
        exact h
    · exact fun h => .inr ⟨mark, base, ds, hmark, rfl, h⟩
  unfold readPrefixed
  split
  · exact (hmarked rfl).trans (hforms ('x', 16) (by decide) rfl).symm
  · exact (hmarked rfl).trans (hforms ('X', 16) (by decide) rfl).symm
  · exact (hmarked rfl).trans (hforms ('o', 8) (by decide) rfl).symm
  · exact (hmarked rfl).trans (hforms ('b', 2) (by decide) rfl).symm
  · rename_i hx hX ho hb
    rw [map_readBelow_eq_some_iff hplus]
    refine ⟨.inl, ?_⟩
    rintro (h | ⟨mark, base, ds, hmark, rfl, -⟩)
    · exact h
    · simp only [baseMarks, List.mem_cons, Prod.mk.injEq, List.not_mem_nil, or_false] at hmark
      rcases hmark with ⟨rfl, -⟩ | ⟨rfl, -⟩ | ⟨rfl, -⟩ | ⟨rfl, -⟩
      · exact absurd rfl (hx ds)
      · exact absurd rfl (hX ds)
      · exact absurd rfl (ho ds)
      · exact absurd rfl (hb ds)

end Text

namespace Token

/-! ### Spellings -/

/-- Characters as they may be written between quotes: each in its usual way, with a backslash where it has
one, or as itself, unless it would end the text or start an escape. -/
inductive SpelledText : List Char → List Char → Prop where
  | nil : SpelledText [] []
  | escaped (c : Char) {cs w : List Char} (h : SpelledText cs w) : SpelledText (c :: cs) (escape c ++ w)
  | raw {c : Char} {cs w : List Char} (hquote : c ≠ '"') (hslash : c ≠ '\\') (h : SpelledText cs w) :
    SpelledText (c :: cs) (c :: w)

/-- An identifier or a number, which goes on as long as letters, digits and underscores follow. -/
def isWordLike : Token → Bool
  | ident _ | number _ => true
  | _ => false

/-- A token and one of its spellings. -/
inductive WrittenAs : Token → List Char → Prop where
  | ident {name : String} (h : isIdentifier name = true) : WrittenAs (.ident name) name.toList
  | number {n : UInt32} {w : List Char} (h : Text.IsLiteral n w) : WrittenAs (.number n) w
  | text {cs w : List Char} (h : SpelledText cs w) :
    WrittenAs (.text (cs.flatMap String.utf8EncodeChar)) ('"' :: (w ++ ['"']))
  | sign {t : Token} {c : Char} (h : punctuation? c = some t) : WrittenAs t [c]

/-- A row of tokens as it may be written: blanks stand wherever there is no token, and there is one at least
between two words. -/
inductive Row : List Token → List Char → Prop where
  | nil : Row [] []
  | blank {ts : List Token} {c : Char} {r : List Char} (hc : Text.isBlank c = true) (h : Row ts r) :
    Row ts (c :: r)
  | token {t : Token} {w : List Char} {ts : List Token} {r : List Char} (ht : t.WrittenAs w)
    (h : Row ts r) (hwords : t.isWordLike = true → ∀ u ∈ ts.head?, u.isWordLike = true →
      ∃ c ∈ r.head?, Text.isBlank c = true) : Row (t :: ts) (w ++ r)

variable {t : Token} {ts : List Token} {c : Char} {r w : List Char}

/-! ### What is written is read -/

/-- A text is read whichever way its characters are written. -/
theorem readText_spelled {cs : List Char} (h : SpelledText cs w) (r : List Char) :
    readText (w ++ '"' :: r) = some (cs.flatMap String.utf8EncodeChar, r) := by
  induction h with
  | nil => rfl
  | escaped c _ ih =>
    rw [List.append_assoc, List.flatMap_cons]
    exact readText_escape ih
  | @raw c cs w hquote hslash _ ih =>
    rw [List.cons_append, List.flatMap_cons, readText, if_neg hslash, ih]
    · exact hquote
    · exact fun d ds hc => absurd hc hslash

/-- **A token is read from each of its spellings**, as long as no word goes on. -/
theorem tokens_writtenAs (h : t.WrittenAs w)
    (hr : t.isWordLike = true → ∀ d ∈ r.head?, isWordChar d = false) :
    tokens (w ++ r) = t :: tokens r := by
  cases h with
  | ident h => exact tokens_chars (t := .ident _) h fun d hd => .inr (hr rfl d hd)
  | number h =>
    have hword : ∀ c ∈ w, isWordChar c = true := fun c => h.isWordChar
    have hplus : '+' ∉ w := fun hmem => absurd (hword _ hmem) (by decide)
    refine tokens_number ((Text.readPrefixed_eq_some_iff hplus).mpr h) (fun d hd => ?_) hword (hr rfl)
    obtain ⟨c, w', rfl, hc⟩ := h.exists_cons
    exact Option.some.inj hd ▸ hc
  | text h =>
    rw [List.cons_append, List.append_assoc]
    exact tokens_text (readText_spelled h r)
  | sign h => exact tokens_sign h

/-- A spelling is not empty; it starts with a character of a word just if the token is a word. -/
theorem WrittenAs.exists_cons (h : t.WrittenAs w) :
    ∃ c w', w = c :: w' ∧ isWordChar c = t.isWordLike := by
  cases h with
  | ident h =>
    obtain ⟨c, w', hlist, hc, -⟩ := isIdentifier_iff.mp h
    exact ⟨c, w', hlist, isWordChar_of_isWordStart hc⟩
  | number h =>
    obtain ⟨c, w', rfl, hc⟩ := h.exists_cons
    exact ⟨c, w', rfl, isWordChar_of_isDigit hc⟩
  | text h => exact ⟨'"', _, rfl, rfl⟩
  | @sign _ c h =>
    refine ⟨c, [], rfl, ?_⟩
    unfold punctuation? at h
    split at h
    case h_10 => cases h
    all_goals
      cases h
      decide

theorem WrittenAs.not_isBad (h : t.WrittenAs w) : t.isBad = false := by
  cases h with
  | sign h =>
    unfold punctuation? at h
    split at h
    case h_10 => cases h
    all_goals
      cases h
      rfl
  | _ => rfl

theorem isWordChar_of_isBlank (h : Text.isBlank c = true) : isWordChar c = false := by
  rw [Bool.eq_false_iff]
  intro hword
  rw [isBlank_of_isWordChar hword] at h
  cases h

/-- Where no word starts a row, none goes on. -/
theorem Row.head (h : Row ts r) (hnot : ∀ u ∈ ts.head?, u.isWordLike = true →
    ∃ c ∈ r.head?, Text.isBlank c = true) : ∀ d ∈ r.head?, isWordChar d = false := by
  intro d hd
  cases h with
  | nil => cases hd
  | blank hc _ =>
    obtain rfl := Option.some.inj hd
    exact isWordChar_of_isBlank hc
  | @token t w ts r ht _ _ =>
    obtain ⟨c, w', rfl, hc⟩ := ht.exists_cons
    obtain rfl : c = d := Option.some.inj hd
    cases hword : t.isWordLike with
    | false => exact hc.trans hword
    | true =>
      obtain ⟨e, he, hblank⟩ := hnot t rfl hword
      obtain rfl : c = e := Option.some.inj he
      exact isWordChar_of_isBlank hblank

/-- **A row is read as its tokens**, at the end of a line and before a comment. -/
theorem tokens_row (h : Row ts r) {s : List Char} (hs : ∀ d ∈ s.head?, d = '#') :
    tokens (r ++ s) = ts := by
  induction h with
  | nil =>
    cases s with
    | nil => rw [List.append_nil, tokens.eq_def]
    | cons d s =>
      obtain rfl := hs d rfl
      rw [List.nil_append, tokens_cons, if_neg (by decide), if_pos rfl]
  | blank hc _ ih => rw [List.cons_append, tokens_cons, if_pos hc, ih]
  | @token t w ts r ht h hwords ih =>
    rw [List.append_assoc, tokens_writtenAs ht, ih]
    intro hword d hd
    have hrow := h.head (hwords hword)
    cases r with
    | nil =>
      obtain rfl := hs d hd
      decide
    | cons e r => exact hrow d hd

/-! ### What is read was written -/

/-- What stands behind a backslash is how a character may be written. -/
theorem exists_escape_of_unescape? {b : UInt8} (h : unescape? c = some b) :
    ∃ d, escape d = ['\\', c] ∧ String.utf8EncodeChar d = [b] := by
  unfold unescape? at h
  split at h
  · cases h
    exact ⟨'\n', rfl, by decide⟩
  · cases h
    exact ⟨'\t', rfl, by decide⟩
  · cases h
    exact ⟨'\r', rfl, by decide⟩
  · cases h
    exact ⟨'\x00', rfl, by decide⟩
  · cases h
    exact ⟨'\\', rfl, by decide⟩
  · cases h
    exact ⟨'"', rfl, by decide⟩
  · cases h

/-- A text that is read was written in one of its ways. -/
theorem exists_spelled_of_readText {bs : List UInt8} {s : List Char}
    (h : readText s = some (bs, r)) : ∃ cs w, s = w ++ '"' :: r ∧ SpelledText cs w ∧
      bs = cs.flatMap String.utf8EncodeChar := by
  fun_induction readText s generalizing bs r with
  | case1 => cases h
  | case2 s =>
    cases h
    exact ⟨[], [], rfl, .nil, rfl⟩
  | case3 e s b bs' s' hread hb ih =>
    cases h
    obtain ⟨cs, w, rfl, hw, rfl⟩ := ih hread
    obtain ⟨d, hescape, hbytes⟩ := exists_escape_of_unescape? hb
    refine ⟨d :: cs, escape d ++ w, by rw [hescape]; rfl, .escaped d hw, ?_⟩
    rw [List.flatMap_cons, hbytes]
    rfl
  | case4 => cases h
  | case5 => cases h
  | case6 d s hquote _ hslash bs' s' hread ih =>
    cases h
    obtain ⟨cs, w, rfl, hw, rfl⟩ := ih hread
    exact ⟨d :: cs, d :: w, rfl, .raw hquote hslash hw, rfl⟩
  | case7 => cases h

/-- **A token that is read was written**, and if it is a word, no word goes on behind it. -/
theorem exists_writtenAs_of_read (hgood : (read c r).1.isBad = false) :
    ∃ w, c :: r = w ++ (read c r).2 ∧ (read c r).1.WrittenAs w ∧
      ((read c r).1.isWordLike = true → ∀ d ∈ (read c r).2.head?, isWordChar d = false) := by
  have hrest : ∀ d ∈ (r.dropWhile isWordChar).head?, isWordChar d = false := by
    intro d hd
    have hstop := List.head?_dropWhile_not isWordChar r
    rw [hd] at hstop
    simpa using hstop
  have hsplit : c :: r = (c :: r.takeWhile isWordChar) ++ r.dropWhile isWordChar := by
    rw [List.cons_append, List.takeWhile_append_dropWhile]
  have hword : ∀ d ∈ r.takeWhile isWordChar, isWordChar d = true :=
    List.all_eq_true.mp List.all_takeWhile
  unfold read at hgood ⊢
  cases ht : punctuation? c with
  | some t =>
    refine ⟨[c], rfl, .sign ht, fun h => ?_⟩
    obtain ⟨c', w', hw, hsign⟩ := (WrittenAs.sign ht).exists_cons
    obtain ⟨rfl, -⟩ := List.cons.inj hw
    rw [h] at hsign
    rw [punctuation?_of_isWordChar hsign] at ht
    cases ht
  | none =>
    simp only [ht] at hgood ⊢
    by_cases hstart : isWordStart c = true
    · simp only [hstart, if_true]
      have hident : isIdentifier (String.ofList (c :: r.takeWhile isWordChar)) = true :=
        isIdentifier_iff.mpr ⟨c, _, String.toList_ofList, hstart, hword⟩
      have hwritten := WrittenAs.ident hident
      rw [String.toList_ofList] at hwritten
      exact ⟨_, hsplit, hwritten, fun _ => hrest⟩
    · by_cases hdigit : c.isDigit = true
      · simp only [hstart, hdigit, if_true, if_false, Bool.false_eq_true] at hgood ⊢
        have hplus : '+' ∉ c :: r.takeWhile isWordChar := by
          intro hmem
          rcases List.mem_cons.mp hmem with rfl | hmem
          · exact absurd hdigit (by decide)
          · exact absurd (hword _ hmem) (by decide)
        unfold ofDigits at hgood ⊢
        cases hvalue : Text.readPrefixed (c :: r.takeWhile isWordChar) with
        | none => simp [hvalue, isBad] at hgood
        | some n =>
          exact ⟨_, hsplit, .number ((Text.readPrefixed_eq_some_iff hplus).mp hvalue), fun _ => hrest⟩
      · simp only [hstart, hdigit, if_false, Bool.false_eq_true] at hgood ⊢
        by_cases hquote : c = '"'
        · simp only [hquote, if_true] at hgood ⊢
          cases htext : readText r with
          | none => simp [htext, isBad] at hgood
          | some p =>
            obtain ⟨cs, w, hr, hw, hbytes⟩ := exists_spelled_of_readText htext
            refine ⟨'"' :: (w ++ ['"']), by rw [hr]; simp, ?_, fun h => absurd h Bool.false_ne_true⟩
            simp only [hbytes]
            exact .text hw
        · simp [hquote, isBad] at hgood

/-- **A line without a bad token** is a row, perhaps with a comment behind it. -/
theorem exists_row {cs : List Char} (h : ∀ t ∈ tokens cs, t.isBad = false) :
    ∃ r s, cs = r ++ s ∧ Row (tokens cs) r ∧ ∀ d ∈ s.head?, d = '#' := by
  fun_induction tokens cs with
  | case1 =>
    refine ⟨[], [], rfl, .nil, fun d hd => ?_⟩
    cases hd
  | case2 c r hblank ih =>
    obtain ⟨r', s, rfl, hrow, hs⟩ := ih h
    exact ⟨c :: r', s, rfl, .blank hblank hrow, hs⟩
  | case3 r =>
    refine ⟨[], '#' :: r, rfl, .nil, fun d hd => (Option.some.inj hd).symm⟩
  | case4 c r _ _ hbad =>
    rw [h _ List.mem_cons_self] at hbad
    cases hbad
  | case5 c r _ _ _ ih =>
    obtain ⟨w, hw, hwritten, hnext⟩ := exists_writtenAs_of_read (h _ List.mem_cons_self)
    obtain ⟨r', s, hr', hrow, hs⟩ := ih fun t ht => h t (List.mem_cons_of_mem _ ht)
    refine ⟨w ++ r', s, by rw [hw, hr', List.append_assoc], .token hwritten hrow ?_, hs⟩
    intro hword u hu huword
    -- A word right behind a word would have been part of it.
    have hstop := hnext hword
    rw [hr'] at hstop
    generalize tokens (read c r).2 = ts at hrow hu
    cases hrow with
    | nil => cases hu
    | blank hc _ => exact ⟨_, rfl, hc⟩
    | token ht _ _ =>
      obtain rfl := Option.some.inj hu
      obtain ⟨d, w', rfl, hd⟩ := ht.exists_cons
      rw [huword, hstop d rfl] at hd
      cases hd

end Token

/-! ### Bad tokens -/

/-- **Nothing is read** after a bad token. -/
theorem not_isBad_of_mem_dropLast {cs : List Char} {t : Token} (ht : t ∈ (tokens cs).dropLast) :
    t.isBad = false := by
  fun_induction tokens cs with
  | case1 => cases ht
  | case2 c r _ ih => exact ih ht
  | case3 => cases ht
  | case4 => cases ht
  | case5 c r _ _ hgood ih =>
    cases hrest : tokens (Token.read c r).2 with
    | nil =>
      rw [hrest] at ht
      cases ht
    | cons u us =>
      rw [hrest, List.dropLast_cons_cons, List.mem_cons] at ht
      rcases ht with rfl | ht
      · exact Bool.eq_false_iff.mpr hgood
      · exact ih (by rw [hrest]; exact ht)

theorem Piece.SpelledBy.not_isBad {p : Piece} {t : Token} (h : p.SpelledBy t)
    (hp : p.token.Writable) : t.isBad = false := by
  cases h with
  | exactly =>
    cases t with
    | bad lexeme => cases hp
    | _ => rfl
  | _ => rfl

/-- **A line that is read** has no bad token. -/
theorem SourceLine.not_isBad_of_ofText {s : String} {l : SourceLine} (h : ofText s = .ok l)
    {t : Token} (ht : t ∈ tokens s.toList) : t.isBad = false := by
  obtain ⟨hwell, hspelled⟩ := ofText_eq_ok_iff.mp h
  obtain ⟨p, hp, hpt⟩ := exists_mem_of_forall₂ hspelled ht
  exact hpt.not_isBad (hwell.writable hp)

/-- **The tokens of a line are those of which it is a spelling.** From a row of tokens, whichever way its
numbers, texts and blanks are written, just these tokens are read, and a number sign and any characters
behind it change nothing. A line whose tokens are all good is such a row, perhaps with a comment. A bad
token is the last of its line, and a line with one is no source line. -/
theorem tokens_exactly :
    (∀ ts r, Token.Row ts r → tokens r = ts ∧ ∀ s, tokens (r ++ '#' :: s) = ts) ∧
    (∀ cs, (∀ t ∈ tokens cs, t.isBad = false) →
      ∃ r s, cs = r ++ s ∧ Token.Row (tokens cs) r ∧ ∀ d ∈ s.head?, d = '#') ∧
    (∀ cs, ∀ t ∈ (tokens cs).dropLast, t.isBad = false) ∧
    ∀ s : String, (∃ t ∈ tokens s.toList, t.isBad = true) → ∀ l, SourceLine.ofText s ≠ .ok l := by
  refine ⟨fun ts r h => ⟨?_, fun s => ?_⟩, fun cs => Token.exists_row,
    fun cs t => not_isBad_of_mem_dropLast, ?_⟩
  · rw [← List.append_nil r]
    exact Token.tokens_row h nofun
  · exact Token.tokens_row h fun d hd => (Option.some.inj hd).symm
  · rintro s ⟨t, ht, hbad⟩ l h
    rw [SourceLine.not_isBad_of_ofText h ht] at hbad
    cases hbad

/-- Two spellings of numbers, a blank in front of a comma and a comment with a quote. -/
theorem tokens_exactly_words :
    let ts : List Token := [.period, .ident "word", .number 31, .comma, .number 7, .comma, .ident "x"]
    (∃ r, Token.Row ts r ∧ tokens r = ts ∧ tokens (r ++ '#' :: ";".toList) = ts) ∧
      ∀ l, SourceLine.ofText "add r0 ; r1" ≠ .ok l := by
  intro ts
  have htokens : tokens ".word 0x1F,007 ,\tx # \"".toList = ts := by decide +kernel
  have hgood : ∀ t ∈ ts, t.isBad = false := by decide
  obtain ⟨r, -, -, hrow, -⟩ := tokens_exactly.2.1 ".word 0x1F,007 ,\tx # \"".toList (htokens ▸ hgood)
  rw [htokens] at hrow
  obtain ⟨hread, hcomment⟩ := tokens_exactly.1 ts r hrow
  refine ⟨⟨r, hrow, hread, hcomment _⟩, tokens_exactly.2.2.2 "add r0 ; r1" ⟨.bad ";", ?_, rfl⟩⟩
  decide +kernel

end Sx16
