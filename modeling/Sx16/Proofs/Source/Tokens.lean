/-
# The tokens of a source line

An identifier is a letter or an underscore and then letters, digits and underscores, and a text is what
its characters are in UTF-8: no other identifiers and texts are read. A token is read alike whatever
follows it, as long as no word goes on.

Key definitions: `IsWord`, `isIdentifier`, `IsText`.
Key theorems: `isIdentifier_of_mem_tokens`, `isWord_of_mem_tokens`, `isText_of_mem_tokens`,
`Token.exists_read_eq`.
-/
import Sx16.Source.Token

namespace Sx16

/-- A name that can stand in a source text. -/
structure IsWord (s : String) : Prop where
  nonempty : s ≠ ""
  chars : ∀ c ∈ s.toList, Token.isWordChar c = true

/-- Whether a name can be an identifier of a source text. -/
def isIdentifier (s : String) : Bool :=
  match s.toList with
  | [] => false
  | c :: r => Token.isWordStart c && r.all Token.isWordChar

/-- The bytes of a text in UTF-8. -/
def IsText (bytes : List UInt8) : Prop :=
  ∃ s : String, bytes = s.toList.flatMap String.utf8EncodeChar

/-! ### Bytes of texts -/

theorem fromUTF8?_eq_some_iff {bytes : ByteArray} {t : String} : String.fromUTF8? bytes = some t ↔
    bytes = t.toUTF8 := by
  unfold String.fromUTF8?
  constructor
  · intro h
    split at h
    · cases h
      rfl
    · cases h
  · rintro rfl
    rw [String.toUTF8_eq_toByteArray, dif_pos t.isValidUTF8]
    rfl

theorem fromUTF8?_flatMap (s : String) :
    String.fromUTF8? (s.toList.flatMap String.utf8EncodeChar).toByteArray = some s :=
  fromUTF8?_eq_some_iff.mpr (String.utf8Encode_toList.trans String.toUTF8_eq_toByteArray.symm)

/-! ### Characters of words -/

theorem isWordStart_iff {c : Char} : Token.isWordStart c = true ↔
    (65 ≤ c.toNat ∧ c.toNat ≤ 90) ∨ (97 ≤ c.toNat ∧ c.toNat ≤ 122) ∨ c = '_' := by
  change (decide (c.val ≥ 65 ∧ c.val ≤ 90) || (decide (c.val ≥ 97) && decide (c.val ≤ 122)) ||
    c == '_') = true ↔ _
  simp only [Bool.or_eq_true, Bool.and_eq_true, decide_eq_true_eq, beq_iff_eq,
    UInt32.le_iff_toNat_le, ge_iff_le, or_assoc]
  exact Iff.rfl

theorem char_isDigit_iff {c : Char} : c.isDigit = true ↔ 48 ≤ c.toNat ∧ c.toNat ≤ 57 := by
  change (decide (c.val ≥ 48) && decide (c.val ≤ 57)) = true ↔ _
  simp only [Bool.and_eq_true, decide_eq_true_eq, UInt32.le_iff_toNat_le, ge_iff_le]
  exact Iff.rfl

theorem isWordChar_iff {c : Char} :
    Token.isWordChar c = true ↔ Token.isWordStart c = true ∨ c.isDigit = true := by
  unfold Token.isWordChar Token.isWordStart Char.isAlphanum
  simp only [Bool.or_eq_true]
  exact or_right_comm

theorem isWordChar_of_isWordStart {c : Char} (h : Token.isWordStart c = true) :
    Token.isWordChar c = true := isWordChar_iff.mpr (.inl h)

theorem isWordChar_of_isDigit {c : Char} (h : c.isDigit = true) : Token.isWordChar c = true :=
  isWordChar_iff.mpr (.inr h)

theorem isWordStart_of_isDigit {c : Char} (h : c.isDigit = true) : Token.isWordStart c = false := by
  have hdigit := char_isDigit_iff.mp h
  rw [Bool.eq_false_iff]
  intro hstart
  rcases isWordStart_iff.mp hstart with hupper | hlower | rfl
  · omega
  · omega
  · exact absurd h (by decide)

theorem isBlank_of_isWordChar {c : Char} (h : Token.isWordChar c = true) : Text.isBlank c = false := by
  have hranges : c = '_' ∨ (48 ≤ c.toNat ∧ c.toNat ≤ 57) ∨ (65 ≤ c.toNat ∧ c.toNat ≤ 90) ∨
      (97 ≤ c.toNat ∧ c.toNat ≤ 122) := by
    rcases isWordChar_iff.mp h with hstart | hdigit
    · rcases isWordStart_iff.mp hstart with hupper | hlower | hunderscore
      · exact .inr (.inr (.inl hupper))
      · exact .inr (.inr (.inr hlower))
      · exact .inl hunderscore
    · exact .inr (.inl (char_isDigit_iff.mp hdigit))
  rcases hranges with rfl | hranges
  · decide
  · simp only [Text.isBlank, Bool.or_eq_false_iff, Bool.and_eq_false_iff, beq_eq_false_iff_ne,
      decide_eq_false_iff_not]
    omega

theorem punctuation?_of_isWordChar {c : Char} (h : Token.isWordChar c = true) :
    Token.punctuation? c = none := by
  unfold Token.punctuation?
  split
  case h_10 => rfl
  all_goals exact absurd h (by decide)

theorem isIdentifier_iff {s : String} : isIdentifier s = true ↔ ∃ c r, s.toList = c :: r ∧
    Token.isWordStart c = true ∧ ∀ d ∈ r, Token.isWordChar d = true := by
  unfold isIdentifier
  constructor
  · intro h
    split at h
    · cases h
    · rename_i c r hlist
      obtain ⟨hc, hr⟩ := Bool.and_eq_true_iff.mp h
      exact ⟨c, r, hlist, hc, List.all_eq_true.mp hr⟩
  · rintro ⟨c, r, hlist, hc, hr⟩
    rw [hlist]
    exact Bool.and_eq_true_iff.mpr ⟨hc, List.all_eq_true.mpr hr⟩

theorem isWord_of_isIdentifier {s : String} (h : isIdentifier s = true) : IsWord s := by
  obtain ⟨c, r, hlist, hc, hr⟩ := isIdentifier_iff.mp h
  refine ⟨fun he => ?_, fun d hd => ?_⟩
  · rw [he] at hlist
    cases hlist
  · rw [hlist] at hd
    rcases List.mem_cons.mp hd with rfl | hd
    · exact isWordChar_of_isWordStart hc
    · exact hr d hd

/-! ### Reading a token -/

namespace Token

/-- What follows a text does not matter to it. -/
theorem exists_readText_eq {cs r : List Char} {bs : List UInt8} (h : readText cs = some (bs, r)) :
    ∃ s, cs = s ++ r ∧ ∀ r', readText (s ++ r') = some (bs, r') := by
  fun_induction readText cs generalizing bs r with
  | case1 => cases h
  | case2 r1 =>
    cases h
    exact ⟨['"'], rfl, fun _ => rfl⟩
  | case3 c r1 b bs1 r1' hr hb ih =>
    cases h
    obtain ⟨s, hs, hread⟩ := ih hr
    refine ⟨'\\' :: c :: s, by rw [hs]; rfl, fun r' => ?_⟩
    rw [List.cons_append, List.cons_append, readText, hb, hread]
  | case4 => cases h
  | case5 => cases h
  | case6 c r1 hquote hslash hne bs1 r1' hr ih =>
    cases h
    obtain ⟨s, hs, hread⟩ := ih hr
    refine ⟨c :: s, by rw [hs]; rfl, fun r' => ?_⟩
    rw [List.cons_append, readText, if_neg hne, hread]
    · exact hquote
    · intro d ds hc
      exact absurd hc hne
  | case7 => cases h

/-- A word ends where no character of a word follows. -/
theorem takeWhile_append {s r : List Char} (hs : ∀ d ∈ s, isWordChar d = true)
    (hr : ∀ d ∈ r.head?, isWordChar d = false) :
    (s ++ r).takeWhile isWordChar = s ∧ (s ++ r).dropWhile isWordChar = r := by
  rw [List.takeWhile_append_of_pos hs, List.dropWhile_append_of_pos hs]
  cases r with
  | nil => simp
  | cons d r =>
    have hd := hr d rfl
    simp [hd]

/-- **A token is read** whatever follows it, as long as no word goes on. -/
theorem exists_read_eq {c : Char} {r : List Char} (hgood : (read c r).1.isBad = false) :
    ∃ s, r = s ++ (read c r).2 ∧
      ∀ r', (∀ d ∈ r'.head?, (read c r).2.head? = some d ∨ isWordChar d = false) →
        read c (s ++ r') = ((read c r).1, r') := by
  have hword : ∀ r', (∀ d ∈ r'.head?,
      (r.dropWhile isWordChar).head? = some d ∨ isWordChar d = false) →
        (r.takeWhile isWordChar ++ r').takeWhile isWordChar = r.takeWhile isWordChar ∧
          (r.takeWhile isWordChar ++ r').dropWhile isWordChar = r' := by
    intro r' hr'
    refine takeWhile_append (fun d hd => List.all_eq_true.mp List.all_takeWhile d hd) fun d hd => ?_
    rcases hr' d hd with hsame | hnot
    · have hstop := List.head?_dropWhile_not isWordChar r
      rw [hsame] at hstop
      simpa using hstop
    · exact hnot
  unfold read at hgood ⊢
  cases ht : punctuation? c with
  | some t =>
    exact ⟨[], rfl, fun _ _ => rfl⟩
  | none =>
    simp only [ht] at hgood ⊢
    by_cases hstart : isWordStart c = true
    · simp only [hstart, if_true]
      refine ⟨r.takeWhile isWordChar, List.takeWhile_append_dropWhile.symm, fun r' hr' => ?_⟩
      obtain ⟨htake, hdrop⟩ := hword r' hr'
      rw [htake, hdrop]
    · by_cases hdigit : c.isDigit = true
      · simp only [hstart, hdigit, if_true]
        refine ⟨r.takeWhile isWordChar, List.takeWhile_append_dropWhile.symm, fun r' hr' => ?_⟩
        obtain ⟨htake, hdrop⟩ := hword r' hr'
        rw [htake, hdrop]
        simp
      · simp only [hstart, hdigit, if_false, Bool.false_eq_true] at hgood ⊢
        by_cases hquote : c = '"'
        · simp only [hquote, if_true] at hgood ⊢
          cases htext : readText r with
          | none => simp [htext, isBad] at hgood
          | some p =>
            obtain ⟨s, hs, hread⟩ := exists_readText_eq htext
            refine ⟨s, hs, fun r' _ => ?_⟩
            rw [hread]
        · simp [hquote, isBad] at hgood

/-- An identifier is read from its characters. -/
theorem read_eq_ident {c : Char} {r : List Char} {x : String} (h : (read c r).1 = .ident x) :
    x.toList ++ (read c r).2 = c :: r ∧ isIdentifier x = true := by
  unfold read at h ⊢
  cases ht : punctuation? c with
  | some t =>
    simp only [ht] at h
    unfold punctuation? at ht
    split at ht <;> cases ht <;> cases h
  | none =>
    simp only [ht] at h ⊢
    split at h
    · rename_i hstart
      obtain rfl := Token.ident.inj h
      have hword : ∀ d ∈ r.takeWhile isWordChar, isWordChar d = true :=
        List.all_eq_true.mp List.all_takeWhile
      exact ⟨by simp [hstart], isIdentifier_iff.mpr ⟨c, _, String.toList_ofList, hstart, hword⟩⟩
    · split at h
      · unfold ofDigits at h
        split at h <;> cases h
      · split at h
        · split at h <;> cases h
        · cases h

theorem read_eq_text {c : Char} {r : List Char} {bs : List UInt8} (h : (read c r).1 = .text bs) :
    ∃ r', readText r = some (bs, r') := by
  unfold read at h
  split at h
  · rename_i t ht
    unfold punctuation? at ht
    split at ht <;> cases ht <;> cases h
  · split at h
    · cases h
    · split at h
      · unfold ofDigits at h
        split at h <;> cases h
      · split at h
        · split at h
          · rename_i bs' r' hread
            obtain rfl := Token.text.inj h
            exact ⟨r', hread⟩
          · cases h
        · cases h

/-- The byte behind a backslash is that of a character. -/
theorem exists_utf8_of_unescape? {c : Char} {b : UInt8} (h : unescape? c = some b) :
    ∃ d, String.utf8EncodeChar d = [b] := by
  unfold unescape? at h
  split at h
  · cases h
    exact ⟨'\n', by decide⟩
  · cases h
    exact ⟨'\t', by decide⟩
  · cases h
    exact ⟨'\r', by decide⟩
  · cases h
    exact ⟨'\x00', by decide⟩
  · cases h
    exact ⟨'\\', by decide⟩
  · cases h
    exact ⟨'"', by decide⟩
  · cases h

theorem exists_utf8_of_readText {cs r : List Char} {bs : List UInt8}
    (h : readText cs = some (bs, r)) : ∃ ds : List Char, bs = ds.flatMap String.utf8EncodeChar := by
  fun_induction readText cs generalizing bs r with
  | case1 => cases h
  | case2 r1 =>
    cases h
    exact ⟨[], rfl⟩
  | case3 c r1 b bs1 r1' hr hb ih =>
    cases h
    obtain ⟨ds, rfl⟩ := ih hr
    obtain ⟨d, hd⟩ := exists_utf8_of_unescape? hb
    exact ⟨d :: ds, by rw [List.flatMap_cons, hd]; rfl⟩
  | case4 => cases h
  | case5 => cases h
  | case6 c r1 hquote hslash hne bs1 r1' hr ih =>
    cases h
    obtain ⟨ds, rfl⟩ := ih hr
    exact ⟨c :: ds, rfl⟩
  | case7 => cases h

end Token

/-! ### The tokens of a line -/

theorem tokens_cons (c : Char) (r : List Char) : tokens (c :: r) =
    if Text.isBlank c then tokens r
    else if c = '#' then []
    else if (Token.read c r).1.isBad then [(Token.read c r).1]
    else (Token.read c r).1 :: tokens (Token.read c r).2 := by
  rw [tokens.eq_def]

/-- Every token was read somewhere in the line. -/
theorem exists_read_of_mem_tokens {cs : List Char} {t : Token} (h : t ∈ tokens cs) :
    ∃ c r, (Token.read c r).1 = t := by
  fun_induction tokens cs with
  | case1 => cases h
  | case2 c r _ ih => exact ih h
  | case3 => cases h
  | case4 c r => exact ⟨c, r, (List.mem_singleton.mp h).symm⟩
  | case5 c r _ _ _ ih =>
    rcases List.mem_cons.mp h with h | h
    · exact ⟨c, r, h.symm⟩
    · exact ih h

variable {cs : List Char}

/-- **The identifiers of a line.** -/
theorem isIdentifier_of_mem_tokens {name : String} (h : .ident name ∈ tokens cs) :
    isIdentifier name = true := by
  obtain ⟨c, r, hread⟩ := exists_read_of_mem_tokens h
  exact (Token.read_eq_ident hread).2

theorem isWord_of_mem_tokens {name : String} (h : .ident name ∈ tokens cs) : IsWord name :=
  isWord_of_isIdentifier (isIdentifier_of_mem_tokens h)

/-- **The texts of a line.** -/
theorem isText_of_mem_tokens {bytes : List UInt8} (h : .text bytes ∈ tokens cs) : IsText bytes := by
  obtain ⟨c, r, hread⟩ := exists_read_of_mem_tokens h
  obtain ⟨r', htext⟩ := Token.read_eq_text hread
  obtain ⟨ds, rfl⟩ := Token.exists_utf8_of_readText htext
  exact ⟨String.ofList ds, by rw [String.toList_ofList]⟩

end Sx16
