/-
# Numbers are read back

A number that was written in decimal or hexadecimal digits, with any zeros in front, is read back as
it was, as long as it is below the limit of the reader. The digits are no separators: none of them is
a blank, a sign, a colon or an end of line. What the readers take for a number is a run of digits and
perhaps a sign in front, and its value is the one of the digits in their places.

Key definitions: `Text.IsNumeral`, `Text.IsUnsigned`, `Text.IsSigned`.
Key theorems: `Text.readBelow_decimal`, `Text.readBelow_hex`, `Text.readSigned_decimal`,
`Text.isBlank_of_isDigit`, `Text.readBelow_eq_some_iff`, `Text.readSigned_eq_some_iff`.
-/
import Mathlib.Algebra.GroupWithZero.Nat
import Mathlib.Data.Nat.Digits.Defs
import Sx16.Text.Blank
import Sx16.Text.Numeral

namespace Sx16
namespace Text

/-- A digit of base sixteen, of either case. -/
def IsDigit (c : Char) : Prop := (hexValue? c).isSome = true

instance : DecidablePred IsDigit := fun c => inferInstanceAs (Decidable ((hexValue? c).isSome = true))

variable {base limit n : Nat} {c : Char} {cs : List Char} {f : Char → Char}

/-! ### What digits are not -/

theorem isDigit_iff : IsDigit c ↔ (48 ≤ c.toNat ∧ c.toNat ≤ 57) ∨ (97 ≤ c.toNat ∧ c.toNat ≤ 102) ∨
    (65 ≤ c.toNat ∧ c.toNat ≤ 70) := by
  have hle : ∀ a b : Char, a ≤ b ↔ a.toNat ≤ b.toNat := fun a b => Iff.rfl
  unfold IsDigit hexValue?
  simp only [hle]
  split
  · rename_i h
    exact ⟨fun _ => Or.inl h, fun _ => rfl⟩
  · rename_i h
    split
    · rename_i h'
      exact ⟨fun _ => Or.inr (Or.inl h'), fun _ => rfl⟩
    · rename_i h'
      split
      · rename_i h''
        exact ⟨fun _ => Or.inr (Or.inr h''), fun _ => rfl⟩
      · rename_i h''
        refine ⟨fun hc => (nomatch hc), fun hc => ?_⟩
        rcases hc with hc | hc | hc
        · exact absurd hc h
        · exact absurd hc h'
        · exact absurd hc h''

theorem isBlank_of_isDigit (h : IsDigit c) : isBlank c = false := by
  have hrange := isDigit_iff.mp h
  unfold isBlank
  simp only [Bool.or_eq_false_iff, Bool.and_eq_false_iff, beq_eq_false_iff_ne,
    decide_eq_false_iff_not]
  omega

/-! ### Digits of a number -/

/-- The digits of a number, each written by `f`, are read back. -/
theorem readDigits_toDigits (hbase : 1 < base)
    (hf : ∀ d < base, digitValue? base (f (Nat.digitChar d)) = some d) (n : Nat) :
    ∀ cs m, readDigits base m ((Nat.toDigits base n).map f ++ cs) =
      readDigits base (m * base ^ (Nat.toDigits base n).length + n) cs := by
  induction n using Nat.strongRecOn with
  | ind n ih =>
    intro cs m
    by_cases hn : n < base
    · rw [Nat.toDigits_of_lt_base hn]
      simp only [List.map_cons, List.map_nil, List.cons_append, List.nil_append, readDigits,
        hf n hn, List.length_singleton, Nat.pow_one]
    · have hdiv : n / base < n := Nat.div_lt_self (by omega) hbase
      have hmod : n % base < base := Nat.mod_lt n (by omega)
      rw [Nat.toDigits_of_base_le hbase (Nat.le_of_not_lt hn), List.map_append, List.append_assoc,
        ih (n / base) hdiv]
      simp only [List.map_cons, List.map_nil, List.cons_append, List.nil_append, readDigits,
        hf _ hmod, List.length_append, List.length_singleton]
      have hval : (m * base ^ (Nat.toDigits base (n / base)).length + n / base) * base + n % base =
          m * base ^ ((Nat.toDigits base (n / base)).length + 1) + n := by
        rw [Nat.add_mul, Nat.pow_succ, Nat.mul_assoc, Nat.add_assoc, Nat.div_add_mod']
      rw [hval]

theorem readDigits_replicate_zero (hzero : digitValue? base '0' = some 0) (k : Nat)
    (cs : List Char) : readDigits base 0 (List.replicate k '0' ++ cs) = readDigits base 0 cs := by
  induction k with
  | zero => rfl
  | succ k ih =>
    rw [List.replicate_succ, List.cons_append, readDigits, hzero]
    simp only [Nat.zero_mul, Nat.add_zero]
    exact ih

theorem readNat_leftpad (hbase : 1 < base) (hzero : digitValue? base '0' = some 0)
    (hf : ∀ d < base, digitValue? base (f (Nat.digitChar d)) = some d) (width n : Nat) :
    readNat base (((Nat.toDigits base n).map f).leftpad width '0') = some n := by
  have hne : ((Nat.toDigits base n).map f).leftpad width '0' ≠ [] := by
    simp [List.leftpad, Nat.toDigits_ne_nil]
  have hread : readDigits base 0 (((Nat.toDigits base n).map f).leftpad width '0') = some n := by
    have hdigits := readDigits_toDigits hbase hf n [] 0
    rw [List.append_nil, Nat.zero_mul, Nat.zero_add] at hdigits
    rw [List.leftpad, readDigits_replicate_zero hzero]
    exact hdigits
  rwa [readNat.eq_2 _ _ hne]

theorem digitValue?_digitChar : ∀ d < 10, digitValue? 10 (Nat.digitChar d) = some d := by decide

theorem digitValue?_toUpper_digitChar :
    ∀ d < 16, digitValue? 16 (Nat.digitChar d).toUpper = some d := by decide

theorem readNat_decimal (n : Nat) : readNat 10 (decimal n).toList = some n := by
  have h := readNat_leftpad (f := id) (by decide) (by decide) digitValue?_digitChar 0 n
  rw [List.map_id, List.leftpad, Nat.zero_sub] at h
  rw [decimal, String.toList_ofList]
  exact h

theorem readNat_hex (width n : Nat) : readNat 16 (hex width n).toList = some n := by
  rw [hex, String.toList_ofList]
  exact readNat_leftpad (by decide) (by decide) digitValue?_toUpper_digitChar width n

/-! ### Every character of a number is a digit -/

theorem isDigit_of_digitValue? (h : (digitValue? base c).isSome) : IsDigit c := by
  unfold digitValue? at h
  unfold IsDigit
  cases hc : hexValue? c with
  | none =>
    rw [hc] at h
    cases h
  | some d => rfl

theorem isDigit_of_mem_readDigits {m : Nat} (h : (readDigits base m cs).isSome) (hc : c ∈ cs) :
    IsDigit c := by
  induction cs generalizing m with
  | nil => cases hc
  | cons x cs ih =>
    unfold readDigits at h
    split at h
    · rename_i d hd
      rcases List.mem_cons.mp hc with rfl | hc
      · exact isDigit_of_digitValue? (Option.isSome_of_eq_some hd)
      · exact ih h hc
    · cases h

theorem isDigit_of_mem_readNat (h : readNat base cs = some n) (hc : c ∈ cs) : IsDigit c := by
  unfold readNat at h
  split at h
  · cases h
  · exact isDigit_of_mem_readDigits (m := 0) (by rw [h]; rfl) hc

theorem isDigit_of_mem_decimal (h : c ∈ (decimal n).toList) : IsDigit c :=
  isDigit_of_mem_readNat (readNat_decimal n) h

theorem char_isDigit_of_mem_decimal (h : c ∈ (decimal n).toList) : c.isDigit = true := by
  rw [decimal, String.toList_ofList] at h
  exact Nat.isDigit_of_mem_toDigits (by decide) (by decide) h

theorem isDigit_of_mem_hex {width : Nat} (h : c ∈ (hex width n).toList) : IsDigit c :=
  isDigit_of_mem_readNat (readNat_hex width n) h

theorem hex_ne_nil (width n : Nat) : (hex width n).toList ≠ [] := by
  intro h
  have hread := readNat_hex width n
  rw [h] at hread
  cases hread

/-! ### Numbers with limits and signs -/

/-- A run of digits has no sign in front. -/
theorem readBelow_of_readNat (h : readNat base cs = some n) (hn : n < limit) :
    readBelow base limit cs = some n := by
  have hplus : ¬ IsDigit '+' := by decide
  unfold readBelow
  split
  · exact absurd (isDigit_of_mem_readNat h List.mem_cons_self) hplus
  · rw [h, Option.filter_some, if_pos (decide_eq_true hn)]

theorem lt_of_readBelow (h : readBelow base limit cs = some n) : n < limit := by
  unfold readBelow at h
  split at h
  · exact of_decide_eq_true (Option.filter_eq_some_iff.mp h).2
  · exact of_decide_eq_true (Option.filter_eq_some_iff.mp h).2

/-- **A decimal number** below the limit is read back. -/
theorem readBelow_decimal (hn : n < limit) : readBelow 10 limit (decimal n).toList = some n :=
  readBelow_of_readNat (readNat_decimal n) hn

/-- **A hexadecimal number** below the limit is read back. -/
theorem readBelow_hex (width : Nat) (hn : n < limit) :
    readBelow 16 limit (hex width n).toList = some n :=
  readBelow_of_readNat (readNat_hex width n) hn

theorem readWord_decimal (w : UInt16) : readWord 10 (decimal w.toNat).toList = some w := by
  rw [readWord, readBelow_decimal w.toNat_lt, Option.map_some, UInt16.ofNat_toNat]

theorem readByte_hex (width : Nat) (b : UInt8) : readByte 16 (hex width b.toNat).toList = some b := by
  rw [readByte, readBelow_hex width b.toNat_lt, Option.map_some, UInt8.ofNat_toNat]

theorem readWord_hex (width : Nat) (hn : n < 0x10000) :
    readWord 16 (hex width n).toList = some (UInt16.ofNat n) := by
  rw [readWord, readBelow_hex width hn, Option.map_some]

/-- Decimal digits have no prefix of another base. -/
theorem readPrefixed_decimal (w : UInt32) : readPrefixed (decimal w.toNat).toList = some w := by
  have hdigit : ∀ d ∈ (decimal w.toNat).toList, d.isDigit = true :=
    fun d => char_isDigit_of_mem_decimal
  unfold readPrefixed
  split
  · rename_i h
    exact absurd (hdigit 'x' (by rw [h]; simp)) (by decide)
  · rename_i h
    exact absurd (hdigit 'X' (by rw [h]; simp)) (by decide)
  · rename_i h
    exact absurd (hdigit 'o' (by rw [h]; simp)) (by decide)
  · rename_i h
    exact absurd (hdigit 'b' (by rw [h]; simp)) (by decide)
  · rw [readBelow_decimal w.toNat_lt, Option.map_some, UInt32.ofNat_toNat]

theorem mapM_readByte_hex (width : Nat) (bs : List UInt8) :
    (bs.map fun b => (hex width b.toNat).toList).mapM (readByte 16) = some bs := by
  induction bs with
  | nil => rfl
  | cons b bs ih =>
    rw [List.map_cons, List.mapM_cons, readByte_hex, ih]
    rfl

theorem readSigned_decimal (n : Nat) : readSigned (decimal n).toList = some (n : Int) := by
  have hminus : ¬ IsDigit '-' := by decide
  have hplus : ¬ IsDigit '+' := by decide
  have hdigit : ∀ c ∈ (decimal n).toList, IsDigit c := fun c => isDigit_of_mem_decimal
  unfold readSigned
  split
  · rename_i h
    exact absurd (hdigit '-' (h ▸ List.mem_cons_self)) hminus
  · rename_i h
    exact absurd (hdigit '+' (h ▸ List.mem_cons_self)) hplus
  · rw [readNat_decimal]
    rfl

/-! ### What is read as a number -/

/-- Digits of a base, at least one of them, and their value; the most significant one is the first. -/
def IsNumeral (base : Nat) (cs : List Char) (n : Nat) : Prop :=
  ∃ ds : List Nat, ds ≠ [] ∧ cs.map (digitValue? base) = ds.map some ∧
    n = Nat.ofDigits base ds.reverse

/-- A numeral with at most a plus sign in front. -/
def IsUnsigned (base : Nat) (cs : List Char) (n : Nat) : Prop :=
  IsNumeral base cs n ∨ ∃ ds, cs = '+' :: ds ∧ IsNumeral base ds n

/-- A decimal numeral with at most one sign in front. -/
def IsSigned (cs : List Char) (i : Int) : Prop :=
  (∃ n : Nat, IsUnsigned 10 cs n ∧ i = n) ∨ ∃ ds n, cs = '-' :: ds ∧ IsNumeral 10 ds n ∧ i = -(n : Int)

theorem readDigits_eq_some_iff {m : Nat} : readDigits base m cs = some n ↔
    ∃ ds : List Nat, cs.map (digitValue? base) = ds.map some ∧
      n = m * base ^ ds.length + Nat.ofDigits base ds.reverse := by
  induction cs generalizing m with
  | nil =>
    simp only [readDigits, Option.some.injEq, List.map_nil, List.nil_eq, List.map_eq_nil_iff,
      exists_eq_left, List.length_nil, Nat.pow_zero, Nat.mul_one, List.reverse_nil,
      Nat.ofDigits_nil, Nat.add_zero]
    exact eq_comm
  | cons c cs ih =>
    have hplace : ∀ (d : Nat) (ds : List Nat),
        (m * base + d) * base ^ ds.length + Nat.ofDigits base ds.reverse =
          m * base ^ (d :: ds).length + Nat.ofDigits base (d :: ds).reverse := by
      intro d ds
      rw [List.reverse_cons, Nat.ofDigits_append, Nat.ofDigits_singleton, List.length_reverse,
        List.length_cons]
      ring
    unfold readDigits
    rw [List.map_cons]
    cases hd : digitValue? base c with
    | none =>
      refine ⟨nofun, ?_⟩
      rintro ⟨ds, hds, -⟩
      cases ds <;> cases hds
    | some d =>
      simp only
      rw [ih]
      constructor
      · rintro ⟨ds, hds, rfl⟩
        exact ⟨d :: ds, congrArg (some d :: ·) hds, hplace d ds⟩
      · rintro ⟨ds, hds, rfl⟩
        cases ds with
        | nil => cases hds
        | cons d' ds =>
          obtain ⟨hd', hrest⟩ := List.cons.inj hds
          obtain rfl := Option.some.inj hd'
          exact ⟨ds, hrest, (hplace d ds).symm⟩

/-- **A run of digits is read** as its value. -/
theorem readNat_eq_some_iff : readNat base cs = some n ↔ IsNumeral base cs n := by
  cases cs with
  | nil =>
    refine ⟨nofun, ?_⟩
    rintro ⟨ds, hne, hds, -⟩
    exact absurd (List.map_eq_nil_iff.mp hds.symm) hne
  | cons c cs =>
    rw [readNat.eq_2 _ _ (List.cons_ne_nil c cs), readDigits_eq_some_iff]
    simp only [Nat.zero_mul, Nat.zero_add]
    refine exists_congr fun ds => (and_iff_right_of_imp ?_).symm
    rintro ⟨hds, -⟩ rfl
    cases hds

theorem IsNumeral.isDigit (h : IsNumeral base cs n) (hc : c ∈ cs) : IsDigit c :=
  isDigit_of_mem_readNat (readNat_eq_some_iff.mpr h) hc

/-- **A number below a limit is read** just if there is at most a plus sign in front of its digits. -/
theorem readBelow_eq_some_iff :
    readBelow base limit cs = some n ↔ IsUnsigned base cs n ∧ n < limit := by
  have hplus : ¬ IsDigit '+' := by decide
  unfold readBelow
  split
  · rename_i r
    rw [Option.filter_eq_some_iff, readNat_eq_some_iff, decide_eq_true_iff]
    refine and_congr_left fun _ => ⟨fun h => .inr ⟨r, rfl, h⟩, ?_⟩
    rintro (h | ⟨ds, hds, h⟩)
    · exact absurd (h.isDigit List.mem_cons_self) hplus
    · obtain ⟨-, rfl⟩ := List.cons.inj hds
      exact h
  · rename_i hsign
    rw [Option.filter_eq_some_iff, readNat_eq_some_iff, decide_eq_true_iff]
    refine and_congr_left fun _ => ⟨.inl, ?_⟩
    rintro (h | ⟨ds, rfl, -⟩)
    · exact h
    · exact absurd rfl (hsign ds)

theorem readByte_eq_some_iff {b : UInt8} : readByte base cs = some b ↔ IsUnsigned base cs b.toNat := by
  rw [readByte, Option.map_eq_some_iff]
  constructor
  · rintro ⟨n, hn, rfl⟩
    obtain ⟨hn, hlt⟩ := readBelow_eq_some_iff.mp hn
    rwa [UInt8.toNat_ofNat', Nat.mod_eq_of_lt hlt]
  · exact fun h => ⟨b.toNat, readBelow_eq_some_iff.mpr ⟨h, b.toNat_lt⟩, UInt8.ofNat_toNat⟩

theorem readWord_eq_some_iff {w : UInt16} :
    readWord base cs = some w ↔ IsUnsigned base cs w.toNat := by
  rw [readWord, Option.map_eq_some_iff]
  constructor
  · rintro ⟨n, hn, rfl⟩
    obtain ⟨hn, hlt⟩ := readBelow_eq_some_iff.mp hn
    rwa [UInt16.toNat_ofNat', Nat.mod_eq_of_lt hlt]
  · exact fun h => ⟨w.toNat, readBelow_eq_some_iff.mpr ⟨h, w.toNat_lt⟩, UInt16.ofNat_toNat⟩

/-- **A signed number is read** just if there is at most one sign in front of its digits. -/
theorem readSigned_eq_some_iff {i : Int} : readSigned cs = some i ↔ IsSigned cs i := by
  have hminus : ¬ IsDigit '-' := by decide
  have hplus : ¬ IsDigit '+' := by decide
  have hneg : ∀ x : Option Nat, (x.bind fun n => some (n : Int)).map (fun i => -i) =
      x.map fun n : Nat => -(n : Int) := by
    intro x
    cases x <;> rfl
  unfold IsSigned IsUnsigned
  unfold readSigned
  split
  · rename_i r
    change Option.map (fun i => -i) ((readNat 10 r).bind fun n => some (n : Int)) = _ ↔ _
    rw [hneg, Option.map_eq_some_iff]
    simp only [readNat_eq_some_iff]
    constructor
    · rintro ⟨n, hn, rfl⟩
      exact .inr ⟨r, n, rfl, hn, rfl⟩
    · rintro (⟨n, h | ⟨ds, hds, -⟩, -⟩ | ⟨ds, n, hds, hn, rfl⟩)
      · exact absurd (h.isDigit List.mem_cons_self) hminus
      · cases hds
      · obtain ⟨-, rfl⟩ := List.cons.inj hds
        exact ⟨n, hn, rfl⟩
  · rename_i r
    rw [Option.map_eq_some_iff]
    simp only [readNat_eq_some_iff]
    constructor
    · rintro ⟨n, hn, rfl⟩
      exact .inl ⟨n, .inr ⟨r, rfl, hn⟩, rfl⟩
    · rintro (⟨n, h | ⟨ds, hds, hn⟩, rfl⟩ | ⟨ds, n, hds, -⟩)
      · exact absurd (h.isDigit List.mem_cons_self) hplus
      · obtain ⟨-, rfl⟩ := List.cons.inj hds
        exact ⟨n, hn, rfl⟩
      · cases hds
  · rename_i hm hp
    rw [Option.map_eq_some_iff]
    simp only [readNat_eq_some_iff]
    constructor
    · rintro ⟨n, hn, rfl⟩
      exact .inl ⟨n, .inl hn, rfl⟩
    · rintro (⟨n, h | ⟨ds, rfl, -⟩, rfl⟩ | ⟨ds, n, rfl, -⟩)
      · exact ⟨n, h, rfl⟩
      · exact absurd rfl (hp ds)
      · exact absurd rfl (hm ds)

end Text
end Sx16
