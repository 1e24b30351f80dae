/-
# Renaming the names of a source text

A renaming replaces every name of a line: its label and the symbols and names behind its first word.
The first word says what the line asks for and is no name. A reader does not look at names, except to
tell registers from symbols, so it reads renamed tokens as it reads the tokens themselves, and renames
what it read. The errors are the same.

Key definitions: `SourceLine.rename`, `renameLine`, `RenamesTexts`.
Key theorems: `SourceLine.ofTokens_renameLine`, `RenamesTexts.counted`.
-/
import Sx16.Proofs.Source.Names

namespace Sx16

/-! ### Renamed lines -/

/-- The token with its name replaced, if it has one. -/
def Token.rename (ρ : String → String) : Token → Token
  | ident name => ident (ρ name)
  | t => t

/-- The value with its symbol replaced. -/
def Value.rename (ρ : String → String) : Value → Value
  | literal v => literal v
  | symbol name => symbol (ρ name)

/-- The operand with its symbol replaced. -/
def Operand.rename (ρ : String → String) : Operand → Operand
  | immediate v => immediate (v.rename ρ)
  | memory v => memory (v.rename ρ)
  | pcRelative name => pcRelative (ρ name)
  | register r => register r
  | indirect r => indirect r
  | indexed r v => indexed r (v.rename ρ)

/-- The arguments with their symbol replaced. -/
def Arguments.rename (ρ : String → String) : Arguments → Arguments
  | jump target => jump (target.rename ρ)
  | data r operand => data r (operand.rename ρ)
  | args => args

/-- The instruction with its symbol replaced. -/
def Instruction.rename (ρ : String → String) (i : Instruction) : Instruction :=
  ⟨i.mnemonic, i.arguments.rename ρ⟩

/-- The directive with its names replaced. -/
def Directive.rename (ρ : String → String) : Directive → Directive
  | exports names => exports (names.map ρ)
  | imports names => imports (names.map ρ)
  | newSection name => newSection (ρ name)
  | words values => words (values.map (Value.rename ρ))
  | d => d

/-- The statement with its names replaced. -/
def Statement.rename (ρ : String → String) : Statement → Statement
  | directive d => directive (d.rename ρ)
  | instruction i => instruction (i.rename ρ)

/-- The line with its label and its names replaced. -/
def SourceLine.rename (ρ : String → String) (l : SourceLine) : SourceLine :=
  ⟨l.label.map ρ, l.statement.map (Statement.rename ρ)⟩

/-- The tokens of a statement with the names behind its first word replaced. -/
def renameStatement (ρ : String → String) : List Token → List Token
  | .period :: word :: r => .period :: word :: r.map (Token.rename ρ)
  | word :: r => word :: r.map (Token.rename ρ)
  | [] => []

/-- The tokens of a line with its label and the names behind its first word replaced. -/
def renameLine (ρ : String → String) : List Token → List Token
  | .ident name :: .colon :: r => .ident (ρ name) :: .colon :: renameStatement ρ r
  | ts => renameStatement ρ ts

/-! ### Readers -/

/-- What is read from renamed tokens: what was read and the tokens left, renamed. -/
def renameRead {α : Type} (ρ : String → String) (f : α → α) :
    Except LineFault (α × List Token) → Except LineFault (α × List Token) :=
  Except.map (Prod.map f (List.map (Token.rename ρ)))

section Readers

variable {ρ : String → String}

theorem Value.read_map (ts : List Token) :
    read (ts.map (Token.rename ρ)) = renameRead ρ (rename ρ) (read ts) := by
  cases ts with
  | nil => rfl
  | cons t r =>
    cases t with
    | number n =>
      simp only [List.map_cons, Token.rename, read]
      cases word n <;> rfl
    | _ => rfl

theorem Value.readList_map (ts : List Token) :
    readList (ts.map (Token.rename ρ)) = renameRead ρ (List.map (rename ρ)) (readList ts) := by
  fun_induction readList ts with
  | case1 => rfl
  | case2 t r ih =>
    have hfirst := read_map (ρ := ρ) [t]
    rw [List.map_cons, List.map_nil] at hfirst
    rw [List.map_cons, readList, hfirst]
    cases read [t] with
    | error e => rfl
    | ok p =>
      cases r with
      | nil => rfl
      | cons u r =>
        cases u with
        | comma =>
          simp only [List.map_cons, Token.rename, bind, Except.bind, renameRead, Except.map] at ih ⊢
          rw [ih]
          cases readList r <;> rfl
        | _ => rfl

theorem readNames_map (ts : List Token) :
    readNames (ts.map (Token.rename ρ)) = renameRead ρ (List.map ρ) (readNames ts) := by
  fun_induction readNames ts with
  | case1 name r ih =>
    simp only [List.map_cons, Token.rename, readNames]
    rw [ih]
    cases readNames r <;> rfl
  | case2 name r hne =>
    cases r with
    | nil => rfl
    | cons u r =>
      cases u with
      | comma => exact absurd rfl (hne r)
      | _ => rfl
  | case3 ts _ hne =>
    cases ts with
    | nil => rfl
    | cons t r =>
      cases t with
      | ident name => exact absurd rfl (hne name r)
      | _ => rfl

/-- A directive's word tells what the names behind it are. -/
theorem Directive.read_map (first : Token) (r : List Token) :
    read (first :: r.map (Token.rename ρ)) = renameRead ρ (rename ρ) (read (first :: r)) := by
  generalize hts : first :: r = ts
  fun_cases read ts with
  | case1 r =>
    cases hts
    simp only [read, readNames_map]
    cases readNames r <;> rfl
  | case2 r =>
    cases hts
    simp only [read, readNames_map]
    cases readNames r <;> rfl
  | case3 name r =>
    cases hts
    rfl
  | case4 r =>
    cases hts
    simp only [read, Value.readList_map]
    cases Value.readList r <;> rfl
  | case5 b bs r =>
    cases hts
    rfl
  | case6 n r =>
    cases hts
    simp only [List.map_cons, Token.rename, read]
    cases word n <;> rfl
  | case7 r =>
    cases hts
    rfl
  | case8 ts hexports himports hsection hword hascii hskip hend =>
    subst hts
    -- The same words are refused; those with something special behind them look at one token more.
    unfold read
    split
    · exact (hexports r (by simp_all)).elim
    · exact (himports r (by simp_all)).elim
    · rename_i h
      obtain ⟨rfl, hr⟩ := List.cons.inj h
      obtain ⟨u, r, rfl, hu, -⟩ := List.map_eq_cons_iff.mp hr
      cases u with
      | ident name => exact (hsection name r rfl).elim
      | _ => cases hu
    · exact (hword r (by simp_all)).elim
    · rename_i h
      obtain ⟨rfl, hr⟩ := List.cons.inj h
      obtain ⟨u, r, rfl, hu, -⟩ := List.map_eq_cons_iff.mp hr
      cases u with
      | text bytes =>
        cases hu
        exact (hascii _ _ r rfl).elim
      | _ => cases hu
    · rename_i h
      obtain ⟨rfl, hr⟩ := List.cons.inj h
      obtain ⟨u, r, rfl, hu, -⟩ := List.map_eq_cons_iff.mp hr
      cases u with
      | number n => exact (hskip n r rfl).elim
      | _ => cases hu
    · exact (hend r (by simp_all)).elim
    · rfl

theorem skipComma_map (ts : List Token) :
    skipComma (ts.map (Token.rename ρ)) = (skipComma ts).map (List.map (Token.rename ρ)) := by
  cases ts with
  | nil => rfl
  | cons t r => cases t <;> rfl

-- Registers are the same before and after.
variable (hρ : ∀ name, Register.ofName? (ρ name) = Register.ofName? name)
include hρ

theorem Register.read_map (ts : List Token) :
    read (ts.map (Token.rename ρ)) = renameRead ρ id (read ts) := by
  cases ts with
  | nil => rfl
  | cons t r =>
    cases t with
    | ident name =>
      simp only [List.map_cons, Token.rename, read, hρ]
      cases ofName? name <;> rfl
    | _ => rfl

namespace Operand

theorem ofName_rename (name : String) : ofName (ρ name) = (ofName name).rename ρ := by
  unfold ofName
  rw [hρ]
  cases Register.ofName? name <;> rfl

theorem readBracket_map (ts : List Token) :
    readBracket (ts.map (Token.rename ρ)) = renameRead ρ (rename ρ) (readBracket ts) := by
  unfold readBracket
  rw [Register.read_map hρ]
  cases Register.read ts with
  | error e => rfl
  | ok p =>
    obtain ⟨reg, afterReg⟩ := p
    cases afterReg with
    | nil => rfl
    | cons t r =>
      cases t with
      | plus =>
        simp only [renameRead, Except.map, Prod.map, List.map_cons, Token.rename, bind, Except.bind]
        rw [Value.read_map]
        cases Value.read r with
        | error e => rfl
        | ok q =>
          obtain ⟨v, afterValue⟩ := q
          cases afterValue with
          | nil => rfl
          | cons u r' => cases u <;> rfl
      | _ => rfl

theorem readData_map (ts : List Token) :
    readData (ts.map (Token.rename ρ)) = renameRead ρ (rename ρ) (readData ts) := by
  cases ts with
  | nil => rfl
  | cons t r =>
    cases t with
    | dollar =>
      simp only [List.map_cons, Token.rename, readData, Value.read_map]
      cases Value.read r <;> rfl
    | percent =>
      cases r with
      | nil => rfl
      | cons u r => cases u <;> rfl
    | lbracket => exact readBracket_map hρ r
    | number n =>
      simp only [List.map_cons, Token.rename, readData]
      cases word n <;> rfl
    | ident name =>
      simp only [List.map_cons, Token.rename, readData, ofName_rename hρ]
      rfl
    | _ => rfl

theorem readTarget_map (ts : List Token) :
    readTarget (ts.map (Token.rename ρ)) = renameRead ρ (rename ρ) (readTarget ts) := by
  cases ts with
  | nil => rfl
  | cons t r =>
    cases t with
    | star =>
      cases r with
      | nil => rfl
      | cons u r =>
        cases u with
        | lbracket => exact readBracket_map hρ r
        | number n =>
          simp only [List.map_cons, Token.rename, readTarget]
          cases word n <;> rfl
        | ident name =>
          simp only [List.map_cons, Token.rename, readTarget, ofName_rename hρ]
          rfl
        | _ => rfl
    | percent =>
      cases r with
      | nil => rfl
      | cons u r => cases u <;> rfl
    | number n =>
      simp only [List.map_cons, Token.rename, readTarget]
      cases word n <;> rfl
    | _ => rfl

end Operand

theorem Arguments.read_map (form : Form) (ts : List Token) :
    read form (ts.map (Token.rename ρ)) = renameRead ρ (rename ρ) (read form ts) := by
  cases form with
  | bare => rfl
  | oneReg =>
    simp only [read, Register.read_map hρ]
    cases Register.read ts <;> rfl
  | stack =>
    simp only [read, Register.read_map hρ]
    cases Register.read ts <;> rfl
  | twoReg =>
    simp only [read, Register.read_map hρ]
    cases Register.read ts with
    | error e => rfl
    | ok p =>
      simp only [renameRead, Except.map, Prod.map, bind, Except.bind, skipComma_map]
      cases skipComma p.2 with
      | error e => rfl
      | ok r =>
        simp only [Register.read_map hρ]
        cases Register.read r <;> rfl
  | jump =>
    simp only [read, Operand.readTarget_map hρ]
    cases Operand.readTarget ts <;> rfl
  | data =>
    simp only [read, Register.read_map hρ]
    cases Register.read ts with
    | error e => rfl
    | ok p =>
      simp only [renameRead, Except.map, Prod.map, bind, Except.bind, skipComma_map]
      cases skipComma p.2 with
      | error e => rfl
      | ok r =>
        simp only [Operand.readData_map hρ]
        cases Operand.readData r <;> rfl

theorem Statement.read_rename (ts : List Token) :
    read (renameStatement ρ ts) = renameRead ρ (rename ρ) (read ts) := by
  cases ts with
  | nil => rfl
  | cons t r =>
    cases t with
    | period =>
      cases r with
      | nil => rfl
      | cons first r =>
        simp only [renameStatement, read, Directive.read_map]
        cases Directive.read (first :: r) <;> rfl
    | ident op =>
      simp only [renameStatement, read]
      cases Mnemonic.ofName? op with
      | none => rfl
      | some m =>
        simp only [Arguments.read_map hρ]
        cases Arguments.read m.form r <;> rfl
    | _ => rfl

namespace SourceLine

theorem afterLabel_rename (label : Option String) (ts : List Token) :
    afterLabel (label.map ρ) (renameStatement ρ ts) = (afterLabel label ts).map (rename ρ) := by
  cases ts with
  | nil => rfl
  | cons t r =>
    have hne : ∃ u us, renameStatement ρ (t :: r) = u :: us := by
      cases t with
      | period => cases r <;> exact ⟨_, _, rfl⟩
      | _ => exact ⟨_, _, rfl⟩
    obtain ⟨u, us, hts⟩ := hne
    have hread := Statement.read_rename hρ (t :: r)
    rw [hts] at hread ⊢
    simp only [afterLabel, hread]
    cases Statement.read (t :: r) with
    | error e => rfl
    | ok p =>
      obtain ⟨s, r'⟩ := p
      cases r' <;> rfl

/-- **Renamed tokens are read** as the tokens themselves, and what is read is renamed. -/
theorem ofTokens_renameLine (ts : List Token) :
    ofTokens (renameLine ρ ts) = (ofTokens ts).map (rename ρ) := by
  have hnone := afterLabel_rename hρ none
  fun_cases renameLine ρ ts with
  | case1 name r =>
    simp only [ofTokens]
    exact afterLabel_rename hρ (some name) r
  | case2 ts hno =>
    have hts : ofTokens ts = afterLabel none ts := by
      unfold ofTokens
      split
      · exact (hno _ _ rfl).elim
      · rfl
    rw [hts, ← hnone]
    unfold ofTokens
    split
    · rename_i name r h
      -- A renamed statement has a colon in second place only if the statement has.
      cases ts with
      | nil => cases h
      | cons t us =>
        cases t with
        | period => cases us <;> cases h
        | ident op =>
          obtain ⟨-, hus⟩ := List.cons.inj h
          obtain ⟨u, us, rfl, hu, -⟩ := List.map_eq_cons_iff.mp hus
          cases u with
          | colon => exact (hno _ _ rfl).elim
          | _ => cases hu
        | _ => cases h
    · rfl

end SourceLine
end Readers

/-! ### Source texts -/

/-- Lines of which the second have the names of the first replaced. Behind a line that ends the source
text there may be anything. -/
inductive RenamesTexts (ρ : String → String) : List String → List String → Prop where
  | nil : RenamesTexts ρ [] []
  | cons {t t' : String} {ts ts' : List String}
      (h : tokens t'.toList = renameLine ρ (tokens t.toList)) (hts : RenamesTexts ρ ts ts') :
      RenamesTexts ρ (t :: ts) (t' :: ts')
  | ended {t t' : String} {l : SourceLine} (ts ts' : List String)
      (h : tokens t'.toList = renameLine ρ (tokens t.toList)) (hl : SourceLine.ofText t = .ok l)
      (hends : l.ends = true) : RenamesTexts ρ (t :: ts) (t' :: ts')

namespace SourceLine

variable {ρ σ : String → String}

theorem ends_rename (l : SourceLine) : (l.rename ρ).ends = l.ends := by
  obtain ⟨label, statement⟩ := l
  cases statement with
  | none => rfl
  | some s =>
    cases s with
    | instruction i => rfl
    | directive d => cases d <;> rfl

theorem ofText_rename (hρ : ∀ name, Register.ofName? (ρ name) = Register.ofName? name) {t t' : String}
    (h : tokens t'.toList = renameLine ρ (tokens t.toList)) :
    ofText t' = (ofText t).map (rename ρ) := by
  unfold ofText
  rw [h, ofTokens_renameLine hρ]

end SourceLine

/-- **The lines that count** of a renamed source text are those of the source text, renamed. -/
theorem RenamesTexts.counted {ρ : String → String} {ts ts' : List String}
    (hρ : ∀ name, Register.ofName? (ρ name) = Register.ofName? name) (h : RenamesTexts ρ ts ts') :
    counted ts' = (counted ts).map (List.map (SourceLine.rename ρ)) := by
  induction h with
  | nil => rfl
  | cons h _ ih =>
    rename_i t t' ts ts' _
    have hline := SourceLine.ofText_rename hρ h
    cases hl : SourceLine.ofText t with
    | error e =>
      rw [hl] at hline
      rw [Sx16.counted, hline, Sx16.counted, hl]
      rfl
    | ok l =>
      rw [hl] at hline
      rw [counted_cons hline, counted_cons hl, SourceLine.ends_rename, ih]
      split
      · rfl
      · rw [Option.map_map, Option.map_map]
        rfl
  | ended ts ts' h hl hends =>
    have hline := SourceLine.ofText_rename hρ h
    rw [hl] at hline
    rw [counted_cons hline, counted_cons hl, SourceLine.ends_rename, if_pos hends, if_pos hends]
    rfl

/-! ### Renamings that agree on the names of a line -/

section Congr

variable {ρ σ : String → String}

theorem Value.rename_congr {v : Value} (h : ∀ n ∈ v.symbol?, ρ n = σ n) : v.rename ρ = v.rename σ := by
  cases v with
  | literal w => rfl
  | symbol name => exact congrArg symbol (h name rfl)

theorem Operand.rename_congr {o : Operand} (h : ∀ n ∈ o.names, ρ n = σ n) :
    o.rename ρ = o.rename σ := by
  have hvalue : ∀ v : Value, (v.symbol?.map fun name => (name, RelocationKind.symbolWord)) = o.reference? →
      v.rename ρ = v.rename σ := by
    intro v hv
    refine Value.rename_congr fun n hn => h n ?_
    rw [names, ← hv, hn]
    exact List.mem_singleton_self n
  cases o with
  | immediate v => exact congrArg immediate (hvalue v rfl)
  | memory v => exact congrArg memory (hvalue v rfl)
  | pcRelative name => exact congrArg pcRelative (h name List.mem_cons_self)
  | register r => rfl
  | indirect r => rfl
  | indexed r v => exact congrArg (indexed r) (hvalue v rfl)

theorem Directive.rename_congr {d : Directive} (h : ∀ n ∈ d.names, ρ n = σ n) :
    d.rename ρ = d.rename σ := by
  cases d with
  | exports names => exact congrArg exports (List.map_congr_left h)
  | imports names => exact congrArg imports (List.map_congr_left h)
  | newSection name => exact congrArg newSection (h name List.mem_cons_self)
  | words values =>
    refine congrArg words (List.map_congr_left fun v hv => Value.rename_congr fun n hn => h n ?_)
    exact List.mem_filterMap.mpr ⟨v, hv, hn⟩
  | _ => rfl

theorem Statement.rename_congr {s : Statement} (h : ∀ n ∈ s.names, ρ n = σ n) :
    s.rename ρ = s.rename σ := by
  cases s with
  | directive d => exact congrArg directive (Directive.rename_congr h)
  | instruction i =>
    obtain ⟨m, args⟩ := i
    cases args with
    | jump target =>
      exact congrArg (fun o => instruction ⟨m, .jump o⟩) (Operand.rename_congr h)
    | data r operand =>
      exact congrArg (fun o => instruction ⟨m, .data r o⟩) (Operand.rename_congr h)
    | _ => rfl

/-- Renamings that agree on the names of a line give the same line. -/
theorem SourceLine.rename_congr {l : SourceLine} (h : ∀ n ∈ l.names, ρ n = σ n) :
    l.rename ρ = l.rename σ := by
  obtain ⟨label, statement⟩ := l
  have hlabel : label.map ρ = label.map σ :=
    Option.map_congr fun n hn => h n (List.mem_append_left _ (Option.mem_toList.mpr hn))
  have hstatement : statement.map (Statement.rename ρ) = statement.map (Statement.rename σ) := by
    refine Option.map_congr fun s hs => Statement.rename_congr fun n hn => h n ?_
    refine List.mem_append_right _ ?_
    rw [Option.mem_def.mp hs]
    exact hn
  rw [rename, hlabel, hstatement, rename]

end Congr
end Sx16
