/-
# The names of a source line are words

Every name of a source line was an identifier among its tokens, and an identifier is a word: it is
not empty and consists of letters, digits and underscores. So a name can stand in any field of a text
and at the end of any line.

Key definitions: `SourceLine.names`.
Key theorems: `SourceLine.ident_mem_tokens`, `SourceLine.isWord_of_ofText`, `SourceLine.mem_names`.
-/
import Sx16.Proofs.Assembly.Known
import Sx16.Proofs.Source.Pieces
import Sx16.Proofs.Source.Tokens

namespace Sx16

/-! ### Names of what is read -/

/-- The symbol of an operand. -/
def Operand.names (o : Operand) : List String := (o.reference?.map Prod.fst).toList

/-- The symbols of arguments. -/
def Arguments.names : Arguments → List String
  | jump target => target.names
  | data _ operand => operand.names
  | _ => []

/-- The names in a directive. -/
def Directive.names : Directive → List String
  | exports names | imports names => names
  | newSection name => [name]
  | words values => values.filterMap Value.symbol?
  | _ => []

/-- The names in a statement. -/
def Statement.names : Statement → List String
  | directive d => d.names
  | instruction i => i.arguments.names

/-- The names in a line. -/
def SourceLine.names (l : SourceLine) : List String :=
  l.label.toList ++ (l.statement.map Statement.names).getD []

/-! ### Every name is a token -/

theorem mem_intersperse_of_mem {α : Type} {a sep : α} {l : List α} (h : a ∈ l) :
    a ∈ l.intersperse sep := by
  fun_induction List.intersperse sep l with
  | case1 => cases h
  | case2 => exact h
  | case3 x y l ih =>
    rcases List.mem_cons.mp h with rfl | h
    · exact List.mem_cons_self
    · exact List.mem_cons_of_mem _ (List.mem_cons_of_mem _ (ih h))

variable {name : String}

theorem Value.token_of_symbol? {v : Value} (h : v.symbol? = some name) : v.token = .ident name := by
  cases v with
  | literal w => cases h
  | symbol n =>
    cases h
    rfl

namespace Operand

variable {o : Operand}

theorem ident_mem_dataPieces (h : name ∈ o.names) : .exactly (.ident name) ∈ o.dataPieces := by
  cases o with
  | register reg => cases h
  | indirect reg => cases h
  | pcRelative n =>
    obtain rfl := List.mem_singleton.mp h
    simp [dataPieces]
  | immediate v =>
    have hv : v.token = .ident name := Value.token_of_symbol? (by simpa [names, reference?] using h)
    simp [dataPieces, hv]
  | memory v =>
    have hv : v.token = .ident name := Value.token_of_symbol? (by simpa [names, reference?] using h)
    simp [dataPieces, hv]
  | indexed reg v =>
    have hv : v.token = .ident name := Value.token_of_symbol? (by simpa [names, reference?] using h)
    simp [dataPieces, hv]

theorem ident_mem_targetPieces (h : name ∈ o.names) : .exactly (.ident name) ∈ o.targetPieces := by
  have hdata := ident_mem_dataPieces h
  cases o with
  | immediate v => exact (List.mem_cons.mp hdata).resolve_left nofun
  | pcRelative n => exact hdata
  | _ => exact List.mem_cons_of_mem _ hdata

end Operand

theorem Arguments.ident_mem_pieces {args : Arguments} (h : name ∈ args.names) :
    .exactly (.ident name) ∈ args.pieces := by
  cases args with
  | jump target => exact Operand.ident_mem_targetPieces h
  | data reg operand =>
    exact List.mem_cons_of_mem _ (List.mem_cons_of_mem _ (Operand.ident_mem_dataPieces h))
  | _ => cases h

theorem Directive.ident_mem_tokens {d : Directive} (h : name ∈ d.names) :
    .ident name ∈ d.tokens := by
  cases d with
  | exports names =>
    exact List.mem_cons_of_mem _ (mem_intersperse_of_mem (List.mem_map_of_mem h))
  | imports names =>
    exact List.mem_cons_of_mem _ (mem_intersperse_of_mem (List.mem_map_of_mem h))
  | newSection n =>
    obtain rfl := List.mem_singleton.mp h
    simp [tokens]
  | words values =>
    obtain ⟨v, hv, hname⟩ := List.mem_filterMap.mp h
    have htoken := List.mem_map_of_mem (f := Value.token) hv
    rw [Value.token_of_symbol? hname] at htoken
    exact List.mem_cons_of_mem _ (mem_intersperse_of_mem htoken)
  | _ => cases h

theorem Statement.ident_mem_pieces {s : Statement} (h : name ∈ s.names) :
    .exactly (.ident name) ∈ s.pieces := by
  cases s with
  | directive d =>
    exact List.mem_cons_of_mem _ (List.mem_map_of_mem (Directive.ident_mem_tokens h))
  | instruction i => exact List.mem_cons_of_mem _ (Arguments.ident_mem_pieces h)

namespace SourceLine

variable {l : SourceLine} {text : String}

theorem ident_mem_pieces (h : name ∈ l.names) : .exactly (.ident name) ∈ l.pieces := by
  obtain ⟨label, statement⟩ := l
  rcases List.mem_append.mp h with h | h
  · refine List.mem_append_left _ ?_
    cases label with
    | none => cases h
    | some n =>
      obtain rfl := List.mem_singleton.mp h
      exact List.mem_cons_self
  · refine List.mem_append_right _ ?_
    cases statement with
    | none => cases h
    | some s => exact Statement.ident_mem_pieces h

/-- **The names of a line** were identifiers among its tokens. -/
theorem ident_mem_tokens (h : ofText text = .ok l) (hn : name ∈ l.names) :
    .ident name ∈ tokens text.toList :=
  (ofTokens_eq_ok_iff.mp h).2.mem_of_exactly (ident_mem_pieces hn)

theorem isWord_of_ofText (h : ofText text = .ok l) (hn : name ∈ l.names) : IsWord name :=
  isWord_of_mem_tokens (ident_mem_tokens h hn)

end SourceLine

/-! ### Names of items -/

variable {i : Item} {name : String}

theorem Encoded.mem_names {e : Encoded} (hi : i ∈ e.items) (hname : i.name? = some name) :
    ∃ f, e.fixup = some f ∧ f.symbol = name := by
  unfold items at hi
  split at hi
  · rw [List.mem_singleton.mp hi] at hname
    cases hname
  · rename_i f hf
    simp only [List.mem_cons, List.not_mem_nil, or_false] at hi
    rcases hi with rfl | rfl | rfl
    · cases hname
    · exact ⟨f, hf, Option.some.inj hname⟩
    · cases hname

theorem Instruction.mem_names {j : Instruction} (hi : i ∈ j.encode.items)
    (hname : i.name? = some name) : name ∈ j.arguments.names := by
  obtain ⟨f, hf, rfl⟩ := Encoded.mem_names hi hname
  obtain ⟨m, args⟩ := j
  cases args with
  | none => cases hf
  | one r => cases m <;> cases hf
  | two dst src => cases hf
  | jump target =>
    obtain ⟨p, hp, rfl⟩ := Option.map_eq_some_iff.mp hf
    exact Option.mem_toList.mpr (Option.map_eq_some_iff.mpr ⟨p, hp, rfl⟩)
  | data r operand =>
    obtain ⟨p, hp, rfl⟩ := Option.map_eq_some_iff.mp hf
    exact Option.mem_toList.mpr (Option.map_eq_some_iff.mpr ⟨p, hp, rfl⟩)

theorem Directive.mem_names {d : Directive} (hi : i ∈ d.items) (hname : i.name? = some name) :
    name ∈ d.names := by
  cases d with
  | exports ns =>
    obtain ⟨n, hn, rfl⟩ := List.mem_map.mp hi
    exact Option.some.inj hname ▸ hn
  | imports ns =>
    obtain ⟨n, hn, rfl⟩ := List.mem_map.mp hi
    exact Option.some.inj hname ▸ hn
  | newSection n =>
    rw [List.mem_singleton.mp hi] at hname
    exact List.mem_singleton.mpr (Option.some.inj hname).symm
  | words vs =>
    obtain ⟨v, hv, rfl⟩ := List.mem_map.mp hi
    refine List.mem_filterMap.mpr ⟨v, hv, ?_⟩
    cases v with
    | literal w => cases hname
    | symbol n => exact hname
  | ascii bs =>
    rw [List.mem_singleton.mp hi] at hname
    cases hname
  | skip count =>
    rw [List.mem_singleton.mp hi] at hname
    cases hname
  | finish => cases hi

/-- **The names that the items of a line mention** are the line's. -/
theorem SourceLine.mem_names {l : SourceLine} (hi : i ∈ l.items) (hname : i.name? = some name) :
    name ∈ l.names := by
  obtain ⟨label, statement⟩ := l
  rcases List.mem_append.mp hi with hi | hi
  · refine List.mem_append_left _ ?_
    cases label with
    | none => cases hi
    | some n =>
      rw [List.mem_singleton.mp hi] at hname
      exact List.mem_singleton.mpr (Option.some.inj hname).symm
  · refine List.mem_append_right _ ?_
    cases statement with
    | none => cases hi
    | some s =>
      cases s with
      | directive d => exact Directive.mem_names hi hname
      | instruction j => exact Instruction.mem_names hi hname

/-- The lines that count are source lines. -/
theorem ofText_of_mem_counted {ts : List String} {ls : List SourceLine} (h : counted ts = some ls)
    {l : SourceLine} (hl : l ∈ ls) : ∃ t, SourceLine.ofText t = .ok l := by
  induction ts generalizing ls with
  | nil =>
    cases h
    cases hl
  | cons t ts ih =>
    unfold counted at h
    split at h
    · cases h
    · rename_i l' hl'
      split at h
      · cases h
        rw [List.mem_singleton.mp hl]
        exact ⟨t, hl'⟩
      · obtain ⟨ls', hls', rfl⟩ := Option.map_eq_some_iff.mp h
        rcases List.mem_cons.mp hl with rfl | hl
        · exact ⟨t, hl'⟩
        · exact ih hls' hl

/-- **The names of a source text** are words. -/
theorem isWord_of_counted {ts : List String} {ls : List SourceLine} (h : counted ts = some ls)
    (hi : i ∈ ls.flatMap SourceLine.items) (hname : i.name? = some name) : IsWord name := by
  obtain ⟨l, hl, hi⟩ := List.mem_flatMap.mp hi
  obtain ⟨t, ht⟩ := ofText_of_mem_counted h hl
  exact SourceLine.isWord_of_ofText ht (SourceLine.mem_names hi hname)

end Sx16
