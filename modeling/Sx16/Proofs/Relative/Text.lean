/-
# A percent sign before an operand

An operand stands at the end of its line, so it is the last token there. A percent sign put in front
of it is a token of its own and leaves the tokens before as they were, since it is no part of a word.
The line is then that of the instruction with its operand made relative, and no other line of the
source text changes.

Key theorems: `tokens_percent`, `SourceLine.exists_ofTokens_relative`, `Text.exists_splitLines_replace`,
`exists_counted_relative`.
-/
import Sx16.Proofs.Assembly.TwoPass
import Sx16.Proofs.Relative.Operand
import Sx16.Proofs.Source.Names
import Sx16.Proofs.Text.Lines

namespace Sx16

/-! ### Tokens -/

/-- **A percent sign before the last token**, which is a name, is one more token. -/
theorem tokens_percent {cs : List Char} {us : List Token} {x : String}
    (h : tokens cs = us ++ [.ident x]) : x.toList ≠ [] ∧ ∃ u v, cs = u ++ (x.toList ++ v) ∧
      tokens (u ++ '%' :: (x.toList ++ v)) = us ++ [.percent, .ident x] := by
  fun_induction tokens cs generalizing us with
  | case1 => simp at h
  | case2 c r hblank ih =>
    obtain ⟨hx, u, v, hr, htokens⟩ := ih h
    refine ⟨hx, c :: u, v, by rw [hr]; rfl, ?_⟩
    rw [List.cons_append, tokens_cons, if_pos hblank]
    exact htokens
  | case3 r => simp at h
  | case4 c r hblank hsharp hbad =>
    have hlast := congrArg List.getLast? h
    rw [List.getLast?_singleton, List.getLast?_concat] at hlast
    rw [Option.some.inj hlast] at hbad
    cases hbad
  | case5 c r hblank hsharp hgood ih =>
    rw [Bool.not_eq_true] at hgood
    cases us with
    | nil =>
      obtain ⟨hread, hrest⟩ := List.cons.inj h
      obtain ⟨hx, hident⟩ := Token.read_eq_ident hread
      have hne : x.toList ≠ [] := by
        obtain ⟨d, ds, hlist, -⟩ := isIdentifier_iff.mp hident
        rw [hlist]
        exact List.cons_ne_nil d ds
      have hword : tokens (c :: r) = [.ident x] := by
        rw [tokens_cons, if_neg hblank, if_neg hsharp, hgood]
        exact h
      have hpercent : tokens ('%' :: c :: r) = .percent :: tokens (c :: r) := by
        rw [tokens_cons, if_neg (by decide), if_neg (by decide)]
        rfl
      refine ⟨hne, [], (Token.read c r).2, hx.symm, ?_⟩
      rw [List.nil_append, hx, hpercent, hword]
      rfl
    | cons t us =>
      obtain ⟨hread, hrest⟩ := List.cons.inj h
      obtain ⟨hne, u, v, hr, htokens⟩ := ih hrest
      obtain ⟨s, hs, hsame⟩ := Token.exists_read_eq hgood
      refine ⟨hne, c :: (s ++ u), v, ?_, ?_⟩
      · rw [List.cons_append, List.append_assoc, ← hr, ← hs]
      · have hnext := hsame (u ++ '%' :: (x.toList ++ v)) (by
          intro d hd
          cases u with
          | nil =>
            obtain rfl : '%' = d := Option.some.inj hd
            exact .inr rfl
          | cons e u =>
            rw [hr]
            exact .inl hd)
        rw [List.cons_append, List.append_assoc, tokens_cons, if_neg hblank, if_neg hsharp, hnext]
        simp only
        rw [hgood, hread, htokens]
        rfl

/-! ### The grammar -/

/-- The pieces of an instruction and of the one made relative differ in a percent sign. -/
theorem Instruction.MadeRelative.pieces {i i' : Instruction} {x : String} (hi : i.MadeRelative x i') :
    ∃ ps, (Statement.instruction i).pieces = ps ++ [.exactly (.ident x)] ∧
      (Statement.instruction i').pieces = ps ++ [.exactly .percent, .exactly (.ident x)] := by
  cases hi with
  | @jump m hm => exact ⟨[.mnemonic m], rfl, rfl⟩
  | @data m hm reg => exact ⟨[.mnemonic m, .register reg, .exactly .comma], rfl, rfl⟩

theorem Instruction.MadeRelative.grammatical {i i' : Instruction} {x : String}
    (hi : i.MadeRelative x i') : (Statement.instruction i').Grammatical := by
  cases hi with
  | jump hm =>
    refine ⟨?_, trivial⟩
    rw [hm]
    trivial
  | data hm reg =>
    refine ⟨?_, trivial⟩
    rw [hm]
    trivial

/-- **The tokens of a line** end in the operand of its instruction, and with a percent sign in front of
it are those of the line with the operand made relative. -/
theorem SourceLine.exists_ofTokens_relative {ts : List Token} {label : Option String}
    {i i' : Instruction} {x : String} (hi : i.MadeRelative x i')
    (h : ofTokens ts = .ok ⟨label, some (.instruction i)⟩) : ∃ us, ts = us ++ [.ident x] ∧
      ofTokens (us ++ [.percent, .ident x]) = .ok ⟨label, some (.instruction i')⟩ := by
  obtain ⟨-, hpieces⟩ := ofTokens_eq_ok_iff.mp h
  obtain ⟨ps, hi1, hi2⟩ := hi.pieces
  have happend : ∀ qs : List Piece, ∀ j : Instruction,
      (Statement.instruction j).pieces = ps ++ qs →
        (⟨label, some (.instruction j)⟩ : SourceLine).pieces =
          ((label.elim [] fun name => [.exactly (.ident name), .exactly .colon]) ++ ps) ++ qs := by
    intro qs j hj
    rw [List.append_assoc, ← hj]
    rfl
  rw [happend _ i hi1] at hpieces
  obtain ⟨us, vs, rfl, hus, hvs⟩ := spelled_append.mp hpieces
  obtain rfl : vs = [.ident x] := by simpa using hvs
  refine ⟨us, rfl, ofTokens_eq_ok_iff.mpr ⟨fun s hs => ?_, ?_⟩⟩
  · cases hs
    exact hi.grammatical
  · rw [happend _ i' hi2]
    exact spelled_append.mpr ⟨us, _, rfl, hus, by simp⟩

/-! ### Lines -/

namespace Text

variable {cs w l : List Char} {ls ls' : List (List Char)}

theorem splitLines_of_not_mem (h : '\n' ∉ cs) : splitLines cs = if cs = [] then [] else [cs] := by
  unfold splitLines
  rw [List.splitOn_eq_singleton h]
  by_cases hnil : cs = []
  · simp [hnil]
  · simp [hnil]

theorem splitLines_append (h : '\n' ∉ w) (cs : List Char) :
    splitLines (w ++ '\n' :: cs) = dropReturn w :: splitLines cs := by
  have hne := List.splitOn_ne_nil '\n' cs
  unfold splitLines
  simp only
  rw [List.splitOn_append_cons_self_of_not_mem h, List.dropLast_cons_of_ne_nil hne, List.map_cons,
    List.cons_append, List.getLast?_cons_of_ne_nil hne]

/-- **One line replaced** by another that is not empty and has the same last character. -/
theorem exists_splitLines_replace (h : splitLines cs = ls ++ l :: ls') : '\n' ∉ l ∧ ∃ as bs,
    cs = as ++ (l ++ bs) ∧ ∀ l', l' ≠ [] → '\n' ∉ l' → l'.getLast? = l.getLast? →
      splitLines (as ++ (l' ++ bs)) = ls ++ l' :: ls' := by
  induction ls generalizing cs with
  | nil =>
    by_cases hfeed : '\n' ∈ cs
    · obtain ⟨w, rest, rfl, hw⟩ := List.eq_append_cons_of_mem hfeed
      rw [splitLines_append hw] at h
      obtain ⟨hl, hrest⟩ := List.cons.inj h
      have hnot : '\n' ∉ l := fun hin => hw (mem_dropReturn (hl ▸ hin))
      by_cases hreturn : w.getLast? = some '\r'
      · obtain ⟨w, rfl⟩ := List.getLast?_eq_some_iff.mp hreturn
        have hdrop : ∀ l : List Char, dropReturn (l ++ ['\r']) = l := fun l => by
          simp [dropReturn]
        obtain rfl : w = l := (hdrop w).symm.trans hl
        refine ⟨hnot, [], '\r' :: '\n' :: rest, by simp, fun l' _ hfeed' _ => ?_⟩
        have hw' : '\n' ∉ l' ++ ['\r'] := by simp [hfeed']
        have hline := splitLines_append hw' rest
        rw [hdrop, hrest, List.append_assoc] at hline
        exact hline
      · have hdrop : ∀ l : List Char, l.getLast? = w.getLast? → dropReturn l = l := fun l hlast =>
          if_neg (hlast ▸ hreturn)
        obtain rfl : w = l := (hdrop w rfl).symm.trans hl
        refine ⟨hnot, [], '\n' :: rest, rfl, fun l' _ hfeed' hlast => ?_⟩
        rw [List.nil_append, splitLines_append hfeed', hdrop l' hlast, hrest]
        rfl
    · rw [splitLines_of_not_mem hfeed] at h
      by_cases hnil : cs = []
      · rw [if_pos hnil] at h
        cases h
      · rw [if_neg hnil] at h
        obtain ⟨rfl, hrest⟩ := List.cons.inj h
        refine ⟨hfeed, [], [], by simp, fun l' hne hfeed' _ => ?_⟩
        rw [List.nil_append, List.append_nil, splitLines_of_not_mem hfeed', if_neg hne, ← hrest]
        rfl
  | cons k ls ih =>
    by_cases hfeed : '\n' ∈ cs
    · obtain ⟨w, rest, rfl, hw⟩ := List.eq_append_cons_of_mem hfeed
      rw [splitLines_append hw] at h
      obtain ⟨hk, hrest⟩ := List.cons.inj h
      obtain ⟨hnot, as, bs, rfl, hreplace⟩ := ih hrest
      refine ⟨hnot, w ++ '\n' :: as, bs, by simp, fun l' hne hfeed' hlast => ?_⟩
      have hline := splitLines_append hw (as ++ (l' ++ bs))
      rw [hk, hreplace l' hne hfeed' hlast] at hline
      rw [List.append_assoc]
      exact hline
    · rw [splitLines_of_not_mem hfeed] at h
      have hlength := congrArg List.length h
      have hle : (if cs = [] then [] else [cs]).length ≤ 1 := by split <;> simp
      rw [List.length_append, List.length_cons, List.length_cons] at hlength
      omega

end Text

/-! ### Source texts -/

/-- One line of those that count replaced by another that does not end the text either. -/
theorem exists_counted_replace {ts : List String} {pre post : List SourceLine} {l : SourceLine}
    (h : counted ts = some (pre ++ l :: post)) : ∃ ts1 t ts2, ts = ts1 ++ t :: ts2 ∧
      SourceLine.ofText t = .ok l ∧ ∀ t' l', SourceLine.ofText t' = .ok l' → l'.ends = l.ends →
        counted (ts1 ++ t' :: ts2) = some (pre ++ l' :: post) := by
  induction pre generalizing ts with
  | nil =>
    obtain ⟨t, ts, rfl, ht, hpost⟩ := exists_of_counted_eq_cons h
    refine ⟨[], t, ts, rfl, ht, fun t' l' ht' hsame => ?_⟩
    rw [List.nil_append, counted_cons ht', hsame]
    by_cases hends : l.ends = true
    · rw [if_pos hends] at hpost ⊢
      rw [hpost]
      rfl
    · rw [if_neg hends] at hpost ⊢
      rw [hpost]
      rfl
  | cons k pre ih =>
    obtain ⟨t, ts, rfl, ht, hrest⟩ := exists_of_counted_eq_cons h
    by_cases hends : k.ends = true
    · rw [if_pos hends] at hrest
      exact absurd hrest (by simp)
    · rw [if_neg hends] at hrest
      obtain ⟨ts1, t1, ts2, rfl, ht1, hreplace⟩ := ih hrest
      refine ⟨t :: ts1, t1, ts2, rfl, ht1, fun t' l' ht' hsame => ?_⟩
      rw [List.cons_append, counted_cons ht, if_neg hends, hreplace t' l' ht' hsame]
      rfl

/-- **A percent sign before an operand of a source text** makes the operand relative, and all other
lines are as they were. -/
theorem exists_counted_relative {src : String} {pre post : List SourceLine} {label : Option String}
    {i i' : Instruction} {x : String} (hi : i.MadeRelative x i')
    (h : counted (Text.lines src) = some (pre ++ ⟨label, some (.instruction i)⟩ :: post)) :
    ∃ u v, src = u ++ x ++ v ∧ counted (Text.lines (u ++ "%" ++ x ++ v)) =
      some (pre ++ ⟨label, some (.instruction i')⟩ :: post) := by
  obtain ⟨ts1, t, ts2, hlines, ht, hcounted⟩ := exists_counted_replace h
  obtain ⟨us, htokens, hline'⟩ := SourceLine.exists_ofTokens_relative hi ht
  obtain ⟨hne, u, v, htext, htokens'⟩ := tokens_percent htokens
  -- The line of the instruction among the lines of the text, character by character.
  obtain ⟨ls1, rest, hsplit, hls1, hrest⟩ := List.map_eq_append_iff.mp hlines
  obtain ⟨l, ls2, rfl, hl, hls2⟩ := List.map_eq_cons_iff.mp hrest
  have hl' : l = t.toList := by rw [← hl, String.toList_ofList]
  obtain ⟨hfeed, as, bs, hsrc, hreplace⟩ := Text.exists_splitLines_replace hsplit
  rw [hl', htext] at hsrc hfeed hreplace
  have hlast : (u ++ '%' :: (x.toList ++ v)).getLast? = (u ++ (x.toList ++ v)).getLast? := by
    have hne' : x.toList ++ v ≠ [] := by simp [hne]
    rw [List.getLast?_append_of_ne_nil _ (List.cons_ne_nil _ _), List.getLast?_cons_of_ne_nil hne',
      List.getLast?_append_of_ne_nil _ hne']
  have hfeed' : '\n' ∉ u ++ '%' :: (x.toList ++ v) := by
    simp only [List.mem_append, List.mem_cons, not_or] at hfeed ⊢
    exact ⟨hfeed.1, by decide, hfeed.2⟩
  have hnew := hreplace _ (by simp) hfeed' hlast
  refine ⟨String.ofList (as ++ u), String.ofList (v ++ bs), ?_, ?_⟩
  · apply String.toList_inj.mp
    rw [hsrc]
    simp
  · have hchars : (String.ofList (as ++ u) ++ "%" ++ x ++ String.ofList (v ++ bs)).toList =
        as ++ (u ++ '%' :: (x.toList ++ v) ++ bs) := by
      simp
    have hofText : SourceLine.ofText (String.ofList (u ++ '%' :: (x.toList ++ v))) =
        .ok ⟨label, some (.instruction i')⟩ := by
      unfold SourceLine.ofText
      rw [String.toList_ofList, htokens']
      exact hline'
    unfold Text.lines
    rw [hchars, hnew, List.map_append, List.map_cons, hls1, hls2]
    exact hcounted _ _ hofText rfl

end Sx16
