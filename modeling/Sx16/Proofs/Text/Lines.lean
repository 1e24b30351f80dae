/-
# Texts are cut where they were joined

Lines that were written one after the other are the lines of the text, as long as none of them holds
an end of line. The same goes for the fields of a line between colons and for words between blanks,
and trimming changes nothing where no blank stands at the ends.

Key definitions: `Text.IsLine`, `Text.IsTrimmed`.
Key theorems: `Text.lines_unlines`, `Text.splitOn_fieldLine`, `Text.words_flatMap`,
`Text.trimEnd_eq_self`.
-/
import Sx16.Object.Relocation
import Sx16.Text.Blank
import Sx16.Text.Lines

namespace Sx16
namespace Text

/-- A text that can be a line: it holds no line feed and does not end in a carriage return. -/
structure IsLine (s : String) : Prop where
  feed : '\n' ∉ s.toList
  last : s.toList.getLast? ≠ some '\r'

/-- A line without a blank at its end. -/
structure IsTrimmed (s : String) : Prop where
  feed : '\n' ∉ s.toList
  last : ∀ c ∈ s.toList.getLast?, isBlank c = false

variable {s : String} {ls : List String} {c : Char} {cs w : List Char} {ws : List (List Char)}

/-! ### Pieces -/

/-- A piece does not hold what it was cut at. -/
theorem not_mem_of_mem_splitOn {a : Char} {p : List Char} (h : p ∈ cs.splitOn a) : a ∉ p := by
  induction cs generalizing p with
  | nil =>
    rw [List.splitOn_nil, List.mem_singleton] at h
    rw [h]
    exact List.not_mem_nil
  | cons x cs ih =>
    rw [List.splitOn_cons_eq_if_modifyHead] at h
    split at h
    · rcases List.mem_cons.mp h with rfl | h
      · exact List.not_mem_nil
      · exact ih h
    · rename_i hx
      cases hs : cs.splitOn a with
      | nil => exact absurd hs (List.splitOn_ne_nil a cs)
      | cons q qs =>
        rw [hs, List.modifyHead_cons] at h
        rcases List.mem_cons.mp h with rfl | h
        · have hq : a ∉ q := ih (hs ▸ List.mem_cons_self)
          intro ha
          rcases List.mem_cons.mp ha with rfl | ha
          · exact hx (beq_self_eq_true a)
          · exact hq ha
        · exact ih (hs ▸ List.mem_cons_of_mem q h)

/-- A piece holds nothing but what was cut. -/
theorem mem_of_mem_splitOn {a : Char} {p : List Char} (h : p ∈ cs.splitOn a) (hc : c ∈ p) : c ∈ cs := by
  induction cs generalizing p with
  | nil =>
    rw [List.splitOn_nil, List.mem_singleton] at h
    exact h ▸ hc
  | cons x cs ih =>
    rw [List.splitOn_cons_eq_if_modifyHead] at h
    split at h
    · rcases List.mem_cons.mp h with rfl | h
      · exact absurd hc List.not_mem_nil
      · exact List.mem_cons_of_mem x (ih h hc)
    · cases hs : cs.splitOn a with
      | nil => exact absurd hs (List.splitOn_ne_nil a cs)
      | cons q qs =>
        rw [hs, List.modifyHead_cons] at h
        rcases List.mem_cons.mp h with rfl | h
        · rcases List.mem_cons.mp hc with rfl | hc
          · exact List.mem_cons_self
          · exact List.mem_cons_of_mem x (ih (hs ▸ List.mem_cons_self) hc)
        · exact List.mem_cons_of_mem x (ih (hs ▸ List.mem_cons_of_mem q h) hc)

theorem splitOn_flatMap_concat {a : Char} (h : ∀ w ∈ ws, a ∉ w) :
    (ws.flatMap (· ++ [a])).splitOn a = ws ++ [[]] := by
  induction ws with
  | nil => exact List.splitOn_nil a
  | cons w ws ih =>
    rw [List.flatMap_cons, List.append_assoc, List.singleton_append,
      List.splitOn_append_cons_self_of_not_mem (h w List.mem_cons_self),
      ih fun v hv => h v (List.mem_cons_of_mem w hv), List.cons_append]

theorem toList_join (ls : List String) : (String.join ls).toList = ls.flatMap String.toList := by
  induction ls with
  | nil => rfl
  | cons l ls ih => simp [ih]

/-! ### Lines -/

theorem toList_unlines (ls : List String) :
    (unlines ls).toList = (ls.map String.toList).flatMap (· ++ ['\n']) := by
  rw [unlines, toList_join, List.flatMap_map, List.flatMap_map]
  refine congrArg (ls.flatMap ·) (funext fun l => ?_)
  rw [String.toList_append]
  rfl

theorem dropReturn_of_isLine (h : IsLine s) : dropReturn s.toList = s.toList := if_neg h.last

/-- **Lines that were written are read**, line by line. -/
theorem lines_unlines (h : ∀ l ∈ ls, IsLine l) : lines (unlines ls) = ls := by
  have hsplit : (unlines ls).toList.splitOn '\n' = ls.map String.toList ++ [[]] := by
    rw [toList_unlines, splitOn_flatMap_concat]
    intro w hw
    obtain ⟨l, hl, rfl⟩ := List.mem_map.mp hw
    exact (h l hl).feed
  have hdrop : (ls.map String.toList).map dropReturn = ls.map String.toList := by
    rw [List.map_map]
    exact List.map_congr_left fun l hl => dropReturn_of_isLine (h l hl)
  have hlines : splitLines (unlines ls).toList = ls.map String.toList := by
    unfold splitLines
    simp only
    rw [hsplit, List.dropLast_concat, hdrop, List.getLast?_concat]
    exact List.append_nil _
  rw [lines, hlines, List.map_map]
  exact List.map_id'' (fun l => String.ofList_toList) ls

theorem mem_dropReturn (h : c ∈ dropReturn cs) : c ∈ cs := by
  unfold dropReturn at h
  split at h
  · exact List.dropLast_subset cs h
  · exact h

theorem feed_of_mem_lines {l : String} (h : l ∈ lines s) : '\n' ∉ l.toList := by
  obtain ⟨cs, hcs, rfl⟩ := List.mem_map.mp h
  rw [String.toList_ofList]
  rcases List.mem_append.mp hcs with hcs | hcs
  · obtain ⟨p, hp, rfl⟩ := List.mem_map.mp hcs
    exact fun hc => not_mem_of_mem_splitOn (List.dropLast_subset _ hp) (mem_dropReturn hc)
  · obtain ⟨hlast, -⟩ := Option.filter_eq_some_iff.mp (Option.mem_toList.mp hcs)
    exact not_mem_of_mem_splitOn (List.mem_of_getLast? hlast)

theorem map_snd_numberedLines (s : String) : (numberedLines s).map Prod.snd = lines s := by
  rw [numberedLines, List.map_map]
  exact List.zipIdx_map_fst 1 (lines s)

/-! ### Blanks at the ends -/

theorem trimEnd_eq_self (h : ∀ c ∈ cs.getLast?, isBlank c = false) : trimEnd cs = cs := by
  have hdrop : cs.reverse.dropWhile isBlank = cs.reverse := by
    rw [← List.head?_reverse] at h
    cases hr : cs.reverse with
    | nil => rfl
    | cons c r =>
      rw [hr] at h
      rw [List.dropWhile_cons, h c rfl]
      rfl
  rw [trimEnd, hdrop, List.reverse_reverse]

theorem IsTrimmed.isLine (h : IsTrimmed s) : IsLine s where
  feed := h.feed
  last hc := absurd (h.last '\r' hc) (by decide)

theorem isTrimmed_of_all (hfeed : '\n' ∉ s.toList)
    (h : s.toList.getLast?.all (fun c => !isBlank c) = true) : IsTrimmed s where
  feed := hfeed
  last c hc := by
    rw [Option.mem_def.mp hc, Option.all_some] at h
    simpa using h

theorem trim_eq_self (hfirst : ∀ c ∈ cs.head?, isBlank c = false)
    (hlast : ∀ c ∈ cs.getLast?, isBlank c = false) : trim cs = cs := by
  have hdrop : cs.dropWhile isBlank = cs := by
    cases cs with
    | nil => rfl
    | cons c r =>
      rw [List.dropWhile_cons, hfirst c rfl]
      rfl
  rw [trim, hdrop, trimEnd_eq_self hlast]

theorem isBlank_of_mem_getLast?_trimEnd (h : c ∈ (trimEnd cs).getLast?) : isBlank c = false := by
  rw [trimEnd, List.getLast?_reverse] at h
  have hnot := List.head?_dropWhile_not isBlank cs.reverse
  rw [Option.mem_def.mp h] at hnot
  simpa using hnot

theorem mem_of_mem_trimEnd (h : c ∈ trimEnd cs) : c ∈ cs := by
  rw [trimEnd, List.mem_reverse] at h
  exact List.mem_reverse.mp ((List.dropWhile_suffix isBlank).subset h)

theorem isTrimmed_of_mem_lines {l : String} (h : l ∈ lines s) :
    IsTrimmed (String.ofList (trimEnd l.toList)) where
  feed hc := by
    rw [String.toList_ofList] at hc
    exact feed_of_mem_lines h (mem_of_mem_trimEnd hc)
  last c hc := by
    rw [String.toList_ofList] at hc
    exact isBlank_of_mem_getLast?_trimEnd hc

/-! ### Fields and words -/

theorem toList_fieldLine (fs : List String) :
    (fieldLine fs).toList = (fs.map String.toList).flatMap (· ++ [':']) := by
  rw [fieldLine, toList_join, List.flatMap_map, List.flatMap_map]
  refine congrArg (fs.flatMap ·) (funext fun l => ?_)
  rw [String.toList_append]
  rfl

/-- **The fields of a line** are found between its colons. -/
theorem splitOn_fieldLine {fs : List String} (h : ∀ f ∈ fs, ':' ∉ f.toList) :
    (fieldLine fs).toList.splitOn ':' = fs.map String.toList ++ [[]] := by
  rw [toList_fieldLine, splitOn_flatMap_concat]
  exact List.forall_mem_map.mpr h

theorem getLast?_fieldLine {fs : List String} (h : c ∈ (fieldLine fs).toList.getLast?) : c = ':' := by
  rw [toList_fieldLine] at h
  rcases List.eq_nil_or_concat fs with rfl | ⟨gs, g, rfl⟩
  · cases h
  · rw [List.concat_eq_append, List.map_append, List.flatMap_append, List.map_singleton,
      List.flatMap_singleton, ← List.append_assoc, List.getLast?_concat] at h
    exact (Option.some.inj h).symm

theorem isTrimmed_fieldLine {fs : List String} (h : ∀ f ∈ fs, '\n' ∉ f.toList) :
    IsTrimmed (fieldLine fs) where
  feed hc := by
    rw [toList_fieldLine] at hc
    obtain ⟨w, hw, hc⟩ := List.mem_flatMap.mp hc
    obtain ⟨f, hf, rfl⟩ := List.mem_map.mp hw
    rcases List.mem_append.mp hc with hc | hc
    · exact h f hf hc
    · exact absurd (List.mem_singleton.mp hc) (by decide)
  last c hc := by
    rw [getLast?_fieldLine hc]
    decide

theorem splitOnP_append_flatMap (h : ∀ v ∈ w :: ws, ∀ c ∈ v, isBlank c = false) :
    (w ++ ws.flatMap (' ' :: ·)).splitOnP isBlank = w :: ws := by
  induction ws generalizing w with
  | nil =>
    rw [List.flatMap_nil, List.append_nil]
    exact List.splitOnP_eq_singleton (h w List.mem_cons_self)
  | cons v ws ih =>
    rw [List.flatMap_cons, List.cons_append, List.splitOnP_append_cons_of_forall_mem
      (h w List.mem_cons_self) ' ' (by decide), ih fun u hu => h u (List.mem_cons_of_mem w hu)]

/-- **Words** that each stand behind a space. -/
theorem words_flatMap (hne : ∀ w ∈ ws, w ≠ []) (h : ∀ w ∈ ws, ∀ c ∈ w, isBlank c = false) :
    words (ws.flatMap (' ' :: ·)) = ws := by
  have hsplit : (ws.flatMap (' ' :: ·)).splitOnP isBlank = [] :: ws := by
    refine splitOnP_append_flatMap (w := []) fun v hv => ?_
    rcases List.mem_cons.mp hv with rfl | hv
    · exact fun c hc => nomatch hc
    · exact h v hv
  rw [words, hsplit, List.filter_cons_of_neg (by simp), List.filter_eq_self]
  intro w hw
  rw [Bool.not_eq_true', List.isEmpty_eq_false_iff]
  exact hne w hw

end Text
end Sx16
