/-
# Adding words into a byte string

Placeholders are filled by adding words at positions of a byte string, one after the other. A patch
changes the two bytes at its position and nothing else. Patches that lie apart do not see each other:
each adds to the word that stood there before, and their order does not matter. On a byte string
that was joined from two, patches that stay inside a part work on that part alone.

Key definitions: `Patch`, `Patch.Apart`, `patched`.
Key theorems: `wordAt?_patched`, `getElem?_patched`, `patched_perm`, `patched_append_left`,
`patched_append_right`.
-/
import Mathlib.Data.List.Pairwise
import Sx16.Word

namespace Sx16

/-- A word to be added at a position of a byte string. -/
structure Patch where
  pos : Nat
  addend : UInt16
  deriving DecidableEq

namespace Patch

/-- Two patches that share no byte. -/
def Apart (p q : Patch) : Prop := p.pos + 2 ≤ q.pos ∨ q.pos + 2 ≤ p.pos

/-- A patch further on by a number of bytes. -/
def shift (n : Nat) (p : Patch) : Patch := { p with pos := n + p.pos }

instance : Std.Symm Apart := ⟨fun _ _ h => Or.symm h⟩

end Patch

/-- The byte string with the addends of patches added at their positions, one after the other. -/
def patched (bs : Array UInt8) (ps : List Patch) : Array UInt8 :=
  ps.foldl (fun bs p => addWord bs p.pos p.addend) bs

@[simp] theorem patched_nil (bs : Array UInt8) : patched bs [] = bs := rfl

@[simp] theorem patched_cons (bs : Array UInt8) (p : Patch) (ps : List Patch) :
    patched bs (p :: ps) = patched (addWord bs p.pos p.addend) ps := rfl

theorem patched_append (bs : Array UInt8) (ps qs : List Patch) :
    patched bs (ps ++ qs) = patched (patched bs ps) qs := List.foldl_append

@[simp] theorem size_patched (bs : Array UInt8) (ps : List Patch) :
    (patched bs ps).size = bs.size := by
  induction ps generalizing bs with
  | nil => rfl
  | cons p ps ih => rw [patched_cons, ih, size_addWord]

/-! ### One patch -/

theorem wordAt?_eq_some {bs : Array UInt8} {pos : Nat} (h : pos + 2 ≤ bs.size) :
    wordAt? bs pos = some (Word.ofBytes bs[pos] bs[pos + 1]) := by
  simp [wordAt?, Array.getElem?_eq_getElem (show pos < bs.size by omega),
    Array.getElem?_eq_getElem (show pos + 1 < bs.size by omega)]

theorem wordAt?_eq_none {bs : Array UInt8} {pos : Nat} (h : bs.size < pos + 2) :
    wordAt? bs pos = none := by
  simp [wordAt?, Array.getElem?_eq_none (show bs.size ≤ pos + 1 by omega)]

theorem isSome_wordAt? (bs : Array UInt8) (pos : Nat) :
    (wordAt? bs pos).isSome ↔ pos + 2 ≤ bs.size := by
  by_cases h : pos + 2 ≤ bs.size
  · simp [wordAt?_eq_some h, h]
  · simp [wordAt?_eq_none (show bs.size < pos + 2 by omega), h]

theorem wordAt?_congr {bs bs' : Array UInt8} {pos pos' : Nat} (h0 : bs[pos]? = bs'[pos']?)
    (h1 : bs[pos + 1]? = bs'[pos' + 1]?) : wordAt? bs pos = wordAt? bs' pos' := by
  unfold wordAt?
  rw [h0, h1]

@[simp] theorem size_putWord (bs : Array UInt8) (pos : Nat) (w : UInt16) :
    (putWord bs pos w).size = bs.size := by
  simp [putWord]

theorem getElem?_putWord (bs : Array UInt8) (pos : Nat) (w : UInt16) (k : Nat) :
    (putWord bs pos w)[k]? =
      if k < bs.size then
        if k = pos then some (Word.low w) else if k = pos + 1 then some (Word.high w) else bs[k]?
      else none := by
  unfold putWord
  rw [Array.getElem?_setIfInBounds, Array.getElem?_setIfInBounds]
  grind

theorem addWord_of_le {bs : Array UInt8} {pos : Nat} (v : UInt16) (h : pos + 2 ≤ bs.size) :
    addWord bs pos v = putWord bs pos (Word.ofBytes bs[pos] bs[pos + 1] + v) := by
  rw [addWord, wordAt?_eq_some h]

theorem addWord_of_lt {bs : Array UInt8} {pos : Nat} (v : UInt16) (h : bs.size < pos + 2) :
    addWord bs pos v = bs := by
  rw [addWord, wordAt?_eq_none h]

theorem getElem?_addWord_of_ne {bs : Array UInt8} {pos k : Nat} (v : UInt16) (h0 : k ≠ pos)
    (h1 : k ≠ pos + 1) : (addWord bs pos v)[k]? = bs[k]? := by
  by_cases h : pos + 2 ≤ bs.size
  · rw [addWord_of_le v h, getElem?_putWord, if_neg h0, if_neg h1]
    grind
  · rw [addWord_of_lt v (by omega)]

theorem wordAt?_putWord {bs : Array UInt8} {pos : Nat} (w : UInt16) (h : pos + 2 ≤ bs.size) :
    wordAt? (putWord bs pos w) pos = some w := by
  have h0 : (putWord bs pos w)[pos]? = some (Word.low w) := by
    rw [getElem?_putWord, if_pos (by omega), if_pos rfl]
  have h1 : (putWord bs pos w)[pos + 1]? = some (Word.high w) := by
    rw [getElem?_putWord, if_pos (by omega), if_neg (by omega), if_pos rfl]
  simp [wordAt?, h0, h1]

theorem wordAt?_addWord (bs : Array UInt8) (pos : Nat) (v : UInt16) :
    wordAt? (addWord bs pos v) pos = (wordAt? bs pos).map (· + v) := by
  by_cases h : pos + 2 ≤ bs.size
  · rw [addWord_of_le v h, wordAt?_putWord _ h, wordAt?_eq_some h, Option.map_some]
  · rw [addWord_of_lt v (by omega), wordAt?_eq_none (by omega), Option.map_none]

theorem wordAt?_addWord_of_apart {bs : Array UInt8} {pos k : Nat} (v : UInt16)
    (h : pos + 2 ≤ k ∨ k + 2 ≤ pos) : wordAt? (addWord bs pos v) k = wordAt? bs k :=
  wordAt?_congr (getElem?_addWord_of_ne v (by omega) (by omega))
    (getElem?_addWord_of_ne v (by omega) (by omega))

theorem getElem?_of_wordAt? {bs bs' : Array UInt8} {pos k : Nat} (hp : pos + 2 ≤ bs.size)
    (h : wordAt? bs pos = wordAt? bs' pos) (hk : k = pos ∨ k = pos + 1) : bs[k]? = bs'[k]? := by
  have hp' : pos + 2 ≤ bs'.size := by
    rw [← isSome_wordAt?, ← h, isSome_wordAt?]
    exact hp
  rw [wordAt?_eq_some hp, wordAt?_eq_some hp', Option.some.injEq] at h
  have hlo := congrArg Word.low h
  have hhi := congrArg Word.high h
  simp only [Word.low_ofBytes, Word.high_ofBytes] at hlo hhi
  rcases hk with rfl | rfl
  · rw [Array.getElem?_eq_getElem (by omega), Array.getElem?_eq_getElem (by omega), hlo]
  · rw [Array.getElem?_eq_getElem (by omega), Array.getElem?_eq_getElem (by omega), hhi]

/-- Byte strings that differ at most in a word are equal if the word is the same. -/
theorem eq_of_wordAt? {bs bs' : Array UInt8} (pos : Nat) (hp : pos + 2 ≤ bs.size)
    (hw : wordAt? bs pos = wordAt? bs' pos)
    (h : ∀ k, k ≠ pos → k ≠ pos + 1 → bs[k]? = bs'[k]?) : bs = bs' := by
  apply Array.ext_getElem?
  intro k
  by_cases hk : k = pos ∨ k = pos + 1
  · exact getElem?_of_wordAt? hp hw hk
  · exact h k (by omega) (by omega)

@[simp] theorem addWord_zero (bs : Array UInt8) (pos : Nat) : addWord bs pos 0 = bs := by
  by_cases h : pos + 2 ≤ bs.size
  · refine eq_of_wordAt? pos (by simpa using h) ?_ ?_
    · rw [wordAt?_addWord, wordAt?_eq_some h, Option.map_some, UInt16.add_zero]
    · intro k h0 h1
      exact getElem?_addWord_of_ne 0 h0 h1
  · exact addWord_of_lt 0 (by omega)

/-- Two patches at one position add up. -/
theorem addWord_addWord (bs : Array UInt8) (pos : Nat) (v w : UInt16) :
    addWord (addWord bs pos v) pos w = addWord bs pos (v + w) := by
  by_cases h : pos + 2 ≤ bs.size
  · refine eq_of_wordAt? pos (by simpa using h) ?_ ?_
    · rw [wordAt?_addWord, wordAt?_addWord, wordAt?_addWord, wordAt?_eq_some h]
      simp only [Option.map_some, UInt16.add_assoc]
    · intro k h0 h1
      rw [getElem?_addWord_of_ne w h0 h1, getElem?_addWord_of_ne v h0 h1,
        getElem?_addWord_of_ne (v + w) h0 h1]
  · rw [addWord_of_lt (v + w) (by omega), addWord_of_lt v (by omega), addWord_of_lt w (by omega)]

/-- Patches that lie apart may change places. -/
theorem addWord_comm {bs : Array UInt8} {p q : Patch} (h : p.Apart q) :
    addWord (addWord bs p.pos p.addend) q.pos q.addend =
      addWord (addWord bs q.pos q.addend) p.pos p.addend := by
  unfold Patch.Apart at h
  by_cases hp : p.pos + 2 ≤ bs.size
  · refine eq_of_wordAt? p.pos (by simpa using hp) ?_ ?_
    · rw [wordAt?_addWord_of_apart _ (by omega), wordAt?_addWord, wordAt?_addWord,
        wordAt?_addWord_of_apart _ (by omega)]
    · intro k h0 h1
      rw [getElem?_addWord_of_ne p.addend h0 h1]
      by_cases hk : k = q.pos ∨ k = q.pos + 1
      · by_cases hq : q.pos + 2 ≤ bs.size
        · refine getElem?_of_wordAt? (by simpa using hq) ?_ hk
          rw [wordAt?_addWord, wordAt?_addWord, wordAt?_addWord_of_apart _ (by omega)]
        · rw [addWord_of_lt q.addend (by simp; omega), addWord_of_lt q.addend (by omega),
            getElem?_addWord_of_ne p.addend h0 h1]
      · rw [getElem?_addWord_of_ne q.addend (by omega) (by omega),
          getElem?_addWord_of_ne p.addend h0 h1,
          getElem?_addWord_of_ne q.addend (by omega) (by omega)]
  · rw [addWord_of_lt p.addend (by omega), addWord_of_lt p.addend (by simp; omega)]

/-! ### Many patches -/

theorem getElem?_patched {bs : Array UInt8} {ps : List Patch} {k : Nat}
    (h : ∀ p ∈ ps, k ≠ p.pos ∧ k ≠ p.pos + 1) : (patched bs ps)[k]? = bs[k]? := by
  induction ps generalizing bs with
  | nil => rfl
  | cons p ps ih =>
    have hp := h p List.mem_cons_self
    rw [patched_cons, ih fun q hq => h q (List.mem_cons_of_mem _ hq),
      getElem?_addWord_of_ne _ hp.1 hp.2]

theorem wordAt?_patched_of_apart {bs : Array UInt8} {ps : List Patch} {k : Nat}
    (h : ∀ p ∈ ps, p.pos + 2 ≤ k ∨ k + 2 ≤ p.pos) : wordAt? (patched bs ps) k = wordAt? bs k := by
  refine wordAt?_congr (getElem?_patched fun p hp => ?_) (getElem?_patched fun p hp => ?_) <;>
    have := h p hp <;> omega

/-- **Each patch adds to the word that stood there**, whatever the other patches are, if they lie
apart. -/
theorem wordAt?_patched (bs : Array UInt8) {ps : List Patch} (h : ps.Pairwise Patch.Apart)
    {p : Patch} (hp : p ∈ ps) :
    wordAt? (patched bs ps) p.pos = (wordAt? bs p.pos).map (· + p.addend) := by
  induction ps generalizing bs with
  | nil => cases hp
  | cons q qs ih =>
    obtain ⟨hq, hqs⟩ := List.pairwise_cons.mp h
    rw [patched_cons]
    rcases List.mem_cons.mp hp with rfl | hp
    · rw [wordAt?_patched_of_apart fun r hr => ?_, wordAt?_addWord]
      have := hq r hr
      unfold Patch.Apart at this
      omega
    · have := hq p hp
      rw [ih _ hqs hp, wordAt?_addWord_of_apart _ this]

/-- **The order of patches that lie apart does not matter.** -/
theorem patched_perm {bs : Array UInt8} {ps qs : List Patch} (hp : ps.Pairwise Patch.Apart)
    (h : ps.Perm qs) : patched bs ps = patched bs qs := by
  refine List.Perm.foldl_eq' h ?_ bs
  intro p hp' q hq' z
  by_cases hpq : p = q
  · rw [hpq]
  · exact addWord_comm (hp.forall hp' hq' hpq)

/-- A patch that lies apart from others may come before them. -/
theorem addWord_patched (bs : Array UInt8) {p : Patch} {ps : List Patch}
    (h : ∀ q ∈ ps, p.Apart q) :
    addWord (patched bs ps) p.pos p.addend = patched (addWord bs p.pos p.addend) ps := by
  induction ps generalizing bs with
  | nil => rfl
  | cons q qs ih =>
    rw [patched_cons, ih _ fun r hr => h r (List.mem_cons_of_mem _ hr), patched_cons,
      addWord_comm (h q List.mem_cons_self)]

/-- Two rounds of patches at the same positions are one round with the sums. -/
theorem patched_patched {bs : Array UInt8} {α : Type} {rs : List α} (pos : α → Nat)
    (v w : α → UInt16) (h : rs.Pairwise fun r s => pos r + 2 ≤ pos s ∨ pos s + 2 ≤ pos r) :
    patched (patched bs (rs.map fun r => ⟨pos r, v r⟩)) (rs.map fun r => ⟨pos r, w r⟩) =
      patched bs (rs.map fun r => ⟨pos r, v r + w r⟩) := by
  induction rs generalizing bs with
  | nil => rfl
  | cons r rs ih =>
    obtain ⟨hr, hrs⟩ := List.pairwise_cons.mp h
    have hapart : ∀ q ∈ rs.map fun s => (⟨pos s, v s⟩ : Patch), Patch.Apart ⟨pos r, w r⟩ q := by
      intro q hq
      obtain ⟨s, hs, rfl⟩ := List.mem_map.mp hq
      exact hr s hs
    have hswap := addWord_patched (addWord bs (pos r) (v r)) hapart
    simp only [List.map_cons, patched_cons]
    rw [hswap, addWord_addWord, ih hrs]

/-! ### Joined byte strings -/

theorem wordAt?_append_left {as bs : Array UInt8} {pos : Nat} (h : pos + 2 ≤ as.size) :
    wordAt? (as ++ bs) pos = wordAt? as pos :=
  wordAt?_congr (Array.getElem?_append_left (by omega)) (Array.getElem?_append_left (by omega))

theorem wordAt?_append_right (as bs : Array UInt8) (pos : Nat) :
    wordAt? (as ++ bs) (as.size + pos) = wordAt? bs pos := by
  refine wordAt?_congr ?_ ?_
  · rw [Array.getElem?_append_right (by omega), Nat.add_sub_cancel_left]
  · rw [Array.getElem?_append_right (by omega), Nat.add_assoc, Nat.add_sub_cancel_left]

theorem addWord_append_left {as : Array UInt8} (bs : Array UInt8) {pos : Nat} (v : UInt16)
    (h : pos + 2 ≤ as.size) : addWord (as ++ bs) pos v = addWord as pos v ++ bs := by
  refine eq_of_wordAt? pos (by simp; omega) ?_ ?_
  · rw [wordAt?_addWord, wordAt?_append_left h, wordAt?_append_left (by simpa using h),
      wordAt?_addWord]
  · intro k h0 h1
    rw [getElem?_addWord_of_ne v h0 h1, Array.getElem?_append, Array.getElem?_append, size_addWord,
      getElem?_addWord_of_ne v h0 h1]

theorem addWord_append_right (as bs : Array UInt8) (pos : Nat) (v : UInt16) :
    addWord (as ++ bs) (as.size + pos) v = as ++ addWord bs pos v := by
  by_cases h : pos + 2 ≤ bs.size
  · refine eq_of_wordAt? (as.size + pos) (by simp; omega) ?_ ?_
    · rw [wordAt?_addWord, wordAt?_append_right, wordAt?_append_right, wordAt?_addWord]
    · intro k h0 h1
      rw [getElem?_addWord_of_ne v h0 h1, Array.getElem?_append, Array.getElem?_append]
      split
      · rfl
      · rw [getElem?_addWord_of_ne v (by omega) (by omega)]
  · rw [addWord_of_lt v (by simp; omega), addWord_of_lt v (by omega)]

theorem patched_append_left {as : Array UInt8} (bs : Array UInt8) {ps : List Patch}
    (h : ∀ p ∈ ps, p.pos + 2 ≤ as.size) : patched (as ++ bs) ps = patched as ps ++ bs := by
  induction ps generalizing as with
  | nil => rfl
  | cons p ps ih =>
    rw [patched_cons, addWord_append_left bs _ (h p List.mem_cons_self), ih fun q hq => ?_,
      patched_cons]
    simpa using h q (List.mem_cons_of_mem _ hq)

theorem patched_append_right (as bs : Array UInt8) (ps : List Patch) :
    patched (as ++ bs) (ps.map (Patch.shift as.size)) = as ++ patched bs ps := by
  induction ps generalizing bs with
  | nil => rfl
  | cons p ps ih =>
    rw [List.map_cons, patched_cons, patched_cons, ← ih, Patch.shift]
    exact congrArg (patched · _) (addWord_append_right as bs p.pos p.addend)

end Sx16
