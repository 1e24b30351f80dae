/-
# The rows of an image

The printer goes through the bytes of an image once. What it prints is one line for every row that
has a byte, in order, and in the line the bytes of the row up to its last one, where a missing byte
is a zero.

Key definitions: `Image.rows`, `Image.rowBytes`, `Image.rowLine`.
Key theorems: `Image.mem_rows`, `Image.pairwise_rows`, `Image.top_eq`, `Image.getElem?_rowBytes`,
`Image.getElem?_rowBytes_eq_none`, `Image.text_eq_unlines`.
-/
import Sx16.Image.Text
import Sx16.Proofs.Text.Lines

namespace Sx16
namespace Image

variable {m : Image} {a b : UInt16} {row i : Nat}

/-- The rows that have a byte, in order. -/
def rows (m : Image) : List Nat :=
  (m.cells.keys.map rowOf).eraseReps

/-- The bytes of a row from its start up to its last one; missing ones are zero. -/
def rowBytes (m : Image) (row : Nat) : List UInt8 :=
  let cells := (List.range rowSize).map fun i => m.get? (UInt16.ofNat (row * rowSize + i))
  (cells.reverse.dropWhile Option.isNone).reverse.map (·.getD 0)

/-- The line of a row. -/
def rowLine (m : Image) (row : Nat) : String :=
  Text.hex 4 (row * rowSize) ++ ":" ++ String.join ((m.rowBytes row).map byteText)

/-! ### Repeated entries -/

theorem eraseReps_loop (x : Nat) (l acc : List Nat) :
    List.eraseRepsBy.loop (fun y z => y == z) x l acc =
      acc.reverse ++ List.eraseRepsBy.loop (fun y z => y == z) x l [] := by
  induction l generalizing x acc with
  | nil => simp [List.eraseRepsBy.loop]
  | cons y l ih =>
    unfold List.eraseRepsBy.loop
    cases x == y with
    | true => exact ih x acc
    | false =>
      simp only
      rw [ih y (x :: acc), ih y [x], List.reverse_cons, List.append_assoc]
      rfl

theorem eraseReps_cons_cons (x y : Nat) (l : List Nat) :
    (x :: y :: l).eraseReps = if x = y then (y :: l).eraseReps else x :: (y :: l).eraseReps := by
  show List.eraseRepsBy.loop _ x (y :: l) [] = _
  rw [List.eraseRepsBy.loop]
  by_cases hxy : x = y
  · subst hxy
    rw [beq_self_eq_true, if_pos rfl]
    rfl
  · rw [beq_eq_false_iff_ne.mpr hxy, if_neg hxy]
    exact eraseReps_loop y l [x]

theorem mem_eraseReps (l : List Nat) : row ∈ l.eraseReps ↔ row ∈ l := by
  induction l with
  | nil => rfl
  | cons x l ih =>
    cases l with
    | nil => rfl
    | cons y l =>
      rw [eraseReps_cons_cons]
      split
      · rename_i hxy
        rw [ih, hxy]
        simp
      · rw [List.mem_cons, ih, List.mem_cons (b := x)]

/-- A list in order is left with each of its entries once. -/
theorem pairwise_eraseReps {l : List Nat} (h : l.Pairwise (· ≤ ·)) :
    l.eraseReps.Pairwise (· < ·) := by
  induction l with
  | nil => exact List.Pairwise.nil
  | cons x l ih =>
    obtain ⟨hx, hl⟩ := List.pairwise_cons.mp h
    cases l with
    | nil => exact List.pairwise_singleton _ x
    | cons y l =>
      rw [eraseReps_cons_cons]
      split
      · exact ih hl
      · rename_i hxy
        refine List.pairwise_cons.mpr ⟨fun z hz => ?_, ih hl⟩
        have hy : y ≤ z := by
          rcases List.mem_cons.mp ((mem_eraseReps _).mp hz) with rfl | hz
          · exact Nat.le_refl z
          · exact (List.pairwise_cons.mp hl).1 z hz
        have hxy' : x ≤ y := hx y List.mem_cons_self
        omega

theorem getLast?_eraseReps (l : List Nat) : l.eraseReps.getLast? = l.getLast? := by
  induction l with
  | nil => rfl
  | cons x l ih =>
    cases l with
    | nil => rfl
    | cons y l =>
      rw [eraseReps_cons_cons, List.getLast?_cons_cons, ← ih]
      split
      · rfl
      · have hne : (y :: l).eraseReps ≠ [] :=
          List.ne_nil_of_mem ((mem_eraseReps _).mpr (List.mem_cons_self (a := y)))
        obtain ⟨z, zs, hz⟩ := List.exists_cons_of_ne_nil hne
        rw [hz, List.getLast?_cons_cons]

/-! ### Rows -/

theorem mem_keys : a ∈ m.cells.keys ↔ (m.get? a).isSome = true := by
  rw [Std.ExtTreeMap.mem_keys]
  exact Std.ExtTreeMap.mem_iff_isSome_getElem?

/-- **The rows of an image** are those of its bytes. -/
theorem mem_rows : row ∈ m.rows ↔ ∃ a, (m.get? a).isSome = true ∧ rowOf a = row := by
  rw [rows, mem_eraseReps, List.mem_map]
  simp only [mem_keys]

theorem pairwise_rows (m : Image) : m.rows.Pairwise (· < ·) := by
  apply pairwise_eraseReps
  rw [List.pairwise_map]
  refine List.Pairwise.imp (fun {a b} hab => ?_) Std.ExtTreeMap.ordered_keys
  have hlt : a < b := Std.compare_eq_lt.mp hab
  exact Nat.div_le_div_right (Nat.le_of_lt (UInt16.lt_iff_toNat_lt.mp hlt))

theorem lt_of_mem_rows (h : row ∈ m.rows) : row < 0x2000 := by
  obtain ⟨a, -, rfl⟩ := mem_rows.mp h
  have ha := a.toNat_lt
  unfold rowOf rowSize
  omega

theorem top_eq (m : Image) : m.top = (m.rows.getLast?.elim 0 fun row => (row + 1) * rowSize) := by
  rw [rows, getLast?_eraseReps, List.getLast?_map, top, Std.ExtTreeMap.maxKey?_eq_getLast?_keys]
  cases m.cells.keys.getLast? <;> rfl

/-- An image whose bytes are below an address ends with the row there. -/
theorem top_le {n : Nat} (h : ∀ a, (m.get? a).isSome = true → a.toNat < n) : m.top ≤ n + 7 := by
  rw [top_eq]
  cases hlast : m.rows.getLast? with
  | none => exact Nat.zero_le _
  | some row =>
    obtain ⟨a, ha, rfl⟩ := mem_rows.mp (List.mem_of_getLast? hlast)
    have hlt := h a ha
    show (a.toNat / 8 + 1) * 8 ≤ n + 7
    omega

/-! ### The bytes of a row -/

/-- A list is what is left without the missing entries at its end, and those. -/
theorem exists_eq_dropMissing_append {α : Type} (cs : List (Option α)) :
    ∃ t, cs = (cs.reverse.dropWhile Option.isNone).reverse ++ t ∧ ∀ o ∈ t, o = none := by
  refine ⟨(cs.reverse.takeWhile Option.isNone).reverse, ?_, fun o ho => ?_⟩
  · rw [← List.reverse_append, List.takeWhile_append_dropWhile, List.reverse_reverse]
  · exact Option.isNone_iff_eq_none.mp (List.all_eq_true.mp List.all_takeWhile o (List.mem_reverse.mp ho))

/-- An entry is left if there is a byte at it or after it. -/
theorem getElem?_dropMissing {α : Type} {cs : List (Option α)} {i j : Nat} {v : α} (hij : i ≤ j)
    (hj : cs[j]? = some (some v)) : (cs.reverse.dropWhile Option.isNone).reverse[i]? = cs[i]? := by
  obtain ⟨t, hcs, ht⟩ := exists_eq_dropMissing_append cs
  generalize (cs.reverse.dropWhile Option.isNone).reverse = kept at hcs ⊢
  have hlt : j < kept.length := by
    apply Nat.lt_of_not_le
    intro hle
    rw [hcs, List.getElem?_append_right hle] at hj
    exact nomatch ht _ (List.mem_of_getElem? hj)
  rw [hcs, List.getElem?_append_left (by omega)]

/-- No entry is left where only missing ones follow. -/
theorem getElem?_dropMissing_eq_none {α : Type} {cs : List (Option α)} {i : Nat}
    (h : ∀ j, i ≤ j → ∀ v, cs[j]? ≠ some (some v)) :
    (cs.reverse.dropWhile Option.isNone).reverse[i]? = none := by
  obtain ⟨t, hcs, -⟩ := exists_eq_dropMissing_append cs
  have hlast : ∀ o ∈ (cs.reverse.dropWhile Option.isNone).reverse.getLast?, o.isNone = false := by
    intro o ho
    have hnot := List.head?_dropWhile_not Option.isNone cs.reverse
    rw [List.getLast?_reverse] at ho
    rwa [Option.mem_def.mp ho] at hnot
  generalize (cs.reverse.dropWhile Option.isNone).reverse = kept at hcs hlast ⊢
  apply List.getElem?_eq_none
  apply Nat.le_of_not_lt
  intro hlt
  have hk : kept.length - 1 < kept.length := by omega
  -- The last entry that is left would be a byte.
  have hkept : kept.getLast? = some kept[kept.length - 1] := by
    rw [List.getLast?_eq_getElem?, List.getElem?_eq_getElem hk]
  obtain ⟨v, hv⟩ := Option.isSome_iff_exists.mp (Option.isNone_eq_false_iff.mp (hlast _ hkept))
  refine h (kept.length - 1) (by omega) v ?_
  rw [hcs, List.getElem?_append_left hk, List.getElem?_eq_getElem hk, hv]

theorem toNat_bounds (a : UInt16) :
    rowOf a * rowSize ≤ a.toNat ∧ a.toNat + 1 ≤ (rowOf a + 1) * rowSize := by
  unfold rowOf rowSize
  omega

theorem le_rowOf (h : row * rowSize ≤ a.toNat) : row ≤ rowOf a :=
  (Nat.le_div_iff_mul_le (by decide)).mpr h

theorem rowOf_lt (h : a.toNat < row * rowSize) : rowOf a < row :=
  (Nat.div_lt_iff_lt_mul (by decide)).mpr h

theorem toNat_le (h : row ≤ rowOf a) : row * rowSize ≤ a.toNat :=
  (Nat.le_div_iff_mul_le (by decide)).mp h

theorem getElem?_cells (hrow : rowOf b = row) :
    ((List.range rowSize).map fun i => m.get? (UInt16.ofNat (row * rowSize + i)))[b.toNat % rowSize]? =
      some (m.get? b) := by
  have hlt : b.toNat % rowSize < rowSize := Nat.mod_lt _ (by decide)
  have hb : rowOf b * rowSize + b.toNat % rowSize = b.toNat := Nat.div_add_mod' b.toNat rowSize
  rw [List.getElem?_map, List.getElem?_range hlt, Option.map_some, ← hrow, hb, UInt16.ofNat_toNat]

/-- An address at a position of a row. -/
theorem exists_address (hrow : row < 0x2000) (hi : i < rowSize) :
    ∃ a, rowOf a = row ∧ a.toNat % rowSize = i ∧ a.toNat = row * rowSize + i := by
  have hi' : i < 8 := hi
  have ha : (UInt16.ofNat (row * rowSize + i)).toNat = row * rowSize + i := by
    rw [UInt16.toNat_ofNat']
    apply Nat.mod_eq_of_lt
    unfold rowSize
    omega
  refine ⟨UInt16.ofNat (row * rowSize + i), ?_, ?_, ha⟩
  · unfold rowOf
    rw [ha]
    unfold rowSize
    omega
  · rw [ha]
    unfold rowSize
    omega

theorem length_rowBytes_le (m : Image) (row : Nat) : (m.rowBytes row).length ≤ rowSize := by
  unfold rowBytes
  rw [List.length_map, List.length_reverse]
  refine Nat.le_trans (List.dropWhile_sublist _).length_le (Nat.le_of_eq ?_)
  rw [List.length_reverse, List.length_map, List.length_range]

/-- **A byte of a row** up to its last one. -/
theorem getElem?_rowBytes (hb : (m.get? b).isSome = true) (hab : a.toNat ≤ b.toNat)
    (hrow : rowOf a = rowOf b) :
    (m.rowBytes (rowOf a))[a.toNat % rowSize]? = some ((m.get? a).getD 0) := by
  obtain ⟨v, hv⟩ := Option.isSome_iff_exists.mp hb
  have hj := getElem?_cells (m := m) hrow.symm
  rw [hv] at hj
  have hij : a.toNat % rowSize ≤ b.toNat % rowSize := by
    unfold rowOf rowSize at hrow
    unfold rowSize
    omega
  unfold rowBytes
  simp only
  rw [List.getElem?_map, getElem?_dropMissing hij hj, getElem?_cells rfl, Option.map_some]

/-- A row ends with its last byte. -/
theorem getElem?_rowBytes_eq_none
    (h : ∀ b, a.toNat ≤ b.toNat → rowOf a = rowOf b → m.get? b = none) :
    (m.rowBytes (rowOf a))[a.toNat % rowSize]? = none := by
  unfold rowBytes
  simp only
  rw [List.getElem?_map, Option.map_eq_none_iff]
  refine getElem?_dropMissing_eq_none fun j hj v hv => ?_
  have hlt : j < rowSize := by
    apply Nat.lt_of_not_le
    intro hle
    rw [List.getElem?_eq_none (by simpa using hle)] at hv
    cases hv
  have hrow : rowOf a < 0x2000 := by
    have ha := a.toNat_lt
    unfold rowOf rowSize
    omega
  obtain ⟨b, hb, rfl, hab⟩ := exists_address hrow hlt
  rw [getElem?_cells hb] at hv
  have ha : rowOf a * rowSize + a.toNat % rowSize = a.toNat := Nat.div_add_mod' a.toNat rowSize
  rw [h b (by omega) hb.symm] at hv
  cases hv

/-! ### What the printer prints -/

theorem eq_of_mem_iff {l l' : List Nat} (h : l.Pairwise (· < ·)) (h' : l'.Pairwise (· < ·))
    (hmem : ∀ x, x ∈ l ↔ x ∈ l') : l = l' := by
  have hnodup : ∀ {l : List Nat}, l.Pairwise (· < ·) → l.Nodup := fun h =>
    h.imp fun {x y} hlt => Nat.ne_of_lt hlt
  have hperm : l.Perm l' := (List.perm_ext_iff_of_nodup (hnodup h) (hnodup h')).mpr hmem
  exact hperm.eq_of_pairwise (fun x y _ _ hlt hlt' => absurd hlt (Nat.lt_asymm hlt')) h h'

/-- The rows from a number on. -/
def rowsFrom (m : Image) (row : Nat) : List Nat :=
  m.rows.filter fun r => row ≤ r

theorem rowsFrom_zero (m : Image) : m.rowsFrom 0 = m.rows :=
  List.filter_eq_self.mpr fun r _ => decide_eq_true (Nat.zero_le r)

theorem rowsFrom_eq_nil (h : ∀ a, (m.get? a).isSome = true → rowOf a < row) :
    m.rowsFrom row = [] := by
  refine List.filter_eq_nil_iff.mpr fun r hr => ?_
  obtain ⟨a, ha, rfl⟩ := mem_rows.mp hr
  have hlt := h a ha
  simpa using hlt

/-- The first row from a number on. -/
theorem rowsFrom_eq_cons (ha : (m.get? a).isSome = true) (hrow : row ≤ rowOf a)
    (hfirst : ∀ b, (m.get? b).isSome = true → row ≤ rowOf b → rowOf a ≤ rowOf b) :
    m.rowsFrom row = rowOf a :: m.rowsFrom (rowOf a + 1) := by
  refine eq_of_mem_iff (m.pairwise_rows.filter _) ?_ fun r => ?_
  · refine List.pairwise_cons.mpr ⟨fun r hr => ?_, m.pairwise_rows.filter _⟩
    exact of_decide_eq_true (List.mem_filter.mp hr).2
  · have hle : r ∈ m.rows → row ≤ r → rowOf a ≤ r := by
      intro hr hrow
      obtain ⟨b, hb, rfl⟩ := mem_rows.mp hr
      exact hfirst b hb hrow
    have hmem : rowOf a ∈ m.rows := mem_rows.mpr ⟨a, ha, rfl⟩
    rw [rowsFrom, rowsFrom, List.mem_cons, List.mem_filter, List.mem_filter, decide_eq_true_eq,
      decide_eq_true_eq]
    constructor
    · rintro ⟨hr, hrow⟩
      rcases Nat.eq_or_lt_of_le (hle hr hrow) with heq | hlt
      · exact Or.inl heq.symm
      · exact Or.inr ⟨hr, hlt⟩
    · rintro (rfl | ⟨hr, hlt⟩)
      · exact ⟨hmem, hrow⟩
      · exact ⟨hr, by omega⟩

/-- The bytes of a row from an address on. -/
def bytesFrom (m : Image) (row next : Nat) : List UInt8 :=
  (m.rowBytes row).drop (next - row * rowSize)

theorem bytesFrom_start (m : Image) (row : Nat) : m.bytesFrom row (row * rowSize) = m.rowBytes row := by
  rw [bytesFrom, Nat.sub_self, List.drop_zero]

theorem bytesFrom_eq_nil {next : Nat} (hrow : row < 0x2000) (hnext : row * rowSize ≤ next)
    (h : ∀ b, next ≤ b.toNat → rowOf b = row → m.get? b = none) : m.bytesFrom row next = [] := by
  rw [bytesFrom, List.drop_eq_nil_iff]
  by_cases hi : next - row * rowSize < rowSize
  · obtain ⟨a, rfl, hia, ha⟩ := exists_address hrow hi
    rw [← hia]
    refine List.getElem?_eq_none_iff.mp (getElem?_rowBytes_eq_none fun b hab hrowb => ?_)
    exact h b (by omega) hrowb.symm
  · exact Nat.le_trans (length_rowBytes_le m row) (Nat.le_of_not_lt hi)

theorem bytesFrom_eq_cons (hb : (m.get? b).isSome = true) (hab : a.toNat ≤ b.toNat)
    (hrow : rowOf a = rowOf b) :
    m.bytesFrom (rowOf a) a.toNat = (m.get? a).getD 0 :: m.bytesFrom (rowOf a) (a.toNat + 1) := by
  have hsub : a.toNat - rowOf a * rowSize = a.toNat % rowSize := by
    unfold rowOf rowSize
    omega
  have hsucc : a.toNat + 1 - rowOf a * rowSize = a.toNat % rowSize + 1 := by
    unfold rowOf rowSize
    omega
  obtain ⟨hlt, hbyte⟩ := List.getElem?_eq_some_iff.mp (getElem?_rowBytes hb hab hrow)
  rw [bytesFrom, bytesFrom, hsub, hsucc, List.drop_eq_getElem_cons hlt, hbyte]

/-- Zeros up to the next byte of a row. -/
theorem bytesFrom_eq_replicate_append {v : UInt8} (hb : m.get? b = some v) {next : Nat}
    (hnext : rowOf b * rowSize ≤ next) (hle : next ≤ b.toNat)
    (hgap : ∀ a, next ≤ a.toNat → a.toNat < b.toNat → m.get? a = none) :
    m.bytesFrom (rowOf b) next =
      List.replicate (b.toNat - next) 0 ++ v :: m.bytesFrom (rowOf b) (b.toNat + 1) := by
  have hsome := Option.isSome_of_eq_some hb
  generalize hn : b.toNat - next = n
  induction n generalizing next with
  | zero =>
    obtain rfl : next = b.toNat := by omega
    rw [bytesFrom_eq_cons hsome (Nat.le_refl _) rfl, hb]
    rfl
  | succ n ih =>
    have hi : next - rowOf b * rowSize < rowSize := by
      unfold rowOf rowSize at *
      omega
    have hrow : rowOf b < 0x2000 := lt_of_mem_rows (mem_rows.mpr ⟨b, hsome, rfl⟩)
    obtain ⟨a, hrowa, -, ha⟩ := exists_address hrow hi
    obtain rfl : a.toNat = next := by omega
    rw [← hrowa, bytesFrom_eq_cons hsome hle hrowa, hgap a (Nat.le_refl _) (by omega), hrowa,
      ih (by omega) (by omega) (fun c hc => hgap c (by omega)) (by omega)]
    rfl

/-- The bytes of an image from an address on, in order. -/
structure From (m : Image) (next : Nat) (cs : List (UInt16 × UInt8)) : Prop where
  ordered : cs.Pairwise fun p q => p.1.toNat < q.1.toNat
  mem_iff : ∀ a v, (a, v) ∈ cs ↔ m.get? a = some v ∧ next ≤ a.toNat

namespace From

variable {next : Nat} {v : UInt8} {cs : List (UInt16 × UInt8)}

theorem toList (m : Image) : m.From 0 m.toList where
  ordered := Std.ExtTreeMap.ordered_keys_toList.imp fun {p q} hpq =>
    UInt16.lt_iff_toNat_lt.mp (Std.compare_eq_lt.mp hpq)
  mem_iff a v := by
    rw [Image.toList, Std.ExtTreeMap.mem_toList_iff_getElem?_eq_some]
    exact ⟨fun h => ⟨h, Nat.zero_le _⟩, And.left⟩

theorem head (h : m.From next ((a, v) :: cs)) : m.get? a = some v ∧ next ≤ a.toNat :=
  (h.mem_iff a v).mp List.mem_cons_self

theorem le (h : m.From next ((a, v) :: cs)) (hb : (m.get? b).isSome = true) (hnext : next ≤ b.toNat) :
    a.toNat ≤ b.toNat := by
  obtain ⟨w, hw⟩ := Option.isSome_iff_exists.mp hb
  rcases List.mem_cons.mp ((h.mem_iff b w).mpr ⟨hw, hnext⟩) with heq | hmem
  · exact Nat.le_of_eq (congrArg (fun p => p.1.toNat) heq.symm)
  · exact Nat.le_of_lt ((List.pairwise_cons.mp h.ordered).1 _ hmem)

theorem tail (h : m.From next ((a, v) :: cs)) : m.From (a.toNat + 1) cs where
  ordered := (List.pairwise_cons.mp h.ordered).2
  mem_iff b w := by
    constructor
    · intro hmem
      have hlt : a.toNat < b.toNat := (List.pairwise_cons.mp h.ordered).1 _ hmem
      exact ⟨((h.mem_iff b w).mp (List.mem_cons_of_mem _ hmem)).1, hlt⟩
    · rintro ⟨hw, hlt⟩
      have hle := h.head.2
      rcases List.mem_cons.mp ((h.mem_iff b w).mpr ⟨hw, by omega⟩) with heq | hmem
      · have hab : b = a := congrArg Prod.fst heq
        rw [hab] at hlt
        omega
      · exact hmem

/-- The bytes from the start of the first one's row on. -/
theorem startOfRow (h : m.From next ((a, v) :: cs)) (hnext : next ≤ rowOf a * rowSize) :
    m.From (rowOf a * rowSize) ((a, v) :: cs) where
  ordered := h.ordered
  mem_iff b w := by
    constructor
    · intro hmem
      obtain ⟨hw, hb⟩ := (h.mem_iff b w).mp hmem
      exact ⟨hw, Nat.le_trans (toNat_bounds a).1 (h.le (Option.isSome_of_eq_some hw) hb)⟩
    · rintro ⟨hw, hb⟩
      exact (h.mem_iff b w).mpr ⟨hw, Nat.le_trans hnext hb⟩

end From

/-- The line of a row in pieces. -/
def rowPieces (m : Image) (row : Nat) : List String :=
  Text.hex 4 (row * rowSize) :: ":" :: (m.rowBytes row).map byteText ++ ["\n"]

theorem zeros_eq (start stop : Nat) :
    zeros start stop = (List.replicate (stop - start) (0 : UInt8)).map byteText := by
  rw [List.map_replicate]
  rfl

variable {next : Nat} {v : UInt8} {cs : List (UInt16 × UInt8)}

/-- The bytes of a row up to the next one. -/
theorem map_bytesFrom (h : m.From next ((a, v) :: cs)) (hnext : rowOf a * rowSize ≤ next) :
    (m.bytesFrom (rowOf a) next).map byteText = zeros next a.toNat ++
      byteText v :: (m.bytesFrom (rowOf a) (a.toNat + 1)).map byteText := by
  obtain ⟨ha, hle⟩ := h.head
  have hgap : ∀ b, next ≤ b.toNat → b.toNat < a.toNat → m.get? b = none := by
    intro b hb hlt
    apply Option.not_isSome_iff_eq_none.mp
    exact fun hsome => absurd (h.le hsome hb) (Nat.not_le.mpr hlt)
  rw [bytesFrom_eq_replicate_append ha hnext hle hgap, List.map_append, List.map_cons, zeros_eq]

/-- A new line, if the rest of it is printed as it should be. -/
theorem pieces_row (h : m.From (rowOf a * rowSize) ((a, v) :: cs))
    (hrest : pieces (some (rowOf a * rowSize)) (a.toNat + 1) cs =
      (m.bytesFrom (rowOf a) (a.toNat + 1)).map byteText ++
        "\n" :: (m.rowsFrom (rowOf a + 1)).flatMap m.rowPieces) :
    Text.hex 4 (rowOf a * rowSize) :: ":" :: zeros (rowOf a * rowSize) a.toNat ++ byteText v ::
        pieces (some (rowOf a * rowSize)) (max (rowOf a * rowSize) a.toNat + 1) cs =
      (rowOf a :: m.rowsFrom (rowOf a + 1)).flatMap m.rowPieces := by
  have hmax : max (rowOf a * rowSize) a.toNat = a.toNat := Nat.max_eq_right h.head.2
  rw [hmax, hrest, List.flatMap_cons, rowPieces, ← bytesFrom_start, map_bytesFrom h (Nat.le_refl _)]
  simp only [List.cons_append, List.append_assoc, List.nil_append]

/-- What is printed in a line from some address on: the bytes up to the end of the row, and the lines
of all later rows. -/
theorem pieces_some (h : m.From next cs) (hrow : row < 0x2000) (hlo : row * rowSize ≤ next)
    (hhi : next ≤ (row + 1) * rowSize) :
    pieces (some (row * rowSize)) next cs =
      (m.bytesFrom row next).map byteText ++ "\n" :: (m.rowsFrom (row + 1)).flatMap m.rowPieces := by
  induction cs generalizing row next with
  | nil =>
    have hnone : ∀ b, (m.get? b).isSome = true → b.toNat < next := by
      intro b hb
      obtain ⟨w, hw⟩ := Option.isSome_iff_exists.mp hb
      exact Nat.lt_of_not_le fun hle => absurd ((h.mem_iff b w).mpr ⟨hw, hle⟩) List.not_mem_nil
    have hbytes : m.bytesFrom row next = [] := bytesFrom_eq_nil hrow hlo fun b hb _ =>
      Option.not_isSome_iff_eq_none.mp fun hsome => absurd (hnone b hsome) (Nat.not_lt.mpr hb)
    have hrows : m.rowsFrom (row + 1) = [] := by
      refine rowsFrom_eq_nil fun b hb => ?_
      exact rowOf_lt (Nat.lt_of_lt_of_le (hnone b hb) hhi)
    rw [hbytes, hrows]
    rfl
  | cons p cs ih =>
    obtain ⟨a, v⟩ := p
    obtain ⟨ha, hle⟩ := h.head
    have hsome := Option.isSome_of_eq_some ha
    have hrowa : rowOf a < 0x2000 := lt_of_mem_rows (mem_rows.mpr ⟨a, hsome, rfl⟩)
    obtain ⟨hstart, hstop⟩ := toNat_bounds a
    have hrest := ih h.tail hrowa (by omega) hstop
    by_cases heq : row = rowOf a
    · subst heq
      have hmax : max next a.toNat = a.toNat := Nat.max_eq_right hle
      unfold pieces
      simp only [if_true]
      rw [hmax, hrest, map_bytesFrom h hlo, List.append_assoc, List.cons_append]
    · -- The row is at its end, and the byte begins the next one.
      have hlt : row < rowOf a := by
        have hge : row ≤ rowOf a := le_rowOf (Nat.le_trans hlo hle)
        omega
      have hbegin : next ≤ rowOf a * rowSize := Nat.le_trans hhi (Nat.mul_le_mul_right rowSize hlt)
      have hbytes : m.bytesFrom row next = [] := by
        refine bytesFrom_eq_nil hrow hlo fun b hb hrowb => ?_
        apply Option.not_isSome_iff_eq_none.mp
        intro hsomeb
        have hab : rowOf a ≤ rowOf b := Nat.div_le_div_right (h.le hsomeb hb)
        omega
      have hrows : m.rowsFrom (row + 1) = rowOf a :: m.rowsFrom (rowOf a + 1) := by
        refine rowsFrom_eq_cons hsome hlt fun b hb hrowb => ?_
        have hnext : next ≤ b.toNat := Nat.le_trans hhi (toNat_le hrowb)
        exact Nat.div_le_div_right (h.le hb hnext)
      have hne : ¬ some (row * rowSize) = some (rowOf a * rowSize) := by
        intro hline
        have hmul : row * rowSize = rowOf a * rowSize := Option.some.inj hline
        exact heq (Nat.eq_of_mul_eq_mul_right (by decide) hmul)
      unfold pieces
      simp only
      rw [if_neg hne, hbytes, hrows, ← pieces_row (h.startOfRow hbegin) hrest]
      rfl

/-- The pieces are those of the lines of all rows. -/
theorem pieces_none (m : Image) : pieces none 0 m.toList = m.rows.flatMap m.rowPieces := by
  have h := From.toList m
  rw [← rowsFrom_zero]
  generalize m.toList = cs at h
  cases cs with
  | nil =>
    have hrows : m.rowsFrom 0 = [] := by
      refine rowsFrom_eq_nil fun b hb => ?_
      obtain ⟨w, hw⟩ := Option.isSome_iff_exists.mp hb
      exact absurd ((h.mem_iff b w).mpr ⟨hw, Nat.zero_le _⟩) List.not_mem_nil
    rw [hrows]
    rfl
  | cons p cs =>
    obtain ⟨a, v⟩ := p
    have hsome := Option.isSome_of_eq_some h.head.1
    obtain ⟨hstart, hstop⟩ := toNat_bounds a
    have hrest := pieces_some h.tail (lt_of_mem_rows (mem_rows.mpr ⟨a, hsome, rfl⟩)) (by omega) hstop
    have hrows : m.rowsFrom 0 = rowOf a :: m.rowsFrom (rowOf a + 1) :=
      rowsFrom_eq_cons hsome (Nat.zero_le _) fun b hb _ =>
        Nat.div_le_div_right (h.le hb (Nat.zero_le _))
    rw [hrows, ← pieces_row (h.startOfRow (Nat.zero_le _)) hrest]
    rfl

/-- **The text of an image** is made of the lines of its rows. -/
theorem text_eq_unlines (m : Image) : m.text = Text.unlines (m.rows.map m.rowLine) := by
  have hline : ∀ row, (m.rowPieces row).flatMap String.toList = (m.rowLine row).toList ++ ['\n'] := by
    intro row
    simp [rowPieces, rowLine]
  apply String.toList_injective
  calc m.text.toList
      = m.rows.flatMap fun row => (m.rowPieces row).flatMap String.toList := by
        rw [text, pieces_none, Text.toList_join, List.flatMap_assoc]
    _ = m.rows.flatMap fun row => (m.rowLine row).toList ++ ['\n'] :=
        congrArg (m.rows.flatMap ·) (funext hline)
    _ = (Text.unlines (m.rows.map m.rowLine)).toList := by
        rw [Text.toList_unlines, List.flatMap_map, List.flatMap_map]

end Image
end Sx16
