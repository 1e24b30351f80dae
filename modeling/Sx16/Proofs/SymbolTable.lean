/-
# Tables with one symbol per name

In a tidy table no two symbols have the same name, and a symbol's number is its position. On a tidy
table the three ways to reach a symbol agree: by name, by id and by number. Making a name known and
changing the symbol of a name keep a table tidy, and change what that name stands for and nothing
else. Where all symbols of a table are changed, and different names stay different, every operation is
carried along.

Key definitions: `SymbolTable.Tidy`, `SymbolTable.change`, `SymbolTable.nameOf?`,
`SymbolTable.Carries`.
Key theorems: `SymbolTable.Tidy.get?_eq_some_iff`, `SymbolTable.Tidy.byNumber?_eq`,
`SymbolTable.Tidy.get?_change`, `SymbolTable.Tidy.get?_insert`, `SymbolTable.Carries.map_change`.
-/
import Sx16.Object.Symbol

namespace Sx16
namespace SymbolTable

/-- Distinct names. -/
structure Distinct (t : SymbolTable) : Prop where
  inj : ∀ {i j s s'}, t.byId? i = some s → t.byId? j = some s' → s.name = s'.name → i = j

/-- Distinct names, and numbers that are positions. -/
structure Tidy (t : SymbolTable) : Prop where
  number : ∀ {i s}, t.byId? i = some s → s.number = i
  inj : ∀ {i j s s'}, t.byId? i = some s → t.byId? j = some s' → s.name = s'.name → i = j

/-- The name of the symbol with an id. -/
def nameOf? (t : SymbolTable) (id : Nat) : Option String := (t.byId? id).map Symbol.name

/-- The symbol that a name gets when it is first mentioned. -/
def fresh (t : SymbolTable) (name : String) : Symbol := { name, number := t.size }

/-- The symbol that a name gets when a section of that name begins. -/
def freshSection (t : SymbolTable) (name : String) : Symbol :=
  { name, number := t.size, owner := t.size, exported := true, imported := true, size := some 0 }

/-- What a name stands for, or will stand for once it is mentioned. -/
def meaning (t : SymbolTable) (name : String) : Symbol := (t.get? name).getD (t.fresh name)

/-- The table with the symbol of a name changed; an unknown name is made known first. -/
def change (t : SymbolTable) (name : String) (f : Symbol → Symbol) : SymbolTable :=
  (t.intern name).1.modify (t.intern name).2 f

variable {t : SymbolTable} {name : String} {i : Nat} {s : Symbol}

/-! ### Looking up -/

theorem lastBelow_eq_some {arena : Array Symbol} {n : Nat}
    (h : lastBelow arena name n = some i) : ∃ s, arena[i]? = some s ∧ s.name = name := by
  induction n with
  | zero => cases h
  | succ n ih =>
    unfold lastBelow at h
    split at h
    · rename_i hn
      cases h
      cases hs : arena[i]? with
      | none => simp [hs] at hn
      | some s => exact ⟨s, rfl, by simpa [hs] using hn⟩
    · exact ih h

theorem lastBelow_eq_none {arena : Array Symbol} {n : Nat} (h : lastBelow arena name n = none)
    (hi : i < n) (hs : arena[i]? = some s) : s.name ≠ name := by
  induction n with
  | zero => cases hi
  | succ n ih =>
    unfold lastBelow at h
    split at h
    · cases h
    · rename_i hn
      rcases Nat.lt_succ_iff_lt_or_eq.mp hi with hlt | rfl
      · exact ih h hlt
      · simpa [hs] using hn

theorem byId?_lt (h : t.byId? i = some s) : i < t.size :=
  (Array.getElem?_eq_some_iff.mp h).1

theorem mem_toList_iff : s ∈ t.toList ↔ ∃ i, t.byId? i = some s := by
  unfold toList byId?
  rw [Array.mem_toList_iff, Array.mem_iff_getElem?]

theorem id?_eq_some (h : t.id? name = some i) : ∃ s, t.byId? i = some s ∧ s.name = name :=
  lastBelow_eq_some h

theorem id?_eq_none (h : t.id? name = none) (hs : t.byId? i = some s) : s.name ≠ name :=
  lastBelow_eq_none h (byId?_lt hs) hs

theorem get?_eq_some (h : t.get? name = some s) :
    ∃ i, t.id? name = some i ∧ t.byId? i = some s ∧ s.name = name := by
  obtain ⟨i, hi, hs⟩ := Option.bind_eq_some_iff.mp h
  obtain ⟨s', hs', hname⟩ := id?_eq_some hi
  obtain rfl : s' = s := Option.some.inj (hs'.symm.trans hs)
  exact ⟨i, hi, hs', hname⟩

theorem get?_eq_none_iff : t.get? name = none ↔ t.id? name = none := by
  refine ⟨fun h => ?_, fun h => by rw [get?, h]; rfl⟩
  cases hi : t.id? name with
  | none => rfl
  | some i =>
    obtain ⟨s, hs, -⟩ := id?_eq_some hi
    simp [get?, hi, hs] at h

theorem contains_eq_isSome (t : SymbolTable) (name : String) :
    t.contains name = (t.get? name).isSome := by
  unfold contains
  cases h : t.id? name with
  | none => rw [get?_eq_none_iff.mpr h]; rfl
  | some i =>
    obtain ⟨s, hs, -⟩ := id?_eq_some h
    simp [get?, h, hs]

theorem distinct_of_nodup (h : (t.toList.map Symbol.name).Nodup) : t.Distinct where
  inj {i j s s'} hs hs' hname := by
    have hget : ∀ {k a}, t.byId? k = some a → (t.toList.map Symbol.name)[k]? = some a.name := by
      intro k a ha
      rw [List.getElem?_map, toList, Array.getElem?_toList]
      exact congrArg (Option.map Symbol.name) ha
    have hi : i < (t.toList.map Symbol.name).length := (List.getElem?_eq_some_iff.mp (hget hs)).1
    exact (List.getElem?_inj hi h).mp (by rw [hget hs, hget hs', hname])

namespace Distinct

theorem id?_eq_some_iff (ht : t.Distinct) :
    t.id? name = some i ↔ ∃ s, t.byId? i = some s ∧ s.name = name := by
  refine ⟨id?_eq_some, fun ⟨s, hs, hname⟩ => ?_⟩
  cases h : t.id? name with
  | none => exact absurd hname (id?_eq_none h hs)
  | some j =>
    obtain ⟨s', hs', hname'⟩ := id?_eq_some h
    rw [ht.inj hs' hs (hname'.trans hname.symm)]

theorem get?_eq_some_iff (ht : t.Distinct) :
    t.get? name = some s ↔ s ∈ t.toList ∧ s.name = name := by
  rw [mem_toList_iff]
  refine ⟨fun h => ?_, fun ⟨⟨i, hi⟩, hname⟩ => ?_⟩
  · obtain ⟨i, -, hi, hname⟩ := get?_eq_some h
    exact ⟨⟨i, hi⟩, hname⟩
  · rw [get?, ht.id?_eq_some_iff.mpr ⟨s, hi, hname⟩]
    exact hi

theorem nodup_names (ht : t.Distinct) : (t.toList.map Symbol.name).Nodup := by
  rw [List.nodup_iff_pairwise_ne, List.pairwise_map, List.pairwise_iff_getElem]
  intro i j hi hj hij hne
  have h : ∀ k, (hk : k < t.toList.length) → t.byId? k = some t.toList[k] := fun k hk =>
    (@Array.getElem?_toList _ t.arena _).symm.trans (List.getElem?_eq_getElem hk)
  exact absurd (ht.inj (h i hi) (h j hj) hne) (Nat.ne_of_lt hij)

end Distinct

namespace Tidy

theorem distinct (ht : t.Tidy) : t.Distinct := ⟨ht.inj⟩

theorem get?_eq_some_iff (ht : t.Tidy) : t.get? name = some s ↔ s ∈ t.toList ∧ s.name = name :=
  ht.distinct.get?_eq_some_iff

theorem nodup_names (ht : t.Tidy) : (t.toList.map Symbol.name).Nodup := ht.distinct.nodup_names

theorem get?_of_byId? (ht : t.Tidy) (h : t.byId? i = some s) : t.get? s.name = some s :=
  ht.get?_eq_some_iff.mpr ⟨mem_toList_iff.mpr ⟨i, h⟩, rfl⟩

/-- A number stands for the symbol at its position. -/
theorem byNumber?_eq (ht : t.Tidy) (n : Nat) : t.byNumber? n = t.byId? n := by
  cases h : t.byNumber? n with
  | some s =>
    obtain ⟨i, hi⟩ := Array.mem_iff_getElem?.mp (Array.mem_of_find?_eq_some h)
    have hn : s.number = n := by simpa using Array.find?_some h
    rw [← hn, ht.number hi]
    exact hi.symm
  | none =>
    cases h' : t.byId? n with
    | none => rfl
    | some s =>
      have := Array.find?_eq_none.mp h s (Array.mem_iff_getElem?.mpr ⟨n, h'⟩)
      exact absurd (ht.number h') (by simpa using this)

theorem byNumber?_of_get? (ht : t.Tidy) (h : t.get? name = some s) :
    t.byNumber? s.number = some s := by
  obtain ⟨i, -, hi, -⟩ := get?_eq_some h
  rw [ht.byNumber?_eq, ht.number hi, hi]

end Tidy

/-! ### The table with the reserved symbol alone -/

theorem byId?_new : new.byId? i = some s ↔ i = 0 ∧ s = Symbol.undefined := by
  unfold new byId?
  cases i with
  | zero => simp [eq_comm]
  | succ i => simp

theorem tidy_new : new.Tidy where
  number h := by
    obtain ⟨rfl, rfl⟩ := byId?_new.mp h
    rfl
  inj h h' _ := by rw [(byId?_new.mp h).1, (byId?_new.mp h').1]

theorem get?_new : new.get? name = if name = Symbol.undefinedName then some Symbol.undefined else none := by
  split
  · rename_i h
    exact tidy_new.get?_eq_some_iff.mpr ⟨mem_toList_iff.mpr ⟨0, byId?_new.mpr ⟨rfl, rfl⟩⟩, h.symm⟩
  · rename_i h
    cases hg : new.get? name with
    | none => rfl
    | some s =>
      obtain ⟨i, -, hi, hname⟩ := get?_eq_some hg
      exact absurd (hname.symm.trans (congrArg Symbol.name (byId?_new.mp hi).2)) h

/-! ### A new symbol -/

theorem byId?_insert (t : SymbolTable) (s : Symbol) (i : Nat) :
    (t.insert s).byId? i = if i = t.size then some s else t.byId? i := by
  unfold insert byId? size
  exact Array.getElem?_push

theorem nameOf?_insert (h : t.nameOf? i = some name) (s : Symbol) :
    (t.insert s).nameOf? i = some name := by
  obtain ⟨s', hs', rfl⟩ := Option.map_eq_some_iff.mp h
  have := byId?_lt hs'
  rw [nameOf?, byId?_insert, if_neg (by omega), hs']
  rfl

namespace Tidy

/-- A symbol with a new name and the next number may join. -/
theorem insert (ht : t.Tidy) (hnone : t.get? s.name = none) (hn : s.number = t.size) :
    (t.insert s).Tidy where
  number := by
    intro i s' h
    rw [byId?_insert] at h
    split at h
    · rename_i hi
      cases h
      exact hn.trans hi.symm
    · exact ht.number h
  inj := by
    have hid := get?_eq_none_iff.mp hnone
    intro i j a b ha hb hab
    rw [byId?_insert] at ha hb
    split at ha <;> split at hb
    · omega
    · cases ha
      exact absurd hab.symm (id?_eq_none hid hb)
    · cases hb
      exact absurd hab (id?_eq_none hid ha)
    · exact ht.inj ha hb hab

theorem get?_insert (ht : t.Tidy) (hnone : t.get? s.name = none) (hn : s.number = t.size)
    (name : String) : (t.insert s).get? name = if name = s.name then some s else t.get? name := by
  have ht' := ht.insert hnone hn
  split
  · rename_i h
    subst h
    exact ht'.get?_of_byId? (i := t.size) (by rw [byId?_insert, if_pos rfl])
  · rename_i h
    cases hg : t.get? name with
    | some a =>
      obtain ⟨i, -, hi, rfl⟩ := get?_eq_some hg
      have := byId?_lt hi
      exact ht'.get?_of_byId? (i := i) (by rw [byId?_insert, if_neg (by omega), hi])
    | none =>
      cases hg' : (t.insert s).get? name with
      | none => rfl
      | some a =>
        obtain ⟨i, -, hi, rfl⟩ := get?_eq_some hg'
        rw [byId?_insert] at hi
        split at hi
        · cases hi
          exact absurd rfl h
        · rw [ht.get?_of_byId? hi] at hg
          cases hg

end Tidy

/-! ### A changed symbol -/

theorem byId?_modify (t : SymbolTable) (id i : Nat) (f : Symbol → Symbol) :
    (t.modify id f).byId? i = if id = i then (t.byId? i).map f else t.byId? i := by
  unfold modify byId?
  exact Array.getElem?_modify

namespace Tidy

variable {f : Symbol → Symbol}

/-- A change that keeps name and number keeps a table tidy. -/
theorem modify (ht : t.Tidy) (id : Nat) (hf : ∀ s, (f s).name = s.name ∧ (f s).number = s.number) :
    (t.modify id f).Tidy := by
  have hback : ∀ {i s}, (t.modify id f).byId? i = some s →
      ∃ s', t.byId? i = some s' ∧ s.name = s'.name ∧ s.number = s'.number := by
    intro i s h
    rw [byId?_modify] at h
    split at h
    · obtain ⟨s', hs', rfl⟩ := Option.map_eq_some_iff.mp h
      exact ⟨s', hs', hf s'⟩
    · exact ⟨s, h, rfl, rfl⟩
  constructor
  · intro i s h
    obtain ⟨s', hs', -, hn⟩ := hback h
    exact hn.trans (ht.number hs')
  · intro i j s s' h h' hname
    obtain ⟨a, ha, ha', -⟩ := hback h
    obtain ⟨b, hb, hb', -⟩ := hback h'
    exact ht.inj ha hb (ha'.symm.trans (hname.trans hb'))

theorem get?_modify (ht : t.Tidy) (hf : ∀ s, (f s).name = s.name ∧ (f s).number = s.number)
    (hs : t.byId? i = some s) (name : String) :
    (t.modify i f).get? name = if name = s.name then some (f s) else t.get? name := by
  have ht' := ht.modify i hf
  split
  · rename_i h
    subst h
    rw [← (hf s).1]
    exact ht'.get?_of_byId? (i := i) (by rw [byId?_modify, if_pos rfl, hs]; rfl)
  · rename_i h
    have hne : ∀ {j a}, t.byId? j = some a → a.name = name → i ≠ j := by
      intro j a ha hname hij
      subst hij
      rw [hs] at ha
      cases ha
      exact h hname.symm
    cases hg : t.get? name with
    | some a =>
      obtain ⟨j, -, hj, rfl⟩ := get?_eq_some hg
      exact ht'.get?_of_byId? (i := j) (by rw [byId?_modify, if_neg (hne hj rfl), hj])
    | none =>
      cases hg' : (t.modify i f).get? name with
      | none => rfl
      | some a =>
        obtain ⟨j, -, hj, rfl⟩ := get?_eq_some hg'
        rw [byId?_modify] at hj
        split at hj
        · obtain ⟨b, hb, rfl⟩ := Option.map_eq_some_iff.mp hj
          rw [(hf b).1, ht.get?_of_byId? hb] at hg
          cases hg
        · rw [ht.get?_of_byId? hj] at hg
          cases hg

end Tidy

theorem nameOf?_modify {f : Symbol → Symbol} (hf : ∀ s, (f s).name = s.name) (id i : Nat) :
    (t.modify id f).nameOf? i = t.nameOf? i := by
  unfold nameOf?
  rw [byId?_modify]
  split
  · rw [Option.map_map]
    congr 1
    funext s
    exact hf s
  · rfl

/-! ### The symbol of a name, made known if need be -/

theorem meaning_of_some (h : t.get? name = some s) : t.meaning name = s := by
  rw [meaning, h]
  rfl

theorem meaning_of_none (h : t.get? name = none) : t.meaning name = t.fresh name := by
  rw [meaning, h]
  rfl

@[simp] theorem name_meaning (t : SymbolTable) (name : String) : (t.meaning name).name = name := by
  cases h : t.get? name with
  | none => rw [meaning_of_none h]; rfl
  | some s =>
    obtain ⟨-, -, -, hname⟩ := get?_eq_some h
    rw [meaning_of_some h, hname]

/-- Tables in which a name stands for the same, or for nothing, differ in its meaning by the number
at most. -/
theorem exists_meaning_eq {t' : SymbolTable} (h : t'.get? name = t.get? name) :
    ∃ n, t'.meaning name = { t.meaning name with number := n } := by
  cases hg : t.get? name with
  | none => exact ⟨t'.size, by rw [meaning_of_none (h.trans hg), meaning_of_none hg]; rfl⟩
  | some s => exact ⟨s.number, by rw [meaning_of_some (h.trans hg), meaning_of_some hg]⟩

theorem byId?_intern (t : SymbolTable) (name : String) :
    (t.intern name).1.byId? (t.intern name).2 = some (t.meaning name) := by
  unfold SymbolTable.intern
  split
  · rename_i i h
    obtain ⟨s, hs, -⟩ := id?_eq_some h
    rw [hs, meaning_of_some (s := s) (by rw [get?, h]; exact hs)]
  · rename_i h
    rw [byId?_insert, if_pos rfl, meaning_of_none (get?_eq_none_iff.mpr h)]
    rfl

namespace Tidy

theorem intern (ht : t.Tidy) (name : String) : (t.intern name).1.Tidy := by
  unfold SymbolTable.intern
  split
  · exact ht
  · rename_i h
    exact ht.insert (get?_eq_none_iff.mpr h) rfl

theorem get?_intern (ht : t.Tidy) (name name' : String) :
    (t.intern name).1.get? name' =
      if name' = name then some (t.meaning name) else t.get? name' := by
  unfold SymbolTable.intern
  split
  · rename_i i h
    obtain ⟨s, hs, -⟩ := id?_eq_some h
    split
    · rename_i heq
      have hg : t.get? name = some s := by rw [get?, h]; exact hs
      rw [heq, hg, meaning_of_some hg]
    · rfl
  · rename_i h
    rw [ht.get?_insert (get?_eq_none_iff.mpr h) rfl, meaning_of_none (get?_eq_none_iff.mpr h)]
    rfl

variable {f : Symbol → Symbol}

theorem change (ht : t.Tidy) (name : String)
    (hf : ∀ s, (f s).name = s.name ∧ (f s).number = s.number) : (t.change name f).Tidy :=
  (ht.intern name).modify _ hf

/-- **Changing the symbol of a name** changes what that name stands for and nothing else. -/
theorem get?_change (ht : t.Tidy) (hf : ∀ s, (f s).name = s.name ∧ (f s).number = s.number)
    (name name' : String) :
    (t.change name f).get? name' =
      if name' = name then some (f (t.meaning name)) else t.get? name' := by
  rw [SymbolTable.change, (ht.intern name).get?_modify hf (byId?_intern t name),
    name_meaning, ht.get?_intern]
  split <;> rfl

theorem meaning_change_self (ht : t.Tidy) (hf : ∀ s, (f s).name = s.name ∧ (f s).number = s.number)
    (name : String) : (t.change name f).meaning name = f (t.meaning name) :=
  meaning_of_some (by rw [ht.get?_change hf, if_pos rfl])

theorem meaning_change_of_ne (ht : t.Tidy) (hf : ∀ s, (f s).name = s.name ∧ (f s).number = s.number)
    {name name' : String} (h : name' ≠ name) :
    ∃ n, (t.change name f).meaning name' = { t.meaning name' with number := n } :=
  exists_meaning_eq (by rw [ht.get?_change hf, if_neg h])

end Tidy

/-! ### The symbols of a table that was changed -/

theorem mem_insert {s' : Symbol} : s' ∈ (t.insert s).toList ↔ s' ∈ t.toList ∨ s' = s := by
  simp [insert, toList]

theorem mem_modify {f : Symbol → Symbol} (h : s ∈ (t.modify i f).toList) :
    s ∈ t.toList ∨ ∃ s', t.byId? i = some s' ∧ s = f s' := by
  obtain ⟨j, hj⟩ := mem_toList_iff.mp h
  rw [byId?_modify] at hj
  by_cases hij : i = j
  · rw [if_pos hij, ← hij] at hj
    obtain ⟨s', hs', rfl⟩ := Option.map_eq_some_iff.mp hj
    exact Or.inr ⟨s', hs', rfl⟩
  · rw [if_neg hij] at hj
    exact Or.inl (mem_toList_iff.mpr ⟨j, hj⟩)

theorem mem_intern (h : s ∈ (t.intern name).1.toList) : s ∈ t.toList ∨ s = t.meaning name := by
  unfold intern at h
  split at h
  · exact Or.inl h
  · rename_i hnone
    rw [meaning_of_none (get?_eq_none_iff.mpr hnone)]
    exact mem_insert.mp h

theorem mem_change {f : Symbol → Symbol} (h : s ∈ (t.change name f).toList) :
    s ∈ t.toList ∨ s = t.meaning name ∨ s = f (t.meaning name) := by
  rcases mem_modify h with h | ⟨s', hs', rfl⟩
  · exact (mem_intern h).imp_right Or.inl
  · rw [byId?_intern] at hs'
    cases hs'
    exact Or.inr (Or.inr rfl)

theorem modifyName_eq_change {f : Symbol → Symbol} (h : t.get? name = some s) :
    t.modifyName name f = t.change name f := by
  obtain ⟨i, hi, -, -⟩ := get?_eq_some h
  rw [modifyName, change, intern, hi]

theorem byId?_intern_of_some (h : t.byId? i = some s) (name : String) :
    (t.intern name).1.byId? i = some s := by
  unfold intern
  split
  · exact h
  · have := byId?_lt h
    rw [byId?_insert, if_neg (by omega), h]

theorem nameOf?_intern (h : t.nameOf? i = some name) (name' : String) :
    (t.intern name').1.nameOf? i = some name := by
  unfold intern
  split
  · exact h
  · exact nameOf?_insert h _

theorem nameOf?_change {f : Symbol → Symbol} (hf : ∀ s, (f s).name = s.name)
    (h : t.nameOf? i = some name) (name' : String) : (t.change name' f).nameOf? i = some name := by
  rw [change, nameOf?_modify hf]
  exact nameOf?_intern h name'

/-! ### A table with every symbol changed -/

/-- The table with every symbol changed. -/
def map (φ : Symbol → Symbol) (t : SymbolTable) : SymbolTable := ⟨t.arena.map φ⟩

/-- A change of symbols that replaces their names, different ones by different ones. -/
structure Carries (φ : Symbol → Symbol) (ρ : String → String) : Prop where
  inj : ∀ {x y}, ρ x = ρ y → x = y
  name : ∀ s, (φ s).name = ρ s.name
  number : ∀ s, (φ s).number = s.number
  fresh : ∀ name number, φ { name, number } = { name := ρ name, number }

theorem size_map (φ : Symbol → Symbol) (t : SymbolTable) : (t.map φ).size = t.size := Array.size_map

theorem byId?_map (φ : Symbol → Symbol) (t : SymbolTable) (i : Nat) :
    (t.map φ).byId? i = (t.byId? i).map φ := Array.getElem?_map

theorem toList_map (φ : Symbol → Symbol) (t : SymbolTable) : (t.map φ).toList = t.toList.map φ :=
  Array.toList_map

theorem carried_insert (φ : Symbol → Symbol) (t : SymbolTable) (s : Symbol) :
    (t.insert s).map φ = (t.map φ).insert (φ s) :=
  congrArg SymbolTable.mk Array.map_push

theorem carried_modify {φ f g : Symbol → Symbol} (hf : ∀ s, φ (f s) = g (φ s)) (t : SymbolTable) (i : Nat) :
    (t.modify i f).map φ = (t.map φ).modify i g := by
  refine congrArg SymbolTable.mk (Array.ext_getElem? fun k => ?_)
  show ((t.arena.modify i f).map φ)[k]? = ((t.arena.map φ).modify i g)[k]?
  rw [Array.getElem?_map, Array.getElem?_modify, Array.getElem?_modify, Array.getElem?_map]
  split
  · rw [Option.map_map, Option.map_map]
    exact congrArg (Option.map · _) (funext hf)
  · rfl

namespace Carries

variable {φ f g : Symbol → Symbol} {ρ : String → String}

theorem id?_map (h : Carries φ ρ) (t : SymbolTable) (name : String) :
    (t.map φ).id? (ρ name) = t.id? name := by
  have hbelow : ∀ n, lastBelow (t.map φ).arena (ρ name) n = lastBelow t.arena name n := by
    intro n
    induction n with
    | zero => rfl
    | succ n ih =>
      have hn : (t.map φ).arena[n]? = t.arena[n]?.map φ := Array.getElem?_map
      unfold lastBelow
      rw [ih, hn]
      cases t.arena[n]? with
      | none => rfl
      | some s =>
        have hname : ((φ s).name == ρ name) = (s.name == name) := by
          rw [h.name, Bool.eq_iff_iff, beq_iff_eq, beq_iff_eq]
          exact ⟨fun he => h.inj he, fun he => congrArg ρ he⟩
        simp only [Option.map_some, Option.any_some, hname]
  show lastBelow (t.map φ).arena (ρ name) (t.map φ).size = _
  rw [size_map, hbelow]
  rfl

theorem get?_map (h : Carries φ ρ) (t : SymbolTable) (name : String) :
    (t.map φ).get? (ρ name) = (t.get? name).map φ := by
  rw [get?, h.id?_map, get?]
  cases t.id? name with
  | none => rfl
  | some i => exact byId?_map φ t i

theorem contains_map (h : Carries φ ρ) (t : SymbolTable) (name : String) :
    (t.map φ).contains (ρ name) = t.contains name := by
  rw [contains, h.id?_map, contains]

theorem byNumber?_map (h : Carries φ ρ) (t : SymbolTable) (n : Nat) :
    (t.map φ).byNumber? n = (t.byNumber? n).map φ := by
  show (t.arena.map φ).find? _ = _
  rw [Array.find?_map]
  refine congrArg (Option.map φ) (congrArg (t.arena.find? ·) (funext fun s => ?_))
  exact congrArg (· == n) (h.number s)

theorem intern_map (h : Carries φ ρ) (t : SymbolTable) (name : String) :
    (t.map φ).intern (ρ name) = ((t.intern name).1.map φ, (t.intern name).2) := by
  unfold intern
  rw [h.id?_map]
  cases t.id? name with
  | some i => rfl
  | none =>
    simp only
    rw [carried_insert, size_map, h.fresh]

theorem meaning_map (h : Carries φ ρ) (t : SymbolTable) (name : String) :
    (t.map φ).meaning (ρ name) = φ (t.meaning name) := by
  rw [meaning, h.get?_map, meaning]
  cases t.get? name with
  | some s => rfl
  | none =>
    show (t.map φ).fresh (ρ name) = φ (t.fresh name)
    rw [SymbolTable.fresh, SymbolTable.fresh, size_map, h.fresh]

theorem map_change (h : Carries φ ρ) (hf : ∀ s, φ (f s) = g (φ s)) (t : SymbolTable) (name : String) :
    (t.change name f).map φ = (t.map φ).change (ρ name) g := by
  rw [change, carried_modify hf, change, h.intern_map]

theorem map_modifyName (h : Carries φ ρ) (hf : ∀ s, φ (f s) = g (φ s)) (t : SymbolTable)
    (name : String) : (t.modifyName name f).map φ = (t.map φ).modifyName (ρ name) g := by
  rw [modifyName, modifyName, h.id?_map]
  cases t.id? name with
  | none => rfl
  | some i => exact carried_modify hf t i

end Carries
end SymbolTable
end Sx16
