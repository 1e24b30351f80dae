/-
# The ids and the names of a symbol table

A table is its symbols in the order of their creation. An id is a position: symbols are never moved or
dropped, and an update reaches the symbol of its id and no other. A name stands for the last position that
holds it, so a symbol that is inserted takes its name over from an older one. An index of the names that is
kept beside the symbols, and written by insertions alone, always gives the same: names never change, so no
update can make it stale.

Key definitions: `SymbolTable.Operation`, `SymbolTable.IsLast`, `SymbolTable.KeepsIds`,
`SymbolTable.ReadsNames`, `IndexedTable.Mirrors`.
Key theorems: `SymbolTable.id?_eq_some_iff_isLast`, `SymbolTable.Holds.performAll`,
`IndexedTable.mirrors_performAll`, `SymbolTable.performAll_represents`.
-/
import Sx16.Proofs.Object.ReadBack

namespace Sx16

/-! ### Operations -/

/-- A new value of a symbol, or a new section that it belongs to. -/
inductive Symbol.Update where
  | value (v : UInt16)
  | owner (number : Nat)

/-- The symbol after an update. -/
def Symbol.updated (s : Symbol) : Update → Symbol
  | .value v => { s with value := v }
  | .owner number => { s with owner := number }

theorem Symbol.name_updated (s : Symbol) (u : Update) : (s.updated u).name = s.name := by
  cases u <;> rfl

namespace SymbolTable

/-- What is done to a table while it grows. -/
inductive Operation where
  | insert (s : Symbol)
  | intern (name : String)
  | update (id : Nat) (u : Symbol.Update)
  | updateName (name : String) (u : Symbol.Update)

/-- The table after an operation. -/
def perform (t : SymbolTable) : Operation → SymbolTable
  | .insert s => t.insert s
  | .intern name => (t.intern name).1
  | .update id u => t.modify id (·.updated u)
  | .updateName name u => t.modifyName name (·.updated u)

/-- The table after operations, one after the other. -/
def performAll (t : SymbolTable) (ops : List Operation) : SymbolTable := ops.foldl perform t

/-- The last position that holds a name. -/
structure IsLast (t : SymbolTable) (name : String) (i : Nat) : Prop where
  named : t.nameOf? i = some name
  last : ∀ j, i < j → t.nameOf? j ≠ some name

variable {t : SymbolTable} {name : String} {i : Nat} {s : Symbol}

/-! ### Names -/

theorem nameOf?_eq_some_iff : t.nameOf? i = some name ↔ ∃ s, t.byId? i = some s ∧ s.name = name :=
  Option.map_eq_some_iff

theorem IsLast.eq {j : Nat} (hi : t.IsLast name i) (hj : t.IsLast name j) : i = j := by
  rcases Nat.lt_trichotomy i j with h | h | h
  · exact absurd hj.named (hi.last j h)
  · exact h
  · exact absurd hi.named (hj.last i h)

/-- Behind the largest position below a bound, no other one below it holds the name. -/
theorem name_ne_of_lastBelow {arena : Array Symbol} {n j : Nat}
    (h : lastBelow arena name n = some i) (hij : i < j) (hj : j < n) (hs : arena[j]? = some s) :
    s.name ≠ name := by
  induction n with
  | zero => cases h
  | succ n ih =>
    unfold lastBelow at h
    split at h
    · cases h
      omega
    · rename_i hn
      rcases Nat.lt_succ_iff_lt_or_eq.mp hj with hlt | rfl
      · exact ih h hlt
      · simpa [hs] using hn

theorem isLast_of_id? (h : t.id? name = some i) : t.IsLast name i where
  named := nameOf?_eq_some_iff.mpr (id?_eq_some h)
  last j hij hj := by
    obtain ⟨s, hs, hname⟩ := nameOf?_eq_some_iff.mp hj
    exact name_ne_of_lastBelow h hij (byId?_lt hs) hs hname

theorem id?_eq_none_iff : t.id? name = none ↔ ∀ s ∈ t.toList, s.name ≠ name := by
  constructor
  · intro h s hs
    obtain ⟨i, hi⟩ := mem_toList_iff.mp hs
    exact id?_eq_none h hi
  · intro h
    cases hid : t.id? name with
    | none => rfl
    | some i =>
      obtain ⟨s, hs, hname⟩ := id?_eq_some hid
      exact absurd hname (h s (mem_toList_iff.mpr ⟨i, hs⟩))

/-- **A name stands for** its last position. -/
theorem id?_eq_some_iff_isLast : t.id? name = some i ↔ t.IsLast name i := by
  refine ⟨isLast_of_id?, fun h => ?_⟩
  cases hid : t.id? name with
  | none =>
    obtain ⟨s, hs, hname⟩ := nameOf?_eq_some_iff.mp h.named
    exact absurd hname (id?_eq_none hid hs)
  | some j => rw [(isLast_of_id? hid).eq h]

/-- What a name stands for depends on the names of the symbols only. -/
theorem id?_congr {t' : SymbolTable} (h : ∀ i, t'.nameOf? i = t.nameOf? i) (name : String) :
    t'.id? name = t.id? name := by
  refine Option.ext fun i => ?_
  rw [id?_eq_some_iff_isLast, id?_eq_some_iff_isLast]
  constructor
  · intro hlast
    exact ⟨h i ▸ hlast.named, fun j hij => h j ▸ hlast.last j hij⟩
  · intro hlast
    exact ⟨(h i).symm ▸ hlast.named, fun j hij => (h j).symm ▸ hlast.last j hij⟩

/-- An inserted symbol takes its name over. -/
theorem id?_insert (t : SymbolTable) (s : Symbol) (name : String) :
    (t.insert s).id? name = if name = s.name then some t.size else t.id? name := by
  have hnameOf : ∀ i, (t.insert s).nameOf? i = if i = t.size then some s.name else t.nameOf? i := by
    intro i
    rw [nameOf?, byId?_insert]
    split <;> rfl
  have hbehind : ∀ j, t.size < j → (t.insert s).nameOf? j ≠ some name := by
    intro j hj hname
    obtain ⟨s', hs', -⟩ := nameOf?_eq_some_iff.mp hname
    have hlt := byId?_lt hs'
    have hsize : (t.insert s).size = t.size + 1 := Array.size_push s
    omega
  split
  · rename_i heq
    refine id?_eq_some_iff_isLast.mpr ⟨?_, hbehind⟩
    rw [hnameOf, if_pos rfl, heq]
  · rename_i hne
    refine Option.ext fun i => ?_
    rw [id?_eq_some_iff_isLast, id?_eq_some_iff_isLast]
    have hold : ∀ j, (t.insert s).nameOf? j = some name ↔ t.nameOf? j = some name := by
      intro j
      rw [hnameOf]
      split
      · rename_i hj
        have hnone : t.nameOf? j = none := by
          rw [nameOf?, hj]
          exact congrArg (Option.map Symbol.name) (Array.getElem?_eq_none (Nat.le_refl _))
        rw [hnone]
        exact iff_of_false (fun h => hne (Option.some.inj h).symm) (Option.some_ne_none _).symm
      · rfl
    constructor
    · intro h
      exact ⟨(hold i).mp h.named, fun j hij => mt (hold j).mpr (h.last j hij)⟩
    · intro h
      exact ⟨(hold i).mpr h.named, fun j hij => mt (hold j).mp (h.last j hij)⟩

/-- Of two symbols with one name, the name stands for the second, and the first stays where it was. -/
example : ((new.insert { name := "a", number := 1 }).insert { name := "a", number := 2 }).id? "a" = some 2 ∧
    ((new.insert { name := "a", number := 1 }).insert { name := "a", number := 2 }).nameOf? 1 =
      some "a" := by decide

theorem id?_modify_updated (t : SymbolTable) (id : Nat) (u : Symbol.Update) (name : String) :
    (t.modify id (·.updated u)).id? name = t.id? name :=
  id?_congr (fun _ => nameOf?_modify (fun s => s.name_updated u) id _) name

/-! ### Ids -/

theorem byId?_modifyName (t : SymbolTable) (name : String) (f : Symbol → Symbol) (i : Nat) :
    (t.modifyName name f).byId? i =
      if t.id? name = some i then (t.byId? i).map f else t.byId? i := by
  unfold modifyName
  cases t.id? name with
  | none => rfl
  | some id =>
    simp only [Option.some.injEq]
    exact byId?_modify t id i f

/-- A symbol at an id, of which nothing but value and section may have become another. -/
def Holds (t : SymbolTable) (i : Nat) (s : Symbol) : Prop :=
  ∃ v number, t.byId? i = some { s with value := v, owner := number }

theorem holds_of_byId? (h : t.byId? i = some s) : t.Holds i s := ⟨s.value, s.owner, h⟩

theorem Holds.updated (h : t.Holds i s) (u : Symbol.Update) {t' : SymbolTable}
    (ht' : t'.byId? i = (t.byId? i).map (·.updated u)) : t'.Holds i s := by
  obtain ⟨v, number, hs⟩ := h
  rw [hs, Option.map_some] at ht'
  cases u with
  | value w => exact ⟨w, number, ht'⟩
  | owner k => exact ⟨v, k, ht'⟩

/-- An operation leaves a symbol at its id. -/
theorem Holds.perform (h : t.Holds i s) (op : Operation) : (t.perform op).Holds i s := by
  cases op with
  | insert s' =>
    obtain ⟨v, number, hs⟩ := h
    have hlt := byId?_lt hs
    exact ⟨v, number, by rw [SymbolTable.perform, byId?_insert, if_neg (by omega), hs]⟩
  | intern name =>
    obtain ⟨v, number, hs⟩ := h
    exact ⟨v, number, byId?_intern_of_some hs name⟩
  | update id u =>
    have hget := byId?_modify t id i (·.updated u)
    by_cases hi : id = i
    · exact h.updated u (hget.trans (if_pos hi))
    · obtain ⟨v, number, hs⟩ := h
      exact ⟨v, number, (hget.trans (if_neg hi)).trans hs⟩
  | updateName name u =>
    have hget := byId?_modifyName t name (·.updated u) i
    by_cases hi : t.id? name = some i
    · exact h.updated u (hget.trans (if_pos hi))
    · obtain ⟨v, number, hs⟩ := h
      exact ⟨v, number, (hget.trans (if_neg hi)).trans hs⟩

/-- **An id keeps its symbol** whatever is done to the table. -/
theorem Holds.performAll (h : t.Holds i s) (ops : List Operation) : (t.performAll ops).Holds i s := by
  induction ops generalizing t with
  | nil => exact h
  | cons op ops ih => exact ih (h.perform op)

/-- What ids are good for, now and after anything that is done to the table. -/
structure KeepsIds (t : SymbolTable) : Prop where
  /-- An inserted symbol goes to the end, where its id is. -/
  inserted : ∀ s, (t.insert s).toList = t.toList ++ [s] ∧ (t.insert s).byId? t.size = some s
  /-- The id that a name is given is that of a symbol of this name. -/
  interned : ∀ name, (t.intern name).1.nameOf? (t.intern name).2 = some name
  /-- A symbol stays at its id. Its value and its section may be others one day, and nothing else. -/
  kept : ∀ i s, t.byId? i = some s → ∀ ops, (t.performAll ops).Holds i s
  /-- An update through an id is one of the symbol with this id and of no other. -/
  updated : ∀ id u i, (t.perform (.update id u)).byId? i =
    if id = i then (t.byId? i).map (·.updated u) else t.byId? i
  /-- An update through a name is one of the symbol that the name stands for and of no other. -/
  updatedName : ∀ name u i, (t.perform (.updateName name u)).byId? i =
    if t.id? name = some i then (t.byId? i).map (·.updated u) else t.byId? i

theorem keepsIds (t : SymbolTable) : t.KeepsIds where
  inserted s := ⟨Array.toList_push, by rw [byId?_insert, if_pos rfl]⟩
  interned name := by rw [nameOf?, byId?_intern, Option.map_some, name_meaning]
  kept _ _ h ops := (holds_of_byId? h).performAll ops
  updated id u i := byId?_modify t id i (·.updated u)
  updatedName name u i := byId?_modifyName t name (·.updated u) i

/-- What a name stands for, in every way to ask for it. -/
structure ReadsNames (t : SymbolTable) : Prop where
  id : ∀ name i, t.id? name = some i ↔ t.IsLast name i
  absent : ∀ name, t.id? name = none ↔ ∀ s ∈ t.toList, s.name ≠ name
  get : ∀ name s, t.get? name = some s ↔ ∃ i, t.IsLast name i ∧ t.byId? i = some s
  contains : ∀ name, t.contains name = true ↔ ∃ s ∈ t.toList, s.name = name
  /-- A known name is given the id that it stands for, and the table does not change. -/
  known : ∀ name i, t.IsLast name i → t.intern name = (t, i)
  /-- An unknown name gets a new symbol, and the name stands for it from then on. -/
  unknown : ∀ name, (∀ s ∈ t.toList, s.name ≠ name) →
    t.intern name = (t.insert { name, number := t.size }, t.size) ∧
      (t.intern name).1.IsLast name t.size

theorem readsNames (t : SymbolTable) : t.ReadsNames where
  id _ _ := id?_eq_some_iff_isLast
  absent _ := id?_eq_none_iff
  get name s := by
    rw [get?, Option.bind_eq_some_iff]
    simp only [id?_eq_some_iff_isLast]
  contains name := by
    rw [contains, ← not_iff_not, Bool.not_eq_true, Option.isSome_eq_false_iff,
      Option.isNone_iff_eq_none, id?_eq_none_iff]
    simp only [not_exists, not_and, ne_eq]
  known name i h := by rw [intern, id?_eq_some_iff_isLast.mpr h]
  unknown name h := by
    have hintern : t.intern name = (t.insert { name, number := t.size }, t.size) := by
      rw [intern, id?_eq_none_iff.mpr h]
    refine ⟨hintern, id?_eq_some_iff_isLast.mp ?_⟩
    rw [hintern, id?_insert, if_pos rfl]

/-! ### Sorting -/

theorem exists_reserved (ops : List Operation) :
    ∃ u, (new.performAll ops).get? Symbol.undefinedName = some u := by
  have hnew : new.byId? 0 = some Symbol.undefined := byId?_new.mpr ⟨rfl, rfl⟩
  obtain ⟨v, number, hs⟩ := (holds_of_byId? hnew).performAll ops
  cases hget : (new.performAll ops).get? Symbol.undefinedName with
  | some u => exact ⟨u, rfl⟩
  | none => exact absurd rfl (id?_eq_none (get?_eq_none_iff.mp hget) hs)

/-- **The sorted symbols** are what the reserved name stands for, and then those of all other names. -/
theorem sorted_eq (h : t.get? Symbol.undefinedName = some s) :
    t.sorted = s :: sortByName (t.toList.filter (·.name != Symbol.undefinedName)) := by
  rw [sorted, h]
  rfl

end SymbolTable

/-! ### An index beside the symbols -/

namespace IndexedTable

/-- The table after an operation; the index alone is asked what a name stands for. -/
def perform (x : IndexedTable) : SymbolTable.Operation → IndexedTable
  | .insert s => x.insert s
  | .intern name => (x.intern name).1
  | .update id u => x.modify id (·.updated u)
  | .updateName name u => x.modifyName name (·.updated u)

/-- Operations one after the other. -/
def performAll (x : IndexedTable) (ops : List SymbolTable.Operation) : IndexedTable :=
  ops.foldl perform x

/-- The symbols are those of a table, and the index gives what the table finds among them. -/
structure Mirrors (x : IndexedTable) (t : SymbolTable) : Prop where
  table : x.table = t
  index : ∀ name, x.index.lookup name = t.id? name

variable {x : IndexedTable} {t : SymbolTable}

theorem Mirrors.insert (h : x.Mirrors t) (s : Symbol) : (x.insert s).Mirrors (t.insert s) where
  table := congrArg (SymbolTable.insert · s) h.table
  index name := by
    rw [IndexedTable.insert, Keyed.lookup_put, SymbolTable.id?_insert, h.index, h.table]

theorem Mirrors.modify (h : x.Mirrors t) (id : Nat) (u : Symbol.Update) :
    (x.modify id (·.updated u)).Mirrors (t.modify id (·.updated u)) where
  table := congrArg (SymbolTable.modify · id _) h.table
  index name := (h.index name).trans (SymbolTable.id?_modify_updated t id u name).symm

theorem mirrors_new : new.Mirrors SymbolTable.new :=
  Mirrors.insert (x := {}) (t := ⟨#[]⟩) ⟨rfl, fun _ => rfl⟩ Symbol.undefined

/-- An operation keeps the index right. -/
theorem Mirrors.perform (h : x.Mirrors t) (op : SymbolTable.Operation) :
    (x.perform op).Mirrors (t.perform op) := by
  cases op with
  | insert s => exact h.insert s
  | intern name =>
    obtain rfl := h.table
    rw [IndexedTable.perform, IndexedTable.intern, IndexedTable.id?, h.index, SymbolTable.perform,
      SymbolTable.intern]
    cases x.table.id? name with
    | some i => exact h
    | none => exact h.insert _
  | update id u => exact h.modify id u
  | updateName name u =>
    rw [IndexedTable.perform, IndexedTable.modifyName, IndexedTable.id?, h.index, SymbolTable.perform,
      SymbolTable.modifyName]
    cases t.id? name with
    | some i => exact h.modify i u
    | none => exact h

/-- **The index stays right** along any operations. -/
theorem mirrors_performAll (h : x.Mirrors t) (ops : List SymbolTable.Operation) :
    (x.performAll ops).Mirrors (t.performAll ops) := by
  induction ops generalizing x t with
  | nil => exact h
  | cons op ops ih => exact ih (h.perform op)

end IndexedTable

/-- **A table that has grown by insertions, mentions and updates.** Ids keep their symbols, names stand for
their last positions, however they are asked for, and an index that insertions alone write gives the same.
Sorted, the symbol that the reserved name stands for comes first; then come all symbols of other names, each
once, by their names, and those of one name in the order of their creation. -/
theorem SymbolTable.performAll_represents (ops : List Operation) :
    (new.performAll ops).KeepsIds ∧ (new.performAll ops).ReadsNames ∧
      (IndexedTable.new.performAll ops).Mirrors (new.performAll ops) ∧
      ∃ u rest, (new.performAll ops).sorted = u :: rest ∧
        (new.performAll ops).get? Symbol.undefinedName = some u ∧
        NameOrdered ((new.performAll ops).toList.filter (·.name != Symbol.undefinedName)) rest := by
  obtain ⟨u, hu⟩ := exists_reserved ops
  exact ⟨keepsIds _, readsNames _, IndexedTable.mirrors_performAll IndexedTable.mirrors_new ops,
    u, _, sorted_eq hu, hu, nameOrdered_sortByName _⟩

end Sx16
