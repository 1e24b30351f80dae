/-
# Entries by key, in order

A list of entries with one entry per key. Writing to a key that is there keeps its place in the
order; a new key goes to the end.

Key definitions: `Keyed`, `Keyed.put`, `Keyed.ofList`.
-/

namespace Sx16

/-- Entries by key, in the order of the first mention of each key. -/
abbrev Keyed (κ α : Type) := List (κ × α)

/-- Entries by name. -/
abbrev Named (α : Type) := Keyed String α

namespace Keyed

variable {κ α : Type} [DecidableEq κ]

/-- The entries with one more; a known key keeps its place and gets the new value. -/
def put (key : κ) (value : α) : Keyed κ α → Keyed κ α
  | [] => [(key, value)]
  | (k, v) :: r => if k = key then (k, value) :: r else (k, v) :: put key value r

/-- The entries of a list; of several values for a key the last one counts. -/
def ofList (entries : List (κ × α)) : Keyed κ α :=
  entries.foldl (fun m e => put e.1 e.2 m) []

theorem lookup_put_self (key : κ) (value : α) (m : Keyed κ α) :
    (put key value m).lookup key = some value := by
  induction m with
  | nil => exact List.lookup_cons_self
  | cons p r ih =>
    unfold put
    split
    · rename_i h
      rw [h]
      exact List.lookup_cons_self
    · rename_i h
      rw [List.lookup_cons, beq_eq_false_iff_ne.mpr (Ne.symm h)]
      exact ih

theorem lookup_put (key : κ) (value : α) (m : Keyed κ α) (k : κ) :
    (put key value m).lookup k = if k = key then some value else m.lookup k := by
  by_cases hk : k = key
  · rw [if_pos hk, hk, lookup_put_self]
  · rw [if_neg hk]
    have hne : (k == key) = false := beq_eq_false_iff_ne.mpr hk
    induction m with
    | nil => rw [put, List.lookup_cons, hne]
    | cons p r ih =>
      unfold put
      split
      · rename_i h
        rw [List.lookup_cons, List.lookup_cons, h, hne]
      · rw [List.lookup_cons, List.lookup_cons, ih]

/-- **Of several values for a key** the last one counts. -/
theorem lookup_ofList (entries : List (κ × α)) (k : κ) :
    (ofList entries).lookup k = entries.reverse.lookup k := by
  have hfold : ∀ m : Keyed κ α, (entries.foldl (fun m e => put e.1 e.2 m) m).lookup k =
      (entries.reverse.lookup k).or (m.lookup k) := by
    induction entries with
    | nil => exact fun m => Option.none_or.symm
    | cons e entries ih =>
      intro m
      rw [List.foldl_cons, ih, List.reverse_cons, List.lookup_append, lookup_put, Option.or_assoc]
      refine congrArg _ ?_
      by_cases hk : k = e.1
      · rw [if_pos hk, hk, List.lookup_cons_self]
        rfl
      · rw [if_neg hk, List.lookup_cons, beq_eq_false_iff_ne.mpr hk]
        rfl
  rw [ofList, hfold]
  exact Option.or_none

end Keyed
end Sx16
