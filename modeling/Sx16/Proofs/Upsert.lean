/-
# One entry per name

Lists that hold one entry per name grow by combination: a new entry is combined with the one of its
name, or goes to the end. What a name stands for in the end is the combination of what it stood for
before and of the new entry, and other names do not change.

Key definitions: `entryOf`, `upsert`, `upsertAll`.
Key theorems: `entryOf_upsert`, `entryOf_upsertAll`, `Keyed.nodup_keys_ofList`.
-/
import Mathlib.Data.List.Nodup
import Sx16.Keyed

namespace Sx16

variable {α : Type}

/-- The first entry of a name. -/
def entryOf (key : α → String) (xs : List α) (name : String) : Option α :=
  xs.find? fun x => key x == name

/-- The entries with one more: combined with the entry of its name, or else at the end. -/
def upsert (key : α → String) (combine : α → α → α) (x : α) : List α → List α
  | [] => [x]
  | y :: ys => if key y = key x then combine y x :: ys else y :: upsert key combine x ys

/-- The entries with more entries, one after the other. -/
def upsertAll (key : α → String) (combine : α → α → α) (xs ys : List α) : List α :=
  ys.foldl (fun xs y => upsert key combine y xs) xs

variable {key : α → String} {combine : α → α → α} {x y : α} {xs ys : List α} {name : String}

/-! ### The entry of a name -/

theorem entryOf_cons (x : α) (xs : List α) (name : String) :
    entryOf key (x :: xs) name = if key x = name then some x else entryOf key xs name := by
  unfold entryOf
  rw [List.find?_cons]
  by_cases h : key x = name
  · rw [if_pos h, beq_iff_eq.mpr h]
  · rw [if_neg h, beq_eq_false_iff_ne.mpr h]

theorem key_of_entryOf (h : entryOf key xs name = some x) : key x = name :=
  beq_iff_eq.mp (List.find?_some h :)

theorem mem_of_entryOf (h : entryOf key xs name = some x) : x ∈ xs := List.mem_of_find?_eq_some h

theorem entryOf_eq_none_iff : entryOf key xs name = none ↔ name ∉ xs.map key := by
  unfold entryOf
  rw [List.find?_eq_none, List.mem_map]
  simp only [beq_iff_eq, not_exists, not_and]

theorem isSome_entryOf_iff : (entryOf key xs name).isSome ↔ name ∈ xs.map key := by
  rw [← not_iff_not, Option.not_isSome_iff_eq_none, entryOf_eq_none_iff]

theorem entryOf_of_mem (hn : (xs.map key).Nodup) (h : x ∈ xs) : entryOf key xs (key x) = some x := by
  cases hp : entryOf key xs (key x) with
  | none => exact absurd (List.mem_map_of_mem h) (entryOf_eq_none_iff.mp hp)
  | some y => rw [List.inj_on_of_nodup_map hn (mem_of_entryOf hp) h (key_of_entryOf hp)]

theorem entryOf_map {f : α → α} (hf : ∀ x, key (f x) = key x) :
    entryOf key (xs.map f) name = (entryOf key xs name).map f := by
  unfold entryOf
  rw [List.find?_map]
  congr 2
  funext x
  exact congrArg (· == name) (hf x)

theorem map_key_map {f : α → α} (hf : ∀ x, key (f x) = key x) : (xs.map f).map key = xs.map key := by
  rw [List.map_map]
  exact List.map_congr_left fun x _ => hf x

/-! ### One more entry -/

theorem upsert_cons_of_eq (ys : List α) (h : key y = key x) :
    upsert key combine x (y :: ys) = combine y x :: ys := if_pos h

theorem upsert_cons_of_ne (ys : List α) (h : key y ≠ key x) :
    upsert key combine x (y :: ys) = y :: upsert key combine x ys := if_neg h

theorem upsert_of_not_mem (h : key x ∉ ys.map key) : upsert key combine x ys = ys ++ [x] := by
  induction ys with
  | nil => rfl
  | cons y ys ih =>
    rw [List.map_cons, List.mem_cons, not_or] at h
    rw [upsert_cons_of_ne ys (Ne.symm h.1), ih h.2]
    rfl

/-- With distinct names a known name has one entry to combine with. -/
theorem upsert_eq_map (hn : (ys.map key).Nodup) (h : key x ∈ ys.map key) :
    upsert key combine x ys = ys.map fun y => if key y = key x then combine y x else y := by
  induction ys with
  | nil => cases h
  | cons y ys ih =>
    obtain ⟨hy, hys⟩ := List.nodup_cons.mp hn
    by_cases hk : key y = key x
    · have hrest : ∀ z ∈ ys, (if key z = key x then combine z x else z) = z := by
        intro z hz
        refine if_neg fun hzx => hy ?_
        rw [hk, ← hzx]
        exact List.mem_map_of_mem hz
      rw [upsert_cons_of_eq ys hk, List.map_cons, if_pos hk, List.map_congr_left hrest, List.map_id']
    · have hmem : key x ∈ ys.map key := by
        rcases List.mem_cons.mp h with he | h
        · exact absurd he.symm hk
        · exact h
      rw [upsert_cons_of_ne ys hk, List.map_cons, if_neg hk, ih hys hmem]

/-- An entry goes to its name and to no other. -/
theorem entryOf_upsert (hkey : ∀ y, key y = key x → key (combine y x) = key x) (ys : List α)
    (name : String) : entryOf key (upsert key combine x ys) name =
      if key x = name then some (((entryOf key ys name).map (combine · x)).getD x)
      else entryOf key ys name := by
  induction ys with
  | nil => exact entryOf_cons x [] name
  | cons y ys ih =>
    by_cases hy : key y = key x
    · rw [upsert_cons_of_eq ys hy, entryOf_cons, entryOf_cons, hkey y hy, hy]
      split <;> rfl
    · rw [upsert_cons_of_ne ys hy, entryOf_cons, entryOf_cons, ih]
      by_cases hn : key y = name
      · rw [if_pos hn, if_pos hn, if_neg fun hx => hy (hn.trans hx.symm)]
      · rw [if_neg hn, if_neg hn]

theorem map_key_upsert (hkey : ∀ y, key y = key x → key (combine y x) = key x) (ys : List α) :
    (upsert key combine x ys).map key =
      if key x ∈ ys.map key then ys.map key else ys.map key ++ [key x] := by
  induction ys with
  | nil => rfl
  | cons y ys ih =>
    by_cases hy : key y = key x
    · rw [upsert_cons_of_eq ys hy, List.map_cons, List.map_cons, hkey y hy, hy,
        if_pos List.mem_cons_self]
    · have hmem : key x ∈ key y :: ys.map key ↔ key x ∈ ys.map key := by
        rw [List.mem_cons]
        exact or_iff_right (Ne.symm hy)
      rw [upsert_cons_of_ne ys hy, List.map_cons, ih, List.map_cons]
      simp only [hmem]
      split <;> rfl

theorem mem_map_key_upsert (hkey : ∀ y, key y = key x → key (combine y x) = key x) :
    name ∈ (upsert key combine x ys).map key ↔ name ∈ ys.map key ∨ name = key x := by
  rw [map_key_upsert hkey]
  split
  · rename_i h
    exact ⟨Or.inl, fun h' => h'.elim id fun he => he ▸ h⟩
  · rw [List.mem_append, List.mem_singleton]

theorem nodup_upsert (hkey : ∀ y, key y = key x → key (combine y x) = key x)
    (hn : (ys.map key).Nodup) : ((upsert key combine x ys).map key).Nodup := by
  rw [map_key_upsert hkey]
  split
  · exact hn
  · rename_i h
    refine List.nodup_append.mpr ⟨hn, List.pairwise_singleton _ _, fun a ha b hb hab => ?_⟩
    rw [List.mem_singleton.mp hb] at hab
    exact h (hab ▸ ha)

/-- An entry of a list with one more is an old one, the new one, or both combined. -/
theorem mem_upsert {z : α} (h : z ∈ upsert key combine x ys) :
    z ∈ ys ∨ z = x ∨ ∃ y ∈ ys, key y = key x ∧ z = combine y x := by
  induction ys with
  | nil => exact Or.inr (Or.inl (List.mem_singleton.mp h))
  | cons y ys ih =>
    by_cases hy : key y = key x
    · rw [upsert_cons_of_eq ys hy] at h
      rcases List.mem_cons.mp h with h | h
      · exact Or.inr (Or.inr ⟨y, List.mem_cons_self, hy, h⟩)
      · exact Or.inl (List.mem_cons_of_mem _ h)
    · rw [upsert_cons_of_ne ys hy] at h
      rcases List.mem_cons.mp h with h | h
      · exact Or.inl (h ▸ List.mem_cons_self)
      · rcases ih h with h | h | ⟨y', hy', hk, hz⟩
        · exact Or.inl (List.mem_cons_of_mem _ h)
        · exact Or.inr (Or.inl h)
        · exact Or.inr (Or.inr ⟨y', List.mem_cons_of_mem _ hy', hk, hz⟩)

/-! ### More entries -/

theorem upsertAll_cons (key : α → String) (combine : α → α → α) (xs : List α) (y : α) (ys : List α) :
    upsertAll key combine xs (y :: ys) = upsertAll key combine (upsert key combine y xs) ys := rfl

theorem mem_map_key_upsertAll (hkey : ∀ y x, key y = key x → key (combine y x) = key x) :
    name ∈ (upsertAll key combine xs ys).map key ↔ name ∈ xs.map key ∨ name ∈ ys.map key := by
  induction ys generalizing xs with
  | nil => simp [upsertAll]
  | cons y ys ih =>
    rw [upsertAll_cons, ih, mem_map_key_upsert fun z => hkey z y, List.map_cons, List.mem_cons,
      or_assoc]

theorem nodup_upsertAll (hkey : ∀ y x, key y = key x → key (combine y x) = key x)
    (hn : (xs.map key).Nodup) : ((upsertAll key combine xs ys).map key).Nodup := by
  induction ys generalizing xs with
  | nil => exact hn
  | cons y ys ih => exact ih (nodup_upsert (fun z => hkey z y) hn)

/-- Entries with new names go to the end. -/
theorem upsertAll_of_not_mem (hn : (ys.map key).Nodup) (h : ∀ y ∈ ys, key y ∉ xs.map key) :
    upsertAll key combine xs ys = xs ++ ys := by
  induction ys generalizing xs with
  | nil => exact (List.append_nil xs).symm
  | cons y ys ih =>
    obtain ⟨hy, hys⟩ := List.nodup_cons.mp hn
    have hnew : ∀ z ∈ ys, key z ∉ (xs ++ [y]).map key := by
      intro z hz hmem
      rw [List.map_append, List.mem_append] at hmem
      rcases hmem with hmem | hmem
      · exact h z (List.mem_cons_of_mem y hz) hmem
      · exact hy (List.mem_singleton.mp hmem ▸ List.mem_map_of_mem hz)
    rw [upsertAll_cons, upsert_of_not_mem (h y List.mem_cons_self), ih hys hnew, List.append_assoc]
    rfl

/-- **A name stands for both entries of that name**, combined. -/
theorem entryOf_upsertAll (hkey : ∀ y x, key y = key x → key (combine y x) = key x)
    (hn : (ys.map key).Nodup) (name : String) :
    entryOf key (upsertAll key combine xs ys) name =
      (entryOf key xs name).merge combine (entryOf key ys name) := by
  induction ys generalizing xs with
  | nil => exact Option.merge_none_right.symm
  | cons y ys ih =>
    obtain ⟨hy, hys⟩ := List.nodup_cons.mp hn
    rw [upsertAll_cons, ih hys, entryOf_upsert fun z => hkey z y, entryOf_cons]
    by_cases hname : key y = name
    · have hnone : entryOf key ys name = none := entryOf_eq_none_iff.mpr (hname ▸ hy)
      rw [if_pos hname, if_pos hname, hnone]
      cases entryOf key xs name <;> rfl
    · rw [if_neg hname, if_neg hname]

/-! ### Entries by name -/

namespace Keyed

theorem put_eq_upsert (name : String) (value : α) (m : Named α) :
    put name value m = upsert Prod.fst (fun _ e => e) (name, value) m := by
  induction m with
  | nil => rfl
  | cons p m ih =>
    unfold put
    by_cases h : p.1 = name
    · rw [if_pos h, upsert_cons_of_eq m h, h]
    · rw [if_neg h, upsert_cons_of_ne m h, ih]

/-- **Every name** has one entry. -/
theorem nodup_keys_ofList (entries : List (String × α)) :
    ((ofList entries).map Prod.fst).Nodup := by
  have hput : ofList entries = upsertAll Prod.fst (fun _ e => e) [] entries := by
    unfold ofList upsertAll
    congr 1
    funext m e
    exact put_eq_upsert e.1 e.2 m
  rw [hput]
  exact nodup_upsertAll (fun _ _ _ => rfl) List.nodup_nil

end Keyed
end Sx16
