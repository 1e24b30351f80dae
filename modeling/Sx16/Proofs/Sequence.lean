/-
# Actions in sequence

A sequence that ends well has ended well in each of its parts, and one that fails has failed in its first
part or, after that ended well, in its second. Readers that give a value or an error and actions that also
change a state are taken apart alike; a list that is read gives a list just if each of its items is read.

Key theorems: `ok_of_bind`, `ok_of_toOption`, `run_bind_eq_ok_iff`, `error_of_run_bind`,
`mapM_eq_some_iff`, `exists_mem_of_forall₂`.
-/
import Mathlib.Data.List.Forall2

namespace Sx16

theorem ok_of_bind {ε α β : Type} {x : Except ε α} {f : α → Except ε β} {b : β}
    (h : x >>= f = .ok b) : ∃ a, x = .ok a ∧ f a = .ok b := by
  cases x with
  | ok a => exact ⟨a, rfl, h⟩
  | error e => cases h

theorem ok_of_toOption {ε α : Type} {x : Except ε α} {a : α} (h : x.toOption = some a) :
    x = .ok a := by
  cases x with
  | ok b => exact congrArg Except.ok (Option.some.inj h)
  | error e => cases h

/-- What a step that ends well did: its first part ended well, and then its second part. -/
theorem ok_of_run_bind {ε σ α β : Type} {x : EStateM ε σ α} {f : α → EStateM ε σ β} {s s'' : σ}
    {b : β} (h : (x >>= f).run s = .ok b s'') :
    ∃ r s', x.run s = .ok r s' ∧ (f r).run s' = .ok b s'' := by
  rw [EStateM.run_bind] at h
  cases hx : x.run s with
  | error e s' =>
    rw [hx] at h
    cases h
  | ok r s' =>
    rw [hx] at h
    exact ⟨r, s', rfl, h⟩

theorem run_bind_eq_ok_iff {ε σ α β : Type} {x : EStateM ε σ α} {f : α → EStateM ε σ β} {s s'' : σ}
    {b : β} : (x >>= f).run s = .ok b s'' ↔
      ∃ r s', x.run s = .ok r s' ∧ (f r).run s' = .ok b s'' := by
  refine ⟨ok_of_run_bind, ?_⟩
  rintro ⟨r, s', hx, hf⟩
  rw [EStateM.run_bind, hx]
  exact hf

/-- Where a step fails: in its first part, or after that in its second. -/
theorem error_of_run_bind {ε σ α β : Type} {x : EStateM ε σ α} {f : α → EStateM ε σ β} {s s'' : σ}
    {e : ε} (h : (x >>= f).run s = .error e s'') :
    x.run s = .error e s'' ∨ ∃ r s', x.run s = .ok r s' ∧ (f r).run s' = .error e s'' := by
  rw [EStateM.run_bind] at h
  cases hx : x.run s with
  | error e' s' =>
    rw [hx] at h
    cases h
    exact .inl rfl
  | ok r s' =>
    rw [hx] at h
    exact .inr ⟨r, s', rfl, h⟩

/-! ### Values without their errors -/

theorem mapM_eq_some_iff {α β : Type} {f : α → Option β} {xs : List α} {ys : List β} :
    xs.mapM f = some ys ↔ List.Forall₂ (fun x y => f x = some y) xs ys := by
  induction xs generalizing ys with
  | nil =>
    rw [List.mapM_nil, List.forall₂_nil_left_iff]
    exact ⟨fun h => (Option.some.inj h).symm, fun h => congrArg some h.symm⟩
  | cons x xs ih =>
    rw [List.mapM_cons, List.forall₂_cons_left_iff]
    constructor
    · intro h
      obtain ⟨y, hy, h⟩ := Option.bind_eq_some_iff.mp h
      obtain ⟨zs, hzs, h⟩ := Option.bind_eq_some_iff.mp h
      exact ⟨y, zs, hy, ih.mp hzs, (Option.some.inj h).symm⟩
    · rintro ⟨y, zs, hy, hzs, rfl⟩
      rw [hy, ih.mpr hzs]
      rfl

/-- What is on the right of a pairing has something on the left. -/
theorem exists_mem_of_forall₂ {α β : Type} {P : α → β → Prop} {as : List α} {bs : List β}
    (h : List.Forall₂ P as bs) {b : β} (hb : b ∈ bs) : ∃ a ∈ as, P a b := by
  induction h with
  | nil => cases hb
  | @cons a b' as bs hab _ ih =>
    rcases List.mem_cons.mp hb with rfl | hb
    · exact ⟨a, List.mem_cons_self, hab⟩
    · obtain ⟨a', ha', hp⟩ := ih hb
      exact ⟨a', List.mem_cons_of_mem a ha', hp⟩

theorem toOption_eq_some_iff {ε α : Type} {x : Except ε α} {a : α} :
    x.toOption = some a ↔ x = .ok a :=
  ⟨ok_of_toOption, fun h => by rw [h]; rfl⟩

theorem toOption_mapM {ε α β : Type} (f : α → Except ε β) (xs : List α) :
    (xs.mapM f).toOption = xs.mapM fun x => (f x).toOption := by
  induction xs with
  | nil => rfl
  | cons x xs ih =>
    rw [List.mapM_cons, List.mapM_cons, ← ih]
    cases f x with
    | error e => rfl
    | ok y => cases xs.mapM f <;> rfl

end Sx16
