/-
# What an image holds

Consecutive bytes that were stored stand where they were stored, and all other addresses keep what
they had. An image that was made of byte strings that lie apart holds each of them, and nothing else.

Key definitions: `Image.storeAll`, `Blocks`, `Image.wordAt?`.
Key theorems: `Image.get?_store`, `Image.get?_storeAll`, `Image.get?_storeAll_eq_none`.
-/
import Sx16.Image.Basic
import Sx16.Word

namespace Sx16

/-- Byte strings with their starts: all inside the address space, no two with a common address. -/
structure Blocks (bs : List (UInt16 × List UInt8)) : Prop where
  inside : ∀ b ∈ bs, b.1.toNat + b.2.length ≤ 0x10000
  apart : bs.Pairwise fun b c => ∀ i < b.2.length, ∀ j < c.2.length, b.1.toNat + i ≠ c.1.toNat + j

theorem Blocks.perm {bs cs : List (UInt16 × List UInt8)} (h : Blocks bs) (hp : bs.Perm cs) :
    Blocks cs where
  inside b hb := h.inside b (hp.mem_iff.mpr hb)
  apart := hp.pairwise h.apart fun hbc j hj i hi => (hbc i hi j hj).symm

namespace Image

/-- The word at two addresses, low byte first. -/
def wordAt? (m : Image) (a : UInt16) : Option UInt16 := do
  let lo ← m.get? a
  let hi ← m.get? (a + 1)
  return Word.ofBytes lo hi

/-- The image with byte strings, one after the other. -/
def storeAll (m : Image) (bs : List (UInt16 × List UInt8)) : Image :=
  bs.foldl (fun m b => m.store b.1 b.2) m

variable {m : Image} {a x : UInt16} {bs : List (UInt16 × List UInt8)}

theorem get?_empty (x : UInt16) : empty.get? x = none := Std.ExtTreeMap.getElem?_empty

theorem get?_insert (m : Image) (a : UInt16) (b : UInt8) (x : UInt16) :
    (Image.mk (m.cells.insert a b)).get? x = if a = x then some b else m.get? x := by
  unfold get?
  rw [Std.ExtTreeMap.getElem?_insert]
  simp only [Std.LawfulEqCmp.compare_eq_iff_eq]

/-- **Stored bytes** stand in their order from their start on, and nothing else changed. -/
theorem get?_store {bs : List UInt8} (h : a.toNat + bs.length ≤ 0x10000) (m : Image) (x : UInt16) :
    (m.store a bs).get? x =
      (if a.toNat ≤ x.toNat then bs[x.toNat - a.toNat]? else none).or (m.get? x) := by
  induction bs generalizing m a with
  | nil => simp [store]
  | cons b bs ih =>
    rw [List.length_cons] at h
    -- The next address is zero again if nothing is left to store there.
    have hrest : (store ⟨m.cells.insert a b⟩ (a + 1) bs).get? x =
        (if a.toNat < x.toNat then bs[x.toNat - a.toNat - 1]? else none).or
          (if a = x then some b else m.get? x) := by
      cases bs with
      | nil => rw [store, get?_insert, List.getElem?_nil, ite_self, Option.none_or]
      | cons c cs =>
        rw [List.length_cons] at h
        have hnext : (a + 1).toNat = a.toNat + 1 := by
          rw [UInt16.toNat_add]
          exact Nat.mod_eq_of_lt (show a.toNat + 1 < 2 ^ 16 by omega)
        rw [ih (by rw [hnext, List.length_cons]; omega), get?_insert, hnext, Nat.sub_sub]
        rfl
    rw [store, hrest]
    rcases Nat.lt_trichotomy a.toNat x.toNat with hlt | heq | hgt
    · have hne : a ≠ x := fun he => Nat.ne_of_lt hlt (congrArg UInt16.toNat he)
      obtain ⟨k, hk⟩ : ∃ k, x.toNat - a.toNat = k + 1 := ⟨x.toNat - a.toNat - 1, by omega⟩
      rw [if_pos hlt, if_neg hne, if_pos (Nat.le_of_lt hlt), hk, List.getElem?_cons_succ]
      rfl
    · have he : a = x := UInt16.toNat_inj.mp heq
      subst he
      simp
    · have hne : a ≠ x := fun he => Nat.ne_of_gt hgt (congrArg UInt16.toNat he)
      rw [if_neg (by omega), if_neg hne, if_neg (by omega)]

theorem get?_store_of_lt {bs : List UInt8} (h : a.toNat + bs.length ≤ 0x10000) (m : Image) {k : Nat}
    (hk : k < bs.length) (hx : x.toNat = a.toNat + k) : (m.store a bs).get? x = bs[k]? := by
  have hsub : x.toNat - a.toNat = k := by omega
  rw [get?_store h, if_pos (by omega), hsub, List.getElem?_eq_getElem hk]
  rfl

theorem get?_store_of_ne {bs : List UInt8} (h : a.toNat + bs.length ≤ 0x10000) (m : Image)
    (hx : ∀ k < bs.length, x.toNat ≠ a.toNat + k) : (m.store a bs).get? x = m.get? x := by
  rw [get?_store h]
  split
  · have hlen : bs.length ≤ x.toNat - a.toNat :=
      Nat.le_of_not_lt fun hlt => hx (x.toNat - a.toNat) hlt (by omega)
    rw [List.getElem?_eq_none hlen]
    rfl
  · rfl

/-! ### Many byte strings -/

theorem get?_storeAll_of_ne (h : Blocks bs) (m : Image)
    (hx : ∀ b ∈ bs, ∀ k < b.2.length, x.toNat ≠ b.1.toNat + k) :
    (m.storeAll bs).get? x = m.get? x := by
  induction bs generalizing m with
  | nil => rfl
  | cons c cs ih =>
    have hcs : Blocks cs :=
      ⟨fun b hb => h.inside b (List.mem_cons_of_mem _ hb), (List.pairwise_cons.mp h.apart).2⟩
    have hc := h.inside c List.mem_cons_self
    have hrest := ih hcs (m.store c.1 c.2) fun b hb => hx b (List.mem_cons_of_mem _ hb)
    exact hrest.trans (get?_store_of_ne hc m (hx c List.mem_cons_self))

/-- **Byte strings that lie apart** are all held. -/
theorem get?_storeAll (h : Blocks bs) (m : Image) {b : UInt16 × List UInt8} (hb : b ∈ bs) {k : Nat}
    (hk : k < b.2.length) (hx : x.toNat = b.1.toNat + k) :
    (m.storeAll bs).get? x = b.2[k]? := by
  induction bs generalizing m with
  | nil => cases hb
  | cons c cs ih =>
    obtain ⟨hapart, hpair⟩ := List.pairwise_cons.mp h.apart
    have hcs : Blocks cs := ⟨fun b hb => h.inside b (List.mem_cons_of_mem _ hb), hpair⟩
    rcases List.mem_cons.mp hb with rfl | hb
    · have hrest := get?_storeAll_of_ne (x := x) hcs (m.store b.1 b.2) fun c hc j hj => by
        rw [hx]
        exact hapart c hc k hk j hj
      exact hrest.trans (get?_store_of_lt (h.inside b List.mem_cons_self) m hk hx)
    · exact ih hcs (m.store c.1 c.2) hb

/-- **Nothing else is held.** -/
theorem get?_storeAll_eq_none (h : Blocks bs)
    (hx : ∀ b ∈ bs, ∀ k < b.2.length, x.toNat ≠ b.1.toNat + k) :
    (empty.storeAll bs).get? x = none :=
  (get?_storeAll_of_ne h empty hx).trans (get?_empty x)

/-! ### The order of byte strings -/

theorem ext_get? {m m' : Image} (h : ∀ x, m.get? x = m'.get? x) : m = m' :=
  congrArg Image.mk (Std.ExtTreeMap.ext_getElem? fun {x} => h x)

/-- **Byte strings that lie apart** can be stored in any order. -/
theorem storeAll_perm {cs : List (UInt16 × List UInt8)} (h : Blocks bs) (hp : bs.Perm cs) :
    empty.storeAll bs = empty.storeAll cs := by
  have hcs := h.perm hp
  apply ext_get?
  intro x
  by_cases hx : ∃ b ∈ bs, ∃ k < b.2.length, x.toNat = b.1.toNat + k
  · obtain ⟨b, hb, k, hk, hxb⟩ := hx
    rw [get?_storeAll h empty hb hk hxb, get?_storeAll hcs empty (hp.mem_iff.mp hb) hk hxb]
  · have hno : ∀ b ∈ bs, ∀ k < b.2.length, x.toNat ≠ b.1.toNat + k :=
      fun b hb k hk hxb => hx ⟨b, hb, k, hk, hxb⟩
    have hno' : ∀ b ∈ cs, ∀ k < b.2.length, x.toNat ≠ b.1.toNat + k :=
      fun b hb => hno b (hp.mem_iff.mpr hb)
    rw [get?_storeAll_eq_none h hno, get?_storeAll_eq_none hcs hno']

end Image
end Sx16
