/-
# Assembled modules can be written

The names of an assembled module are words of its source text, so they fit into the lines of the
module's text; the reserved symbol is as it was created, unless the source text declares it. The
numbers in the lines have 32 bits, so there must not be more symbols than that.

Key definitions: `Symbol.reserved`.
Key theorems: `MadeOf.reserved`, `Compiled.isWord`, `Assembled.writable`.
-/
import Sx16.Proofs.Assembly.Sound
import Sx16.Proofs.Object.ReadBack

namespace Sx16

variable {is : Program} {t : SymbolTable} {name : String} {m : ObjectModule}

/-! ### Words -/

namespace IsWord

theorem isField (h : IsWord name) : IsField name where
  nonempty := h.nonempty
  colon hc := absurd (h.chars _ hc) (by decide)
  feed hc := absurd (h.chars _ hc) (by decide)

theorem isTrimmed (h : IsWord name) : Text.IsTrimmed name where
  feed := h.isField.feed
  last c hc := isBlank_of_isWordChar (h.chars c (List.mem_of_getLast? hc))

end IsWord

namespace Compiled

theorem isWord_of_isShared (h : Compiled is t m) (hs : is.isShared name = true) : IsWord name := by
  obtain ⟨i, hi, hname⟩ := exists_of_isShared hs
  exact h.spelled hi hname

/-- **The names of symbols** are words. -/
theorem isWord (h : Compiled is t m) {s : Symbol} (hs : s ∈ m.symbols.toList) : IsWord s.name := by
  rw [h.symbols] at hs
  obtain ⟨s', hs', rfl⟩ := SymbolTable.mem_settled.mp hs
  rcases h.knows.mentioned (h.knows.tidy.get?_eq_some_iff.mpr ⟨hs', rfl⟩) with hname | ⟨i, hi, hname⟩
  · show IsWord s'.name
    rw [hname]
    exact ⟨by decide, List.all_eq_true.mp (by decide)⟩
  · exact h.spelled hi hname

end Compiled

/-! ### The reserved symbol -/

/-- The reserved symbol with flags. -/
def Symbol.reserved (exported imported : Bool) : Symbol := { undefined with exported, imported }

/-- **The reserved symbol** is as it was created, but for what declarations of its name say. -/
theorem MadeOf.reserved (h : MadeOf is t m) : m.symbols.byId? 0 = some (Symbol.reserved
    (decide (Symbol.undefinedName ∈ is.exported)) (decide (Symbol.undefinedName ∈ is.imported))) := by
  obtain ⟨s, hs, hname⟩ := Option.map_eq_some_iff.mp h.knows.reserved
  have hd := h.knows.describes_of_mem (SymbolTable.mem_toList_iff.mpr ⟨0, hs⟩)
  rw [hname] at hd
  have hsec := h.knows.coherent.reserved_section
  have hexp : s.exported = decide (Symbol.undefinedName ∈ is.exported) :=
    Bool.eq_iff_iff.mpr (by rw [hd.exported, or_iff_left hsec, decide_eq_true_iff])
  have himp : s.imported = decide (Symbol.undefinedName ∈ is.imported) :=
    Bool.eq_iff_iff.mpr (by rw [hd.imported, or_iff_left hsec, decide_eq_true_iff])
  have howner : s.owner = 0 := by
    have hdef := hd.unlabelled h.knows.coherent.reserved_label hsec
    simpa [Symbol.isDefined] using hdef
  obtain ⟨hvalue, hsize⟩ := hd.empty rfl
  have hnumber := h.knows.tidy.number hs
  rw [h.symbols, SymbolTable.byId?_settled, hs, ← hexp, ← himp]
  obtain ⟨n, o, v, e, i, k, z, u⟩ := s
  simp only at hname howner hvalue hsize hnumber
  subst hname howner hvalue hsize hnumber
  rfl

namespace Compiled

/-- The reserved symbol of a module that does not declare it is as it was created. -/
theorem reserved (h : Compiled is t m) : m.symbols.byId? 0 = some Symbol.undefined := by
  rw [h.toMadeOf.reserved, decide_eq_false h.exported, decide_eq_false h.imported]
  rfl

theorem toList_eq (h : Compiled is t m) :
    m.symbols.toList = Symbol.undefined :: m.symbols.toList.tail := by
  have hhead : m.symbols.toList[0]? = some Symbol.undefined :=
    Array.getElem?_toList.trans h.reserved
  rw [← List.head?_eq_getElem?] at hhead
  obtain ⟨ss, hss⟩ := List.head?_eq_some_iff.mp hhead
  rw [hss]
  rfl

end Compiled

/-- **An assembled module** can be written. -/
theorem Assembled.writable (h : Assembled m) (hsize : m.symbols.size ≤ 0x100000000) : m.Writable := by
  obtain ⟨is, t, hc, -⟩ := h.exists_compiled
  have hlist := hc.toList_eq
  constructor
  · rw [hlist]
    rfl
  · intro s hs
    have hmem : s ∈ m.symbols.toList := List.mem_of_mem_tail hs
    have hnames := hc.tidy.nodup_names
    rw [hlist, List.map_cons, List.nodup_cons] at hnames
    have hname : s.name ≠ Symbol.undefinedName := fun he =>
      hnames.1 (List.mem_map.mpr ⟨s, hs, he⟩)
    have hget := hc.tidy.get?_eq_some_iff.mpr ⟨hmem, rfl⟩
    obtain ⟨i, hi⟩ := SymbolTable.mem_toList_iff.mp hmem
    have hnumber : s.number < m.symbols.size := hc.tidy.number hi ▸ SymbolTable.byId?_lt hi
    have howner : s.owner < m.symbols.size := by
      obtain ⟨s', rfl, hd⟩ := hc.describes hget
      obtain ⟨x, hx⟩ := Option.isSome_iff_exists.mp hd.owned
      rw [← SymbolTable.nameOf?_settled, ← hc.symbols] at hx
      obtain ⟨y, hy, -⟩ := Option.map_eq_some_iff.mp hx
      exact SymbolTable.byId?_lt hy
    exact ⟨⟨(hc.isWord hmem).isField, by omega, by omega⟩, hname⟩
  · intro f hf
    rw [hc.sections] at hf
    obtain ⟨p, hp, rfl⟩ := List.mem_map.mp hf
    obtain ⟨k, x⟩ := p
    constructor
    · refine (hc.isWord_of_isShared (Program.isShared_eq_true.mpr (Or.inr (Or.inr ?_)))).isTrimmed
      exact List.fst_mem_of_mem_zipIdx hp
    · intro r hr
      obtain ⟨q, hq, rfl⟩ := List.mem_map.mp hr
      exact (hc.isWord_of_isShared (hc.isShared_target (List.mem_filter.mp hq).1)).isField

end Sx16
