/-
# Memory

65536 bytes in 256 pages of 256 bytes. Every address has a byte, and a word takes the byte of the
next address too, where the address after the last one is the first.

Key definitions: `Memory`, `Memory.byte`, `Memory.putByte`, `Memory.word`, `Memory.putWord`.
Key theorems: `Memory.byte_putByte`, `Memory.ext_byte`.
-/
import Sx16.Word

namespace Sx16

/-- A byte for every address. -/
structure Memory where
  pages : Vector (Vector UInt8 256) 256

namespace Memory

/-- The page of an address. -/
def page (a : UInt16) : Fin 256 :=
  ⟨a.toNat / 256, by have := a.toNat_lt; omega⟩

/-- The position of an address in its page. -/
def cell (a : UInt16) : Fin 256 :=
  ⟨a.toNat % 256, Nat.mod_lt _ (by decide)⟩

/-- Memory with zeros everywhere. -/
def zero : Memory := ⟨Vector.replicate 256 (Vector.replicate 256 0)⟩

/-- The byte at an address. -/
def byte (m : Memory) (a : UInt16) : UInt8 :=
  m.pages[page a][cell a]

/-- The memory with another byte at an address. -/
def putByte (m : Memory) (a : UInt16) (b : UInt8) : Memory :=
  ⟨m.pages.set (page a) (m.pages[page a].set (cell a) b)⟩

/-- The word at an address. -/
def word (m : Memory) (a : UInt16) : UInt16 :=
  Word.ofBytes (m.byte a) (m.byte (a + 1))

/-- The memory with another word at an address. -/
def putWord (m : Memory) (a : UInt16) (w : UInt16) : Memory :=
  (m.putByte a (Word.low w)).putByte (a + 1) (Word.high w)

theorem page_cell_inj {a b : UInt16} (hp : page a = page b) (hc : cell a = cell b) : a = b := by
  have h1 : a.toNat / 256 = b.toNat / 256 := congrArg Fin.val hp
  have h2 : a.toNat % 256 = b.toNat % 256 := congrArg Fin.val hc
  apply UInt16.toNat_inj.mp
  omega

theorem byte_putByte (m : Memory) (a b : UInt16) (v : UInt8) :
    (m.putByte a v).byte b = if a = b then v else m.byte b := by
  unfold putByte byte
  simp only [Fin.getElem_fin, Vector.getElem_set]
  by_cases hp : (page a).val = (page b).val
  · by_cases hc : (cell a).val = (cell b).val
    · simp [page_cell_inj (Fin.ext hp) (Fin.ext hc)]
    · have hne : a ≠ b := fun h => hc (h ▸ rfl)
      simp [hp, hc, hne]
  · have hne : a ≠ b := fun h => hp (h ▸ rfl)
    simp [hp, hne]

@[simp] theorem byte_zero (a : UInt16) : zero.byte a = 0 := by
  simp [zero, byte, Fin.getElem_fin]

theorem exists_page_cell (i j : Fin 256) : ∃ a, page a = i ∧ cell a = j := by
  refine ⟨UInt16.ofNat (i.val * 256 + j.val), Fin.ext ?_, Fin.ext ?_⟩ <;>
    simp only [page, cell, UInt16.toNat_ofNat'] <;> omega

theorem ext_byte {m m' : Memory} (h : ∀ a, m.byte a = m'.byte a) : m = m' := by
  rcases m with ⟨p⟩
  rcases m' with ⟨p'⟩
  congr 1
  apply Vector.ext
  intro i hi
  apply Vector.ext
  intro j hj
  obtain ⟨a, ha, hb⟩ := exists_page_cell ⟨i, hi⟩ ⟨j, hj⟩
  have := h a
  simpa [byte, ha, hb, Fin.getElem_fin] using this

end Memory
end Sx16
