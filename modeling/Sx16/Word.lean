/-
# Little-endian words

A 16-bit word lies in memory with its low byte first. `addWord` adds to a word in the middle of a
byte string and wraps at 16 bits; where no whole word stands it changes nothing.

Key definitions: `Word.ofBytes`, `Word.bytes`, `addWord`.
-/

namespace Sx16
namespace Word

/-- The word of two bytes. -/
def ofBytes (lo hi : UInt8) : UInt16 :=
  UInt16.ofNat (hi.toNat * 256 + lo.toNat)

/-- The low byte of a word. -/
def low (w : UInt16) : UInt8 :=
  UInt8.ofNat (w.toNat % 256)

/-- The high byte of a word. -/
def high (w : UInt16) : UInt8 :=
  UInt8.ofNat (w.toNat / 256)

/-- The two bytes of a word, low byte first. -/
def bytes (w : UInt16) : List UInt8 :=
  [low w, high w]

@[simp] theorem ofBytes_low_high (w : UInt16) : ofBytes (low w) (high w) = w := by
  apply UInt16.toNat_inj.mp
  have h := w.toNat_lt
  simp only [ofBytes, low, high, UInt16.toNat_ofNat', UInt8.toNat_ofNat']
  omega

@[simp] theorem low_ofBytes (lo hi : UInt8) : low (ofBytes lo hi) = lo := by
  apply UInt8.toNat_inj.mp
  have h := lo.toNat_lt
  have h' := hi.toNat_lt
  simp only [ofBytes, low, UInt16.toNat_ofNat', UInt8.toNat_ofNat']
  omega

@[simp] theorem high_ofBytes (lo hi : UInt8) : high (ofBytes lo hi) = hi := by
  apply UInt8.toNat_inj.mp
  have h := lo.toNat_lt
  have h' := hi.toNat_lt
  simp only [ofBytes, high, UInt16.toNat_ofNat', UInt8.toNat_ofNat']
  omega

end Word

/-- The word at a position of a byte string. -/
def wordAt? (bs : Array UInt8) (pos : Nat) : Option UInt16 :=
  match bs[pos]?, bs[pos + 1]? with
  | some lo, some hi => some (Word.ofBytes lo hi)
  | _, _ => none

/-- The byte string with a word written over the two bytes at a position inside it. -/
def putWord (bs : Array UInt8) (pos : Nat) (w : UInt16) : Array UInt8 :=
  (bs.setIfInBounds pos (Word.low w)).setIfInBounds (pos + 1) (Word.high w)

/-- The byte string with `v` added to the word at a position; no change where no word stands. -/
def addWord (bs : Array UInt8) (pos : Nat) (v : UInt16) : Array UInt8 :=
  match wordAt? bs pos with
  | some w => putWord bs pos (w + v)
  | none => bs

@[simp] theorem size_addWord (bs : Array UInt8) (pos : Nat) (v : UInt16) :
    (addWord bs pos v).size = bs.size := by
  unfold addWord putWord
  split <;> simp

end Sx16
