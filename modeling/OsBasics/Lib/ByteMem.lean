/-
  Byte memory with four-byte little-endian words.

  `wordAt m p` reads the word at `p`, `putWord m p v` stores one. A store
  changes the four bytes `p, …, p + 3` and no other (`putWord_byte`), so a word
  that does not overlap it is unchanged (`wordAt_putWord_ne`). Addresses are
  natural numbers; a user with a bounded address space keeps the bound.
-/
import Mathlib.Data.Nat.Notation
import Mathlib.Tactic.SplitIfs

namespace OsBasics.Lib

/-- Memory: one byte at every address. -/
abbrev Mem := Nat → UInt8

/-- The little-endian word at `p`. -/
def wordAt (m : Mem) (p : Nat) : Nat :=
  (m p).toNat + 256 * ((m (p + 1)).toNat + 256 * ((m (p + 2)).toNat + 256 * (m (p + 3)).toNat))

/-- Store the low 32 bits of `v` as the word at `p`. -/
def putWord (m : Mem) (p v : Nat) : Mem := fun q =>
  if q = p then UInt8.ofNat v
  else if q = p + 1 then UInt8.ofNat (v / 256)
  else if q = p + 2 then UInt8.ofNat (v / 65536)
  else if q = p + 3 then UInt8.ofNat (v / 16777216)
  else m q

/-- Store one byte. -/
def putByte (m : Mem) (p : Nat) (b : UInt8) : Mem := fun q => if q = p then b else m q

theorem wordAt_lt (m : Mem) (p : Nat) : wordAt m p < 4294967296 := by
  have h0 := (m p).toNat_lt
  have h1 := (m (p + 1)).toNat_lt
  have h2 := (m (p + 2)).toNat_lt
  have h3 := (m (p + 3)).toNat_lt
  unfold wordAt
  omega

/-- A word depends on its four bytes only. -/
theorem wordAt_congr {m m' : Mem} {p : Nat} (h : ∀ q, p ≤ q → q < p + 4 → m' q = m q) :
    wordAt m' p = wordAt m p := by
  unfold wordAt
  rw [h p (by omega) (by omega), h (p + 1) (by omega) (by omega),
    h (p + 2) (by omega) (by omega), h (p + 3) (by omega) (by omega)]

/-- A store leaves every byte outside its word alone. -/
theorem putWord_byte (m : Mem) {p q : Nat} (v : Nat) (h : q < p ∨ p + 4 ≤ q) :
    putWord m p v q = m q := by
  unfold putWord
  rw [if_neg (by omega), if_neg (by omega), if_neg (by omega), if_neg (by omega)]

theorem putByte_ne (m : Mem) {p q : Nat} (b : UInt8) (h : q ≠ p) : putByte m p b q = m q :=
  if_neg h

@[simp] theorem putByte_same (m : Mem) (p : Nat) (b : UInt8) : putByte m p b p = b :=
  if_pos rfl

theorem wordAt_putWord_same (m : Mem) (p : Nat) {v : Nat} (hv : v < 4294967296) :
    wordAt (putWord m p v) p = v := by
  have e0 : putWord m p v p = UInt8.ofNat v := by simp [putWord]
  have e1 : putWord m p v (p + 1) = UInt8.ofNat (v / 256) := by simp [putWord]
  have e2 : putWord m p v (p + 2) = UInt8.ofNat (v / 65536) := by simp [putWord]
  have e3 : putWord m p v (p + 3) = UInt8.ofNat (v / 16777216) := by simp [putWord]
  unfold wordAt
  rw [e0, e1, e2, e3]
  simp only [UInt8.toNat_ofNat']
  omega

theorem wordAt_putWord_ne (m : Mem) {p q : Nat} (v : Nat) (h : q + 4 ≤ p ∨ p + 4 ≤ q) :
    wordAt (putWord m p v) q = wordAt m q :=
  wordAt_congr fun r h1 h2 => putWord_byte m v (by omega)

/-- The last of two stores to one word counts. -/
theorem putWord_putWord (m : Mem) (p v w : Nat) : putWord (putWord m p v) p w = putWord m p w := by
  funext q
  unfold putWord
  split
  · rfl
  · split
    · rfl
    · split
      · rfl
      · split <;> rfl

theorem wordAt_putByte_ne (m : Mem) {p q : Nat} (b : UInt8) (h : p < q ∨ q + 4 ≤ p) :
    wordAt (putByte m p b) q = wordAt m q :=
  wordAt_congr fun r h1 h2 => putByte_ne m b (by omega)

end OsBasics.Lib
