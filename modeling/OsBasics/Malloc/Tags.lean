/-
  The macros of `mm_freeList.c` on well-formed words.

  `Tagged m b` says that the header and the footer of `b` hold its tag. On a
  block that `Fits` the address space no macro wraps, so each one is plain
  arithmetic on the block (`getSize_hdrp`, `ftrp_eq`, `rightBlkp_eq`,
  `leftBlkp_eq`).
-/
import OsBasics.Lib.Tiling
import OsBasics.Malloc.FreeList
import Mathlib.Data.Nat.Bitwise

namespace OsBasics.Malloc

open OsBasics.Lib

/-! ## Machine arithmetic -/

theorem addU_eq {a b : Nat} (h : a + b < addrSpace) : addU a b = a + b := if_pos h

theorem subU_eq {a b : Nat} (h : b ≤ a) : subU a b = a - b := if_pos h

theorem maxU_eq (x y : Nat) : maxU x y = max x y := by
  unfold maxU
  split <;> omega

theorem hdrp_eq {bp : Nat} (h : 4 ≤ bp) : hdrp bp = bp - 4 := subU_eq h

theorem getAlloc_eq (m : Mem) (p : Nat) : getAlloc m p = get m p % 2 := Nat.and_one_is_mod _

theorem pack_zero (n : Nat) : pack n 0 = n := Nat.or_zero n

theorem pack_one {n : Nat} (h : n % 8 = 0) : pack n 1 = n + 1 := by
  obtain ⟨k, rfl⟩ : ∃ k, n = 8 * k := ⟨n / 8, by omega⟩
  exact (Nat.two_pow_add_eq_or_of_lt (show 1 < 2 ^ 3 by decide) k).symm

theorem clearLow_add {n a : Nat} (h : n % 8 = 0) (ha : a < 8) : clearLow (n + a) = n := by
  unfold clearLow
  omega

theorem align_eq {n : Nat} (h : n + 7 < addrSpace) : align n = (n + 7) / 8 * 8 := by
  unfold align clearLow
  rw [addU_eq (by simpa [dsize] using h)]
  rfl

/-- The largest request whose block size is still below `2^32`. -/
def maxRequest : Nat := 4294967280

/-- Requests up to `maxRequest` are rounded and padded without wrapping. -/
theorem newsize_eq {size : Nat} (h : size ≤ maxRequest) :
    newsize size = max ((size + 7) / 8 * 8 + 8) 24 := by
  unfold maxRequest at h
  unfold newsize
  rw [align_eq (by unfold addrSpace; omega), addU_eq (by unfold dsize addrSpace; omega), maxU_eq]
  rfl

theorem newsize_room {size : Nat} (h : size ≤ maxRequest) : size + 8 ≤ newsize size := by
  rw [newsize_eq h]
  omega

/-- Larger requests wrap, in ALIGN or when DSIZE is added, and ask for the least block. -/
theorem newsize_wraps {size : Nat} (h : maxRequest < size) (h' : size < addrSpace) :
    newsize size = minBlocksize := by
  unfold maxRequest at h
  unfold newsize
  rw [maxU_eq]
  unfold align clearLow addU dsize minBlocksize addrSpace at *
  split <;> split <;> omega

theorem newsize_bounds {size : Nat} (h : size < addrSpace) :
    24 ≤ newsize size ∧ newsize size % 8 = 0 ∧ newsize size < addrSpace := by
  by_cases hle : size ≤ maxRequest
  · rw [newsize_eq hle]
    unfold maxRequest addrSpace at *
    omega
  · rw [newsize_wraps (by omega) h]
    decide

theorem extendsize_eq (size : Nat) : extendsize size = max (newsize size) 4096 := by
  unfold extendsize
  rw [maxU_eq]
  rfl

/-! ## Words of the heap -/

@[simp] theorem put_mem (s : Heap) (p v : Nat) : (put s p v).mem = putWord s.mem p v := rfl
@[simp] theorem put_memStartBrk (s : Heap) (p v : Nat) :
    (put s p v).memStartBrk = s.memStartBrk := rfl
@[simp] theorem put_memBrk (s : Heap) (p v : Nat) : (put s p v).memBrk = s.memBrk := rfl
@[simp] theorem put_memMaxAddr (s : Heap) (p v : Nat) :
    (put s p v).memMaxAddr = s.memMaxAddr := rfl
@[simp] theorem put_start (s : Heap) (p v : Nat) : (put s p v).start = s.start := rfl

theorem get_congr {m m' : Mem} {p : Nat} (h : ∀ q, p ≤ q → q < p + 4 → m' q = m q) :
    get m' p = get m p := wordAt_congr h

theorem get_putWord_same (m : Mem) (p : Nat) {v : Nat} (hv : v < addrSpace) :
    get (putWord m p v) p = v := wordAt_putWord_same m p hv

theorem get_putWord_ne (m : Mem) {p q : Nat} (v : Nat) (h : q + 4 ≤ p ∨ p + 4 ≤ q) :
    get (putWord m p v) q = get m q := wordAt_putWord_ne m v h

/-! ## Blocks with their tags -/

/-- The tag word of a block: its size, and the low bit when it is in use. -/
def tag (b : Block) : Nat := b.size + if b.alloc then 1 else 0

/-- The block lies in the address space, with room for its header. -/
structure Fits (b : Block) : Prop where
  low : 8 ≤ b.addr
  high : b.addr + b.size < addrSpace
  min : 24 ≤ b.size
  dword : b.size % 8 = 0

theorem Fits.release {b : Block} (h : Fits b) : Fits b.release where
  low := h.low
  high := by simpa using h.high
  min := h.min
  dword := h.dword

/-- Header and footer of the block hold its tag. -/
structure Tagged (m : Mem) (b : Block) : Prop where
  header : get m (b.addr - 4) = tag b
  footer : get m (b.addr + b.size - 8) = tag b

theorem clearLow_tag {b : Block} (h : b.size % 8 = 0) : clearLow (tag b) = b.size :=
  clearLow_add h (by split <;> decide)

theorem tag_mod_two {b : Block} (h : b.size % 8 = 0) :
    tag b % 2 = if b.alloc then 1 else 0 := by
  unfold tag
  split <;> omega

theorem tag_free {b : Block} (h : b.alloc = false) : tag b = b.size := by simp [tag, h]

theorem tag_alloc {b : Block} (h : b.alloc = true) : tag b = b.size + 1 := by simp [tag, h]

/-- A word that holds the tag of a block gives its size and its allocation bit. -/
theorem getSize_of_tag {m : Mem} {b : Block} {p : Nat} (hb : b.size % 8 = 0)
    (h : get m p = tag b) : getSize m p = b.size := by
  unfold getSize
  rw [h, clearLow_tag hb]

theorem getAlloc_of_tag {m : Mem} {b : Block} {p : Nat} (hb : b.size % 8 = 0)
    (h : get m p = tag b) : getAlloc m p = if b.alloc then 1 else 0 := by
  rw [getAlloc_eq, h, tag_mod_two hb]

/-- The block lies in the address space, with room for its two tags. -/
structure Room (b : Block) : Prop where
  low : 4 ≤ b.addr
  high : b.addr + b.size < addrSpace
  min : 8 ≤ b.size
  dword : b.size % 8 = 0

theorem Fits.room {b : Block} (h : Fits b) : Room b where
  low := by have := h.low; omega
  high := h.high
  min := by have := h.min; omega
  dword := h.dword

namespace Room

variable {m : Mem} {b : Block} (hf : Room b) (ht : Tagged m b)
include hf

theorem tag_lt : tag b < addrSpace := by
  have h1 := hf.low
  have h2 := hf.high
  unfold tag
  split <;> omega

theorem hdrp_addr : hdrp b.addr = b.addr - 4 := hdrp_eq hf.low

/-- `LEFT_BLKP` of the address behind a block is the block: it reads the footer only. -/
theorem leftBlkp_of_footer (h : get m (b.addr + b.size - 8) = tag b) :
    leftBlkp m (b.addr + b.size) = b.addr := by
  have h1 := hf.min
  have hp : subU (b.addr + b.size - 4) wsize = b.addr + b.size - 8 := by
    rw [subU_eq (by unfold wsize; omega)]
    unfold wsize
    omega
  unfold leftBlkp
  rw [hdrp_eq (by omega), hp, getSize_of_tag hf.dword h, subU_eq (by omega)]
  omega

include ht

theorem getSize_hdrp : getSize m (hdrp b.addr) = b.size := by
  rw [hf.hdrp_addr]
  exact getSize_of_tag hf.dword ht.header

theorem rightBlkp_eq : rightBlkp m b.addr = b.addr + b.size := by
  unfold rightBlkp
  rw [hf.getSize_hdrp ht, addU_eq hf.high]

theorem ftrp_eq : ftrp m b.addr = b.addr + b.size - 8 := by
  have h1 := hf.min
  unfold ftrp
  rw [hf.getSize_hdrp ht, addU_eq hf.high]
  exact subU_eq (by unfold dsize; omega)

theorem leftBlkp_eq : leftBlkp m (b.addr + b.size) = b.addr := hf.leftBlkp_of_footer ht.footer

end Room

section Macros

variable {m : Mem} {b : Block} (hf : Fits b) (ht : Tagged m b)
include hf

theorem tag_lt : tag b < addrSpace := hf.room.tag_lt

theorem hdrp_addr : hdrp b.addr = b.addr - 4 := hf.room.hdrp_addr

include ht

theorem getSize_hdrp : getSize m (hdrp b.addr) = b.size := hf.room.getSize_hdrp ht

theorem getAlloc_hdrp : getAlloc m (hdrp b.addr) = if b.alloc then 1 else 0 := by
  rw [hdrp_addr hf]
  exact getAlloc_of_tag hf.dword ht.header

theorem rightBlkp_eq : rightBlkp m b.addr = b.addr + b.size := hf.room.rightBlkp_eq ht

theorem ftrp_eq : ftrp m b.addr = b.addr + b.size - 8 := hf.room.ftrp_eq ht

theorem getAlloc_ftrp : getAlloc m (ftrp m b.addr) = if b.alloc then 1 else 0 := by
  rw [ftrp_eq hf ht]
  exact getAlloc_of_tag hf.dword ht.footer

theorem leftBlkp_eq : leftBlkp m (b.addr + b.size) = b.addr := hf.room.leftBlkp_eq ht

end Macros

/-- Tags survive a change of other bytes. -/
theorem Tagged.congr {m m' : Mem} {b : Block} (ht : Tagged m b)
    (h1 : ∀ q, b.addr - 4 ≤ q → q < b.addr - 4 + 4 → m' q = m q)
    (h2 : ∀ q, b.addr + b.size - 8 ≤ q → q < b.addr + b.size - 8 + 4 → m' q = m q) :
    Tagged m' b :=
  ⟨(get_congr h1).trans ht.header, (get_congr h2).trans ht.footer⟩

/-- Writing both tags of a block tags it. -/
theorem tagged_put {m : Mem} {b : Block} (hf : Fits b) :
    Tagged (putWord (putWord m (b.addr - 4) (tag b)) (b.addr + b.size - 8) (tag b)) b := by
  have h1 := hf.low
  have h2 := hf.min
  refine ⟨?_, get_putWord_same _ _ (tag_lt hf)⟩
  rw [get_putWord_ne _ _ (by omega), get_putWord_same _ _ (tag_lt hf)]

end OsBasics.Malloc
