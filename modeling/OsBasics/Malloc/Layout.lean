/-
  What the allocator keeps: an abstract model of its heap.

  A `Layout` is the tiling of the heap by blocks and the free list, in the order
  `find_freeblock` walks it. The operations are first fit (`fit`), splitting
  (`place`), growing the heap (`extend`) and merging a freed block with its free
  neighbours (`coalesce`, used by `release`). Nothing here reads memory: tags,
  links and client bytes are the concern of the model of the code, which is shown
  to refine these operations (`Malloc.Refine`).

  `Valid lo hi` is the invariant: the blocks tile `[lo, hi)`, sizes are multiples
  of 8 and at least 24, no two neighbours are free, and the free list holds each
  free block once.
-/
import OsBasics.Lib.Tiling
import OsBasics.Malloc.FreeList
import Mathlib.Data.List.TakeDrop

namespace OsBasics.Malloc

open OsBasics.Lib

/-- The blocks from the first one up, and the free list from `start` on. -/
structure Layout where
  blocks : List Block
  free : List Nat
  deriving DecidableEq, Repr

namespace Layout

/-- `b` takes in the block behind it when that block is free. -/
def absorbRight (b : Block) : List Block → List Nat → Block × List Block × List Nat
  | [], fl => (b, [], fl)
  | y :: r, fl => if y.alloc then (b, y :: r, fl) else (b.join y, r, fl.erase y.addr)

/-- `b` is taken in by the block before it when that block is free. -/
def absorbLeft (l : List Block) (b : Block) (fl : List Nat) : List Block × Block × List Nat :=
  match l.getLast? with
  | none => (l, b, fl)
  | some x => if x.alloc then (l, b, fl) else (l.dropLast, x.join b, fl.erase x.addr)

/-- Merge the free block `b` between `l` and `r` with its free neighbours and put
    the result at the front of the free list. -/
def coalesce (l : List Block) (b : Block) (r : List Block) (fl : List Nat) : Nat × Layout :=
  let (l', b', fl') := absorbLeft l b fl
  let (b'', r', fl'') := absorbRight b' r fl'
  (b''.addr, ⟨l' ++ b'' :: r', b''.addr :: fl''⟩)

/-- The blocks before address `p`, and those from `p` on. -/
def cut (A : Layout) (p : Nat) : List Block × List Block :=
  A.blocks.span fun b => b.addr ≠ p

/-- Free the block at `p`. -/
def release (A : Layout) (p : Nat) : Layout :=
  match A.cut p with
  | (l, b :: r) => (coalesce l b.release r A.free).2
  | (_, []) => A

/-- Put an allocated block of `asize` bytes at the start of the free block at `p`. -/
def place (A : Layout) (p asize : Nat) : Layout :=
  match A.cut p with
  | (l, b :: r) =>
    if minBlocksize ≤ b.size - asize then
      (coalesce (l ++ [⟨p, asize, true⟩]) ⟨p + asize, b.size - asize, false⟩ r (A.free.erase p)).2
    else ⟨l ++ ⟨p, b.size, true⟩ :: r, A.free.erase p⟩
  | (_, []) => A

/-- First fit: the first block on the free list with at least `asize` bytes. -/
def fit (A : Layout) (asize : Nat) : Option Nat :=
  A.free.find? fun x => A.blocks.any fun b => b.addr = x ∧ asize ≤ b.size

/-- Add `e` free bytes at the end of the heap. -/
def extend (A : Layout) (brk e : Nat) : Nat × Layout := coalesce A.blocks ⟨brk, e, false⟩ [] A.free

/-- Whether the heap can grow from `brk` by the bytes a request of `size` asks for. -/
def Grows (brk hi size : Nat) : Prop :=
  extendsize size < 2147483648 ∧ brk + extendsize size ≤ hi

instance (brk hi size : Nat) : Decidable (Grows brk hi size) :=
  inferInstanceAs (Decidable (_ ∧ _))

/-- Allocate: first fit, or grow the heap, or fail with address 0. -/
def malloc (A : Layout) (brk hi size : Nat) : Nat × Layout :=
  match A.fit (newsize size) with
  | some p => (p, A.place p (newsize size))
  | none =>
    if Grows brk hi size then
      ((A.extend brk (extendsize size)).1,
        (A.extend brk (extendsize size)).2.place (A.extend brk (extendsize size)).1 (newsize size))
    else (0, A)

/-- The end of the heap after `malloc`. -/
def mallocBrk (A : Layout) (brk hi size : Nat) : Nat :=
  if A.fit (newsize size) = none ∧ Grows brk hi size then brk + extendsize size else brk

/-- Whether the heap would have to grow past the address space. -/
def MallocWraps (A : Layout) (brk size : Nat) : Prop :=
  A.fit (newsize size) = none ∧ extendsize size < 2147483648 ∧ addrSpace ≤ brk + extendsize size

instance (A : Layout) (brk size : Nat) : Decidable (A.MallocWraps brk size) :=
  inferInstanceAs (Decidable (_ ∧ _))

/-- The layout `mm_init` leaves at base `h`: one free block of `CHUNKSIZE/WSIZE` words. -/
def initial (h : Nat) : Layout := ⟨[⟨h + 48, 32, false⟩], [h + 48]⟩

/-! ## The invariant -/

/-- The blocks are as large and as aligned as the allocator makes them. -/
def Sized (bs : List Block) : Prop := ∀ b ∈ bs, minBlocksize ≤ b.size ∧ b.size % 8 = 0

/-- The addresses of the free blocks. -/
def freeAddrs (bs : List Block) : List Nat :=
  (bs.filter fun b => !b.alloc).map Block.addr

/-- The layout of a heap between two calls. -/
structure Valid (lo hi : Nat) (A : Layout) : Prop where
  tiles : Tiles lo A.blocks hi
  sized : Sized A.blocks
  sep : NoAdjFree A.blocks
  perm : A.free.Perm (freeAddrs A.blocks)

theorem Sized.append {l r : List Block} : Sized (l ++ r) ↔ Sized l ∧ Sized r := by
  simp only [Sized, List.mem_append]
  constructor
  · intro h
    exact ⟨fun b hb => h b (.inl hb), fun b hb => h b (.inr hb)⟩
  · rintro ⟨hl, hr⟩ b (hb | hb)
    · exact hl b hb
    · exact hr b hb

theorem Sized.cons {b : Block} {r : List Block} :
    Sized (b :: r) ↔ (minBlocksize ≤ b.size ∧ b.size % 8 = 0) ∧ Sized r := by
  simp [Sized]

theorem Sized.pos {bs : List Block} (h : Sized bs) : ∀ b ∈ bs, 0 < b.size := by
  intro b hb
  have := (h b hb).1
  unfold minBlocksize at this
  omega

theorem freeAddrs_append (l r : List Block) :
    freeAddrs (l ++ r) = freeAddrs l ++ freeAddrs r := by
  simp [freeAddrs]

theorem freeAddrs_cons_free {b : Block} (r : List Block) (h : b.alloc = false) :
    freeAddrs (b :: r) = b.addr :: freeAddrs r := by
  simp [freeAddrs, h]

theorem freeAddrs_cons_alloc {b : Block} (r : List Block) (h : b.alloc = true) :
    freeAddrs (b :: r) = freeAddrs r := by
  simp [freeAddrs, h]

theorem mem_freeAddrs {bs : List Block} {x : Nat} :
    x ∈ freeAddrs bs ↔ ∃ b ∈ bs, b.alloc = false ∧ b.addr = x := by
  simp [freeAddrs, and_assoc]

theorem nodup_freeAddrs {a e : Nat} {bs : List Block} (h : Tiles a bs e) (hs : Sized bs) :
    (freeAddrs bs).Nodup := by
  unfold freeAddrs
  rw [List.nodup_iff_pairwise_ne, List.pairwise_map]
  refine ((tiles_pairwise h).filter _).imp_of_mem ?_
  intro b c hb _ hbc
  have := hs.pos b (List.mem_of_mem_filter hb)
  omega

/-- Cutting a tiling at one of its blocks. -/
theorem cut_eq {a e : Nat} {l r : List Block} {b : Block} {fl : List Nat}
    (h : Tiles a (l ++ b :: r) e) (hs : Sized (l ++ b :: r)) :
    cut ⟨l ++ b :: r, fl⟩ b.addr = (l, b :: r) := by
  obtain ⟨hl, -⟩ := tiles_split_ne h hs.pos
  unfold cut
  rw [List.span_eq_takeWhile_dropWhile, List.takeWhile_append_of_pos, List.dropWhile_append_of_pos]
  · simp
  · intro c hc; simpa using hl c hc
  · intro c hc; simpa using hl c hc

end Layout

end OsBasics.Malloc
