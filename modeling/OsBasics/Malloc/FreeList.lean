/-
  The explicit free list allocator: `memlib.c` and `mm_freeList.c`, as the
  Makefile builds them (`-m32`, so a pointer, a `size_t` and a tag are 32 bits).

  Memory is bytes; `get` and `put` are the source's GET and PUT. Pointers and
  `size_t` values are naturals below `2^32`, and their arithmetic wraps (`addU`,
  `subU`). `mem_sbrk` takes a C `int`: `sizeToInt` is the conversion at the call.

  Two things end a call without a result, and are a `Fault`: a free list walk
  that never reaches an allocated header (`hang`), and a pointer sum in
  `mem_sbrk` past the end of the address space (`wrap`, undefined in C). A walk
  of more than `2^32` steps has met some address twice and never ends, so the
  step bound in `findFreeblock` is not a cut.
-/
import Mathlib.Algebra.Group.Nat.Defs
import OsBasics.Lib.ByteMem

namespace OsBasics.Malloc

open OsBasics.Lib

/-! ## Constants and macros -/

def wsize : Nat := 4
def dsize : Nat := 8
def minBlocksize : Nat := 24

/-- `MAX_HEAP` of `config.h`. -/
def maxHeap : Nat := 20 * 2 ^ 20

/-- The number of addresses of a 32-bit machine. -/
def addrSpace : Nat := 4294967296

/-- `a + b` on `size_t` and pointers: it wraps once at most. -/
def addU (a b : Nat) : Nat := if a + b < addrSpace then a + b else a + b - addrSpace

/-- `a - b` on `size_t` and pointers. -/
def subU (a b : Nat) : Nat := if b ≤ a then a - b else a + addrSpace - b

/-- `x & ~0x7`. -/
def clearLow (x : Nat) : Nat := x / 8 * 8

/-- `MAX(x, y)`. -/
def maxU (x y : Nat) : Nat := if x > y then x else y

/-- `ALIGN(p)`. -/
def align (p : Nat) : Nat := clearLow (addU p (dsize - 1))

/-- `PACK(size, alloc)`. -/
def pack (size alloc : Nat) : Nat := size ||| alloc

/-- `GET(p)`. -/
def get (m : Mem) (p : Nat) : Nat := wordAt m p

/-- `GET_SIZE(p)`. -/
def getSize (m : Mem) (p : Nat) : Nat := clearLow (get m p)

/-- `GET_ALLOC(p)`. -/
def getAlloc (m : Mem) (p : Nat) : Nat := get m p &&& 1

/-- `HDRP(bp)`. -/
def hdrp (bp : Nat) : Nat := subU bp wsize

/-- `FTRP(bp)`. -/
def ftrp (m : Mem) (bp : Nat) : Nat := subU (addU bp (getSize m (hdrp bp))) dsize

/-- `RIGHT_BLKP(bp)`. -/
def rightBlkp (m : Mem) (bp : Nat) : Nat := addU bp (getSize m (hdrp bp))

/-- `LEFT_BLKP(bp)`. -/
def leftBlkp (m : Mem) (bp : Nat) : Nat := subU bp (getSize m (subU (hdrp bp) wsize))

/-- `PREV_BLKP(bp)`. -/
def prevBlkp (m : Mem) (bp : Nat) : Nat := get m (addU bp dsize)

/-- `NEXT_BLKP(bp)`. -/
def nextBlkp (m : Mem) (bp : Nat) : Nat := get m bp

/-! ## State -/

/-- Why a call has no result. -/
inductive Fault where
  | hang
  | wrap
  deriving DecidableEq, Repr

/-- Memory, the variables of `memlib.c` and those of `mm_freeList.c`. -/
structure Heap where
  mem : Mem
  memStartBrk : Nat
  memBrk : Nat
  memMaxAddr : Nat
  heapListp : Nat
  start : Nat

/-- `PUT(p, val)`. -/
def put (s : Heap) (p val : Nat) : Heap := { s with mem := putWord s.mem p val }

/-- `SETPREV_BLKP(bp, ptrToSet)`. -/
def setPrevBlkp (s : Heap) (bp ptrToSet : Nat) : Heap := put s (addU bp dsize) ptrToSet

/-- `SETNEXT_BLKP(bp, ptrToSet)`. -/
def setNextBlkp (s : Heap) (bp ptrToSet : Nat) : Heap := put s bp ptrToSet

/-! ## memlib.c -/

/-- `mem_init`, when libc's `malloc` returned the block at `p`. The storage
    keeps whatever bytes it had. -/
def memInit (m : Mem) (p : Nat) : Heap where
  mem := m
  memStartBrk := p
  memBrk := p
  memMaxAddr := p + maxHeap
  heapListp := 0
  start := 0

/-- `mem_reset_brk`. -/
def memResetBrk (s : Heap) : Heap := { s with memBrk := s.memStartBrk }

/-- `mem_heap_lo`. -/
def memHeapLo (s : Heap) : Nat := s.memStartBrk

/-- `mem_heap_hi`. -/
def memHeapHi (s : Heap) : Nat := s.memBrk - 1

/-- `(void *)-1`. -/
def minusOne : Nat := 4294967295

/-- A `size_t` passed as `int`. -/
def sizeToInt (n : Nat) : Int := if n < 2147483648 then n else (n : Int) - addrSpace

/-- `mem_sbrk(incr)`. -/
def memSbrk (s : Heap) (incr : Int) : Except Fault (Nat × Heap) :=
  if incr < 0 then .ok (minusOne, s)
  else if s.memBrk + incr.toNat ≥ addrSpace then .error .wrap
  else if s.memBrk + incr.toNat > s.memMaxAddr then .ok (minusOne, s)
  else .ok (s.memBrk, { s with memBrk := s.memBrk + incr.toNat })

/-! ## mm_freeList.c -/

/-- `insertBlock(bp)`. -/
def insertBlock (s : Heap) (bp : Nat) : Heap :=
  let s := setPrevBlkp s bp s.start
  let s := setNextBlkp s s.start bp
  let s := setNextBlkp s bp 0
  { s with start := bp }

/-- `removeBlock(bp)`. -/
def removeBlock (s : Heap) (bp : Nat) : Heap :=
  let s :=
    if nextBlkp s.mem bp ≠ 0 then
      setPrevBlkp s (nextBlkp s.mem bp) (prevBlkp s.mem bp)
    else { s with start := prevBlkp s.mem bp }
  setNextBlkp s (prevBlkp s.mem bp) (nextBlkp s.mem bp)

/-- `coalesce(bp)`. -/
def coalesce (s : Heap) (bp : Nat) : Nat × Heap :=
  let leftAlloc := getAlloc s.mem (ftrp s.mem (leftBlkp s.mem bp)) ≠ 0 ∨ leftBlkp s.mem bp = bp
  let rightAlloc := getAlloc s.mem (hdrp (rightBlkp s.mem bp)) ≠ 0
  let size := getSize s.mem (hdrp bp)
  if leftAlloc ∧ ¬ rightAlloc then
    let size := addU size (getSize s.mem (hdrp (rightBlkp s.mem bp)))
    let s := removeBlock s (rightBlkp s.mem bp)
    let s := put s (hdrp bp) (pack size 0)
    let s := put s (ftrp s.mem bp) (pack size 0)
    (bp, insertBlock s bp)
  else if ¬ leftAlloc ∧ rightAlloc then
    let size := addU size (getSize s.mem (hdrp (leftBlkp s.mem bp)))
    let bp := leftBlkp s.mem bp
    let s := removeBlock s bp
    let s := put s (hdrp bp) (pack size 0)
    let s := put s (ftrp s.mem bp) (pack size 0)
    (bp, insertBlock s bp)
  else if ¬ leftAlloc ∧ ¬ rightAlloc then
    let s := removeBlock s (leftBlkp s.mem bp)
    let s := removeBlock s (rightBlkp s.mem bp)
    let size := addU size (addU (getSize s.mem (hdrp (leftBlkp s.mem bp)))
      (getSize s.mem (hdrp (rightBlkp s.mem bp))))
    let bp := leftBlkp s.mem bp
    let s := put s (hdrp bp) (pack size 0)
    let s := put s (ftrp s.mem bp) (pack size 0)
    (bp, insertBlock s bp)
  else (bp, insertBlock s bp)

/-- `extend_heap(words)`; the pointer is 0 (NULL) when `mem_sbrk` refused. -/
def extendHeap (s : Heap) (words : Nat) : Except Fault (Nat × Heap) := do
  let size := if words % 2 = 1 then (addU words 1 * wsize) % addrSpace else words * wsize % addrSpace
  let (bp, s) ← memSbrk s (sizeToInt size)
  if sizeToInt bp = -1 then pure (0, s)
  else
    let s := put s (hdrp bp) (pack size 0)
    let s := put s (ftrp s.mem bp) (pack size 0)
    let s := put s (hdrp (rightBlkp s.mem bp)) (pack 0 1)
    pure (coalesce s bp)

/-- `CHUNKSIZE/WSIZE`. The macro body `1<<12` has no parentheses, so this is
    `1<<(12/4)`. -/
def chunkWords : Nat := 1 <<< (12 / wsize)

/-- `mm_init`. -/
def mmInit (s : Heap) : Except Fault (Int × Heap) := do
  let (p, s) ← memSbrk s (2 * minBlocksize)
  let s := { s with heapListp := p }
  if p = 0 then pure (-1, s)
  else
    let s := put s p 0
    let s := put s (addU p wsize) (pack minBlocksize 1)
    let s := put s (addU p dsize) 0
    let s := put s (addU (addU p dsize) wsize) 0
    let s := put s (addU p minBlocksize) (pack minBlocksize 1)
    let s := put s (addU (addU p wsize) minBlocksize) (pack 0 1)
    let s := { s with start := addU p dsize }
    let (bp, s) ← extendHeap s chunkWords
    if bp = 0 then pure (-1, s) else pure (0, s)

/-- The loop of `find_freeblock`, for at most `n` blocks. -/
def findLoop (m : Mem) (asize : Nat) : Nat → Nat → Except Fault Nat
  | 0, _ => .error .hang
  | n + 1, bp =>
    if getAlloc m (hdrp bp) = 0 then
      if asize ≤ getSize m (hdrp bp) then .ok bp
      else findLoop m asize n (prevBlkp m bp)
    else .ok 0

/-- `find_freeblock(asize)`. -/
def findFreeblock (s : Heap) (asize : Nat) : Except Fault Nat :=
  findLoop s.mem asize addrSpace s.start

/-- `place(bp, asize)`. -/
def place (s : Heap) (bp asize : Nat) : Heap :=
  let size := getSize s.mem (hdrp bp)
  let remblockSize := subU size asize
  if remblockSize ≥ minBlocksize then
    let s := put s (hdrp bp) (pack asize 1)
    let s := put s (ftrp s.mem bp) (pack asize 1)
    let s := removeBlock s bp
    let bp := rightBlkp s.mem bp
    let s := put s (hdrp bp) (pack remblockSize 0)
    let s := put s (ftrp s.mem bp) (pack remblockSize 0)
    (coalesce s bp).2
  else
    let s := put s (hdrp bp) (pack size 1)
    let s := put s (ftrp s.mem bp) (pack size 1)
    removeBlock s bp

/-- `newsize` of `mm_malloc`. -/
def newsize (size : Nat) : Nat := maxU (addU (align size) dsize) minBlocksize

/-- `extendsize` of `mm_malloc`: `MAX(newsize, CHUNKSIZE)` compares with `1<<12`. -/
def extendsize (size : Nat) : Nat := maxU (newsize size) (1 <<< 12)

/-- `mm_malloc(size)`. -/
def mmMalloc (s : Heap) (size : Nat) : Except Fault (Nat × Heap) :=
  if size = 0 then pure (0, s)
  else do
    let bp ← findFreeblock s (newsize size)
    if bp ≠ 0 then pure (bp, place s bp (newsize size))
    else
      let (bp, s) ← extendHeap s (extendsize size / wsize)
      if bp = 0 then pure (0, s)
      else pure (bp, place s bp (newsize size))

/-- `mm_free(bp)`. -/
def mmFree (s : Heap) (bp : Nat) : Heap :=
  let size := getSize s.mem (hdrp bp)
  let s := put s (hdrp bp) (pack size 0)
  let s := put s (ftrp s.mem bp) (pack size 0)
  (coalesce s bp).2

/-- `memcpy(dst, src, n)`. -/
def memcpy (s : Heap) (dst src n : Nat) : Heap :=
  { s with mem := fun q => if dst ≤ q ∧ q < dst + n then s.mem (src + (q - dst)) else s.mem q }

/-- `mm_realloc(ptr, size)`. It calls `malloc` of libc, here `malloc`, not `mm_malloc`. -/
def mmRealloc (malloc : Nat → Nat) (s : Heap) (ptr size : Nat) : Nat × Heap :=
  let asize := newsize size
  let ptrSize := getSize s.mem (hdrp ptr)
  if asize = ptrSize then (ptr, s)
  else if asize < ptrSize then
    if subU ptrSize asize ≤ minBlocksize then (ptr, s)
    else
      let s := put s (hdrp ptr) (pack asize 1)
      let s := put s (ftrp s.mem ptr) (pack asize 1)
      -- NEXT_BLKP is the first word of the payload
      let s := put s (hdrp (nextBlkp s.mem ptr)) (pack (subU ptrSize asize) 1)
      (ptr, mmFree s (nextBlkp s.mem ptr))
  else
    let newptr := malloc (size * 2 % addrSpace)
    if newptr = 0 then (0, s)
    else
      let ptrSize := if size < ptrSize then size else ptrSize
      let s := memcpy s newptr ptr ptrSize
      (newptr, mmFree s ptr)

end OsBasics.Malloc
