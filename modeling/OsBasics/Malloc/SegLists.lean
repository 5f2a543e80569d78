/-
  The segregated list allocator, `mm_seggregatedLists.c`, on the memory, the
  macros and `memlib.c` of `FreeList.lean` (the two files have these in common).

  A free block keeps LIST_PREV, the pointer by which lists are followed, in its
  first word and NEXT_BLKP in the word at `bp + 8`. `left_alloc` and `right_alloc`
  of `coalesce` and `bp` of `mm_malloc` are read before they are set: `Locals`
  holds what they start with.
-/
import OsBasics.Malloc.FreeList

namespace OsBasics.Malloc.Seg

open OsBasics.Lib

/-! ## State -/

/-- `LIST_COUNT`. -/
def listCount : Nat := 20

/-- Why a call has no result: a list walk that does not end, an access through NULL, or a
    fault of `memlib.c`. -/
inductive Fault where
  | hang
  | null
  | memlib (f : Malloc.Fault)
  deriving DecidableEq, Repr

/-- `heap` is memory, the variables of `memlib.c` and `start`. -/
structure SegHeap where
  heap : Heap
  seglist : Fin listCount → Nat

/-- What locals hold before they are set. -/
structure Locals where
  bp : Nat
  leftAlloc : Nat
  rightAlloc : Nat

/-- The pointer at `p`, read through a pointer. -/
def deref (m : Mem) (p : Nat) : Except Fault Nat := if p = 0 then .error .null else .ok (get m p)

/-- `PREV_BLKP(bp)` and `LIST_PREV(bp)`. -/
def prevBlkp (m : Mem) (bp : Nat) : Nat := get m bp

/-- `NEXT_BLKP(bp)`. -/
def nextBlkp (m : Mem) (bp : Nat) : Nat := get m (addU bp dsize)

/-- `LIST_NEXT(bp)`: the first word of the block NEXT_BLKP names. -/
def listNext (m : Mem) (bp : Nat) : Except Fault Nat := deref m (nextBlkp m bp)

/-- `PUT(p, val)`. -/
def put (s : SegHeap) (p val : Nat) : SegHeap := { s with heap := Malloc.put s.heap p val }

@[simp] theorem put_mem (s : SegHeap) (p v : Nat) :
    (put s p v).heap.mem = putWord s.heap.mem p v := rfl
@[simp] theorem put_seglist (s : SegHeap) (p v : Nat) : (put s p v).seglist = s.seglist := rfl

/-- `SET(to, from)` stores through the pointer `to`, here `dest`. Its uses pass PREV_BLKP and NEXT_BLKP,
    so the word written is the one that link points to, not the link. -/
def set (s : SegHeap) (dest src : Nat) : Except Fault SegHeap :=
  if dest = 0 then .error .null else .ok (put s dest src)

/-- `seglist[count] = ptr`. -/
def setList (s : SegHeap) (count : Fin listCount) (ptr : Nat) : SegHeap :=
  { s with seglist := fun c => if c = count then ptr else s.seglist c }

/-! ## Class lists -/

/-- The loop of `insertBlock` and `removeBlock` that halves `size`: `size` and `count` after
    it, for at most `n` rounds. -/
def halve : Nat → Nat → Nat → Nat × Nat
  | 0, size, count => (size, count)
  | n + 1, size, count => if size > 1 then halve n (size / 2) (count + 1) else (size, count)

theorem halve_le (n size count : Nat) : (halve n size count).2 ≤ count + n := by
  induction n generalizing size count with
  | zero => exact Nat.le_refl _
  | succ n ih =>
    unfold halve
    split
    · have := ih (size / 2) (count + 1)
      omega
    · exact Nat.le_add_right _ _

/-- `count` after the loop: the class of a block of `size` bytes. -/
def sizeClass (size : Nat) : Fin listCount :=
  ⟨(halve (listCount - 1) size 0).2, Nat.lt_of_le_of_lt (halve_le _ _ _) (by decide)⟩

/-- Follow LIST_PREV from `tmp` while the blocks are smaller than `size`, for at most `n`
    blocks: `pos`, the last block passed, and `tmp`, the first one not passed. -/
def walk (m : Mem) (size : Nat) : Nat → Nat → Nat → Except Fault (Nat × Nat)
  | 0, _, _ => .error .hang
  | n + 1, pos, tmp =>
    if tmp ≠ 0 ∧ size > getSize m (hdrp tmp) then walk m size n tmp (prevBlkp m tmp)
    else .ok (pos, tmp)

/-- A walk that passes this many blocks has met some block twice. -/
def walkBound : Nat := addrSpace + 1

/-- `insertBlock(ptr, size)`. The walk compares with the halved size. -/
def insertBlock (s : SegHeap) (ptr size : Nat) : Except Fault SegHeap := do
  let count := sizeClass size
  let size := (halve (listCount - 1) size 0).1
  let (pos, tmp) ← walk s.heap.mem size walkBound 0 (s.seglist count)
  if tmp ≠ 0 then
    if pos ≠ 0 then
      let s ← set s (prevBlkp s.heap.mem ptr) tmp
      let s ← set s (nextBlkp s.heap.mem tmp) ptr
      let s ← set s (nextBlkp s.heap.mem ptr) pos
      set s (prevBlkp s.heap.mem pos) ptr
    else
      let s ← set s (prevBlkp s.heap.mem ptr) tmp
      let s ← set s (nextBlkp s.heap.mem tmp) ptr
      let s ← set s (nextBlkp s.heap.mem ptr) 0
      pure (setList s count ptr)
  else if pos ≠ 0 then
    let s ← set s (prevBlkp s.heap.mem ptr) 0
    let s ← set s (nextBlkp s.heap.mem ptr) pos
    set s (prevBlkp s.heap.mem pos) ptr
  else
    -- a block is not made the head of an empty list
    let s ← set s (prevBlkp s.heap.mem ptr) 0
    set s (nextBlkp s.heap.mem ptr) 0

/-- Into an empty list. -/
theorem insertBlock_unlisted {s : SegHeap} {ptr size : Nat} (h : s.seglist (sizeClass size) = 0) :
    insertBlock s ptr size =
      (set s (prevBlkp s.heap.mem ptr) 0 >>= fun s => set s (nextBlkp s.heap.mem ptr) 0) := by
  have hwalk (n : Nat) : walk s.heap.mem n walkBound 0 0 = .ok (0, 0) := if_neg (by simp)
  unfold insertBlock
  dsimp only
  rw [h, hwalk]
  rfl

/-- `removeBlock(bp)`. -/
def removeBlock (s : SegHeap) (bp : Nat) : Except Fault SegHeap := do
  let count := sizeClass (getSize s.heap.mem (hdrp bp))
  let next ← listNext s.heap.mem bp
  if prevBlkp s.heap.mem bp ≠ 0 then
    if next ≠ 0 then
      let s ← set s (prevBlkp s.heap.mem (prevBlkp s.heap.mem bp)) next
      let next ← listNext s.heap.mem bp
      let dest ← deref s.heap.mem next
      set s dest (prevBlkp s.heap.mem bp)
    else
      let s ← set s (nextBlkp s.heap.mem (prevBlkp s.heap.mem bp)) 0
      pure (setList s count (prevBlkp s.heap.mem bp))
  else if next ≠ 0 then set s (prevBlkp s.heap.mem next) 0
  else pure (setList s count 0)

/-! ## Blocks -/

/-- `coalesce(ptr)`. Nothing sets `left_alloc` and `right_alloc`. -/
def coalesce (l : Locals) (s : SegHeap) (ptr : Nat) : Except Fault (Nat × SegHeap) := do
  let size := getSize s.heap.mem (hdrp ptr)
  if l.leftAlloc ≠ 0 ∧ l.rightAlloc ≠ 0 then
    let s ← insertBlock s ptr size
    pure (ptr, s)
  else if l.leftAlloc = 0 ∧ l.rightAlloc ≠ 0 then
    let s ← removeBlock s (leftBlkp s.heap.mem ptr)
    let size := addU size (getSize s.heap.mem (hdrp (leftBlkp s.heap.mem ptr)))
    let s := put s (ftrp s.heap.mem ptr) (pack size 0)
    let s := put s (hdrp (leftBlkp s.heap.mem ptr)) (pack size 0)
    let ptr := leftBlkp s.heap.mem ptr
    let s ← insertBlock s ptr size
    pure (ptr, s)
  else if l.leftAlloc ≠ 0 ∧ l.rightAlloc = 0 then
    let s ← removeBlock s (rightBlkp s.heap.mem ptr)
    -- the size added is that of the left block
    let size := addU size (getSize s.heap.mem (hdrp (leftBlkp s.heap.mem ptr)))
    let s := put s (hdrp ptr) (pack size 0)
    let s := put s (ftrp s.heap.mem ptr) (pack size 0)
    let s ← insertBlock s ptr size
    pure (ptr, s)
  else
    let s ← removeBlock s (leftBlkp s.heap.mem ptr)
    let s ← removeBlock s (rightBlkp s.heap.mem ptr)
    let size := addU (addU size (getSize s.heap.mem (hdrp (leftBlkp s.heap.mem ptr))))
      (getSize s.heap.mem (ftrp s.heap.mem (rightBlkp s.heap.mem ptr)))
    let s := put s (hdrp (leftBlkp s.heap.mem ptr)) (pack size 0)
    let s := put s (ftrp s.heap.mem (rightBlkp s.heap.mem ptr)) (pack size 0)
    let ptr := leftBlkp s.heap.mem ptr
    let s ← insertBlock s ptr size
    pure (ptr, s)

/-- `extend_heap(words)`; the pointer is 0 (NULL) when `mem_sbrk` refused. -/
def extendHeap (l : Locals) (s : SegHeap) (words : Nat) : Except Fault (Nat × SegHeap) := do
  let size := if words % 2 ≠ 0 then addU words 1 * wsize % addrSpace else words * wsize % addrSpace
  let (bp, heap) ← (memSbrk s.heap (sizeToInt size)).mapError .memlib
  if sizeToInt bp = -1 then pure (0, s)
  else
    let s := { s with heap := heap }
    let s := put s (hdrp bp) (pack size 0)
    let s := put s (ftrp s.heap.mem bp) (pack size 0)
    let s := put s (hdrp (rightBlkp s.heap.mem bp)) (pack 0 1)
    coalesce l s bp

/-- `place(bp, asize)`. -/
def place (s : SegHeap) (bp asize : Nat) : Except Fault SegHeap := do
  let csize := getSize s.heap.mem (hdrp bp)
  let remblockSize := subU csize asize
  if remblockSize ≥ 2 * dsize then
    let s := put s (hdrp bp) (pack asize 1)
    let s := put s (ftrp s.heap.mem bp) (pack asize 1)
    let s ← removeBlock s bp
    let bp := rightBlkp s.heap.mem bp
    let s := put s (hdrp bp) (pack remblockSize 0)
    let s := put s (ftrp s.heap.mem bp) (pack remblockSize 0)
    insertBlock s bp remblockSize
  else
    let s := put s (hdrp bp) (pack csize 1)
    let s := put s (ftrp s.heap.mem bp) (pack csize 1)
    removeBlock s bp

/-! ## mm_init, mm_malloc and mm_free -/

/-- `mm_init`. -/
def mmInit (l : Locals) (s : SegHeap) : Except Fault (Int × SegHeap) := do
  let (p, heap) ← (memSbrk s.heap (24 * wsize)).mapError .memlib
  let s := { s with heap := { heap with start := p } }
  if sizeToInt p = -1 then pure (-1, s)
  else
    let s := put s p 0
    let s := { s with seglist := fun _ => 0 }
    let s := put s (addU p (21 * wsize)) (pack dsize 1)
    let s := put s (addU p (22 * wsize)) (pack dsize 1)
    let s := put s (addU p (23 * wsize)) (pack 0 1)
    let (bp, s) ← extendHeap l s ((1 <<< 12) / wsize)
    if bp = 0 then pure (-1, s) else pure (0, s)

/-- `newsize` of `mm_malloc`. -/
def newsize (size : Nat) : Nat :=
  if size ≤ dsize then 2 * dsize
  else dsize * (addU (addU size dsize) (dsize - 1) / dsize)

/-- The search loop of `mm_malloc` from class `count` on. It leaves `bp` as it was when it
    looks into no list. -/
def searchLoop (s : SegHeap) (newsize size count bp : Nat) : Except Fault Nat :=
  if h : count < listCount then
    if count = listCount - 1 ∨ size ≤ 1 ∧ s.seglist ⟨count, h⟩ ≠ 0 then do
      let (_, bp) ← walk s.heap.mem newsize walkBound 0 (s.seglist ⟨count, h⟩)
      if bp ≠ 0 then pure bp
      else searchLoop s newsize (size / 2) (count + 1) bp
    else searchLoop s newsize (size / 2) (count + 1) bp
  else pure bp
termination_by listCount - count

/-- `mm_malloc(size)`. `extend_heap` is asked for `extendsize` words. -/
def mmMalloc (l : Locals) (s : SegHeap) (size : Nat) : Except Fault (Nat × SegHeap) := do
  if size = 0 then pure (0, s)
  else
    let bp ← searchLoop s (newsize size) size 0 l.bp
    if bp ≠ 0 then
      let s ← place s bp (newsize size)
      pure (bp, s)
    else
      let (bp, s) ← extendHeap l s (maxU (newsize size) (1 <<< 12))
      if bp = 0 then pure (0, s)
      else
        let s ← place s bp (newsize size)
        pure (bp, s)

/-- `mm_free(ptr)`. -/
def mmFree (l : Locals) (s : SegHeap) (ptr : Nat) : Except Fault SegHeap := do
  let size := getSize s.heap.mem (hdrp ptr)
  let s := put s (hdrp ptr) (pack size 0)
  let s := put s (ftrp s.heap.mem ptr) (pack size 0)
  let (_, s) ← coalesce l s ptr
  pure s

end OsBasics.Malloc.Seg
