/-
  The driver, `mdriver.c`: the range list, and the three functions that replay a trace.

  The allocator is whatever the driver is built with as `mm.c`, an `Mm`; a `Heap` holds its
  variables. An `int` is an integer and becomes a `size_t` where it is passed as one.
  `char` is signed, as on the machines the Makefile builds for. Kept of the output is what
  `malloc_error` prints. The times, the replay over libc's allocator and the options are
  left out, and libc's `malloc` of a range record is taken to succeed.
-/
import OsBasics.Lib.Extents
import OsBasics.Malloc.FreeList

namespace OsBasics.Malloc

open OsBasics.Lib

/-- The functions of `mm.h`. -/
structure Mm where
  mmInit : Heap → Except Fault (Int × Heap)
  mmMalloc : Heap → Nat → Except Fault (Nat × Heap)
  mmFree : Heap → Nat → Except Fault Heap
  mmRealloc : Heap → Nat → Nat → Except Fault (Nat × Heap)

/-- `mem_heapsize`. -/
def memHeapsize (s : Heap) : Nat := subU s.memBrk s.memStartBrk

/-- An `int` passed as `size_t`. -/
def toSizeT (n : Int) : Nat := (n % addrSpace).toNat

/-- `index & 0xFF`. -/
def lowByte (index : Int) : Nat := (index % 256).toNat

/-- The value of a `char`. -/
def charValue (b : UInt8) : Int := if b.toNat < 128 then b.toNat else (b.toNat : Int) - 256

/-- A pointer printed with `%p`. -/
def pointer (p : Nat) : String :=
  if p = 0 then "(nil)" else "0x" ++ String.ofList (Nat.toDigits 16 p)

/-- Why the driver ends without a result. -/
inductive Stop where
  | fault (f : Fault)
  | assertion
  | index
  | exit (msg : String)
  deriving DecidableEq, Repr

/-! ## State -/

/-- `range_t`. -/
abbrev Range := Extent Nat

inductive OpType where
  | alloc
  | free
  | realloc
  deriving DecidableEq, Repr

/-- `traceop_t`. -/
structure TraceOp where
  type : OpType
  index : Int
  size : Int
  deriving DecidableEq, Repr

/-- `trace_t`, without the two numbers nothing uses. `num_ops` is the length of `ops`. -/
structure Trace where
  numIds : Int
  ops : List TraceOp
  blocks : Nat → Nat
  blockSizes : Nat → Nat

/-- The variables of the driver that outlive a call. -/
structure Driver where
  heap : Heap
  ranges : List Range
  trace : Trace
  errors : Nat
  stdout : List String

/-- A trace as `read_trace` leaves it, in storage that is clear. -/
def Trace.read (numIds : Int) (ops : List TraceOp) : Trace := ⟨numIds, ops, fun _ => 0, fun _ => 0⟩

/-- The driver when `mem_init` has returned, with its storage at `p`. -/
def Driver.boot (m : Mem) (p : Nat) (t : Trace) : Driver := ⟨memInit m p, [], t, 0, []⟩

/-- A call into `mm.c`. -/
def call {α : Type} (x : Except Fault α) : Except Stop α := x.mapError .fault

namespace Driver

variable (d : Driver)

/-- `malloc_error(tracenum, opnum, msg)`. -/
def mallocError (tracenum opnum : Nat) (msg : String) : Driver :=
  { d with
    errors := d.errors + 1
    stdout := d.stdout ++ [s!"ERROR [trace {tracenum}, line {opnum + 5}]: {msg}\n"] }

/-- The index of an access to one of the arrays of the trace. -/
def slot (index : Int) : Except Stop Nat :=
  if 0 ≤ index ∧ index < d.trace.numIds then .ok index.toNat else .error .index

/-- `trace->blocks[index]`. -/
def block (index : Int) : Except Stop Nat := (d.slot index).map d.trace.blocks

/-- `trace->block_sizes[index]`, as an `int`. -/
def blockSize (index : Int) : Except Stop Int :=
  (d.slot index).map fun i => sizeToInt (d.trace.blockSizes i)

/-- `trace->blocks[index] = p`. -/
def setBlock (index : Int) (p : Nat) : Except Stop Driver :=
  (d.slot index).map fun i =>
    { d with trace := { d.trace with blocks := Function.update d.trace.blocks i p } }

/-- `trace->block_sizes[index] = size`. -/
def setBlockSize (index size : Int) : Except Stop Driver :=
  (d.slot index).map fun i =>
    { d with trace := { d.trace with
        blockSizes := Function.update d.trace.blockSizes i (toSizeT size) } }

/-- `memset(p, v, size)`. -/
def memset (p v size : Nat) : Driver :=
  { d with heap := { d.heap with
      mem := fun q => if p ≤ q ∧ q < p + size then UInt8.ofNat v else d.heap.mem q } }

/-! ## The range list -/

/-- The test for an overlap with the range `p`. -/
def overlaps (lo hi : Nat) (p : Range) : Bool :=
  (lo ≥ p.lo && lo ≤ p.hi) || (hi ≥ p.lo && hi ≤ p.hi)

/-- `add_range(ranges, lo, size, tracenum, opnum)`. -/
def addRange (lo : Nat) (size : Int) (tracenum opnum : Nat) : Except Stop (Bool × Driver) :=
  let hi := subU (addU lo (toSizeT size)) 1
  if ¬ size > 0 then .error .assertion
  else if lo % 8 ≠ 0 then
    .ok (false, d.mallocError tracenum opnum
      s!"Payload address ({pointer lo}) not aligned to 8 bytes")
  else if lo < memHeapLo d.heap ∨ lo > memHeapHi d.heap ∨ hi < memHeapLo d.heap ∨
      hi > memHeapHi d.heap then
    .ok (false, d.mallocError tracenum opnum (s!"Payload ({pointer lo}:{pointer hi}) lies " ++
      s!"outside heap ({pointer (memHeapLo d.heap)}:{pointer (memHeapHi d.heap)})"))
  else
    match d.ranges.find? (overlaps lo hi) with
    | some p =>
      .ok (false, d.mallocError tracenum opnum (s!"Payload ({pointer lo}:{pointer hi}) " ++
        s!"overlaps another payload ({pointer p.lo}:{pointer p.hi})\n"))
    | none => .ok (true, { d with ranges := ⟨lo, hi⟩ :: d.ranges })

/-- `remove_range(ranges, lo)`. -/
def removeRange (lo : Nat) : Driver := { d with ranges := d.ranges.eraseP fun p => p.lo = lo }

/-- `clear_ranges(ranges)`. -/
def clearRanges : Driver := { d with ranges := [] }

end Driver

/-! ## eval_mm_valid -/

section Replay

variable (mm : Mm)

/-- The case ALLOC of `eval_mm_valid`. The result says whether the loop goes on. -/
def validAlloc (tracenum i : Nat) (index size : Int) (d : Driver) : Except Stop (Bool × Driver) := do
  let (p, s) ← call (mm.mmMalloc d.heap (toSizeT size))
  let d := { d with heap := s }
  if p = 0 then pure (false, d.mallocError tracenum i "mm_malloc failed.")
  else do
    let (added, d) ← d.addRange p size tracenum i
    if ¬ added then pure (false, d)
    else do
      let d := d.memset p (lowByte index) (toSizeT size)
      let d ← d.setBlock index p
      let d ← d.setBlockSize index size
      pure (true, d)

/-- The loop over `j`, with `n` bytes left to compare. -/
def preserved (m : Mem) (newp : Nat) (index : Int) : Nat → Nat → Bool
  | 0, _ => true
  | n + 1, j =>
    if charValue (m (newp + j)) ≠ lowByte index then false else preserved m newp index n (j + 1)

/-- The case REALLOC. -/
def validRealloc (tracenum i : Nat) (index size : Int) (d : Driver) :
    Except Stop (Bool × Driver) := do
  let oldp ← d.block index
  let (newp, s) ← call (mm.mmRealloc d.heap oldp (toSizeT size))
  let d := { d with heap := s }
  if newp = 0 then pure (false, d.mallocError tracenum i "mm_realloc failed.")
  else do
    let d := d.removeRange oldp
    let (added, d) ← d.addRange newp size tracenum i
    if ¬ added then pure (false, d)
    else do
      let oldsize ← d.blockSize index
      let oldsize := if size < oldsize then size else oldsize
      if ¬ preserved d.heap.mem newp index oldsize.toNat 0 then
        pure (false, d.mallocError tracenum i "mm_realloc did not preserve the data from old block")
      else do
        let d := d.memset newp (lowByte index) (toSizeT size)
        let d ← d.setBlock index newp
        let d ← d.setBlockSize index size
        pure (true, d)

/-- The case FREE. -/
def validFree (index : Int) (d : Driver) : Except Stop (Bool × Driver) := do
  let p ← d.block index
  let d := d.removeRange p
  let s ← call (mm.mmFree d.heap p)
  pure (true, { d with heap := s })

/-- A round of the loop of `eval_mm_valid`. -/
def validOp (tracenum i : Nat) (op : TraceOp) (d : Driver) : Except Stop (Bool × Driver) :=
  match op.type with
  | .alloc => validAlloc mm tracenum i op.index op.size d
  | .realloc => validRealloc mm tracenum i op.index op.size d
  | .free => validFree mm op.index d

/-- The loop of `eval_mm_valid` from operation `i` on. -/
def validLoop (tracenum : Nat) : Nat → List TraceOp → Driver → Except Stop (Bool × Driver)
  | _, [], d => pure (true, d)
  | i, op :: ops, d => do
    let (more, d) ← validOp mm tracenum i op d
    if more then validLoop tracenum (i + 1) ops d else pure (false, d)

/-- `eval_mm_valid(trace, tracenum, ranges)`. -/
def evalMmValid (tracenum : Nat) (d : Driver) : Except Stop (Bool × Driver) := do
  let d := { d with heap := memResetBrk d.heap }
  let d := d.clearRanges
  let (status, s) ← call (mm.mmInit d.heap)
  let d := { d with heap := s }
  if status < 0 then pure (false, d.mallocError tracenum 0 "mm_init failed.")
  else validLoop mm tracenum 0 d.trace.ops d

/-! ## eval_mm_util and eval_mm_speed -/

/-- `max_total_size` and `total_size`. -/
structure Totals where
  maxTotalSize : Int
  totalSize : Int
  deriving DecidableEq, Repr

/-- `total_size += n`, and the high water mark after it. -/
def Totals.grow (t : Totals) (n : Int) : Totals :=
  let total := t.totalSize + n
  ⟨if total > t.maxTotalSize then total else t.maxTotalSize, total⟩

/-- A round of the loop of `eval_mm_util`. -/
def utilOp (op : TraceOp) (t : Totals) (d : Driver) : Except Stop (Totals × Driver) :=
  match op.type with
  | .alloc => do
    let (p, s) ← call (mm.mmMalloc d.heap (toSizeT op.size))
    if p = 0 then .error (.exit "mm_malloc failed in eval_mm_util")
    else do
      let d ← Driver.setBlock { d with heap := s } op.index p
      let d ← d.setBlockSize op.index op.size
      pure (t.grow op.size, d)
  | .realloc => do
    let oldsize ← d.blockSize op.index
    let oldp ← d.block op.index
    let (newp, s) ← call (mm.mmRealloc d.heap oldp (toSizeT op.size))
    if newp = 0 then .error (.exit "mm_realloc failed in eval_mm_util")
    else do
      let d ← Driver.setBlock { d with heap := s } op.index newp
      let d ← d.setBlockSize op.index op.size
      pure (t.grow (op.size - oldsize), d)
  | .free => do
    let size ← d.blockSize op.index
    let p ← d.block op.index
    let s ← call (mm.mmFree d.heap p)
    pure ({ t with totalSize := t.totalSize - size }, { d with heap := s })

/-- The loop of `eval_mm_util`. -/
def utilLoop : List TraceOp → Totals → Driver → Except Stop (Totals × Driver)
  | [], t, d => pure (t, d)
  | op :: ops, t, d => do
    let (t, d) ← utilOp mm op t d
    utilLoop ops t d

/-- `eval_mm_util(trace, tracenum, ranges)`: `max_total_size` and `mem_heapsize()`, of which it returns
    the quotient. -/
def evalMmUtil (d : Driver) : Except Stop ((Int × Nat) × Driver) := do
  let (status, s) ← call (mm.mmInit (memResetBrk d.heap))
  if status < 0 then .error (.exit "mm_init failed in eval_mm_util")
  else do
    let (t, d) ← utilLoop mm d.trace.ops ⟨0, 0⟩ { d with heap := s }
    pure ((t.maxTotalSize, memHeapsize d.heap), d)

/-- A round of the loop of `eval_mm_speed`. -/
def speedOp (op : TraceOp) (d : Driver) : Except Stop Driver :=
  match op.type with
  | .alloc => do
    let (p, s) ← call (mm.mmMalloc d.heap (toSizeT op.size))
    if p = 0 then .error (.exit "mm_malloc error in eval_mm_speed")
    else Driver.setBlock { d with heap := s } op.index p
  | .realloc => do
    let oldp ← d.block op.index
    let (newp, s) ← call (mm.mmRealloc d.heap oldp (toSizeT op.size))
    if newp = 0 then .error (.exit "mm_realloc error in eval_mm_speed")
    else Driver.setBlock { d with heap := s } op.index newp
  | .free => do
    let block ← d.block op.index
    let s ← call (mm.mmFree d.heap block)
    pure { d with heap := s }

/-- `eval_mm_speed(ptr)`. -/
def evalMmSpeed (d : Driver) : Except Stop Driver := do
  let (status, s) ← call (mm.mmInit (memResetBrk d.heap))
  if status < 0 then .error (.exit "mm_init failed in eval_mm_speed")
  else d.trace.ops.foldlM (fun d op => speedOp mm op d) { d with heap := s }

/-! ## The loop of main -/

/-- `fsecs(f, argp)` with USE_GETTOD: `n` calls of `f`. -/
def fsecs (f : Driver → Except Stop Driver) : Nat → Driver → Except Stop Driver
  | 0, d => pure d
  | n + 1, d => do
    let d ← f d
    fsecs f n d

/-- `stats_t`, with the operands of `util`, and without the times. -/
structure Stats where
  ops : Nat
  valid : Bool
  util : Option (Int × Nat)
  deriving DecidableEq, Repr

/-- A round of the loop of `main` over the trace files, for the trace that `read_trace` gives. -/
def mainTrace (tracenum : Nat) (trace : Trace) (d : Driver) : Except Stop (Stats × Driver) := do
  let (valid, d) ← evalMmValid mm tracenum { d with trace := trace }
  if valid then do
    let (util, d) ← evalMmUtil mm d
    let d ← fsecs (evalMmSpeed mm) 10 d
    pure (⟨trace.ops.length, true, some util⟩, d)
  else pure (⟨trace.ops.length, false, none⟩, d)

/-- The loop of `main`, from the trace `i` on. -/
def mainLoop : Nat → List Trace → Driver → Except Stop (List Stats × Driver)
  | _, [], d => pure ([], d)
  | i, trace :: traces, d => do
    let (stats, d) ← mainTrace mm i trace d
    let (rest, d) ← mainLoop (i + 1) traces d
    pure (stats :: rest, d)

end Replay

end OsBasics.Malloc
