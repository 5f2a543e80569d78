/-
  The disk simulator, `disksim.c`.

  The heads of `srcrq` and `runqueue` are the nodes 0 and 1. An `int` is an integer,
  so results are about runs in which no `int` overflows; `atoi` gives what fits into
  one. `fp` is the text printed to it so far. The input is the sequence of strings
  `read_line` gives, and the random bit of `Up_or_Down` is an argument of the policies
  that use it. Options, opening and closing files and the messages to the terminal are
  left out.
-/
import OsBasics.Lists.Sort
import Mathlib.Algebra.Order.Group.Unbundled.Abs
import Mathlib.Algebra.Order.Group.Int
import Mathlib.Algebra.Order.Ring.Int

namespace OsBasics.Disk

open OsBasics.Lists

/-- `struct task_struct`, without `on_rq` and `tmp_src`, which nothing uses. -/
structure Task where
  cylinder : Int
  dist : Int
  up : Int
  deriving DecidableEq, Repr

/-- The globals. -/
structure Sim where
  mem : ListMem Task
  start : Int
  processes : Int
  elevatorUp : Int
  fp : String

/-- `&srcrq.task_root`. -/
def srcrq : Ptr := .node 0

/-- `&runqueue.task_root`. -/
def runqueue : Ptr := .node 1

/-- `LOWEST_LEVEL`. -/
def lowestLevel : Int := 0

/-- `HIGHEST_LEVEL`. -/
def highestLevel : Int := 200

/-- The value of a C comparison. -/
def truth (b : Bool) : Int := if b then 1 else 0

/-- `!n`. -/
def lnot (n : Int) : Int := truth (n = 0)

/-! ## Comparators -/

def sstfCompare (entry1 entry2 : Task) : Int := truth (entry1.dist > entry2.dist)

def scanCompare (elevatorUp : Int) (entry1 entry2 : Task) : Int :=
  if entry1.up ≠ 0 ∧ entry2.up ≠ 0 then truth (entry1.dist > entry2.dist)
  else if entry1.up = 0 ∧ entry2.up = 0 then truth (entry1.dist > entry2.dist)
  else if entry1.up = 0 ∧ entry2.up ≠ 0 then elevatorUp
  else lnot elevatorUp

def cscanCompare (elevatorUp : Int) (entry1 entry2 : Task) : Int :=
  if elevatorUp = 0 then
    if entry1.up ≠ 0 ∧ entry2.up ≠ 0 then truth (entry1.dist < entry2.dist)
    else if entry1.up = 0 ∧ entry2.up = 0 then truth (entry1.dist > entry2.dist)
    else if entry1.up = 0 ∧ entry2.up ≠ 0 then elevatorUp
    else lnot elevatorUp
  else
    if entry1.up ≠ 0 ∧ entry2.up ≠ 0 then truth (entry1.dist > entry2.dist)
    else if entry1.up = 0 ∧ entry2.up = 0 then truth (entry1.dist < entry2.dist)
    else if entry1.up = 0 ∧ entry2.up ≠ 0 then 1
    else 0

/-! ## The parts of a policy -/

/-- A new entry for the one at `ptr`, at the end of `rq`. `copy` stores the fields. -/
def addCopy (copy : Task → Task → Task) (rq ptr : Ptr) (m : ListMem Task) :
    Except Fault (ListMem Task) := do
  let entry ← m.listEntry ptr
  let (ts, m) := m.malloc
  let m ← m.setEntry ts (copy entry (← m.listEntry ts))
  m.listAddTail ts rq

/-- A new entry for a boundary of the disk, at the end of `rq`. -/
def addBoundary (cylinder dist up : Int) (rq : Ptr) (m : ListMem Task) :
    Except Fault (ListMem Task) := do
  let (ts, m) := m.malloc
  let m ← m.setEntry ts ⟨cylinder, dist, up⟩
  m.listAddTail ts rq

/-- `ts->cylinder = entry->cylinder`. -/
def copyCylinder (entry ts : Task) : Task := { ts with cylinder := entry.cylinder }

/-- The cylinder and `ts->dist = entry->dist`. -/
def copyDist (entry ts : Task) : Task :=
  { copyCylinder entry ts with dist := entry.dist }

/-- The cylinder, the distance and `ts->up = entry->up`. -/
def copyUp (entry ts : Task) : Task := { copyDist entry ts with up := entry.up }

/-- The loop over `srcrq` that fills `rq`. -/
def copyAll (copy : Task → Task → Task) (rq : Ptr) (m : ListMem Task) :
    Except Fault (ListMem Task) :=
  listForEach id srcrq (addCopy copy rq) m

/-- `totalDist`, `prevDist` and `directionChange`. -/
structure Seek where
  totalDist : Int
  prevDist : Int
  directionChange : Int
  deriving DecidableEq, Repr

/-- `totalDist += abs(prevDist - cylinder)`, and the head stands there. -/
def Seek.move (st : Seek) (cylinder : Int) : Seek :=
  { st with totalDist := st.totalDist + |st.prevDist - cylinder|, prevDist := cylinder }

/-- The body of the loop of `cscan_tick` and `clook_tick`; `turn` is its second test. -/
def Seek.circle (turn : Int → Bool) (st : Seek) (cylinder : Int) : Seek :=
  let st := if cylinder ≠ 0 ∧ st.directionChange = 0 then st.move cylinder else st
  let st := if turn cylinder then { st with directionChange := 1 } else st
  if st.directionChange ≠ 0 then
    { totalDist := st.totalDist + |st.prevDist + cylinder|
      prevDist := cylinder
      directionChange := 0 }
  else st

/-- A loop over `rq` that adds up distances. -/
def seekAll (step : Seek → Int → Seek) (rq : Ptr) (m : ListMem Task) (st : Seek) :
    Except Fault Seek :=
  listForEach (fun _ => m) rq (fun ptr st => do
    let entry ← m.listEntry ptr
    pure (step st entry.cylinder)) st

/-- The locals of a policy on entry. -/
def Seek.init (start : Int) : Seek := ⟨0, start, 0⟩

/-- `print_rq`. -/
def printRq (rq : Ptr) (s : Sim) : Except Fault Sim := do
  let (_, fp) ← listForEach (fun _ => s.mem) rq (fun ptr (i, fp) => do
    let entry ← s.mem.listEntry ptr
    let i : Int := i + 1
    if i = s.processes then pure (i, fp ++ toString entry.cylinder ++ "\n")
    else pure (i, fp ++ toString entry.cylinder ++ ",")) (0, s.fp)
  pure { s with fp := fp }

/-- The `fprintf` of the name and the distance, then `print_rq`. -/
def printRow (name : String) (totalDist : Int) (rq : Ptr) (s : Sim) : Except Fault Sim :=
  printRq rq { s with fp := s.fp ++ name ++ "," ++ toString totalDist ++ "," }

/-! ## The policies -/

def fcfsTick (rq : Ptr) (s : Sim) : Except Fault Sim := do
  let m ← s.mem.initListHead rq
  let (m, st) ← listForEach Prod.fst srcrq (fun ptr (m, st) => do
    let entry ← m.listEntry ptr
    let m ← addCopy copyCylinder rq ptr m
    pure (m, st.move entry.cylinder)) (m, Seek.init s.start)
  printRow "FCFS" st.totalDist rq { s with mem := m }

def sstfTick (rq : Ptr) (s : Sim) : Except Fault Sim := do
  let m ← s.mem.initListHead rq
  let m ← copyAll copyDist rq m
  let m ← listSort sstfCompare m rq
  let st ← seekAll Seek.move rq m (Seek.init s.start)
  printRow "SSTF" st.totalDist rq { s with mem := m }

/-- The queue of `scan_tick` and `cscan_tick` before it is sorted. -/
def fillBounded (rq : Ptr) (s : Sim) : Except Fault Sim := do
  let m ← s.mem.initListHead rq
  let m ← addBoundary lowestLevel s.start 0 rq m
  let s := { s with processes := s.processes + 1 }
  let m ← copyAll copyUp rq m
  let m ← addBoundary highestLevel (highestLevel - s.start) 1 rq m
  pure { s with mem := m, processes := s.processes + 1 }

/-- The queue of `look_tick` and `clook_tick` before it is sorted. -/
def fillRequests (rq : Ptr) (s : Sim) : Except Fault Sim := do
  let m ← s.mem.initListHead rq
  let m ← copyAll copyUp rq m
  pure { s with mem := m }

/-- The elevator's direction `bit`, the sort, the distance and the row. -/
def serve (name : String) (cmp : Int → Task → Task → Int) (step : Seek → Int → Seek) (bit : Bool)
    (rq : Ptr) (s : Sim) : Except Fault Sim := do
  let s := { s with elevatorUp := truth bit }
  let m ← listSort (cmp s.elevatorUp) s.mem rq
  let st ← seekAll step rq m (Seek.init s.start)
  printRow name st.totalDist rq { s with mem := m }

def scanTick (bit : Bool) (rq : Ptr) (s : Sim) : Except Fault Sim := do
  let s ← fillBounded rq s
  let s ← serve "SCAN" scanCompare Seek.move bit rq s
  pure { s with processes := s.processes - 2 }

def cscanTick (bit : Bool) (rq : Ptr) (s : Sim) : Except Fault Sim := do
  let s ← fillBounded rq s
  let s ← serve "CSCAN" cscanCompare (Seek.circle fun c => c = lowestLevel ∨ c = highestLevel) bit rq s
  pure { s with processes := s.processes - 2 }

def lookTick (bit : Bool) (rq : Ptr) (s : Sim) : Except Fault Sim := do
  let s ← fillRequests rq s
  serve "LOOK" scanCompare Seek.move bit rq s

def clookTick (bit : Bool) (rq : Ptr) (s : Sim) : Except Fault Sim := do
  let s ← fillRequests rq s
  serve "CLOOK" cscanCompare (Seek.circle fun c => c = 0) bit rq s

/-! ## The input -/

/-- The number at the start of a string: blanks, a sign, digits. -/
def number (s : List Char) : Int :=
  let s := s.dropWhile fun c => c = ' ' ∨ ('\t' ≤ c ∧ c ≤ '\r')
  let digits (s : List Char) : Int :=
    (s.takeWhile Char.isDigit).foldl (fun n c => 10 * n + (c.toNat - '0'.toNat : Int)) 0
  match s with
  | '-' :: s => -digits s
  | '+' :: s => digits s
  | s => digits s

/-- `strtol`, which stops at the ends of `long`. -/
def strtol (s : List Char) : Int := max (-2 ^ 63) (min (number s) (2 ^ 63 - 1))

/-- `atoi`: the `int` that is left of the `long`. -/
def atoi (s : List Char) : Int := (strtol s).bmod (2 ^ 32)

/-- The tokens of `strtok`. -/
def tokens (delim : Char) (s : List Char) : List (List Char) :=
  (s.splitOnP (· == delim)).filter (· ≠ [])

/-- The fields `read_config` stores for a request. -/
def request (start cylinder : Int) : Task :=
  let dist := cylinder - start
  ⟨cylinder, |dist|, truth (dist > 0)⟩

/-- A request line. -/
def readRequest (s : Sim) (buffer : List Char) : Except Fault Sim := do
  let (ts, m) := s.mem.malloc
  let m ← m.setEntry ts (request s.start (atoi buffer))
  let m ← m.listAddTail ts srcrq
  pure { s with mem := m, processes := s.processes + 1 }

/-- The loop of `read_config`. -/
def readRequests (s : Sim) : List (List Char) → Except Fault Sim
  | [] => pure s
  | buffer :: lines =>
    if buffer.length ≤ 1 then readRequests s lines
    else do
      let s ← readRequest s buffer
      readRequests s lines

/-- `read_config`, with what `buffer` held before on a file without lines. -/
def readConfig (stack : List Char) (lines : List (List Char)) (s : Sim) : Except Fault Sim :=
  let buffer := lines.headD stack
  if buffer.length ≤ 1 then pure s
  else
    match tokens ':' buffer with
    | _ :: val :: _ => readRequests { s with start := atoi val, processes := 0 } lines.tail
    | _ => .error .badPtr

/-- The six policies, with the bits `Up_or_Down` gives the last four. -/
def mainTicks (bits : Fin 4 → Bool) (s : Sim) : Except Fault Sim := do
  let s ← fcfsTick runqueue s
  let s ← sstfTick runqueue s
  let s ← scanTick (bits 0) runqueue s
  let s ← cscanTick (bits 1) runqueue s
  let s ← lookTick (bits 2) runqueue s
  clookTick (bits 3) runqueue s

/-- Only the heads and the requests are left in memory. -/
def Sim.bury (src : List Nat) (s : Sim) : Sim :=
  { s with mem := { s.mem with alive := fun x => x ∈ 0 :: 1 :: src && s.mem.alive x } }

/-- `mainTicks`, with the entries of the policies before out of memory when one starts. -/
def mainAlone (src : List Nat) (bits : Fin 4 → Bool) (s : Sim) : Except Fault Sim := do
  let s ← fcfsTick runqueue (s.bury src)
  let s ← sstfTick runqueue (s.bury src)
  let s ← scanTick (bits 0) runqueue (s.bury src)
  let s ← cscanTick (bits 1) runqueue (s.bury src)
  let s ← lookTick (bits 2) runqueue (s.bury src)
  clookTick (bits 3) runqueue (s.bury src)

end OsBasics.Disk
