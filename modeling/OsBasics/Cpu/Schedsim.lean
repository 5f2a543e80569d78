/-
  The CPU simulator, `schedsim.c`.

  The heads of `srcrq` and `runqueue` are the nodes 0 and 1. An `int` is an integer,
  so results are about runs in which no `int` overflows. A policy is a loop over `i`
  around a loop over `srcrq`; the locals that live through these loops are its state,
  and `…Visit` is the body of the inner one. The input is the sequence of strings
  `read_line` gives. Options, files and the messages to the terminal are left out.
-/
import OsBasics.Disk.Disksim

namespace OsBasics.Cpu

open OsBasics.Lists
open OsBasics.Disk (atoi tokens)

/-- `struct task_struct`, without the fields nothing uses. -/
structure Task where
  onRq : Int
  tmpSrc : Int
  prio : Int
  pid : Int
  arr : Int
  burst : Int
  deriving DecidableEq, Repr

/-- The globals. -/
structure Sim where
  mem : ListMem Task
  processes : Int
  span : Int
  output : Int → Int

/-- `&srcrq.task_root`. -/
def srcrq : Ptr := .node 0

/-- `&runqueue.task_root`. -/
def runqueue : Ptr := .node 1

/-- The loop over `i` for `n` rounds more. The body says whether the function returns. -/
def rounds {σ : Type} (body : Int → σ → Except Fault (σ × Bool)) : Nat → Int → σ → Except Fault σ
  | 0, _, s => pure s
  | n + 1, i, s => do
    let (s, returned) ← body i s
    if returned then pure s else rounds body n (i + 1) s

/-- `ts->pid = entry->pid`, and so on to `ts->prio = entry->prio`. -/
def copyTask (entry ts : Task) : Task :=
  { ts with pid := entry.pid, arr := entry.arr, burst := entry.burst, prio := entry.prio }

/-- A new `ts` with the fields of `entry`. -/
def newTask (entry : Task) (m : ListMem Task) : Except Fault (Ptr × ListMem Task) := do
  let (ts, m) := m.malloc
  let m ← m.setEntry ts (copyTask entry (← m.listEntry ts))
  pure (ts, m)

/-! ## fcfs_tick -/

structure Fcfs where
  mem : ListMem Task
  processAdded : Int

def fcfsVisit (rq : Ptr) (i : Int) (ptr : Ptr) (s : Fcfs) : Except Fault Fcfs := do
  let entry ← s.mem.listEntry ptr
  if entry.arr = i then do
    let (ts, m) ← newTask entry s.mem
    let m ← m.listAddTail ts rq
    pure { mem := m, processAdded := s.processAdded + 1 }
  else pure s

def fcfsRound (rq : Ptr) (processes i : Int) (s : Fcfs) : Except Fault (Fcfs × Bool) :=
  if s.processAdded = processes then pure (s, true)
  else do
    let s ← listForEach Fcfs.mem srcrq (fcfsVisit rq i) s
    pure (s, false)

def fcfsTick (rq : Ptr) (s : Sim) : Except Fault Sim := do
  let st ← rounds (fcfsRound rq s.processes) s.span.toNat 0 ⟨s.mem, 0⟩
  pure { s with mem := st.mem }

/-! ## sjf_tick -/

structure Sjf where
  mem : ListMem Task
  k : Int
  processAdded : Int
  j : Int

/-- The test of `sjf_tick` and `stcf_tick`, with `j` counted up already. -/
def letsIn (i j k : Int) (entry : Task) : Prop :=
  entry.burst < i ∧ entry.arr ≤ k ∨ i = j ∧ entry.arr < i

instance (i j k : Int) (entry : Task) : Decidable (letsIn i j k entry) :=
  inferInstanceAs (Decidable (_ ∨ _))

def sjfVisit (rq : Ptr) (i : Int) (ptr : Ptr) (s : Sjf) : Except Fault Sjf := do
  let entry ← s.mem.listEntry ptr
  if entry.onRq = 0 then do
    let s := { s with j := s.j + entry.burst }
    if letsIn i s.j s.k entry then do
      let (ts, m) ← newTask entry s.mem
      let m ← m.setEntry ptr { entry with onRq := 1 }
      let m ← m.listAddTail ts rq
      pure { s with mem := m, k := s.k + entry.burst, processAdded := s.processAdded + 1 }
    else pure s
  else pure s

def sjfRound (rq : Ptr) (processes i : Int) (s : Sjf) : Except Fault (Sjf × Bool) :=
  if s.processAdded = processes then pure (s, true)
  else do
    let s ← listForEach Sjf.mem srcrq (sjfVisit rq i) { s with j := 0 }
    pure (s, false)

def sjfTick (rq : Ptr) (s : Sim) : Except Fault Sim := do
  let st ← rounds (sjfRound rq s.processes) s.span.toNat 0 ⟨s.mem, 0, 0, 0⟩
  pure { s with mem := st.mem }

/-! ## stcf_tick -/

structure Stcf where
  mem : ListMem Task
  processes : Int
  entry2 : Ptr
  k : Int
  processAdded : Int
  flag : Int
  m : Int
  j : Int

/-- The body of the loop over `rq`: look for an entry to preempt. -/
def preemptVisit (entry : Task) (ptr2 : Ptr) (s : Stcf) : Except Fault (Stcf × Bool) := do
  let entry2 ← s.mem.listEntry ptr2
  let s := { s with entry2 := ptr2 }
  if entry.burst < entry2.burst ∧ entry.tmpSrc = 0 then pure ({ s with flag := 1 }, true)
  else pure ({ s with m := s.m + entry2.burst }, false)

/-- The remainder of `entry2` goes to `srcrq`, in front of `ptr`. -/
def breakOff (ptr : Ptr) (entry : Task) (s : Stcf) : Except Fault Stcf := do
  let (ts2, m) := s.mem.malloc
  let entry2 ← m.listEntry s.entry2
  let m ← m.setEntry ts2
    { pid := entry2.pid, arr := entry2.arr, burst := entry2.burst - s.m, prio := entry2.prio
      onRq := 0, tmpSrc := 1 }
  let m ← m.setEntry s.entry2 { entry2 with burst := entry.arr + 1 }
  let m ← m.listAddTail ts2 ptr
  pure { s with mem := m, flag := 0, processes := s.processes + 1, m := 0 }

/-- The copy of `entry` and, with `flag` set, what is broken off for it. -/
def stcfTake (rq ptr ptr2 : Ptr) (entry : Task) (s : Stcf) : Except Fault (Stcf × Bool) := do
  let s := if s.m < entry.arr then { s with m := entry.arr } else s
  let (ts, m) ← newTask entry s.mem
  let m ← if s.flag ≠ 0 then m.listAdd ts ptr2 else m.listAddTail ts rq
  let m ← m.setEntry ptr { entry with onRq := 1 }
  let s := { s with mem := m, k := s.k + entry.burst, processAdded := s.processAdded + 1 }
  if s.processAdded = s.processes then pure (s, true)
  else if s.flag ≠ 0 then do
    let s ← breakOff ptr entry s
    pure (s, false)
  else pure (s, false)

def stcfVisit (rq : Ptr) (i : Int) (ptr : Ptr) (s : Stcf) : Except Fault (Stcf × Bool) := do
  let entry ← s.mem.listEntry ptr
  if entry.onRq = 0 then do
    let s := { s with j := s.j + entry.burst }
    if letsIn i s.j s.k entry then do
      let (s, ptr2) ← listForEachUntil Stcf.mem rq (preemptVisit entry) s
      stcfTake rq ptr ptr2 entry s
    else pure (s, false)
  else pure (s, false)

/-- A pass of the source loop. It ends before the head when the function returns. -/
def stcfPass (rq : Ptr) (i : Int) (s : Stcf) : Except Fault (Stcf × Bool) := do
  let (s, ptr) ← listForEachUntil Stcf.mem srcrq (stcfVisit rq i) { s with j := 0 }
  pure (s, ptr ≠ srcrq)

/-- The locals on entry. `entry2` is not initialized. -/
def Stcf.init (s : Sim) : Stcf := ⟨s.mem, s.processes, .null, 0, 0, 0, 0, 0⟩

def stcfTick (rq : Ptr) (s : Sim) : Except Fault Sim := do
  let st ← rounds (stcfPass rq) s.span.toNat 0 (Stcf.init s)
  pure { s with mem := st.mem, processes := st.processes }

/-! ## run_simulator -/

structure Report where
  j : Int
  k : Int
  output : Int → Int
  text : String

/-- The `while` loop over a burst of `i`. -/
def runSlots (pid : Int) : Nat → Report → Report
  | 0, r => r
  | i + 1, r => runSlots pid i { r with text := r.text ++ s!",{pid} ", j := r.j + 1 }

/-- `output[k] = v`. -/
def Report.write (r : Report) (k v : Int) : Report :=
  { r with output := Function.update r.output k v }

def runEntry (entry : Task) (r : Report) : Report :=
  let r := runSlots entry.pid entry.burst.toNat r
  let r := r.write r.k entry.pid
  let r := r.write (r.k + 1) (r.j - entry.arr - entry.burst)
  let r := r.write (r.k + 2) (r.j - entry.arr)
  { r with k := r.k + 3 }

/-- The rows for `n` more processes, from `output[i]` on. -/
def reportRows (output : Int → Int) : Nat → Int → String → String
  | 0, _, text => text
  | n + 1, i, text =>
    reportRows output n (i + 3) (text ++ s!"{output i}, {output (i + 1)}, {output (i + 2)} \n")

/-- `run_simulator`, with the policy `task_tick` points to, if any. -/
def runSimulator (taskTick : Option (Ptr → Sim → Except Fault Sim)) (s : Sim) :
    Except Fault (Sim × String) := do
  let (s, text) ← match taskTick with
    | none => pure (s, "")
    | some tick => do
      let s ← tick runqueue s
      let r ← listForEach (fun _ => s.mem) runqueue (fun ptr r => do
        let entry ← s.mem.listEntry ptr
        pure (runEntry entry r)) ⟨1, 0, s.output, ""⟩
      pure ({ s with output := r.output }, r.text)
  pure (s, reportRows s.output s.processes.toNat 0 (text ++ "\n"))

/-! ## The input -/

/-- `setup_scheduler`: the policy for a name. -/
def setupScheduler (schedName : List Char) : Option (Ptr → Sim → Except Fault Sim) :=
  if "FCFS".toList <+: schedName then some fcfsTick
  else if "SJF".toList <+: schedName then some sjfTick
  else if "STCF".toList <+: schedName then some stcfTick
  else none

/-- A line of `read_config`. `malloc` does not clear `on_rq` and `tmp_src`. -/
def readProcess (s : Sim) (buffer : List Char) : Except Fault Sim :=
  match tokens ',' buffer with
  | tid :: arr :: burst :: prio :: _ => do
    let (ts, m) := s.mem.malloc
    let old ← m.listEntry ts
    let m ← m.setEntry ts
      { old with pid := atoi tid, arr := atoi arr, burst := atoi burst, prio := atoi prio }
    let m ← m.listAddTail ts srcrq
    pure { s with mem := m, span := s.span + atoi burst, processes := s.processes + 1 }
  | _ => .error .badPtr

/-- `read_config`. -/
def readConfig (s : Sim) : List (List Char) → Except Fault Sim
  | [] => pure s
  | buffer :: lines =>
    if buffer.length ≤ 1 then readConfig s lines
    else do
      let s ← readProcess s buffer
      readConfig s lines

end OsBasics.Cpu
