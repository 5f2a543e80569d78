/-
  What `run_simulator` reports.

  It walks over the run queue, prints the time line and stores three numbers for each
  entry; then it prints as many rows as there are processes. `runSimulator_eq`: the
  walk is a fold over the entries. `walk_text` and `walk_rows` say what it prints and
  stores.
-/
import OsBasics.Cpu.Queue
import OsBasics.Lib.TimeLine

namespace OsBasics.Cpu

open OsBasics.Lib OsBasics.Lists

variable {s s' : Sim} {q : List Nat} {entry : Task} {entries : List Task} {r : Report} {k : Int}

/-! ## The walk -/

/-- The loop of `run_simulator` over the run queue. -/
def walk (r : Report) (entries : List Task) : Report :=
  entries.foldl (fun r entry => runEntry entry r) r

/-- The report before the first entry. -/
def Report.start (output : Int → Int) : Report := ⟨1, 0, output, ""⟩

theorem walk_cons : walk r (entry :: entries) = walk (runEntry entry r) entries := rfl

theorem walk_concat : walk r (entries ++ [entry]) = runEntry entry (walk r entries) := by
  rw [walk, List.foldl_append]
  rfl

/-- `run_simulator` walks over the run queue the policy leaves, and then prints the rows. -/
theorem runSimulator_eq {tick : Ptr → Sim → Except Fault Sim} (htick : tick runqueue s = .ok s')
    (hring : IsRing s'.mem 1 q) : runSimulator (some tick) s =
      .ok ({ s' with output := (walk (.start s'.output) (q.map s'.mem.data)).output },
        reportRows (walk (.start s'.output) (q.map s'.mem.data)).output s'.processes.toNat 0
          ((walk (.start s'.output) (q.map s'.mem.data)).text ++ "\n")) := by
  obtain ⟨r, hloop, rfl⟩ : ∃ r, listForEach (fun _ => s'.mem) runqueue (fun ptr r => do
        let entry ← s'.mem.listEntry ptr
        pure (runEntry entry r)) (.start s'.output) = .ok r ∧
      r = walk (.start s'.output) (q.map s'.mem.data) := by
    refine listForEach_rule (fun done r => r = walk (.start s'.output) (done.map s'.mem.data))
      (fun _ _ _ => hring) (fun done x rest r hq hr => ?_) rfl
    have hx : x ∈ q := by simp [hq]
    refine ⟨runEntry (s'.mem.data x) r, ?_, ?_⟩
    · rw [listEntry_node (hring.valid x (List.mem_cons_of_mem _ hx)) (hring.entries x hx)]
      rfl
    · rw [List.map_append, List.map_singleton, walk_concat, hr]
  unfold runSimulator
  dsimp only
  rw [htick, ok_bind]
  unfold Report.start at hloop ⊢
  rw [hloop]
  rfl

theorem map_job_data (m : ListMem Task) (l : List Nat) : (l.map m.data).map Task.job = jobsAt m l := by
  rw [List.map_map]
  rfl

/-! ## What is printed -/

/-- The time line of a run queue, as pids. -/
def slots (queue : List Job) : List Int := timeLine Job.pid (fun p => p.burst.toNat) queue

/-- A time line as it is printed behind `text`. -/
def printSlots (text : String) (slots : List Int) : String :=
  slots.foldl (fun text pid => text ++ s!",{pid} ") text

theorem runSlots_text (pid : Int) (n : Nat) (r : Report) :
    (runSlots pid n r).text = printSlots r.text (List.replicate n pid) := by
  induction n generalizing r with
  | zero => rfl
  | succ n ih =>
    rw [runSlots, ih]
    rfl

theorem walk_text (r : Report) (entries : List Task) :
    (walk r entries).text = printSlots r.text (slots (entries.map Task.job)) := by
  induction entries generalizing r with
  | nil => rfl
  | cons entry entries ih =>
    have hentry : (runEntry entry r).text = printSlots r.text (List.replicate entry.burst.toNat entry.pid) :=
      runSlots_text _ _ _
    have hslots : slots ((entry :: entries).map Task.job) =
        List.replicate entry.burst.toNat entry.pid ++ slots (entries.map Task.job) := timeLine_cons
    rw [walk_cons, ih, hentry, hslots, printSlots, printSlots, printSlots, List.foldl_append]

/-! ## What is stored -/

/-- What is reported of a process. -/
structure Row where
  pid : Int
  waiting : Int
  turnaround : Int
  deriving DecidableEq, Repr

/-- The rows of a run queue whose first entry finds the counter at `j`. -/
def rowsFrom : Int → List Job → List Row
  | _, [] => []
  | j, p :: queue =>
    ⟨p.pid, j + p.burst.toNat - p.arr - p.burst, j + p.burst.toNat - p.arr⟩ ::
      rowsFrom (j + p.burst.toNat) queue

/-- `output` holds the rows from the cell `k` on. -/
def HoldsRows (output : Int → Int) : Int → List Row → Prop
  | _, [] => True
  | k, row :: rows => (output k = row.pid ∧ output (k + 1) = row.waiting ∧
      output (k + 2) = row.turnaround) ∧ HoldsRows output (k + 3) rows

/-- The rows `run_simulator` reads back, `n` from the cell `k` on. -/
def readRows (output : Int → Int) : Nat → Int → List Row
  | 0, _ => []
  | n + 1, k => ⟨output k, output (k + 1), output (k + 2)⟩ :: readRows output n (k + 3)

/-- The rows that are reported, one for each process. -/
def Sim.rows (s : Sim) : List Row := readRows s.output s.processes.toNat 0

/-- Rows as they are printed behind `text`. -/
def printRows (text : String) (rows : List Row) : String :=
  rows.foldl (fun text row => text ++ s!"{row.pid}, {row.waiting}, {row.turnaround} \n") text

theorem reportRows_eq (output : Int → Int) (n : Nat) (k : Int) (text : String) :
    reportRows output n k text = printRows text (readRows output n k) := by
  induction n generalizing k text with
  | zero => rfl
  | succ n ih =>
    rw [reportRows, ih]
    rfl

/-- The rows that are read back are those that are there. -/
theorem readRows_eq {output : Int → Int} {rows : List Row} (h : HoldsRows output k rows) :
    readRows output rows.length k = rows := by
  induction rows generalizing k with
  | nil => rfl
  | cons row rows ih =>
    obtain ⟨⟨hpid, hwaiting, hturnaround⟩, hrest⟩ := h
    rw [List.length_cons, readRows, hpid, hwaiting, hturnaround, ih hrest]

theorem reportRows_text (output : Int → Int) (n : Nat) (i : Int) (text : String) :
    ∃ rows, reportRows output n i text = text ++ rows := by
  induction n generalizing i text with
  | zero => exact ⟨"", (String.append_empty).symm⟩
  | succ n ih =>
    obtain ⟨rows, hrows⟩ := ih (i + 3)
      (text ++ s!"{output i}, {output (i + 1)}, {output (i + 2)} \n")
    exact ⟨_, by rw [reportRows, hrows, String.append_assoc]⟩

/-- The counter and the cells after the slots of an entry. -/
theorem runSlots_fields (pid : Int) (n : Nat) (r : Report) : (runSlots pid n r).j = r.j + n ∧
    (runSlots pid n r).k = r.k ∧ (runSlots pid n r).output = r.output := by
  induction n generalizing r with
  | zero => simp [runSlots]
  | succ n ih =>
    obtain ⟨hj, hk, houtput⟩ := ih { r with text := r.text ++ s!",{pid} ", j := r.j + 1 }
    refine ⟨?_, hk, houtput⟩
    rw [runSlots, hj]
    push_cast
    exact (Int.add_assoc _ _ _).trans (congrArg (r.j + ·) (Int.add_comm _ _))

/-- An entry moves the counters and fills the three cells from `k` on. -/
theorem runEntry_fields (entry : Task) (r : Report) :
    (runEntry entry r).j = r.j + entry.burst.toNat ∧ (runEntry entry r).k = r.k + 3 ∧
      (runEntry entry r).output = Function.update (Function.update (Function.update r.output
        r.k entry.pid) (r.k + 1) (r.j + entry.burst.toNat - entry.arr - entry.burst))
        (r.k + 2) (r.j + entry.burst.toNat - entry.arr) := by
  obtain ⟨hj, hk, houtput⟩ := runSlots_fields entry.pid entry.burst.toNat r
  unfold runEntry Report.write
  dsimp only
  rw [hj, hk, houtput]
  exact ⟨rfl, rfl, rfl⟩

/-- The walk leaves the cells before `k` as they are and stores the rows behind them. -/
theorem walk_rows (r : Report) (entries : List Task) :
    (∀ c < r.k, (walk r entries).output c = r.output c) ∧
      HoldsRows (walk r entries).output r.k (rowsFrom r.j (entries.map Task.job)) := by
  induction entries generalizing r with
  | nil => exact ⟨fun _ _ => rfl, trivial⟩
  | cons entry entries ih =>
    obtain ⟨hj, hk, houtput⟩ := runEntry_fields entry r
    obtain ⟨hkeep, hrows⟩ := ih (runEntry entry r)
    rw [hk, houtput] at hkeep
    rw [hj, hk] at hrows
    rw [walk_cons]
    refine ⟨fun c hc => ?_, ⟨?_, ?_, ?_⟩, hrows⟩
    · rw [hkeep c (by omega), Function.update_of_ne (by omega), Function.update_of_ne (by omega),
        Function.update_of_ne (by omega)]
    · rw [hkeep _ (by omega), Function.update_of_ne (by omega), Function.update_of_ne (by omega),
        Function.update_self]
      rfl
    · rw [hkeep _ (by omega), Function.update_of_ne (by omega), Function.update_self]
      rfl
    · rw [hkeep _ (by omega), Function.update_self]
      rfl

theorem length_rowsFrom (j : Int) (queue : List Job) : (rowsFrom j queue).length = queue.length := by
  induction queue generalizing j with
  | nil => rfl
  | cons p queue ih => rw [rowsFrom, List.length_cons, List.length_cons, ih]

/-- `run_simulator` prints the time line of the run queue the policy leaves, and then the rows. -/
theorem runSimulator_line {tick : Ptr → Sim → Except Fault Sim} (htick : tick runqueue s = .ok s')
    (hring : IsRing s'.mem 1 q) : ∃ s'' rows, runSimulator (some tick) s =
      .ok (s'', printSlots "" (slots (jobsAt s'.mem q)) ++ "\n" ++ rows) ∧ s''.mem = s'.mem ∧
        s''.processes = s'.processes := by
  have hrun := runSimulator_eq htick hring
  rw [walk_text, map_job_data] at hrun
  obtain ⟨rows, hrows⟩ := reportRows_text (walk (.start s'.output) (q.map s'.mem.data)).output
    s'.processes.toNat 0 (printSlots "" (slots (jobsAt s'.mem q)) ++ "\n")
  exact ⟨_, rows, hrun.trans (congrArg (fun text => Except.ok (_, text)) hrows), rfl, rfl⟩

/-- When there are as many processes as entries, their rows are what is reported. -/
theorem runSimulator_rows {tick : Ptr → Sim → Except Fault Sim} (htick : tick runqueue s = .ok s')
    (hring : IsRing s'.mem 1 q) (hall : s'.processes = q.length) :
    ∃ s'', runSimulator (some tick) s =
        .ok (s'', printRows (printSlots "" (slots (jobsAt s'.mem q)) ++ "\n") s''.rows) ∧
      s''.mem = s'.mem ∧ s''.rows = rowsFrom 1 (jobsAt s'.mem q) := by
  have hrun := runSimulator_eq htick hring
  have hrows : HoldsRows (walk (.start s'.output) (q.map s'.mem.data)).output 0
      (rowsFrom 1 ((q.map s'.mem.data).map Task.job)) :=
    (walk_rows (.start s'.output) (q.map s'.mem.data)).2
  have hlen : s'.processes.toNat = (rowsFrom 1 (jobsAt s'.mem q)).length := by
    rw [length_rowsFrom, jobsAt, List.length_map, hall, Int.toNat_natCast]
  rw [map_job_data] at hrows
  rw [walk_text, map_job_data, reportRows_eq] at hrun
  refine ⟨_, hrun, rfl, ?_⟩
  unfold Sim.rows
  dsimp only
  rw [hlen, readRows_eq hrows]

end OsBasics.Cpu
