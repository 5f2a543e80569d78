/-
  The buffer of `run_simulator`.

  `read_config` allocates `3 * processes` bytes for as many cells of four bytes each.
  `run_simulator` reads back three cells for every process, and no policy lowers their
  number, so it leaves the buffer as soon as there is a process (`buffer_iff`).
-/
import OsBasics.Cpu.Complete
import OsBasics.Cpu.Fcfs
import OsBasics.Cpu.Passes
import OsBasics.Cpu.Report
import OsBasics.Cpu.Sjf

namespace OsBasics.Cpu

open OsBasics.Lib OsBasics.Lists

variable {s s' : Sim} {src : List Nat} {tasks : List Task} {tick : Ptr → Sim → Except Fault Sim}

/-- The cells of `output` the walk over the run queue writes. -/
def written : Report → List Task → List Int
  | _, [] => []
  | r, entry :: entries => r.k :: (r.k + 1) :: (r.k + 2) :: written (runEntry entry r) entries

/-- The cells `n` rows are read back from, from `k` on. -/
def readBack : Nat → Int → List Int
  | 0, _ => []
  | n + 1, k => k :: (k + 1) :: (k + 2) :: readBack n (k + 3)

/-- The cell is in the `3 * processes` bytes of the buffer. -/
def InBuffer (processes c : Int) : Prop := 0 ≤ c ∧ 4 * (c + 1) ≤ 3 * processes

/-- With the run queue `q` and a buffer for `processes`, what is written is in the buffer, and what is
    read back is in the buffer and written. -/
structure StaysInBuffer (processes : Int) (s : Sim) (q : List Nat) : Prop where
  writes : ∀ c ∈ written (.start s.output) (q.map s.mem.data), InBuffer processes c
  reads : ∀ c ∈ readBack s.processes.toNat 0,
    InBuffer processes c ∧ c ∈ written (.start s.output) (q.map s.mem.data)

theorem mem_readBack {n : Nat} {k c : Int} : c ∈ readBack n k ↔ k ≤ c ∧ c < k + 3 * n := by
  induction n generalizing k with
  | zero => simp [readBack]
  | succ n ih =>
    simp only [readBack, List.mem_cons, ih]
    push_cast
    omega

/-- A policy with nothing to do leaves everything as it is. -/
theorem tick_nil (h : Loaded s [] src) (htick : tick ∈ [fcfsTick, sjfTick, stcfTick]) :
    tick runqueue s = .ok s := by
  have hspan : s.span.toNat = 0 := by
    rw [h.span]
    rfl
  simp only [List.mem_cons, List.not_mem_nil, or_false] at htick
  obtain rfl | rfl | rfl := htick
  · rw [fcfsTick, hspan]
    rfl
  · rw [sjfTick, hspan]
    rfl
  · rw [stcfTick, hspan]
    rfl

theorem sjfTick_ends (h : Loaded s tasks src) :
    ∃ s' q, sjfTick runqueue s = .ok s' ∧ IsRing s'.mem 1 q ∧ s'.processes = s.processes := by
  obtain ⟨st', log, tasks', queue', hrun, -, ⟨q, hB, -⟩, -⟩ :=
    sjf_run (fun _ _ _ _ => True)
      (fun i its tasks queue st _ hat (hmore : st.processAdded ≠ s.processes) => by
        obtain ⟨st', its', tasks', queue', hrun, hvisits, hentries, hat', -⟩ :=
          sjf_round (fun _ _ _ _ _ => True) (fun _ _ _ _ _ _ _ _ _ _ _ _ _ => trivial) hat trivial hmore
        exact ⟨st', its', tasks', queue', hrun, hvisits, hentries, hat', trivial⟩)
      (fun _ _ _ _ _ _ => trivial) []
      (⟨[], ⟨h.lists, h.data, rfl⟩, rfl, rfl⟩ : SjfAt src tasks [] ⟨s.mem, 0, 0, 0⟩) trivial (i := 0)
      s.span.toNat
  refine ⟨{ s with mem := st'.mem }, q, ?_, hB.queue, rfl⟩
  unfold sjfTick
  exact congrArg (· >>= _) hrun

/-- There are no fewer than `n` processes. -/
def AtLeast (n : Int) (_ : List Iteration) (a : Snapshot) : Prop := n ≤ a.stage.processes

/-- A split adds a process. -/
theorem kept_atLeast (n : Int) : Kept (AtLeast n) where
  restart _ _ h := h
  visit _ _ _ _ _ _ _ _ _ _ _ _ _ h hs := by
    obtain ⟨-, -, hsame, -⟩ | ⟨pieces, htaking⟩ := hs.step.cases_taking
    · rw [AtLeast, hsame]
      exact h
    · rw [AtLeast, htaking.processes]
      exact h.trans (Int.le_add_of_nonneg_right (Int.natCast_nonneg _))

theorem stcfTick_ends (h : Loaded s tasks src) :
    ∃ s' q, stcfTick runqueue s = .ok s' ∧ IsRing s'.mem 1 q ∧ s.processes ≤ s'.processes := by
  have hstart : AtLeast s.processes [] h.snapshot := h.processes.le
  obtain ⟨c, log, hrun, -, hkept⟩ := stcf_run (kept_atLeast s.processes) hstart rfl s.span.toNat 0
  refine ⟨{ s with mem := c.st.mem, processes := c.st.processes }, c.q, ?_, c.holds.queue, ?_⟩
  · unfold stcfTick
    exact congrArg (· >>= _) hrun
  · rw [AtLeast, ← c.holds.processes] at hkept
    exact hkept

/-- Every policy ends, with no fewer processes than before. -/
theorem tick_ends (h : Loaded s tasks src) (htick : tick ∈ [fcfsTick, sjfTick, stcfTick]) :
    ∃ s' q, tick runqueue s = .ok s' ∧ IsRing s'.mem 1 q ∧ s.processes ≤ s'.processes := by
  simp only [List.mem_cons, List.not_mem_nil, or_false] at htick
  obtain rfl | rfl | rfl := htick
  · obtain ⟨s', q, hrun, hB⟩ := h.fcfs
    exact ⟨s', q, hrun, hB.queue, (fcfsTick_processes hrun).ge⟩
  · obtain ⟨s', q, hrun, hring, hsame⟩ := sjfTick_ends h
    exact ⟨s', q, hrun, hring, hsame.ge⟩
  · exact stcfTick_ends h

/-- What `run_simulator` writes and reads back stays in its buffer exactly when there is no process. -/
theorem buffer_iff (h : Loaded s tasks src) (htick : tick ∈ [fcfsTick, sjfTick, stcfTick]) :
    ∃ s' q out, tick runqueue s = .ok s' ∧ IsRing s'.mem 1 q ∧ runSimulator (some tick) s = .ok out ∧
      (StaysInBuffer s.processes s' q ↔ tasks = []) := by
  by_cases hnil : tasks = []
  · subst hnil
    have hrun := tick_nil h htick
    have hsrc : src = [] := List.eq_nil_of_length_eq_zero h.length
    refine ⟨s, [], _, hrun, h.lists.queue, runSimulator_eq hrun h.lists.queue,
      iff_of_true ⟨by simp [written], fun c hc => ?_⟩ rfl⟩
    rw [h.processes] at hc
    exact absurd hc List.not_mem_nil
  · obtain ⟨s', q, hrun, hring, hmore⟩ := tick_ends h htick
    refine ⟨s', q, _, hrun, hring, runSimulator_eq hrun hring, iff_of_false (fun hstays => ?_) hnil⟩
    have hpos : 0 < tasks.length := List.length_pos_of_ne_nil hnil
    have hprocesses := h.processes
    -- the last cell that is read back
    have hlast := (hstays.reads (3 * s'.processes - 1) (mem_readBack.2 (by omega))).1.2
    omega

theorem buffer_iff_crowd : ∃ s' q out, stcfTick runqueue (withProcesses crowd) = .ok s' ∧ IsRing s'.mem 1 q ∧
    runSimulator (some stcfTick) (withProcesses crowd) = .ok out ∧
      (StaysInBuffer (withProcesses crowd).processes s' q ↔ crowd = []) :=
  buffer_iff (withProcesses_loaded crowd) (by simp)

/-- A single process has three cells in a buffer of three bytes. -/
theorem buffer_left : ¬ ∃ s' q, fcfsTick runqueue (withProcesses [⟨0, 0, 0, 1, 0, 1⟩]) = .ok s' ∧
    IsRing s'.mem 1 q ∧ StaysInBuffer (withProcesses [⟨0, 0, 0, 1, 0, 1⟩]).processes s' q := by
  rintro ⟨s', q, hrun, -, hstays⟩
  have hprocesses : s'.processes = 1 := fcfsTick_processes hrun
  have hlast := (hstays.reads 2 (by rw [hprocesses]; decide)).1.2
  exact absurd hlast (by decide)

end OsBasics.Cpu
