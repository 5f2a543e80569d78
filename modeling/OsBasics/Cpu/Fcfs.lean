/-
  First come, first served.

  A round of `fcfs_tick` copies the processes that arrive in it (`fcfs_round`), so
  after the last one the run queue is the workload collected by arrival
  (`fcfs_rounds`). `fcfs_order`: that is the stable sort by arrival of the processes
  that arrive before the total burst, and no other process is there.
-/
import OsBasics.Cpu.Queue
import OsBasics.Lib.Runs

namespace OsBasics.Cpu

open OsBasics.Lib OsBasics.Lists

variable {m m' : ListMem Task} {s s' : Sim} {src q : List Nat} {tasks : List Task} {jobs : List Job}

/-- Some run queue holds copies of `jobs`, and they are counted. -/
def FcfsAt (src : List Nat) (tasks : List Task) (jobs : List Job) (s : Fcfs) : Prop :=
  ∃ q, Board s.mem src q tasks jobs ∧ s.processAdded = jobs.length

/-- An entry is copied if it arrives now. -/
theorem fcfs_visit {s : Fcfs} {x : Nat} (h : FcfsAt src tasks jobs s) (hx : x ∈ src) (i : Int) :
    ∃ s', fcfsVisit runqueue i (.node x) s = .ok s' ∧
      FcfsAt src tasks (jobs ++ [(s.mem.data x).job].filter fun p => p.arr = i) s' := by
  obtain ⟨q, hB, hadded⟩ := h
  have hentry := hB.listEntry_source hx
  by_cases harr : (s.mem.data x).arr = i
  · obtain ⟨m', hadd, hB', -, -⟩ :=
      (hB.withEntry (copyTask (s.mem.data x) (s.mem.data s.mem.fresh))).enqueue (hB.free_fresh _)
    have hcopied : [(s.mem.data x).job].filter (fun p => p.arr = i) = [(s.mem.data x).job] := by
      simp [harr]
    refine ⟨⟨m', s.processAdded + 1⟩, ?_, q ++ [s.mem.fresh], ?_, ?_⟩
    · unfold fcfsVisit
      rw [hentry, ok_bind, if_pos harr, newTask_eq hB.two_le_fresh, ok_bind]
      dsimp only
      rw [hadd]
      rfl
    · rw [hcopied]
      simpa using hB'
    · rw [hcopied, hadded]
      simp
  · refine ⟨s, ?_, ?_⟩
    · unfold fcfsVisit
      rw [hentry, ok_bind, if_neg harr]
      rfl
    · have hnone : [(s.mem.data x).job].filter (fun p => p.arr = i) = [] := by simp [harr]
      rw [hnone, List.append_nil]
      exact ⟨q, hB, hadded⟩

/-- A round copies the processes that arrive in it. -/
theorem fcfs_round {s : Fcfs} (h : FcfsAt src tasks jobs s) {processes : Int}
    (hmore : s.processAdded ≠ processes) (i : Int) :
    ∃ s', fcfsRound runqueue processes i s = .ok (s', false) ∧
      FcfsAt src tasks (jobs ++ (tasks.map Task.job).filter fun p => p.arr = i) s' := by
  have hstep : ∀ done x rest s, src = done ++ x :: rest →
      FcfsAt src tasks (jobs ++ ((tasks.map Task.job).take done.length).filter fun p => p.arr = i) s →
      ∃ s', fcfsVisit runqueue i (.node x) s = .ok s' ∧ FcfsAt src tasks
        (jobs ++ ((tasks.map Task.job).take (done ++ [x]).length).filter fun p => p.arr = i) s' := by
    intro done x rest s hl hI
    have hread : (tasks.map Task.job).take (done ++ [x]).length =
        (tasks.map Task.job).take done.length ++ [(s.mem.data x).job] := by
      obtain ⟨q, hB, -⟩ := hI
      rw [← hB.tasks, hl]
      simp [List.take_add_one]
    rw [hread, List.filter_append, ← List.append_assoc]
    exact fcfs_visit hI (by simp [hl]) i
  obtain ⟨s', hloop, hI⟩ := listForEach_rule _ (fun _ _ hI => hI.choose_spec.1.source) hstep
    (by simpa using h)
  refine ⟨s', ?_, ?_⟩
  · unfold fcfsRound
    rw [if_neg hmore, srcrq, hloop]
    rfl
  · have hlen : src.length = tasks.length := by
      obtain ⟨q, hB, -⟩ := hI
      exact hB.source_length
    rwa [hlen, List.take_of_length_le (by simp)] at hI

/-- The rounds collect the workload by arrival. A round that returns has nothing left to copy. -/
theorem fcfs_rounds {s : Fcfs} {n i : Nat}
    (h : FcfsAt src tasks (collect Job.arr (tasks.map Task.job) i) s) :
    ∃ s', rounds (fcfsRound runqueue tasks.length) n i s = .ok s' ∧
      FcfsAt src tasks (collect Job.arr (tasks.map Task.job) (i + n)) s' := by
  induction n generalizing i s with
  | zero => exact ⟨s, rfl, h⟩
  | succ n ih =>
    by_cases hall : s.processAdded = tasks.length
    · have hfull : (collect Job.arr (tasks.map Task.job) i).length = (tasks.map Task.job).length := by
        obtain ⟨q, -, hadded⟩ := h
        rw [List.length_map]
        omega
      refine ⟨s, ?_, by rwa [collect_full hfull]⟩
      rw [rounds, fcfsRound, if_pos hall]
      rfl
    · obtain ⟨s₁, hround, h₁⟩ := fcfs_round h hall i
      rw [← collect_succ] at h₁
      obtain ⟨s', hrun, h'⟩ := ih h₁
      refine ⟨s', ?_, by rwa [Nat.add_right_comm] at h'⟩
      rw [rounds, hround, ok_bind]
      exact hrun

theorem fcfsTick_processes {rq : Ptr} (h : fcfsTick rq s = .ok s') : s'.processes = s.processes := by
  obtain ⟨st, -, h⟩ := bind_ok h
  cases h
  rfl

theorem Loaded.fcfs (h : Loaded s tasks src) : ∃ s' q, fcfsTick runqueue s = .ok s' ∧
    Board s'.mem src q tasks (collect Job.arr (tasks.map Task.job) s.span.toNat) := by
  have hstart : FcfsAt src tasks (collect Job.arr (tasks.map Task.job) 0) ⟨s.mem, 0⟩ :=
    ⟨[], ⟨h.lists, h.data, rfl⟩, rfl⟩
  obtain ⟨st, hrun, q, hB, -⟩ := fcfs_rounds (n := s.span.toNat) hstart
  refine ⟨{ s with mem := st.mem }, q, ?_, by rwa [Nat.zero_add] at hB⟩
  unfold fcfsTick
  rw [h.processes]
  exact congrArg (· >>= _) hrun

/-- FCFS copies every process iff all arrive before the total burst. -/
theorem collect_perm_iff (harr : ∀ p ∈ jobs, 0 ≤ p.arr) (span : Nat) :
    (collect Job.arr jobs span).Perm jobs ↔ ∀ p ∈ jobs, p.arr < span := by
  have hstable := (collect_stable Job.arr jobs span).perm
  constructor
  · intro hperm p hp
    exact (mem_collect.1 (hperm.symm.subset hp)).2.2
  · intro hall
    rwa [List.filter_eq_self.2 fun p hp => decide_eq_true ⟨harr p hp, hall p hp⟩] at hstable

/-- The run queue of FCFS holds the processes that arrive before the total burst, in the order of
    their arrivals and those that arrive together in the order of the input. -/
theorem fcfs_order (h : Loaded s tasks src) : ∃ s' q, fcfsTick runqueue s = .ok s' ∧
    IsRing s'.mem 1 q ∧
    StableSort (keyLe Job.arr)
      ((tasks.map Task.job).filter fun p => 0 ≤ p.arr ∧ p.arr < totalBurst (tasks.map Task.job))
      (jobsAt s'.mem q) := by
  obtain ⟨s', q, hrun, hB⟩ := h.fcfs
  refine ⟨s', q, hrun, hB.queue, ?_⟩
  rw [hB.jobs, ← h.span]
  have hstable := collect_stable Job.arr (tasks.map Task.job) s.span.toNat
  rwa [List.filter_congr fun p _ => ?_] at hstable
  rw [Bool.eq_iff_iff, decide_eq_true_eq, decide_eq_true_eq]
  omega

theorem fcfs_order_three :
    ∃ s' q, fcfsTick runqueue (withProcesses [⟨0, 0, 0, 1, 2, 3⟩, ⟨0, 0, 0, 2, 9, 1⟩, ⟨0, 0, 0, 3, 0, 4⟩]) =
        .ok s' ∧ IsRing s'.mem 1 q ∧
      StableSort (keyLe Job.arr) [⟨1, 2, 3, 0⟩, ⟨3, 0, 4, 0⟩] (jobsAt s'.mem q) :=
  fcfs_order (withProcesses_loaded [⟨0, 0, 0, 1, 2, 3⟩, ⟨0, 0, 0, 2, 9, 1⟩, ⟨0, 0, 0, 3, 0, 4⟩])

end OsBasics.Cpu
