/-
  SJF against FCFS.

  Of processes that are there from the start `sjf_tick` may take a longer one first, but it
  lets none overtake a shorter one (`SjfPicking.step`). So their waiting times, as
  `run_simulator` reports them, never add up to more than under FCFS (`sjf_waits_le`).
-/
import Mathlib
import OsBasics.Lib.Overtaking
import OsBasics.Cpu.Complete
import OsBasics.Cpu.Report

namespace OsBasics.Cpu

open OsBasics.Lib OsBasics.Lists

variable {s : Sim} {src : List Nat} {tasks ta tb : List Task} {t t' : Task}
  {jobs queue queue' : List Job} {i j j' processes : Int}

/-! ## What is reported -/

theorem rowsFrom_pid (j : Int) (queue : List Job) :
    (rowsFrom j queue).map Row.pid = queue.map Job.pid := by
  induction queue generalizing j with
  | nil => rfl
  | cons p queue ih => rw [rowsFrom, List.map_cons, List.map_cons, ih]

/-- The sum of the waiting times that are reported. -/
theorem sum_waiting (hburst : ∀ p ∈ queue, 0 ≤ p.burst) (j : Int) :
    ((rowsFrom j queue).map Row.waiting).sum =
      queue.length * j + waits Job.burst queue - (queue.map Job.arr).sum := by
  induction queue generalizing j with
  | nil => simp [rowsFrom, waits]
  | cons p queue ih =>
    have hp : (p.burst.toNat : Int) = p.burst := Int.toNat_of_nonneg (hburst p List.mem_cons_self)
    have hrest := ih (fun r hr => hburst r (List.mem_cons_of_mem _ hr)) (j + p.burst.toNat)
    rw [rowsFrom, List.map_cons, List.sum_cons, hrest, waits_cons, nsmul_eq_mul, hp,
      List.length_cons, List.map_cons, List.sum_cons]
    push_cast
    ring

/-! ## Who overtakes whom -/

/-- A round is at the entries `tb`, and those that wait in `ta` have been passed by the counter. -/
structure SjfPicking (jobs : List Job) (i : Int) (ta tb : List Task) (queue : List Job) (j : Int) :
    Prop where
  books : SjfBooks jobs (ta ++ tb) queue
  picks : Overtakes Job.burst jobs queue (waiting (ta ++ tb))
  count : totalBurst (waiting ta) ≤ j
  passed : ∀ p ∈ waiting ta, i ≤ p.burst

theorem burst_le_totalBurst (h : ∀ p ∈ jobs, 0 ≤ p.burst) {p : Job} (hp : p ∈ jobs) :
    p.burst ≤ totalBurst jobs :=
  List.single_le_sum (List.forall_mem_map.2 h) _ (List.mem_map_of_mem hp)

theorem waiting_concat_of_eq (h : t.onRq = 0) : waiting (ta ++ [t]) = waiting ta ++ [t.job] := by
  rw [waiting_append, waiting_cons, if_pos h, waiting_nil]

theorem waiting_concat_of_ne (h : t.onRq ≠ 0) : waiting (ta ++ [t]) = waiting ta := by
  rw [waiting_append, waiting_cons, if_neg h, waiting_nil, List.append_nil]

/-- What is let in lasts no longer than what is passed. -/
theorem SjfPicking.burst_le (h : SjfPicking jobs i ta (t :: tb) queue j) (hburst : ∀ p ∈ jobs, 1 ≤ p.burst)
    (hin : letsIn i (j + t.burst) (totalBurst queue) t) : ∀ p ∈ waiting ta, t.burst ≤ p.burst := by
  intro p hp
  have hpass := h.passed p hp
  obtain ⟨hlt, -⟩ | ⟨hij, -⟩ := hin
  · omega
  · -- the counter has come to the sum of the bursts, and `p` is one of them
    have hmem : ∀ r ∈ waiting ta, r ∈ jobs := fun r hr => h.books.perm.subset (by
      rw [waiting_append]
      exact List.mem_append_right _ (List.mem_append_left _ hr))
    have hle := burst_le_totalBurst (fun r hr => Int.le_trans Int.one_nonneg (hburst r (hmem r hr))) hp
    have hcount := h.count
    have hone := hburst p (hmem p hp)
    omega

/-- A step lets none overtake a shorter one. -/
theorem SjfPicking.step (harr : ∀ p ∈ jobs, p.arr = 0) (hburst : ∀ p ∈ jobs, 1 ≤ p.burst)
    (h : SjfPicking jobs i ta (t :: tb) queue j) (hs : SjfStep i t queue j t' queue' j') :
    SjfPicking jobs i (ta ++ [t']) tb queue' j' := by
  have hbooks : SjfBooks jobs (ta ++ [t'] ++ tb) queue' := by
    rw [List.append_assoc]
    exact h.books.step hs
  have hjob : t.job ∈ jobs := by
    rw [← h.books.jobs]
    exact List.mem_map_of_mem (List.mem_append_right _ List.mem_cons_self)
  have hone : 1 ≤ t.burst := hburst _ hjob
  have hcount := h.count
  have hpicks := h.picks
  rw [waiting_append, waiting_cons] at hpicks
  cases hs with
  | queued h0 =>
    have hsame : waiting (ta ++ [t]) = waiting ta := waiting_concat_of_ne h0
    rw [if_neg h0] at hpicks
    refine ⟨hbooks, ?_, hsame ▸ hcount, hsame ▸ h.passed⟩
    rwa [waiting_append, hsame]
  | waits h0 hno =>
    have hmore : waiting (ta ++ [t]) = waiting ta ++ [t.job] := waiting_concat_of_eq h0
    rw [if_pos h0] at hpicks
    refine ⟨hbooks, ?_, ?_, fun p hp => ?_⟩
    · rwa [waiting_append, hmore, List.append_assoc]
    · rw [hmore, totalBurst_concat, Task.job_burst]
      omega
    · rw [hmore] at hp
      obtain hp | hp := List.mem_append.1 hp
      · exact h.passed p hp
      · -- there from the start, and the run queue lasts no negative time
        obtain rfl := List.mem_singleton.1 hp
        by_contra hlt
        have hpos : 0 ≤ totalBurst queue := totalBurst_nonneg fun p hp =>
          Int.le_trans Int.one_nonneg (hburst p (h.books.perm.subset (List.mem_append_left _ hp)))
        have harr0 : t.arr = 0 := harr _ hjob
        rw [Task.job_burst] at hlt
        exact hno (.inl ⟨by omega, by omega⟩)
  | takes h0 hin =>
    have hsame : waiting (ta ++ [t.taken]) = waiting ta := waiting_concat_of_ne one_ne_zero
    rw [if_pos h0] at hpicks
    refine ⟨hbooks, ?_, ?_, hsame ▸ h.passed⟩
    · rw [waiting_append, hsame]
      exact hpicks.pick (h.burst_le hburst hin)
    · rw [hsame]
      omega

/-- Between rounds: what waits lasts for the round to come, or one less. -/
structure SjfPicked (jobs : List Job) (i : Int) (tasks : List Task) (queue : List Job) : Prop where
  books : SjfBooks jobs tasks queue
  picks : Overtakes Job.burst jobs queue (waiting tasks)
  left : ∀ p ∈ waiting tasks, i ≤ p.burst + 1

theorem SjfPicked.round {st : Sjf} (harr : ∀ p ∈ jobs, p.arr = 0) (hburst : ∀ p ∈ jobs, 1 ≤ p.burst)
    (h : SjfPicked jobs i tasks queue) (hat : SjfAt src tasks queue st)
    (hmore : st.processAdded ≠ processes) :
    ∃ st' its tasks' queue', sjfRound runqueue processes i st = .ok (st', false) ∧
      SjfVisits i { st with j := 0 } its st' ∧ its.map SjfVisit.entry = src ∧
      SjfAt src tasks' queue' st' ∧ SjfPicked jobs (i + 1) tasks' queue' := by
  obtain ⟨st', its, tasks', queue', hrun, hvisits, hentries, hat', hend⟩ :=
    sjf_round (fun _ ta tb queue' j => SjfPicking jobs i ta tb queue' j)
      (fun its x st ta t tb q t' q' j' hI _ hs => hI.step harr hburst hs)
      hat ⟨h.books, h.picks, le_rfl, by simp⟩ hmore
  have hbooks := hend.books
  have hpicks := hend.picks
  rw [List.append_nil] at hbooks hpicks
  refine ⟨st', its, tasks', queue', hrun, hvisits, hentries, hat', hbooks, hpicks, fun p hp => ?_⟩
  have hpass := hend.passed p hp
  omega

theorem SjfPicked.full (h : SjfPicked jobs i tasks queue) (hlen : queue.length = jobs.length) :
    SjfPicked jobs (i + 1) tasks queue := by
  have hall := h.books.length
  have hnone : waiting tasks = [] := List.eq_nil_of_length_eq_zero (by omega)
  refine ⟨h.books, h.picks, fun p hp => ?_⟩
  rw [hnone] at hp
  cases hp

/-- The run queue of SJF, for processes that are there from the start. -/
theorem Loaded.sjf_overtakes (h : Loaded s tasks src) (hclear : ∀ t ∈ tasks, t.onRq = 0)
    (harr : ∀ t ∈ tasks, t.arr = 0) (hburst : ∀ t ∈ tasks, 1 ≤ t.burst)
    (henough : ∀ t ∈ tasks, t.burst + 2 ≤ totalBurst (tasks.map Task.job)) :
    ∃ s' q, sjfTick runqueue s = .ok s' ∧ IsRing s'.mem 1 q ∧ s'.processes = s.processes ∧
      Overtakes Job.burst (tasks.map Task.job) (jobsAt s'.mem q) [] := by
  have harrs : ∀ p ∈ tasks.map Task.job, p.arr = 0 := List.forall_mem_map.2 harr
  have hbursts : ∀ p ∈ tasks.map Task.job, 1 ≤ p.burst := List.forall_mem_map.2 hburst
  have hwait : waiting tasks = tasks.map Task.job := by
    unfold waiting
    rw [List.filter_eq_self.2 fun t ht => by simpa using hclear t ht]
  have hstart : SjfPicked (tasks.map Task.job) 0 tasks [] := by
    refine ⟨SjfBooks.start hclear, hwait ▸ .start, fun p hp => ?_⟩
    have hp1 := hbursts p (hwait ▸ hp)
    omega
  obtain ⟨st', log, tasks', queue', hrun, -, ⟨q, hB, -⟩, hend⟩ :=
    sjf_run (fun i _ tasks' queue => SjfPicked (tasks.map Task.job) i tasks' queue)
      (fun i its tasks' queue st hR hat (hmore : st.processAdded ≠ s.processes) =>
        hR.round harrs hbursts hat hmore)
      (fun i its tasks' queue hR hlen => hR.full (by
        rw [h.processes] at hlen
        simpa using hlen))
      [] (⟨[], ⟨h.lists, h.data, rfl⟩, rfl, rfl⟩ : SjfAt src tasks [] ⟨s.mem, 0, 0, 0⟩) hstart
      s.span.toNat
  -- after the last round nothing is left that is short enough to wait
  have hnone : waiting tasks' = [] := by
    by_contra hne
    obtain ⟨p, hp⟩ := List.exists_mem_of_ne_nil _ hne
    have hleft := hend.left p hp
    obtain ⟨t, ht, rfl⟩ := List.mem_map.1 (hend.books.perm.subset (List.mem_append_right _ hp))
    have hroom := henough t ht
    have hspan := h.span
    rw [Task.job_burst] at hleft
    omega
  refine ⟨{ s with mem := st'.mem }, q, ?_, hB.queue, rfl, ?_⟩
  · unfold sjfTick
    exact congrArg (· >>= _) hrun
  · have hpicks := hend.picks
    rwa [hnone, ← hB.jobs] at hpicks

/-- FCFS takes them in the order of the input. -/
theorem collect_there (harr : ∀ p ∈ jobs, p.arr = 0) {n : Nat} (hn : jobs ≠ [] → 0 < n) :
    collect Job.arr jobs n = jobs := by
  by_cases hjobs : jobs = []
  · rw [hjobs]
    exact List.eq_nil_iff_forall_not_mem.2 fun p hp => (nomatch (mem_collect.1 hp).1)
  · obtain ⟨m, rfl⟩ : ∃ m, n = m + 1 := ⟨n - 1, by have := hn hjobs; omega⟩
    exact collect_zero harr m

/-! ## The sum -/

/-- SJF and FCFS report the same processes, when all are there from the start and there are rounds
    enough, and under SJF their waiting times add up to no more. -/
theorem sjf_waits_le (h : Loaded s tasks src) (hclear : ∀ t ∈ tasks, t.onRq = 0)
    (harr : ∀ t ∈ tasks, t.arr = 0) (hburst : ∀ t ∈ tasks, 1 ≤ t.burst)
    (henough : ∀ t ∈ tasks, t.burst + 2 ≤ totalBurst (tasks.map Task.job)) :
    ∃ s₁ out₁ s₂ out₂, runSimulator (some fcfsTick) s = .ok (s₁, out₁) ∧
      runSimulator (some sjfTick) s = .ok (s₂, out₂) ∧
      (s₂.rows.map Row.pid).Perm (s₁.rows.map Row.pid) ∧
      (s₂.rows.map Row.waiting).sum ≤ (s₁.rows.map Row.waiting).sum := by
  have hnonneg : ∀ p ∈ tasks.map Task.job, 0 ≤ p.burst :=
    List.forall_mem_map.2 fun t ht => Int.le_trans Int.one_nonneg (hburst t ht)
  obtain ⟨s₁, q₁, hrun₁, hB₁⟩ := h.fcfs
  obtain ⟨s₂, q₂, hrun₂, hR₂, hprocs₂, hpicks⟩ := h.sjf_overtakes hclear harr hburst henough
  have hfcfs : jobsAt s₁.mem q₁ = tasks.map Task.job := by
    rw [hB₁.jobs]
    refine collect_there (List.forall_mem_map.2 harr) fun hne => ?_
    obtain ⟨t, ht⟩ := List.exists_mem_of_ne_nil tasks (mt List.map_eq_nil_iff.2 hne)
    have hroom := henough t ht
    have hone := hburst t ht
    have hspan := h.span
    omega
  have hperm : (jobsAt s₂.mem q₂).Perm (tasks.map Task.job) := by
    have hall := hpicks.perm
    rwa [List.append_nil] at hall
  have hlen₁ : s₁.processes = q₁.length := by
    have hlen := congrArg List.length hfcfs
    rw [jobsAt, List.length_map, List.length_map] at hlen
    rw [fcfsTick_processes hrun₁, h.processes, hlen]
  have hlen₂ : s₂.processes = q₂.length := by
    have hlen := hperm.length_eq
    rw [jobsAt, List.length_map, List.length_map] at hlen
    rw [hprocs₂, h.processes, hlen]
  obtain ⟨s₁', hsim₁, -, hrows₁⟩ := runSimulator_rows hrun₁ hB₁.queue hlen₁
  obtain ⟨s₂', hsim₂, -, hrows₂⟩ := runSimulator_rows hrun₂ hR₂ hlen₂
  refine ⟨s₁', _, s₂', _, hsim₁, hsim₂, ?_, ?_⟩
  · rw [hrows₁, hrows₂, rowsFrom_pid, rowsFrom_pid, hfcfs]
    exact hperm.map _
  · have hle := hpicks.waits_le
    rw [List.append_nil] at hle
    rw [hrows₁, hrows₂, sum_waiting (fun p hp => hnonneg p (hperm.subset hp)), hfcfs,
      sum_waiting hnonneg, hperm.length_eq, (hperm.map Job.arr).sum_eq]
    omega

theorem sjf_waits_le_crowd : ∃ s₁ out₁ s₂ out₂,
    runSimulator (some fcfsTick) (withProcesses crowd) = .ok (s₁, out₁) ∧
    runSimulator (some sjfTick) (withProcesses crowd) = .ok (s₂, out₂) ∧
    (s₂.rows.map Row.pid).Perm (s₁.rows.map Row.pid) ∧
    (s₂.rows.map Row.waiting).sum ≤ (s₁.rows.map Row.waiting).sum :=
  sjf_waits_le (withProcesses_loaded crowd) (by decide) (by decide) (by decide) (by decide)

end OsBasics.Cpu
