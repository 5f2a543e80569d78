/-
  The source list and the run queue in memory.

  `Loaded` is the state `read_config` leaves: `srcrq` holds the workload and the run
  queue is empty (`readConfig_loaded`). `Queues` says that the two lists are as
  they should be, and each operation of a policy on one of them keeps both
  (`Queues.enqueue`, `Queues.enqueueBehind`, `Queues.wait`).
-/
import OsBasics.Cpu.Schedsim
import Mathlib.Algebra.BigOperators.Group.List.Basic
import Mathlib.Algebra.Order.BigOperators.Group.List

namespace OsBasics.Cpu

open OsBasics.Lists
open OsBasics.Disk (atoi tokens)

variable {m m' : ListMem Task} {s s' : Sim} {src q : List Nat} {tasks : List Task} {x n : Nat}

/-- What a process is, without the marks of the policies. -/
structure Job where
  pid : Int
  arr : Int
  burst : Int
  prio : Int
  deriving DecidableEq, Repr

def Task.job (t : Task) : Job := ⟨t.pid, t.arr, t.burst, t.prio⟩

/-- A process as it is read, with `on_rq` and `tmp_src` cleared. -/
def Job.task (p : Job) : Task := ⟨0, 0, p.prio, p.pid, p.arr, p.burst⟩

@[simp] theorem Task.job_arr (t : Task) : t.job.arr = t.arr := rfl

@[simp] theorem Task.job_burst (t : Task) : t.job.burst = t.burst := rfl

@[simp] theorem Task.job_pid (t : Task) : t.job.pid = t.pid := rfl

@[simp] theorem copyTask_job (entry ts : Task) : (copyTask entry ts).job = entry.job := rfl

@[simp] theorem Job.task_job (p : Job) : p.task.job = p := rfl

theorem map_task_job (jobs : List Job) : (jobs.map Job.task).map Task.job = jobs := by
  rw [List.map_map]
  exact List.map_id _

/-- The sum of the bursts. -/
def totalBurst (jobs : List Job) : Int := (jobs.map Job.burst).sum

theorem totalBurst_append (jobs jobs' : List Job) :
    totalBurst (jobs ++ jobs') = totalBurst jobs + totalBurst jobs' := by
  simp [totalBurst]

theorem totalBurst_concat (jobs : List Job) (p : Job) :
    totalBurst (jobs ++ [p]) = totalBurst jobs + p.burst := by
  simp [totalBurst]

theorem totalBurst_perm {jobs jobs' : List Job} (h : jobs'.Perm jobs) :
    totalBurst jobs' = totalBurst jobs :=
  (h.map Job.burst).sum_eq

theorem totalBurst_nonneg {jobs : List Job} (h : ∀ p ∈ jobs, 0 ≤ p.burst) : 0 ≤ totalBurst jobs :=
  List.sum_nonneg fun b hb => by
    obtain ⟨p, hp, rfl⟩ := List.mem_map.1 hb
    exact h p hp

theorem length_le_totalBurst {jobs : List Job} (h : ∀ p ∈ jobs, 1 ≤ p.burst) :
    (jobs.length : Int) ≤ totalBurst jobs := by
  induction jobs with
  | nil => exact le_rfl
  | cons p jobs ih =>
    have hp := h p List.mem_cons_self
    have hrest := ih fun r hr => h r (List.mem_cons_of_mem _ hr)
    unfold totalBurst at hrest ⊢
    rw [List.length_cons, List.map_cons, List.sum_cons]
    omega

/-- The source entries that are not taken. -/
def waiting (tasks : List Task) : List Job := (tasks.filter fun t => t.onRq = 0).map Task.job

@[simp] theorem waiting_nil : waiting [] = [] := rfl

theorem waiting_append (ta tb : List Task) : waiting (ta ++ tb) = waiting ta ++ waiting tb := by
  simp [waiting]

theorem waiting_cons (t : Task) (tb : List Task) :
    waiting (t :: tb) = if t.onRq = 0 then t.job :: waiting tb else waiting tb := by
  by_cases h : t.onRq = 0 <;> simp [waiting, h]

/-- Processes as they are read all wait. -/
theorem waiting_map_task (jobs : List Job) : waiting (jobs.map Job.task) = jobs := by
  unfold waiting
  rw [List.filter_eq_self.2 fun t ht => by
    obtain ⟨p, -, rfl⟩ := List.mem_map.1 ht
    rfl]
  exact map_task_job jobs

/-! ## Two lists -/

/-- The source list holds the nodes `src` and the run queue the nodes `q`. -/
structure Queues (m : ListMem Task) (src q : List Nat) : Prop where
  heads : m.heads = 2
  source : IsRing m 0 src
  queue : IsRing m 1 q
  disjoint : (0 :: src).Disjoint (1 :: q)

namespace Queues

theorem two_le_fresh (h : Queues m src q) : m.heads ≤ m.fresh := by
  have h1 := (h.queue.valid 1 List.mem_cons_self).lt
  rw [h.heads]
  exact h1

theorem withData (h : Queues m src q) (a : Nat) (t : Task) : Queues (m.withData a t) src q :=
  ⟨h.heads, h.source.withData a t, h.queue.withData a t, h.disjoint⟩

theorem withEntry (h : Queues m src q) (t : Task) : Queues (m.withEntry t) src q :=
  ⟨h.heads, h.source.withEntry t, h.queue.withEntry t, h.disjoint⟩

/-- A node that may be put into a list. -/
structure Free (m : ListMem Task) (src q : List Nat) (n : Nat) : Prop where
  valid : m.Valid n
  entry : 2 ≤ n
  notSource : n ∉ 0 :: src
  notQueue : n ∉ 1 :: q

theorem Free.withData (h : Free m src q n) (a : Nat) (t : Task) : Free (m.withData a t) src q n :=
  ⟨h.valid, h.entry, h.notSource, h.notQueue⟩

/-- The node that is not used yet is free once it is allocated. -/
theorem free_fresh (h : Queues m src q) (t : Task) : Free (m.withEntry t) src q m.fresh :=
  ⟨⟨Nat.lt_succ_self _, Function.update_self _ _ _⟩, h.heads ▸ h.two_le_fresh,
    h.source.fresh_notMem, h.queue.fresh_notMem⟩

theorem insertQueue (h : Queues m src q) (hn : Free m src q n) {q' : List Nat}
    (hoff : SameOff (n :: 1 :: q) m m') (hring : IsRing m' 1 q') (hq : ∀ y ∈ q', y = n ∨ y ∈ q) :
    Queues m' src q' where
  heads := hoff.heads.trans h.heads
  source := h.source.congr hoff fun y hy hy' => by
    obtain rfl | hy' := List.mem_cons.1 hy'
    · exact hn.notSource hy
    · exact h.disjoint hy hy'
  queue := hring
  disjoint y hy hy' := by
    obtain rfl | hy' := List.mem_cons.1 hy'
    · exact h.disjoint hy List.mem_cons_self
    · obtain rfl | hy' := hq y hy'
      · exact hn.notSource hy
      · exact h.disjoint hy (List.mem_cons_of_mem _ hy')

/-- `list_add_tail` to the run queue. -/
theorem enqueue (h : Queues m src q) (hn : Free m src q n) :
    ∃ m', m.listAddTail (.node n) runqueue = .ok m' ∧ Queues m' src (q ++ [n]) ∧
      m'.data = m.data ∧ m'.fresh = m.fresh := by
  obtain ⟨m', hadd, hring, hoff, hdata, hfresh⟩ :=
    listAddTail_ring h.queue hn.valid (h.heads ▸ hn.entry) hn.notQueue
  refine ⟨m', hadd, h.insertQueue hn hoff hring fun y hy => ?_, hdata, hfresh⟩
  simpa [or_comm] using hy

/-- `list_add` behind the member `x` of the run queue. -/
theorem enqueueBehind {A B : List Nat} (h : Queues m src (A ++ x :: B))
    (hn : Free m src (A ++ x :: B) n) :
    ∃ m', m.listAdd (.node n) (.node x) = .ok m' ∧ Queues m' src (A ++ x :: n :: B) ∧
      m'.data = m.data ∧ m'.fresh = m.fresh := by
  obtain ⟨m', hadd, hring, hoff, hdata, hfresh⟩ :=
    listAdd_ring h.queue (show 1 :: (A ++ x :: B) = (1 :: A) ++ x :: B from rfl)
      (show 1 :: (A ++ x :: n :: B) = (1 :: A) ++ x :: n :: B from rfl) hn.valid
      (h.heads ▸ hn.entry) hn.notQueue
  refine ⟨m', hadd, h.insertQueue hn hoff hring fun y hy => ?_, hdata, hfresh⟩
  simp only [List.mem_append, List.mem_cons] at hy ⊢
  tauto

/-- `list_add_tail` in front of the member `x` of the source list. -/
theorem wait {A B : List Nat} (h : Queues m (A ++ x :: B) q) (hn : Free m (A ++ x :: B) q n) :
    ∃ m', m.listAddTail (.node n) (.node x) = .ok m' ∧ Queues m' (A ++ n :: x :: B) q ∧
      m'.data = m.data ∧ m'.fresh = m.fresh := by
  obtain ⟨m', hadd, hring, hoff, hdata, hfresh⟩ :=
    listAddTail_ring_before h.source hn.valid (h.heads ▸ hn.entry) hn.notSource
  refine ⟨m', hadd, ⟨hoff.heads.trans h.heads, hring, ?_, fun y hy hy' => ?_⟩, hdata, hfresh⟩
  · refine h.queue.congr hoff fun y hy hy' => ?_
    obtain rfl | hy' := List.mem_cons.1 hy'
    · exact hn.notQueue hy
    · exact h.disjoint hy' hy
  · have hy : y = n ∨ y ∈ 0 :: (A ++ x :: B) := by
      simp only [List.mem_append, List.mem_cons] at hy ⊢
      tauto
    obtain rfl | hy := hy
    · exact hn.notQueue hy'
    · exact h.disjoint hy hy'

end Queues

/-- `newTask` takes the first node that is not used. -/
theorem newTask_eq (h : m.heads ≤ m.fresh) (entry : Task) :
    newTask entry m = .ok (.node m.fresh, m.withEntry (copyTask entry (m.data m.fresh))) := by
  unfold newTask
  dsimp only
  rw [listEntry_malloc h, ok_bind, setEntry_malloc h, ok_bind]
  rfl

/-- The jobs of the nodes `l`. -/
def jobsAt (m : ListMem Task) (l : List Nat) : List Job := l.map fun x => (m.data x).job

theorem totalBurst_jobsAt_append (m : ListMem Task) (l : List Nat) (x : Nat) :
    totalBurst (jobsAt m (l ++ [x])) = totalBurst (jobsAt m l) + (m.data x).burst := by
  simp [totalBurst, jobsAt]

/-- Data that is written elsewhere does not matter. -/
theorem map_update {β : Type} {l : List Nat} {d : Nat → Task} {a : Nat} (f : Task → β) (t : Task)
    (ha : a ∉ l) : l.map (fun x => f (Function.update d a t x)) = l.map fun x => f (d x) :=
  List.map_congr_left fun x hx => by rw [Function.update_of_ne (ne_of_mem_of_not_mem hx ha)]

/-- One member of a list gets new data. -/
theorem map_update_mid {β : Type} {A B : List Nat} {d : Nat → Task} {x : Nat} (f : Task → β)
    (t : Task) (hnd : (A ++ x :: B).Nodup) :
    (A ++ x :: B).map (fun y => f (Function.update d x t y)) =
      A.map (fun y => f (d y)) ++ f t :: B.map fun y => f (d y) := by
  rw [List.nodup_append] at hnd
  obtain ⟨-, hB, hdis⟩ := hnd
  rw [List.map_append, List.map_cons, Function.update_self,
    map_update f t fun hx => hdis x hx x List.mem_cons_self rfl,
    map_update f t (List.nodup_cons.1 hB).1]

/-- The two lists with what they hold: the source list `tasks`, the run queue copies of `jobs`. -/
structure Board (m : ListMem Task) (src q : List Nat) (tasks : List Task) (jobs : List Job) : Prop
    extends Queues m src q where
  tasks : src.map m.data = tasks
  jobs : jobsAt m q = jobs

namespace Board

variable {jobs : List Job} {A B : List Nat}

theorem length (h : Board m src q tasks jobs) : q.length = jobs.length := by
  rw [← h.jobs, jobsAt, List.length_map]

theorem source_length (h : Board m src q tasks jobs) : src.length = tasks.length := by
  rw [← h.tasks, List.length_map]

theorem notMem_queue (h : Board m src q tasks jobs) (hx : x ∈ src) : x ∉ q :=
  fun hq => h.disjoint (List.mem_cons_of_mem _ hx) (List.mem_cons_of_mem _ hq)

theorem notMem_source (h : Board m src q tasks jobs) (hx : x ∈ q) : x ∉ src :=
  fun hs => h.disjoint (List.mem_cons_of_mem _ hs) (List.mem_cons_of_mem _ hx)

theorem listEntry_source (h : Board m src q tasks jobs) (hx : x ∈ src) :
    m.listEntry (.node x) = .ok (m.data x) :=
  listEntry_node (h.source.valid x (List.mem_cons_of_mem _ hx)) (h.source.entries x hx)

theorem setEntry_queue (h : Board m src q tasks jobs) (hx : x ∈ q) (t : Task) :
    m.setEntry (.node x) t = .ok (m.withData x t) :=
  setEntry_node (h.queue.valid x (List.mem_cons_of_mem _ hx)) (h.queue.entries x hx) t

theorem setEntry_source (h : Board m src q tasks jobs) (hx : x ∈ src) (t : Task) :
    m.setEntry (.node x) t = .ok (m.withData x t) :=
  setEntry_node (h.source.valid x (List.mem_cons_of_mem _ hx)) (h.source.entries x hx) t

theorem withEntry (h : Board m src q tasks jobs) (t : Task) :
    Board (m.withEntry t) src q tasks jobs where
  toQueues := h.toQueues.withEntry t
  tasks := (map_update id t fun hx => h.source.fresh_notMem (List.mem_cons_of_mem _ hx)).trans h.tasks
  jobs := (map_update Task.job t fun hx => h.queue.fresh_notMem (List.mem_cons_of_mem _ hx)).trans
    h.jobs

/-- New data for a member of the source list. -/
theorem mark {ta tb : List Task} (h : Board m (A ++ x :: B) q tasks jobs)
    (hta : A.map m.data = ta) (htb : B.map m.data = tb) (t : Task) :
    Board (m.withData x t) (A ++ x :: B) q (ta ++ t :: tb) jobs where
  toQueues := h.toQueues.withData x t
  tasks := by
    subst hta htb
    exact map_update_mid id t (List.nodup_cons.1 h.source.nodup).2
  jobs := (map_update Task.job t (h.notMem_queue (by simp))).trans h.jobs

/-- New data for a member of the run queue. -/
theorem rewrite (h : Board m src (A ++ x :: B) tasks jobs) (t : Task) :
    Board (m.withData x t) src (A ++ x :: B) tasks (jobsAt m A ++ t.job :: jobsAt m B) where
  toQueues := h.toQueues.withData x t
  tasks := (map_update id t (h.notMem_source (by simp))).trans h.tasks
  jobs := map_update_mid Task.job t (List.nodup_cons.1 h.queue.nodup).2

/-- A free node at the end of the run queue. -/
theorem enqueue (h : Board m src q tasks jobs) (hn : Queues.Free m src q n) :
    ∃ m', m.listAddTail (.node n) runqueue = .ok m' ∧
      Board m' src (q ++ [n]) tasks (jobs ++ [(m.data n).job]) ∧ m'.data = m.data ∧
      m'.fresh = m.fresh := by
  obtain ⟨m', hadd, hQ, hdata, hfresh⟩ := h.toQueues.enqueue hn
  refine ⟨m', hadd, ⟨hQ, ?_, ?_⟩, hdata, hfresh⟩
  · rw [hdata]
    exact h.tasks
  · rw [jobsAt, hdata, List.map_append, ← h.jobs]
    rfl

/-- A free node behind a member of the run queue. -/
theorem enqueueBehind (h : Board m src (A ++ x :: B) tasks jobs)
    (hn : Queues.Free m src (A ++ x :: B) n) :
    ∃ m', m.listAdd (.node n) (.node x) = .ok m' ∧
      Board m' src (A ++ x :: n :: B) tasks
        (jobsAt m A ++ (m.data x).job :: (m.data n).job :: jobsAt m B) ∧ m'.data = m.data ∧
      m'.fresh = m.fresh := by
  obtain ⟨m', hadd, hQ, hdata, hfresh⟩ := h.toQueues.enqueueBehind hn
  refine ⟨m', hadd, ⟨hQ, ?_, ?_⟩, hdata, hfresh⟩
  · rw [hdata]
    exact h.tasks
  · rw [jobsAt, hdata, List.map_append]
    rfl

/-- A free node in front of a member of the source list. -/
theorem wait (h : Board m (A ++ x :: B) q tasks jobs) (hn : Queues.Free m (A ++ x :: B) q n) :
    ∃ m', m.listAddTail (.node n) (.node x) = .ok m' ∧
      Board m' (A ++ n :: x :: B) q (A.map m.data ++ m.data n :: m.data x :: B.map m.data) jobs ∧
      m'.data = m.data := by
  obtain ⟨m', hadd, hQ, hdata, -⟩ := h.toQueues.wait hn
  refine ⟨m', hadd, ⟨hQ, ?_, ?_⟩, hdata⟩
  · rw [hdata, List.map_append]
    rfl
  · rw [jobsAt, hdata]
    exact h.jobs

end Board

/-! ## The workload -/

/-- The workload is loaded and the run queue is empty. -/
structure Loaded (s : Sim) (tasks : List Task) (src : List Nat) : Prop where
  lists : Queues s.mem src []
  data : src.map s.mem.data = tasks
  processes : s.processes = tasks.length
  span : s.span = totalBurst (tasks.map Task.job)

theorem Loaded.length (h : Loaded s tasks src) : src.length = tasks.length := by
  rw [← h.data, List.length_map]

/-- A state with a workload, in the nodes from 2 on. -/
def withProcesses (tasks : List Task) : Sim where
  mem :=
    { next := fun x => if x = 1 then .node 1
        else if x = 0 then (if tasks = [] then .node 0 else .node 2)
        else if x ≤ tasks.length then .node (x + 1) else .node 0
      prev := fun x => if x = 1 then .node 1
        else if x = 0 then (if tasks = [] then .node 0 else .node (tasks.length + 1))
        else if x = 2 then .node 0 else .node (x - 1)
      data := fun x => tasks.getD (x - 2) ⟨0, 0, 0, 0, 0, 0⟩
      alive := fun x => x < tasks.length + 2
      heads := 2
      fresh := tasks.length + 2 }
  processes := tasks.length
  span := totalBurst (tasks.map Task.job)
  output := fun _ => 0

theorem withProcesses_loaded (tasks : List Task) :
    Loaded (withProcesses tasks) tasks (List.range' 2 tasks.length) where
  lists := by
    refine ⟨rfl, isRing_range' (fun x hx => ?_) le_rfl fun i hi => ?_, ⟨?_, by simp, ?_, by simp⟩, ?_⟩
    · simpa [ListMem.Valid, withProcesses] using hx
    · by_cases h0 : i = 0 <;> by_cases hn : i = tasks.length
      · simp [Link, withProcesses, h0, List.eq_nil_of_length_eq_zero (hn.symm.trans h0)]
      · subst h0
        have hne : tasks ≠ [] := List.ne_nil_of_length_pos (by omega)
        simp [Link, withProcesses, hne, hn]
      · have hne : tasks ≠ [] := List.ne_nil_of_length_pos (by omega)
        simp [Link, withProcesses, hne, hn]
      · have hlt : i + 1 ≤ tasks.length := by omega
        simp [Link, withProcesses, h0, hn, hlt]
    · simp [Link, withProcesses]
    · simp [ListMem.Valid, withProcesses]
    · intro x hx hx'
      simp only [List.mem_cons, List.mem_range'_1, List.not_mem_nil, or_false] at hx hx'
      omega
  data := by
    refine List.ext_getElem (by simp) fun i hi hi' => ?_
    simp [withProcesses, hi']
  processes := rfl
  span := rfl

/-! ## Reading the workload -/

/-- Memory that is not used yet is clear. -/
def Clear (m : ListMem Task) : Prop :=
  ∀ a, m.fresh ≤ a → (m.data a).onRq = 0 ∧ (m.data a).tmpSrc = 0

/-- The process a line names. -/
def lineJob (buffer : List Char) : Job :=
  match tokens ',' buffer with
  | tid :: arr :: burst :: prio :: _ => ⟨atoi tid, atoi arr, atoi burst, atoi prio⟩
  | _ => ⟨0, 0, 0, 0⟩

/-- A line adds one process. -/
theorem readProcess_loaded {jobs : List Job} (h : Loaded s (jobs.map Job.task) src)
    (hclear : Clear s.mem) {buffer : List Char} (hline : 4 ≤ (tokens ',' buffer).length) :
    ∃ s', readProcess s buffer = .ok s' ∧
      Loaded s' ((jobs ++ [lineJob buffer]).map Job.task) (src ++ [s.mem.fresh]) ∧ Clear s'.mem := by
  obtain ⟨tid, arr, burst, prio, more, htok⟩ :
      ∃ tid arr burst prio more, tokens ',' buffer = tid :: arr :: burst :: prio :: more := by
    match htok : tokens ',' buffer, hline with
    | tid :: arr :: burst :: prio :: more, _ => exact ⟨tid, arr, burst, prio, more, rfl⟩
  have hle := h.lists.two_le_fresh
  have hjob : lineJob buffer = ⟨atoi tid, atoi arr, atoi burst, atoi prio⟩ := by
    rw [lineJob, htok]
  have hnew : { s.mem.data s.mem.fresh with
      pid := atoi tid, arr := atoi arr, burst := atoi burst, prio := atoi prio } =
        (lineJob buffer).task := by
    obtain ⟨hrq, htmp⟩ := hclear _ le_rfl
    dsimp only
    rw [hjob, Job.task, hrq, htmp]
  have hfree := h.lists.free_fresh (lineJob buffer).task
  obtain ⟨m', hadd, hring, hoff, hdata, hfresh⟩ :=
    addEntry_ring h.lists.source hle (lineJob buffer).task
  refine ⟨{ s with mem := m', span := s.span + atoi burst, processes := s.processes + 1 }, ?_,
    ⟨⟨hoff.heads.trans h.lists.heads, hring, h.lists.queue.congr hoff fun y hy hy' => ?_,
      fun y hy hy' => ?_⟩, ?_, ?_, ?_⟩, fun a ha => ?_⟩
  · unfold readProcess
    rw [htok]
    dsimp only
    rw [listEntry_malloc hle, ok_bind, hnew, setEntry_malloc hle, ok_bind, srcrq, hadd]
    rfl
  · obtain rfl | hy' := List.mem_cons.1 hy'
    · exact hfree.notQueue hy
    · exact h.lists.disjoint hy' hy
  · have hy : y = s.mem.fresh ∨ y ∈ 0 :: src := by
      simp only [List.mem_append, List.mem_cons] at hy ⊢
      tauto
    obtain rfl | hy := hy
    · exact hfree.notQueue hy'
    · exact h.lists.disjoint hy hy'
  · have hold : src.map m'.data = src.map s.mem.data := by
      refine List.map_congr_left fun y hy => ?_
      rw [hdata, Function.update_of_ne (h.lists.source.valid y (List.mem_cons_of_mem _ hy)).lt.ne]
    dsimp only
    rw [List.map_append, List.map_append, hold, h.data, List.map_singleton, List.map_singleton,
      hdata, Function.update_self]
  · simp [h.processes]
  · dsimp only
    rw [h.span, map_task_job, map_task_job, totalBurst_concat, hjob]
  · dsimp only at ha ⊢
    rw [hfresh] at ha
    rw [hdata, Function.update_of_ne (by omega)]
    exact hclear a (by omega)

/-- `read_config` loads the processes its lines name. -/
theorem readConfig_loaded {jobs : List Job} {lines : List (List Char)}
    (h : Loaded s (jobs.map Job.task) src) (hclear : Clear s.mem)
    (hlines : ∀ l ∈ lines, 1 < l.length → 4 ≤ (tokens ',' l).length) :
    ∃ s' src', readConfig s lines = .ok s' ∧ Clear s'.mem ∧
      Loaded s' ((jobs ++ (lines.filter fun l => 1 < l.length).map lineJob).map Job.task) src' := by
  induction lines generalizing s src jobs with
  | nil => exact ⟨s, src, rfl, hclear, by simpa using h⟩
  | cons buffer lines ih =>
    have hrest : ∀ l ∈ lines, 1 < l.length → 4 ≤ (tokens ',' l).length :=
      fun l hl => hlines l (List.mem_cons_of_mem _ hl)
    by_cases hlen : buffer.length ≤ 1
    · obtain ⟨s', src', hrun, hC, hL⟩ := ih h hclear hrest
      refine ⟨s', src', ?_, hC, ?_⟩
      · rw [readConfig, if_pos hlen, hrun]
      · rwa [List.filter_cons_of_neg (by simpa using hlen)]
    · obtain ⟨s₁, hone, hL₁, hC₁⟩ :=
        readProcess_loaded h hclear (hlines buffer List.mem_cons_self (by omega))
      obtain ⟨s', src', hrun, hC, hL⟩ := ih hL₁ hC₁ hrest
      refine ⟨s', src', ?_, hC, ?_⟩
      · rw [readConfig, if_neg hlen, hone, ok_bind, hrun]
      · rw [List.filter_cons_of_pos (by simpa using hlen), List.map_cons]
        rwa [List.append_assoc, List.singleton_append] at hL

end OsBasics.Cpu
