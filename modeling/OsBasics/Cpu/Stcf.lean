/-
  Shortest time to completion first, one visit at a time.

  `Stage` is what `stcf_tick` works with besides the source list, as lists and
  numbers, and `StcfStep` is what a visit to a source entry may do with it: nothing,
  count, append a copy to the run queue, or put it behind a longer entry, whose
  remainder goes back to the source list unless the policy is done. `stcf_visit`:
  in memory a visit is such a step.
-/
import OsBasics.Cpu.Queue

namespace OsBasics.Cpu

open OsBasics.Lists

variable {m m' : ListMem Task} {src q A B : List Nat} {tasks ta tb es : List Task} {t : Task}
  {st st' : Stcf} {i : Int} {x : Nat} {left : Bool}

/-- The run queue and the counters. -/
structure Stage where
  queue : List Job
  processes : Int
  k : Int
  processAdded : Int
  m : Int
  j : Int

variable {b b' : Stage}

/-- The test of the loop over the run queue. -/
def preempts (t : Task) (p : Job) : Prop := t.burst < p.burst ∧ t.tmpSrc = 0

/-- `m` when the copy of `t` is made, with the entries `ahead` passed. -/
def Stage.mark (b : Stage) (ahead : List Job) (t : Task) : Int :=
  max (b.m + totalBurst ahead) t.arr

/-- `t` is counted among the waiting ones. -/
def Stage.count (b : Stage) (t : Task) : Stage := { b with j := b.j + t.burst }

/-- `t` goes to the run queue, which is `queue` then. -/
def Stage.take (b : Stage) (t : Task) (queue : List Job) (m : Int) : Stage :=
  { b with
    queue := queue
    k := b.k + t.burst
    processAdded := b.processAdded + 1
    m := m
    j := b.j + t.burst }

/-- The source entry that is taken. -/
def Task.taken (t : Task) : Task := { t with onRq := 1 }

/-- What is broken off from `p`. -/
def Job.remainder (p : Job) (m : Int) : Task := ⟨0, 1, p.prio, p.pid, p.arr, p.burst - m⟩

/-- A visit to `t` in round `i`: what stands in the place of `t` then, the stage, and whether the
    function returns. -/
inductive StcfStep (i : Int) (t : Task) (b : Stage) : List Task → Stage → Bool → Prop
  | queued (h : t.onRq ≠ 0) : StcfStep i t b [t] b false
  | waits (h : t.onRq = 0) (hno : ¬ letsIn i (b.j + t.burst) b.k t) :
    StcfStep i t b [t] (b.count t) false
  | appends (h : t.onRq = 0) (hin : letsIn i (b.j + t.burst) b.k t)
    (hnone : ∀ p ∈ b.queue, ¬ preempts t p) :
    StcfStep i t b [t.taken] (b.take t (b.queue ++ [t.job]) (b.mark b.queue t))
      (decide (b.processAdded + 1 = b.processes))
  | returns (h : t.onRq = 0) (hin : letsIn i (b.j + t.burst) b.k t) {ahead behind : List Job}
    {p : Job} (hq : b.queue = ahead ++ p :: behind) (hahead : ∀ r ∈ ahead, ¬ preempts t r)
    (hp : preempts t p) (hlast : b.processAdded + 1 = b.processes) :
    StcfStep i t b [t.taken] (b.take t (ahead ++ p :: t.job :: behind) (b.mark ahead t)) true
  | splits (h : t.onRq = 0) (hin : letsIn i (b.j + t.burst) b.k t) {ahead behind : List Job}
    {p : Job} (hq : b.queue = ahead ++ p :: behind) (hahead : ∀ r ∈ ahead, ¬ preempts t r)
    (hp : preempts t p) (hmore : b.processAdded + 1 ≠ b.processes) :
    StcfStep i t b [p.remainder (b.mark ahead t), t.taken]
      { b.take t (ahead ++ { p with burst := t.arr + 1 } :: t.job :: behind) 0 with
        processes := b.processes + 1 } false

/-- The memory and the locals of `stcf_tick` at the stage `b`. -/
structure At (st : Stcf) (src q : List Nat) (tasks : List Task) (b : Stage) : Prop
    extends Board st.mem src q tasks b.queue where
  processes : st.processes = b.processes
  k : st.k = b.k
  processAdded : st.processAdded = b.processAdded
  m : st.m = b.m
  j : st.j = b.j

/-! ## The search -/

/-- The body of the loop over the run queue at an entry that is not preempted. -/
theorem preemptVisit_pass {s : Stcf} (h : s.mem.Valid x) (hh : s.mem.heads ≤ x)
    (hno : ¬ preempts t (s.mem.data x).job) :
    preemptVisit t (.node x) s =
      .ok ({ s with m := s.m + (s.mem.data x).burst, entry2 := .node x }, false) := by
  unfold preemptVisit
  rw [listEntry_node h hh, ok_bind]
  exact if_neg hno

theorem preemptVisit_found {s : Stcf} (h : s.mem.Valid x) (hh : s.mem.heads ≤ x)
    (hp : preempts t (s.mem.data x).job) :
    preemptVisit t (.node x) s = .ok ({ s with entry2 := .node x, flag := 1 }, true) := by
  unfold preemptVisit
  rw [listEntry_node h hh, ok_bind]
  exact if_pos hp

/-- The loop over the run queue finds the first entry to preempt, if any, and adds up the bursts of
    those it passes. -/
theorem preempt_search (h : Queues st.mem src q) (t : Task) :
    (∃ e2, listForEachUntil Stcf.mem runqueue (preemptVisit t) st =
        .ok ({ st with m := st.m + totalBurst (jobsAt st.mem q), entry2 := e2 }, runqueue) ∧
      ∀ p ∈ jobsAt st.mem q, ¬ preempts t p) ∨
    ∃ C x D, q = C ++ x :: D ∧ listForEachUntil Stcf.mem runqueue (preemptVisit t) st =
        .ok ({ st with m := st.m + totalBurst (jobsAt st.mem C), entry2 := .node x, flag := 1 },
          .node x) ∧
      (∀ p ∈ jobsAt st.mem C, ¬ preempts t p) ∧ preempts t (st.mem.data x).job := by
  have hring : ∀ done x rest s, q = done ++ x :: rest →
      ((∃ e2, s = { st with m := st.m + totalBurst (jobsAt st.mem (done ++ [x])), entry2 := e2 }) ∧
        ∀ p ∈ jobsAt st.mem (done ++ [x]), ¬ preempts t p) →
      ∃ pre, IsRing s.mem 1 (pre ++ x :: rest) := by
    intro done x rest s hl hI
    obtain ⟨⟨e2, rfl⟩, -⟩ := hI
    exact ⟨done, hl ▸ h.queue⟩
  have hstep : ∀ done x rest s, q = done ++ x :: rest →
      ((∃ e2, s = { st with m := st.m + totalBurst (jobsAt st.mem done), entry2 := e2 }) ∧
        ∀ p ∈ jobsAt st.mem done, ¬ preempts t p) →
      ∃ s' left, preemptVisit t (.node x) s = .ok (s', left) ∧
        if left then s' = { st with
            m := st.m + totalBurst (jobsAt st.mem done), entry2 := .node x, flag := 1 } ∧
          (∀ p ∈ jobsAt st.mem done, ¬ preempts t p) ∧ preempts t (st.mem.data x).job
        else (∃ e2, s' = { st with m := st.m + totalBurst (jobsAt st.mem (done ++ [x])), entry2 := e2 }) ∧
          ∀ p ∈ jobsAt st.mem (done ++ [x]), ¬ preempts t p := by
    intro done x rest s hl hI
    obtain ⟨⟨e2, rfl⟩, hno⟩ := hI
    have hx : x ∈ q := by simp [hl]
    have hxv := h.queue.valid x (List.mem_cons_of_mem _ hx)
    have hxe := h.queue.entries x hx
    by_cases hp : preempts t (st.mem.data x).job
    · exact ⟨_, true, preemptVisit_found hxv hxe hp, rfl, hno, hp⟩
    · refine ⟨_, false, preemptVisit_pass hxv hxe hp, ⟨.node x, ?_⟩, fun p hpm => ?_⟩
      · rw [totalBurst_jobsAt_append, Int.add_assoc]
      · rw [jobsAt, List.map_append, List.mem_append, List.map_singleton, List.mem_singleton] at hpm
        obtain hpm | rfl := hpm
        · exact hno p hpm
        · exact hp
  obtain ⟨s', hloop, ⟨e2, rfl⟩, hno⟩ | ⟨C, x, D, s', hl, hloop, rfl, hno, hp⟩ :=
    listForEachUntil_rule _ (fun done x s' => s' = { st with
            m := st.m + totalBurst (jobsAt st.mem done), entry2 := .node x, flag := 1 } ∧
          (∀ p ∈ jobsAt st.mem done, ¬ preempts t p) ∧ preempts t (st.mem.data x).job) hring hstep
      h.queue ⟨⟨st.entry2, by simp [jobsAt, totalBurst]⟩, by simp [jobsAt]⟩
  · exact .inl ⟨e2, hloop, hno⟩
  · exact .inr ⟨C, x, D, hl, hloop, hno, hp⟩

/-! ## Taking an entry -/

/-- `m` is at least the arrival. -/
theorem raise_m (s : Stcf) (a : Int) :
    (if s.m < a then { s with m := a } else s) = { s with m := max s.m a } := by
  split
  · rw [max_eq_right (by omega)]
  · rw [max_eq_left (by omega)]

/-- Nodes of the two lists keep their data when the first node that is not used gets some. -/
theorem Board.map_fresh {jobs : List Job} {β : Type} {l : List Nat} (h : Board m src q tasks jobs)
    (f : Task → β) (t : Task) (hl : l ⊆ src ∨ l ⊆ q) :
    l.map (fun z => f (Function.update m.data m.fresh t z)) = l.map fun z => f (m.data z) := by
  refine map_update f t fun hm => ?_
  obtain hl | hl := hl
  · exact h.source.fresh_notMem (List.mem_cons_of_mem _ (hl hm))
  · exact h.queue.fresh_notMem (List.mem_cons_of_mem _ (hl hm))

/-- A copy at the end of the run queue, and the mark at the entry copied. -/
theorem copy_append {jobs : List Job} (h : Board m (A ++ x :: B) q tasks jobs) :
    ∃ m₁, (m.withEntry (copyTask (m.data x) (m.data m.fresh))).listAddTail (.node m.fresh) runqueue =
        .ok m₁ ∧
      m₁.setEntry (.node x) { m.data x with onRq := 1 } = .ok (m₁.withData x (m.data x).taken) ∧
      Board (m₁.withData x (m.data x).taken) (A ++ x :: B) (q ++ [m.fresh])
        (A.map m.data ++ (m.data x).taken :: B.map m.data) (jobs ++ [(m.data x).job]) := by
  obtain ⟨m₁, hadd, hB₁, hdata, -⟩ :=
    (h.withEntry (copyTask (m.data x) (m.data m.fresh))).enqueue (h.free_fresh _)
  have hread : ∀ l : List Nat, l ⊆ A ++ x :: B → l.map m₁.data = l.map m.data := fun l hl => by
    rw [hdata]
    exact h.map_fresh id _ (.inl hl)
  refine ⟨m₁, hadd, hB₁.setEntry_source (by simp) _, ?_⟩
  simpa using hB₁.mark (hread A (by simp)) (hread B (by simp)) (m.data x).taken

/-- A copy behind the member `y` of the run queue, and the mark at the entry copied. -/
theorem copy_behind {jobs : List Job} {C D : List Nat} {y : Nat}
    (h : Board m (A ++ x :: B) (C ++ y :: D) tasks jobs) :
    ∃ m₁, (m.withEntry (copyTask (m.data x) (m.data m.fresh))).listAdd (.node m.fresh) (.node y) =
        .ok m₁ ∧
      m₁.setEntry (.node x) { m.data x with onRq := 1 } = .ok (m₁.withData x (m.data x).taken) ∧
      Board (m₁.withData x (m.data x).taken) (A ++ x :: B) (C ++ y :: m.fresh :: D)
        (A.map m.data ++ (m.data x).taken :: B.map m.data)
        (jobsAt m C ++ (m.data y).job :: (m.data x).job :: jobsAt m D) := by
  obtain ⟨m₁, hadd, hB₁, hdata, -⟩ :=
    (h.withEntry (copyTask (m.data x) (m.data m.fresh))).enqueueBehind (h.free_fresh _)
  have hread : ∀ l : List Nat, l ⊆ A ++ x :: B → l.map m₁.data = l.map m.data := fun l hl => by
    rw [hdata]
    exact h.map_fresh id _ (.inl hl)
  have hjobs : ∀ l : List Nat, l ⊆ C ++ y :: D →
      jobsAt (m.withEntry (copyTask (m.data x) (m.data m.fresh))) l = jobsAt m l :=
    fun l hl => h.map_fresh Task.job _ (.inr hl)
  have hy := hjobs [y] (by simp)
  simp only [jobsAt, List.map_cons, List.map_nil, List.cons.injEq, and_true] at hy
  have hB₂ := hB₁.mark (hread A (by simp)) (hread B (by simp)) (m.data x).taken
  rw [hjobs C (by simp), hjobs D (by simp), hy] at hB₂
  exact ⟨m₁, hadd, hB₁.setEntry_source (by simp) _, by simpa using hB₂⟩

/-- With `flag` clear the copy goes to the end of the run queue. -/
theorem stcfTake_append {s : Stcf} {jobs : List Job} (h : Board s.mem (A ++ x :: B) q tasks jobs)
    (hflag : s.flag = 0) (ptr2 : Ptr) :
    ∃ m', stcfTake runqueue (.node x) ptr2 (s.mem.data x) s =
        .ok ({ s with
          mem := m'
          m := max s.m (s.mem.data x).arr
          k := s.k + (s.mem.data x).burst
          processAdded := s.processAdded + 1 }, decide (s.processAdded + 1 = s.processes)) ∧
      Board m' (A ++ x :: B) (q ++ [s.mem.fresh])
        (A.map s.mem.data ++ (s.mem.data x).taken :: B.map s.mem.data)
        (jobs ++ [(s.mem.data x).job]) := by
  obtain ⟨m₁, hadd, hset, hB⟩ := copy_append h
  refine ⟨_, ?_, hB⟩
  unfold stcfTake
  rw [raise_m]
  dsimp only
  rw [newTask_eq h.two_le_fresh, ok_bind]
  dsimp only
  rw [if_neg (by simpa using hflag), hadd, ok_bind, hset, ok_bind]
  by_cases hlast : s.processAdded + 1 = s.processes
  · rw [if_pos hlast, decide_eq_true hlast]
    rfl
  · rw [if_neg hlast, if_neg (by simpa using hflag), decide_eq_false hlast]
    rfl

/-- The entry `y` of the run queue loses what is behind `arr + 1`, and the remainder waits. -/
theorem breakOff_spec {s : Stcf} {C D : List Nat} {y : Nat} {jobs : List Job}
    (h : Board s.mem (A ++ x :: B) (C ++ y :: D) tasks jobs) (hy : s.entry2 = .node y) (t : Task) :
    ∃ m', breakOff (.node x) t s =
        .ok { s with mem := m', flag := 0, processes := s.processes + 1, m := 0 } ∧
      Board m' (A ++ s.mem.fresh :: x :: B) (C ++ y :: D)
        (A.map s.mem.data ++ (s.mem.data y).job.remainder s.m :: s.mem.data x :: B.map s.mem.data)
        (jobsAt s.mem C ++ { (s.mem.data y).job with burst := t.arr + 1 } :: jobsAt s.mem D) ∧
      m'.data = Function.update (Function.update s.mem.data s.mem.fresh
        ((s.mem.data y).job.remainder s.m)) y { s.mem.data y with burst := t.arr + 1 } := by
  have hyq : y ∈ C ++ y :: D := by simp
  have hys : y ∉ A ++ x :: B := h.notMem_source hyq
  have hfs : s.mem.fresh ∉ A ++ x :: B := fun hm =>
    h.source.fresh_notMem (List.mem_cons_of_mem _ hm)
  have hfq : s.mem.fresh ∉ C ++ y :: D := fun hm =>
    h.queue.fresh_notMem (List.mem_cons_of_mem _ hm)
  have hyf : y ≠ s.mem.fresh := ne_of_mem_of_not_mem hyq hfq
  have hB₁ := h.withEntry ((s.mem.data y).job.remainder s.m)
  have hB₂ := hB₁.rewrite { s.mem.data y with burst := t.arr + 1 }
  have hfree := (h.free_fresh ((s.mem.data y).job.remainder s.m)).withData y
    { s.mem.data y with burst := t.arr + 1 }
  obtain ⟨m', hadd, hB', hdata⟩ := hB₂.wait hfree
  rw [ListMem.withData_data, ListMem.withEntry_data] at hdata hB'
  have hread : ∀ z ∈ A ++ x :: B, Function.update (Function.update s.mem.data s.mem.fresh
      ((s.mem.data y).job.remainder s.m)) y { s.mem.data y with burst := t.arr + 1 } z =
        s.mem.data z := by
    intro z hz
    rw [Function.update_of_ne (ne_of_mem_of_not_mem hz hys),
      Function.update_of_ne (ne_of_mem_of_not_mem hz hfs)]
  have hjobs : ∀ l : List Nat, l ⊆ C ++ y :: D →
      jobsAt (s.mem.withEntry ((s.mem.data y).job.remainder s.m)) l = jobsAt s.mem l :=
    fun l hl => map_update Task.job _ fun hm => hfq (hl hm)
  refine ⟨m', ?_, ?_, hdata⟩
  · have hmalloc : s.mem.malloc.2.listEntry (.node y) = .ok (s.mem.data y) :=
      listEntry_node (m := s.mem.malloc.2) ⟨(h.queue.valid y (List.mem_cons_of_mem _ hyq)).lt.trans
        (Nat.lt_succ_self _), (Function.update_of_ne hyf _ _).trans
        (h.queue.valid y (List.mem_cons_of_mem _ hyq)).alive⟩ (h.queue.entries y hyq)
    have hset₁ : s.mem.malloc.2.setEntry s.mem.malloc.1
        { pid := (s.mem.data y).pid, arr := (s.mem.data y).arr, burst := (s.mem.data y).burst - s.m
          prio := (s.mem.data y).prio, onRq := 0, tmpSrc := 1 } =
          .ok (s.mem.withEntry ((s.mem.data y).job.remainder s.m)) :=
      setEntry_malloc h.two_le_fresh _
    have hset₂ : (s.mem.withEntry ((s.mem.data y).job.remainder s.m)).setEntry (.node y)
        { s.mem.data y with burst := t.arr + 1 } = .ok _ := hB₁.setEntry_queue hyq _
    unfold breakOff
    dsimp only
    rw [hy, hmalloc, ok_bind, hset₁, ok_bind, hset₂, ok_bind]
    exact congrArg (· >>= _) hadd
  · rw [Function.update_of_ne hyf.symm, Function.update_self, hread x (by simp),
      List.map_congr_left fun z hz => hread z (by simp [hz]),
      List.map_congr_left fun z hz => hread z (by simp [hz]), hjobs C (by simp), hjobs D (by simp)]
      at hB'
    exact hB'

/-- With `flag` set the copy goes behind the entry found. The last copy breaks nothing off. -/
theorem stcfTake_last {s : Stcf} {C D : List Nat} {y : Nat} {jobs : List Job}
    (h : Board s.mem (A ++ x :: B) (C ++ y :: D) tasks jobs) (hflag : s.flag = 1)
    (hlast : s.processAdded + 1 = s.processes) :
    ∃ m', stcfTake runqueue (.node x) (.node y) (s.mem.data x) s =
        .ok ({ s with
          mem := m'
          m := max s.m (s.mem.data x).arr
          k := s.k + (s.mem.data x).burst
          processAdded := s.processAdded + 1 }, true) ∧
      Board m' (A ++ x :: B) (C ++ y :: s.mem.fresh :: D)
        (A.map s.mem.data ++ (s.mem.data x).taken :: B.map s.mem.data)
        (jobsAt s.mem C ++ (s.mem.data y).job :: (s.mem.data x).job :: jobsAt s.mem D) := by
  obtain ⟨m₁, hadd, hset, hB⟩ := copy_behind h
  refine ⟨_, ?_, hB⟩
  unfold stcfTake
  rw [raise_m]
  dsimp only
  rw [newTask_eq h.two_le_fresh, ok_bind]
  dsimp only
  rw [if_pos (by omega), hadd, ok_bind, hset, ok_bind, if_pos hlast]
  rfl

/-- Any other copy breaks off the remainder of the entry found. -/
theorem stcfTake_split {s : Stcf} {C D : List Nat} {y : Nat} {jobs : List Job}
    (h : Board s.mem (A ++ x :: B) (C ++ y :: D) tasks jobs) (hflag : s.flag = 1)
    (hy : s.entry2 = .node y) (hmore : s.processAdded + 1 ≠ s.processes) :
    ∃ m' n, stcfTake runqueue (.node x) (.node y) (s.mem.data x) s =
        .ok ({ s with
          mem := m'
          m := 0
          flag := 0
          k := s.k + (s.mem.data x).burst
          processes := s.processes + 1
          processAdded := s.processAdded + 1 }, false) ∧
      Board m' (A ++ n :: x :: B) (C ++ y :: s.mem.fresh :: D)
        (A.map s.mem.data ++ (s.mem.data y).job.remainder (max s.m (s.mem.data x).arr) ::
          (s.mem.data x).taken :: B.map s.mem.data)
        (jobsAt s.mem C ++ { (s.mem.data y).job with burst := (s.mem.data x).arr + 1 } ::
          (s.mem.data x).job :: jobsAt s.mem D) := by
  obtain ⟨m₁, hadd, hset, hB⟩ := copy_behind h
  obtain ⟨m', hbreak, hB', -⟩ := breakOff_spec (s := { s with
      mem := m₁.withData x (s.mem.data x).taken
      m := max s.m (s.mem.data x).arr
      k := s.k + (s.mem.data x).burst
      processAdded := s.processAdded + 1 }) hB hy (s.mem.data x)
  refine ⟨m', m₁.fresh, ?_, ?_⟩
  · unfold stcfTake
    rw [raise_m]
    dsimp only
    rw [newTask_eq h.two_le_fresh, ok_bind]
    dsimp only
    rw [if_pos (by omega), hadd, ok_bind, hset, ok_bind, if_neg hmore, if_pos (by omega)]
    exact congrArg (· >>= _) hbreak
  · have hsrc := hB.tasks
    rw [List.map_append, List.map_cons] at hsrc
    obtain ⟨hA, hsrc⟩ := List.append_inj hsrc (by simp)
    obtain ⟨hx, hBm⟩ := List.cons.inj hsrc
    have hq := hB.jobs
    rw [jobsAt, List.map_append, List.map_cons] at hq
    obtain ⟨hC, hq⟩ := List.append_inj hq (by simp [jobsAt])
    obtain ⟨hyj, hD⟩ := List.cons.inj hq
    dsimp only at hB'
    rw [hA, hx, hBm, hyj] at hB'
    unfold jobsAt at hB'
    rw [hC, hD] at hB'
    exact hB'

/-! ## A visit -/

/-- What a visit leaves: a step is made, and nothing comes between the entry and the rest. -/
structure Visited (i : Int) (t : Task) (b : Stage) (A B : List Nat) (ta tb : List Task) (x : Nat)
    (st' : Stcf) (left : Bool) (A' q' : List Nat) (es : List Task) (b' : Stage) : Prop where
  step : StcfStep i t b es b' left
  lists : At st' (A' ++ x :: B) q' (ta ++ es ++ tb) b'
  length : A'.length + 1 = (ta ++ es).length
  before : A' = A ∨ ∃ n, A' = A ++ [n]
  flag : left = false → st'.flag = 0

theorem At.tasks_split (h : At st (A ++ x :: B) q (ta ++ t :: tb) b) (hlen : A.length = ta.length) :
    A.map st.mem.data = ta ∧ st.mem.data x = t ∧ B.map st.mem.data = tb := by
  have hsrc := h.tasks
  rw [List.map_append, List.map_cons] at hsrc
  obtain ⟨hA, hsrc⟩ := List.append_inj hsrc (by simpa using hlen)
  obtain ⟨ht, hB⟩ := List.cons.inj hsrc
  exact ⟨hA, ht, hB⟩

/-- An entry that is let in is taken once the search is over. -/
theorem stcfVisit_take {s₂ : Stcf} {ptr2 : Ptr} (hentry : st.mem.listEntry (.node x) = .ok t)
    (h0 : t.onRq = 0) (hin : letsIn i (st.j + t.burst) st.k t)
    (hsearch : listForEachUntil Stcf.mem runqueue (preemptVisit t) { st with j := st.j + t.burst } =
      .ok (s₂, ptr2)) :
    stcfVisit runqueue i (.node x) st = stcfTake runqueue (.node x) ptr2 t s₂ := by
  unfold stcfVisit
  rw [hentry, ok_bind, if_pos h0]
  dsimp only
  rw [if_pos hin, hsearch]
  rfl

theorem stcf_visit_none (h : At st (A ++ x :: B) q (ta ++ t :: tb) b) (hlen : A.length = ta.length)
    (hflag : st.flag = 0) (h0 : t.onRq = 0) (hin : letsIn i (b.j + t.burst) b.k t) {e2 : Ptr}
    (hsearch : listForEachUntil Stcf.mem runqueue (preemptVisit t) { st with j := st.j + t.burst } =
      .ok ({ st with j := st.j + t.burst, m := st.m + totalBurst (jobsAt st.mem q), entry2 := e2 },
        runqueue)) (hnone : ∀ p ∈ jobsAt st.mem q, ¬ preempts t p) :
    ∃ st' left A' q' es b', stcfVisit runqueue i (.node x) st = .ok (st', left) ∧
      Visited i t b A B ta tb x st' left A' q' es b' := by
  obtain ⟨hA, ht, hBm⟩ := h.tasks_split hlen
  have hentry : st.mem.listEntry (.node x) = .ok t := by rw [h.listEntry_source (by simp), ht]
  have hin' : letsIn i (st.j + t.burst) st.k t := by rwa [h.j, h.k]
  obtain ⟨m', hrun, hB'⟩ := stcfTake_append (s := { st with
    j := st.j + t.burst, m := st.m + totalBurst (jobsAt st.mem q), entry2 := e2 }) h.toBoard hflag
    runqueue
  dsimp only at hrun hB'
  rw [ht] at hrun hB'
  rw [hA, hBm] at hB'
  rw [h.jobs] at hnone hrun hsearch
  refine ⟨_, _, A, q ++ [st.mem.fresh], [t.taken],
    b.take t (b.queue ++ [t.job]) (b.mark b.queue t),
    (stcfVisit_take hentry h0 hin' hsearch).trans hrun, ?_, ?_, by simp [hlen], .inl rfl,
    fun _ => hflag⟩
  · rw [h.processAdded, h.processes]
    exact .appends h0 hin hnone
  · rw [List.append_assoc, List.singleton_append]
    exact ⟨hB', h.processes, by rw [h.k]; rfl, by rw [h.processAdded]; rfl, by rw [h.m]; rfl,
      by rw [h.j]; rfl⟩

theorem stcf_visit_some (h : At st (A ++ x :: B) q (ta ++ t :: tb) b) (hlen : A.length = ta.length)
    (h0 : t.onRq = 0) (hin : letsIn i (b.j + t.burst) b.k t) {C D : List Nat} {y : Nat}
    (hq : q = C ++ y :: D)
    (hsearch : listForEachUntil Stcf.mem runqueue (preemptVisit t) { st with j := st.j + t.burst } =
      .ok ({ st with
        j := st.j + t.burst, m := st.m + totalBurst (jobsAt st.mem C), entry2 := .node y, flag := 1 },
        .node y)) (hahead : ∀ p ∈ jobsAt st.mem C, ¬ preempts t p)
    (hp : preempts t (st.mem.data y).job) :
    ∃ st' left A' q' es b', stcfVisit runqueue i (.node x) st = .ok (st', left) ∧
      Visited i t b A B ta tb x st' left A' q' es b' := by
  obtain ⟨hA, ht, hBm⟩ := h.tasks_split hlen
  subst hq
  have hentry : st.mem.listEntry (.node x) = .ok t := by rw [h.listEntry_source (by simp), ht]
  have hin' : letsIn i (st.j + t.burst) st.k t := by rwa [h.j, h.k]
  have hqueue : b.queue = jobsAt st.mem C ++ (st.mem.data y).job :: jobsAt st.mem D := by
    rw [← h.jobs, jobsAt, List.map_append]
    rfl
  by_cases hlast : b.processAdded + 1 = b.processes
  · obtain ⟨m', hrun, hB'⟩ := stcfTake_last (s := { st with
      j := st.j + t.burst, m := st.m + totalBurst (jobsAt st.mem C), entry2 := .node y, flag := 1 })
      h.toBoard rfl (by rw [← h.processAdded, ← h.processes] at hlast; exact hlast)
    dsimp only at hrun hB'
    rw [ht] at hrun hB'
    rw [hA, hBm] at hB'
    refine ⟨_, _, A, C ++ y :: st.mem.fresh :: D, [t.taken], b.take t _ (b.mark (jobsAt st.mem C) t),
      (stcfVisit_take hentry h0 hin' hsearch).trans hrun, .returns h0 hin hqueue hahead hp hlast, ?_,
      by simp [hlen], .inl rfl, fun hf => absurd hf (by simp)⟩
    rw [List.append_assoc, List.singleton_append]
    exact ⟨hB', h.processes, by rw [h.k]; rfl, by rw [h.processAdded]; rfl, by rw [h.m]; rfl,
      by rw [h.j]; rfl⟩
  · obtain ⟨m', n, hrun, hB'⟩ := stcfTake_split (s := { st with
      j := st.j + t.burst, m := st.m + totalBurst (jobsAt st.mem C), entry2 := .node y, flag := 1 })
      h.toBoard rfl rfl (by rw [← h.processAdded, ← h.processes] at hlast; exact hlast)
    dsimp only at hrun hB'
    rw [ht] at hrun hB'
    rw [hA, hBm, h.m] at hB'
    refine ⟨_, _, A ++ [n], C ++ y :: st.mem.fresh :: D, [(st.mem.data y).job.remainder (b.mark (jobsAt st.mem C) t), t.taken],
      { b.take t _ 0 with processes := b.processes + 1 },
      (stcfVisit_take hentry h0 hin' hsearch).trans hrun, .splits h0 hin hqueue hahead hp hlast, ?_,
      by simp [hlen], .inr ⟨n, rfl⟩, fun _ => rfl⟩
    rw [List.append_assoc, List.append_assoc]
    exact ⟨hB', by rw [h.processes], by rw [h.k]; rfl, by rw [h.processAdded]; rfl, rfl,
      by rw [h.j]; rfl⟩

/-- In memory a visit to a source entry is a step. -/
theorem stcf_visit (h : At st (A ++ x :: B) q (ta ++ t :: tb) b) (hlen : A.length = ta.length)
    (hflag : st.flag = 0) (i : Int) :
    ∃ st' left A' q' es b', stcfVisit runqueue i (.node x) st = .ok (st', left) ∧
      Visited i t b A B ta tb x st' left A' q' es b' := by
  obtain ⟨hA, ht, hBm⟩ := h.tasks_split hlen
  have hentry : st.mem.listEntry (.node x) = .ok t := by rw [h.listEntry_source (by simp), ht]
  by_cases h0 : t.onRq = 0
  · by_cases hin : letsIn i (b.j + t.burst) b.k t
    · have hqueues : Queues ({ st with j := st.j + t.burst } : Stcf).mem (A ++ x :: B) q := h.toQueues
      obtain ⟨e2, hsearch, hnone⟩ | ⟨C, y, D, hq, hsearch, hahead, hp⟩ := preempt_search hqueues t
      · exact stcf_visit_none h hlen hflag h0 hin hsearch hnone
      · exact stcf_visit_some h hlen h0 hin hq hsearch hahead hp
    · refine ⟨{ st with j := st.j + t.burst }, false, A, q, [t], b.count t, ?_, .waits h0 hin, ?_,
        by simp [hlen], .inl rfl, fun _ => hflag⟩
      · unfold stcfVisit
        rw [hentry, ok_bind, if_pos h0]
        dsimp only
        rw [h.j, h.k, if_neg hin]
        rfl
      · rw [List.append_assoc, List.singleton_append]
        exact { h with j := congrArg (· + t.burst) h.j }
  · refine ⟨st, false, A, q, [t], b, ?_, .queued h0, ?_, by simp [hlen], .inl rfl, fun _ => hflag⟩
    · unfold stcfVisit
      rw [hentry, ok_bind, if_neg h0]
      rfl
    · rw [List.append_assoc, List.singleton_append]
      exact h

end OsBasics.Cpu
