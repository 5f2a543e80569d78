/-
  The waiting times of FCFS.

  `run_simulator` lets every process start when the one before it ends, whether it has
  arrived or not. `consistent_iff`: the rows are consistent exactly when the bursts
  before each entry last up to its arrival. For the run queue of `fcfs_tick` this is a
  condition on the workload (`fcfs_waits_iff`).
-/
import Mathlib
import OsBasics.Cpu.Fcfs
import OsBasics.Cpu.Report

namespace OsBasics.Cpu

open OsBasics.Lib OsBasics.Lists

variable {s s' : Sim} {src : List Nat} {tasks : List Task} {jobs queue : List Job} {p : Job} {j : Int}

/-- The row describes a run of the process that starts no earlier than the process arrives. -/
structure Row.Describes (row : Row) (p : Job) : Prop where
  pid : row.pid = p.pid
  waiting : 0 ≤ row.waiting
  turnaround : row.turnaround = row.waiting + p.burst
  burst : p.burst ≤ row.turnaround

/-- When the process runs, by its row. -/
def Row.interval (row : Row) (p : Job) : Set Int :=
  Set.Ico (p.arr + row.waiting) (p.arr + row.turnaround)

/-- Each row describes a run of its process, and no two processes run at once. -/
structure Consistent (queue : List Job) (rows : List Row) : Prop where
  describes : List.Forall₂ Row.Describes rows queue
  apart : (rows.zip queue).Pairwise fun a b => Disjoint (a.1.interval a.2) (b.1.interval b.2)

/-- The rows tell that the process `p` runs from `j` on. -/
theorem describes_iff (hp : 0 ≤ p.burst) : Row.Describes
    ⟨p.pid, j + p.burst.toNat - p.arr - p.burst, j + p.burst.toNat - p.arr⟩ p ↔ p.arr ≤ j := by
  constructor
  · intro h
    have hwaiting := h.waiting
    dsimp only at hwaiting
    omega
  · intro harr
    refine ⟨rfl, ?_, ?_, ?_⟩ <;> dsimp only <;> omega

theorem rows_apart (hburst : ∀ p ∈ queue, 0 ≤ p.burst) (j : Int) :
    (∀ a ∈ (rowsFrom j queue).zip queue, j ≤ a.2.arr + a.1.waiting) ∧
      ((rowsFrom j queue).zip queue).Pairwise fun a b =>
        Disjoint (a.1.interval a.2) (b.1.interval b.2) := by
  induction queue generalizing j with
  | nil => exact ⟨by simp [rowsFrom], .nil⟩
  | cons p queue ih =>
    have hp := hburst p List.mem_cons_self
    obtain ⟨hlater, hapart⟩ := ih (fun r hr => hburst r (List.mem_cons_of_mem _ hr)) (j + p.burst.toNat)
    rw [rowsFrom, List.zip_cons_cons]
    refine ⟨fun a ha => ?_, List.pairwise_cons.2 ⟨fun a ha => ?_, hapart⟩⟩
    · obtain rfl | ha := List.mem_cons.1 ha
      · dsimp only
        omega
      · have := hlater a ha
        omega
    · have hstart := hlater a ha
      refine Set.disjoint_left.2 fun t ht ht' => ?_
      have hend := (Set.mem_Ico.1 ht).2
      have hbegin := (Set.mem_Ico.1 ht').1
      dsimp only at hend
      omega

/-- The rows are consistent when the bursts before each entry last up to its arrival. -/
theorem consistent_iff (hburst : ∀ p ∈ queue, 0 ≤ p.burst) : Consistent queue (rowsFrom j queue) ↔
    ∀ l p l', queue = l ++ p :: l' → p.arr ≤ j + totalBurst l := by
  have hrows : List.Forall₂ Row.Describes (rowsFrom j queue) queue ↔
      ∀ l p l', queue = l ++ p :: l' → p.arr ≤ j + totalBurst l := by
    induction queue generalizing j with
    | nil => simp [rowsFrom]
    | cons r queue ih =>
      have hr := hburst r List.mem_cons_self
      have hsum : ∀ l, j + r.burst.toNat + totalBurst l = j + totalBurst (r :: l) := fun l => by
        rw [show totalBurst (r :: l) = r.burst + totalBurst l from List.sum_cons]
        omega
      rw [rowsFrom, List.forall₂_cons, describes_iff hr, ih fun c hc => hburst c (List.mem_cons_of_mem _ hc),
        forall_split_cons (P := fun l p _ => p.arr ≤ j + totalBurst l), show totalBurst [] = 0 from rfl,
        Int.add_zero]
      simp only [hsum]
  exact ⟨fun h => hrows.1 h.describes, fun h => ⟨hrows.2 h, (rows_apart hburst j).2⟩⟩

/-- In a queue by arrival, the bursts before each entry last up to its arrival when those that arrive
    earlier do. -/
theorem arrivals_iff (hburst : ∀ p ∈ jobs, 0 ≤ p.burst) (hperm : queue.Perm jobs)
    (hsorted : queue.Pairwise fun a b => a.arr ≤ b.arr) :
    (∀ l p l', queue = l ++ p :: l' → p.arr ≤ j + totalBurst l) ↔
      ∀ p ∈ jobs, p.arr ≤ j + totalBurst (jobs.filter fun r => r.arr < p.arr) := by
  have hfilter : ∀ a, totalBurst (queue.filter fun r => r.arr < a) =
      totalBurst (jobs.filter fun r => r.arr < a) := fun a => totalBurst_perm (hperm.filter _)
  constructor
  · intro h p hp
    -- the first entry that arrives with `p` or later
    have hsplit := List.takeWhile_append_dropWhile (p := fun r : Job => decide (r.arr < p.arr)) (l := queue)
    cases hdrop : queue.dropWhile fun r => decide (r.arr < p.arr) with
    | nil =>
      have hall := List.dropWhile_eq_nil_iff.1 hdrop p (hperm.symm.subset hp)
      simp at hall
    | cons c l' =>
      rw [hdrop] at hsplit
      have hc : ¬ c.arr < p.arr := by
        have hhead := List.head_dropWhile_not (fun r : Job => decide (r.arr < p.arr)) (l := queue)
          (by rw [hdrop]; exact List.cons_ne_nil _ _)
        simpa [hdrop] using hhead
      have hnone : (c :: l').filter (fun r => decide (r.arr < p.arr)) = [] := by
        refine List.filter_eq_nil_iff.2 fun r hr => ?_
        obtain rfl | hr := List.mem_cons.1 hr
        · simpa using hc
        · rw [← hsplit] at hsorted
          have hle := List.rel_of_pairwise_cons (List.pairwise_append.1 hsorted).2.1 hr
          simp only [decide_eq_true_eq, Int.not_lt]
          omega
      have hbefore : queue.filter (fun r => decide (r.arr < p.arr)) =
          queue.takeWhile fun r => decide (r.arr < p.arr) := by
        conv_lhs => rw [← hsplit]
        rw [List.filter_append, hnone, List.append_nil, List.filter_eq_self]
        exact fun r hr => List.mem_takeWhile_imp (p := fun r : Job => decide (r.arr < p.arr)) hr
      have hlast := h _ c l' hsplit.symm
      rw [← hfilter, hbefore]
      omega
  · intro h l p l' hq
    have hlast := h p (hperm.subset (by simp [hq]))
    rw [hq, List.pairwise_append] at hsorted
    have hnone : (p :: l').filter (fun r => decide (r.arr < p.arr)) = [] := by
      refine List.filter_eq_nil_iff.2 fun r hr => ?_
      obtain rfl | hr := List.mem_cons.1 hr
      · simp
      · simpa using List.rel_of_pairwise_cons hsorted.2.1 hr
    have hle : totalBurst (l.filter fun r => decide (r.arr < p.arr)) ≤ totalBurst l := by
      refine List.Sublist.sum_le_sum (List.filter_sublist.map Job.burst) fun b hb => ?_
      obtain ⟨r, hr, rfl⟩ := List.mem_map.1 hb
      exact hburst r (hperm.subset (by simp [hq, hr]))
    rw [← hfilter, hq, List.filter_append, hnone, List.append_nil] at hlast
    omega

/-- After `fcfs_tick` the rows are consistent exactly when no process arrives more than one slot after
    the bursts of those that arrive before it are over. -/
theorem fcfs_waits_iff (h : Loaded s tasks src) (hburst : ∀ t ∈ tasks, 1 ≤ t.burst)
    (harr : ∀ t ∈ tasks, 0 ≤ t.arr ∧ t.arr < totalBurst (tasks.map Task.job)) :
    ∃ s' q, runSimulator (some fcfsTick) s =
        .ok (s', printRows (printSlots "" (slots (jobsAt s'.mem q)) ++ "\n") s'.rows) ∧
      IsRing s'.mem 1 q ∧ (jobsAt s'.mem q).Perm (tasks.map Task.job) ∧
      (Consistent (jobsAt s'.mem q) s'.rows ↔ ∀ p ∈ tasks.map Task.job,
        p.arr ≤ 1 + totalBurst ((tasks.map Task.job).filter fun r => r.arr < p.arr)) := by
  have hbursts : ∀ p ∈ tasks.map Task.job, 0 ≤ p.burst :=
    List.forall_mem_map.2 fun t ht => Int.le_trans Int.one_nonneg (hburst t ht)
  have harrs : ∀ p ∈ tasks.map Task.job, 0 ≤ p.arr ∧ p.arr < s.span :=
    List.forall_mem_map.2 fun t ht => h.span ▸ harr t ht
  obtain ⟨s₁, q, htick, hB⟩ := h.fcfs
  have hperm : (collect Job.arr (tasks.map Task.job) s.span.toNat).Perm (tasks.map Task.job) := by
    refine (collect_perm_iff (fun p hp => (harrs p hp).1) _).2 fun p hp => ?_
    have := harrs p hp
    omega
  have hall : s₁.processes = q.length := by
    rw [fcfsTick_processes htick, h.processes, hB.length, hperm.length_eq, List.length_map]
  obtain ⟨s', hrun, hmem, hrows⟩ := runSimulator_rows htick hB.queue hall
  have hsorted := (collect_sorted Job.arr (tasks.map Task.job) s.span.toNat).imp keyLe_iff.1
  rw [← hmem] at hrun hrows hB
  refine ⟨s', q, hrun, hB.queue, hB.jobs ▸ hperm, ?_⟩
  rw [hrows, hB.jobs, consistent_iff fun p hp => hbursts p (hperm.subset hp),
    arrivals_iff hbursts hperm hsorted]

/-- The second process arrives when the first one is done. -/
def relay : List Task := [⟨0, 0, 0, 1, 0, 3⟩, ⟨0, 0, 0, 2, 4, 2⟩]

theorem fcfs_waits_iff_relay : ∃ s' q, runSimulator (some fcfsTick) (withProcesses relay) =
        .ok (s', printRows (printSlots "" (slots (jobsAt s'.mem q)) ++ "\n") s'.rows) ∧
      IsRing s'.mem 1 q ∧ (jobsAt s'.mem q).Perm (relay.map Task.job) ∧
      (Consistent (jobsAt s'.mem q) s'.rows ↔ ∀ p ∈ relay.map Task.job,
        p.arr ≤ 1 + totalBurst ((relay.map Task.job).filter fun r => r.arr < p.arr)) :=
  fcfs_waits_iff (withProcesses_loaded relay) (by decide) (by decide)

/-- The second process arrives after the first one is done, and is reported to wait `-3`. -/
theorem fcfs_waits_negative : ¬ ∃ s' text q,
    runSimulator (some fcfsTick) (withProcesses [⟨0, 0, 0, 1, 0, 1⟩, ⟨0, 0, 0, 2, 5, 9⟩]) = .ok (s', text) ∧
      IsRing s'.mem 1 q ∧ Consistent (jobsAt s'.mem q) s'.rows := by
  rintro ⟨s', text, q, hrun, hring, hrows⟩
  have hend : (runSimulator (some fcfsTick) (withProcesses
      [⟨0, 0, 0, 1, 0, 1⟩, ⟨0, 0, 0, 2, 5, 9⟩])).map (fun r => (jobsAt r.1.mem (members r.1.mem 1), r.1.rows)) =
        .ok ([⟨1, 0, 1, 0⟩, ⟨2, 5, 9, 0⟩], [⟨1, 1, 2⟩, ⟨2, -3, 6⟩]) := by rfl
  rw [hrun] at hend
  obtain ⟨hjobs, hreported⟩ := Prod.mk.inj (Except.ok.inj hend)
  rw [hring.members] at hjobs
  rw [hjobs, hreported] at hrows
  have hlast := (List.forall₂_cons.1 (List.forall₂_cons.1 hrows.describes).2).1.waiting
  exact absurd hlast (by decide)

end OsBasics.Cpu
