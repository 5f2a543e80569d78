/-
  Whether every process gets to the run queue.

  `fcfs_tick` copies a process in the round of its arrival, so it needs an arrival
  before the total burst. `sjf_tick` goes over what waits once in every round, and
  gives up after as many rounds as the total burst, whatever waits then. Since the
  bursts on the run queue and those that wait add up to the total, what the last round
  takes can be read off the entries that wait when it begins (`sjf_last`).
-/
import OsBasics.Cpu.Fcfs
import OsBasics.Cpu.Sjf
import OsBasics.Lib.TimeLine

namespace OsBasics.Cpu

open OsBasics.Lib OsBasics.Lists

variable {s : Sim} {src : List Nat} {tasks ta tb : List Task} {t t' : Task}
  {jobs queue queue' : List Job} {i j j' total : Int} {st : Sjf}

/-! ## Books -/

/-- The run queue holds copies of the entries that are taken. -/
structure SjfBooks (jobs : List Job) (tasks : List Task) (queue : List Job) : Prop where
  jobs : tasks.map Task.job = jobs
  taken : queue.Perm ((tasks.filter fun t => t.onRq ≠ 0).map Task.job)

/-- A step keeps the books. -/
theorem SjfBooks.step (h : SjfBooks jobs (ta ++ t :: tb) queue)
    (hs : SjfStep i t queue j t' queue' j') : SjfBooks jobs (ta ++ t' :: tb) queue' := by
  cases hs with
  | queued h0 => exact h
  | waits h0 hno => exact h
  | takes h0 hin =>
    have htaken := h.taken
    refine ⟨by rw [← h.jobs, List.map_append, List.map_append]; rfl, ?_⟩
    simp only [List.filter_append, List.filter_cons, h0, Task.taken, List.map_append, ne_eq,
      not_true_eq_false, decide_false, Bool.false_eq_true, if_false, one_ne_zero, not_false_eq_true,
      decide_true, if_true, List.map_cons] at htaken ⊢
    exact (htaken.append_right [t.job]).trans
      ((List.perm_append_singleton _ _).trans List.perm_middle.symm)

/-- The run queue and the entries that wait are the workload. -/
theorem SjfBooks.perm (h : SjfBooks jobs tasks queue) : (queue ++ waiting tasks).Perm jobs := by
  rw [← h.jobs]
  have hsplit := (List.filter_append_perm (fun t : Task => t.onRq ≠ 0) tasks).map Task.job
  rw [List.map_append] at hsplit
  refine ((h.taken.append_right _).trans ?_).trans hsplit
  simp [waiting]

theorem SjfBooks.length (h : SjfBooks jobs tasks queue) :
    queue.length + (waiting tasks).length = jobs.length := by
  rw [← List.length_append]
  exact h.perm.length_eq

theorem SjfBooks.totalBurst_eq (h : SjfBooks jobs tasks queue) :
    totalBurst queue + totalBurst (waiting tasks) = totalBurst jobs := by
  rw [← totalBurst_append]
  exact totalBurst_perm h.perm

theorem SjfBooks.start (hclear : ∀ t ∈ tasks, t.onRq = 0) :
    SjfBooks (tasks.map Task.job) tasks [] := by
  refine ⟨rfl, ?_⟩
  rw [List.filter_eq_nil_iff.2 fun t ht => by simp [hclear t ht]]
  rfl

/-! ## The last round -/

/-- In the round `total - 1` the entry `e` can be taken when those `before` it were and those `after` it
    were not. -/
def Fits (total : Int) (before : List Job) (e : Job) (after : List Job) : Prop :=
  e.burst < total - 1 ∧ e.arr + totalBurst (e :: after) ≤ total ∨
    totalBurst (before ++ [e]) = total - 1 ∧ e.arr < total - 1

/-- When the run queue holds all but `t` and those behind it, `t` is let in when it fits. -/
theorem letsIn_iff_fits {before after : List Job}
    (h : totalBurst queue + totalBurst (t.job :: after) = total) :
    letsIn (total - 1) (totalBurst before + t.burst) (totalBurst queue) t ↔ Fits total before t.job after := by
  unfold letsIn Fits
  rw [totalBurst_concat]
  dsimp only [Task.job_burst, Task.job_arr]
  omega

/-- The last round is at the entries `tb`: all in front of them are taken exactly when those that waited
    fit. -/
structure SjfLast (jobs left : List Job) (ta tb : List Task) (queue : List Job) (j : Int) : Prop where
  books : SjfBooks jobs (ta ++ tb) queue
  seen : ∃ seen, left = seen ++ waiting tb ∧ j = totalBurst seen ∧
    (waiting ta = [] ↔ ∀ before e after, seen = before ++ e :: after →
      Fits (totalBurst jobs) before e (after ++ waiting tb))

theorem SjfLast.step {left : List Job} (h : SjfLast jobs left ta (t :: tb) queue j)
    (hs : SjfStep (totalBurst jobs - 1) t queue j t' queue' j') :
    SjfLast jobs left (ta ++ [t']) tb queue' j' := by
  obtain ⟨hbooks, seen, hleft, hj, hiff⟩ := h
  refine ⟨by rw [List.append_assoc]; exact hbooks.step hs, ?_⟩
  have hnext : t.onRq = 0 → waiting (t :: tb) = t.job :: waiting tb := fun h0 => by
    rw [waiting_cons, if_pos h0]
  -- the entries seen so far fit, and `t` fits
  have hall : t.onRq = 0 → ((∀ before e after, seen ++ [t.job] = before ++ e :: after →
      Fits (totalBurst jobs) before e (after ++ waiting tb)) ↔
        waiting ta = [] ∧ Fits (totalBurst jobs) seen t.job (waiting tb)) := fun h0 => by
    rw [forall_split_concat (P := fun l c l' => Fits (totalBurst jobs) l c (l' ++ waiting tb)), hiff,
      hnext h0]
    simp only [List.append_assoc, List.singleton_append, List.nil_append]
  have hlets : t.onRq = 0 → waiting ta = [] →
      (letsIn (totalBurst jobs - 1) (j + t.burst) (totalBurst queue) t ↔
        Fits (totalBurst jobs) seen t.job (waiting tb)) := fun h0 hnone => by
    have htotal := hbooks.totalBurst_eq
    rw [waiting_append, hnone, List.nil_append, hnext h0] at htotal
    rw [hj]
    exact letsIn_iff_fits htotal
  cases hs with
  | queued h0 =>
    have hskip : waiting (t :: tb) = waiting tb := by rw [waiting_cons, if_neg h0]
    rw [hskip] at hleft hiff
    refine ⟨seen, hleft, hj, ?_⟩
    rw [waiting_append, waiting_cons, if_neg h0, waiting_nil, List.append_nil]
    exact hiff
  | waits h0 hno =>
    refine ⟨seen ++ [t.job], by rw [hleft, hnext h0, List.append_assoc]; rfl,
      by rw [totalBurst_concat, hj]; rfl, ?_⟩
    rw [hall h0, waiting_append, waiting_cons, if_pos h0, waiting_nil]
    exact iff_of_false (by simp) fun ⟨hnone, hfits⟩ => hno ((hlets h0 hnone).2 hfits)
  | takes h0 hin =>
    refine ⟨seen ++ [t.job], by rw [hleft, hnext h0, List.append_assoc]; rfl,
      by rw [totalBurst_concat, hj]; rfl, ?_⟩
    rw [hall h0, waiting_append, waiting_cons, if_neg (show t.taken.onRq ≠ 0 from one_ne_zero),
      waiting_nil, List.append_nil]
    exact ⟨fun hnone => ⟨hnone, (hlets h0 hnone).1 hin⟩, fun h => h.1⟩

/-- Three processes that are there from the start. -/
def crowd : List Task := [⟨0, 0, 0, 1, 0, 3⟩, ⟨0, 0, 0, 2, 0, 3⟩, ⟨0, 0, 0, 3, 0, 2⟩]

end OsBasics.Cpu
