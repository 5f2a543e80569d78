/-
  The time of a process in `stcf_tick`.

  A visit that breaks an entry off leaves it `entry->arr + 1` and takes `m` from it,
  which are not the same; `Stage.gain` is the difference. `stcf_conserves_iff`: the
  entries of a pid in the run queue and its pieces that wait add up to its burst
  exactly when the gains of the pid over the run add up to nothing.
-/
import OsBasics.Cpu.Passes
import Mathlib.Algebra.BigOperators.Group.List.Basic
import Mathlib.Data.List.Nodup
import Mathlib.Data.List.TakeWhile

namespace OsBasics.Cpu

open OsBasics.Lists

variable {s : Sim} {src : List Nat} {tasks ta tb es : List Task} {t : Task} {jobs : List Job}
  {b b' : Stage} {i pid : Int} {n x : Nat} {left : Bool}

/-! ## The time of a pid -/

/-- The bursts of the jobs of a pid, added up. -/
def burstOf (pid : Int) (jobs : List Job) : Int := totalBurst (jobs.filter fun p => p.pid = pid)

@[simp] theorem burstOf_nil (pid : Int) : burstOf pid [] = 0 := rfl

theorem burstOf_cons (pid : Int) (p : Job) (jobs : List Job) :
    burstOf pid (p :: jobs) = (if p.pid = pid then p.burst else 0) + burstOf pid jobs := by
  unfold burstOf totalBurst
  by_cases h : p.pid = pid <;> simp [h]

theorem burstOf_append (pid : Int) (jobs jobs' : List Job) :
    burstOf pid (jobs ++ jobs') = burstOf pid jobs + burstOf pid jobs' := by
  simp [burstOf, totalBurst]

/-- The time of a pid in the run queue and in the source entries that wait. -/
def load (pid : Int) (tasks : List Task) (queue : List Job) : Int :=
  burstOf pid queue + burstOf pid (waiting tasks)

/-- A visit copies `t`. -/
def Stage.copies (b : Stage) (i : Int) (t : Task) : Prop :=
  t.onRq = 0 ∧ letsIn i (b.j + t.burst) b.k t

instance (b : Stage) (i : Int) (t : Task) : Decidable (b.copies i t) :=
  inferInstanceAs (Decidable (_ ∧ _))

instance (t : Task) : DecidablePred (preempts t) := fun _ => inferInstanceAs (Decidable (_ ∧ _))

/-- What the entries of a pid gain when a visit to `t` breaks one of them off. -/
def Stage.gain (b : Stage) (i : Int) (t : Task) (pid : Int) : Int :=
  if b.copies i t ∧ b.processAdded + 1 ≠ b.processes then
    match b.queue.dropWhile fun p => ¬ preempts t p with
    | [] => 0
    | p :: _ =>
      if p.pid = pid then t.arr + 1 - b.mark (b.queue.takeWhile fun p => ¬ preempts t p) t else 0
  else 0

/-- The first entry that is preempted is where the search stops. -/
theorem search_split {ahead behind : List Job} {p : Job} (hq : b.queue = ahead ++ p :: behind)
    (hahead : ∀ r ∈ ahead, ¬ preempts t r) (hp : preempts t p) :
    (b.queue.takeWhile fun r => ¬ preempts t r) = ahead ∧
      (b.queue.dropWhile fun r => ¬ preempts t r) = p :: behind := by
  have hall : ∀ r ∈ ahead, decide (¬ preempts t r) = true := fun r hr => decide_eq_true (hahead r hr)
  rw [hq, List.takeWhile_append_of_pos hall, List.dropWhile_append_of_pos hall]
  simp [hp]

theorem gain_of_not_copies (h : ¬ b.copies i t) (pid : Int) : b.gain i t pid = 0 :=
  if_neg fun hc => h hc.1

/-- Nothing is gained when nothing is preempted. -/
theorem gain_of_none (h : ∀ p ∈ b.queue, ¬ preempts t p) (pid : Int) : b.gain i t pid = 0 := by
  have hnil : (b.queue.dropWhile fun p => ¬ preempts t p) = [] := by
    rw [List.dropWhile_eq_nil_iff]
    exact fun p hp => decide_eq_true (h p hp)
  unfold Stage.gain
  rw [hnil, ite_self]

theorem gain_of_last (h : b.processAdded + 1 = b.processes) (pid : Int) : b.gain i t pid = 0 :=
  if_neg fun hc => hc.2 h

theorem gain_of_split (hc : b.copies i t) {ahead behind : List Job} {p : Job}
    (hq : b.queue = ahead ++ p :: behind) (hahead : ∀ r ∈ ahead, ¬ preempts t r)
    (hp : preempts t p) (hmore : b.processAdded + 1 ≠ b.processes) (pid : Int) :
    b.gain i t pid = if p.pid = pid then t.arr + 1 - b.mark ahead t else 0 := by
  obtain ⟨htake, hdrop⟩ := search_split hq hahead hp
  unfold Stage.gain
  rw [if_pos ⟨hc, hmore⟩, hdrop, htake]

/-- A step changes the time of a pid by its gain. -/
theorem StcfStep.load_eq (hs : StcfStep i t b es b' left) (pid : Int) (ta tb : List Task) :
    load pid (ta ++ es ++ tb) b'.queue = load pid (ta ++ t :: tb) b.queue + b.gain i t pid := by
  have hmarked : waiting [t.taken] = [] := by simp [waiting, Task.taken]
  unfold load
  rw [waiting_append, waiting_append, waiting_append, waiting_cons]
  cases hs with
  | queued h0 =>
    rw [gain_of_not_copies fun hc => h0 hc.1, if_neg h0]
    simp only [waiting_cons, waiting_nil, if_neg h0, burstOf_append, burstOf_nil]
    omega
  | waits h0 hno =>
    rw [gain_of_not_copies fun hc => hno hc.2, if_pos h0]
    simp only [waiting_cons, waiting_nil, if_pos h0, burstOf_append, burstOf_cons, burstOf_nil,
      Stage.count]
    omega
  | appends h0 hin hnone =>
    rw [gain_of_none hnone, if_pos h0, hmarked]
    simp only [Stage.take, burstOf_append, burstOf_cons, burstOf_nil]
    omega
  | returns h0 hin hq hahead hp hlast =>
    rw [gain_of_last hlast, if_pos h0, hmarked, hq]
    simp only [Stage.take, burstOf_append, burstOf_cons, burstOf_nil]
    omega
  | @splits h0 hin ahead behind p hq hahead hp hmore =>
    rw [gain_of_split ⟨h0, hin⟩ hq hahead hp hmore, if_pos h0, waiting_cons, hmarked, hq]
    have hpid : (p.remainder (b.mark ahead t)).job.pid = p.pid := rfl
    have hburst : (p.remainder (b.mark ahead t)).job.burst = p.burst - b.mark ahead t := rfl
    have hwaits : (p.remainder (b.mark ahead t)).onRq = 0 := rfl
    simp only [Stage.take, burstOf_append, burstOf_cons, burstOf_nil, if_pos hwaits, hpid, hburst]
    split <;> omega

/-! ## Where the jobs come from -/

/-- The originals are the input. What is in the run queue comes from an original that is taken, and
    a piece from an entry of the run queue. -/
structure Origin (jobs : List Job) (tasks : List Task) (queue : List Job) : Prop where
  originals : (tasks.filter fun t => t.tmpSrc = 0).map Task.job = jobs
  copies : ∀ p ∈ queue, ∃ t ∈ tasks, t.tmpSrc = 0 ∧ t.onRq ≠ 0 ∧ t.pid = p.pid
  pieces : ∀ t ∈ tasks, t.tmpSrc ≠ 0 → ∃ p ∈ queue, p.pid = t.pid
  arr : (∀ t ∈ tasks, 0 ≤ t.arr) ∧ ∀ p ∈ queue, 0 ≤ p.arr

theorem Origin.step (h : Origin jobs (ta ++ t :: tb) b.queue) (hs : StcfStep i t b es b' left) :
    Origin jobs (ta ++ es ++ tb) b'.queue := by
  obtain ⟨rfl, hq, -, -⟩ | ⟨pieces, hT⟩ := hs.cases_taking
  · rw [hq, List.append_assoc, List.singleton_append]
    exact h
  · have hpieces : ∀ r ∈ pieces, r.tmpSrc = 1 ∧ t.tmpSrc = 0 ∧ ∃ p ∈ b.queue, r.pid = p.pid ∧ r.arr = p.arr := by
      intro r hr
      obtain rfl | ⟨h0, p, hp, m, rfl⟩ := hT.pieces
      · exact absurd hr (by simp)
      · rw [List.mem_singleton.1 hr]
        exact ⟨rfl, h0, p, hp, rfl, rfl⟩
    have hmem : ∀ r, r ∈ ta ++ es ++ tb ↔ r ∈ ta ∨ r ∈ pieces ∨ r = t.taken ∨ r ∈ tb := by
      intro r
      rw [hT.entries]
      simp only [List.mem_append, List.mem_cons, List.not_mem_nil, or_false]
      tauto
    have hkeep : ∀ r ∈ ta ++ t :: tb, r = t ∨ r ∈ ta ++ es ++ tb := by
      intro r hr
      rw [hmem]
      simp only [List.mem_append, List.mem_cons] at hr
      tauto
    have htaken : t.taken ∈ ta ++ es ++ tb := (hmem _).2 (.inr (.inr (.inl rfl)))
    have hcopy : ∀ r ∈ b.queue, ∃ t' ∈ ta ++ es ++ tb, t'.tmpSrc = 0 ∧ t'.onRq ≠ 0 ∧ t'.pid = r.pid := by
      intro r hr
      obtain ⟨t', ht', h0, hrq, hpid⟩ := h.copies r hr
      obtain rfl | ht' := hkeep t' ht'
      · exact absurd hT.waiting hrq
      · exact ⟨t', ht', h0, hrq, hpid⟩
    constructor
    · have hnone : pieces.filter (fun r => r.tmpSrc = 0) = [] := by
        rw [List.filter_eq_nil_iff]
        intro r hr h0
        simp [(hpieces r hr).1] at h0
      have hsame : ([t.taken].filter fun r => r.tmpSrc = 0).map Task.job =
          ([t].filter fun r => r.tmpSrc = 0).map Task.job := by
        by_cases h0 : t.tmpSrc = 0 <;> simp [Task.taken, Task.job, h0]
      rw [← h.originals, hT.entries, ← List.singleton_append (x := t)]
      simp only [List.filter_append, List.map_append, hnone, hsame, List.nil_append,
        List.append_assoc]
    · intro p hp
      obtain hpt | ⟨r, hr, hpr⟩ := hT.name hp
      · have hpid : t.pid = p.pid := (congrArg Prod.fst hpt).symm
        by_cases h0 : t.tmpSrc = 0
        · exact ⟨t.taken, htaken, h0, by simp [Task.taken], hpid⟩
        · obtain ⟨r, hr, hrt⟩ := h.pieces t (by simp) h0
          obtain ⟨t', ht', h0', hrq, hpid'⟩ := hcopy r hr
          exact ⟨t', ht', h0', hrq, hpid'.trans (hrt.trans hpid)⟩
      · obtain ⟨t', ht', h0', hrq, hpid'⟩ := hcopy r hr
        exact ⟨t', ht', h0', hrq, hpid'.trans (congrArg Prod.fst hpr)⟩
    · intro r hr h0
      have hq : ∃ p ∈ t.job :: b.queue, p.pid = r.pid := by
        obtain hr | hr | rfl | hr := (hmem r).1 hr
        · obtain ⟨p, hp, hpr⟩ := h.pieces r (by simp [hr]) h0
          exact ⟨p, List.mem_cons_of_mem _ hp, hpr⟩
        · obtain ⟨-, -, p, hp, hpr, -⟩ := hpieces r hr
          exact ⟨p, List.mem_cons_of_mem _ hp, hpr.symm⟩
        · exact ⟨t.job, List.mem_cons_self, rfl⟩
        · obtain ⟨p, hp, hpr⟩ := h.pieces r (by simp [hr]) h0
          exact ⟨p, List.mem_cons_of_mem _ hp, hpr⟩
      obtain ⟨p, hp, hpr⟩ := hq
      obtain ⟨p', hp', hpp⟩ := hT.stays hp
      exact ⟨p', hp', (congrArg Prod.fst hpp).trans hpr⟩
    · refine ⟨fun r hr => ?_, fun p hp => ?_⟩
      · obtain hr | hr | rfl | hr := (hmem r).1 hr
        · exact h.arr.1 r (by simp [hr])
        · obtain ⟨-, -, p, hp, -, hpr⟩ := hpieces r hr
          rw [hpr]
          exact h.arr.2 p hp
        · exact h.arr.1 t (by simp)
        · exact h.arr.1 r (by simp [hr])
      · obtain hpt | ⟨r, hr, hpr⟩ := hT.name hp
        · rw [show p.arr = t.arr from congrArg Prod.snd hpt]
          exact h.arr.1 t (by simp)
        · rw [← show r.arr = p.arr from congrArg Prod.snd hpr]
          exact h.arr.2 r hr

/-! ## The account of a run -/

/-- The stage in memory. -/
def Stcf.stage (st : Stcf) : Stage :=
  ⟨jobsAt st.mem (members st.mem 1), st.processes, st.k, st.processAdded, st.m, st.j⟩

theorem Snapshot.stage_eq (a : Snapshot) : a.st.stage = a.stage := by
  obtain ⟨st, src, q, tasks, b, h⟩ := a
  unfold Stcf.stage
  rw [h.queue.members, h.jobs, h.processes, h.k, h.processAdded, h.m, h.j]

/-- The source entry an iteration visits, as it was before. -/
def Iteration.task (it : Iteration) : Task := it.before.mem.data it.entry

/-- The iteration copies its entry. -/
def Iteration.copies (it : Iteration) : Prop := it.before.stage.copies it.i it.task

/-- What the entries of a pid gain in an iteration that breaks one off. -/
def Iteration.gain (pid : Int) (it : Iteration) : Int := it.before.stage.gain it.i it.task pid

/-- Every entry of the run queue has time, and the entries of a pid there and its pieces that wait
    have the time of the process. -/
def Conserved (jobs : List Job) (m : ListMem Task) : Prop :=
  (∀ x ∈ members m 1, 1 ≤ (m.data x).burst) ∧
  ∀ p ∈ jobs, (∃ x ∈ members m 1, (m.data x).pid = p.pid) →
    burstOf p.pid (jobsAt m (members m 1)) +
      burstOf p.pid (jobsAt m ((members m 0).filter fun x =>
        (m.data x).onRq = 0 ∧ (m.data x).tmpSrc ≠ 0)) = p.burst

/-- What has been given and taken so far. -/
structure Accounts (jobs : List Job) (its : List Iteration) (a : Snapshot) : Prop where
  origin : Origin jobs a.tasks a.stage.queue
  load : ∀ p ∈ jobs,
    load p.pid a.tasks a.stage.queue = p.burst + (its.map (Iteration.gain p.pid)).sum
  gains : ∀ pid, (∀ p ∈ a.stage.queue, p.pid ≠ pid) → ∀ it ∈ its, it.gain pid = 0
  positive : (∀ p ∈ a.stage.queue, 1 ≤ p.burst) ↔ ∀ it ∈ its, it.copies → 1 ≤ it.task.burst

/-- A step leaves positive bursts as they are, and adds the one of the entry it copies. -/
theorem StcfStep.positive (hs : StcfStep i t b es b' left) (harr : 0 ≤ t.arr)
    (horiginal : t.tmpSrc = 0 → 1 ≤ t.burst) :
    (∀ p ∈ b'.queue, 1 ≤ p.burst) ↔
      (∀ p ∈ b.queue, 1 ≤ p.burst) ∧ (b.copies i t → 1 ≤ t.burst) := by
  cases hs with
  | queued h0 => exact ⟨fun h => ⟨h, fun hc => absurd hc.1 h0⟩, fun h => h.1⟩
  | waits h0 hno => exact ⟨fun h => ⟨h, fun hc => absurd hc.2 hno⟩, fun h => h.1⟩
  | appends h0 hin hnone =>
    have hc : b.copies i t := ⟨h0, hin⟩
    simp [Stage.take, or_imp, forall_and, hc]
  | @returns h0 hin ahead behind p hq hahead hp hlast =>
    have hc : b.copies i t := ⟨h0, hin⟩
    simp [Stage.take, or_imp, forall_and, hc, hq]
    tauto
  | @splits h0 hin ahead behind p hq hahead hp hmore =>
    have hc : b.copies i t := ⟨h0, hin⟩
    have hp1 : 1 ≤ p.burst := by
      have := horiginal hp.2
      have := hp.1
      omega
    simp [Stage.take, or_imp, forall_and, hc, hq, harr, hp1]
    tauto

/-- Only a pid of the run queue gains. -/
theorem StcfStep.gain_eq_zero (hs : StcfStep i t b es b' left)
    (hpid : ∀ p ∈ b.queue, p.pid ≠ pid) : b.gain i t pid = 0 := by
  cases hs with
  | queued h0 => exact gain_of_not_copies (fun hc => h0 hc.1) pid
  | waits h0 hno => exact gain_of_not_copies (fun hc => hno hc.2) pid
  | appends h0 hin hnone => exact gain_of_none hnone pid
  | returns h0 hin hq hahead hp hlast => exact gain_of_last hlast pid
  | @splits h0 hin ahead behind p hq hahead hp hmore =>
    rw [gain_of_split ⟨h0, hin⟩ hq hahead hp hmore, if_neg (hpid p (by simp [hq]))]

/-- The names in the run queue stay there. -/
theorem StcfStep.stays (hs : StcfStep i t b es b' left) {p : Job} (hp : p ∈ b.queue) :
    ∃ p' ∈ b'.queue, p'.pid = p.pid := by
  obtain ⟨-, hq, -, -⟩ | ⟨pieces, hT⟩ := hs.cases_taking
  · exact ⟨p, hq ▸ hp, rfl⟩
  · obtain ⟨p', hp', hpp⟩ := hT.stays (List.mem_cons_of_mem _ hp)
    exact ⟨p', hp', congrArg Prod.fst hpp⟩

theorem kept_accounts (hburst : ∀ p ∈ jobs, 1 ≤ p.burst) : Kept (Accounts jobs) where
  restart its a h := ⟨h.origin, h.load, h.gains, h.positive⟩
  visit its i x a c left A B A' ta tb es t h hs := by
    have hstage : (Iteration.mk i x a.st c.st left).before.stage = a.stage := a.stage_eq
    have htask : (Iteration.mk i x a.st c.st left).task = t := hs.data.2.1
    have horigin : Origin jobs (ta ++ t :: tb) a.stage.queue := hs.tasks ▸ h.origin
    have ht : t ∈ ta ++ t :: tb := by simp
    have hgain : ∀ pid, (Iteration.mk i x a.st c.st left).gain pid = a.stage.gain i t pid := by
      intro pid
      unfold Iteration.gain
      rw [hstage, htask]
    constructor
    · rw [hs.tasks']
      exact horigin.step hs.step
    · intro p hp
      have hload := h.load p hp
      rw [hs.tasks] at hload
      rw [hs.tasks', hs.step.load_eq, hload, List.map_append, List.sum_append, List.map_singleton,
        List.sum_singleton, hgain]
      omega
    · intro pid hpid it hit
      have hbefore : ∀ p ∈ a.stage.queue, p.pid ≠ pid := fun p hp hpp => by
        obtain ⟨p', hp', hpp'⟩ := hs.step.stays hp
        exact hpid p' hp' (hpp'.trans hpp)
      obtain hit | hit := List.mem_append.1 hit
      · exact h.gains pid hbefore it hit
      · rw [List.mem_singleton.1 hit, hgain]
        exact hs.step.gain_eq_zero hbefore
    · have horiginal : t.tmpSrc = 0 → 1 ≤ t.burst := fun h0 => by
        refine hburst t.job ?_
        rw [← horigin.originals]
        exact List.mem_map_of_mem (List.mem_filter.2 ⟨ht, by simpa using h0⟩)
      rw [hs.step.positive (horigin.arr.1 t ht) horiginal, h.positive]
      simp only [List.mem_append, List.mem_singleton, or_imp, forall_and, forall_eq]
      rw [Iteration.copies, hstage, htask]

/-- With distinct pids a pid has the time of its process. -/
theorem burstOf_of_mem (hnd : (jobs.map Job.pid).Nodup) {p : Job} (hp : p ∈ jobs) :
    burstOf p.pid jobs = p.burst := by
  induction jobs with
  | nil => exact absurd hp (by simp)
  | cons r jobs ih =>
    rw [List.map_cons, List.nodup_cons] at hnd
    have hnone : ∀ pid, pid ∉ jobs.map Job.pid → burstOf pid jobs = 0 := by
      intro pid hpid
      have hnil : jobs.filter (fun p => p.pid = pid) = [] := by
        rw [List.filter_eq_nil_iff]
        intro p' hp' he
        refine hpid ?_
        rw [← show p'.pid = pid by simpa using he]
        exact List.mem_map_of_mem hp'
      unfold burstOf
      rw [hnil]
      rfl
    rw [burstOf_cons]
    obtain rfl | hp := List.mem_cons.1 hp
    · rw [if_pos rfl, hnone _ hnd.1]
      omega
    · have hne : r.pid ≠ p.pid := fun e => hnd.1 (e ▸ List.mem_map_of_mem hp)
      rw [if_neg hne, ih hnd.2 hp, Int.zero_add]

/-- What waits under a name of the run queue is no original. -/
theorem Origin.not_original (h : Origin jobs tasks queue) (hnd : (jobs.map Job.pid).Nodup)
    {p : Job} (hp : p ∈ queue) {r : Task} (hr : r ∈ tasks) (hwaits : r.onRq = 0) (hpid : r.pid = p.pid) :
    r.tmpSrc ≠ 0 := by
  intro hr0
  obtain ⟨t, ht, h0, hrq, htp⟩ := h.copies p hp
  -- two originals with one pid are one
  have hnd' : ((tasks.filter fun t => t.tmpSrc = 0).map Task.pid).Nodup := by
    rw [← h.originals, List.map_map] at hnd
    exact hnd
  have hsame : t = r := List.inj_on_of_nodup_map hnd' (List.mem_filter.2 ⟨ht, by simpa using h0⟩)
    (List.mem_filter.2 ⟨hr, by simpa using hr0⟩) (htp.trans hpid.symm)
  exact hrq (hsame ▸ hwaits)

/-- What waits for a pid of the run queue are its pieces. -/
theorem Origin.waiting_eq (h : Origin jobs tasks queue) (hnd : (jobs.map Job.pid).Nodup)
    (hpid : ∃ p ∈ queue, p.pid = pid) :
    burstOf pid (waiting tasks) =
      burstOf pid ((tasks.filter fun t => t.onRq = 0 ∧ t.tmpSrc ≠ 0).map Task.job) := by
  obtain ⟨p, hp, hpp⟩ := hpid
  unfold burstOf waiting
  rw [List.filter_map, List.filter_map, List.filter_filter, List.filter_filter]
  congr 2
  refine List.filter_congr fun r hr => ?_
  rw [Bool.eq_iff_iff]
  simp only [Function.comp_apply, Bool.and_eq_true, decide_eq_true_eq, Task.job_pid]
  exact ⟨fun hr' => ⟨hr'.1, hr'.2, h.not_original hnd hp hr hr'.2 ((of_decide_eq_true hr'.1).trans hpp.symm)⟩,
    fun hr' => ⟨hr'.1, hr'.2.1⟩⟩

/-- Time is conserved when the gains balance. -/
theorem Accounts.conserved_iff {its : List Iteration} {a : Snapshot} (h : Accounts jobs its a)
    (hnd : (jobs.map Job.pid).Nodup) :
    Conserved jobs a.st.mem ↔ (∀ it ∈ its, it.copies → 1 ≤ it.task.burst) ∧
      ∀ p ∈ jobs, (its.map (Iteration.gain p.pid)).sum = 0 := by
  have hqueue : ∀ P : Job → Prop, (∀ x ∈ a.q, P (a.st.mem.data x).job) ↔ ∀ p ∈ a.stage.queue, P p := by
    intro P
    rw [← a.holds.jobs]
    simp [jobsAt]
  have hon : ∀ pid, (∃ x ∈ a.q, (a.st.mem.data x).pid = pid) ↔ ∃ p ∈ a.stage.queue, p.pid = pid := by
    intro pid
    rw [← a.holds.jobs]
    simp [jobsAt]
  have hpieces : jobsAt a.st.mem (a.src.filter fun x =>
      (a.st.mem.data x).onRq = 0 ∧ (a.st.mem.data x).tmpSrc ≠ 0) =
        (a.tasks.filter fun t => t.onRq = 0 ∧ t.tmpSrc ≠ 0).map Task.job := by
    rw [← a.holds.tasks, List.filter_map, List.map_map]
    rfl
  unfold Conserved
  rw [a.holds.queue.members, a.holds.source.members, a.holds.jobs, hpieces]
  rw [show (∀ x ∈ a.q, 1 ≤ (a.st.mem.data x).burst) ↔ _ from hqueue fun p => 1 ≤ p.burst, h.positive]
  refine and_congr_right fun _ => forall₂_congr fun p hp => ?_
  rw [hon]
  by_cases hpid : ∃ r ∈ a.stage.queue, r.pid = p.pid
  · have hload := h.load p hp
    unfold OsBasics.Cpu.load at hload
    rw [h.origin.waiting_eq hnd hpid] at hload
    rw [hload]
    simp only [hpid, true_imp_iff]
    omega
  · have hzero : (its.map (Iteration.gain p.pid)).sum = 0 := by
      refine List.sum_eq_zero fun g hg => ?_
      obtain ⟨it, hit, rfl⟩ := List.mem_map.1 hg
      exact h.gains p.pid (fun r hr hrp => hpid ⟨r, hr, hrp⟩) it hit
    simp [hpid, hzero]

theorem Loaded.accounts (h : Loaded s (jobs.map Job.task) src) (hnd : (jobs.map Job.pid).Nodup)
    (harr : ∀ p ∈ jobs, 0 ≤ p.arr) : Accounts jobs [] h.snapshot where
  origin := by
    have hall : ∀ f : Task → Bool, (∀ p : Job, f p.task = true) →
        (jobs.map Job.task).filter f = jobs.map Job.task := fun f hf => by
      rw [List.filter_eq_self]
      intro t ht
      obtain ⟨p, -, rfl⟩ := List.mem_map.1 ht
      exact hf p
    refine ⟨?_, by simp [Loaded.snapshot], fun t ht h0 => ?_, fun t ht => ?_, by simp [Loaded.snapshot]⟩
    · exact (congrArg _ (hall _ fun p => rfl)).trans (map_task_job jobs)
    · obtain ⟨p, -, rfl⟩ := List.mem_map.1 ht
      exact absurd rfl h0
    · obtain ⟨p, hp, rfl⟩ := List.mem_map.1 ht
      exact harr p hp
  load p hp := by
    have hload : OsBasics.Cpu.load p.pid (jobs.map Job.task) [] = p.burst := by
      unfold OsBasics.Cpu.load
      rw [waiting_map_task, burstOf_nil, burstOf_of_mem hnd hp, Int.zero_add]
    simpa [Loaded.snapshot] using hload
  gains := by simp
  positive := by simp [Loaded.snapshot]

/-- STCF conserves the time of the processes exactly when it copies no entry without time and, over
    its splits, the entries of a pid gain nothing. -/
theorem stcf_conserves_iff (h : Loaded s (jobs.map Job.task) src) (hnd : (jobs.map Job.pid).Nodup)
    (harr : ∀ p ∈ jobs, 0 ≤ p.arr) (hburst : ∀ p ∈ jobs, 1 ≤ p.burst) :
    ∃ s' st' log, stcfTick runqueue s = .ok s' ∧ s'.mem = st'.mem ∧
      Passes 0 s.span.toNat (Stcf.init s) log st' ∧
      (Conserved jobs s'.mem ↔ (∀ it ∈ log.flatten, it.copies → 1 ≤ it.task.burst) ∧
        ∀ p ∈ jobs, (log.flatten.map (Iteration.gain p.pid)).sum = 0) := by
  obtain ⟨c, log, hrun, hlog, hI⟩ :=
    stcf_run (kept_accounts hburst) (h.accounts hnd harr) rfl s.span.toNat 0
  refine ⟨{ s with mem := c.st.mem, processes := c.st.processes }, c.st, log, ?_, rfl, hlog, ?_⟩
  · unfold stcfTick
    exact congrArg (· >>= _) hrun
  · rw [List.nil_append] at hI
    exact hI.conserved_iff hnd

instance (jobs : List Job) (m : ListMem Task) : Decidable (Conserved jobs m) :=
  inferInstanceAs (Decidable (_ ∧ _))

/-- Process 1 breaks process 2, which keeps `arr + 1`, and `m` is the same. -/
def balanced : List Job := [⟨1, 1, 1, 0⟩, ⟨2, 2, 3, 0⟩, ⟨3, 0, 4, 0⟩]

theorem stcf_conserves_iff_balanced : ∃ s' st' log,
    stcfTick runqueue (withProcesses (balanced.map Job.task)) = .ok s' ∧ s'.mem = st'.mem ∧
      Passes 0 8 (Stcf.init (withProcesses (balanced.map Job.task))) log st' ∧
      Conserved balanced s'.mem ∧ (∀ it ∈ log.flatten, it.copies → 1 ≤ it.task.burst) ∧
        ∀ p ∈ balanced, (log.flatten.map (Iteration.gain p.pid)).sum = 0 := by
  obtain ⟨s', st', log, hrun, hmem, hlog, hiff⟩ :=
    stcf_conserves_iff (withProcesses_loaded (balanced.map Job.task)) (by decide) (by decide) (by decide)
  have hend : (stcfTick runqueue (withProcesses (balanced.map Job.task))).map
      (fun s => decide (Conserved balanced s.mem)) = .ok true := by rfl
  rw [hrun] at hend
  have hconserved := of_decide_eq_true (Except.ok.inj hend)
  exact ⟨s', st', log, hrun, hmem, hlog, hconserved, hiff.1 hconserved⟩

/-- Three short processes that are there from the start. -/
def trio : List Job := [⟨1, 0, 2, 0⟩, ⟨2, 0, 1, 0⟩, ⟨3, 0, 1, 0⟩]

/-- What is in the run queue and waits in pieces at the end. -/
def outcome (s : Sim) : List Job × List Job :=
  (jobsAt s.mem (members s.mem 1), jobsAt s.mem ((members s.mem 0).filter fun x =>
    (s.mem.data x).onRq = 0 ∧ (s.mem.data x).tmpSrc ≠ 0))

/-- Process 1 is broken at its start, and has three slots instead of two. -/
theorem stcf_creates_time : ¬ ∃ s', stcfTick runqueue (withProcesses (trio.map Job.task)) = .ok s' ∧
    Conserved trio s'.mem := by
  rintro ⟨s', hrun, -, hsum⟩
  have hend : (stcfTick runqueue (withProcesses (trio.map Job.task))).map outcome =
      .ok ([⟨1, 0, 1, 0⟩, ⟨2, 0, 1, 0⟩, ⟨3, 0, 1, 0⟩, ⟨1, 0, 2, 0⟩], []) := by rfl
  rw [hrun] at hend
  obtain ⟨hqueue, hpieces⟩ := Prod.mk.inj (Except.ok.inj hend)
  have hon : (⟨1, 0, 1, 0⟩ : Job) ∈ jobsAt s'.mem (members s'.mem 1) := by simp [hqueue]
  obtain ⟨x, hx, hjob⟩ := List.mem_map.1 hon
  have htime := hsum ⟨1, 0, 2, 0⟩ (by simp [trio]) ⟨x, hx, congrArg Job.pid hjob⟩
  rw [hqueue, hpieces] at htime
  exact absurd htime (by decide)

end OsBasics.Cpu
