/-
  Shortest job first, as a rule.

  The rule starts the shortest job that has arrived whenever the last one ends, and the
  processor may fall idle before that. `k` counts bursts only, so it stays behind the
  time by what the processor has been idle (`lag`). A visit of `sjf_tick` that takes its
  entry can break the rule in three ways: `i == j` lets in an entry that is yet to come,
  or one as long as `i` before those that are shorter by one; and an entry that arrives
  after the loop has looked at it waits for the next look, while longer ones are taken.
  `sjf_greedy_iff`: otherwise the run queue follows the rule.
-/
import OsBasics.Cpu.Complete
import OsBasics.Lib.Service
import OsBasics.Lib.TimeLine

namespace OsBasics.Cpu

open OsBasics.Lib OsBasics.Lists

variable {s : Sim} {src A B : List Nat} {tasks ta tb : List Task} {t t' : Task}
  {jobs queue queue' : List Job} {i j j' k : Int} {it v : SjfVisit} {its : List SjfVisit} {x y : Nat}

/-- The queue follows shortest job first for the workload `jobs`. -/
def ShortestJobFirst (jobs queue : List Job) : Prop :=
  Greedy Job.arr Job.burst Job.burst (earliest Job.arr jobs) jobs queue

/-- When the next job can start, with `queue` done. -/
def nextStart (jobs queue : List Job) : Int :=
  clock Job.arr Job.burst (earliest Job.arr jobs) jobs queue

theorem earliest_nonneg (h : ∀ p ∈ jobs, 0 ≤ p.arr) : 0 ≤ earliest Job.arr jobs := by
  unfold earliest
  cases hmin : (jobs.map Job.arr).min? with
  | none => exact le_rfl
  | some a =>
    obtain ⟨p, hp, rfl⟩ := List.mem_map.1 (List.min?_mem hmin)
    exact h p hp

/-! ## The idle time -/

/-- The most by which the arrival of an entry taken was above `k` when it was taken, or 0. -/
def lag : Int → List Job → Int
  | _, [] => 0
  | k, p :: queue => max (p.arr - k) (lag (k + p.burst) queue)

theorem lag_concat (k : Int) (queue : List Job) (p : Job) :
    lag k (queue ++ [p]) = max (lag k queue) (p.arr - (k + totalBurst queue)) := by
  induction queue generalizing k with
  | nil =>
    rw [List.nil_append, lag, lag, lag, max_comm, show totalBurst [] = 0 from rfl, Int.add_zero]
  | cons r queue ih =>
    rw [List.cons_append, lag, lag, ih, max_assoc, Int.add_assoc,
      show totalBurst (r :: queue) = r.burst + totalBurst queue from List.sum_cons]

/-- The run queue ends when its bursts are over, and `lag` later. -/
theorem finish_eq (queue : List Job) : finish Job.arr Job.burst 0 queue = totalBurst queue + lag 0 queue := by
  induction queue using List.reverseRecOn with
  | nil => rfl
  | append_singleton queue p ih =>
    rw [finish_concat, ih, lag_concat, totalBurst_concat]
    omega

theorem nextStart_eq (harr : ∀ p ∈ jobs, 0 ≤ p.arr) (h : ShortestJobFirst jobs queue) :
    nextStart jobs queue = max (totalBurst queue + lag 0 queue) (earliest Job.arr (jobs.diff queue)) := by
  have hstart : earliest Job.arr jobs = max 0 (earliest Job.arr jobs) :=
    (max_eq_right (earliest_nonneg harr)).symm
  unfold ShortestJobFirst at h
  rw [hstart] at h
  rw [nextStart, hstart, clock_eq h, finish_eq]

/-! ## What a visit sees -/

/-- The last visit to `x`. -/
def lastVisit (its : List SjfVisit) (x : Nat) : Option SjfVisit := its.reverse.find? fun v => v.entry = x

theorem lastVisit_concat (its : List SjfVisit) (it : SjfVisit) (x : Nat) :
    lastVisit (its ++ [it]) x = if it.entry = x then some it else lastVisit its x := by
  unfold lastVisit
  rw [List.reverse_concat, List.find?_cons]
  by_cases hx : it.entry = x <;> simp [hx]

namespace SjfVisit

def task (it : SjfVisit) : Task := it.before.mem.data it.entry

/-- The jobs on the run queue. -/
def served (it : SjfVisit) : List Job := jobsAt it.before.mem (members it.before.mem 1)

/-- `x` is another entry that waits. -/
def waits (it : SjfVisit) (x : Nat) : Prop :=
  x ∈ members it.before.mem 0 ∧ x ≠ it.entry ∧ (it.before.mem.data x).onRq = 0

/-- The entry is taken. -/
def takes (it : SjfVisit) : Prop :=
  it.task.onRq = 0 ∧ letsIn it.i (it.before.j + it.task.burst) it.before.k it.task

/-- The time `k` stands for. -/
def time (it : SjfVisit) : Int := it.before.k + lag 0 it.served

/-- What a visit that takes its entry must find, after the visits `its`. -/
structure Fair (its : List SjfVisit) (it : SjfVisit) : Prop where
  /-- The entry has arrived, or is the first to do so. -/
  arrived : it.task.arr ≤ it.time ∨ ∀ x, it.waits x → it.task.arr ≤ (it.before.mem.data x).arr
  /-- An entry as long as `i` is taken by `i == j`, and nothing shorter by one is there. -/
  counted : it.task.burst = it.i → ∀ x, it.waits x → (it.before.mem.data x).burst = it.i - 1 →
    max it.time it.task.arr < (it.before.mem.data x).arr
  /-- No shorter entry has arrived since the loop looked at it. -/
  seen : ∀ x v, it.waits x → lastVisit its x = some v →
    (it.before.mem.data x).burst < it.task.burst → v.before.k < (it.before.mem.data x).arr →
      max it.time it.task.arr < (it.before.mem.data x).arr

namespace Finds

theorem task_eq (h : it.Finds src ta t tb queue) : it.task = t := by
  obtain ⟨⟨q, hB, -⟩, A, B, rfl, hlen⟩ := h
  have hdata := hB.tasks
  rw [List.map_append, List.map_cons] at hdata
  exact (List.cons.inj (List.append_inj hdata (by simpa using hlen)).2).1

theorem served_eq (h : it.Finds src ta t tb queue) : it.served = queue := by
  obtain ⟨⟨q, hB, -⟩, -⟩ := h
  rw [SjfVisit.served, hB.queue.members, hB.jobs]

theorem k_eq (h : it.Finds src ta t tb queue) : it.before.k = totalBurst queue := by
  obtain ⟨⟨q, -, hk, -⟩, -⟩ := h
  exact hk

theorem time_eq (h : it.Finds src ta t tb queue) : it.time = totalBurst queue + lag 0 queue := by
  rw [SjfVisit.time, h.k_eq, h.served_eq]

end Finds

end SjfVisit

/-! ## The rule -/

/-- What is left is the entry and the others that wait. -/
theorem SjfBooks.left (h : SjfBooks jobs (ta ++ t :: tb) queue) (h0 : t.onRq = 0) :
    (jobs.diff queue).Perm (t.job :: waiting (ta ++ tb)) := by
  have hleft := diff_perm h.perm
  rw [waiting_append, waiting_cons, if_pos h0] at hleft
  rw [waiting_append]
  exact hleft.trans List.perm_middle

/-- When `i` was above the burst of the entry `x`, the loop looked at it, and it had not arrived. -/
def Looked (i : Int) (its : List SjfVisit) (x : Nat) (t : Task) : Prop :=
  t.onRq = 0 → t.burst < i → ∃ v, lastVisit its x = some v ∧ v.before.k < t.arr

theorem Looked.concat (h : Looked i its x t) (hne : it.entry ≠ x) : Looked i (its ++ [it]) x t := by
  unfold Looked
  rw [lastVisit_concat, if_neg hne]
  exact h

/-- A round is at the entries `tb`: it has looked at those before them, and the round before at the
    others. -/
def SjfLooked (src : List Nat) (i : Int) (its : List SjfVisit) (ta tb : List Task) : Prop :=
  ∃ A B, src = A ++ B ∧ List.Forall₂ (Looked i its) A ta ∧ List.Forall₂ (Looked (i - 1) its) B tb

theorem SjfLooked.step (h : SjfLooked src it.i its ta (t :: tb)) (hfinds : it.Finds src ta t tb queue)
    (hs : SjfStep it.i t queue it.before.j t' queue' j') :
    SjfLooked src it.i (its ++ [it]) (ta ++ [t']) tb := by
  obtain ⟨A, B, hsrc, hA, hB⟩ := h
  have hnd : src.Nodup := by
    obtain ⟨⟨q, hB, -⟩, -⟩ := hfinds
    exact (List.nodup_cons.1 hB.source.nodup).2
  obtain ⟨A', B', hsplit, hlen⟩ := hfinds.entry
  cases hB with
  | @cons x _ B _ hx hB =>
    -- the visit is to `x`
    have hhere := hsplit
    rw [hsrc] at hhere
    obtain ⟨rfl, hbehind⟩ := List.append_inj hhere (hA.length_eq.trans hlen.symm)
    obtain ⟨rfl, rfl⟩ := List.cons.inj hbehind
    rw [hsrc, List.nodup_append, List.nodup_cons] at hnd
    obtain ⟨-, ⟨hxB, -⟩, hdis⟩ := hnd
    have hbefore := (List.forall₂_and_left _ _).2
      ⟨fun y hy (he : it.entry = y) => hdis y hy _ List.mem_cons_self he.symm, hA⟩
    have hbehind := (List.forall₂_and_left _ _).2 ⟨fun y hy (he : it.entry = y) => hxB (he ▸ hy), hB⟩
    refine ⟨A ++ [it.entry], B, by rw [hsrc, List.append_assoc]; rfl, List.rel_append ?_ (.cons ?_ .nil), ?_⟩
    · exact hbefore.imp fun y r hr => hr.2.concat hr.1
    · intro h0 hlt
      refine ⟨it, by rw [lastVisit_concat, if_pos rfl], ?_⟩
      rw [hfinds.k_eq]
      cases hs with
      | queued hq => exact absurd h0 hq
      | takes _ _ => exact absurd h0 one_ne_zero
      | waits _ hno =>
        by_contra harr
        exact hno (.inl ⟨hlt, by omega⟩)
    · exact hbehind.imp fun y r hr => hr.2.concat hr.1

/-- The other entries that wait, as jobs. -/
theorem SjfVisit.Finds.mem_waiting (h : it.Finds src ta t tb queue) {r : Job} :
    r ∈ waiting (ta ++ tb) ↔ ∃ x, it.waits x ∧ (it.before.mem.data x).job = r := by
  obtain ⟨⟨q, hB, -⟩, A, B, rfl, hlen⟩ := h
  have hdata := hB.tasks
  rw [List.map_append, List.map_cons] at hdata
  obtain ⟨rfl, hrest⟩ := List.append_inj hdata (by simpa using hlen)
  obtain ⟨-, rfl⟩ := List.cons.inj hrest
  have hnd := (List.nodup_cons.1 hB.source.nodup).2
  rw [List.nodup_append, List.nodup_cons] at hnd
  obtain ⟨-, ⟨hxB, -⟩, hdis⟩ := hnd
  have hother : ∀ x, x ∈ A ++ B ↔ x ∈ A ++ it.entry :: B ∧ x ≠ it.entry := fun x => by
    by_cases hx : x = it.entry
    · rw [hx]
      exact iff_of_false (fun hm => (List.mem_append.1 hm).elim
        (fun hA => hdis _ hA _ List.mem_cons_self rfl) hxB) fun h => h.2 rfl
    · simp [hx]
  unfold SjfVisit.waits waiting
  rw [hB.source.members, ← List.map_append]
  simp only [List.mem_map, List.mem_filter, decide_eq_true_eq, ← and_assoc, ← hother]
  constructor
  · rintro ⟨t, ⟨⟨x, hx, rfl⟩, h0⟩, rfl⟩
    exact ⟨x, ⟨hx, h0⟩, rfl⟩
  · rintro ⟨x, ⟨hx, h0⟩, rfl⟩
    exact ⟨_, ⟨⟨x, hx, rfl⟩, h0⟩, rfl⟩

/-- The loop has looked at an entry that waits, unless its burst is the one before `i` and its turn is
    still to come. -/
theorem SjfLooked.waits (h : SjfLooked src it.i its ta (t :: tb)) (hfinds : it.Finds src ta t tb queue)
    (hx : it.waits x) (hlt : (it.before.mem.data x).burst < it.i) :
    (∃ v, lastVisit its x = some v ∧ v.before.k < (it.before.mem.data x).arr) ∨
      (it.before.mem.data x).burst = it.i - 1 := by
  obtain ⟨A, B, rfl, hA, hB⟩ := h
  obtain ⟨q, hboard, -⟩ := hfinds.lists
  obtain ⟨hmem, -, h0⟩ := hx
  rw [hboard.source.members] at hmem
  have hdata := hboard.tasks
  rw [List.map_append] at hdata
  obtain ⟨rfl, hrest⟩ := List.append_inj hdata (by simpa using hA.length_eq)
  rw [← hrest] at hB
  have hsame : ∀ {i l}, List.Forall₂ (Looked i its) l (l.map it.before.mem.data) →
      ∀ y ∈ l, Looked i its y (it.before.mem.data y) := fun hl => by
    rwa [List.forall₂_map_right_iff, List.forall₂_same] at hl
  obtain hxA | hxB := List.mem_append.1 hmem
  · exact .inl (hsame hA x hxA h0 hlt)
  · by_cases hlast : (it.before.mem.data x).burst = it.i - 1
    · exact .inr hlast
    · exact .inl (hsame hB x hxB h0 (by omega))

theorem letsIn.burst_le {i j k : Int} {t : Task} (h : letsIn i (j + t.burst) k t) (hj : 0 ≤ j) :
    t.burst ≤ i := by
  obtain ⟨hlt, -⟩ | ⟨hij, -⟩ := h
  · exact hlt.le
  · omega

/-- While the rule is kept, a visit that takes its entry is fair exactly when the entry is the next by
    the rule. -/
theorem SjfBooks.fair_iff (h : SjfBooks jobs (ta ++ t :: tb) queue)
    (hfinds : it.Finds src ta t tb queue) (hlooked : SjfLooked src it.i its ta (t :: tb))
    (harr : ∀ p ∈ jobs, 0 ≤ p.arr) (hj : 0 ≤ it.before.j) (h0 : t.onRq = 0)
    (hin : letsIn it.i (it.before.j + t.burst) (totalBurst queue) t)
    (hrule : ShortestJobFirst jobs queue) :
    it.Fair its ↔ Picks Job.arr Job.burst (nextStart jobs queue) (jobs.diff queue) t.job := by
  have hleft := h.left h0
  have htask := hfinds.task_eq
  have hburst := hin.burst_le hj
  have hothers : ∀ x, it.waits x → (it.before.mem.data x).job ∈ waiting (ta ++ tb) := fun x hx =>
    hfinds.mem_waiting.2 ⟨x, hx, rfl⟩
  have hfirst : ∀ r ∈ t.job :: waiting (ta ++ tb), earliest Job.arr (jobs.diff queue) ≤ r.arr :=
    fun r hr => earliest_le (hleft.symm.subset hr)
  have hnow : earliest Job.arr (jobs.diff queue) ≤ t.arr := hfirst _ List.mem_cons_self
  rw [Picks.congr hleft, nextStart_eq harr hrule, ← hfinds.time_eq]
  constructor
  · rintro ⟨harrived, hcounted, hseen⟩
    rw [htask] at harrived hcounted hseen
    refine ⟨List.mem_cons_self, ?_, fun r hr hcome => ?_⟩
    · rw [Task.job_arr]
      obtain hcome | hall := harrived
      · exact hcome.trans (le_max_left _ _)
      · refine le_max_of_le_right (le_earliest (fun hnil => ?_) fun r hr => ?_)
        · rw [hnil] at hleft
          exact List.not_mem_nil (hleft.symm.subset List.mem_cons_self)
        · obtain rfl | hr := List.mem_cons.1 (hleft.subset hr)
          · exact le_rfl
          · obtain ⟨x, hx, rfl⟩ := hfinds.mem_waiting.1 hr
            exact hall x hx
    · obtain rfl | hr := List.mem_cons.1 hr
      · exact le_rfl
      · obtain ⟨x, hx, rfl⟩ := hfinds.mem_waiting.1 hr
        by_contra hshorter
        rw [Task.job_burst, Task.job_burst, not_le] at hshorter
        rw [Task.job_arr] at hcome
        -- it would have come by then
        have hlate : max it.time t.arr < (it.before.mem.data x).arr := by
          obtain ⟨v, hv, hk⟩ | hlast := hlooked.waits hfinds hx (by omega)
          · exact hseen x v hx hv hshorter hk
          · exact hcounted (by omega) x hx hlast
        exact absurd (hcome.trans (max_le_max le_rfl hnow)) (not_le.2 hlate)
  · rintro ⟨-, hcome, hleast⟩
    rw [Task.job_arr] at hcome
    have hlate : ∀ x, it.waits x → (it.before.mem.data x).burst < t.burst →
        max it.time t.arr < (it.before.mem.data x).arr := fun x hx hshorter => by
      by_contra hle
      rw [not_lt] at hle
      exact absurd (hleast _ (List.mem_cons_of_mem _ (hothers x hx))
        (hle.trans (max_le (le_max_left _ _) hcome))) (not_le.2 hshorter)
    refine ⟨?_, fun hi x hx hlast => ?_, fun x v hx _ hshorter _ => ?_⟩
    · rw [htask]
      obtain hcome | hcome := le_max_iff.1 hcome
      · exact .inl hcome
      · exact .inr fun x hx => hcome.trans (hfirst _ (List.mem_cons_of_mem _ (hothers x hx)))
    · rw [htask] at hi ⊢
      exact hlate x hx (by omega)
    · rw [htask] at hshorter ⊢
      exact hlate x hx hshorter

/-! ## The run -/

/-- Every visit that takes its entry is fair. -/
def SjfFair (its : List SjfVisit) : Prop :=
  ∀ before it after, its = before ++ it :: after → it.takes → it.Fair before

/-- So far the visits were fair exactly when the run queue follows the rule. -/
def SjfSoFar (jobs : List Job) (its : List SjfVisit) (tasks : List Task) (queue : List Job) : Prop :=
  SjfBooks jobs tasks queue ∧ (SjfFair its ↔ ShortestJobFirst jobs queue)

/-- A visit keeps it. -/
theorem SjfSoFar.step (h : SjfSoFar jobs its (ta ++ t :: tb) queue)
    (hfinds : it.Finds src ta t tb queue) (hlooked : SjfLooked src it.i its ta (t :: tb))
    (harr : ∀ p ∈ jobs, 0 ≤ p.arr) (hj : 0 ≤ it.before.j)
    (hs : SjfStep it.i t queue it.before.j t' queue' j') :
    SjfSoFar jobs (its ++ [it]) (ta ++ t' :: tb) queue' := by
  obtain ⟨hbooks, hiff⟩ := h
  refine ⟨hbooks.step hs, ?_⟩
  have htakes : it.takes ↔ t.onRq = 0 ∧ letsIn it.i (it.before.j + t.burst) (totalBurst queue) t := by
    rw [SjfVisit.takes, hfinds.task_eq, hfinds.k_eq]
  refine (forall_split_concat (P := fun before (it : SjfVisit) _ => it.takes → it.Fair before)).trans ?_
  change (SjfFair its ∧ _) ↔ _
  rw [hiff]
  cases hs with
  | queued h0 => exact and_iff_left fun hin => absurd (htakes.1 hin).1 h0
  | waits h0 hno => exact and_iff_left fun hin => absurd (htakes.1 hin).2 hno
  | takes h0 hin =>
    unfold ShortestJobFirst
    rw [greedy_concat, ← nextStart]
    refine and_congr_right fun hrule => ?_
    rw [← hbooks.fair_iff hfinds hlooked harr hj h0 hin hrule]
    exact ⟨fun hfair => hfair (htakes.2 ⟨h0, hin⟩), fun hfair _ => hfair⟩

end OsBasics.Cpu
