/-
  What still waits when `stcf_tick` ends.

  An entry that its last visit does not let in is as long as any, or arrives after `k`
  (`leftBehind_of_waits`). So in the last round only the copies made behind it can be
  too long: `Sweep.leftBehind_iff` reads `LeftBehind` off these copies, and `Ends.leftBehind_iff`
  off the run. `Whole` is what a run without splits keeps: everything is in the run queue or waits.
-/
import OsBasics.Cpu.Timeline

namespace OsBasics.Cpu

open OsBasics.Lists

variable {s : Sim} {src : List Nat} {tasks ta tb td tr es : List Task} {t : Task}
  {jobs queue queue' left : List Job} {b b' : Stage} {i last k k' : Int} {x : Nat} {returned : Bool}
  {its : List Iteration} {a c : Snapshot}

/-! ## Everything is there -/

/-- In a run without splits every job is in the run queue or waits, and is counted. -/
structure Whole (jobs : List Job) (tasks : List Task) (b : Stage) : Prop where
  perm : (b.queue ++ waiting tasks).Perm jobs
  added : b.processAdded = b.queue.length
  processes : b.processes = jobs.length

theorem Whole.step (h : Whole jobs (ta ++ t :: tb) b) (hs : StcfStep i t b es b' returned)
    (hno : ¬ b.splits i t) : Whole jobs (ta ++ es ++ tb) b' := by
  cases hs with
  | queued h0 =>
    rw [List.append_assoc, List.singleton_append]
    exact h
  | waits h0 hin =>
    rw [List.append_assoc, List.singleton_append]
    exact ⟨h.perm, h.added, h.processes⟩
  | appends h0 hin hnone =>
    refine ⟨?_, ?_, h.processes⟩
    · dsimp only [Stage.take]
      rw [List.append_assoc]
      exact ((perm_waiting h0).append_left _).trans h.perm
    · dsimp only [Stage.take]
      rw [h.added, List.length_append]
      rfl
  | @returns h0 hin ahead behind p hq hahead hp hlast =>
    have hqueue : (ahead ++ p :: t.job :: behind).Perm (b.queue ++ [t.job]) := by
      rw [hq]
      exact (perm_behind _ _ _ _).trans (List.perm_append_singleton _ _).symm
    refine ⟨?_, ?_, h.processes⟩
    · refine ((hqueue.append_right _).trans ?_).trans h.perm
      rw [List.append_assoc]
      exact (perm_waiting h0).append_left _
    · dsimp only [Stage.take]
      rw [hqueue.length_eq, h.added, List.length_append]
      rfl
  | @splits h0 hin ahead behind p hq hahead hp hmore =>
    exact absurd ⟨⟨⟨h0, hin⟩, p, by simp [hq], hp⟩, hmore⟩ hno

theorem Whole.restart (h : Whole jobs tasks b) : Whole jobs tasks { b with j := 0 } :=
  ⟨h.perm, h.added, h.processes⟩

/-- After a return nothing waits. -/
theorem Whole.none_waits (h : Whole jobs (ta ++ es ++ tb) b') (hs : StcfStep i t b es b' true) :
    waiting (ta ++ es ++ tb) = [] := by
  have hall : b'.processAdded = b'.processes := by
    generalize hr : true = returned at hs
    cases hs with
    | queued h0 => cases hr
    | waits h0 hin => cases hr
    | appends h0 hin hnone => exact of_decide_eq_true hr.symm
    | returns h0 hin hq hahead hp hlast => exact hlast
    | splits h0 hin hq hahead hp hmore => cases hr
  have hlen := h.perm.length_eq
  have hadded := h.added
  have hprocesses := h.processes
  rw [List.length_append] at hlen
  exact List.eq_nil_of_length_eq_zero (by omega)

/-- Where nothing waits nothing waits later. -/
theorem StcfStep.none_waits (hs : StcfStep i t b es b' returned) (h : waiting (ta ++ t :: tb) = []) :
    waiting (ta ++ es ++ tb) = [] := by
  obtain ⟨rfl, -⟩ := hs.idle (onRq_of_none_waits h)
  rwa [List.append_assoc, List.singleton_append]

/-- In a run without splits everything is there, and after a return nothing waits. -/
theorem kept_whole (jobs : List Job) : Kept fun its a => (∀ it ∈ its, ¬ it.splits) →
    Whole jobs a.tasks a.stage ∧ ((∃ it ∈ its, it.returned = true) → waiting a.tasks = []) where
  restart its a h hno := ⟨(h hno).1.restart, (h hno).2⟩
  visit its i x a c returned A B A' ta tb es t h hs hno := by
    obtain ⟨hwhole, hnone⟩ := h fun it hit => hno it (List.mem_append_left _ hit)
    have hit := hs.isOf
    have hstep := hno _ (List.mem_append_right _ List.mem_cons_self)
    rw [hit.splits] at hstep
    rw [hs.tasks] at hwhole hnone
    rw [hs.tasks']
    have hafter := hwhole.step hs.step hstep
    refine ⟨hafter, ?_⟩
    rintro ⟨v, hv, hret⟩
    obtain hv | hv := List.mem_append.1 hv
    · exact hs.step.none_waits (hnone ⟨v, hv, hret⟩)
    · rw [List.mem_singleton.1 hv] at hret
      obtain rfl : returned = true := hret
      exact hafter.none_waits hs.step

/-! ## The last round -/

/-- What waits in front of the entry in the source list. -/
def Iteration.inFront (it : Iteration) : List Job :=
  waiting (((members it.before.mem 0).takeWhile fun x => x ≠ it.entry).map it.before.mem.data)

/-- What waits in front of an entry that is copied is as long as it and all on the run queue, or could not
    be over before it is. -/
def Iteration.LeavesBehind (it : Iteration) : Prop :=
  it.copies → LeftBehind (it.before.k + it.task.burst) (it.before.stage.queue ++ [it.task.job]) it.inFront

theorem Snapshot.Step.inFront {A B A' : List Nat} (hs : Snapshot.Step i x a c returned A B A' ta tb es t) :
    (Iteration.mk i x a.st c.st returned).inFront = waiting ta := by
  have hholds := a.holds
  rw [hs.src, hs.tasks] at hholds
  have hx : x ∉ A := fun hm => by
    have hnd := (List.nodup_cons.1 hholds.source.nodup).2
    exact (List.disjoint_of_nodup_append hnd) hm List.mem_cons_self
  have hfront : (A ++ x :: B).takeWhile (fun y => y ≠ x) = A := by
    rw [List.takeWhile_append_of_pos fun y hy => decide_eq_true (ne_of_mem_of_not_mem hy hx)]
    simp
  unfold Iteration.inFront
  dsimp only
  rw [hholds.source.members, hfront, (hholds.tasks_split hs.length).1]

theorem LeftBehind.mono (h : LeftBehind k' queue' left) (hk : k ≤ k') (hqueue : queue ⊆ queue') :
    LeftBehind k queue left := by
  intro r hr
  obtain hle | hlt := h r hr
  · exact .inl fun p hp => hle p (hqueue hp)
  · exact .inr (by omega)

/-- What the last round does not let in is as long as all on the run queue, or arrives too late. -/
theorem leftBehind_of_waits (h : Whole jobs (ta ++ t :: tb) b) (hburst : ∀ p ∈ jobs, 1 ≤ p.burst)
    (hlast : last = totalBurst jobs - 1) (h0 : t.onRq = 0) (hno : ¬ letsIn last (b.j + t.burst) b.k t) :
    LeftBehind b.k b.queue [t.job] := by
  intro r hr
  rw [List.mem_singleton.1 hr, Task.job_burst, Task.job_arr]
  have hperm : (t.job :: (b.queue ++ (waiting ta ++ waiting tb))).Perm jobs := by
    refine List.Perm.trans ?_ h.perm
    rw [waiting_append, waiting_cons, if_pos h0, ← List.append_assoc, ← List.append_assoc]
    exact List.perm_middle.symm
  have hsum := totalBurst_perm hperm
  rw [← List.singleton_append, totalBurst_append, totalBurst_append] at hsum
  have hpos : ∀ p ∈ t.job :: (b.queue ++ (waiting ta ++ waiting tb)), 1 ≤ p.burst :=
    fun p hp => hburst p (hperm.subset hp)
  by_cases hlong : t.burst < last
  · refine .inr ?_
    have hburst := hpos t.job List.mem_cons_self
    have hlate : b.k < t.arr := not_le.1 fun hle => hno (.inl ⟨hlong, hle⟩)
    rw [Task.job_burst] at hburst
    omega
  · -- the others have one slot together
    refine .inl fun p hp => ?_
    obtain ⟨l, l', hl⟩ := List.append_of_mem hp
    have hrest : 0 ≤ totalBurst (waiting ta ++ waiting tb) := totalBurst_nonneg fun p hp => by
      have := hpos p (by simp only [List.mem_cons, List.mem_append] at hp ⊢; tauto)
      omega
    have hl0 : 0 ≤ totalBurst l := totalBurst_nonneg fun p hp => by
      have := hpos p (by simp [hl, hp])
      omega
    have hl0' : 0 ≤ totalBurst l' := totalBurst_nonneg fun p hp => by
      have := hpos p (by simp [hl, hp])
      omega
    have ht := hpos t.job List.mem_cons_self
    rw [hl, totalBurst_append, show totalBurst (p :: l') = p.burst + totalBurst l' from List.sum_cons,
      show totalBurst [t.job] = t.burst by simp [totalBurst]] at hsum
    rw [Task.job_burst] at ht
    omega

theorem leftBehind_append {left' : List Job} :
    LeftBehind k queue (left ++ left') ↔ LeftBehind k queue left ∧ LeftBehind k queue left' := by
  simp only [LeftBehind, List.mem_append, or_imp, forall_and]

theorem leftBehind_nil : LeftBehind k queue [] := fun _ hr => absurd hr List.not_mem_nil

section Round

variable (hburst : ∀ p ∈ jobs, 1 ≤ p.burst) (hlast : last = totalBurst jobs - 1)

include hburst hlast

/-- A visit of the last round: what is gone through then, and what was gone through before. -/
theorem Whole.leftBehind_step (h : Whole jobs (ta ++ t :: tb) b) (hs : StcfStep last t b es b' returned)
    (hno : ¬ b.splits last t) : LeftBehind b'.k b'.queue (waiting (ta ++ es)) ↔
      LeftBehind b.k b.queue (waiting ta) ∧
        (b.copies last t → LeftBehind (b.k + t.burst) (b.queue ++ [t.job]) (waiting ta)) := by
  have hafter := h.step hs hno
  have htaken : waiting (ta ++ [t.taken]) = waiting ta := by simp [waiting, Task.taken]
  cases hs with
  | queued h0 =>
    rw [waiting_append, waiting_cons, if_neg h0, waiting_nil, List.append_nil]
    exact (and_iff_left fun hc => absurd hc.1 h0).symm
  | waits h0 hin =>
    have hlate : LeftBehind b.k b.queue [t.job] := leftBehind_of_waits h hburst hlast h0 hin
    rw [waiting_append, waiting_cons, if_pos h0, waiting_nil, leftBehind_append]
    exact and_congr_right fun _ => iff_of_true hlate fun hc => absurd hc.2 hin
  | appends h0 hin hnone =>
    rw [htaken]
    constructor
    · intro hleft
      have ht : 1 ≤ t.burst := hburst t.job (h.perm.subset (by
        rw [waiting_append, waiting_cons, if_pos h0]
        simp))
      refine ⟨hleft.mono ?_ (List.subset_append_left _ _), fun _ => hleft⟩
      dsimp only [Stage.take]
      omega
    · exact fun hleft => hleft.2 ⟨h0, hin⟩
  | returns h0 hin hq hahead hp hmany =>
    have hnone := hafter.none_waits (.returns h0 hin hq hahead hp hmany)
    rw [waiting_append, htaken, List.append_eq_nil_iff] at hnone
    rw [htaken, hnone.1]
    exact iff_of_true leftBehind_nil ⟨leftBehind_nil, fun _ => leftBehind_nil⟩
  | @splits h0 hin ahead behind p hq hahead hp hmore =>
    exact absurd ⟨⟨⟨h0, hin⟩, p, by simp [hq], hp⟩, hmore⟩ hno

/-- Of what the last round has gone through only copies can leave a shorter entry behind. -/
theorem Sweep.leftBehind_iff (h : Sweep last a its td tr c) (hwhole : Whole jobs a.tasks a.stage)
    (hno : ∀ it ∈ its, ¬ it.splits) : Whole jobs c.tasks c.stage ∧
      (LeftBehind c.stage.k c.stage.queue (waiting td) ↔ ∀ it ∈ its, it.LeavesBehind) := by
  induction h with
  | start => exact ⟨hwhole.restart, iff_of_true leftBehind_nil (by simp)⟩
  | @visit its td tr es t c c' x returned A B A' h hs ih =>
    obtain ⟨hW, hiff⟩ := ih fun it hit => hno it (List.mem_append_left _ hit)
    have hstep := hno _ (List.mem_append_right _ List.mem_cons_self)
    have hit := hs.isOf
    have hfront := hs.inFront
    generalize Iteration.mk last x c.st c'.st returned = it at hstep hit hfront
    rw [hit.splits] at hstep
    rw [hs.tasks] at hW
    have hk : it.before.k = c.stage.k := congrArg Stage.k hit.stage
    have hall : (∀ v ∈ its ++ [it], v.LeavesBehind) ↔
        (∀ v ∈ its, v.LeavesBehind) ∧ it.LeavesBehind := by
      simp only [List.mem_append, List.mem_singleton, or_imp, forall_and, forall_eq]
    rw [hall, ← hiff, hs.tasks', Iteration.LeavesBehind, hit.copies, hk, hit.stage, hit.task, hfront]
    exact ⟨hW.step hs.step hstep, hW.leftBehind_step hburst hlast hs.step hstep⟩

/-- What is left behind when the run ends. -/
theorem Ends.leftBehind_iff {K : List Iteration → Snapshot → Prop} (h : Ends last K its c)
    (hK : ∀ its a, K its a → (∀ it ∈ its, ¬ it.splits) → Whole jobs a.tasks a.stage)
    (hnone : (∃ it ∈ its, it.returned = true) → waiting c.tasks = []) (hno : ∀ it ∈ its, ¬ it.splits) :
    LeftBehind c.stage.k c.stage.queue (waiting c.tasks) ↔
      ∀ it ∈ its, it.i = last → it.LeavesBehind := by
  cases h with
  | early hbefore hreturned =>
    rw [hnone hreturned]
    refine iff_of_true leftBehind_nil fun it hit hi => ?_
    have := hbefore it hit
    omega
  | @last its₁ its₂ a td tr hits hbefore hkept hsweep hend =>
    subst hits
    have hno₂ : ∀ it ∈ its₂, ¬ it.splits := fun it hit => hno it (List.mem_append_right _ hit)
    obtain ⟨-, hiff⟩ := hsweep.leftBehind_iff hburst hlast
      (hK its₁ a hkept fun it hit => hno it (List.mem_append_left _ hit)) hno₂
    have hwait : waiting c.tasks = waiting td := by
      rw [hsweep.tasks_eq, waiting_append]
      obtain rfl | ⟨it, hit, hret⟩ := hend
      · rw [waiting_nil, List.append_nil]
      · have hnil := hnone ⟨it, List.mem_append_right _ hit, hret⟩
        rw [hsweep.tasks_eq, waiting_append, List.append_eq_nil_iff] at hnil
        rw [hnil.1, hnil.2]
        rfl
    rw [hwait, hiff]
    constructor
    · intro hall it hit hi
      obtain hit | hit := List.mem_append.1 hit
      · have := hbefore it hit
        omega
      · exact hall it hit
    · exact fun hall it hit => hall it (List.mem_append_right _ hit) (hsweep.round it hit)

end Round

/-! ## The run -/

theorem Loaded.whole (h : Loaded s (jobs.map Job.task) src) : Whole jobs h.snapshot.tasks h.snapshot.stage :=
  ⟨List.Perm.of_eq (waiting_map_task jobs), rfl, by simp [Loaded.snapshot]⟩

/-- There is a run, with what it keeps, and without splits its last round tells what is left behind. -/
theorem Loaded.stcf_run_left (h : Loaded s (jobs.map Job.task) src) (hburst : ∀ p ∈ jobs, 1 ≤ p.burst)
    {K : List Iteration → Snapshot → Prop} (hK : Kept K) (h₀ : K [] h.snapshot) :
    ∃ c log, rounds (stcfPass runqueue) s.span.toNat 0 (Stcf.init s) = .ok c.st ∧
      Passes 0 s.span.toNat (Stcf.init s) log c.st ∧ K log.flatten c ∧
      ((∀ it ∈ log.flatten, ¬ it.splits) → (LeftBehind c.stage.k c.stage.queue (waiting c.tasks) ↔
        ∀ it ∈ log.flatten, it.i = s.span - 1 → it.LeavesBehind)) := by
  have hspan : s.span = totalBurst jobs := by
    rw [h.span, map_task_job]
  have hpos := length_le_totalBurst hburst
  cases hn : s.span.toNat with
  | zero =>
    obtain rfl : jobs = [] := List.eq_nil_of_length_eq_zero (by omega)
    exact ⟨h.snapshot, [], rfl, .done, h₀, fun _ => iff_of_true leftBehind_nil (by simp)⟩
  | succ n =>
    have hwhole₀ : (∀ it ∈ ([] : List Iteration), ¬ it.splits) →
        Whole jobs h.snapshot.tasks h.snapshot.stage ∧
          ((∃ it ∈ ([] : List Iteration), it.returned = true) → waiting h.snapshot.tasks = []) :=
      fun _ => ⟨h.whole, by simp⟩
    obtain ⟨c, log, hrun, hlog, ⟨hkept, hwhole⟩, hends⟩ :=
      stcf_run_last (hK.and (kept_whole jobs)) ⟨h₀, hwhole₀⟩ rfl n 0 (by simp)
    rw [List.nil_append] at hkept hwhole hends
    rw [show (0 : Int) + n = s.span - 1 by omega] at hends
    refine ⟨c, log, hrun, hlog, hkept, fun hno => ?_⟩
    exact hends.leftBehind_iff hburst (by rw [hspan]) (fun its a hKs hnos => (hKs.2 hnos).1)
      (hwhole hno).2 hno

end OsBasics.Cpu
