/-
  Shortest time to completion first, with all visits.

  A visit that breaks an entry `p` lets it have `entry->arr + 1` slots and puts `entry`
  behind it, whose process is there by then. If the process of `p` still needs time, then
  either the last slot of `p` or the first of `entry` is against the rule
  (`Cut.not_shortest`), and no later copy comes between them. `stcf_shortest_iff` puts
  this together with the runs in which nothing is broken.
-/
import OsBasics.Cpu.Leftover

namespace OsBasics.Cpu

open OsBasics.Lib OsBasics.Lists

variable {s : Sim} {src : List Nat} {tasks ta tb es : List Task} {t : Task} {p : Job}
  {jobs queue : List Job} {b b' : Stage} {i : Int} {x : Nat} {returned : Bool}
  {its : List Iteration} {it w : Iteration}

/-! ## An entry that is cut -/

/-- The entry `p` was cut for `e`: it has as many slots as `e->arr + 1`, and those of its process up to
    there are not all it needs. -/
structure CutAt (jobs queue l : List Job) (p : Job) (mid : List Job) (e : Job) (l' : List Job) : Prop where
  queue : queue = l ++ p :: (mid ++ e :: l')
  burst : p.burst = e.arr + 1
  mem : e ∈ jobs
  arr : 0 ≤ e.arr
  first : ∀ q ∈ l ++ p :: mid, q.pid ≠ e.pid
  between : ∀ q ∈ mid, q.pid ≠ p.pid
  short : ∀ c ∈ jobs, c.pid = p.pid → ((slots l).count p.pid : Int) + p.burst < c.burst

/-- An entry of the run queue was cut. -/
def Cut (jobs queue : List Job) : Prop :=
  ∃ l p mid e l', CutAt jobs queue l p mid e l'

section CutAt

variable {l mid l' : List Job} {e : Job}

/-- The last slot of what is left of `p`, and the first slot of `e`. -/
theorem CutAt.slots_eq (h : CutAt jobs queue l p mid e l') (he : 1 ≤ e.burst) :
    slots (l ++ p :: mid) = (slots l ++ List.replicate e.arr.toNat p.pid) ++ p.pid :: slots mid ∧
    slots queue = (slots l ++ List.replicate e.arr.toNat p.pid) ++ p.pid :: slots (mid ++ e :: l') ∧
    slots queue = slots (l ++ p :: mid) ++ e.pid :: slots ({ e with burst := e.burst - 1 } :: l') := by
  have harr := h.arr
  have hsize : p.burst.toNat = e.arr.toNat + 1 := by
    rw [h.burst]
    omega
  have hlast (more : List Job) : slots (l ++ p :: more) =
      (slots l ++ List.replicate e.arr.toNat p.pid) ++ p.pid :: slots more := by
    have hat : slots (l ++ p :: more) = (slots l ++ List.replicate e.arr.toNat p.pid) ++
        p.pid :: (List.replicate (p.burst.toNat - e.arr.toNat - 1) p.pid ++ slots more) :=
      timeLine_at l more (by show e.arr.toNat < p.burst.toNat; omega)
    rw [hsize, Nat.add_sub_cancel_left, Nat.sub_self, List.replicate_zero, List.nil_append] at hat
    exact hat
  refine ⟨hlast mid, by rw [h.queue]; exact hlast _, ?_⟩
  have hfirst : List.replicate e.burst.toNat e.pid =
      e.pid :: List.replicate (e.burst - 1).toNat e.pid := by
    rw [show e.burst.toNat = (e.burst - 1).toNat + 1 by omega]
    rfl
  rw [h.queue, show l ++ p :: (mid ++ e :: l') = (l ++ p :: mid) ++ e :: l' by simp, slots,
    timeLine_append, timeLine_cons, hfirst]
  rfl

/-- The process of `e` has had nothing. -/
theorem CutAt.count_first (h : CutAt jobs queue l p mid e l') : (slots (l ++ p :: mid)).count e.pid = 0 :=
  count_timeLine_of_notMem fun hm => by
    obtain ⟨q, hq, hqe⟩ := List.mem_map.1 hm
    exact h.first q hq hqe

/-- That of `p` has had `e->arr + 1` slots and those in front of `p`. -/
theorem CutAt.count_cut (h : CutAt jobs queue l p mid e l') :
    (slots (l ++ p :: mid)).count p.pid = (slots l).count p.pid + (e.arr + 1).toNat := by
  have hmid : (slots mid).count p.pid = 0 := count_timeLine_of_notMem fun hm => by
    obtain ⟨q, hq, hqp⟩ := List.mem_map.1 hm
    exact h.between q hq hqp
  unfold slots at hmid ⊢
  rw [timeLine_append, timeLine_cons, List.count_append, List.count_append, List.count_replicate_self,
    hmid, h.burst, Nat.add_zero]

/-- A run queue with an entry that was cut is against the rule. -/
theorem CutAt.not_shortest (h : CutAt jobs queue l p mid e l') (hnd : (jobs.map Job.pid).Nodup)
    (hburst : ∀ q ∈ jobs, 1 ≤ q.burst) : ¬ ShortestFirst jobs (slots queue) := by
  intro hrule
  have he := hburst e h.mem
  have harr := h.arr
  have hpe : p.pid ≠ e.pid := h.first p (by simp)
  have hnone := h.count_first
  have hhad := h.count_cut
  obtain ⟨hcut, hlast, hfirst⟩ := h.slots_eq he
  obtain ⟨c, hc, hcp, hcarr, hleast⟩ := hrule _ _ _ hlast
  obtain ⟨e', he', hepid, -, hleast'⟩ := hrule _ _ _ hfirst
  obtain rfl : e' = e := List.inj_on_of_nodup_map hnd he' h.mem hepid
  have hshort := h.short c hc hcp
  rw [h.burst] at hshort
  have hlen : e'.arr ≤ (slots l ++ List.replicate e'.arr.toNat p.pid).length := by
    rw [List.length_append, List.length_replicate]
    omega
  -- in the last slot of `p` its process needs one slot more than behind it, and that of `e` is there
  generalize slots l ++ List.replicate e'.arr.toNat p.pid = S at hcut hlast hcarr hleast hlen
  have hnoneS : S.count e'.pid = 0 := by
    rw [hcut, List.count_append] at hnone
    omega
  have hbefore := hleast e' h.mem hpe.symm (by omega) (by rw [remaining, hnoneS]; omega)
  have hafter := hleast' c hc (hcp ▸ hpe) (by rw [hcut, List.length_append]; push_cast; omega)
    (by rw [remaining, hcp, hhad]; omega)
  have hone : (slots (l ++ p :: mid)).count p.pid ≥ S.count p.pid + 1 := by
    rw [hcut, List.count_append, List.count_cons_self]
    omega
  rw [remaining, remaining, hnone, hcp] at hafter
  rw [remaining, remaining, hnoneS, hcp] at hbefore
  omega

end CutAt

theorem Cut.not_shortest (h : Cut jobs queue) (hnd : (jobs.map Job.pid).Nodup)
    (hburst : ∀ q ∈ jobs, 1 ≤ q.burst) : ¬ ShortestFirst jobs (slots queue) := by
  obtain ⟨l, p, mid, e, l', h⟩ := h
  exact h.not_shortest hnd hburst

/-! ## Later copies -/

section Later

variable {A B : List Job} {q : Job}

/-- A copy at the end. -/
theorem Cut.append (h : Cut jobs queue) (q : Job) : Cut jobs (queue ++ [q]) := by
  obtain ⟨l, p, mid, e, l', h⟩ := h
  exact ⟨l, p, mid, e, l' ++ [q], { h with queue := by rw [h.queue]; simp }⟩

/-- A copy of a process that has none may go anywhere. -/
theorem Cut.insert (h : Cut jobs (A ++ B)) (hq : ∀ c ∈ A ++ B, c.pid ≠ q.pid) :
    Cut jobs (A ++ q :: B) := by
  obtain ⟨l, p, mid, e, l', h⟩ := h
  have hp : p.pid ≠ q.pid := hq p (by simp [h.queue])
  have he : e.pid ≠ q.pid := hq e (by simp [h.queue])
  obtain ⟨l₁, hl, hqueue⟩ | ⟨A₁, rfl, hA₁⟩ := split_insert h.queue q
  · refine ⟨l₁, p, mid, e, l', { h with queue := hqueue, first := fun c hc => ?_, short := ?_ }⟩
    · obtain rfl | hc := List.mem_cons.1 ((hl.append_right _).subset hc)
      · exact he.symm
      · exact h.first c hc
    · have hcount : (slots l₁).count p.pid = (slots l).count p.pid := by
        rw [slots, (timeLine_perm hl).count_eq, timeLine_cons, List.count_append, List.count_replicate,
          if_neg (by simpa using hp.symm), Nat.zero_add]
        rfl
      rw [hcount]
      exact h.short
  obtain ⟨mid₁, hmid, hqueue⟩ | ⟨A₂, rfl, rfl⟩ := split_insert hA₁ q
  · have hmem : ∀ c, c ∈ mid₁ ↔ c = q ∨ c ∈ mid := fun c => hmid.mem_iff.trans List.mem_cons
    refine ⟨l, p, mid₁, e, l', { h with
      queue := by simp [hqueue], first := fun c hc => ?_, between := fun c hc => ?_ }⟩
    · obtain rfl | hc : c = q ∨ c ∈ l ++ p :: mid := by
        simp only [List.mem_append, List.mem_cons, hmem] at hc ⊢
        tauto
      · exact he.symm
      · exact h.first c hc
    · obtain rfl | hc := (hmem c).1 hc
      · exact hp.symm
      · exact h.between c hc
  · exact ⟨l, p, mid, e, A₂ ++ q :: B, { h with queue := by simp }⟩

end Later

/-! ## Visits -/

/-- The process of the first entry `p` that `t` preempts needs more than the slots it has in front of `p`
    and the `t->arr + 1` that `p` would keep. -/
def Stage.shortens (jobs : List Job) (b : Stage) (t : Task) : Prop :=
  ∀ ahead p behind, b.queue = ahead ++ p :: behind → (∀ r ∈ ahead, ¬ preempts t r) → preempts t p →
    ∀ c ∈ jobs, c.pid = p.pid → ((slots ahead).count p.pid : Int) + (t.arr + 1) < c.burst

/-- An original that waits has no entry in the run queue. -/
theorem Origin.fresh (h : Origin jobs tasks queue) (hnd : (jobs.map Job.pid).Nodup) (ht : t ∈ tasks)
    (h0 : t.onRq = 0) (horiginal : t.tmpSrc = 0) : ∀ c ∈ queue, c.pid ≠ t.pid :=
  fun _ hc he => h.not_original hnd hc ht h0 he.symm horiginal

section Visit

variable (h : Origin jobs (ta ++ t :: tb) b.queue) (hnd : (jobs.map Job.pid).Nodup)

include h hnd

/-- A visit that breaks nothing leaves an entry cut. -/
theorem Cut.step (hs : StcfStep i t b es b' returned) (hno : ¬ b.splits i t) (hcut : Cut jobs b.queue) :
    Cut jobs b'.queue := by
  cases hs with
  | queued h0 => exact hcut
  | waits h0 hno => exact hcut
  | appends h0 hin hnone => exact hcut.append t.job
  | @returns h0 hin ahead behind p hq hahead hp hlast =>
    have hfresh := h.fresh hnd (by simp) h0 hp.2
    rw [hq, List.append_cons] at hcut hfresh
    dsimp only [Stage.take]
    rw [List.append_cons]
    exact hcut.insert hfresh
  | @splits h0 hin ahead behind p hq hahead hp hmore =>
    exact absurd ⟨⟨⟨h0, hin⟩, p, by simp [hq], hp⟩, hmore⟩ hno

/-- A visit that breaks an entry cuts it, when it is shortened. -/
theorem StcfStep.cut (hs : StcfStep i t b es b' returned) (hsplits : b.splits i t)
    (hshort : b.shortens jobs t) : Cut jobs b'.queue := by
  obtain ⟨⟨⟨h0, hin⟩, p', hp', hpre⟩, hmore⟩ := hsplits
  cases hs with
  | queued h => exact absurd h0 h
  | waits h hno => exact absurd hin hno
  | appends h hin hnone => exact absurd hpre (hnone p' hp')
  | returns h hin hq hahead hp hlast => exact absurd hlast hmore
  | @splits _ _ ahead behind p hq hahead hp _ =>
    have ht : t ∈ ta ++ t :: tb := by simp
    have hfresh := h.fresh hnd ht h0 hp.2
    rw [hq] at hfresh
    refine ⟨ahead, { p with burst := t.arr + 1 }, [], t.job, behind, rfl, rfl, ?_, h.arr.1 t ht, ?_,
      by simp, hshort ahead p behind hq hahead hp⟩
    · rw [← h.originals]
      exact List.mem_map_of_mem (List.mem_filter.2 ⟨ht, by simpa using hp.2⟩)
    · simp only [List.forall_mem_append, List.forall_mem_cons] at hfresh ⊢
      exact ⟨hfresh.1, hfresh.2.1, by simp⟩

end Visit

/-! ## The last split -/

/-- What the iteration breaks is shortened. -/
def Iteration.shortens (jobs : List Job) (it : Iteration) : Prop := it.before.stage.shortens jobs it.task

/-- The last iteration that breaks an entry. -/
def LastSplit (its : List Iteration) (w : Iteration) : Prop :=
  ∃ before after, its = before ++ w :: after ∧ w.splits ∧ ∀ it ∈ after, ¬ it.splits

theorem lastSplit_concat : LastSplit (its ++ [it]) w ↔ w = it ∧ it.splits ∨ ¬ it.splits ∧ LastSplit its w := by
  constructor
  · rintro ⟨before, after, hits, hw, hno⟩
    obtain rfl | ⟨after, it', rfl⟩ := List.eq_nil_or_concat' after
    · obtain ⟨-, hw'⟩ := List.append_inj' hits rfl
      obtain rfl := (List.cons.inj hw').1
      exact .inl ⟨rfl, hw⟩
    · rw [← List.cons_append, ← List.append_assoc] at hits
      obtain ⟨rfl, hit⟩ := List.append_inj' hits rfl
      obtain rfl := (List.cons.inj hit).1
      exact .inr ⟨hno it (by simp), before, after, rfl, hw, fun v hv => hno v (by simp [hv])⟩
  · rintro (⟨rfl, hw⟩ | ⟨hno, before, after, rfl, hw, hafter⟩)
    · exact ⟨its, [], rfl, hw, by simp⟩
    · refine ⟨before, after ++ [it], by simp, hw, fun v hv => ?_⟩
      obtain hv | hv := List.mem_append.1 hv
      · exact hafter v hv
      · rwa [List.mem_singleton.1 hv]

theorem exists_lastSplit (h : ∃ it ∈ its, it.splits) : ∃ w, LastSplit its w := by
  induction its using List.reverseRecOn with
  | nil => simp at h
  | append_singleton its it ih =>
    simp only [lastSplit_concat]
    by_cases hit : it.splits
    · exact ⟨it, .inl ⟨rfl, hit⟩⟩
    · obtain ⟨v, hv, hsplits⟩ := h
      obtain hv | hv := List.mem_append.1 hv
      · obtain ⟨w, hw⟩ := ih ⟨v, hv, hsplits⟩
        exact ⟨w, .inr ⟨hit, hw⟩⟩
      · exact absurd (List.mem_singleton.1 hv ▸ hsplits) hit

/-! ## The run -/

theorem kept_cut (hnd : (jobs.map Job.pid).Nodup) : Kept fun its a =>
    Origin jobs a.tasks a.stage.queue ∧ ∀ w, LastSplit its w → w.shortens jobs → Cut jobs a.stage.queue where
  restart _ _ h := h
  visit its i x a c returned A B A' ta tb es t h hs := by
    obtain ⟨horigin, hcut⟩ := h
    have hit := hs.isOf
    generalize hv : Iteration.mk i x a.st c.st returned = it at hit
    rw [hs.tasks] at horigin
    refine ⟨hs.tasks' ▸ horigin.step hs.step, fun w hw hshort => ?_⟩
    obtain ⟨rfl, hsplits⟩ | ⟨hno, hw⟩ := lastSplit_concat.1 hw
    · rw [Iteration.shortens, hit.stage, hit.task] at hshort
      exact hs.step.cut horigin hnd (hit.splits.1 hsplits) hshort
    · exact (hcut w hw hshort).step horigin hnd hs.step fun hsplits => hno (hit.splits.2 hsplits)

/-- `processes` counts the splits. -/
theorem kept_processes (n : Int) : Kept fun its a =>
    n ≤ a.stage.processes ∧ (a.stage.processes = n ↔ ∀ it ∈ its, ¬ it.splits) where
  restart _ _ h := h
  visit its i x a c returned A B A' ta tb es t h hs := by
    obtain ⟨hle, hiff⟩ := h
    have hit := hs.isOf
    generalize hv : Iteration.mk i x a.st c.st returned = it at hit
    have hsplits := hit.splits
    have hall : (∀ v ∈ its ++ [it], ¬ v.splits) ↔ a.stage.processes = n ∧ ¬ it.splits := by
      rw [hiff]
      simp only [List.mem_append, List.mem_singleton, or_imp, forall_and, forall_eq]
    rw [hall, hsplits]
    have hstep := hs.step
    clear hs hit hv hsplits hall hiff
    generalize a.stage = b at hle hstep ⊢
    generalize c.stage = b' at hstep ⊢
    cases hstep with
    | queued h0 => exact ⟨hle, (and_iff_left fun h => h0 h.1.1.1).symm⟩
    | waits h0 hno => exact ⟨hle, (and_iff_left fun h => hno h.1.1.2).symm⟩
    | appends h0 hin hnone =>
      refine ⟨hle, (and_iff_left fun h => ?_).symm⟩
      obtain ⟨⟨-, p, hp, hpre⟩, -⟩ := h
      exact hnone p hp hpre
    | returns h0 hin hq hahead hp hlast => exact ⟨hle, (and_iff_left fun h => h.2 hlast).symm⟩
    | @splits h0 hin ahead behind p hq hahead hp hmore =>
      refine ⟨by dsimp only; omega, iff_of_false (by dsimp only; omega) fun h => h.2 ?_⟩
      exact ⟨⟨⟨h0, hin⟩, p, by simp [hq], hp⟩, hmore⟩

/-- Where the last entry that is broken is shortened, the time line that is printed follows shortest time to
    completion first exactly when nothing is broken, so that `processes` stays as it is, the copies meet the
    rule, and those of the last round leave nothing behind that is shorter. -/
theorem stcf_shortest_iff (h : Loaded s (jobs.map Job.task) src) (hnd : (jobs.map Job.pid).Nodup)
    (harr : ∀ p ∈ jobs, 0 ≤ p.arr) (hburst : ∀ p ∈ jobs, 1 ≤ p.burst) :
    ∃ s' st' log q rows, runSimulator (some stcfTick) s =
        .ok (s', printSlots "" (slots (jobsAt s'.mem q)) ++ "\n" ++ rows) ∧
      s'.mem = st'.mem ∧ IsRing s'.mem 1 q ∧ Passes 0 s.span.toNat (Stcf.init s) log st' ∧
      (s'.processes = s.processes ↔ ∀ it ∈ log.flatten, ¬ it.splits) ∧
      ((∀ w, LastSplit log.flatten w → w.shortens jobs) →
        (ShortestFirst jobs (slots (jobsAt s'.mem q)) ↔
          (∀ it ∈ log.flatten, ¬ it.splits) ∧ KeepsRule log.flatten ∧
            ∀ it ∈ log.flatten, it.i = s.span - 1 → it.LeavesBehind)) := by
  have hstart : InLine jobs [] (jobs.map Job.task) h.snapshot.stage := by
    refine ⟨List.Perm.of_eq (waiting_map_task jobs), fun t ht => ?_, .nil, rfl, rfl, ?_, by simp, by simp,
      fun P => by simp [Loaded.snapshot]⟩
    · obtain ⟨p, -, rfl⟩ := List.mem_map.1 ht
      rfl
    · simp [Loaded.snapshot]
  have hcourse₀ : (∀ it ∈ ([] : List Iteration), ¬ it.splits) →
      Course jobs [] h.snapshot.tasks h.snapshot.stage := fun _ => .inLine hstart
  have hcount₀ : s.processes ≤ h.snapshot.stage.processes ∧
      (h.snapshot.stage.processes = s.processes ↔ ∀ it ∈ ([] : List Iteration), ¬ it.splits) := by
    simp [Loaded.snapshot, h.processes]
  have hcut₀ : Origin jobs h.snapshot.tasks h.snapshot.stage.queue ∧
      ∀ w, LastSplit [] w → w.shortens jobs → Cut jobs h.snapshot.stage.queue := by
    refine ⟨(h.accounts hnd harr).origin, fun w hw => ?_⟩
    obtain ⟨before, after, hnil, -⟩ := hw
    simp at hnil
  obtain ⟨c, log, hrun, hlog, ⟨hcourse, hprocesses, -, hcut⟩, hleft⟩ := h.stcf_run_left hburst
    ((kept_course jobs).and ((kept_processes s.processes).and (kept_cut hnd))) ⟨hcourse₀, hcount₀, hcut₀⟩
  have htick : stcfTick runqueue s = .ok { s with mem := c.st.mem, processes := c.st.processes } := by
    unfold stcfTick
    exact congrArg (· >>= _) hrun
  obtain ⟨s', rows, hprint, hmem, hcount⟩ := runSimulator_line htick c.holds.queue
  dsimp only at hprint hmem hcount
  refine ⟨s', c.st, log, c.q, rows, by rw [hmem]; exact hprint, hmem, hmem ▸ c.holds.queue, hlog, ?_,
    fun hshort => ?_⟩
  · rw [hcount, c.holds.processes, hprocesses.2]
  · rw [hmem, c.holds.jobs]
    by_cases hno : ∀ it ∈ log.flatten, ¬ it.splits
    · obtain ⟨hperm, hturns⟩ := (hcourse hno).turns_iff hburst
      rw [shortestFirst_iff hnd hburst hperm, hturns, hleft hno]
      exact (and_iff_right hno).symm
    · obtain ⟨w, hw⟩ := exists_lastSplit (show ∃ it ∈ log.flatten, it.splits by
        simpa only [not_forall, not_not, exists_prop] using hno)
      exact iff_of_false ((hcut w hw (hshort w hw)).not_shortest hnd hburst) fun hrule => hno hrule.1

/-- A short process that arrives in time to go between two longer ones. -/
def between : List Job := [⟨1, 2, 1, 0⟩, ⟨2, 0, 2, 0⟩, ⟨3, 0, 2, 0⟩]

theorem stcf_shortest_iff_between : ∃ s' st' log q rows,
    runSimulator (some stcfTick) (withProcesses (between.map Job.task)) =
        .ok (s', printSlots "" (slots (jobsAt s'.mem q)) ++ "\n" ++ rows) ∧
      s'.mem = st'.mem ∧ IsRing s'.mem 1 q ∧
      Passes 0 5 (Stcf.init (withProcesses (between.map Job.task))) log st' ∧
      (∀ it ∈ log.flatten, ¬ it.splits) ∧ ShortestFirst between (slots (jobsAt s'.mem q)) ∧
      KeepsRule log.flatten ∧ ∀ it ∈ log.flatten, it.i = 4 → it.LeavesBehind := by
  obtain ⟨s', st', log, q, rows, hprint, hmem, hring, hlog, hsplits, hiff⟩ :=
    stcf_shortest_iff (withProcesses_loaded (between.map Job.task)) (by decide) (by decide) (by decide)
  have hend : (runSimulator (some stcfTick) (withProcesses (between.map Job.task))).map
      (fun r => (r.1.processes, jobsAt r.1.mem (members r.1.mem 1))) =
        .ok (3, [⟨2, 0, 2, 0⟩, ⟨1, 2, 1, 0⟩, ⟨3, 0, 2, 0⟩]) := by rfl
  rw [hprint] at hend
  obtain ⟨hprocesses, hjobs⟩ := Prod.mk.inj (Except.ok.inj hend)
  dsimp only at hprocesses hjobs
  rw [hring.members] at hjobs
  have hno := hsplits.1 hprocesses
  have hrule : ShortestFirst between (slots (jobsAt s'.mem q)) := by
    have hperm : (([⟨2, 0, 2, 0⟩, ⟨1, 2, 1, 0⟩, ⟨3, 0, 2, 0⟩] : List Job) ++ []).Perm between := by decide
    rw [hjobs, shortestFirst_iff (by decide) (by decide) hperm]
    exact ⟨⟨by decide, by decide⟩, ⟨by decide, by decide⟩, ⟨by decide, by decide⟩, trivial⟩
  exact ⟨s', st', log, q, rows, hprint, hmem, hring, hlog, hno, hrule,
    ((hiff fun w ⟨_, _, hits, hw, _⟩ => absurd hw (hno w (by simp [hits]))).1 hrule).2⟩

/-- Of two processes that are there from the start, the slots of the longer one are printed first. -/
theorem stcf_not_shortest : ¬ ∃ s' q rows,
    runSimulator (some stcfTick) (withProcesses [⟨0, 0, 0, 1, 0, 5⟩, ⟨0, 0, 0, 2, 0, 4⟩]) =
      .ok (s', printSlots "" (slots (jobsAt s'.mem q)) ++ "\n" ++ rows) ∧ IsRing s'.mem 1 q ∧
    ShortestFirst [⟨1, 0, 5, 0⟩, ⟨2, 0, 4, 0⟩] (slots (jobsAt s'.mem q)) := by
  rintro ⟨s', q, rows, hprint, hring, hrule⟩
  have hend : (runSimulator (some stcfTick) (withProcesses
      [⟨0, 0, 0, 1, 0, 5⟩, ⟨0, 0, 0, 2, 0, 4⟩])).map (fun r => jobsAt r.1.mem (members r.1.mem 1)) =
        .ok [⟨1, 0, 5, 0⟩, ⟨2, 0, 4, 0⟩] := by rfl
  rw [hprint] at hend
  obtain hjobs : jobsAt s'.mem (members s'.mem 1) = [⟨1, 0, 5, 0⟩, ⟨2, 0, 4, 0⟩] := Except.ok.inj hend
  rw [hring.members] at hjobs
  rw [hjobs] at hrule
  obtain ⟨p, hp, hpid, -, hleast⟩ := hrule [] 1 [1, 1, 1, 1, 2, 2, 2, 2] rfl
  obtain rfl : p = ⟨1, 0, 5, 0⟩ := by
    simp only [List.mem_cons, List.not_mem_nil, or_false] at hp
    obtain rfl | rfl := hp
    · rfl
    · exact absurd hpid (by decide)
  have hshorter := hleast ⟨2, 0, 4, 0⟩ (by simp) (by decide) (by decide) (by decide)
  exact absurd hshorter (by decide)

end OsBasics.Cpu
