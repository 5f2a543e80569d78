/-
  Shortest time to completion first, on the time line.

  `shortestFirst_iff` reads the rule off the run queue, job by job. As long as nothing
  is broken off, the run queue is sorted by burst: a copy goes to the end, and only the
  last one can go into the middle, behind the first entry that is longer. For these runs
  `Course.turns_iff` says which visits keep the rule.
-/
import OsBasics.Cpu.Conserve
import OsBasics.Cpu.Report

namespace OsBasics.Cpu

open OsBasics.Lib OsBasics.Lists

variable {s s' : Sim} {src q : List Nat} {tasks ta tb es : List Task} {t : Task} {p r : Job}
  {jobs queue left l l' : List Job} {b b' : Stage} {i k : Int} {u n : Nat} {returned : Bool}

/-! ## The rule -/

/-- What `p` needs after the slots `before`. -/
def remaining (p : Job) (before : List Int) : Int := p.burst - before.count p.pid

/-- Every slot, counted from 1, is of a process that has arrived, and no other process that has and
    still needs time needs less. -/
def ShortestFirst (jobs : List Job) (slots : List Int) : Prop :=
  ∀ before pid after, slots = before ++ pid :: after →
    ∃ p ∈ jobs, p.pid = pid ∧ p.arr ≤ before.length + 1 ∧
      ∀ r ∈ jobs, r.pid ≠ pid → r.arr ≤ before.length + 1 → 0 < remaining r before →
        remaining p before ≤ remaining r before

/-- From `k` on it is the turn of `p`, with `later` to come. -/
structure Turn (k : Int) (p : Job) (later : List Job) : Prop where
  arrived : p.arr ≤ k + 1
  shortest : ∀ r ∈ later, r.arr ≤ k + p.burst → p.burst ≤ r.burst + max 0 (r.arr - k - 1)

/-- The jobs of `queue` have their turns one after another, from `k` on, with `left` not there. -/
def Turns : Int → List Job → List Job → Prop
  | _, [], _ => True
  | k, p :: queue, left => Turn k p (queue ++ left) ∧ Turns (k + p.burst) queue left

theorem turns_iff : Turns k queue left ↔
    ∀ l p l', queue = l ++ p :: l' → Turn (k + totalBurst l) p (l' ++ left) := by
  induction queue generalizing k with
  | nil => simp [Turns]
  | cons r queue ih =>
    have hsum : ∀ l, k + r.burst + totalBurst l = k + totalBurst (r :: l) := fun l => by
      rw [show totalBurst (r :: l) = r.burst + totalBurst l from List.sum_cons, Int.add_assoc]
    rw [Turns, ih, forall_split_cons (P := fun l p l' => Turn (k + totalBurst l) p (l' ++ left)),
      show totalBurst [] = 0 from rfl, Int.add_zero]
    simp only [hsum]

/-- The turn of a job, slot by slot. -/
theorem turn_iff_slots (hp : 1 ≤ p.burst) : Turn k p left ↔ ∀ u < p.burst.toNat, p.arr ≤ k + u + 1 ∧
    ∀ r ∈ left, r.arr ≤ k + u + 1 → p.burst - u ≤ r.burst := by
  constructor
  · rintro ⟨harr, hleast⟩ u hu
    refine ⟨by omega, fun r hr hr' => ?_⟩
    have hle := hleast r hr (by omega)
    omega
  · intro hall
    refine ⟨?_, fun r hr hr' => ?_⟩
    · have hfirst := (hall 0 (by omega)).1
      omega
    · -- the first slot of `p` in which `r` is there
      have hle := (hall (max 0 (r.arr - k - 1)).toNat (by omega)).2 r hr (by omega)
      omega

/-- When names are distinct a job of the run queue needs what it has not had yet, the jobs before it
    need nothing, and those behind it everything. -/
theorem remaining_at (hnd : ((l ++ p :: l').map Job.pid).Nodup) (hburst : ∀ r ∈ l ++ p :: l', 1 ≤ r.burst)
    (u : Nat) (hr : r ∈ l ++ p :: l') :
    remaining r (slots l ++ List.replicate u p.pid) =
      if r ∈ l then 0 else if r = p then p.burst - u else r.burst := by
  have hnd' := hnd
  rw [List.map_append, List.map_cons, List.nodup_append] at hnd
  obtain ⟨hl, hpl, hdis⟩ := hnd
  have hp : p.pid ∉ l.map Job.pid := fun hm => hdis _ hm _ List.mem_cons_self rfl
  have hinj : ∀ c ∈ l ++ p :: l', c.pid = r.pid → c = r := fun c hc he =>
    List.inj_on_of_nodup_map hnd' hc hr he
  have hpos := hburst r hr
  unfold remaining slots
  rw [List.count_append, List.count_replicate]
  by_cases hrl : r ∈ l
  · have hne : p.pid ≠ r.pid := fun he => hp (he ▸ List.mem_map_of_mem hrl)
    rw [if_pos hrl, count_timeLine hl hrl, if_neg (by simpa using hne)]
    omega
  · have hnone : r.pid ∉ l.map Job.pid := fun hm => by
      obtain ⟨c, hc, he⟩ := List.mem_map.1 hm
      exact hrl (hinj c (by simp [hc]) he ▸ hc)
    rw [if_neg hrl, count_timeLine_of_notMem hnone]
    by_cases hrp : r = p
    · rw [if_pos hrp, hrp, if_pos (by simp)]
      omega
    · have hne : p.pid ≠ r.pid := fun he => hrp (hinj p (by simp) he).symm
      rw [if_neg hrp, if_neg (by simpa using hne)]
      omega

theorem slots_length (h : ∀ p ∈ queue, 0 ≤ p.burst) : ((slots queue).length : Int) = totalBurst queue := by
  rw [slots, timeLine_length]
  induction queue with
  | nil => rfl
  | cons p queue ih =>
    have hp := h p List.mem_cons_self
    have hrest := ih fun r hr => h r (List.mem_cons_of_mem _ hr)
    rw [List.map_cons, List.sum_cons, Nat.cast_add, hrest, Int.toNat_of_nonneg hp]
    exact List.sum_cons.symm

/-- A slot of `p` is as the rule says when `p` is right against what comes later. -/
theorem slot_iff (hnd : (jobs.map Job.pid).Nodup) (hburst : ∀ r ∈ jobs, 1 ≤ r.burst)
    (hperm : (l ++ p :: l' ++ left).Perm jobs) (u : Nat) :
    (∀ r ∈ jobs, r.pid ≠ p.pid → r.arr ≤ totalBurst l + u + 1 →
        0 < remaining r (slots l ++ List.replicate u p.pid) →
        remaining p (slots l ++ List.replicate u p.pid) ≤
          remaining r (slots l ++ List.replicate u p.pid)) ↔
      ∀ r ∈ l' ++ left, r.arr ≤ totalBurst l + u + 1 → p.burst - u ≤ r.burst := by
  rw [List.append_assoc, List.cons_append] at hperm
  have hnd' : ((l ++ p :: (l' ++ left)).map Job.pid).Nodup := (hperm.map Job.pid).nodup_iff.2 hnd
  have hburst' : ∀ r ∈ l ++ p :: (l' ++ left), 1 ≤ r.burst := fun r hr => hburst r (hperm.subset hr)
  have hneeds := fun r hr => remaining_at hnd' hburst' u (r := r) hr
  rw [List.map_append, List.map_cons, List.nodup_append, List.nodup_cons] at hnd'
  obtain ⟨-, ⟨hpl, -⟩, hdis⟩ := hnd'
  have hp : p ∉ l := fun hm => hdis _ (List.mem_map_of_mem hm) _ List.mem_cons_self rfl
  rw [hneeds p (by simp), if_neg hp, if_pos rfl]
  constructor
  · intro hall r hr hr'
    have hmem : r ∈ l ++ p :: (l' ++ left) := List.mem_append_right _ (List.mem_cons_of_mem _ hr)
    have hne : r.pid ≠ p.pid := fun he => hpl (he ▸ List.mem_map_of_mem hr)
    have hrl : r ∉ l := fun hm =>
      hdis _ (List.mem_map_of_mem hm) _ (List.mem_cons_of_mem _ (List.mem_map_of_mem hr)) rfl
    have hle := hall r (hperm.subset hmem) hne hr'
    rw [hneeds r hmem, if_neg hrl, if_neg fun he => hne (congrArg Job.pid he)] at hle
    exact hle (by have := hburst' r hmem; omega)
  · intro hall r hr hne hr' hneed
    have hmem := hperm.symm.subset hr
    rw [hneeds r hmem] at hneed ⊢
    by_cases hrl : r ∈ l
    · rw [if_pos hrl] at hneed
      omega
    · have hrp : r ≠ p := fun he => hne (congrArg Job.pid he)
      rw [if_neg hrl, if_neg hrp]
      refine hall r ?_ hr'
      simpa [hrl, hrp] using hmem

/-- The time line follows the rule when every job of the run queue has its turn. -/
theorem shortestFirst_iff (hnd : (jobs.map Job.pid).Nodup) (hburst : ∀ r ∈ jobs, 1 ≤ r.burst)
    (hperm : (queue ++ left).Perm jobs) : ShortestFirst jobs (slots queue) ↔ Turns 0 queue left := by
  have hpos : ∀ l p l', queue = l ++ p :: l' → 1 ≤ p.burst ∧ ∀ u : Nat,
      ((slots l ++ List.replicate u p.pid).length : Int) = totalBurst l + u := by
    intro l p l' hq
    have hmem : ∀ r ∈ queue, 1 ≤ r.burst := fun r hr =>
      hburst r (hperm.subset (List.mem_append_left _ hr))
    refine ⟨hmem p (by simp [hq]), fun u => ?_⟩
    rw [List.length_append, List.length_replicate, Nat.cast_add,
      slots_length fun r hr => (by have := hmem r (by simp [hq, hr]); omega)]
  rw [turns_iff]
  constructor
  · intro hrule l p l' hq
    obtain ⟨hp, hlen⟩ := hpos l p l' hq
    rw [turn_iff_slots hp, Int.zero_add]
    intro u hu
    have hslot : slots queue = (slots l ++ List.replicate u p.pid) ++ p.pid ::
        (List.replicate (p.burst.toNat - u - 1) p.pid ++ slots l') := by
      rw [hq]
      exact timeLine_at l l' hu
    obtain ⟨c, hc, hpid, harr, hleast⟩ := hrule _ _ _ hslot
    obtain rfl : c = p :=
      List.inj_on_of_nodup_map hnd hc (hperm.subset (by simp [hq])) hpid
    rw [hlen] at harr hleast
    subst hq
    exact ⟨harr, (slot_iff hnd hburst hperm u).1 hleast⟩
  · intro hturns before pid after hslots
    obtain ⟨l, p, l', u, hq, hu, rfl, hbefore⟩ := timeLine_split hslots
    obtain ⟨hp, hlen⟩ := hpos l p l' hq
    have hturn := hturns l p l' hq
    rw [turn_iff_slots hp, Int.zero_add] at hturn
    obtain ⟨harr, hleast⟩ := hturn u hu
    rw [show before = slots l ++ List.replicate u p.pid from hbefore, hlen]
    refine ⟨p, hperm.subset (by simp [hq]), rfl, harr, ?_⟩
    subst hq
    exact (slot_iff hnd hburst hperm u).2 hleast

/-! ## Visits -/

/-- A visit breaks an entry of the run queue for `t`. -/
def Stage.splits (b : Stage) (i : Int) (t : Task) : Prop :=
  (b.copies i t ∧ ∃ p ∈ b.queue, preempts t p) ∧ b.processAdded + 1 ≠ b.processes

/-- A longer entry stands on the run queue when the entry is copied. -/
def Iteration.inserts (it : Iteration) : Prop :=
  it.copies ∧ ∃ p ∈ it.before.stage.queue, preempts it.task p

/-- The longer entry is broken. -/
def Iteration.splits (it : Iteration) : Prop :=
  it.inserts ∧ it.before.processAdded + 1 ≠ it.before.processes

/-- An entry that goes to the end has arrived when the bursts in front of it are over, or when a copy in
    front of it, made later, is over too. -/
def Iteration.Arrives (its : List Iteration) (it : Iteration) : Prop :=
  it.task.arr ≤ it.before.k + 1 ∨ ∃ w ∈ its, w.inserts ∧
    (∃ p ∈ it.before.stage.queue, preempts w.task p) ∧ it.task.arr ≤ it.before.k + w.task.burst + 1

/-- An entry that goes behind a longer one `p` arrives when `p` is over at the latest, and so late that `p`
    is over before the entry would be. -/
def Iteration.InPlace (it : Iteration) : Prop :=
  ∀ ahead p behind, it.before.stage.queue = ahead ++ p :: behind →
    (∀ r ∈ ahead, ¬ preempts it.task r) → preempts it.task p →
      it.task.arr ≤ totalBurst ahead + p.burst + 1 ∧
        totalBurst ahead + p.burst + 1 ≤ it.task.arr + it.task.burst

/-- An entry that still waits when the loop ends is as long as all on the run queue, or could not be over
    before them. -/
def LeftBehind (k : Int) (queue left : List Job) : Prop :=
  ∀ r ∈ left, (∀ p ∈ queue, p.burst ≤ r.burst) ∨ k < r.arr + r.burst

/-! ## Turns on a sorted run queue -/

/-- By burst. -/
def InOrderOfBurst (queue : List Job) : Prop := queue.Pairwise fun p r => p.burst ≤ r.burst

theorem turn_iff (hleft : ∀ r ∈ left, 1 ≤ r.burst) : Turn k p left ↔
    p.arr ≤ k + 1 ∧ ∀ r ∈ left, p.burst ≤ r.burst ∨ k + p.burst < r.arr + r.burst := by
  constructor
  · rintro ⟨harr, hleast⟩
    refine ⟨harr, fun r hr => ?_⟩
    have hr1 := hleft r hr
    by_cases hcome : r.arr ≤ k + p.burst
    · have := hleast r hr hcome
      omega
    · omega
  · rintro ⟨harr, hall⟩
    refine ⟨harr, fun r hr hcome => ?_⟩
    have hr1 := hleft r hr
    have := hall r hr
    omega

theorem turn_append : Turn k p (l ++ l') ↔ Turn k p l ∧ Turn k p l' := by
  constructor
  · rintro ⟨harr, hleast⟩
    exact ⟨⟨harr, fun r hr => hleast r (List.mem_append_left _ hr)⟩,
      ⟨harr, fun r hr => hleast r (List.mem_append_right _ hr)⟩⟩
  · rintro ⟨⟨harr, hl⟩, ⟨-, hl'⟩⟩
    exact ⟨harr, fun r hr => (List.mem_append.1 hr).elim (hl r) (hl' r)⟩

/-- What is not shorter does not matter. -/
theorem turn_of_le (hle : ∀ r ∈ l, p.burst ≤ r.burst) : Turn k p l ↔ p.arr ≤ k + 1 :=
  ⟨fun h => h.arrived, fun harr => ⟨harr, fun r hr _ => by have := hle r hr; omega⟩⟩

/-- On a sorted run queue only what is left behind can be shorter. -/
theorem turns_sorted_iff (hsorted : InOrderOfBurst queue) (hqueue : ∀ p ∈ queue, 0 ≤ p.burst)
    (hleft : ∀ r ∈ left, 1 ≤ r.burst) : Turns 0 queue left ↔
      (∀ l p l', queue = l ++ p :: l' → p.arr ≤ totalBurst l + 1) ∧
        LeftBehind (totalBurst queue) queue left := by
  have hturn : ∀ l p l', queue = l ++ p :: l' → (Turn (0 + totalBurst l) p (l' ++ left) ↔
      p.arr ≤ totalBurst l + 1 ∧
        ∀ r ∈ left, p.burst ≤ r.burst ∨ totalBurst l + p.burst < r.arr + r.burst) := by
    intro l p l' hq
    have hle : ∀ r ∈ l', p.burst ≤ r.burst := by
      rw [InOrderOfBurst, hq, List.pairwise_append, List.pairwise_cons] at hsorted
      exact hsorted.2.1.1
    rw [Int.zero_add, turn_append, turn_of_le hle, turn_iff hleft]
    exact ⟨fun h => h.2, fun h => ⟨h.1, h⟩⟩
  rw [turns_iff]
  constructor
  · intro h
    refine ⟨fun l p l' hq => ((hturn l p l' hq).1 (h l p l' hq)).1, fun r hr => ?_⟩
    obtain rfl | ⟨l, z, rfl⟩ := List.eq_nil_or_concat' queue
    · exact .inl (by simp)
    · -- the last entry is the longest, and the bound for it is that for `k`
      obtain hle | hlt := ((hturn l z [] rfl).1 (h l z [] rfl)).2 r hr
      · refine .inl fun p hp => ?_
        obtain hp | hp := List.mem_append.1 hp
        · exact ((List.pairwise_append.1 hsorted).2.2 p hp z List.mem_cons_self).trans hle
        · rw [List.mem_singleton.1 hp]
          exact hle
      · exact .inr (by rw [totalBurst_concat]; exact hlt)
  · rintro ⟨harr, hbehind⟩ l p l' hq
    refine (hturn l p l' hq).2 ⟨harr l p l' hq, fun r hr => ?_⟩
    obtain hall | hlt := hbehind r hr
    · exact .inl (hall p (by simp [hq]))
    · have hrest : 0 ≤ totalBurst l' := totalBurst_nonneg fun r hr => hqueue r (by simp [hq, hr])
      rw [hq, totalBurst_append, show totalBurst (p :: l') = p.burst + totalBurst l' from List.sum_cons] at hlt
      exact .inr (by omega)

/-! ## Runs without splits -/

/-- So far every copy went to the end of the run queue, which is sorted by burst; its entries are the
    copies, each behind those made before. -/
structure InLine (jobs : List Job) (its : List Iteration) (tasks : List Task) (b : Stage) : Prop where
  perm : (b.queue ++ waiting tasks).Perm jobs
  originals : ∀ t ∈ tasks, t.tmpSrc = 0
  sorted : InOrderOfBurst b.queue
  k : b.k = totalBurst b.queue
  added : b.processAdded = b.queue.length
  processes : b.processes = jobs.length
  counted : ∀ it ∈ its, it.copies → it.before.k = totalBurst it.before.stage.queue
  appended : ∀ it ∈ its, ¬ it.inserts
  copies : ∀ P : List Job → Job → Prop,
    (∀ it ∈ its, it.copies → P it.before.stage.queue it.task.job) ↔
      ∀ l p l', b.queue = l ++ p :: l' → P l p

/-- A run in which nothing was broken off: every copy went to the end, or the last one, of the iteration
    `w`, went behind a longer entry. -/
inductive Course (jobs : List Job) : List Iteration → List Task → Stage → Prop
  | inLine {its : List Iteration} {tasks : List Task} {b : Stage} (h : InLine jobs its tasks b) :
    Course jobs its tasks b
  | inserted {its more : List Iteration} {w : Iteration} {tasks₀ tasks : List Task} {b : Stage}
    {ahead behind : List Job} {p : Job} (h : InLine jobs its tasks₀ w.before.stage) (hw : w.inserts)
    (horiginal : w.task.tmpSrc = 0) (hlast : waiting tasks₀ = [w.task.job]) (hnone : waiting tasks = [])
    (hq : w.before.stage.queue = ahead ++ p :: behind) (hahead : ∀ r ∈ ahead, ¬ preempts w.task r)
    (hp : preempts w.task p) (hqueue : b.queue = ahead ++ p :: w.task.job :: behind)
    (hmore : ∀ it ∈ more, ¬ it.copies) : Course jobs (its ++ w :: more) tasks b

section Step

variable {its : List Iteration} {it : Iteration} {A B A' : List Nat} {x : Nat} {a c : Snapshot}

/-- What an iteration sees is what the step is about. -/
structure Iteration.IsOf (it : Iteration) (i : Int) (b : Stage) (t : Task) : Prop where
  stage : it.before.stage = b
  task : it.task = t
  copies : it.copies ↔ b.copies i t
  inserts : it.inserts ↔ b.copies i t ∧ ∃ p ∈ b.queue, preempts t p

theorem Snapshot.Step.isOf (hs : Snapshot.Step i x a c returned A B A' ta tb es t) :
    (Iteration.mk i x a.st c.st returned).IsOf i a.stage t := by
  have hstage : (Iteration.mk i x a.st c.st returned).before.stage = a.stage := a.stage_eq
  have htask : (Iteration.mk i x a.st c.st returned).task = t := hs.data.2.1
  have hcopies : (Iteration.mk i x a.st c.st returned).copies ↔ a.stage.copies i t := by
    rw [Iteration.copies, hstage, htask]
  exact ⟨hstage, htask, hcopies, by rw [Iteration.inserts, hcopies, hstage, htask]⟩

theorem Iteration.IsOf.splits (hit : it.IsOf i b t) : it.splits ↔ b.splits i t := by
  have hadded : it.before.processAdded = b.processAdded := congrArg Stage.processAdded hit.stage
  have hprocesses : it.before.processes = b.processes := congrArg Stage.processes hit.stage
  rw [Iteration.splits, hit.inserts, hadded, hprocesses, Stage.splits]

/-- An iteration that copies nothing. -/
theorem InLine.skip (h : InLine jobs its tasks b) (hno : ¬ it.copies) (hqueue : b'.queue = b.queue)
    (hk : b'.k = b.k) (hadded : b'.processAdded = b.processAdded) (hprocesses : b'.processes = b.processes) :
    InLine jobs (its ++ [it]) tasks b' := by
  have hall : ∀ C : Iteration → Prop, (∀ v ∈ its ++ [it], v.copies → C v) ↔ ∀ v ∈ its, v.copies → C v := by
    intro C
    simp only [List.mem_append, List.mem_singleton, or_imp, forall_and, forall_eq]
    exact and_iff_left fun hc => absurd hc hno
  refine ⟨hqueue ▸ h.perm, h.originals, hqueue ▸ h.sorted, by rw [hk, hqueue, h.k],
    by rw [hadded, hqueue, h.added], hprocesses.trans h.processes, (hall _).2 h.counted, fun v hv hi => ?_,
    fun P => ?_⟩
  · obtain hv | hv := List.mem_append.1 hv
    · exact h.appended v hv hi
    · exact hno (List.mem_singleton.1 hv ▸ hi.1)
  · rw [hall fun v => P v.before.stage.queue v.task.job, h.copies P, hqueue]

/-- The entry that is taken, with what waits then. -/
theorem perm_waiting (h : t.onRq = 0) :
    (t.job :: waiting (ta ++ [t.taken] ++ tb)).Perm (waiting (ta ++ t :: tb)) := by
  have hmarked : waiting (ta ++ [t.taken] ++ tb) = waiting ta ++ waiting tb := by
    simp [waiting, Task.taken]
  rw [hmarked, waiting_append, waiting_cons, if_pos h]
  exact List.perm_middle.symm

/-- Where nothing waits every entry is taken. -/
theorem onRq_of_none_waits (h : waiting (ta ++ t :: tb) = []) : t.onRq ≠ 0 := fun h0 => by
  rw [waiting_append, waiting_cons, if_pos h0] at h
  simp at h

/-- A visit to an entry that is taken does nothing. -/
theorem StcfStep.idle (hs : StcfStep i t b es b' returned) (h0 : t.onRq ≠ 0) : es = [t] ∧ b' = b := by
  cases hs with
  | queued => exact ⟨rfl, rfl⟩
  | waits h => exact absurd h h0
  | appends h => exact absurd h h0
  | returns h => exact absurd h h0
  | splits h => exact absurd h h0

/-- An iteration that copies its entry to the end. -/
theorem InLine.append (h : InLine jobs its (ta ++ t :: tb) b) (hit : it.IsOf i b t) (hc : b.copies i t)
    (hnone : ∀ p ∈ b.queue, ¬ preempts t p) (m : Int) :
    InLine jobs (its ++ [it]) (ta ++ [t.taken] ++ tb) (b.take t (b.queue ++ [t.job]) m) := by
  have hall : ∀ C : Iteration → Prop, (∀ v ∈ its ++ [it], v.copies → C v) ↔
      (∀ v ∈ its, v.copies → C v) ∧ C it := by
    intro C
    simp only [List.mem_append, List.mem_singleton, or_imp, forall_and, forall_eq]
    exact and_congr_right fun _ => ⟨fun hC => hC (hit.copies.2 hc), fun hC _ => hC⟩
  have hk : it.before.k = b.k := congrArg Stage.k hit.stage
  refine ⟨?_, fun r hr => ?_, ?_, ?_, ?_, h.processes, (hall _).2 ⟨h.counted, ?_⟩, fun v hv hi => ?_,
    fun P => ?_⟩
  · dsimp only [Stage.take]
    rw [List.append_assoc]
    exact ((perm_waiting hc.1).append_left _).trans h.perm
  · simp only [List.mem_append, List.mem_singleton] at hr
    obtain (hr | rfl) | hr := hr
    · exact h.originals r (by simp [hr])
    · exact h.originals t (by simp)
    · exact h.originals r (by simp [hr])
  · have h0 := h.originals t (by simp)
    refine List.pairwise_append.2 ⟨h.sorted, List.pairwise_singleton _ _, fun r hr p hp => ?_⟩
    rw [List.mem_singleton.1 hp]
    exact not_lt.1 fun hlt => hnone r hr ⟨hlt, h0⟩
  · dsimp only [Stage.take]
    rw [totalBurst_concat, h.k]
    rfl
  · dsimp only [Stage.take]
    rw [h.added, List.length_append]
    rfl
  · rw [hk, hit.stage, h.k]
  · obtain hv | hv := List.mem_append.1 hv
    · exact h.appended v hv hi
    · rw [List.mem_singleton.1 hv] at hi
      obtain ⟨-, p, hp, hpre⟩ := hit.inserts.1 hi
      exact hnone p hp hpre
  · rw [hall fun v => P v.before.stage.queue v.task.job, h.copies P, hit.stage, hit.task]
    exact (forall_split_concat (P := fun l p _ => P l p)).symm

/-- An iteration keeps the course, unless it breaks an entry off. -/
theorem Course.step (h : Course jobs its a.tasks a.stage)
    (hs : Snapshot.Step i x a c returned A B A' ta tb es t)
    (hno : ¬ (Iteration.mk i x a.st c.st returned).splits) :
    Course jobs (its ++ [⟨i, x, a.st, c.st, returned⟩]) c.tasks c.stage := by
  have hit := hs.isOf
  have htasks := hs.tasks
  have htasks' := hs.tasks'
  generalize hv : Iteration.mk i x a.st c.st returned = it at hit hno
  have hstep := hs.step
  generalize a.tasks = tasks at h htasks
  generalize c.tasks = tasks' at htasks'
  generalize hb : a.stage = b at h hit hstep
  generalize c.stage = b' at hstep
  subst htasks htasks'
  cases h with
  | inLine h =>
    cases hstep with
    | queued h0 =>
      rw [List.append_assoc, List.singleton_append]
      exact .inLine (h.skip (fun hc => h0 (hit.copies.1 hc).1) rfl rfl rfl rfl)
    | waits h0 hno =>
      rw [List.append_assoc, List.singleton_append]
      exact .inLine (h.skip (fun hc => hno (hit.copies.1 hc).2) rfl rfl rfl rfl)
    | appends h0 hin hnone => exact .inLine (h.append hit ⟨h0, hin⟩ hnone _)
    | @returns h0 hin ahead behind p hq hahead hp hlast =>
      have hwait : waiting (ta ++ t :: tb) = [t.job] ∧ waiting (ta ++ [t.taken] ++ tb) = [] := by
        have hlen := h.perm.length_eq
        have hadded := h.added
        have hprocesses := h.processes
        rw [List.length_append, waiting_append, waiting_cons, if_pos h0, List.length_append,
          List.length_cons] at hlen
        have ha : waiting ta = [] := List.eq_nil_of_length_eq_zero (by omega)
        have hb : waiting tb = [] := List.eq_nil_of_length_eq_zero (by omega)
        rw [waiting_append, waiting_append, waiting_append, waiting_cons, waiting_cons, if_pos h0,
          if_neg (show t.taken.onRq ≠ 0 from one_ne_zero), ha, hb]
        exact ⟨rfl, rfl⟩
      have horiginal := h.originals t (by simp)
      rw [← hit.stage] at h hq
      rw [← hit.task] at hahead hp horiginal hwait
      have hins : it.inserts := hit.inserts.2 ⟨⟨h0, hin⟩, p, by simp [← hit.stage, hq], hit.task ▸ hp⟩
      refine .inserted h hins horiginal (hit.task ▸ hwait.1) (hit.task ▸ hwait.2) hq hahead hp ?_
        fun v hv => absurd hv List.not_mem_nil
      rw [hit.task]
      rfl
    | @splits h0 hin ahead behind p hq hahead hp hmore =>
      exact absurd (hit.splits.2 ⟨⟨⟨h0, hin⟩, p, by simp [hq], hp⟩, hmore⟩) hno
  | @inserted its more w tasks₀ _ _ ahead behind p h hw horiginal hlast hnone hq hahead hp hqueue hmore =>
    have h0 := onRq_of_none_waits hnone
    obtain ⟨rfl, rfl⟩ := hstep.idle h0
    rw [List.append_assoc its, List.cons_append, List.append_assoc ta, List.singleton_append]
    refine .inserted h hw horiginal hlast hnone hq hahead hp hqueue fun v hv => ?_
    obtain hv | hv := List.mem_append.1 hv
    · exact hmore v hv
    · rw [List.mem_singleton.1 hv, hit.copies]
      exact fun hc => h0 hc.1

end Step

/-! ## The rule in a run without splits -/

/-- What the copies of a run without splits must meet. -/
structure KeepsRule (its : List Iteration) : Prop where
  arrives : ∀ it ∈ its, it.copies → ¬ it.inserts → it.Arrives its
  inPlace : ∀ it ∈ its, it.inserts → it.InPlace

/-- Where every copy went to the end. -/
theorem InLine.turns_iff {its : List Iteration} (h : InLine jobs its tasks b)
    (hburst : ∀ p ∈ jobs, 1 ≤ p.burst) :
    Turns 0 b.queue (waiting tasks) ↔ KeepsRule its ∧ LeftBehind b.k b.queue (waiting tasks) := by
  have hall : ∀ r ∈ b.queue ++ waiting tasks, 1 ≤ r.burst := fun r hr => hburst r (h.perm.subset hr)
  have harrives : (∀ it ∈ its, it.copies → ¬ it.inserts → it.Arrives its) ↔
      ∀ l p l', b.queue = l ++ p :: l' → p.arr ≤ totalBurst l + 1 := by
    rw [← h.copies fun l p => p.arr ≤ totalBurst l + 1]
    refine forall₃_congr fun it hit hc => ?_
    rw [← h.counted it hit hc]
    constructor
    · intro harr
      obtain hcome | ⟨w, hw, hins, -⟩ := harr (h.appended it hit)
      · exact hcome
      · exact absurd hins (h.appended w hw)
    · exact fun hcome _ => .inl hcome
  rw [turns_sorted_iff h.sorted (fun p hp => by have := hall p (List.mem_append_left _ hp); omega)
    (fun r hr => hall r (List.mem_append_right _ hr)), ← harrives, ← h.k]
  exact ⟨fun ⟨harr, hleft⟩ => ⟨⟨harr, fun it hit hins => absurd hins (h.appended it hit)⟩, hleft⟩,
    fun ⟨hrule, hleft⟩ => ⟨hrule.arrives, hleft⟩⟩

/-- The turns when `e` stands behind the first entry `p` that is longer. -/
theorem turns_inserted_iff {ahead behind : List Job} {e : Job}
    (hsorted : InOrderOfBurst (ahead ++ p :: behind)) (hahead : ∀ r ∈ ahead, r.burst ≤ e.burst)
    (hp : e.burst < p.burst) (he : 1 ≤ e.burst) : Turns 0 (ahead ++ p :: e :: behind) [] ↔
      ((∀ l q l', ahead = l ++ q :: l' → q.arr ≤ totalBurst l + 1) ∧ p.arr ≤ totalBurst ahead + 1 ∧
        ∀ l q l', behind = l ++ q :: l' → q.arr ≤ totalBurst (ahead ++ p :: l) + e.burst + 1) ∧
      e.arr ≤ totalBurst ahead + p.burst + 1 ∧ totalBurst ahead + p.burst + 1 ≤ e.arr + e.burst := by
  obtain ⟨hsortedA, hsortedB, hcross⟩ := List.pairwise_append.1 hsorted
  obtain ⟨hpB, hsortedB⟩ := List.pairwise_cons.1 hsortedB
  have hA : ∀ l q l', ahead = l ++ q :: l' →
      (Turn (0 + totalBurst l) q (l' ++ p :: e :: behind ++ []) ↔ q.arr ≤ totalBurst l + 1) := by
    intro l q l' hq
    have hmem : q ∈ ahead := by simp [hq]
    rw [Int.zero_add, List.append_nil]
    refine turn_of_le fun r hr => ?_
    rw [hq, List.pairwise_append, List.pairwise_cons] at hsortedA
    obtain hr | hr := List.mem_append.1 hr
    · exact hsortedA.2.1.1 r hr
    · obtain rfl | hr := List.mem_cons.1 hr
      · exact hcross q hmem r List.mem_cons_self
      · obtain rfl | hr := List.mem_cons.1 hr
        · exact hahead q hmem
        · exact hcross q hmem r (List.mem_cons_of_mem _ hr)
  have hturnP : Turn (0 + totalBurst (ahead ++ [])) p (e :: behind ++ []) ↔
      p.arr ≤ totalBurst ahead + 1 ∧ totalBurst ahead + p.burst + 1 ≤ e.arr + e.burst := by
    rw [Int.zero_add, List.append_nil, List.append_nil, ← List.singleton_append, turn_append,
      turn_of_le hpB, turn_iff (by simpa using he)]
    simp only [List.mem_singleton, forall_eq]
    omega
  have hturnE : Turn (0 + totalBurst (ahead ++ [p])) e (behind ++ []) ↔
      e.arr ≤ totalBurst ahead + p.burst + 1 := by
    rw [Int.zero_add, List.append_nil, totalBurst_concat]
    exact turn_of_le fun r hr => by have := hpB r hr; omega
  have hB : ∀ l q l', behind = l ++ q :: l' →
      (Turn (0 + totalBurst (ahead ++ p :: e :: l)) q (l' ++ []) ↔
        q.arr ≤ totalBurst (ahead ++ p :: l) + e.burst + 1) := by
    intro l q l' hq
    have hmoved : totalBurst (ahead ++ p :: e :: l) = totalBurst (ahead ++ p :: l) + e.burst := by
      simp only [totalBurst, List.map_append, List.map_cons, List.sum_append, List.sum_cons]
      omega
    rw [hq, List.pairwise_append, List.pairwise_cons] at hsortedB
    rw [Int.zero_add, List.append_nil, hmoved]
    exact turn_of_le hsortedB.2.1.1
  rw [OsBasics.Cpu.turns_iff,
    forall_split_append (P := fun l q l' => Turn (0 + totalBurst l) q (l' ++ [])),
    forall_split_cons (P := fun l q l' => Turn (0 + totalBurst (ahead ++ l)) q (l' ++ [])),
    forall_split_cons (P := fun l q l' => Turn (0 + totalBurst (ahead ++ p :: l)) q (l' ++ []))]
  rw [forall₄_congr hA, hturnP, hturnE, forall₄_congr hB]
  tauto

/-- `q` has arrived when the bursts of `l` are over, or when that of `t` is over too, which goes behind an
    entry of `l`. -/
def ComesBehind (t : Task) (l : List Job) (q : Job) : Prop :=
  q.arr ≤ totalBurst l + 1 ∨ (∃ r ∈ l, preempts t r) ∧ q.arr ≤ totalBurst l + t.burst + 1

/-- `t` goes behind `p`, and moves the slots of those behind. -/
theorem comesBehind_iff {ahead behind : List Job} (hahead : ∀ r ∈ ahead, ¬ preempts t r)
    (hp : preempts t p) (ht : 1 ≤ t.burst) :
    (∀ l q l', ahead ++ p :: behind = l ++ q :: l' → ComesBehind t l q) ↔
      (∀ l q l', ahead = l ++ q :: l' → q.arr ≤ totalBurst l + 1) ∧ p.arr ≤ totalBurst ahead + 1 ∧
        ∀ l q l', behind = l ++ q :: l' → q.arr ≤ totalBurst (ahead ++ p :: l) + t.burst + 1 := by
  rw [forall_split_append (P := fun l q _ => ComesBehind t l q),
    forall_split_cons (P := fun l q _ => ComesBehind t (ahead ++ l) q)]
  refine and_congr (forall₄_congr fun l q l' hl => or_iff_left fun h => ?_)
    (and_congr ?_ (forall₄_congr fun l q l' hl => ⟨?_, fun hcome => .inr ⟨⟨p, by simp, hp⟩, hcome⟩⟩))
  · obtain ⟨⟨r, hr, hpre⟩, -⟩ := h
    exact hahead r (by simp [hl, hr]) hpre
  · rw [List.append_nil]
    refine or_iff_left fun h => ?_
    obtain ⟨⟨r, hr, hpre⟩, -⟩ := h
    exact hahead r hr hpre
  · rintro (hcome | ⟨-, hcome⟩)
    · omega
    · exact hcome

section Inserted

variable {its more : List Iteration} {w : Iteration} {ahead behind : List Job}

/-- The iterations before `w` copy to the end, and `w` goes behind a longer entry. -/
theorem InLine.arrives_iff (h : InLine jobs its tasks w.before.stage) (hw : w.inserts)
    (hmore : ∀ it ∈ more, ¬ it.copies) :
    (∀ it ∈ its ++ w :: more, it.copies → ¬ it.inserts → it.Arrives (its ++ w :: more)) ↔
      ∀ l q l', w.before.stage.queue = l ++ q :: l' → ComesBehind w.task l q := by
  rw [← h.copies (ComesBehind w.task)]
  have hmeans : ∀ it ∈ its, it.copies → (it.Arrives (its ++ w :: more) ↔
      ComesBehind w.task it.before.stage.queue it.task.job) := by
    intro it hit hc
    unfold Iteration.Arrives ComesBehind
    rw [← h.counted it hit hc]
    refine or_congr_right ⟨?_, fun hr => ⟨w, by simp, hw, hr⟩⟩
    rintro ⟨v, hv, hins, hr⟩
    obtain hv | hv := List.mem_append.1 hv
    · exact absurd hins (h.appended v hv)
    · obtain rfl | hv := List.mem_cons.1 hv
      · exact hr
      · exact absurd hins.1 (hmore v hv)
  constructor
  · intro hall it hit hc
    exact (hmeans it hit hc).1 (hall it (List.mem_append_left _ hit) hc (h.appended it hit))
  · intro hall it hit hc hno
    obtain hit | hit := List.mem_append.1 hit
    · exact (hmeans it hit hc).2 (hall it hit hc)
    · obtain rfl | hit := List.mem_cons.1 hit
      · exact absurd hw hno
      · exact absurd hc (hmore it hit)

theorem InLine.inPlace_iff (h : InLine jobs its tasks w.before.stage) (hw : w.inserts)
    (hq : w.before.stage.queue = ahead ++ p :: behind) (hahead : ∀ r ∈ ahead, ¬ preempts w.task r)
    (hp : preempts w.task p) (hmore : ∀ it ∈ more, ¬ it.copies) :
    (∀ it ∈ its ++ w :: more, it.inserts → it.InPlace) ↔
      w.task.arr ≤ totalBurst ahead + p.burst + 1 ∧
        totalBurst ahead + p.burst + 1 ≤ w.task.arr + w.task.burst := by
  constructor
  · exact fun hall => hall w (by simp) hw ahead p behind hq hahead hp
  · intro hbounds v hv hins ahead' p' behind' hq' hahead' hp'
    obtain hv | hv := List.mem_append.1 hv
    · exact absurd hins (h.appended v hv)
    · obtain rfl | hv := List.mem_cons.1 hv
      · -- the search stops at one place
        obtain ⟨htake, hdrop⟩ := search_split hq hahead hp
        obtain ⟨htake', hdrop'⟩ := search_split hq' hahead' hp'
        obtain rfl := htake.symm.trans htake'
        obtain ⟨rfl, -⟩ := List.cons.inj (hdrop.symm.trans hdrop')
        exact hbounds
      · exact absurd hins.1 (hmore v hv)

/-- Where the last copy went behind a longer entry. -/
theorem InLine.turns_inserted (h : InLine jobs its tasks w.before.stage)
    (hburst : ∀ p ∈ jobs, 1 ≤ p.burst) (hw : w.inserts) (horiginal : w.task.tmpSrc = 0)
    (hlast : waiting tasks = [w.task.job]) (hq : w.before.stage.queue = ahead ++ p :: behind)
    (hahead : ∀ r ∈ ahead, ¬ preempts w.task r) (hp : preempts w.task p)
    (hmore : ∀ it ∈ more, ¬ it.copies) (k : Int) :
    Turns 0 (ahead ++ p :: w.task.job :: behind) [] ↔
      KeepsRule (its ++ w :: more) ∧ LeftBehind k (ahead ++ p :: w.task.job :: behind) [] := by
  have hsorted := h.sorted
  rw [hq] at hsorted
  have he : 1 ≤ w.task.job.burst := hburst _ (h.perm.subset (by simp [hlast]))
  have hle : ∀ r ∈ ahead, r.burst ≤ w.task.job.burst := fun r hr =>
    not_lt.1 fun hlt => hahead r hr ⟨hlt, horiginal⟩
  have harrives := h.arrives_iff hw hmore
  rw [hq, comesBehind_iff hahead hp he] at harrives
  have hinPlace := h.inPlace_iff hw hq hahead hp hmore
  have hturns := turns_inserted_iff hsorted hle hp.1 he
  dsimp only [Task.job_arr, Task.job_burst] at hturns
  rw [hturns, ← harrives, ← hinPlace]
  exact ⟨fun ⟨harr, hin⟩ => ⟨⟨harr, hin⟩, fun r hr => absurd hr List.not_mem_nil⟩,
    fun ⟨hrule, _⟩ => ⟨hrule.arrives, hrule.inPlace⟩⟩

end Inserted

/-- In a run without splits the jobs have their turns exactly when the copies and what is left meet the
    rule. -/
theorem Course.turns_iff {its : List Iteration} (h : Course jobs its tasks b)
    (hburst : ∀ p ∈ jobs, 1 ≤ p.burst) : (b.queue ++ waiting tasks).Perm jobs ∧
      (Turns 0 b.queue (waiting tasks) ↔ KeepsRule its ∧ LeftBehind b.k b.queue (waiting tasks)) := by
  cases h with
  | inLine h => exact ⟨h.perm, h.turns_iff hburst⟩
  | inserted h hw horiginal hlast hnone hq hahead hp hqueue hmore =>
    have hperm := h.perm
    rw [hlast, hq] at hperm
    rw [hnone, hqueue, List.append_nil]
    exact ⟨((perm_behind _ _ _ _).trans (List.perm_append_singleton _ _).symm).trans hperm,
      h.turns_inserted hburst hw horiginal hlast hq hahead hp hmore _⟩

/-! ## The run -/

theorem InLine.restart {its : List Iteration} (h : InLine jobs its tasks b) :
    InLine jobs its tasks { b with j := 0 } :=
  ⟨h.perm, h.originals, h.sorted, h.k, h.added, h.processes, h.counted, h.appended, h.copies⟩

theorem kept_course (jobs : List Job) :
    Kept fun its a => (∀ it ∈ its, ¬ it.splits) → Course jobs its a.tasks a.stage where
  restart its a h hno := by
    have hcourse := h hno
    clear h
    generalize hb : a.stage = b at hcourse
    change Course jobs its a.tasks { a.stage with j := 0 }
    rw [hb]
    cases hcourse with
    | inLine h => exact .inLine h.restart
    | inserted h hw horiginal hlast hnone hq hahead hp hqueue hmore =>
      exact .inserted h hw horiginal hlast hnone hq hahead hp hqueue hmore
  visit _ _ _ _ _ _ _ _ _ _ _ _ _ h hs hno :=
    (h fun it hit => hno it (List.mem_append_left _ hit)).step hs
      (hno _ (List.mem_append_right _ List.mem_cons_self))

end OsBasics.Cpu
