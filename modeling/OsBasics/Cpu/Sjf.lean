/-
  Shortest job first, round by round.

  `SjfStep` is what a visit of `sjf_tick` to a source entry may do, in terms of the
  workload and the run queue as lists: nothing, count the burst, or take the entry.
  `sjf_visit`: in memory a visit is such a step. `sjf_round` and `sjf_run` carry what
  every step keeps through a round and through the run, and record the visits.
-/
import OsBasics.Cpu.Stcf

namespace OsBasics.Cpu

open OsBasics.Lists

variable {s : Sim} {src A B : List Nat} {tasks ta tb : List Task} {t t' : Task}
  {queue queue' : List Job} {st st' : Sjf} {i j j' processes : Int} {n x : Nat}

/-- A visit to `t` in round `i`, with `queue` on the run queue: the entry, the run queue and `j`
    afterwards. -/
inductive SjfStep (i : Int) (t : Task) (queue : List Job) (j : Int) : Task → List Job → Int → Prop
  | queued (h : t.onRq ≠ 0) : SjfStep i t queue j t queue j
  | waits (h : t.onRq = 0) (hno : ¬ letsIn i (j + t.burst) (totalBurst queue) t) :
    SjfStep i t queue j t queue (j + t.burst)
  | takes (h : t.onRq = 0) (hin : letsIn i (j + t.burst) (totalBurst queue) t) :
    SjfStep i t queue j t.taken (queue ++ [t.job]) (j + t.burst)

/-- The memory and the counters of `sjf_tick` with `tasks` in the source list and `queue` on the
    run queue. -/
def SjfAt (src : List Nat) (tasks : List Task) (queue : List Job) (s : Sjf) : Prop :=
  ∃ q, Board s.mem src q tasks queue ∧ s.k = totalBurst queue ∧ s.processAdded = queue.length

/-- The mark at the entry `x`, and then a copy of it at the end of the run queue. -/
theorem mark_append {m : ListMem Task} {q : List Nat} (h : Board m (A ++ x :: B) q tasks queue) :
    ∃ m', (m.withEntry (copyTask (m.data x) (m.data m.fresh))).setEntry (.node x)
        { m.data x with onRq := 1 } =
          .ok ((m.withEntry (copyTask (m.data x) (m.data m.fresh))).withData x (m.data x).taken) ∧
      ((m.withEntry (copyTask (m.data x) (m.data m.fresh))).withData x
        (m.data x).taken).listAddTail (.node m.fresh) runqueue = .ok m' ∧
      Board m' (A ++ x :: B) (q ++ [m.fresh])
        (A.map m.data ++ (m.data x).taken :: B.map m.data) (queue ++ [(m.data x).job]) := by
  have hnew := h.withEntry (copyTask (m.data x) (m.data m.fresh))
  have hread : ∀ l : List Nat, l ⊆ A ++ x :: B →
      l.map (m.withEntry (copyTask (m.data x) (m.data m.fresh))).data = l.map m.data :=
    fun l hl => h.map_fresh id _ (.inl hl)
  have hmark := hnew.mark (hread A (by simp)) (hread B (by simp)) (m.data x).taken
  have hx : m.fresh ≠ x := (h.source.valid x (by simp)).lt.ne'
  obtain ⟨m', hadd, hB', -, -⟩ := hmark.enqueue ((h.free_fresh _).withData x (m.data x).taken)
  refine ⟨m', hnew.setEntry_source (by simp) _, hadd, ?_⟩
  rw [ListMem.withData_data, Function.update_of_ne hx, ListMem.withEntry_data, Function.update_self,
    copyTask_job] at hB'
  exact hB'

/-- In memory a visit to a source entry is a step. -/
theorem sjf_visit (h : SjfAt (A ++ x :: B) (ta ++ t :: tb) queue st) (hlen : A.length = ta.length)
    (i : Int) : ∃ st' t' queue', sjfVisit runqueue i (.node x) st = .ok st' ∧
      SjfStep i t queue st.j t' queue' st'.j ∧ SjfAt (A ++ x :: B) (ta ++ t' :: tb) queue' st' := by
  obtain ⟨q, hB, hk, hadded⟩ := h
  have hold := hB.tasks
  rw [List.map_append, List.map_cons] at hold
  obtain ⟨hA, hold⟩ := List.append_inj hold (by simpa using hlen)
  obtain ⟨ht, hBt⟩ := List.cons.inj hold
  have hentry : st.mem.listEntry (.node x) = .ok t := by rw [hB.listEntry_source (by simp), ht]
  by_cases h0 : t.onRq = 0
  · by_cases hin : letsIn i (st.j + t.burst) st.k t
    · obtain ⟨m', hset, hadd, hB'⟩ := mark_append hB
      rw [ht] at hset hadd hB'
      rw [hA, hBt] at hB'
      refine ⟨⟨m', st.k + t.burst, st.processAdded + 1, st.j + t.burst⟩, t.taken, queue ++ [t.job], ?_,
        .takes h0 (hk ▸ hin), q ++ [st.mem.fresh], hB', ?_, ?_⟩
      · unfold sjfVisit
        rw [hentry, ok_bind, if_pos h0]
        dsimp only
        rw [if_pos hin, newTask_eq hB.two_le_fresh, ok_bind]
        dsimp only at hset ⊢
        rw [hset, ok_bind, hadd]
        rfl
      · rw [totalBurst_concat, hk]
        rfl
      · rw [hadded, List.length_append]
        rfl
    · refine ⟨{ st with j := st.j + t.burst }, t, queue, ?_, .waits h0 (hk ▸ hin), q, hB, hk, hadded⟩
      unfold sjfVisit
      rw [hentry, ok_bind, if_pos h0]
      dsimp only
      rw [if_neg hin]
      rfl
  · refine ⟨st, t, queue, ?_, .queued h0, q, hB, hk, hadded⟩
    unfold sjfVisit
    rw [hentry, ok_bind, if_neg h0]
    rfl

/-! ## Rounds -/

/-- A visit of the source loop: the round, the entry, and the state before. -/
structure SjfVisit where
  i : Int
  entry : Nat
  before : Sjf

/-- The visits `its` of round `i` follow one another from `st` to `st'`. -/
inductive SjfVisits (i : Int) (st : Sjf) : List SjfVisit → Sjf → Prop
  | nil : SjfVisits i st [] st
  | snoc {its : List SjfVisit} {st₁ st₂ : Sjf} {x : Nat} (h : SjfVisits i st its st₁)
    (hvisit : sjfVisit runqueue i (.node x) st₁ = .ok st₂) :
    SjfVisits i st (its ++ [⟨i, x, st₁⟩]) st₂

/-- A run of at most `n` rounds from round `i` on. Each visits the entries `src`, and the run ends
    before a round that finds every process added. -/
inductive SjfRounds (src : List Nat) (processes : Int) : Int → Nat → Sjf → List (List SjfVisit) → Sjf → Prop
  | done {i : Int} {st : Sjf} : SjfRounds src processes i 0 st [] st
  | full {i : Int} {n : Nat} {st : Sjf} (h : st.processAdded = processes) :
    SjfRounds src processes i (n + 1) st [] st
  | next {i : Int} {n : Nat} {st st₁ st' : Sjf} {its : List SjfVisit} {log : List (List SjfVisit)}
    (hmore : st.processAdded ≠ processes) (hvisits : SjfVisits i { st with j := 0 } its st₁)
    (hall : its.map SjfVisit.entry = src) (hlog : SjfRounds src processes (i + 1) n st₁ log st') :
    SjfRounds src processes i (n + 1) st (its :: log) st'

/-- What the visit finds: the workload around the entry, and the run queue. -/
structure SjfVisit.Finds (it : SjfVisit) (src : List Nat) (ta : List Task) (t : Task) (tb : List Task)
    (queue : List Job) : Prop where
  lists : SjfAt src (ta ++ t :: tb) queue it.before
  entry : ∃ A B, src = A ++ it.entry :: B ∧ A.length = ta.length

/-- The rule for a round: `I` relates the visits made, the entries they left, those still to come, the
    run queue and `j`, and every step keeps it. -/
theorem sjf_round (I : List SjfVisit → List Task → List Task → List Job → Int → Prop)
    (hstep : ∀ its x st ta t tb queue t' queue' j', I its ta (t :: tb) queue st.j →
      (⟨i, x, st⟩ : SjfVisit).Finds src ta t tb queue → SjfStep i t queue st.j t' queue' j' →
      I (its ++ [⟨i, x, st⟩]) (ta ++ [t']) tb queue' j')
    (h : SjfAt src tasks queue st) (h0 : I [] [] tasks queue 0)
    (hmore : st.processAdded ≠ processes) :
    ∃ st' its tasks' queue', sjfRound runqueue processes i st = .ok (st', false) ∧
      SjfVisits i { st with j := 0 } its st' ∧ its.map SjfVisit.entry = src ∧
      SjfAt src tasks' queue' st' ∧ I its tasks' [] queue' st'.j := by
  have hring : ∀ done s, (∃ its ta tb queue, SjfVisits i { st with j := 0 } its s ∧
      its.map SjfVisit.entry = done ∧ ta.length = done.length ∧ SjfAt src (ta ++ tb) queue s ∧
      I its ta tb queue s.j) → IsRing s.mem 0 src := by
    intro done s hI
    obtain ⟨its, ta, tb, queue, -, -, -, ⟨q, hB, -⟩, -⟩ := hI
    exact hB.source
  have hvisit : ∀ done x rest s, src = done ++ x :: rest →
      (∃ its ta tb queue, SjfVisits i { st with j := 0 } its s ∧
        its.map SjfVisit.entry = done ∧ ta.length = done.length ∧ SjfAt src (ta ++ tb) queue s ∧
        I its ta tb queue s.j) →
      ∃ s', sjfVisit runqueue i (.node x) s = .ok s' ∧
        ∃ its ta tb queue, SjfVisits i { st with j := 0 } its s' ∧
          its.map SjfVisit.entry = done ++ [x] ∧ ta.length = (done ++ [x]).length ∧
          SjfAt src (ta ++ tb) queue s' ∧ I its ta tb queue s'.j := by
    intro done x rest s hl hI
    obtain ⟨its, ta, tb, queue, hvisits, hentries, hlen, hat, hI⟩ := hI
    have hcount : (ta ++ tb).length = src.length := by
      obtain ⟨q, hB, -⟩ := hat
      exact hB.source_length.symm
    cases tb with
    | nil =>
      rw [hl] at hcount
      simp at hcount
      omega
    | cons t tb =>
      have hat' := hat
      rw [hl] at hat'
      obtain ⟨s', t', queue', hrun, hs, hnew⟩ := sjf_visit hat' hlen.symm i
      rw [← hl] at hnew
      refine ⟨s', hrun, its ++ [⟨i, x, s⟩], ta ++ [t'], tb, queue', hvisits.snoc hrun, ?_, ?_, ?_,
        hstep _ _ _ _ _ _ _ _ _ _ hI ⟨hat, done, rest, hl, hlen.symm⟩ hs⟩
      · rw [List.map_append, hentries]
        rfl
      · rw [List.length_append, List.length_append, hlen]
        rfl
      · rwa [List.append_assoc, List.singleton_append]
  obtain ⟨st', hloop, its, ta, tb, queue', hvisits, hentries, hlen, hat, hI⟩ :=
    listForEach_rule _ hring hvisit (s := { st with j := 0 }) ⟨[], [], tasks, queue, .nil, rfl, rfl, h, h0⟩
  have hnil : tb = [] := by
    obtain ⟨q, hB, -⟩ := hat
    have hcount := hB.source_length
    rw [List.length_append] at hcount
    exact List.eq_nil_of_length_eq_zero (by omega)
  subst hnil
  rw [List.append_nil] at hat
  refine ⟨st', its, ta, queue', ?_, hvisits, hentries, hat, hI⟩
  unfold sjfRound
  rw [if_neg hmore, srcrq, hloop]
  rfl

/-- The rule for a run: `R` relates the next round, the visits made, the workload and the run queue. A
    round keeps it, and when every process is added it holds of all rounds to come. -/
theorem sjf_run (R : Int → List SjfVisit → List Task → List Job → Prop)
    (hround : ∀ i its tasks queue (st : Sjf), R i its tasks queue → SjfAt src tasks queue st →
      st.processAdded ≠ processes →
      ∃ st' its' tasks' queue', sjfRound runqueue processes i st = .ok (st', false) ∧
        SjfVisits i { st with j := 0 } its' st' ∧ its'.map SjfVisit.entry = src ∧
        SjfAt src tasks' queue' st' ∧ R (i + 1) (its ++ its') tasks' queue')
    (hfull : ∀ i its tasks queue, R i its tasks queue → queue.length = processes →
      R (i + 1) its tasks queue)
    (its : List SjfVisit) (h : SjfAt src tasks queue st) (hR : R i its tasks queue) (n : Nat) :
    ∃ st' log tasks' queue', rounds (sjfRound runqueue processes) n i st = .ok st' ∧
      SjfRounds src processes i n st log st' ∧ SjfAt src tasks' queue' st' ∧
      R (i + n) (its ++ log.flatten) tasks' queue' := by
  induction n generalizing i its tasks queue st with
  | zero => exact ⟨st, [], tasks, queue, rfl, .done, h, by simpa using hR⟩
  | succ n ih =>
    by_cases hall : st.processAdded = processes
    · have hlen : queue.length = processes := by
        obtain ⟨q, -, -, hadded⟩ := h
        rw [← hall, hadded]
      have hstay : ∀ k : Nat, R (i + k) its tasks queue := by
        intro k
        induction k with
        | zero => simpa using hR
        | succ k ih =>
          have hnext := hfull _ _ _ _ ih hlen
          rwa [Int.add_assoc] at hnext
      refine ⟨st, [], tasks, queue, ?_, .full hall, h, by simpa using hstay (n + 1)⟩
      rw [rounds, sjfRound, if_pos hall]
      rfl
    · obtain ⟨st₁, its', tasks', queue', hrun, hvisits, hentries, hat, hnext⟩ :=
        hround _ _ _ _ _ hR h hall
      obtain ⟨st', log, tasks'', queue'', hrest, hlog, hat', hend⟩ := ih _ hat hnext
      refine ⟨st', its' :: log, tasks'', queue'', ?_, .next hall hvisits hentries hlog, hat', ?_⟩
      · rw [rounds, hrun, ok_bind]
        exact hrest
      · rw [List.flatten_cons, ← List.append_assoc]
        have hi : i + ((n + 1 : Nat) : Int) = i + 1 + n := by omega
        rwa [hi]

end OsBasics.Cpu
