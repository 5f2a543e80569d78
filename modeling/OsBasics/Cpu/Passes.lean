/-
  The runs of `stcf_tick`.

  `Snapshot` is a state of the policy with what is in its two lists. `Passes` records
  a run, pass by pass, as the iterations of the source loop, each a visit to an entry
  with the states before and after it. `stcf_run`: there is such a run, every pass
  visits the entries that are there when it starts, and what every visit keeps holds
  throughout. `stcf_bookkeeping` follows.
-/
import OsBasics.Cpu.Stcf

namespace OsBasics.Cpu

open OsBasics.Lists

variable {s : Sim} {src : List Nat} {tasks : List Task} {i : Int} {n x : Nat} {left : Bool}

/-- A state of `stcf_tick` between two visits, with what is in the lists. -/
structure Snapshot where
  st : Stcf
  src : List Nat
  q : List Nat
  tasks : List Task
  stage : Stage
  holds : At st src q tasks stage

/-- A visit to the entry `x` takes `a` to `c`. -/
structure Snapshot.Step (i : Int) (x : Nat) (a c : Snapshot) (left : Bool) (A B A' : List Nat)
    (ta tb es : List Task) (t : Task) : Prop where
  step : StcfStep i t a.stage es c.stage left
  src : a.src = A ++ x :: B
  tasks : a.tasks = ta ++ t :: tb
  length : A.length = ta.length
  src' : c.src = A' ++ x :: B
  tasks' : c.tasks = ta ++ es ++ tb
  length' : A'.length + 1 = (ta ++ es).length
  before : A' = A ∨ ∃ n, A' = A ++ [n]

/-- A visit is a step from snapshot to snapshot. -/
theorem Snapshot.visit (a : Snapshot) {A B : List Nat} (hsrc : a.src = A ++ x :: B)
    (hflag : a.st.flag = 0) (i : Int) :
    ∃ c left A' ta tb es t, stcfVisit runqueue i (.node x) a.st = .ok (c.st, left) ∧
      Snapshot.Step i x a c left A B A' ta tb es t ∧ (left = false → c.st.flag = 0) := by
  obtain ⟨st, src, q, tasks, b, h⟩ := a
  dsimp only at hsrc hflag
  subst hsrc
  have htasks : tasks = A.map st.mem.data ++ st.mem.data x :: B.map st.mem.data := by
    rw [← h.tasks, List.map_append, List.map_cons]
  subst htasks
  obtain ⟨st', left, A', q', es, b', hrun, hV⟩ := stcf_visit h (by simp) hflag i
  exact ⟨⟨st', A' ++ x :: B, q', _, b', hV.lists⟩, left, A', _, _, es, _, hrun,
    ⟨hV.step, rfl, rfl, by simp, rfl, rfl, hV.length, hV.before⟩, hV.flag⟩

/-- The counter of the waiting ones starts again. -/
def Snapshot.restart (a : Snapshot) : Snapshot :=
  ⟨{ a.st with j := 0 }, a.src, a.q, a.tasks, { a.stage with j := 0 }, { a.holds with j := rfl }⟩

/-- An iteration of the source loop. -/
structure Iteration where
  i : Int
  entry : Nat
  before : Stcf
  after : Stcf
  returned : Bool

/-- The iterations `its` of round `i` follow one another from `st` to `st'`; only the last may
    return. -/
inductive Visits (i : Int) (st : Stcf) : List Iteration → Stcf → Prop
  | nil : Visits i st [] st
  | snoc {its : List Iteration} {st₁ st₂ : Stcf} {x : Nat} {returned : Bool}
    (h : Visits i st its st₁) (hgo : ∀ it ∈ its, it.returned = false)
    (hvisit : stcfVisit runqueue i (.node x) st₁ = .ok (st₂, returned)) :
    Visits i st (its ++ [⟨i, x, st₁, st₂, returned⟩]) st₂

/-- A pass visits the entries that are in the source list when it starts, in turn, up to a return. -/
structure IsPass (i : Int) (st : Stcf) (its : List Iteration) (st' : Stcf) (returned : Bool) :
    Prop where
  visits : Visits i { st with j := 0 } its st'
  present : ∃ src, IsRing st.mem 0 src ∧ its.map Iteration.entry <+: src ∧
    (returned = false → its.map Iteration.entry = src)
  returned : (∃ it ∈ its, it.returned = true) ↔ returned = true

/-- A run of at most `n` passes from round `i` on. -/
inductive Passes : Int → Nat → Stcf → List (List Iteration) → Stcf → Prop
  | done {i : Int} {st : Stcf} : Passes i 0 st [] st
  | returns {i : Int} {n : Nat} {st st' : Stcf} {its : List Iteration}
    (h : IsPass i st its st' true) : Passes i (n + 1) st [its] st'
  | next {i : Int} {n : Nat} {st st₁ st' : Stcf} {its : List Iteration}
    {log : List (List Iteration)} (h : IsPass i st its st₁ false)
    (hlog : Passes (i + 1) n st₁ log st') : Passes i (n + 1) st (its :: log) st'

/-- What holds of the iterations so far and the state they lead to is kept. -/
structure Kept (K : List Iteration → Snapshot → Prop) : Prop where
  restart : ∀ its a, K its a → K its a.restart
  visit : ∀ its i x a c left A B A' ta tb es t, K its a →
    Snapshot.Step i x a c left A B A' ta tb es t → K (its ++ [⟨i, x, a.st, c.st, left⟩]) c

theorem Kept.and {K K' : List Iteration → Snapshot → Prop} (h : Kept K) (h' : Kept K') :
    Kept fun its a => K its a ∧ K' its a where
  restart its a hK := ⟨h.restart its a hK.1, h'.restart its a hK.2⟩
  visit its i x a c left A B A' ta tb es t hK hs :=
    ⟨h.visit its i x a c left A B A' ta tb es t hK.1 hs, h'.visit its i x a c left A B A' ta tb es t hK.2 hs⟩

/-- The iterations of a pass from `a`. The first entries of the source list are gone through, and are `td`
    by now, and those of `tr` are to come. -/
inductive Sweep (i : Int) (a : Snapshot) : List Iteration → List Task → List Task → Snapshot → Prop
  | start : Sweep i a [] [] a.tasks a.restart
  | visit {its : List Iteration} {td tr es : List Task} {t : Task} {c c' : Snapshot} {x : Nat}
    {returned : Bool} {A B A' : List Nat} (h : Sweep i a its td (t :: tr) c)
    (hs : Snapshot.Step i x c c' returned A B A' td tr es t) :
    Sweep i a (its ++ [⟨i, x, c.st, c'.st, returned⟩]) (td ++ es) tr c'

theorem Sweep.tasks_eq {its : List Iteration} {td tr : List Task} {a c : Snapshot} (h : Sweep i a its td tr c) :
    c.tasks = td ++ tr := by
  cases h with
  | start => rfl
  | visit h hs => exact hs.tasks'

theorem Sweep.round {its : List Iteration} {td tr : List Task} {a c : Snapshot} (h : Sweep i a its td tr c) :
    ∀ it ∈ its, it.i = i := by
  induction h with
  | start => simp
  | visit h hs ih =>
    intro it hit
    obtain hit | hit := List.mem_append.1 hit
    · exact ih it hit
    · rw [List.mem_singleton.1 hit]

/-- The pass is at the entries `done`, which `its` has visited. -/
structure Midway (K : List Iteration → Snapshot → Prop) (i : Int) (its₀ : List Iteration)
    (a : Snapshot) (done : List Nat) (c : Snapshot) (its : List Iteration) : Prop where
  flag : c.st.flag = 0
  visits : Visits i { a.st with j := 0 } its c.st
  entries : its.map Iteration.entry = done
  going : ∀ it ∈ its, it.returned = false
  kept : K (its₀ ++ its) c
  /-- What is to come is as it was, right behind the last entry visited. -/
  rest : ∀ rest, a.src = done ++ rest → ∃ pre, c.src = pre ++ rest ∧ pre.getLast? = done.getLast?
  sweep : ∃ td tr, Sweep i a its td tr c ∧ done.length + tr.length = a.src.length

variable {K : List Iteration → Snapshot → Prop} {its₀ its : List Iteration} {a c : Snapshot}
  {done rest : List Nat}

theorem Midway.start (hK : Kept K) (h : K its₀ a) (hflag : a.st.flag = 0) (i : Int) :
    Midway K i its₀ a [] a.restart [] where
  flag := hflag
  visits := .nil
  entries := rfl
  going := by simp
  kept := by
    rw [List.append_nil]
    exact hK.restart its₀ a h
  rest rest hsrc := ⟨[], hsrc, rfl⟩
  sweep := ⟨[], a.tasks, .start, by rw [List.length_nil, Nat.zero_add, a.holds.source_length]⟩

/-- One visit of the pass, which goes on or returns. -/
theorem Midway.visit (hK : Kept K) (h : Midway K i its₀ a done c its)
    (hsrc : a.src = done ++ x :: rest) :
    ∃ c' left, stcfVisit runqueue i (.node x) c.st = .ok (c'.st, left) ∧
      Visits i { a.st with j := 0 } (its ++ [⟨i, x, c.st, c'.st, left⟩]) c'.st ∧
      K (its₀ ++ (its ++ [⟨i, x, c.st, c'.st, left⟩])) c' ∧
      (∃ td tr, Sweep i a (its ++ [⟨i, x, c.st, c'.st, left⟩]) td tr c') ∧
      (left = false → Midway K i its₀ a (done ++ [x]) c' (its ++ [⟨i, x, c.st, c'.st, left⟩])) := by
  obtain ⟨pre, hpre, -⟩ := h.rest _ hsrc
  obtain ⟨c', left, A', ta, tb, es, t, hrun, hstep, hflag⟩ := c.visit hpre h.flag i
  have hkept := hK.visit _ _ _ _ _ _ _ _ _ _ _ _ _ h.kept hstep
  rw [List.append_assoc] at hkept
  have hvisits := Visits.snoc h.visits h.going hrun
  -- what is to come in the sweep is what stands behind `x`
  obtain ⟨td, tr, hsweep, hlen⟩ := h.sweep
  have htasks := hsweep.tasks_eq.symm.trans hstep.tasks
  have hsame : tr.length = (t :: tb).length := by
    have hlen' := congrArg List.length hstep.tasks
    rw [← c.holds.source_length, hpre, List.length_append, List.length_append, hstep.length] at hlen'
    rw [hsrc, List.length_append] at hlen
    simp only [List.length_cons] at hlen hlen' ⊢
    omega
  obtain ⟨rfl, rfl⟩ := List.append_inj' htasks hsame
  have hsweep' := hsweep.visit hstep
  refine ⟨c', left, hrun, hvisits, hkept, ⟨_, _, hsweep'⟩, fun hleft =>
    ⟨hflag hleft, hvisits, ?_, ?_, hkept, ?_, ?_⟩⟩
  · rw [List.map_append, h.entries]
    rfl
  · intro it hit
    obtain hit | hit := List.mem_append.1 hit
    · exact h.going it hit
    · rw [List.mem_singleton.1 hit]
      exact hleft
  · intro rest' hsrc'
    rw [hsrc, List.append_assoc, List.append_cancel_left_eq] at hsrc'
    obtain ⟨-, rfl⟩ := List.cons.inj hsrc'
    refine ⟨A' ++ [x], ?_, by simp⟩
    rw [hstep.src', List.append_assoc]
    rfl
  · refine ⟨_, _, hsweep', ?_⟩
    rw [← hlen, List.length_append, List.length_cons]
    simp only [List.length_cons, List.length_nil]
    omega

/-- A pass, with what it keeps. -/
theorem stcf_pass (hK : Kept K) (h : K its₀ a) (hflag : a.st.flag = 0) (i : Int) :
    ∃ c its returned, stcfPass runqueue i a.st = .ok (c.st, returned) ∧
      IsPass i a.st its c.st returned ∧ K (its₀ ++ its) c ∧
      (∃ td tr, Sweep i a its td tr c ∧ (returned = false → tr = [])) ∧
      (returned = false → c.st.flag = 0) := by
  have hring : ∀ done x rest s, a.src = done ++ x :: rest →
      (∃ c its, c.st = s ∧ Midway K i its₀ a (done ++ [x]) c its) →
      ∃ pre, IsRing s.mem 0 (pre ++ x :: rest) := by
    intro done x rest s hsrc hI
    obtain ⟨c, its, rfl, hM⟩ := hI
    obtain ⟨pre, hpre, hlast⟩ := hM.rest rest (by rw [hsrc, List.append_assoc]; rfl)
    rw [List.getLast?_append, List.getLast?_singleton, Option.some_or, List.getLast?_eq_some_iff]
      at hlast
    obtain ⟨pre, rfl⟩ := hlast
    have hR := c.holds.source
    rw [hpre, List.append_assoc] at hR
    exact ⟨pre, hR⟩
  have hstep : ∀ done x rest s, a.src = done ++ x :: rest →
      (∃ c its, c.st = s ∧ Midway K i its₀ a done c its) →
      ∃ s' left, stcfVisit runqueue i (.node x) s = .ok (s', left) ∧
        if left then ∃ c its, c.st = s' ∧ Visits i { a.st with j := 0 } its s' ∧
            its.map Iteration.entry = done ++ [x] ∧ (∃ it ∈ its, it.returned = true) ∧
            K (its₀ ++ its) c ∧ ∃ td tr, Sweep i a its td tr c
        else ∃ c its, c.st = s' ∧ Midway K i its₀ a (done ++ [x]) c its := by
    intro done x rest s hsrc hI
    obtain ⟨c, its, rfl, hM⟩ := hI
    obtain ⟨c', left, hrun, hvisits, hkept, hsweep, hgo⟩ := hM.visit hK hsrc
    refine ⟨c'.st, left, hrun, ?_⟩
    cases left with
    | true =>
      refine ⟨c', _, rfl, hvisits, ?_, ⟨_, List.mem_append_right _ List.mem_cons_self, rfl⟩, hkept, hsweep⟩
      rw [List.map_append, hM.entries]
      rfl
    | false => exact ⟨c', _, rfl, hgo rfl⟩
  have hne : ∀ x ∈ a.src, Ptr.node x ≠ srcrq := fun x hx e => by
    obtain rfl : x = 0 := by simpa [srcrq] using e
    exact (List.nodup_cons.1 a.holds.source.nodup).1 hx
  obtain ⟨s', hloop, c, its, rfl, hM⟩ |
      ⟨done, x, rest, s', hsrc, hloop, c, its, rfl, hvisits, hentries, hreturned, hkept, hsweep⟩ :=
    listForEachUntil_rule _ (fun done x s' => ∃ c its, c.st = s' ∧
        Visits i { a.st with j := 0 } its s' ∧ its.map Iteration.entry = done ++ [x] ∧
        (∃ it ∈ its, it.returned = true) ∧ K (its₀ ++ its) c ∧ ∃ td tr, Sweep i a its td tr c) hring hstep
      (s := { a.st with j := 0 }) a.holds.source ⟨a.restart, [], rfl, Midway.start hK h hflag i⟩
  · refine ⟨c, its, false, ?_, ⟨hM.visits, ⟨a.src, a.holds.source, ?_, fun _ => hM.entries⟩, ?_⟩,
      hM.kept, ?_, fun _ => hM.flag⟩
    · unfold stcfPass
      rw [srcrq, hloop]
      rfl
    · exact hM.entries ▸ List.prefix_rfl
    · simpa using hM.going
    · obtain ⟨td, tr, hsweep, hlen⟩ := hM.sweep
      exact ⟨td, tr, hsweep, fun _ => List.eq_nil_of_length_eq_zero (by omega)⟩
  · obtain ⟨td, tr, hsweep⟩ := hsweep
    refine ⟨c, its, true, ?_, ⟨hvisits, ⟨a.src, a.holds.source, ?_, fun hf => absurd hf (by simp)⟩,
      by simpa using hreturned⟩, hkept, ⟨td, tr, hsweep, fun hf => absurd hf (by simp)⟩,
      fun hf => absurd hf (by simp)⟩
    · have hleft : decide (Ptr.node x ≠ srcrq) = true := decide_eq_true (hne x (by simp [hsrc]))
      unfold stcfPass
      rw [srcrq, hloop, ok_bind]
      exact congrArg (fun r => Except.ok (c.st, r)) hleft
    · rw [hentries, hsrc]
      exact ⟨rest, by simp⟩

/-- There is a run, with what it keeps. -/
theorem stcf_run (hK : Kept K) (h : K its₀ a) (hflag : a.st.flag = 0) (n : Nat) (i : Int) :
    ∃ c log, rounds (stcfPass runqueue) n i a.st = .ok c.st ∧ Passes i n a.st log c.st ∧
      K (its₀ ++ log.flatten) c := by
  induction n generalizing i a its₀ with
  | zero => exact ⟨a, [], rfl, .done, by simpa using h⟩
  | succ n ih =>
    obtain ⟨c, its, returned, hrun, hpass, hkept, -, hgo⟩ := stcf_pass hK h hflag i
    cases returned with
    | true =>
      refine ⟨c, [its], ?_, .returns hpass, by simpa using hkept⟩
      rw [rounds, hrun]
      rfl
    | false =>
      obtain ⟨c', log, hrun', hlog, hkept'⟩ := ih hkept (hgo rfl) (i + 1)
      refine ⟨c', its :: log, ?_, .next hpass hlog, by simpa using hkept'⟩
      rw [rounds, hrun, ok_bind]
      exact hrun'

/-! ## The last round -/

/-- The iterations `its` of the rounds up to `last` end with the pass of that round, before which `its₁`
    were made, or by a return before. -/
inductive Ends (last : Int) (K : List Iteration → Snapshot → Prop) (its : List Iteration) (c : Snapshot) : Prop
  | early (hbefore : ∀ it ∈ its, it.i < last) (hreturned : ∃ it ∈ its, it.returned = true)
  | last {its₁ its₂ : List Iteration} {a : Snapshot} {td tr : List Task} (hits : its = its₁ ++ its₂)
    (hbefore : ∀ it ∈ its₁, it.i < last) (hkept : K its₁ a) (hsweep : Sweep last a its₂ td tr c)
    (hend : tr = [] ∨ ∃ it ∈ its₂, it.returned = true)

theorem Visits.round {st st' : Stcf} (h : Visits i st its st') : ∀ it ∈ its, it.i = i := by
  induction h with
  | nil => simp
  | snoc h hgo hvisit ih =>
    intro it hit
    obtain hit | hit := List.mem_append.1 hit
    · exact ih it hit
    · rw [List.mem_singleton.1 hit]

/-- There is a run of `n + 1` rounds, with what it keeps and how it ends. -/
theorem stcf_run_last (hK : Kept K) (h : K its₀ a) (hflag : a.st.flag = 0) (n : Nat) (i : Int)
    (hbefore : ∀ it ∈ its₀, it.i < i) :
    ∃ c log, rounds (stcfPass runqueue) (n + 1) i a.st = .ok c.st ∧ Passes i (n + 1) a.st log c.st ∧
      K (its₀ ++ log.flatten) c ∧ Ends (i + n) K (its₀ ++ log.flatten) c := by
  induction n generalizing i a its₀ with
  | zero =>
    obtain ⟨c, its, returned, hrun, hpass, hkept, ⟨td, tr, hsweep, hrest⟩, -⟩ := stcf_pass hK h hflag i
    have hends : Ends (i + (0 : Nat)) K (its₀ ++ its) c := by
      rw [Nat.cast_zero, Int.add_zero]
      refine .last rfl hbefore h hsweep ?_
      cases returned with
      | true => exact .inr (hpass.returned.2 rfl)
      | false => exact .inl (hrest rfl)
    refine ⟨c, [its], ?_, ?_, by simpa using hkept, by simpa using hends⟩
    · rw [rounds, hrun]
      cases returned <;> rfl
    · cases returned with
      | true => exact .returns hpass
      | false => exact .next hpass .done
  | succ n ih =>
    obtain ⟨c, its, returned, hrun, hpass, hkept, -, hgo⟩ := stcf_pass hK h hflag i
    have hround : ∀ it ∈ its₀ ++ its, it.i < i + 1 := by
      intro it hit
      obtain hit | hit := List.mem_append.1 hit
      · have := hbefore it hit
        omega
      · rw [hpass.visits.round it hit]
        omega
    cases returned with
    | true =>
      refine ⟨c, [its], ?_, .returns hpass, by simpa using hkept, .early (fun it hit => ?_) ?_⟩
      · rw [rounds, hrun]
        rfl
      · have := hround it (by simpa using hit)
        omega
      · obtain ⟨it, hit, hret⟩ := hpass.returned.2 rfl
        exact ⟨it, by simp [hit], hret⟩
    | false =>
      obtain ⟨c', log, hrun', hlog, hkept', hends⟩ := ih hkept (hgo rfl) (i + 1) hround
      refine ⟨c', its :: log, ?_, .next hpass hlog, by simpa using hkept', ?_⟩
      · rw [rounds, hrun, ok_bind]
        exact hrun'
      · rw [List.flatten_cons, ← List.append_assoc,
          show i + ((n + 1 : Nat) : Int) = i + 1 + n by push_cast; omega]
        exact hends

/-! ## Bookkeeping -/

/-- The counters agree with the lists. Of the `n` entries of the input those that are taken are more
    than the pieces that were broken off, once anything is taken. -/
structure Books (pids : List Int) (n : Nat) (tasks : List Task) (b : Stage) : Prop where
  processes : b.processes = tasks.length
  added : b.processAdded = b.queue.length
  taken : b.queue.length = tasks.countP fun t => t.onRq = 1
  marks : ∀ t ∈ tasks, t.onRq = 0 ∨ t.onRq = 1
  sourcePids : ∀ t ∈ tasks, t.pid ∈ pids
  queuePids : ∀ p ∈ b.queue, p.pid ∈ pids
  originals : (tasks.countP fun t => t.tmpSrc = 0) = n
  pieces : (tasks.countP fun t => ¬ t.tmpSrc = 0) + 1 ≤
      (tasks.countP fun t => t.tmpSrc = 0 ∧ t.onRq = 1) ∨
    (tasks.countP fun t => ¬ t.tmpSrc = 0) = 0 ∧ b.queue = []

variable {pids : List Int} {ta tb es : List Task} {t : Task} {b b' : Stage}

theorem Books.restart (h : Books pids n tasks b) : Books pids n tasks { b with j := 0 } :=
  ⟨h.processes, h.added, h.taken, h.marks, h.sourcePids, h.queuePids, h.originals, h.pieces⟩

theorem perm_behind {α : Type} (A B : List α) (p x : α) :
    (A ++ p :: x :: B).Perm (x :: (A ++ p :: B)) := by
  have h : (A ++ [p] ++ x :: B).Perm (x :: (A ++ [p] ++ B)) := List.perm_middle
  simpa using h

/-- What stays of a job when it is broken. -/
def Job.name (p : Job) : Int × Int := (p.pid, p.arr)

/-- A step that takes `t`, with the `pieces` it breaks off, at most one. -/
structure Taking (t : Task) (b : Stage) (pieces es : List Task) (b' : Stage) : Prop where
  waiting : t.onRq = 0
  entries : es = pieces ++ [t.taken]
  processes : b'.processes = b.processes + pieces.length
  added : b'.processAdded = b.processAdded + 1
  names : (b'.queue.map Job.name).Perm ((t.job :: b.queue).map Job.name)
  pieces : pieces = [] ∨ t.tmpSrc = 0 ∧ ∃ p ∈ b.queue, ∃ m, pieces = [p.remainder m]

/-- A step takes the entry, or leaves both lists as they are. -/
theorem StcfStep.cases_taking (hs : StcfStep i t b es b' left) :
    (es = [t] ∧ b'.queue = b.queue ∧ b'.processes = b.processes ∧ b'.processAdded = b.processAdded) ∨
      ∃ pieces, Taking t b pieces es b' := by
  cases hs with
  | queued h0 => exact .inl ⟨rfl, rfl, rfl, rfl⟩
  | waits h0 hno => exact .inl ⟨rfl, rfl, rfl, rfl⟩
  | appends h0 hin hnone =>
    exact .inr ⟨[], h0, rfl, by simp [Stage.take], rfl,
      (List.perm_append_singleton _ _).map Job.name, .inl rfl⟩
  | returns h0 hin hq hahead hp hlast =>
    refine .inr ⟨[], h0, rfl, by simp [Stage.take], rfl, ?_, .inl rfl⟩
    rw [hq]
    exact (perm_behind _ _ _ _).map Job.name
  | @splits h0 hin ahead behind p hq hahead hp hmore =>
    refine .inr ⟨[p.remainder (b.mark ahead t)], h0, rfl, by simp, rfl, ?_,
      .inr ⟨hp.2, p, by simp [hq], _, rfl⟩⟩
    have hsame : (ahead ++ { p with burst := t.arr + 1 } :: t.job :: behind).map Job.name =
        (ahead ++ p :: t.job :: behind).map Job.name := by simp [Job.name]
    rw [hq]
    exact (List.Perm.of_eq hsame).trans ((perm_behind _ _ _ _).map Job.name)

/-- A job of the run queue has the name of the entry taken or of one that was there. -/
theorem Taking.name {pieces : List Task} (h : Taking t b pieces es b') {p : Job}
    (hp : p ∈ b'.queue) : p.name = t.job.name ∨ ∃ r ∈ b.queue, r.name = p.name := by
  have hm := h.names.subset (List.mem_map_of_mem hp)
  rw [List.map_cons, List.mem_cons, List.mem_map] at hm
  exact hm

/-- The names stay. -/
theorem Taking.stays {pieces : List Task} (h : Taking t b pieces es b') {r : Job}
    (hr : r ∈ t.job :: b.queue) : ∃ p ∈ b'.queue, p.name = r.name :=
  List.mem_map.1 (h.names.symm.subset (List.mem_map_of_mem hr))

theorem Taking.length {pieces : List Task} (h : Taking t b pieces es b') :
    b'.queue.length = b.queue.length + 1 := by
  simpa using h.names.length_eq

/-- A step keeps the books. -/
theorem Books.step (h : Books pids n (ta ++ t :: tb) b) (hs : StcfStep i t b es b' left) :
    Books pids n (ta ++ es ++ tb) b' := by
  obtain ⟨rfl, hq, hp, ha⟩ | ⟨pieces, hT⟩ := hs.cases_taking
  · rw [List.append_assoc, List.singleton_append]
    exact ⟨hp.trans h.processes, by rw [ha, hq, h.added], hq ▸ h.taken, h.marks, h.sourcePids,
      hq ▸ h.queuePids, h.originals, hq ▸ h.pieces⟩
  · have ht : t.pid ∈ pids := h.sourcePids t (by simp)
    have hqueue : ∀ p ∈ b'.queue, p.pid ∈ pids := fun p hp => by
      obtain hpt | ⟨r, hr, hpr⟩ := hT.name hp
      · rw [show p.pid = t.pid from congrArg Prod.fst hpt]
        exact ht
      · rw [← show r.pid = p.pid from congrArg Prod.fst hpr]
        exact h.queuePids r hr
    have hes : ∀ r ∈ ta ++ es ++ tb, r = t.taken ∨ r ∈ pieces ∨ r ∈ ta ++ t :: tb := by
      intro r hr
      rw [hT.entries] at hr
      simp only [List.mem_append, List.mem_cons, List.not_mem_nil, or_false] at hr ⊢
      tauto
    have hpieces : ∀ r ∈ pieces, r.onRq = 0 ∧ r.tmpSrc = 1 ∧ r.pid ∈ pids := by
      intro r hr
      obtain rfl | ⟨-, p, hp, m, rfl⟩ := hT.pieces
      · exact absurd hr (by simp)
      · rw [List.mem_singleton.1 hr]
        exact ⟨rfl, rfl, h.queuePids p hp⟩
    have hcount : ∀ f : Task → Bool, (ta ++ es ++ tb).countP f =
        ta.countP f + (pieces.countP f + (if f t.taken then 1 else 0)) + tb.countP f := by
      intro f
      rw [hT.entries]
      simp only [List.countP_append, List.countP_cons, List.countP_nil]
      omega
    have hcount₀ : ∀ f : Task → Bool, (ta ++ t :: tb).countP f =
        ta.countP f + (if f t then 1 else 0) + tb.countP f := by
      intro f
      rw [List.countP_append, List.countP_cons]
      omega
    have hbroken : pieces.countP (fun r => r.onRq = 1) = 0 ∧
        pieces.countP (fun r => r.tmpSrc = 0) = 0 ∧
        pieces.countP (fun r => r.tmpSrc = 0 ∧ r.onRq = 1) = 0 ∧
        pieces.countP (fun r => ¬ r.tmpSrc = 0) = pieces.length := by
      obtain rfl | ⟨-, p, -, m, rfl⟩ := hT.pieces <;> simp [Job.remainder]
    obtain ⟨htaken, horig, hboth, hbrokenOff⟩ := hbroken
    constructor
    · have hlen := h.processes
      rw [hT.processes, hlen, hT.entries]
      simp only [List.length_append, List.length_cons, List.length_nil]
      omega
    · rw [hT.added, hT.length, h.added]
      rfl
    · rw [hT.length, h.taken, hcount, hcount₀, htaken]
      simp [Task.taken, hT.waiting]
      omega
    · intro r hr
      obtain rfl | hr | hr := hes r hr
      · exact .inr rfl
      · exact .inl (hpieces r hr).1
      · exact h.marks r hr
    · intro r hr
      obtain rfl | hr | hr := hes r hr
      · exact ht
      · exact (hpieces r hr).2.2
      · exact h.sourcePids r hr
    · exact hqueue
    · rw [hcount, horig, ← h.originals, hcount₀, Nat.zero_add]
      rfl
    · -- the entry taken is one more original, or there was a piece already
      have hle : (ta ++ t :: tb).countP (fun t => ¬ t.tmpSrc = 0) ≤
          (ta ++ t :: tb).countP fun t => t.tmpSrc = 0 ∧ t.onRq = 1 := by
        obtain h | ⟨h, -⟩ := h.pieces <;> omega
      left
      rw [hcount, hcount, hbrokenOff, hboth]
      rw [hcount₀, hcount₀] at hle
      obtain rfl | ⟨htmp, p, hp, m, rfl⟩ := hT.pieces
      · by_cases htmp : t.tmpSrc = 0
        · simp [Task.taken, htmp, hT.waiting] at hle ⊢
          omega
        · obtain hold | ⟨hold, -⟩ := h.pieces
          · rw [hcount₀, hcount₀] at hold
            simp [Task.taken, htmp] at hold ⊢
            omega
          · rw [List.countP_eq_zero] at hold
            exact absurd (hold t (by simp)) (by simpa using htmp)
      · obtain hold | ⟨-, hold⟩ := h.pieces
        · rw [hcount₀, hcount₀] at hold
          simp [Task.taken, htmp, hT.waiting] at hold ⊢
          omega
        · exact absurd hold (List.ne_nil_of_mem hp)

/-- The lists are well formed and the counters agree with them. -/
def Bookkept (pids : List Int) (st : Stcf) : Prop :=
  ∃ src q, IsRing st.mem 0 src ∧ IsRing st.mem 1 q ∧
    st.processes = src.length ∧ st.processAdded = q.length ∧
    q.length = (src.filter fun x => (st.mem.data x).onRq = 1).length ∧
    ∀ x ∈ q, (st.mem.data x).pid ∈ pids

theorem Books.bookkept {a : Snapshot} (h : Books pids n a.tasks a.stage) : Bookkept pids a.st := by
  refine ⟨a.src, a.q, a.holds.source, a.holds.queue, ?_, ?_, ?_, fun x hx => ?_⟩
  · rw [a.holds.processes, h.processes, a.holds.source_length]
  · rw [a.holds.processAdded, h.added, a.holds.length]
  · rw [a.holds.length, h.taken, ← a.holds.tasks, List.countP_map, ← List.countP_eq_length_filter]
    rfl
  · refine h.queuePids (a.st.mem.data x).job ?_
    rw [← a.holds.jobs]
    exact List.mem_map_of_mem hx

/-- The entries that are copied to the run queue, one for each copy. -/
def copied (its : List Iteration) : List Nat :=
  (its.filter fun it => it.after.processAdded ≠ it.before.processAdded).map Iteration.entry

/-- A step writes no source entry but the one it visits. -/
theorem Snapshot.Step.data {A B A' : List Nat} (h : Snapshot.Step i x a c left A B A' ta tb es t) :
    (∀ z ∈ A ++ B, c.st.mem.data z = a.st.mem.data z) ∧ a.st.mem.data x = t ∧
      c.st.mem.data x = es.getLastD t := by
  have hold := a.holds.tasks
  have hnew := c.holds.tasks
  rw [h.src, h.tasks, List.map_append, List.map_cons] at hold
  obtain ⟨hA, hold⟩ := List.append_inj hold (by simpa using h.length)
  obtain ⟨hx, hB⟩ := List.cons.inj hold
  obtain ⟨es₀, t', rfl⟩ : ∃ es₀ t', es = es₀ ++ [t'] := by
    obtain ⟨rfl, -⟩ | ⟨pieces, hT⟩ := h.step.cases_taking
    · exact ⟨[], t, rfl⟩
    · exact ⟨pieces, t.taken, hT.entries⟩
  have hlen := h.length'
  simp only [List.length_append, List.length_cons, List.length_nil] at hlen
  rw [h.src', h.tasks', List.map_append, List.map_cons, ← List.append_assoc, List.append_assoc,
    List.singleton_append] at hnew
  obtain ⟨hA', hnew⟩ := List.append_inj hnew (by simp; omega)
  obtain ⟨hx', hB'⟩ := List.cons.inj hnew
  have hA'' : A.map c.st.mem.data = ta := by
    obtain hb | ⟨n, hb⟩ := h.before
    · subst hb
      have hnil : es₀ = [] := List.eq_nil_of_length_eq_zero (by have := h.length; omega)
      rwa [hnil, List.append_nil] at hA'
    · subst hb
      rw [List.map_append] at hA'
      exact (List.append_inj hA' (by simpa using h.length)).1
  refine ⟨fun z hz => ?_, hx, by simp [hx']⟩
  obtain hz | hz := List.mem_append.1 hz
  · exact List.map_inj_left.1 (hA''.trans hA.symm) z hz
  · exact List.map_inj_left.1 (hB'.trans hB.symm) z hz

theorem Snapshot.Step.src_subset {A B A' : List Nat}
    (h : Snapshot.Step i x a c left A B A' ta tb es t) : a.src ⊆ c.src := by
  rw [h.src, h.src']
  obtain rfl | ⟨n, rfl⟩ := h.before
  · exact fun _ hz => hz
  · intro z hz
    simp only [List.mem_append, List.mem_cons] at hz ⊢
    tauto

/-- The books are kept throughout, and no entry is copied twice. -/
structure InOrder (pids : List Int) (n : Nat) (its : List Iteration) (a : Snapshot) : Prop where
  books : Books pids n a.tasks a.stage
  kept : ∀ it ∈ its, Bookkept pids it.after
  once : (copied its).Nodup
  marked : ∀ x ∈ copied its, x ∈ a.src ∧ (a.st.mem.data x).onRq = 1

theorem copied_snoc (its : List Iteration) (it : Iteration) :
    copied (its ++ [it]) =
      if it.after.processAdded = it.before.processAdded then copied its
      else copied its ++ [it.entry] := by
  unfold copied
  rw [List.filter_append, List.map_append]
  split <;> simp_all

theorem kept_inOrder (pids : List Int) (n : Nat) : Kept (InOrder pids n) where
  restart its a h := ⟨h.books.restart, h.kept, h.once, h.marked⟩
  visit its i x a c left A B A' ta tb es t h hs := by
    have hbooks : Books pids n c.tasks c.stage := by
      rw [hs.tasks']
      exact (hs.tasks ▸ h.books).step hs.step
    have hkept : ∀ it ∈ its ++ [⟨i, x, a.st, c.st, left⟩], Bookkept pids it.after := by
      intro it hit
      obtain hit | hit := List.mem_append.1 hit
      · exact h.kept it hit
      · rw [List.mem_singleton.1 hit]
        exact hbooks.bookkept
    obtain ⟨hdata, hx, hx'⟩ := hs.data
    have hsplit : ∀ z ∈ a.src, z = x ∨ z ∈ A ++ B := by
      intro z hz
      rw [hs.src] at hz
      simp only [List.mem_append, List.mem_cons] at hz ⊢
      tauto
    obtain ⟨rfl, -, -, hadded⟩ | ⟨pieces, hT⟩ := hs.step.cases_taking
    · have hsame : copied (its ++ [⟨i, x, a.st, c.st, left⟩]) = copied its := by
        rw [copied_snoc, if_pos]
        dsimp only
        rw [a.holds.processAdded, c.holds.processAdded, hadded]
      refine ⟨hbooks, hkept, hsame ▸ h.once, fun z hz => ?_⟩
      obtain ⟨hz, hrq⟩ := h.marked z (hsame ▸ hz)
      refine ⟨hs.src_subset hz, ?_⟩
      obtain rfl | hz := hsplit z hz
      · rw [hx', ← hrq, hx]
        rfl
      · rw [hdata z hz, hrq]
    · have hmore : copied (its ++ [⟨i, x, a.st, c.st, left⟩]) = copied its ++ [x] := by
        rw [copied_snoc, if_neg]
        dsimp only
        rw [a.holds.processAdded, c.holds.processAdded, hT.added]
        omega
      have hnew : x ∉ copied its := fun hm => by
        have := (h.marked x hm).2
        rw [hx, hT.waiting] at this
        exact absurd this (by decide)
      have hrq : (c.st.mem.data x).onRq = 1 := by
        rw [hx', hT.entries]
        simp [Task.taken]
      refine ⟨hbooks, hkept, ?_, fun z hz => ?_⟩
      · rw [hmore]
        refine List.nodup_append.2 ⟨h.once, List.pairwise_singleton _ x, fun z hz y hy e => hnew ?_⟩
        rwa [← List.mem_singleton.1 hy, ← e]
      · rw [hmore] at hz
        obtain hz | hz := List.mem_append.1 hz
        · obtain ⟨hz, hzq⟩ := h.marked z hz
          refine ⟨hs.src_subset hz, ?_⟩
          obtain rfl | hz := hsplit z hz
          · exact hrq
          · rw [hdata z hz, hzq]
        · rw [List.mem_singleton.1 hz]
          refine ⟨hs.src_subset ?_, hrq⟩
          rw [hs.src]
          simp

/-- The snapshot on entry. -/
def Loaded.snapshot (h : Loaded s tasks src) : Snapshot where
  st := Stcf.init s
  src := src
  q := []
  tasks := tasks
  stage := ⟨[], tasks.length, 0, 0, 0, 0⟩
  holds := ⟨⟨h.lists, h.data, rfl⟩, h.processes, rfl, rfl, rfl, rfl⟩

/-- A workload that is read in has its books in order. -/
theorem Loaded.inOrder (h : Loaded s tasks src) (hclear : ∀ t ∈ tasks, t.onRq = 0 ∧ t.tmpSrc = 0) :
    InOrder (tasks.map Task.pid) tasks.length [] h.snapshot where
  books := by
    have hnone : ∀ f : Task → Bool, (∀ t ∈ tasks, f t = false) → tasks.countP f = 0 :=
      fun f hf => List.countP_eq_zero.2 fun t ht => by simp [hf t ht]
    refine ⟨rfl, rfl, ?_, fun t ht => .inl (hclear t ht).1, fun t ht => List.mem_map_of_mem ht,
      by simp [Loaded.snapshot], ?_, .inr ⟨?_, rfl⟩⟩
    · exact (hnone _ fun t ht => by simp [(hclear t ht).1]).symm
    · exact List.countP_eq_length.2 fun t ht => by simp [(hclear t ht).2]
    · exact hnone _ fun t ht => by simp [(hclear t ht).2]
  kept := by simp
  once := by simp [copied]
  marked := by simp [copied]

/-- `stcf_tick` ends. Its passes visit the entries present at their start, its lists and counters
    agree after every iteration, it copies no entry twice, and it breaks off less pieces than there
    are processes. -/
theorem stcf_bookkeeping (h : Loaded s tasks src) (hne : tasks ≠ [])
    (hclear : ∀ t ∈ tasks, t.onRq = 0 ∧ t.tmpSrc = 0) :
    ∃ s' st' log, stcfTick runqueue s = .ok s' ∧ s'.mem = st'.mem ∧ s'.processes = st'.processes ∧
      Passes 0 s.span.toNat (Stcf.init s) log st' ∧
      (∀ it ∈ log.flatten, Bookkept (tasks.map Task.pid) it.after) ∧ (copied log.flatten).Nodup ∧
      s'.processes ≤ 2 * (tasks.length : Int) - 1 := by
  obtain ⟨c, log, hrun, hlog, hI⟩ :=
    stcf_run (kept_inOrder _ _) (h.inOrder hclear) rfl s.span.toNat 0
  refine ⟨{ s with mem := c.st.mem, processes := c.st.processes }, c.st, log, ?_, rfl, rfl, hlog,
    by simpa using hI.kept, by simpa using hI.once, ?_⟩
  · unfold stcfTick
    exact congrArg (· >>= _) hrun
  · have hpos : 0 < tasks.length := List.length_pos_of_ne_nil hne
    have horig := hI.books.originals
    have hlen : c.tasks.length = (c.tasks.countP fun t => t.tmpSrc = 0) +
        c.tasks.countP fun t => ¬ t.tmpSrc = 0 := by
      rw [List.length_eq_countP_add_countP fun t => decide (t.tmpSrc = 0)]
      simp
    have hsub : (c.tasks.countP fun t => t.tmpSrc = 0 ∧ t.onRq = 1) ≤
        c.tasks.countP fun t => t.tmpSrc = 0 :=
      List.countP_mono_left fun t _ ht => by simp at ht ⊢; exact ht.1
    have hpieces : (c.tasks.countP fun t => ¬ t.tmpSrc = 0) + 1 ≤ tasks.length := by
      obtain hp | ⟨hp, -⟩ := hI.books.pieces <;> omega
    dsimp only
    rw [c.holds.processes, hI.books.processes, hlen, horig]
    omega

theorem stcf_bookkeeping_three : ∃ s' st' log,
    stcfTick runqueue (withProcesses [⟨0, 0, 0, 1, 0, 5⟩, ⟨0, 0, 0, 2, 2, 4⟩, ⟨0, 0, 0, 3, 1, 3⟩]) = .ok s' ∧
      s'.mem = st'.mem ∧ s'.processes = st'.processes ∧
      Passes 0 12
        (Stcf.init (withProcesses [⟨0, 0, 0, 1, 0, 5⟩, ⟨0, 0, 0, 2, 2, 4⟩, ⟨0, 0, 0, 3, 1, 3⟩])) log st' ∧
      (∀ it ∈ log.flatten, Bookkept [1, 2, 3] it.after) ∧ (copied log.flatten).Nodup ∧
      s'.processes ≤ 2 * (3 : Int) - 1 :=
  stcf_bookkeeping
    (withProcesses_loaded [⟨0, 0, 0, 1, 0, 5⟩, ⟨0, 0, 0, 2, 2, 4⟩, ⟨0, 0, 0, 3, 1, 3⟩]) (by decide)
    (by decide)

end OsBasics.Cpu
