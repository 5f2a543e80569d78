/-
  The run queue of a policy.

  `Loaded` is the state the input leaves: `srcrq` holds the requests. A policy copies
  them (`copyAll_spec`), so that the queue is a range of new nodes with the tasks in
  the order of the input, and `list_sort` orders it stably (`sort_queue`). The walks
  over the queue that follow read the cylinders in that order (`seekAll_spec`,
  `printRow_spec`).
-/
import OsBasics.Disk.Disksim
import Mathlib.Data.List.Forall2

namespace OsBasics.Disk

open OsBasics.Lib OsBasics.Lists

variable {s s' : Sim} {m m' : ListMem Task} {reqs : List Int} {src q : List Nat}
  {copy : Task → Task → Task}

/-- The state with the requests `reqs` in `srcrq`, as `read_config` leaves it. -/
structure Loaded (s : Sim) (reqs : List Int) (src : List Nat) : Prop where
  heads : s.mem.heads = 2
  queueHead : s.mem.Valid 1
  ring : IsRing s.mem 0 src
  data : src.map s.mem.data = reqs.map (request s.start)
  processes : s.processes = reqs.length

/-- A state with the requests `reqs`, in the nodes from 2 on. -/
def withRequests (start : Int) (reqs : List Int) : Sim where
  mem :=
    { next := fun x => if x = 0 then (if reqs = [] then .node 0 else .node 2)
        else if x ≤ reqs.length then .node (x + 1) else .node 0
      prev := fun x => if x = 0 then (if reqs = [] then .node 0 else .node (reqs.length + 1))
        else if x = 2 then .node 0 else .node (x - 1)
      data := fun x => request start (reqs.getD (x - 2) 0)
      alive := fun x => x < reqs.length + 2
      heads := 2
      fresh := reqs.length + 2 }
  start := start
  processes := reqs.length
  elevatorUp := 0
  fp := ""

theorem withRequests_loaded (start : Int) (reqs : List Int) :
    Loaded (withRequests start reqs) reqs (List.range' 2 reqs.length) where
  heads := rfl
  queueHead := by simp [ListMem.Valid, withRequests]
  ring := by
    refine isRing_range' (fun x hx => ?_) le_rfl fun i hi => ?_
    · simpa [ListMem.Valid, withRequests] using hx
    · have hne : i < reqs.length → reqs ≠ [] := fun h => List.ne_nil_of_length_pos (by omega)
      by_cases h0 : i = 0 <;> by_cases hn : i = reqs.length
      · simp [Link, withRequests, h0, List.eq_nil_of_length_eq_zero (hn.symm.trans h0)]
      · subst h0
        simp [Link, withRequests, hne (by omega), hn]
      · have hne : reqs ≠ [] := List.ne_nil_of_length_pos (by omega)
        simp [Link, withRequests, hne, hn]
      · have hlt : i + 1 ≤ reqs.length := by omega
        simp [Link, withRequests, h0, hn, hlt]
  data := by
    refine List.ext_getElem (by simp) fun i hi hi' => ?_
    have hi'' : i < reqs.length := by simpa using hi
    simp [withRequests, hi'']
  processes := rfl

/-! ## Copying the requests -/

/-- The requests `done` are copied to the end of `q`. -/
structure Copied (copy : Task → Task → Task) (m₀ : ListMem Task) (src q : List Nat)
    (done : List Nat) (m : ListMem Task) : Prop where
  heads : m.heads = 2
  fresh : m.fresh = m₀.fresh + done.length
  source : IsRing m 0 src
  queue : IsRing m 1 (q ++ List.range' m₀.fresh done.length)
  old : ∀ x < m₀.fresh, m.data x = m₀.data x
  new : ∀ i (hi : i < done.length), ∃ t, m.data (m₀.fresh + i) = copy (m₀.data done[i]) t

theorem Copied.start {m₀ : ListMem Task} (hh : m₀.heads = 2) (hs : IsRing m₀ 0 src)
    (hq : IsRing m₀ 1 q) : Copied copy m₀ src q [] m₀ where
  heads := hh
  fresh := rfl
  source := hs
  queue := by rwa [List.length_nil, List.range'_zero, List.append_nil]
  old _ _ := rfl
  new _ hi := absurd hi (Nat.not_lt_zero _)

/-- One request is copied. -/
theorem Copied.step {m₀ : ListMem Task} {done rest : List Nat} {x : Nat}
    (h : Copied copy m₀ src q done m) (hf : 2 ≤ m₀.fresh) (hsrc : src = done ++ x :: rest)
    (hs : ∀ y ∈ 0 :: src, y < m₀.fresh ∧ y ∉ 1 :: q) :
    ∃ m', addCopy copy runqueue (.node x) m = .ok m' ∧
      Copied copy m₀ src q (done ++ [x]) m' := by
  have hx : x ∈ src := by simp [hsrc]
  have hxv : m.Valid x := h.source.valid x (by simp [hx])
  have hle : m.heads ≤ m.fresh := by rw [h.heads, h.fresh]; omega
  obtain ⟨m', hadd, hring, hoff, hdata, hfresh⟩ :=
    addEntry_ring h.queue hle (copy (m.data x) (m.data m.fresh))
  have hend : List.range' m₀.fresh (done ++ [x]).length =
      List.range' m₀.fresh done.length ++ [m.fresh] := by
    rw [List.length_append, List.length_singleton, List.range'_concat, h.fresh, Nat.one_mul]
  refine ⟨m', ?_, ⟨hoff.heads.trans h.heads, ?_, ?_, ?_, ?_, ?_⟩⟩
  · unfold addCopy
    rw [listEntry_node hxv (h.source.entries x hx), ok_bind]
    simp only
    rw [listEntry_malloc hle, ok_bind, setEntry_malloc hle, ok_bind]
    exact hadd
  · rw [hfresh, h.fresh, List.length_append]
    rfl
  · refine h.source.congr hoff fun y hy => ?_
    -- a node of the source is neither the new one nor in the queue
    have hyv := (hs y hy).1
    rw [List.mem_cons, not_or]
    refine ⟨by have := h.fresh; omega, fun hm => ?_⟩
    rw [← List.cons_append, List.mem_append, List.mem_range'_1] at hm
    exact hm.elim (hs y hy).2 (by omega)
  · rw [hend, ← List.append_assoc]
    exact hring
  · intro y hy
    rw [hdata, Function.update_of_ne (by have := h.fresh; omega)]
    exact h.old y hy
  · intro i hi
    rw [List.length_append, List.length_singleton] at hi
    obtain hlt | rfl := Nat.lt_or_eq_of_le (Nat.lt_succ_iff.1 hi)
    · obtain ⟨t, ht⟩ := h.new i hlt
      refine ⟨t, ?_⟩
      rw [hdata, Function.update_of_ne (by have := h.fresh; omega), ht,
        List.getElem_append_left hlt]
    · refine ⟨m.data m.fresh, ?_⟩
      rw [← h.fresh, hdata, Function.update_self, h.old x (hs x (by simp [hx])).1,
        List.getElem_concat_length rfl]

/-- The loop over `srcrq` copies every request. -/
theorem copyAll_spec (copy : Task → Task → Task) (hh : m.heads = 2) (hf : 2 ≤ m.fresh) (hs : IsRing m 0 src)
    (hq : IsRing m 1 q) (hdis : ∀ y ∈ 0 :: src, y ∉ 1 :: q) :
    ∃ m', copyAll copy runqueue m = .ok m' ∧ Copied copy m src q src m' :=
  listForEach_rule (Copied copy m src q) (fun _ _ h => h.source)
    (fun _ _ _ _ hl h => h.step hf hl fun y hy => ⟨(hs.valid y hy).lt, hdis y hy⟩)
    (Copied.start hh hs hq)

/-! ## The queue before it is sorted -/

/-- The queue is the new nodes, and holds `tasks`; the source is as before. -/
structure Filled (m : ListMem Task) (src : List Nat) (tasks : List Task) (m' : ListMem Task) :
    Prop where
  heads : m'.heads = 2
  fresh : m'.fresh = m.fresh + tasks.length
  source : IsRing m' 0 src
  queue : IsRing m' 1 (List.range' m.fresh tasks.length)
  old : ∀ x ∈ src, m'.data x = m.data x
  tasks : (List.range' m.fresh tasks.length).map m'.data = tasks

/-- The tasks of the requests. -/
def requests (start : Int) (reqs : List Int) : List Task := reqs.map (request start)

/-- The tasks of the requests, and of the boundaries before and behind them. -/
def bounded (start : Int) (reqs : List Int) : List Task :=
  ⟨lowestLevel, start, 0⟩ :: requests start reqs ++ [⟨highestLevel, highestLevel - start, 1⟩]

theorem length_requests (start : Int) (reqs : List Int) :
    (requests start reqs).length = reqs.length := List.length_map _

theorem length_bounded (start : Int) (reqs : List Int) :
    (bounded start reqs).length = reqs.length + 2 := by
  simp [bounded, length_requests]

theorem Loaded.fresh (h : Loaded s reqs src) : 2 ≤ s.mem.fresh := h.queueHead.lt

theorem Loaded.length (h : Loaded s reqs src) : src.length = reqs.length := by
  have := congrArg List.length h.data
  rwa [List.length_map, List.length_map] at this

theorem Loaded.data_eq (h : Loaded s reqs src) {i : Nat} (hi : i < src.length)
    (hi' : i < reqs.length) : s.mem.data src[i] = request s.start reqs[i] := by
  have := List.getElem_of_eq h.data (i := i) (by rwa [List.length_map])
  rwa [List.getElem_map, List.getElem_map] at this

/-- `INIT_LIST_HEAD` of the run queue. -/
theorem Loaded.init (h : Loaded s reqs src) :
    ∃ m, s.mem.initListHead runqueue = .ok m ∧ Filled s.mem src [] m := by
  obtain ⟨m, hinit, hring, hoff, hdata, hfresh⟩ :=
    initListHead_ring h.queueHead
  refine ⟨m, hinit, ⟨hoff.heads.trans h.heads, hfresh, h.ring.congr hoff fun x hx => ?_, hring,
    fun _ _ => by rw [hdata], rfl⟩⟩
  rw [List.mem_singleton]
  rintro rfl
  have hentry := h.ring.entries 1 (by simpa using hx)
  rw [h.heads] at hentry
  omega

/-- The source and the queue have no node in common. -/
theorem Filled.apart {tasks : List Task} (h : Filled m src tasks m') (hv : ∀ x ∈ src, x < m.fresh)
    (hf : 2 ≤ m.fresh) : ∀ x ∈ 0 :: src, x ∉ 1 :: List.range' m.fresh tasks.length := by
  intro x hx
  rw [List.mem_cons, List.mem_range'_1, not_or]
  obtain rfl | hx := List.mem_cons.1 hx
  · omega
  · have hentry := h.source.entries x hx
    have hxv := hv x hx
    rw [h.heads] at hentry
    omega

/-- When the requests are copied the queue holds a copy of each behind what was there. -/
theorem Filled.of_copied {pre : List Task} (h : Filled s.mem src pre m) (hs : Loaded s reqs src)
    (hC : Copied copy m src (List.range' s.mem.fresh pre.length) src m') :
    ∃ ts, Filled s.mem src (pre ++ ts) m' ∧
      List.Forall₂ (fun r t' => ∃ t, t' = copy (request s.start r) t) reqs ts := by
  have hv : ∀ x ∈ src, x < s.mem.fresh := fun x hx => (hs.ring.valid x (by simp [hx])).lt
  have hrange : List.range' s.mem.fresh pre.length ++ List.range' m.fresh src.length =
      List.range' s.mem.fresh (pre.length + src.length) := by
    rw [h.fresh, List.range'_append_1]
  refine ⟨(List.range' m.fresh src.length).map m'.data, ⟨hC.heads, ?_, hC.source, ?_, ?_, ?_⟩, ?_⟩
  · rw [hC.fresh, h.fresh, List.length_append, List.length_map, List.length_range', Nat.add_assoc]
  · rw [List.length_append, List.length_map, List.length_range', ← hrange]
    exact hC.queue
  · intro x hx
    rw [hC.old x (by rw [h.fresh]; exact (hv x hx).trans_le (Nat.le_add_right _ _)), h.old x hx]
  · have hpre : (List.range' s.mem.fresh pre.length).map m'.data = pre := by
      refine (List.map_congr_left fun x hx => hC.old x ?_).trans h.tasks
      rw [h.fresh]
      exact (List.mem_range'_1.1 hx).2
    rw [List.length_append, List.length_map, List.length_range', ← hrange, List.map_append, hpre]
  · rw [List.forall₂_iff_get]
    refine ⟨by rw [List.length_map, List.length_range', hs.length], fun i hi hi' => ?_⟩
    have hi'' : i < src.length := by rwa [hs.length]
    obtain ⟨t, ht⟩ := hC.new i hi''
    refine ⟨t, ?_⟩
    simp only [List.get_eq_getElem, List.getElem_map, List.getElem_range', Nat.one_mul]
    rw [ht, h.old _ (List.getElem_mem hi''), hs.data_eq hi'' hi]

/-- The loop over the source, after `pre`. -/
theorem Filled.copyAll {pre : List Task} (h : Filled s.mem src pre m) (hs : Loaded s reqs src)
    (copy : Task → Task → Task) :
    ∃ m' ts, copyAll copy runqueue m = .ok m' ∧ Filled s.mem src (pre ++ ts) m' ∧
      List.Forall₂ (fun r t' => ∃ t, t' = copy (request s.start r) t) reqs ts := by
  have hv : ∀ x ∈ src, x < s.mem.fresh := fun x hx => (hs.ring.valid x (by simp [hx])).lt
  have hf : 2 ≤ m.fresh := by rw [h.fresh]; exact hs.fresh.trans (Nat.le_add_right _ _)
  obtain ⟨m', hcopy, hC⟩ := copyAll_spec copy h.heads hf h.source h.queue
    (h.apart hv hs.fresh)
  obtain ⟨ts, hts⟩ := h.of_copied hs hC
  exact ⟨m', ts, hcopy, hts⟩

theorem Filled.boundary {pre : List Task} (h : Filled m src pre m') (hv : ∀ x ∈ src, x < m.fresh)
    (hf : 2 ≤ m.fresh) (cylinder dist up : Int) :
    ∃ m'', addBoundary cylinder dist up runqueue m' = .ok m'' ∧
      Filled m src (pre ++ [⟨cylinder, dist, up⟩]) m'' := by
  have hle : m'.heads ≤ m'.fresh := by rw [h.heads, h.fresh]; omega
  obtain ⟨m'', hadd, hring, hoff, hdata, hfresh⟩ := addEntry_ring h.queue hle ⟨cylinder, dist, up⟩
  have hend : List.range' m.fresh (pre.length + 1) =
      List.range' m.fresh pre.length ++ [m'.fresh] := by
    rw [List.range'_concat, h.fresh, Nat.one_mul]
  refine ⟨m'', ?_, ⟨hoff.heads.trans h.heads, ?_, h.source.congr hoff fun x hx => ?_, ?_, ?_, ?_⟩⟩
  · unfold addBoundary
    simp only
    rw [setEntry_malloc hle, ok_bind]
    exact hadd
  · rw [hfresh, h.fresh, List.length_append]
    rfl
  · rw [List.mem_cons, not_or]
    exact ⟨(h.source.valid x hx).lt.ne, h.apart hv hf x hx⟩
  · rw [List.length_append, List.length_singleton, hend]
    exact hring
  · intro x hx
    rw [hdata, Function.update_of_ne (h.source.valid x (by simp [hx])).lt.ne, h.old x hx]
  · have hpre : (List.range' m.fresh pre.length).map m''.data = pre := by
      refine (List.map_congr_left fun x hx => ?_).trans h.tasks
      have hx' := (List.mem_range'_1.1 hx).2
      have hfresh' := h.fresh
      rw [hdata, Function.update_of_ne (by omega)]
    rw [List.length_append, List.length_singleton, hend, List.map_append, List.map_singleton, hpre,
      hdata, Function.update_self]

/-- With all three fields copied the copies are the requests. -/
theorem eq_requests {start : Int} {ts : List Task}
    (h : List.Forall₂ (fun r t' => ∃ t, t' = copyUp (request start r) t) reqs ts) :
    ts = requests start reqs := by
  induction h with
  | nil => rfl
  | cons hrt h ih =>
    obtain ⟨t, rfl⟩ := hrt
    rw [ih]
    rfl

theorem fillRequests_spec (h : Loaded s reqs src) :
    ∃ m, fillRequests runqueue s = .ok { s with mem := m } ∧
      Filled s.mem src (requests s.start reqs) m := by
  obtain ⟨m, hinit, hF⟩ := h.init
  obtain ⟨m', ts, hcopy, hF', hts⟩ := hF.copyAll h copyUp
  rw [eq_requests hts, List.nil_append] at hF'
  refine ⟨m', ?_, hF'⟩
  unfold fillRequests
  rw [hinit, ok_bind, hcopy]
  rfl

theorem fillBounded_spec (h : Loaded s reqs src) :
    ∃ m, fillBounded runqueue s = .ok { s with mem := m, processes := s.processes + 2 } ∧
      Filled s.mem src (bounded s.start reqs) m := by
  have hv : ∀ x ∈ src, x < s.mem.fresh := fun x hx => (h.ring.valid x (by simp [hx])).lt
  obtain ⟨m₁, hinit, hF₁⟩ := h.init
  obtain ⟨m₂, hlow, hF₂⟩ := hF₁.boundary hv h.fresh lowestLevel s.start 0
  obtain ⟨m₃, ts, hcopy, hF₃, hts⟩ := hF₂.copyAll h copyUp
  rw [eq_requests hts] at hF₃
  obtain ⟨m₄, hhigh, hF₄⟩ := hF₃.boundary hv h.fresh highestLevel (highestLevel - s.start) 1
  refine ⟨m₄, ?_, hF₄⟩
  unfold fillBounded
  rw [hinit, ok_bind, hlow, ok_bind]
  simp only
  rw [hcopy, ok_bind, hhigh, ok_bind, Int.add_assoc]
  rfl

/-! ## Sorting -/

/-- The queue `q` holds the new nodes, sorted stably by `le` on their tasks. -/
structure Ordered (le : Task → Task → Bool) (m : ListMem Task) (src : List Nat) (tasks : List Task)
    (m' : ListMem Task) (q : List Nat) : Prop where
  heads : m'.heads = 2
  fresh : m'.fresh = m.fresh + tasks.length
  source : IsRing m' 0 src
  queue : IsRing m' 1 q
  old : ∀ x ∈ src, m'.data x = m.data x
  stable : StableSort (fun x y => le (m'.data x) (m'.data y)) (List.range' m.fresh tasks.length) q
  tasks : (List.range' m.fresh tasks.length).map m'.data = tasks

/-- `list_sort` puts a queue in order. -/
theorem sort_queue {le : Task → Task → Bool} (hpre : TotalPreorder le) {cmp : Task → Task → Int}
    (hcmp : ∀ a b, cmp a b ≤ 0 ↔ le a b = true) {tasks : List Task} (h : Filled m src tasks m')
    (hv : ∀ x ∈ src, x < m.fresh) (hf : 2 ≤ m.fresh) (hne : tasks ≠ []) :
    ∃ m'' q, listSort cmp m' runqueue = .ok m'' ∧ Ordered le m src tasks m'' q := by
  have hlen : 0 < tasks.length := List.length_pos_of_ne_nil hne
  obtain ⟨m'', hsort, hring, hrel⟩ := listSort_ring cmp h.queue
    (List.ne_nil_of_length_pos (by rwa [List.length_range']))
  have hle : cmpLe cmp m' = fun x y => le (m''.data x) (m''.data y) := by
    funext x y
    rw [hrel.data, cmpLe, Bool.eq_iff_iff, decide_eq_true_eq]
    exact hcmp _ _
  rw [hle] at hring
  refine ⟨m'', _, hsort, ⟨hrel.off.heads.trans h.heads, hrel.fresh.trans h.fresh,
    h.source.congr hrel.off (h.apart hv hf), hring, fun x hx => by rw [hrel.data, h.old x hx],
    ?_, by rw [hrel.data]; exact h.tasks⟩⟩
  have hnodes : TotalPreorder fun x y => le (m''.data x) (m''.data y) :=
    ⟨fun _ _ _ => hpre.trans _ _ _, fun _ _ => hpre.total _ _⟩
  refine bottomUp_stable hnodes Nat.one_pos ?_ (Nat.succ_pos _) (sortedRuns_one _ _)
  have hpow := Nat.lt_two_pow_self (n := m'.fresh + 1)
  have hfresh := h.fresh
  rw [List.length_range']
  omega

theorem Ordered.ne_nil {le : Task → Task → Bool} {tasks : List Task}
    (h : Ordered le m src tasks m' q) (hne : tasks ≠ []) : q ≠ [] := by
  have hlen := h.stable.perm.length_eq
  rw [List.length_range'] at hlen
  exact List.ne_nil_of_length_pos (hlen ▸ List.length_pos_of_ne_nil hne)

/-- The tasks in the order of service. -/
theorem Ordered.tasks_stable {le : Task → Task → Bool} (hpre : TotalPreorder le) {tasks : List Task}
    (h : Ordered le m src tasks m' q) : StableSort le tasks (q.map m'.data) := by
  have := h.stable.map hpre m'.data fun _ _ _ _ => rfl
  rwa [h.tasks] at this

/-! ## Walking over the queue -/

/-- The cylinders of the queue `q`. -/
def cylinders (m : ListMem Task) (q : List Nat) : List Int := q.map fun x => (m.data x).cylinder

theorem cylinders_concat (m : ListMem Task) (l : List Nat) (x : Nat) :
    cylinders m (l ++ [x]) = cylinders m l ++ [(m.data x).cylinder] := List.map_append

theorem length_cylinders (m : ListMem Task) (l : List Nat) : (cylinders m l).length = l.length :=
  List.length_map _

/-- The loop that adds up distances reads the cylinders in order. -/
theorem seekAll_spec (hq : IsRing m 1 q) (step : Seek → Int → Seek) (st : Seek) :
    seekAll step runqueue m st = .ok ((cylinders m q).foldl step st) := by
  have hrule : ∃ st', seekAll step runqueue m st = .ok st' ∧
      st' = (cylinders m q).foldl step st := by
    refine listForEach_rule (fun done st' => st' = (cylinders m done).foldl step st)
      (fun _ _ _ => hq) (fun done x rest st' hl hst => ?_) rfl
    have hx : x ∈ q := by simp [hl]
    refine ⟨step st' (m.data x).cylinder, ?_, ?_⟩
    · rw [listEntry_node (hq.valid x (by simp [hx])) (hq.entries x hx)]
      rfl
    · rw [hst, cylinders_concat, List.foldl_append]
      rfl
  obtain ⟨st', hloop, rfl⟩ := hrule
  exact hloop

/-- A row as it is printed. -/
def row (name : String) (totalDist : Int) (cs : List Int) : String :=
  name ++ "," ++ toString totalDist ++ "," ++ String.intercalate "," (cs.map toString) ++ "\n"

theorem intercalate_concat (l : List String) (x : String) :
    String.intercalate "," (l ++ [x]) = String.join (l.map (· ++ ",")) ++ x := by
  induction l with
  | nil => rw [List.nil_append, String.intercalate_singleton]; rfl
  | cons y l ih =>
    rw [List.cons_append, String.intercalate_cons_of_ne_nil (by simp), ih, List.map_cons,
      String.join_cons, String.append_assoc, String.append_assoc, String.append_assoc]

/-- What `print_rq` makes of the entry at index `i` when `n` are announced. -/
def field (n : Int) (c : Int × Nat) : String :=
  toString c.1 ++ if (c.2 : Int) + 1 = n then "\n" else ","

/-- The loop of `print_rq` over any queue. -/
theorem printRq_fields (hq : IsRing s.mem 1 q) :
    printRq runqueue s = .ok { s with
      fp := s.fp ++ String.join ((cylinders s.mem q).zipIdx.map (field s.processes)) } := by
  unfold printRq
  refine bind_of_ok ((listForEach_rule (fun done (st : Int × String) => st.1 = done.length ∧
    st.2 = s.fp ++ String.join ((cylinders s.mem done).zipIdx.map (field s.processes)))
    (fun _ _ _ => hq) (fun done x rest st hl hst => ?_) ⟨rfl, by simp [cylinders]⟩).imp
      fun st h => ⟨h.1, ?_⟩)
  · obtain ⟨i, fp⟩ := st
    obtain ⟨hi, hfp⟩ := hst
    have hx : x ∈ q := by simp [hl]
    refine ⟨(done.length + 1, fp ++ field s.processes ((s.mem.data x).cylinder, done.length)),
      ?_, by simp, ?_⟩
    · simp only
      rw [listEntry_node (hq.valid x (by simp [hx])) (hq.entries x hx), ok_bind]
      simp only [show i = done.length from hi, field]
      split <;> rw [String.append_assoc] <;> rfl
    · rw [cylinders_concat, List.zipIdx_append, List.map_append, String.join_append,
        ← String.append_assoc, ← show fp = _ from hfp, length_cylinders]
      simp [String.join_cons]
  · rw [← h.2.2]
    rfl

/-- With the number of entries in `processes` they stand in one line. -/
theorem join_fields {cs : List Int} (hne : cs ≠ []) :
    String.join (cs.zipIdx.map (field cs.length)) =
      String.intercalate "," (cs.map toString) ++ "\n" := by
  obtain ⟨A, c, rfl⟩ : ∃ A c, cs = A ++ [c] :=
    ⟨cs.dropLast, cs.getLast hne, (List.dropLast_append_getLast hne).symm⟩
  have hinner : A.zipIdx.map (field (A ++ [c]).length) = (A.map toString).map (· ++ ",") := by
    refine List.ext_getElem (by simp) fun i hi _ => ?_
    have hi' : i < A.length := by simpa using hi
    simp [field, hi'.ne]
  rw [List.map_append, List.map_singleton, intercalate_concat, List.zipIdx_append, List.map_append,
    hinner, String.join_append, String.append_assoc]
  simp [field, String.join_cons]

/-- `print_rq` ends the row that was begun. -/
theorem printRow_spec (hq : IsRing s.mem 1 q) (hne : q ≠ []) (hn : s.processes = q.length)
    (name : String) (totalDist : Int) :
    printRow name totalDist runqueue s =
      .ok { s with fp := s.fp ++ row name totalDist (cylinders s.mem q) } := by
  unfold printRow
  rw [printRq_fields (by exact hq)]
  simp only
  rw [hn, ← length_cylinders s.mem q, join_fields (by simpa [cylinders] using hne)]
  simp only [row, String.append_assoc]

end OsBasics.Disk
