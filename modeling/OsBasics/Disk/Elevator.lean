/-
  The elevator policies: SCAN and C-SCAN, LOOK and C-LOOK.

  `elevator_order`: the queues of SCAN and C-SCAN are the stable sorts by their
  comparators, which make two sweeps. `early_stopping`: LOOK and C-LOOK serve the
  requests in the order of SCAN and C-SCAN, and report the length of their path.
  `sweeps_iff`: the head of SCAN and LOOK passes no request that is served later,
  except on the way up with a request at the start cylinder, which `read_config`
  does not count among those on the way up.
-/
import OsBasics.Disk.Policies

namespace OsBasics.Disk

open OsBasics.Lib OsBasics.Lists

variable {s : Sim} {reqs : List Int} {src q : List Nat} {tasks : List Task} {bit : Bool}
  {m m' m₁ m₂ : ListMem Task}

/-! ## Service orders -/

/-- The queue in memory is a ring, which holds the new entries, sorted stably by `cmp`, and makes
    the sweeps `r₁` and `r₂`. -/
structure ServiceOrder (cmp : Task → Task → Int) (bit : Bool) (r₁ r₂ : Int → Int → Prop)
    (first : Nat) (tasks : List Task) (m : ListMem Task) (q : List Nat) : Prop where
  ring : IsRing m 1 q
  stable : StableSort (fun x y => cmp (m.data x) (m.data y) ≤ 0)
    (List.range' first tasks.length) q
  sweeps : TwoPhases (fun t => decide (t.up ≠ 0) = bit) r₁ r₂ (q.map m.data)
  holds : (List.range' first tasks.length).map m.data = tasks

theorem Ordered.service {le : Task → Task → Bool} {cmp : Task → Task → Int}
    {r₁ r₂ : Int → Int → Prop} (h : Ordered le m src tasks m' q)
    (hcmp : ∀ a b, cmp a b ≤ 0 ↔ le a b = true) (hpre : TotalPreorder le)
    (hphases : (q.map m'.data).Pairwise (fun a b => le a b) →
      TwoPhases (fun t => decide (t.up ≠ 0) = bit) r₁ r₂ (q.map m'.data)) :
    ServiceOrder cmp bit r₁ r₂ m.fresh tasks m' q where
  ring := h.queue
  stable := by
    have hle : (fun x y => decide (cmp (m'.data x) (m'.data y) ≤ 0)) =
        fun x y => le (m'.data x) (m'.data y) := by
      funext x y
      rw [Bool.eq_iff_iff, decide_eq_true_eq]
      exact hcmp _ _
    rw [hle]
    exact h.stable
  sweeps := hphases (h.tasks_stable hpre).sorted
  holds := h.tasks

theorem Ordered.aimed {le : Task → Task → Bool} (hpre : TotalPreorder le) {start : Int}
    (h : Ordered le m src tasks m' q) (ha : ∀ t ∈ tasks, Aimed start t) :
    ∀ t ∈ q.map m'.data, Aimed start t :=
  fun t ht => ha t ((h.tasks_stable hpre).perm.subset ht)

/-- SCAN and C-SCAN leave the requests and the boundaries in elevator order. -/
theorem elevator_order (h : Loaded s reqs src) (bit : Bool) :
    (∃ s' q, scanTick bit runqueue s = .ok s' ∧
      ServiceOrder (scanCompare (truth bit)) bit (along bit) (along !bit) s.mem.fresh
        (bounded s.start reqs) s'.mem q) ∧
    (∃ s' q, cscanTick bit runqueue s = .ok s' ∧
      ServiceOrder (cscanCompare (truth bit)) bit (along bit) (along bit) s.mem.fresh
        (bounded s.start reqs) s'.mem q) := by
  obtain ⟨s₁, q₁, hrun₁, hS₁⟩ := scan_served h bit
  obtain ⟨s₂, q₂, hrun₂, hS₂⟩ := cscan_served h bit
  have ha := bounded_aimed s.start reqs
  refine ⟨⟨s₁, q₁, hrun₁, hS₁.order.service (scanCompare_le_iff bit) (totalPreorder_lexLe _ _) ?_⟩,
    ⟨s₂, q₂, hrun₂, hS₂.order.service (cscanCompare_le_iff bit) (totalPreorder_lexLe _ _) ?_⟩⟩
  · exact scan_phases (hS₁.order.aimed (totalPreorder_lexLe _ _) ha)
  · exact cscan_phases (hS₂.order.aimed (totalPreorder_lexLe _ _) ha)

theorem elevator_order_two :
    (∃ s' q, scanTick true runqueue (withRequests 50 [40, 61]) = .ok s' ∧
      ServiceOrder (scanCompare (truth true)) true (along true) (along !true) (withRequests 50 [40, 61]).mem.fresh
        (bounded (withRequests 50 [40, 61]).start [40, 61]) s'.mem q) ∧
    (∃ s' q, cscanTick true runqueue (withRequests 50 [40, 61]) = .ok s' ∧
      ServiceOrder (cscanCompare (truth true)) true (along true) (along true) (withRequests 50 [40, 61]).mem.fresh
        (bounded (withRequests 50 [40, 61]).start [40, 61]) s'.mem q) :=
  elevator_order (withRequests_loaded 50 [40, 61]) true

/-! ## Stopping early -/

/-- Behind the entry of the low boundary come those of the requests. -/
theorem inner_tasks {f : Nat} {start : Int}
    (h : (List.range' f (reqs.length + 2)).map m.data = bounded start reqs) :
    (List.range' (f + 1) reqs.length).map m.data = requests start reqs := by
  rw [List.range'_succ, List.map_cons, List.range'_concat, List.map_append] at h
  refine (List.append_inj (List.cons.inj h).2 ?_).1
  rw [List.length_map, List.length_range', length_requests]

/-- With the boundaries a request is one entry further. -/
theorem data_shift {f : Nat} {start : Int}
    (h₁ : (List.range' f (reqs.length + 2)).map m₁.data = bounded start reqs)
    (h₂ : (List.range' f reqs.length).map m₂.data = requests start reqs) :
    ∀ x ∈ List.range' f reqs.length, m₁.data (x + 1) = m₂.data x := by
  have h := inner_tasks h₁
  rw [List.range'_succ_left, List.map_map, ← h₂] at h
  exact List.map_inj_left.1 h

/-- Without its first and last entry a range is a shorter one, shifted. -/
theorem range'_inner (f n : Nat) :
    ((List.range' f (n + 2)).filter fun x => x ≠ f ∧ x ≠ f + n + 1) =
      (List.range' f n).map (· + 1) := by
  have hcut : List.range' f (n + 2) = f :: (List.range' (f + 1) n ++ [f + n + 1]) := by
    rw [List.range'_succ, List.range'_concat]
    congr 3
    omega
  have hinner : (List.range' (f + 1) n).filter (fun x => decide (x ≠ f ∧ x ≠ f + n + 1)) =
      List.range' (f + 1) n := by
    refine List.filter_eq_self.2 fun x hx => ?_
    rw [List.mem_range'_1] at hx
    exact decide_eq_true ⟨by omega, by omega⟩
  rw [hcut, List.filter_cons_of_neg (by simp), List.filter_append, hinner,
    List.filter_cons_of_neg (by simp), List.filter_nil, List.append_nil]
  exact List.range'_succ_left

/-- The requests are served in one order with the boundaries and without. -/
theorem same_order {le : Task → Task → Bool} (hpre : TotalPreorder le) {start : Int} {q₁ q₂ : List Nat}
    (h₁ : Ordered le m src (bounded start reqs) m₁ q₁)
    (h₂ : Ordered le m src (requests start reqs) m₂ q₂) :
    (q₁.filter fun x => x ≠ m.fresh ∧ x ≠ m.fresh + reqs.length + 1) = q₂.map (· + 1) := by
  have hdata := data_shift (length_bounded start reqs ▸ h₁.tasks)
    (length_requests start reqs ▸ h₂.tasks)
  have hnodes : TotalPreorder fun x y => le (m₁.data x) (m₁.data y) :=
    ⟨fun _ _ _ => hpre.trans _ _ _, fun _ _ => hpre.total _ _⟩
  have hs₁ := h₁.stable.filter fun x => decide (x ≠ m.fresh ∧ x ≠ m.fresh + reqs.length + 1)
  rw [length_bounded, range'_inner] at hs₁
  have hs₂ := h₂.stable.map hnodes (· + 1) fun a ha b hb => by
    rw [length_requests] at ha hb
    rw [hdata a ha, hdata b hb]
  rw [length_requests] at hs₂
  exact hs₁.unique hnodes hs₂

/-- The policy that left `s₂` serves the requests as the one that left `s₁`, and reports the
    length of its path. Request `i` is the entry `i + 1` of the new ones in `s₁` and the entry `i`
    in `s₂`. -/
structure EarlyStop (name : String) (s : Sim) (reqs : List Int) (s₁ : Sim) (q₁ : List Nat)
    (s₂ : Sim) (q₂ : List Nat) : Prop where
  full : IsRing s₁.mem 1 q₁
  fullTasks : (List.range' s.mem.fresh (reqs.length + 2)).map s₁.mem.data = bounded s.start reqs
  early : IsRing s₂.mem 1 q₂
  earlyTasks : (List.range' s.mem.fresh reqs.length).map s₂.mem.data = requests s.start reqs
  order : (q₁.filter fun x => x ≠ s.mem.fresh ∧ x ≠ s.mem.fresh + reqs.length + 1) =
    q₂.map (· + 1)
  total : s₂.fp = s.fp ++
    row name (pathLength s.start (cylinders s₂.mem q₂)) (cylinders s₂.mem q₂)

theorem earlyStop {le : Task → Task → Bool} {name₁ name₂ : String}
    {step₁ step₂ : Seek → Int → Seek} {s₁ s₂ : Sim} {q₁ q₂ : List Nat} (hpre : TotalPreorder le)
    (h₁ : Served le name₁ step₁ s src (bounded s.start reqs) s₁ q₁)
    (h₂ : Served le name₂ step₂ s src (requests s.start reqs) s₂ q₂)
    (hpath : ∀ cs, reported step₂ s.start cs = pathLength s.start cs) :
    EarlyStop name₂ s reqs s₁ q₁ s₂ q₂ where
  full := h₁.order.queue
  fullTasks := length_bounded s.start reqs ▸ h₁.order.tasks
  early := h₂.order.queue
  earlyTasks := length_requests s.start reqs ▸ h₂.order.tasks
  order := same_order hpre h₁.order h₂.order
  total := by rw [h₂.fp, hpath]

/-- The cylinders of the shorter order are among those of the longer one. -/
theorem EarlyStop.sublist {name : String} {s₁ s₂ : Sim} {q₁ q₂ : List Nat}
    (h : EarlyStop name s reqs s₁ q₁ s₂ q₂)
    (hperm : q₂.Perm (List.range' s.mem.fresh reqs.length)) :
    (cylinders s₂.mem q₂).Sublist (cylinders s₁.mem q₁) := by
  have hshift := data_shift h.fullTasks h.earlyTasks
  have hcyl : cylinders s₂.mem q₂ = cylinders s₁.mem (q₂.map (· + 1)) := by
    rw [cylinders, cylinders, List.map_map]
    exact List.map_congr_left fun x hx => by
      rw [Function.comp_apply, hshift x (hperm.subset hx)]
  rw [hcyl, ← h.order]
  exact List.filter_sublist.map _

/-- LOOK and C-LOOK serve the requests as SCAN and C-SCAN do. -/
theorem early_stopping (h : Loaded s reqs src) (hne : reqs ≠ []) (bit : Bool) :
    (∃ s₁ q₁ s₂ q₂, scanTick bit runqueue s = .ok s₁ ∧ lookTick bit runqueue s = .ok s₂ ∧
      EarlyStop "LOOK" s reqs s₁ q₁ s₂ q₂ ∧
      ∃ total, s₁.fp = s.fp ++ row "SCAN" total (cylinders s₁.mem q₁) ∧
        pathLength s.start (cylinders s₂.mem q₂) ≤ total) ∧
    (∃ s₁ q₁ s₂ q₂, cscanTick bit runqueue s = .ok s₁ ∧ clookTick bit runqueue s = .ok s₂ ∧
      EarlyStop "CLOOK" s reqs s₁ q₁ s₂ q₂) := by
  obtain ⟨s₁, q₁, hscan, hS₁⟩ := scan_served h bit
  obtain ⟨s₂, q₂, hlook, hS₂⟩ := look_served h hne bit
  obtain ⟨s₃, q₃, hcscan, hS₃⟩ := cscan_served h bit
  obtain ⟨s₄, q₄, hclook, hS₄⟩ := clook_served h hne bit
  have hE := earlyStop (totalPreorder_lexLe _ _) hS₁ hS₂ (reported_move _)
  have hcircle : ∀ cs, reported (Seek.circle fun c => c = 0) s.start cs = pathLength s.start cs := by
    intro cs
    rw [reported_circle rfl]
    have hnone : (cs.filter fun c => decide (c = 0) ∧ c ≠ 0) = [] :=
      List.filter_eq_nil_iff.2 fun c _ => by simp
    rw [hnone]
    exact Int.add_zero _
  have hperm : q₂.Perm (List.range' s.mem.fresh reqs.length) :=
    length_requests s.start reqs ▸ hS₂.order.stable.perm
  refine ⟨⟨s₁, q₁, s₂, q₂, hscan, hlook, hE, _, hS₁.fp, ?_⟩,
    ⟨s₃, q₃, s₄, q₄, hcscan, hclook, earlyStop (totalPreorder_lexLe _ _) hS₃ hS₄ hcircle⟩⟩
  rw [reported_move]
  exact pathLength_sublist (hE.sublist hperm) _

theorem early_stopping_two :
    (∃ s₁ q₁ s₂ q₂, scanTick true runqueue (withRequests 50 [40, 61]) = .ok s₁ ∧
      lookTick true runqueue (withRequests 50 [40, 61]) = .ok s₂ ∧
      EarlyStop "LOOK" (withRequests 50 [40, 61]) [40, 61] s₁ q₁ s₂ q₂ ∧
      ∃ total, s₁.fp = (withRequests 50 [40, 61]).fp ++ row "SCAN" total (cylinders s₁.mem q₁) ∧
        pathLength (withRequests 50 [40, 61]).start (cylinders s₂.mem q₂) ≤ total) ∧
    (∃ s₁ q₁ s₂ q₂, cscanTick true runqueue (withRequests 50 [40, 61]) = .ok s₁ ∧
      clookTick true runqueue (withRequests 50 [40, 61]) = .ok s₂ ∧
      EarlyStop "CLOOK" (withRequests 50 [40, 61]) [40, 61] s₁ q₁ s₂ q₂) :=
  early_stopping (withRequests_loaded 50 [40, 61]) (by decide) true

/-! ## Requests the head passes -/

/-- The head, at `a`, serves the entries in order. When it moves on, no request that is served
    later lies where it stood or in between. -/
def Sweeps (isRequest : Nat → Prop) (cyl : Nat → Int) : Int → List Nat → Prop
  | _, [] => True
  | a, x :: q =>
    (cyl x ≠ a → ∀ y ∈ q, isRequest y →
      cyl y ≠ a ∧ ¬ (a < cyl y ∧ cyl y < cyl x) ∧ ¬ (cyl x < cyl y ∧ cyl y < a)) ∧
    Sweeps isRequest cyl (cyl x) q

section Sweeps

variable {isRequest : Nat → Prop} {cyl : Nat → Int} {a : Int} {A B : List Nat}

/-- Sweeping is the same in the mirror. -/
theorem sweeps_neg (isRequest : Nat → Prop) (cyl : Nat → Int) (a : Int) (q : List Nat) :
    Sweeps isRequest (fun x => -cyl x) (-a) q ↔ Sweeps isRequest cyl a q := by
  induction q generalizing a with
  | nil => exact Iff.rfl
  | cons x q ih =>
    refine and_congr (imp_congr ?_ (forall₂_congr fun y _ => imp_congr Iff.rfl ?_)) (ih _) <;>
      dsimp only <;> omega

/-- One sweep down passes nothing. -/
theorem sweeps_down (hB : B.Pairwise fun x y => cyl y ≤ cyl x) (ha : ∀ y ∈ B, cyl y ≤ a) :
    Sweeps isRequest cyl a B := by
  induction B generalizing a with
  | nil => trivial
  | cons x B ih =>
    obtain ⟨hx, hB⟩ := List.pairwise_cons.1 hB
    have hxa := ha x List.mem_cons_self
    refine ⟨fun hne y hy _ => ?_, ih hB hx⟩
    have hyx := hx y hy
    omega

/-- A sweep up from `a` and one down of what lies at or below `a` pass the requests at `a`, if
    the first leaves `a`, and no others. -/
theorem sweeps_up_down (hA : A.Pairwise fun x y => cyl x ≤ cyl y) (haA : ∀ y ∈ A, a ≤ cyl y)
    (hB : B.Pairwise fun x y => cyl y ≤ cyl x) (haB : ∀ y ∈ B, cyl y ≤ a) :
    Sweeps isRequest cyl a (A ++ B) ↔
      ((∃ x ∈ A, cyl x ≠ a) → ∀ y ∈ B, isRequest y → cyl y ≠ a) := by
  induction A generalizing a with
  | nil => exact iff_of_true (sweeps_down hB haB) fun ⟨x, hx, _⟩ => absurd hx List.not_mem_nil
  | cons x A ih =>
    obtain ⟨hx, hA⟩ := List.pairwise_cons.1 hA
    have hax := haA x List.mem_cons_self
    have hrest := ih hA hx fun y hy => (haB y hy).trans hax
    rw [List.cons_append, Sweeps, hrest]
    by_cases hxa : cyl x = a
    · rw [hxa]
      simp [hxa]
    · constructor
      · intro h _ y hy hreq
        exact (h.1 hxa y (List.mem_append_right A hy) hreq).1
      · intro h
        have hB' := h ⟨x, List.mem_cons_self, hxa⟩
        refine ⟨fun _ y hy hreq => ?_, fun _ y hy _ => ?_⟩
        · obtain hy | hy := List.mem_append.1 hy
          · have := hx y hy
            omega
          · have := haB y hy
            have := hB' y hy hreq
            omega
        · have := haB y hy
          omega

/-- The same with the sweep down first. -/
theorem sweeps_down_up (hA : A.Pairwise fun x y => cyl y ≤ cyl x) (haA : ∀ y ∈ A, cyl y ≤ a)
    (hB : B.Pairwise fun x y => cyl x ≤ cyl y) (haB : ∀ y ∈ B, a ≤ cyl y) :
    Sweeps isRequest cyl a (A ++ B) ↔
      ((∃ x ∈ A, cyl x ≠ a) → ∀ y ∈ B, isRequest y → cyl y ≠ a) := by
  rw [← sweeps_neg, sweeps_up_down (hA.imp fun h => Int.neg_le_neg h)
    (fun y hy => Int.neg_le_neg (haA y hy)) (hB.imp fun h => Int.neg_le_neg h)
    (fun y hy => Int.neg_le_neg (haB y hy))]
  simp only [ne_eq, Int.neg_inj]

end Sweeps

/-- The cylinder of a node. -/
def cylinderAt (m : ListMem Task) (x : Nat) : Int := (m.data x).cylinder

/-- Two sweeps from `start` over entries above it and entries below it. -/
theorem sweeps_phases {start : Int} {isRequest : Nat → Prop}
    (hphases : TwoPhases (fun t => decide (t.up ≠ 0) = bit) (along bit) (along !bit) (q.map m.data))
    (hup : ∀ x ∈ q, (m.data x).up ≠ 0 → start ≤ cylinderAt m x)
    (hdown : ∀ x ∈ q, ¬ (m.data x).up ≠ 0 → cylinderAt m x ≤ start) :
    Sweeps isRequest (cylinderAt m) start q ↔
      ((∃ x ∈ q, decide ((m.data x).up ≠ 0) = bit ∧ cylinderAt m x ≠ start) →
        ∀ y ∈ q, decide ((m.data y).up ≠ 0) ≠ bit → isRequest y → cylinderAt m y ≠ start) := by
  obtain ⟨TA, TB, hq, hfst, hsnd, hA, hB⟩ := hphases
  obtain ⟨A, B, rfl, rfl, rfl⟩ := List.map_eq_append_iff.1 hq
  rw [List.map_map, List.pairwise_map] at hA hB
  have hfst' : ∀ x ∈ A, decide ((m.data x).up ≠ 0) = bit :=
    fun x hx => hfst _ (List.mem_map_of_mem hx)
  have hsnd' : ∀ x ∈ B, decide ((m.data x).up ≠ 0) ≠ bit :=
    fun x hx => hsnd _ (List.mem_map_of_mem hx)
  have hsweep : Sweeps isRequest (cylinderAt m) start (A ++ B) ↔
      ((∃ x ∈ A, cylinderAt m x ≠ start) →
        ∀ y ∈ B, isRequest y → cylinderAt m y ≠ start) := by
    cases bit with
    | true =>
      refine sweeps_up_down hA (fun y hy => hup y (List.mem_append_left B hy)
        (of_decide_eq_true (hfst' y hy))) hB fun y hy => hdown y (List.mem_append_right A hy) ?_
      exact fun h => hsnd' y hy (decide_eq_true h)
    | false =>
      refine sweeps_down_up hA (fun y hy => hdown y (List.mem_append_left B hy)
        (of_decide_eq_false (hfst' y hy))) hB fun y hy => hup y (List.mem_append_right A hy) ?_
      exact fun h => hsnd' y hy (decide_eq_false (not_not.2 h))
  rw [hsweep]
  refine imp_congr ?_ ?_
  · constructor
    · exact fun ⟨x, hx, hne⟩ => ⟨x, List.mem_append_left B hx, hfst' x hx, hne⟩
    · exact fun ⟨x, hx, hb, hne⟩ =>
        ⟨x, (List.mem_append.1 hx).resolve_right fun h => hsnd' x h hb, hne⟩
  · constructor
    · exact fun h y hy hb =>
        h y ((List.mem_append.1 hy).resolve_left fun hA => hb (hfst' y hA))
    · exact fun h y hy => h y (List.mem_append_right A hy) (hsnd' y hy)

/-- Where the entries lie, and what the head passes, in a queue of sweeps. -/
theorem Ordered.passes_iff {start : Int} {isRequest : Nat → Prop}
    (h : Ordered (scanLe bit) m src tasks m' q) (ha : ∀ t ∈ tasks, Aimed start t)
    (hup : ∀ t ∈ tasks, t.up ≠ 0 → start ≤ t.cylinder)
    (hdown : ∀ t ∈ tasks, ¬ t.up ≠ 0 → t.cylinder ≤ start)
    (hreq : ∀ x ∈ q, isRequest x → ∃ r ∈ reqs, m'.data x = request start r)
    (hstart : start ∈ reqs → ∃ x ∈ q, isRequest x ∧ m'.data x = request start start) :
    Sweeps isRequest (cylinderAt m') start q ↔
      bit = false ∨ start ∉ reqs ∨ ∀ t ∈ tasks, t.up ≠ 0 → t.cylinder = start := by
  have hstable := h.tasks_stable (totalPreorder_lexLe _ _)
  have hmem : ∀ x ∈ q, m'.data x ∈ tasks :=
    fun x hx => hstable.perm.subset (List.mem_map_of_mem hx)
  rw [sweeps_phases (scan_phases (h.aimed (totalPreorder_lexLe _ _) ha) hstable.sorted)
    (fun x hx => hup _ (hmem x hx)) fun x hx => hdown _ (hmem x hx)]
  have hrequest : (request start start).up = 0 := by simp [request, truth]
  cases bit with
  | false =>
    refine iff_of_true (fun _ y hy hup' hreq' => ?_) (.inl rfl)
    obtain ⟨r, -, hr⟩ := hreq y hy hreq'
    rw [hr] at hup'
    rw [cylinderAt, hr]
    -- a request on the way up lies above the start
    intro he
    obtain rfl : r = start := he
    exact hup' (decide_eq_false (not_not.2 hrequest))
  | true =>
    constructor
    · intro hsweep
      by_cases hin : start ∈ reqs
      · obtain ⟨y, hy, hreq', hdata⟩ := hstart hin
        refine .inr (.inr fun t ht hut => by_contra fun hne => ?_)
        obtain ⟨x, hx, rfl⟩ := List.mem_map.1 (hstable.perm.symm.subset ht)
        refine hsweep ⟨x, hx, decide_eq_true hut, hne⟩ y hy ?_ hreq' (by rw [cylinderAt, hdata]; rfl)
        rw [hdata, hrequest]
        decide
      · exact .inr (.inl hin)
    · rintro (hb | hout | hflat) ⟨x, hx, hb', hne⟩ y hy - hreq' he
      · exact absurd hb (by decide)
      · obtain ⟨r, hr, hdata⟩ := hreq y hy hreq'
        rw [cylinderAt, hdata] at he
        exact hout (by rw [← show r = start from he]; exact hr)
      · exact hne (hflat _ (hmem x hx) (of_decide_eq_true hb'))

/-- The entries of the requests in a queue with the boundaries. -/
def innerEntry (s : Sim) (reqs : List Int) (x : Nat) : Prop :=
  x ∈ List.range' (s.mem.fresh + 1) reqs.length

theorem request_up (start r : Int) : (request start r).up ≠ 0 ↔ start < r := by
  change truth (decide (r - start > 0)) ≠ 0 ↔ _
  by_cases h : r - start > 0
  · rw [decide_eq_true h]
    exact iff_of_true (by decide) (by omega)
  · rw [decide_eq_false h]
    exact iff_of_false (by decide) (by omega)

theorem requests_sides {start : Int} {t : Task} (ht : t ∈ requests start reqs) :
    (t.up ≠ 0 → start < t.cylinder) ∧ (¬ t.up ≠ 0 → t.cylinder ≤ start) := by
  obtain ⟨r, -, rfl⟩ := List.mem_map.1 ht
  rw [request_up]
  exact ⟨fun h => h, fun h => Int.not_lt.1 h⟩

theorem bounded_sides {start : Int} (hs : 0 ≤ start ∧ start ≤ 200) {t : Task}
    (ht : t ∈ bounded start reqs) :
    (t.up ≠ 0 → start ≤ t.cylinder) ∧ (¬ t.up ≠ 0 → t.cylinder ≤ start) := by
  obtain rfl | ht | rfl := mem_bounded.1 ht
  · exact ⟨fun h => absurd rfl h, fun _ => hs.1⟩
  · exact ⟨fun h => ((requests_sides ht).1 h).le, (requests_sides ht).2⟩
  · exact ⟨fun _ => hs.2, fun h => absurd Int.one_ne_zero h⟩

/-- SCAN passes a request exactly on the way up with one at the start cylinder, unless all it
    serves on the way up lies there. -/
theorem scan_sweeps_iff (h : Loaded s reqs src) (hs : 0 ≤ s.start ∧ s.start ≤ 200) (bit : Bool) :
    ∃ s' q, scanTick bit runqueue s = .ok s' ∧
      ServiceOrder (scanCompare (truth bit)) bit (along bit) (along !bit) s.mem.fresh
        (bounded s.start reqs) s'.mem q ∧
      (Sweeps (innerEntry s reqs) (cylinderAt s'.mem) s.start q ↔
        bit = false ∨ s.start ∉ reqs ∨
          ∀ t ∈ bounded s.start reqs, t.up ≠ 0 → t.cylinder = s.start) := by
  obtain ⟨s', q, hrun, hS⟩ := scan_served h bit
  have hinner := inner_tasks (length_bounded s.start reqs ▸ hS.order.tasks)
  have hperm := hS.order.stable.perm
  rw [length_bounded] at hperm
  refine ⟨s', q, hrun, hS.order.service (scanCompare_le_iff bit) (totalPreorder_lexLe _ _)
    (scan_phases (hS.order.aimed (totalPreorder_lexLe _ _) (bounded_aimed s.start reqs))),
    hS.order.passes_iff (bounded_aimed s.start reqs) (fun t ht => (bounded_sides hs ht).1)
      (fun t ht => (bounded_sides hs ht).2) (fun x _ hx => ?_) fun hin => ?_⟩
  · have hmem := List.mem_map_of_mem (f := s'.mem.data) hx
    rw [hinner] at hmem
    obtain ⟨r, hr, he⟩ := List.mem_map.1 hmem
    exact ⟨r, hr, he.symm⟩
  · have hmem : request s.start s.start ∈ requests s.start reqs := List.mem_map_of_mem hin
    rw [← hinner] at hmem
    obtain ⟨x, hx, he⟩ := List.mem_map.1 hmem
    refine ⟨x, hperm.symm.subset ?_, hx, he⟩
    rw [List.mem_range'_1] at hx ⊢
    omega

theorem look_sweeps_iff (h : Loaded s reqs src) (hne : reqs ≠ []) (bit : Bool) :
    ∃ s' q, lookTick bit runqueue s = .ok s' ∧
      ServiceOrder (scanCompare (truth bit)) bit (along bit) (along !bit) s.mem.fresh
        (requests s.start reqs) s'.mem q ∧
      (Sweeps (fun _ => True) (cylinderAt s'.mem) s.start q ↔
        bit = false ∨ s.start ∉ reqs ∨
          ∀ t ∈ requests s.start reqs, t.up ≠ 0 → t.cylinder = s.start) := by
  obtain ⟨s', q, hrun, hS⟩ := look_served h hne bit
  have hstable := hS.order.tasks_stable (totalPreorder_lexLe _ _)
  refine ⟨s', q, hrun, hS.order.service (scanCompare_le_iff bit) (totalPreorder_lexLe _ _)
    (scan_phases (hS.order.aimed (totalPreorder_lexLe _ _) (requests_aimed s.start reqs))),
    hS.order.passes_iff (requests_aimed s.start reqs) (fun t ht hu => ((requests_sides ht).1 hu).le)
      (fun t ht => (requests_sides ht).2) (fun x hx _ => ?_) fun hin => ?_⟩
  · obtain ⟨r, hr, he⟩ := List.mem_map.1 (hstable.perm.subset (List.mem_map_of_mem hx))
    exact ⟨r, hr, he.symm⟩
  · have hmem : request s.start s.start ∈ requests s.start reqs := List.mem_map_of_mem hin
    obtain ⟨x, hx, he⟩ := List.mem_map.1 (hstable.perm.symm.subset hmem)
    exact ⟨x, hx, trivial, he⟩

/-- With the disk's cylinders only, SCAN and LOOK pass no request exactly when the elevator goes
    down, or no request lies at the start cylinder, or that is the last one. -/
theorem sweeps_iff (h : Loaded s reqs src) (hne : reqs ≠ []) (hs : 0 ≤ s.start ∧ s.start ≤ 200)
    (hr : ∀ r ∈ reqs, 0 ≤ r ∧ r ≤ 200) (bit : Bool) :
    ∃ s₁ q₁ s₂ q₂, scanTick bit runqueue s = .ok s₁ ∧ lookTick bit runqueue s = .ok s₂ ∧
      ServiceOrder (scanCompare (truth bit)) bit (along bit) (along !bit) s.mem.fresh
        (bounded s.start reqs) s₁.mem q₁ ∧
      ServiceOrder (scanCompare (truth bit)) bit (along bit) (along !bit) s.mem.fresh
        (requests s.start reqs) s₂.mem q₂ ∧
      (Sweeps (innerEntry s reqs) (cylinderAt s₁.mem) s.start q₁ ∧
          Sweeps (fun _ => True) (cylinderAt s₂.mem) s.start q₂ ↔
        bit = false ∨ s.start ∉ reqs ∨ s.start = 200) := by
  obtain ⟨s₁, q₁, hscan, hS₁, hiff₁⟩ := scan_sweeps_iff h hs bit
  obtain ⟨s₂, q₂, hlook, hS₂, hiff₂⟩ := look_sweeps_iff h hne bit
  refine ⟨s₁, q₁, s₂, q₂, hscan, hlook, hS₁, hS₂, ?_⟩
  rw [hiff₁, hiff₂]
  constructor
  · rintro ⟨hb | hout | hflat, -⟩
    · exact .inl hb
    · exact .inr (.inl hout)
    · exact .inr (.inr (hflat _ (mem_bounded.2 (.inr (.inr rfl))) Int.one_ne_zero).symm)
  · rintro (hb | hout | hlast)
    · exact ⟨.inl hb, .inl hb⟩
    · exact ⟨.inr (.inl hout), .inr (.inl hout)⟩
    · -- nothing lies above the last cylinder
      have hflat : ∀ t ∈ requests s.start reqs, t.up ≠ 0 → t.cylinder = s.start := by
        intro t ht hu
        have habove := (requests_sides ht).1 hu
        obtain ⟨r, hmem, rfl⟩ := List.mem_map.1 ht
        have hle : (request s.start r).cylinder ≤ 200 := (hr r hmem).2
        omega
      refine ⟨.inr (.inr fun t ht hu => ?_), .inr (.inr hflat)⟩
      obtain rfl | ht | rfl := mem_bounded.1 ht
      · exact absurd rfl hu
      · exact hflat t ht hu
      · exact hlast.symm

theorem sweeps_iff_two :
    ∃ s₁ q₁ s₂ q₂, scanTick true runqueue (withRequests 50 [40, 61]) = .ok s₁ ∧
      lookTick true runqueue (withRequests 50 [40, 61]) = .ok s₂ ∧
      ServiceOrder (scanCompare (truth true)) true (along true) (along !true) 4
        (bounded 50 [40, 61]) s₁.mem q₁ ∧
      ServiceOrder (scanCompare (truth true)) true (along true) (along !true) 4
        (requests 50 [40, 61]) s₂.mem q₂ ∧
      (Sweeps (innerEntry (withRequests 50 [40, 61]) [40, 61]) (cylinderAt s₁.mem) 50 q₁ ∧
          Sweeps (fun _ => True) (cylinderAt s₂.mem) 50 q₂ ↔
        true = false ∨ (50 : Int) ∉ [40, 61] ∨ (50 : Int) = 200) :=
  sweeps_iff (withRequests_loaded 50 [40, 61]) (by decide) (by decide) (by decide) true

/-- On the way up the request at the start cylinder is left for the way back. -/
theorem sweeps_pass :
    ∃ s' q, scanTick true runqueue (withRequests 50 [50, 61]) = .ok s' ∧
      ServiceOrder (scanCompare (truth true)) true (along true) (along !true) 4
        (bounded 50 [50, 61]) s'.mem q ∧
      ¬ Sweeps (innerEntry (withRequests 50 [50, 61]) [50, 61]) (cylinderAt s'.mem) 50 q := by
  obtain ⟨s', q, hrun, hS, hiff⟩ := scan_sweeps_iff (withRequests_loaded 50 [50, 61]) (by decide) true
  refine ⟨s', q, hrun, hS, fun hsweep => ?_⟩
  obtain hb | hout | hflat := hiff.1 hsweep
  · exact absurd hb (by decide)
  · exact hout (by decide)
  · exact absurd (hflat _ (mem_bounded.2 (.inr (.inr rfl))) (by decide)) (by decide)

end OsBasics.Disk
