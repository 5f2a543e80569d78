/-
  The six policies.

  From any state with requests in `srcrq` a policy ends, leaves `srcrq` and
  `processes` as they were, and prints one row (`Served`); the queue it leaves is the
  stable sort of its tasks by the order of its comparator. FCFS sorts nothing.
-/
import OsBasics.Disk.Order

namespace OsBasics.Disk

open OsBasics.Lib OsBasics.Lists

variable {s s' : Sim} {reqs : List Int} {src q : List Nat} {tasks : List Task} {bit : Bool}
  {le : Task → Task → Bool} {name : String} {step : Seek → Int → Seek}

/-- A policy ran and served the queue `q` in this order. -/
structure Served (le : Task → Task → Bool) (name : String) (step : Seek → Int → Seek) (s : Sim)
    (src : List Nat) (tasks : List Task) (s' : Sim) (q : List Nat) : Prop where
  order : Ordered le s.mem src tasks s'.mem q
  start : s'.start = s.start
  processes : s'.processes = s.processes
  fp : s'.fp = s.fp ++
    row name (reported step s.start (cylinders s'.mem q)) (cylinders s'.mem q)

/-- The requests are where they were. -/
theorem Served.loaded (h : Served le name step s src tasks s' q) (hs : Loaded s reqs src) :
    Loaded s' reqs src where
  heads := h.order.heads
  queueHead := h.order.queue.valid 1 List.mem_cons_self
  ring := h.order.source
  data := by rw [List.map_congr_left h.order.old, hs.data, h.start]
  processes := h.processes.trans hs.processes

/-- A queue is sorted, walked over and printed. -/
theorem serve_spec (name : String) (step : Seek → Int → Seek) {cmp : Int → Task → Task → Int} (hpre : TotalPreorder le)
    (hcmp : ∀ a b, cmp (truth bit) a b ≤ 0 ↔ le a b = true) {m m' : ListMem Task} {st : Sim}
    (hst : st.mem = m') (h : Filled m src tasks m') (hv : ∀ x ∈ src, x < m.fresh) (hf : 2 ≤ m.fresh)
    (hne : tasks ≠ []) (hn : st.processes = tasks.length) :
    ∃ m'' q, serve name cmp step bit runqueue st = .ok { st with
        mem := m''
        elevatorUp := truth bit
        fp := st.fp ++ row name (reported step st.start (cylinders m'' q)) (cylinders m'' q) } ∧
      Ordered le m src tasks m'' q := by
  obtain ⟨m'', q, hsort, hO⟩ := sort_queue hpre hcmp h hv hf hne
  have hlen : tasks.length = q.length := by
    have := hO.stable.perm.length_eq
    rw [List.length_range'] at this
    exact this.symm
  refine ⟨m'', q, ?_, hO⟩
  unfold serve
  dsimp only
  rw [hst, hsort, ok_bind, seekAll_spec hO.queue, ok_bind]
  exact printRow_spec (by exact hO.queue) (hO.ne_nil hne) (by rw [← hlen]; exact hn) _ _

theorem Loaded.valid (h : Loaded s reqs src) : ∀ x ∈ src, x < s.mem.fresh :=
  fun x hx => (h.ring.valid x (List.mem_cons_of_mem 0 hx)).lt

/-! ## The elevator policies -/

/-- The policies that serve the boundaries too. -/
theorem served_bounded {cmp : Int → Task → Task → Int} (hpre : TotalPreorder le)
    (hcmp : ∀ a b, cmp (truth bit) a b ≤ 0 ↔ le a b = true) (h : Loaded s reqs src) :
    ∃ s' q, (do
        let s ← fillBounded runqueue s
        let s ← serve name cmp step bit runqueue s
        pure { s with processes := s.processes - 2 }) = Except.ok s' ∧
      Served le name step s src (bounded s.start reqs) s' q := by
  obtain ⟨m, hfill, hF⟩ := fillBounded_spec h
  have hst : ({ s with mem := m, processes := s.processes + 2 } : Sim).mem = m := rfl
  obtain ⟨m', q, hserve, hO⟩ := serve_spec name step hpre hcmp hst hF h.valid h.fresh
    (by simp [bounded]) (by rw [length_bounded, h.processes]; rfl)
  refine ⟨{ s with
      mem := m'
      processes := s.processes + 2 - 2
      elevatorUp := truth bit
      fp := s.fp ++ row name (reported step s.start (cylinders m' q)) (cylinders m' q) },
    q, ?_, hO, rfl, ?_, rfl⟩
  · rw [hfill, ok_bind, hserve, ok_bind]
    rfl
  · exact Int.add_sub_cancel _ _

/-- The policies that serve the requests only. -/
theorem served_requests {cmp : Int → Task → Task → Int} (hpre : TotalPreorder le)
    (hcmp : ∀ a b, cmp (truth bit) a b ≤ 0 ↔ le a b = true) (h : Loaded s reqs src)
    (hne : reqs ≠ []) :
    ∃ s' q, (do
        let s ← fillRequests runqueue s
        serve name cmp step bit runqueue s) = Except.ok s' ∧
      Served le name step s src (requests s.start reqs) s' q := by
  obtain ⟨m, hfill, hF⟩ := fillRequests_spec h
  have hst : ({ s with mem := m } : Sim).mem = m := rfl
  obtain ⟨m', q, hserve, hO⟩ := serve_spec name step hpre hcmp hst hF h.valid h.fresh
    (by simpa [requests] using hne) (by rw [length_requests, h.processes])
  refine ⟨{ s with
      mem := m'
      elevatorUp := truth bit
      fp := s.fp ++ row name (reported step s.start (cylinders m' q)) (cylinders m' q) },
    q, ?_, hO, rfl, rfl, rfl⟩
  rw [hfill, ok_bind, hserve]

theorem scan_served (h : Loaded s reqs src) (bit : Bool) :
    ∃ s' q, scanTick bit runqueue s = .ok s' ∧
      Served (scanLe bit) "SCAN" Seek.move s src (bounded s.start reqs) s' q :=
  served_bounded (totalPreorder_lexLe _ _) (scanCompare_le_iff bit) h

theorem cscan_served (h : Loaded s reqs src) (bit : Bool) :
    ∃ s' q, cscanTick bit runqueue s = .ok s' ∧
      Served (cscanLe bit) "CSCAN" (Seek.circle fun c => c = lowestLevel ∨ c = highestLevel) s src
        (bounded s.start reqs) s' q :=
  served_bounded (totalPreorder_lexLe _ _) (cscanCompare_le_iff bit) h

theorem look_served (h : Loaded s reqs src) (hne : reqs ≠ []) (bit : Bool) :
    ∃ s' q, lookTick bit runqueue s = .ok s' ∧
      Served (scanLe bit) "LOOK" Seek.move s src (requests s.start reqs) s' q :=
  served_requests (totalPreorder_lexLe _ _) (scanCompare_le_iff bit) h hne

theorem clook_served (h : Loaded s reqs src) (hne : reqs ≠ []) (bit : Bool) :
    ∃ s' q, clookTick bit runqueue s = .ok s' ∧
      Served (cscanLe bit) "CLOOK" (Seek.circle fun c => c = 0) s src (requests s.start reqs) s' q :=
  served_requests (totalPreorder_lexLe _ _) (cscanCompare_le_iff bit) h hne

/-! ## SSTF and FCFS -/

theorem copied_cylinders {start : Int} {ts : List Task} (copy : Task → Task → Task)
    (hcopy : ∀ e t, (copy e t).cylinder = e.cylinder)
    (h : List.Forall₂ (fun r t' => ∃ t, t' = copy (request start r) t) reqs ts) :
    ts.map Task.cylinder = reqs := by
  induction h with
  | nil => rfl
  | cons hrt h ih =>
    obtain ⟨t, rfl⟩ := hrt
    rw [List.map_cons, ih, hcopy]
    rfl

theorem copied_dists {start : Int} {ts : List Task}
    (h : List.Forall₂ (fun r t' => ∃ t, t' = copyDist (request start r) t) reqs ts) :
    ts.map Task.dist = reqs.map fun r => |r - start| := by
  induction h with
  | nil => rfl
  | cons hrt h ih =>
    obtain ⟨t, rfl⟩ := hrt
    rw [List.map_cons, List.map_cons, ih]
    rfl

theorem sstf_served (h : Loaded s reqs src) (hne : reqs ≠ []) :
    ∃ s' q ts, sstfTick runqueue s = .ok s' ∧ Served sstfLe "SSTF" Seek.move s src ts s' q ∧
      ts.map Task.cylinder = reqs ∧ ts.map Task.dist = reqs.map fun r => |r - s.start| := by
  obtain ⟨m, hinit, hF⟩ := h.init
  obtain ⟨m₁, ts, hcopy, hF₁, hts⟩ := hF.copyAll h copyDist
  rw [List.nil_append] at hF₁
  have hcyl := copied_cylinders copyDist (fun _ _ => rfl) hts
  have hlen : ts.length = reqs.length := by rw [← hcyl, List.length_map]
  have hts0 : ts ≠ [] := List.ne_nil_of_length_pos (hlen ▸ List.length_pos_of_ne_nil hne)
  obtain ⟨m₂, q, hsort, hO⟩ := sort_queue (totalPreorder_lexLe _ _) sstfCompare_le_iff hF₁ h.valid
    h.fresh hts0
  refine ⟨{ s with
      mem := m₂
      fp := s.fp ++ row "SSTF" (reported Seek.move s.start (cylinders m₂ q)) (cylinders m₂ q) },
    q, ts, ?_, ⟨hO, rfl, rfl, rfl⟩, hcyl, copied_dists hts⟩
  have hqlen : ts.length = q.length := by
    have := hO.stable.perm.length_eq
    rw [List.length_range'] at this
    exact this.symm
  unfold sstfTick
  rw [hinit, ok_bind, hcopy, ok_bind, hsort, ok_bind, seekAll_spec hO.queue, ok_bind]
  exact printRow_spec (s := { s with mem := m₂ }) hO.queue (hO.ne_nil hts0)
    (by rw [← hqlen, hlen]; exact h.processes) _ _

/-- FCFS does not sort. -/
def fcfsLe : Task → Task → Bool := lexLe (fun _ => 0) (fun _ => 0)

theorem fcfsLe_true (a b : Task) : fcfsLe a b = true := by simp [fcfsLe, lexLe_iff]

theorem Loaded.cylinders_eq (h : Loaded s reqs src) : cylinders s.mem src = reqs := by
  have hmap : cylinders s.mem src = (src.map s.mem.data).map Task.cylinder := by
    rw [List.map_map]
    rfl
  rw [hmap, h.data, List.map_map]
  exact List.map_id _

/-- The loop of `fcfs_tick` copies and adds up in one go. -/
theorem fcfsTick_rule {m : ListMem Task} (hinit : s.mem.initListHead runqueue = .ok m)
    (I : List Nat → ListMem Task × Seek → Prop) (hring : ∀ done r, I done r → IsRing r.1 0 src)
    (hstep : ∀ done x rest r, src = done ++ x :: rest → I done r → ∃ entry m₂,
      r.1.listEntry (.node x) = .ok entry ∧ addCopy copyCylinder runqueue (.node x) r.1 = .ok m₂ ∧
        I (done ++ [x]) (m₂, r.2.move entry.cylinder))
    (h0 : I [] (m, Seek.init s.start)) :
    ∃ r, I src r ∧ fcfsTick runqueue s = printRow "FCFS" r.2.totalDist runqueue { s with mem := r.1 } := by
  unfold fcfsTick
  rw [hinit, ok_bind]
  refine (listForEach_rule I hring (fun done x rest r hl hr => ?_) h0).imp
    fun r h => ⟨h.2, congrArg (· >>= _) h.1⟩
  obtain ⟨entry, m₂, hentry, hadd, hI⟩ := hstep done x rest r hl hr
  obtain ⟨m₁, st⟩ := r
  refine ⟨_, ?_, hI⟩
  dsimp only at hentry hadd ⊢
  rw [hentry, ok_bind, hadd]
  rfl

theorem fcfs_served (h : Loaded s reqs src) (hne : reqs ≠ []) :
    ∃ s' q ts, fcfsTick runqueue s = .ok s' ∧ Served fcfsLe "FCFS" Seek.move s src ts s' q ∧
      ts.map Task.cylinder = reqs := by
  obtain ⟨m, hinit, hF⟩ := h.init
  have hf : 2 ≤ m.fresh := hF.fresh ▸ h.fresh
  have hdis := hF.apart h.valid h.fresh
  have hrule : ∃ r : ListMem Task × Seek, (Copied copyCylinder m src [] src r.1 ∧
      r.2 = (cylinders m src).foldl Seek.move (Seek.init s.start)) ∧
      fcfsTick runqueue s = printRow "FCFS" r.2.totalDist runqueue { s with mem := r.1 } := by
    refine fcfsTick_rule hinit (fun done r => Copied copyCylinder m src [] done r.1 ∧
        r.2 = (cylinders m done).foldl Seek.move (Seek.init s.start))
      (fun _ _ hr => hr.1.source) (fun done x rest r hl hr => ?_)
      ⟨Copied.start hF.heads hF.source hF.queue, rfl⟩
    obtain ⟨hC, hst⟩ := hr
    have hx : x ∈ src := by simp [hl]
    have hv : ∀ y ∈ 0 :: src, y < m.fresh ∧ y ∉ 1 :: ([] : List Nat) :=
      fun y hy => ⟨(hF.source.valid y hy).lt, hdis y hy⟩
    obtain ⟨m₂, hadd, hC'⟩ := hC.step hf hl hv
    refine ⟨r.1.data x, m₂, listEntry_node (hC.source.valid x (by simp [hx])) (hC.source.entries x hx),
      hadd, hC', ?_⟩
    dsimp only
    rw [hst, hC.old x (hv x (by simp [hx])).1, cylinders_concat, List.foldl_append]
    rfl
  obtain ⟨⟨m₁, st⟩, ⟨hC, hst⟩, hloop⟩ := hrule
  obtain ⟨ts, hF₁, hts⟩ := hF.of_copied h hC
  rw [List.nil_append] at hF₁
  have hcyl := copied_cylinders copyCylinder (fun _ _ => rfl) hts
  have hlen : ts.length = reqs.length := by rw [← hcyl, List.length_map]
  have hq0 : List.range' s.mem.fresh ts.length ≠ [] :=
    List.ne_nil_of_length_pos (by rw [List.length_range', hlen]; exact List.length_pos_of_ne_nil hne)
  have hread : cylinders m₁ (List.range' s.mem.fresh ts.length) = reqs := by
    rw [← hcyl]
    conv_rhs => rw [← hF₁.tasks, List.map_map]
    rfl
  have hwalked : cylinders m src = reqs := by
    rw [← h.cylinders_eq]
    exact List.map_congr_left fun x hx => by rw [hF.old x hx]
  refine ⟨{ s with
      mem := m₁
      fp := s.fp ++ row "FCFS" (reported Seek.move s.start reqs) reqs },
    List.range' s.mem.fresh ts.length, ts, ?_, ⟨⟨hF₁.heads, hF₁.fresh, hF₁.source, hF₁.queue,
      hF₁.old, ⟨.refl _, ?_, fun _ => rfl⟩, hF₁.tasks⟩, rfl, rfl, ?_⟩, hcyl⟩
  · rw [hloop]
    dsimp only at hst ⊢
    rw [printRow_spec (s := { s with mem := m₁ }) hF₁.queue hq0
      (by rw [List.length_range', hlen]; exact h.processes), hread, hst, hwalked]
    rfl
  · exact List.pairwise_of_forall fun _ _ => fcfsLe_true _ _
  · dsimp only
    rw [hread]

end OsBasics.Disk
