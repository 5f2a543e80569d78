/-
  The disk simulator from its input to its last row.

  `readConfig_loaded`: what `read_config` leaves is a list of requests as the
  policies expect it. `main_rows_iff`: the six policies print their six rows and
  leave everything as they found it exactly when there is a request. Without one
  `list_sort` walks from a head it has just taken out of its list.
-/
import OsBasics.Disk.Distance

namespace OsBasics.Disk

open OsBasics.Lib OsBasics.Lists

variable {s s' : Sim} {reqs : List Int} {src q : List Nat}

/-! ## Reading the input -/

/-- A request line adds one entry. -/
theorem readRequest_loaded (h : Loaded s reqs src) (buffer : List Char) :
    ∃ s', readRequest s buffer = .ok s' ∧ Loaded s' (reqs ++ [atoi buffer]) (src ++ [s.mem.fresh]) ∧
      s'.start = s.start := by
  have hle : s.mem.heads ≤ s.mem.fresh := by rw [h.heads]; exact h.fresh
  obtain ⟨m', hadd, hring, hoff, hdata, hfresh⟩ :=
    addEntry_ring h.ring hle (request s.start (atoi buffer))
  refine ⟨{ s with mem := m', processes := s.processes + 1 }, ?_,
    ⟨hoff.heads.trans h.heads, hoff.valid 1 h.queueHead, hring, ?_, ?_⟩, rfl⟩
  · unfold readRequest
    dsimp only
    rw [setEntry_malloc hle, ok_bind]
    rw [srcrq, hadd]
    rfl
  · have hold : src.map m'.data = src.map s.mem.data :=
      List.map_congr_left fun x hx => by
        rw [hdata, Function.update_of_ne (h.valid x hx).ne]
    dsimp only
    rw [List.map_append, List.map_append, hold, h.data, List.map_singleton, List.map_singleton, hdata,
      Function.update_self]
  · simp [h.processes]

/-- The requests of the lines behind the first. -/
def requestLines (lines : List (List Char)) : List Int :=
  (lines.filter fun buffer => 1 < buffer.length).map atoi

theorem readRequests_loaded (lines : List (List Char)) (h : Loaded s reqs src) :
    ∃ s' src', readRequests s lines = .ok s' ∧ Loaded s' (reqs ++ requestLines lines) src' ∧
      s'.start = s.start := by
  induction lines generalizing s reqs src with
  | nil => exact ⟨s, src, rfl, by simpa [requestLines] using h, rfl⟩
  | cons buffer lines ih =>
    by_cases hlen : buffer.length ≤ 1
    · obtain ⟨s', src', hrun, hL, hstart⟩ := ih h
      refine ⟨s', src', ?_, ?_, hstart⟩
      · rw [readRequests, if_pos hlen, hrun]
      · rwa [requestLines, List.filter_cons_of_neg (by simpa using hlen)]
    · obtain ⟨s₁, hone, hL₁, hstart₁⟩ := readRequest_loaded h buffer
      obtain ⟨s', src', hrun, hL, hstart⟩ := ih hL₁
      refine ⟨s', src', ?_, ?_, hstart.trans hstart₁⟩
      · rw [readRequests, if_neg hlen, hone, ok_bind, hrun]
      · rw [requestLines, List.filter_cons_of_pos (by simpa using hlen), List.map_cons]
        rwa [List.append_assoc] at hL

/-- From the empty list on, `read_config` leaves a list of requests, or follows NULL. -/
theorem readConfig_loaded (h : Loaded s [] src) (stack : List Char) (lines : List (List Char))
    (hrun : readConfig stack lines s = .ok s') : ∃ reqs src', Loaded s' reqs src' := by
  unfold readConfig at hrun
  dsimp only at hrun
  split at hrun
  · obtain rfl := Except.ok.inj hrun
    exact ⟨[], src, h⟩
  · split at hrun
    · rename_i val _ _
      have hstart : Loaded { s with start := atoi val, processes := 0 } [] src :=
        ⟨h.heads, h.queueHead, h.ring, h.data, rfl⟩
      obtain ⟨s₁, src', hread, hL, -⟩ := readRequests_loaded lines.tail hstart
      obtain rfl := Except.ok.inj (hread.symm.trans hrun)
      exact ⟨_, src', hL⟩
    · exact absurd hrun (by simp)

/-! ## The six rows -/

theorem Loaded.bury (h : Loaded s reqs src) : Loaded (s.bury src) reqs src := by
  have hkeep : ∀ x ∈ 0 :: 1 :: src, s.mem.Valid x → (s.bury src).mem.Valid x :=
    fun x hx hv => ⟨hv.lt, by simpa [Sim.bury, hv.alive] using hx⟩
  refine ⟨h.heads, hkeep 1 (by simp) h.queueHead, ⟨h.ring.chain, h.ring.nodup, fun x hx => ?_,
    h.ring.entries⟩, h.data, h.processes⟩
  refine hkeep x ?_ (h.ring.valid x hx)
  obtain rfl | hx := List.mem_cons.1 hx
  · exact List.mem_cons_self
  · exact List.mem_cons_of_mem _ (List.mem_cons_of_mem _ hx)

/-- What is printed is one row for the cylinders `cs`, in some order. -/
def IsRow (name : String) (cs : List Int) (text : String) : Prop :=
  ∃ total cs', cs'.Perm cs ∧ text = row name total cs'

/-- The six rows are printed and the requests are as before. -/
structure SixRows (s : Sim) (reqs : List Int) (src : List Nat) (s' : Sim) : Prop where
  rows : ∃ r₁ r₂ r₃ r₄ r₅ r₆, s'.fp = s.fp ++ r₁ ++ r₂ ++ r₃ ++ r₄ ++ r₅ ++ r₆ ∧
    IsRow "FCFS" reqs r₁ ∧ IsRow "SSTF" reqs r₂ ∧ IsRow "SCAN" (0 :: 200 :: reqs) r₃ ∧
    IsRow "CSCAN" (0 :: 200 :: reqs) r₄ ∧ IsRow "LOOK" reqs r₅ ∧ IsRow "CLOOK" reqs r₆
  loaded : Loaded s' reqs src
  processes : s'.processes = s.processes
  start : s'.start = s.start

/-- A policy prints one row and leaves the requests as they were. -/
structure OneRow (name : String) (cs : List Int) (s : Sim) (reqs : List Int) (src : List Nat)
    (s' : Sim) : Prop where
  row : ∃ r, s'.fp = s.fp ++ r ∧ IsRow name cs r
  loaded : Loaded s' reqs src
  start : s'.start = s.start

theorem Served.oneRow {le : Task → Task → Bool} {name : String} {step : Seek → Int → Seek}
    {tasks : List Task} {cs : List Int} (hpre : TotalPreorder le)
    (h : Served le name step s src tasks s' q) (hs : Loaded s reqs src)
    (hcs : (tasks.map Task.cylinder).Perm cs) : OneRow name cs s reqs src s' where
  row := ⟨_, h.fp, _, cylinders s'.mem q, by
    rw [cylinders_eq_map]
    exact ((h.order.tasks_stable hpre).perm.map _).trans hcs, rfl⟩
  loaded := h.loaded hs
  start := h.start

theorem requests_cylinders (start : Int) (reqs : List Int) :
    (requests start reqs).map Task.cylinder = reqs := by
  rw [requests, List.map_map]
  exact List.map_id _

theorem bounded_cylinders (start : Int) (reqs : List Int) :
    ((bounded start reqs).map Task.cylinder).Perm (0 :: 200 :: reqs) := by
  rw [bounded, List.map_append, List.map_cons, requests_cylinders]
  exact (List.perm_append_singleton 200 reqs).cons 0

theorem fcfs_oneRow (h : Loaded s reqs src) (hne : reqs ≠ []) :
    ∃ s', fcfsTick runqueue s = .ok s' ∧ OneRow "FCFS" reqs s reqs src s' := by
  obtain ⟨s', q, ts, hrun, hS, hcyl⟩ := fcfs_served h hne
  exact ⟨s', hrun, hS.oneRow (totalPreorder_lexLe _ _) h (by rw [hcyl])⟩

theorem sstf_oneRow (h : Loaded s reqs src) (hne : reqs ≠ []) :
    ∃ s', sstfTick runqueue s = .ok s' ∧ OneRow "SSTF" reqs s reqs src s' := by
  obtain ⟨s', q, ts, hrun, hS, hcyl, -⟩ := sstf_served h hne
  exact ⟨s', hrun, hS.oneRow (totalPreorder_lexLe _ _) h (by rw [hcyl])⟩

theorem scan_oneRow (h : Loaded s reqs src) (bit : Bool) :
    ∃ s', scanTick bit runqueue s = .ok s' ∧ OneRow "SCAN" (0 :: 200 :: reqs) s reqs src s' := by
  obtain ⟨s', q, hrun, hS⟩ := scan_served h bit
  exact ⟨s', hrun, hS.oneRow (totalPreorder_lexLe _ _) h (bounded_cylinders _ _)⟩

theorem cscan_oneRow (h : Loaded s reqs src) (bit : Bool) :
    ∃ s', cscanTick bit runqueue s = .ok s' ∧ OneRow "CSCAN" (0 :: 200 :: reqs) s reqs src s' := by
  obtain ⟨s', q, hrun, hS⟩ := cscan_served h bit
  exact ⟨s', hrun, hS.oneRow (totalPreorder_lexLe _ _) h (bounded_cylinders _ _)⟩

theorem look_oneRow (h : Loaded s reqs src) (hne : reqs ≠ []) (bit : Bool) :
    ∃ s', lookTick bit runqueue s = .ok s' ∧ OneRow "LOOK" reqs s reqs src s' := by
  obtain ⟨s', q, hrun, hS⟩ := look_served h hne bit
  exact ⟨s', hrun, hS.oneRow (totalPreorder_lexLe _ _) h (by rw [requests_cylinders])⟩

theorem clook_oneRow (h : Loaded s reqs src) (hne : reqs ≠ []) (bit : Bool) :
    ∃ s', clookTick bit runqueue s = .ok s' ∧ OneRow "CLOOK" reqs s reqs src s' := by
  obtain ⟨s', q, hrun, hS⟩ := clook_served h hne bit
  exact ⟨s', hrun, hS.oneRow (totalPreorder_lexLe _ _) h (by rw [requests_cylinders])⟩

/-- One policy after the other, whatever `f` makes of the state in between. -/
theorem sixRows_of (f : Sim → Sim) (hf : ∀ s, Loaded s reqs src → Loaded (f s) reqs src)
    (hfp : ∀ s, (f s).fp = s.fp) (hstart : ∀ s, (f s).start = s.start) (h : Loaded s reqs src)
    (hne : reqs ≠ []) (bits : Fin 4 → Bool) :
    ∃ s', (do
        let s ← fcfsTick runqueue (f s)
        let s ← sstfTick runqueue (f s)
        let s ← scanTick (bits 0) runqueue (f s)
        let s ← cscanTick (bits 1) runqueue (f s)
        let s ← lookTick (bits 2) runqueue (f s)
        clookTick (bits 3) runqueue (f s)) = Except.ok s' ∧ SixRows s reqs src s' := by
  obtain ⟨s₁, h₁, ⟨r₁, hr₁, hrow₁⟩, hL₁, he₁⟩ := fcfs_oneRow (hf _ h) hne
  obtain ⟨s₂, h₂, ⟨r₂, hr₂, hrow₂⟩, hL₂, he₂⟩ := sstf_oneRow (hf _ hL₁) hne
  obtain ⟨s₃, h₃, ⟨r₃, hr₃, hrow₃⟩, hL₃, he₃⟩ := scan_oneRow (hf _ hL₂) (bits 0)
  obtain ⟨s₄, h₄, ⟨r₄, hr₄, hrow₄⟩, hL₄, he₄⟩ := cscan_oneRow (hf _ hL₃) (bits 1)
  obtain ⟨s₅, h₅, ⟨r₅, hr₅, hrow₅⟩, hL₅, he₅⟩ := look_oneRow (hf _ hL₄) hne (bits 2)
  obtain ⟨s₆, h₆, ⟨r₆, hr₆, hrow₆⟩, hL₆, he₆⟩ := clook_oneRow (hf _ hL₅) hne (bits 3)
  refine ⟨s₆, ?_, ⟨⟨r₁, r₂, r₃, r₄, r₅, r₆, ?_, hrow₁, hrow₂, hrow₃, hrow₄, hrow₅, hrow₆⟩, hL₆,
    hL₆.processes.trans h.processes.symm, ?_⟩⟩
  · rw [h₁, ok_bind, h₂, ok_bind, h₃, ok_bind, h₄, ok_bind, h₅, ok_bind, h₆]
  · rw [hr₆, hfp, hr₅, hfp, hr₄, hfp, hr₃, hfp, hr₂, hfp, hr₁, hfp]
  · rw [he₆, hstart, he₅, hstart, he₄, hstart, he₃, hstart, he₂, hstart, he₁, hstart]

/-- Without requests FCFS still ends. -/
theorem fcfs_empty (h : Loaded s [] src) :
    ∃ s', fcfsTick runqueue s = .ok s' ∧ Loaded s' [] src := by
  obtain ⟨m, hinit, hF⟩ := h.init
  obtain rfl : src = [] := List.eq_nil_of_length_eq_zero h.length
  obtain ⟨_, rfl, hloop⟩ := fcfsTick_rule hinit (fun _ r => r = (m, Seek.init s.start))
    (fun _ r hr => by rw [hr]; exact hF.source) (fun done x rest r hl _ => absurd hl (by simp)) rfl
  refine ⟨{ s with
      mem := m
      fp := (s.fp ++ "FCFS" ++ "," ++ toString (0 : Int) ++ ",") ++
        String.join ((cylinders m []).zipIdx.map (field s.processes)) }, ?_, ⟨hF.heads, hF.queue.valid 1 List.mem_cons_self, hF.source, rfl, h.processes⟩⟩
  rw [hloop]
  exact printRq_fields hF.queue

/-- Without requests SSTF sorts an empty list. -/
theorem sstf_empty (h : Loaded s [] src) : sstfTick runqueue s = .error .badPtr := by
  obtain ⟨m, hinit, hF⟩ := h.init
  obtain ⟨m', ts, hcopy, hF', hts⟩ := hF.copyAll h copyDist
  obtain rfl : ts = [] := List.forall₂_nil_left_iff.1 hts
  have hsort := listSort_empty sstfCompare hF'.queue (by rw [hF'.heads]; decide)
  unfold sstfTick
  rw [hinit, ok_bind, hcopy, ok_bind, runqueue, hsort]
  rfl

/-- The six policies print their rows and leave the requests as they were exactly when there is a
    request. They need no entries in memory but those of the source and of the policy at work. -/
theorem main_rows_iff (h : Loaded s reqs src) (bits : Fin 4 → Bool) :
    ((∃ s', mainTicks bits s = .ok s' ∧ SixRows s reqs src s') ∧
      (∃ s', mainAlone src bits s = .ok s' ∧ SixRows s reqs src s')) ↔ reqs ≠ [] := by
  constructor
  · rintro ⟨⟨s', hrun, -⟩, -⟩ rfl
    obtain ⟨s₁, hfcfs, hL⟩ := fcfs_empty h
    rw [mainTicks, hfcfs, ok_bind, sstf_empty hL] at hrun
    exact absurd hrun (by simp [bind, Except.bind])
  · intro hne
    exact ⟨sixRows_of (fun s => s) (fun _ h => h) (fun _ => rfl) (fun _ => rfl) h hne bits,
      sixRows_of (Sim.bury src) (fun _ h => h.bury) (fun _ => rfl) (fun _ => rfl) h hne bits⟩

theorem main_rows_iff_two :
    ((∃ s', mainTicks (fun _ => true) (withRequests 50 [40, 61]) = .ok s' ∧
        SixRows (withRequests 50 [40, 61]) [40, 61] [2, 3] s') ∧
      (∃ s', mainAlone [2, 3] (fun _ => true) (withRequests 50 [40, 61]) = .ok s' ∧
        SixRows (withRequests 50 [40, 61]) [40, 61] [2, 3] s')) ↔ [40, 61] ≠ ([] : List Int) :=
  main_rows_iff (withRequests_loaded 50 [40, 61]) fun _ => true

/-- An input with a start only. -/
theorem main_rows_none :
    ¬ ∃ s', mainTicks (fun _ => true) (withRequests 53 []) = .ok s' ∧
      SixRows (withRequests 53 []) [] [] s' := by
  rintro ⟨s', hrun, -⟩
  have hfault : mainTicks (fun _ => true) (withRequests 53 []) = .error .badPtr := by rfl
  rw [hfault] at hrun
  exact absurd hrun (by simp)

end OsBasics.Disk
