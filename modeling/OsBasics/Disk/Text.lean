/-
  The disk simulator from a file to a file.

  `main` reads its input line by line and runs the six policies. `report` says what it
  prints, in terms of the numbers in the input alone: the order of service is a stable sort.
  `main` prints it on an input with a start and a request (`Input.main_eq`), and does not end
  on any other (`input_of_main`).
-/
import OsBasics.Lib.Decimal
import OsBasics.Lib.Runs
import OsBasics.Disk.Main

namespace OsBasics.Disk

open OsBasics.Lib OsBasics.Lists

variable {s s' : Sim} {reqs : List Int} {src q : List Nat} {start : Int}
  {stack infp : List Char}

/-! ## Lines -/

/-- `MAX_BUFFER`. -/
def maxBuffer : Nat := 500

/-- What `fgets` stores: the line, or as many characters of it as there is room for. -/
def fgets : Nat → List Char → List Char
  | 0, _ => []
  | _ + 1, [] => []
  | n + 1, c :: fp => if c = '\n' then [c] else c :: fgets n fp

/-- `read_line`: the string in the buffer, and the rest of the file. -/
def readLine (fp : List Char) : Option (List Char × List Char) :=
  match fgets (maxBuffer - 1) fp with
  | [] => none
  | c :: line => some ((c :: line).takeWhile (· ≠ Char.ofNat 0), fp.drop (c :: line).length)

/-- What `read_line` gives, call after call; at most `n` calls. -/
def readLines : Nat → List Char → List (List Char)
  | 0, _ => []
  | n + 1, fp =>
    match readLine fp with
    | none => []
    | some (buffer, fp) => buffer :: readLines n fp

/-! ## main -/

/-- The globals before `main`. Memory that is not allocated holds anything. -/
def Sim.boot (data : Nat → Task) : Sim where
  mem := ⟨fun _ => .null, fun _ => .null, data, fun x => x < 2, 2, 2⟩
  start := 0
  processes := 0
  elevatorUp := 0
  fp := ""

/-- `main` on the text `infp`: what is in the output file at its end. -/
def main (bits : Fin 4 → Bool) (stack infp : List Char) (s : Sim) : Except Fault String := do
  let m ← s.mem.initListHead srcrq
  let s ← readConfig stack (readLines infp.length infp) { s with mem := m }
  let s ← mainTicks bits s
  pure s.fp

/-! ## What is printed -/

/-- A policy: its name, how it adds up the distance from `start`, and its order of service. -/
structure Service where
  name : String
  step : Seek → Int → Seek
  start : Int
  order : List Int

/-- The distance it reports. -/
def Service.totalDist (v : Service) : Int := reported v.step v.start v.order

def Service.row (v : Service) : String := Disk.row v.name v.totalDist v.order

/-- The cylinders in a stable order of their tasks. -/
def served (le : Task → Task → Bool) (tasks : List Task) : List Int :=
  (tasks.insertionSort fun a b => le a b).map Task.cylinder

/-- The cylinders by their distance from `start`. -/
def nearest (start : Int) (reqs : List Int) : List Int :=
  reqs.insertionSort fun a b => keyLe (fun c => |c - start|) a b

/-- What the six policies do with the requests `reqs`, when the elevators set out upwards or not. -/
def services (scan cscan look clook : Bool) (start : Int) (reqs : List Int) : List Service :=
  [⟨"FCFS", Seek.move, start, reqs⟩,
    ⟨"SSTF", Seek.move, start, nearest start reqs⟩,
    ⟨"SCAN", Seek.move, start, served (scanLe scan) (bounded start reqs)⟩,
    ⟨"CSCAN", Seek.circle fun c => c = lowestLevel ∨ c = highestLevel, start,
      served (cscanLe cscan) (bounded start reqs)⟩,
    ⟨"LOOK", Seek.move, start, served (scanLe look) (requests start reqs)⟩,
    ⟨"CLOOK", Seek.circle fun c => c = 0, start, served (cscanLe clook) (requests start reqs)⟩]

/-- The output file. -/
def report (scan cscan look clook : Bool) (start : Int) (reqs : List Int) : String :=
  String.join ((services scan cscan look clook start reqs).map Service.row)

/-! ## One policy -/

/-- A policy adds the row of a service to the output and leaves the requests as they were. -/
structure Prints (v : Service) (s : Sim) (reqs : List Int) (src : List Nat) (s' : Sim) : Prop where
  fp : s'.fp = s.fp ++ v.row
  loaded : Loaded s' reqs src
  start : s'.start = s.start

theorem Served.prints {le : Task → Task → Bool} {name : String} {step : Seek → Int → Seek}
    {tasks : List Task} {cs : List Int} (h : Served le name step s src tasks s' q)
    (hs : Loaded s reqs src) (hcs : cylinders s'.mem q = cs) :
    Prints ⟨name, step, s.start, cs⟩ s reqs src s' where
  fp := by rw [h.fp, hcs]; rfl
  loaded := h.loaded hs
  start := h.start

/-- The queue of a policy, by the numbers in its tasks. -/
theorem Served.cylinders_eq {le : Task → Task → Bool} {name : String} {step : Seek → Int → Seek}
    {tasks : List Task} (hpre : TotalPreorder le) (h : Served le name step s src tasks s' q) :
    cylinders s'.mem q = served le tasks := by
  rw [cylinders_eq_map, (h.order.tasks_stable hpre).unique hpre (stableSort_insertionSort hpre tasks)]
  rfl

theorem fcfs_prints (h : Loaded s reqs src) (hne : reqs ≠ []) :
    ∃ s', fcfsTick runqueue s = .ok s' ∧
      Prints ⟨"FCFS", Seek.move, s.start, reqs⟩ s reqs src s' := by
  obtain ⟨s', q, ts, hrun, hS, hcyl⟩ := fcfs_served h hne
  have hpre : TotalPreorder fcfsLe := totalPreorder_lexLe _ _
  -- no entry is before another, so nothing is moved
  have hsame : StableSort fcfsLe ts ts :=
    ⟨.refl ts, List.pairwise_of_forall fun a b => fcfsLe_true a b, fun _ => rfl⟩
  refine ⟨s', hrun, hS.prints h ?_⟩
  rw [cylinders_eq_map, (hS.order.tasks_stable hpre).unique hpre hsame, hcyl]

theorem sstf_prints (h : Loaded s reqs src) (hne : reqs ≠ []) :
    ∃ s', sstfTick runqueue s = .ok s' ∧
      Prints ⟨"SSTF", Seek.move, s.start, nearest s.start reqs⟩ s reqs src s' := by
  obtain ⟨s', q, ts, hrun, hS, hcyl, hdist⟩ := sstf_served h hne
  have hkey := totalPreorder_keyLe fun c => |c - s.start|
  have hts : ∀ t ∈ ts, t.dist = |t.cylinder - s.start| := by
    rw [← hcyl, List.map_map, List.map_inj_left] at hdist
    exact hdist
  have hstable := (hS.order.tasks_stable (totalPreorder_lexLe _ _)).map hkey Task.cylinder
    fun a ha b hb => by
      rw [Bool.eq_iff_iff, keyLe_iff, lexLe_iff, ← hts a ha, ← hts b hb]
      simp
  rw [hcyl, ← cylinders_eq_map] at hstable
  exact ⟨s', hrun, hS.prints h (hstable.unique hkey (stableSort_insertionSort hkey reqs))⟩

theorem scan_prints (h : Loaded s reqs src) (bit : Bool) :
    ∃ s', scanTick bit runqueue s = .ok s' ∧
      Prints ⟨"SCAN", Seek.move, s.start, served (scanLe bit) (bounded s.start reqs)⟩ s reqs src
        s' := by
  obtain ⟨s', q, hrun, hS⟩ := scan_served h bit
  exact ⟨s', hrun, hS.prints h (hS.cylinders_eq (totalPreorder_lexLe _ _))⟩

theorem cscan_prints (h : Loaded s reqs src) (bit : Bool) :
    ∃ s', cscanTick bit runqueue s = .ok s' ∧
      Prints ⟨"CSCAN", Seek.circle fun c => c = lowestLevel ∨ c = highestLevel, s.start,
        served (cscanLe bit) (bounded s.start reqs)⟩ s reqs src s' := by
  obtain ⟨s', q, hrun, hS⟩ := cscan_served h bit
  exact ⟨s', hrun, hS.prints h (hS.cylinders_eq (totalPreorder_lexLe _ _))⟩

theorem look_prints (h : Loaded s reqs src) (hne : reqs ≠ []) (bit : Bool) :
    ∃ s', lookTick bit runqueue s = .ok s' ∧
      Prints ⟨"LOOK", Seek.move, s.start, served (scanLe bit) (requests s.start reqs)⟩ s reqs src
        s' := by
  obtain ⟨s', q, hrun, hS⟩ := look_served h hne bit
  exact ⟨s', hrun, hS.prints h (hS.cylinders_eq (totalPreorder_lexLe _ _))⟩

theorem clook_prints (h : Loaded s reqs src) (hne : reqs ≠ []) (bit : Bool) :
    ∃ s', clookTick bit runqueue s = .ok s' ∧
      Prints ⟨"CLOOK", Seek.circle fun c => c = 0, s.start,
        served (cscanLe bit) (requests s.start reqs)⟩ s reqs src s' := by
  obtain ⟨s', q, hrun, hS⟩ := clook_served h hne bit
  exact ⟨s', hrun, hS.prints h (hS.cylinders_eq (totalPreorder_lexLe _ _))⟩

/-! ## All six -/

theorem mainTicks_prints (h : Loaded s reqs src) (hne : reqs ≠ []) (bits : Fin 4 → Bool) :
    ∃ s', mainTicks bits s = .ok s' ∧
      s'.fp = s.fp ++ report (bits 0) (bits 1) (bits 2) (bits 3) s.start reqs := by
  obtain ⟨s₁, h₁, hr₁, hL₁, he₁⟩ := fcfs_prints h hne
  obtain ⟨s₂, h₂, hr₂, hL₂, he₂⟩ := sstf_prints hL₁ hne
  obtain ⟨s₃, h₃, hr₃, hL₃, he₃⟩ := scan_prints hL₂ (bits 0)
  obtain ⟨s₄, h₄, hr₄, hL₄, he₄⟩ := cscan_prints hL₃ (bits 1)
  obtain ⟨s₅, h₅, hr₅, hL₅, he₅⟩ := look_prints hL₄ hne (bits 2)
  obtain ⟨s₆, h₆, hr₆, -, -⟩ := clook_prints hL₅ hne (bits 3)
  refine ⟨s₆, ?_, ?_⟩
  · unfold mainTicks
    rw [h₁, ok_bind, h₂, ok_bind, h₃, ok_bind, h₄, ok_bind, h₅, ok_bind, h₆]
  · rw [hr₆, hr₅, hr₄, hr₃, hr₂, hr₁, he₅, he₄, he₃, he₂, he₁]
    simp only [report, services, List.map_cons, List.map_nil, String.join_cons, String.join_nil,
      String.append_assoc, String.append_empty]

/-- Without requests SSTF ends the program. -/
theorem mainTicks_empty (h : Loaded s [] src) (bits : Fin 4 → Bool) :
    mainTicks bits s = .error .badPtr := by
  obtain ⟨s₁, hfcfs, hL⟩ := fcfs_empty h
  unfold mainTicks
  rw [hfcfs, ok_bind, sstf_empty hL]
  rfl

/-! ## The input -/

/-- The numbers in the input: the second field of the first line, and the lines behind it. -/
structure Input (stack infp : List Char) (start : Int) (reqs : List Int) : Prop where
  header : 1 < ((readLines infp.length infp).headD stack).length
  start : ∃ name val more,
    tokens ':' ((readLines infp.length infp).headD stack) = name :: val :: more ∧ start = atoi val
  requests : reqs = requestLines (readLines infp.length infp).tail

theorem readRequests_fp {lines : List (List Char)} (h : readRequests s lines = .ok s') :
    s'.fp = s.fp := by
  induction lines generalizing s with
  | nil => rw [← Except.ok.inj h]
  | cons buffer lines ih =>
    unfold readRequests at h
    split at h
    · exact ih h
    · obtain ⟨s₁, hone, h⟩ := bind_ok h
      unfold readRequest at hone
      obtain ⟨m, -, hone⟩ := bind_ok hone
      obtain ⟨m', -, hone⟩ := bind_ok hone
      rw [ih h, ← Except.ok.inj hone]

theorem boot_loaded (data : Nat → Task) : ∃ m, (Sim.boot data).mem.initListHead srcrq = .ok m ∧
    Loaded { Sim.boot data with mem := m } [] [] := by
  have hv : ∀ x < 2, (Sim.boot data).mem.Valid x := fun x hx => ⟨hx, decide_eq_true hx⟩
  obtain ⟨m, hinit, hring, hoff, -, -⟩ := initListHead_ring (hv 0 (by decide))
  exact ⟨m, hinit, hoff.heads, hoff.valid 1 (hv 1 (by decide)), hring, rfl, rfl⟩

/-- With a header and a request `main` ends. -/
theorem Input.main_eq (h : Input stack infp start reqs) (hne : reqs ≠ []) (bits : Fin 4 → Bool)
    (data : Nat → Task) : main bits stack infp (.boot data) =
      .ok (report (bits 0) (bits 1) (bits 2) (bits 3) start reqs) := by
  obtain ⟨hheader, ⟨name, val, more, htok, rfl⟩, hreqs⟩ := h
  obtain ⟨m, hinit, hL⟩ := boot_loaded data
  have hstart : Loaded { Sim.boot data with mem := m, start := atoi val, processes := 0 } [] [] :=
    ⟨hL.heads, hL.queueHead, hL.ring, rfl, rfl⟩
  obtain ⟨s₁, src, hread, hL₁, hs₁⟩ :=
    readRequests_loaded (readLines infp.length infp).tail hstart
  rw [List.nil_append, ← hreqs] at hL₁
  obtain ⟨s₂, hticks, hfp⟩ := mainTicks_prints hL₁ hne bits
  have hfp₁ : s₁.fp = "" := readRequests_fp hread
  have hconfig : readConfig stack (readLines infp.length infp) { Sim.boot data with mem := m } =
      .ok s₁ := by
    unfold readConfig
    dsimp only
    rw [if_neg (by omega), htok]
    exact hread
  unfold main
  rw [hinit, ok_bind, hconfig, ok_bind, hticks, ok_bind, hfp, hfp₁, hs₁, String.empty_append]
  rfl

/-- Without a header, or without a request, it follows NULL. -/
theorem input_of_main {bits : Fin 4 → Bool} {data : Nat → Task} {out : String}
    (h : main bits stack infp (.boot data) = .ok out) :
    ∃ start reqs, Input stack infp start reqs ∧ reqs ≠ [] := by
  obtain ⟨m, hinit, hL⟩ := boot_loaded data
  unfold main at h
  rw [hinit, ok_bind] at h
  obtain ⟨s₁, hconfig, h⟩ := bind_ok h
  obtain ⟨s₂, hticks, -⟩ := bind_ok h
  have hreqs : ∀ {reqs src}, Loaded s₁ reqs src → reqs ≠ [] := by
    rintro _ src hL₁ rfl
    rw [mainTicks_empty hL₁] at hticks
    cases hticks
  unfold readConfig at hconfig
  dsimp only at hconfig
  split at hconfig
  · obtain rfl := Except.ok.inj hconfig
    exact absurd rfl (hreqs hL)
  · next hheader =>
    split at hconfig
    · next name val more htok =>
      have hstart : Loaded { Sim.boot data with mem := m, start := atoi val, processes := 0 } [] [] :=
        ⟨hL.heads, hL.queueHead, hL.ring, rfl, rfl⟩
      obtain ⟨s', src, hread, hL', -⟩ :=
        readRequests_loaded (readLines infp.length infp).tail hstart
      obtain rfl := Except.ok.inj (hread.symm.trans hconfig)
      rw [List.nil_append] at hL'
      exact ⟨_, _, ⟨by omega, ⟨name, val, more, htok, rfl⟩, rfl⟩, hreqs hL'⟩
    · cases hconfig

end OsBasics.Disk
