/-
  `main` of the driver, over all its traces.

  `eval_mm_valid` is followed by one replay for the high water mark and ten for the time, and
  `mem_reset_brk` with `mm_init` is all that separates one replay from the next. With an
  allocator that can always be started again each trace is judged as if it were the first, no
  replay of a trace that passed stops the driver, and the errors are the traces that
  failed (`mainLoop_spec`).
-/
import OsBasics.Malloc.Util

namespace OsBasics.Malloc

open OsBasics.Lib

variable {σ : Type} {mm : Mm} {A : AbsMm σ} {reallocs : Bool} {Ready : Heap → Prop}
  {Rel : σ → List Range → Heap → Prop} {x x' : Replay σ} {rs : List Range} {d : Driver}
  {op : TraceOp} {ops : List TraceOp} {live : List Int} {tracenum : Nat}

/-! ## eval_mm_speed -/

/-- A round of the loop. -/
theorem speedOp_spec (hC : Meets mm A reallocs Ready Rel) (hT : Tracks Rel x rs d)
    (hlive : ∀ j ∈ live, ∃ r, x.held j = some r)
    (hl : Legal d.trace.numIds reallocs live (op :: ops)) (hop : x.op A op = .ok (some x')) :
    ∃ rs' d', speedOp mm op d = .ok d' ∧ Frame d d' ∧ Tracks Rel x' rs' d' := by
  obtain ⟨type, index, size⟩ := op
  obtain ⟨hidx, hl⟩ := hl
  cases type with
  | alloc =>
    obtain ⟨p, a, s, hp, hcode, -, hrel, rfl⟩ := hT.alloc_served hC hl.1 hop
    have hset := Driver.setBlock_eq (d := { d with heap := s }) hidx p
    refine ⟨_, { d with heap := s, trace := { d.trace with
      blocks := Function.update d.trace.blocks index.toNat p } }, ?_, ⟨rfl, rfl, rfl, rfl⟩,
      hT.store hC hidx (fun j r _ hr => (hT.held j r hr).2.1) hrel rfl rfl⟩
    unfold speedOp
    dsimp only
    rw [hcode]
    show (if p = 0 then _ else _) = _
    rw [if_neg hp]
    exact hset
  | realloc =>
    obtain ⟨rfl, hmem, hsize, -⟩ := hl
    obtain ⟨r, hr⟩ := hlive index hmem
    obtain ⟨p, a, s, hp, hcode, -, hrel, rfl⟩ := hT.realloc_served hC hsize hr hop
    have hset := Driver.setBlock_eq (d := { d with heap := s }) hidx p
    refine ⟨_, { d with heap := s, trace := { d.trace with
      blocks := Function.update d.trace.blocks index.toNat p } }, ?_, ⟨rfl, rfl, rfl, rfl⟩,
      hT.store hC hidx (fun j t hj ht => hT.erase_of_ne hr hj ht) hrel rfl rfl⟩
    unfold speedOp
    dsimp only
    rw [hT.block hr]
    show (call (mm.mmRealloc d.heap r.lo (toSizeT size)) >>= _) = _
    rw [hcode]
    show (if p = 0 then _ else _) = _
    rw [if_neg hp]
    exact hset
  | free =>
    obtain ⟨r, hr⟩ := hlive index hl.1
    obtain ⟨s, hcode, -, hrel, rfl⟩ := hT.free_served hC hr hop
    refine ⟨_, { d with heap := s }, ?_, ⟨rfl, rfl, rfl, rfl⟩, hT.drop hr hrel rfl⟩
    unfold speedOp
    dsimp only
    rw [hT.block hr]
    show (call (mm.mmFree d.heap r.lo) >>= _) = _
    rw [hcode]
    rfl

/-- The loop. -/
theorem speedLoop_spec (hC : Meets mm A reallocs Ready Rel) (hT : Tracks Rel x rs d)
    (hlive : ∀ j ∈ live, ∃ r, x.held j = some r) (hl : Legal d.trace.numIds reallocs live ops)
    (hserved : Served A ops x) : ∃ d', ops.foldlM (fun d op => speedOp mm op d) d = .ok d' ∧
      Frame d d' ∧ Ready d'.heap := by
  induction ops generalizing x rs d live with
  | nil => exact ⟨d, rfl, ⟨rfl, rfl, rfl, rfl⟩, hC.ready _ _ _ hT.rel⟩
  | cons op ops ih =>
    obtain ⟨x', hop⟩ := hserved.head
    obtain ⟨rs', d₁, hcode, hF, hT'⟩ := speedOp_spec hC hT hlive hl hop
    obtain ⟨d', hrest, hF', hready⟩ := ih hT' (Replay.held_op hlive hop) (hF.numIds ▸ hl.rest)
      ((served_cons hop).1 hserved)
    refine ⟨d', ?_, hF.trans hF', hready⟩
    rw [List.foldlM_cons, hcode]
    exact hrest

theorem evalMmSpeed_spec (hC : Meets mm A reallocs Ready Rel) (hready : Ready d.heap)
    (hl : Legal d.trace.numIds reallocs [] d.trace.ops)
    (hserved : Served A d.trace.ops (Replay.start A)) :
    ∃ d', evalMmSpeed mm d = .ok d' ∧ Frame d d' ∧ Ready d'.heap := by
  obtain ⟨s, hcode, hrel, htracks⟩ := hC.start hready
  obtain ⟨d', hrun, hF, hready'⟩ := speedLoop_spec hC (htracks { d with heap := s } rfl)
    (fun j hj => absurd hj List.not_mem_nil) hl hserved
  refine ⟨d', ?_, ⟨hF.ops, hF.numIds, hF.errors, hF.stdout⟩, hready'⟩
  unfold evalMmSpeed
  rw [hcode]
  exact hrun

/-- The replays that are timed. -/
theorem fsecs_spec (hC : Meets mm A reallocs Ready Rel) (n : Nat) (hready : Ready d.heap)
    (hl : Legal d.trace.numIds reallocs [] d.trace.ops)
    (hserved : Served A d.trace.ops (Replay.start A)) :
    ∃ d', fsecs (evalMmSpeed mm) n d = .ok d' ∧ Frame d d' ∧ Ready d'.heap := by
  induction n generalizing d with
  | zero => exact ⟨d, rfl, ⟨rfl, rfl, rfl, rfl⟩, hready⟩
  | succ n ih =>
    obtain ⟨d₁, hcode, hF, hready₁⟩ := evalMmSpeed_spec hC hready hl hserved
    rw [← hF.numIds, ← hF.ops] at hl
    rw [← hF.ops] at hserved
    obtain ⟨d', hrest, hF', hready'⟩ := ih hready₁ hl hserved
    refine ⟨d', ?_, hF.trans hF', hready'⟩
    unfold fsecs
    rw [hcode]
    exact hrest

/-! ## main -/

/-- The trace passes. -/
def Passes (A : AbsMm σ) (trace : Trace) : Prop :=
  Served A trace.ops (Replay.start A) ∧ ∀ op ∈ trace.ops, ¬ Misread op

/-- No call of the replay ends without a result. -/
def Returns (A : AbsMm σ) (trace : Trace) : Prop :=
  ∃ v, judge A 0 trace.ops (Replay.start A) = .ok v

/-- The numbers of a trace are right: it is valid when it passes, and then its high water mark is
    its greatest load, and fits into the heap. -/
structure Scored (A : AbsMm σ) (trace : Trace) (stats : Stats) : Prop where
  ops : stats.ops = trace.ops.length
  valid : stats.valid = true ↔ Passes A trace
  util : stats.valid = true → ∃ highWater heapsize, stats.util = some (highWater, heapsize) ∧
    IsGreatest {n | ∃ k, n = load (inUse [] (trace.ops.take k))} highWater ∧ highWater ≤ heapsize

/-- One trace. -/
theorem mainTrace_spec (hC : Meets mm A reallocs Ready Rel) {trace : Trace} (hready : Ready d.heap)
    (hl : Legal trace.numIds reallocs [] trace.ops) (hret : Returns A trace) (tracenum : Nat) :
    ∃ stats d', mainTrace mm tracenum trace d = .ok (stats, d') ∧ Scored A trace stats ∧
      Ready d'.heap ∧ d'.errors = d.errors + if stats.valid then 0 else 1 := by
  obtain ⟨v, hv⟩ := hret
  have hpasses : v = none ↔ Passes A trace := by
    unfold Passes
    rw [← judge_none_iff (i := 0), hv, Except.ok.injEq]
  have hfinal := evalMmValid_final (d := { d with trace := trace }) hC hready hl tracenum
  dsimp only at hfinal
  rw [hv] at hfinal
  unfold mainTrace
  generalize evalMmValid mm tracenum { d with trace := trace } = out at hfinal ⊢
  cases hfinal with
  | @failed i msg d₁ hF hready₁ =>
    refine ⟨⟨trace.ops.length, false, none⟩, _, rfl, ⟨rfl, ?_, nofun⟩, hready₁,
      congrArg (· + 1) hF.errors⟩
    exact iff_of_false Bool.false_ne_true fun h => nomatch hpasses.2 h
  | @passed d₁ hF hready₁ =>
    have hserved := (hpasses.1 rfl).1
    have hids := hF.numIds
    have hops := hF.ops
    dsimp only at hids hops
    rw [← hops, ← hids] at hl
    rw [← hops] at hserved
    obtain ⟨highWater, heapsize, d₂, hutil, hgreatest, hle, hF₂, hready₂⟩ :=
      evalMmUtil_spec hC hready₁ hl hserved
    rw [← hF₂.ops, ← hF₂.numIds] at hl
    rw [← hF₂.ops] at hserved
    obtain ⟨d₃, hspeed, hF₃, hready₃⟩ := fsecs_spec hC 10 hready₂ hl hserved
    refine ⟨⟨trace.ops.length, true, some (highWater, heapsize)⟩, d₃, ?_,
      ⟨rfl, iff_of_true rfl (hpasses.1 rfl), fun _ => ⟨highWater, heapsize, rfl, ?_, hle⟩⟩,
      hready₃, ?_⟩
    · show (evalMmUtil mm d₁ >>= _) = _
      rw [hutil]
      show (fsecs (evalMmSpeed mm) 10 d₂ >>= _) = _
      rw [hspeed]
      rfl
    · rwa [hops] at hgreatest
    · exact hF₃.errors.trans (hF₂.errors.trans hF.errors)

/-- All traces, from the trace `i` on. -/
theorem mainLoop_spec (hC : Meets mm A reallocs Ready Rel) {traces : List Trace}
    (hready : Ready d.heap) (hl : ∀ t ∈ traces, Legal t.numIds reallocs [] t.ops)
    (hret : ∀ t ∈ traces, Returns A t) (i : Nat) :
    ∃ stats d', mainLoop mm i traces d = .ok (stats, d') ∧
      List.Forall₂ (Scored A) traces stats ∧
      d'.errors = d.errors + (stats.filter fun s => !s.valid).length := by
  induction traces generalizing d i with
  | nil => exact ⟨[], d, rfl, .nil, rfl⟩
  | cons trace traces ih =>
    obtain ⟨htl, hl⟩ := List.forall_mem_cons.1 hl
    obtain ⟨htret, hret⟩ := List.forall_mem_cons.1 hret
    obtain ⟨s, d₁, hcode, hscored, hready₁, herr⟩ := mainTrace_spec hC hready htl htret i
    obtain ⟨stats, d', hrest, hall, herrs⟩ := ih hready₁ hl hret (i + 1)
    refine ⟨s :: stats, d', ?_, .cons hscored hall, ?_⟩
    · unfold mainLoop
      rw [hcode]
      show (mainLoop mm (i + 1) traces d₁ >>= _) = _
      rw [hrest]
      rfl
    · rw [herrs, herr]
      cases hs : s.valid with
      | true =>
        rw [List.filter_cons_of_neg (by simp [hs]), if_pos rfl]
        rfl
      | false =>
        rw [List.filter_cons_of_pos (by simp [hs]), if_neg Bool.false_ne_true, List.length_cons]
        omega

end OsBasics.Malloc
