/-
  The free list allocator under the driver.

  `Housed` puts every payload the driver knows into a block in use of its own. With it
  `mm_freeList.c` meets what the driver asks, but for reallocations (`freeListMm_meets`): its
  answers are those of the abstract layout, and `mem_reset_brk` with `mm_init` starts it again,
  because it never writes the gap word. `mm_realloc` takes a block that grows from
  libc, and the driver rejects it.
-/
import OsBasics.Malloc.Realloc
import OsBasics.Malloc.Traces

namespace OsBasics.Malloc

open OsBasics.Lib

/-- `mm_freeList.c` as the driver calls it, when libc's `malloc` is `malloc`. -/
def freeListMm (malloc : Nat → Nat) : Mm where
  mmInit := mmInit
  mmMalloc := mmMalloc
  mmFree s bp := pure (mmFree s bp)
  mmRealloc s ptr size := pure (mmRealloc malloc s ptr size)

/-- The layout and the break, at base `h`. -/
def layoutMm (h : Nat) : AbsMm (Layout × Nat) where
  start := (Layout.initial h, h + 80)
  malloc a n :=
    if a.1.MallocWraps a.2 n then .error .wrap
    else
      let (p, A) := a.1.malloc a.2 (h + maxHeap) n
      .ok (p, A, a.1.mallocBrk a.2 (h + maxHeap) n)
  free a p := (a.1.release p, a.2)
  realloc a _ _ := .ok (0, a)

/-- A heap at `h` in which the driver can start it. -/
structure Restartable (h : Nat) (s : Heap) : Prop where
  start : Start s.mem h
  base : s.memStartBrk = h
  max : s.memMaxAddr = h + maxHeap

/-- Every payload lies in a block in use of its own, before its footer, and the block is not larger
    than it has to be. -/
structure Housed (used : List Block) (rs : List Range) : Prop where
  block : ∀ r ∈ rs, ∃ b ∈ used, b.addr = r.lo ∧ r.lo ≤ r.hi ∧ r.hi + 9 ≤ b.addr + b.size ∧
    b.size < newsize r.size + minBlocksize
  nodup : (rs.map Extent.lo).Nodup

namespace Housed

variable {used used' : List Block} {rs : List Range}

/-- A fresh block. -/
theorem grant (hH : Housed used rs) {p n size : Nat} (hsize : 1 ≤ size) (hn : size + 8 ≤ n)
    (hn' : n < newsize size + minBlocksize) (hfresh : ∀ c ∈ used, c.addr ≠ p)
    (hu : ∀ c, c ∈ used' ↔ c ∈ used ∨ c = ⟨p, n, true⟩) :
    Housed used' (payload p size :: rs) := by
  have hlo : (payload p size).lo = p := rfl
  have hhi : (payload p size).hi = p + size - 1 := rfl
  refine ⟨List.forall_mem_cons.2 ⟨⟨⟨p, n, true⟩, (hu _).2 (.inr rfl), rfl, ?_, ?_, ?_⟩,
    fun r hr => ?_⟩, ?_⟩
  · omega
  · dsimp only
    omega
  · rwa [payload_size hsize]
  · obtain ⟨b, hb, h⟩ := hH.block r hr
    exact ⟨b, (hu b).2 (.inl hb), h⟩
  · rw [List.map_cons]
    refine List.nodup_cons.2 ⟨fun hmem => ?_, hH.nodup⟩
    obtain ⟨r, hr, hrp⟩ := List.mem_map.1 hmem
    obtain ⟨b, hb, hbr, -⟩ := hH.block r hr
    exact hfresh b hb (hbr.trans hrp)

/-- A block freed. -/
theorem drop (hH : Housed used rs) {r : Range} (hr : r ∈ rs)
    (hu : ∀ c, c ∈ used' ↔ c ∈ used ∧ c.addr ≠ r.lo) : Housed used' (rs.erase r) := by
  have hnodup : rs.Nodup := hH.nodup.of_map
  refine ⟨fun t ht => ?_, hH.nodup.sublist (List.erase_sublist.map _)⟩
  obtain ⟨hne, ht⟩ := hnodup.mem_erase_iff.1 ht
  obtain ⟨b, hb, hbt, hin⟩ := hH.block t ht
  refine ⟨b, (hu b).2 ⟨hb, fun hbr => hne ?_⟩, hbt, hin⟩
  exact List.inj_on_of_nodup_map hH.nodup ht hr (hbt.symm.trans hbr)

/-- Blocks in use keep the bytes of the payloads. -/
theorem sameBytes (hH : Housed used rs) {m m' : Mem} (hk : Keeps used m m') : SameBytes rs m m' := by
  intro r hr q hq
  obtain ⟨b, hb, hbr, -, hhi, -⟩ := hH.block r hr
  have hq1 := hq.1
  have hq2 := hq.2
  exact hk b hb q (by omega) (by omega)

end Housed

theorem Rep.bounded {h : Nat} {m₀ : Mem} {s : Heap} {A : Layout} (hR : Rep h m₀ s A) : Bounded s := by
  have ha := hR.core.arena
  have hlo := ha.lo
  have hbrkLo := ha.brkLo
  have hbrkHi := ha.brkHi
  exact ⟨hlo ▸ ha.pos, by omega, by omega, hlo ▸ ha.space⟩

/-- The heap holds the layout, the payloads are housed in it, and the gap word is zero. -/
def Holding (h : Nat) (a : Layout × Nat) (rs : List Range) (s : Heap) : Prop :=
  ∃ m₀, Sim h m₀ ⟨s, []⟩ ⟨a.1, a.2, []⟩ ∧ get m₀ (h + 40) = 0 ∧ Housed a.1.used rs

namespace Holding

variable {h : Nat} {a : Layout × Nat} {rs : List Range} {s : Heap} {r : Range}

theorem granted (hR : Holding h a rs s) : Granted rs s := by
  obtain ⟨m₀, hS, -, hH⟩ := hR
  have hlo := hS.rep.core.arena.lo
  dsimp only at hlo
  refine ⟨hS.rep.bounded, ?_, fun r hr => ?_, fun r hr => ?_⟩
  · refine (List.pairwise_map.1 hH.nodup).imp_of_mem fun {r t} hr ht hne => ?_
    obtain ⟨b, hb, hbr, -, hbhi, -⟩ := hH.block r hr
    obtain ⟨c, hc, hct, -, hchi, -⟩ := hH.block t ht
    have hbm := (Layout.mem_used.1 hb).1
    have hcm := (Layout.mem_used.1 hc).1
    obtain rfl | hdis | hdis := tiles_disjoint hS.rep.valid.tiles hbm hcm
    · exact absurd (hbr.symm.trans hct) hne
    · exact .inl (by omega)
    · exact .inr (by omega)
  · obtain ⟨b, hb, hbr, -⟩ := hH.block r hr
    rw [← hbr]
    exact hS.addr_dword (Layout.mem_used.1 hb).1
  · obtain ⟨b, hb, hbr, hle, hbhi, -⟩ := hH.block r hr
    have hin := hS.rep.core.inHeap b (Layout.mem_used.1 hb).1
    have hin1 := hin.lo
    have hin2 := hin.hi
    dsimp only at hin2
    omega

/-- The gap word is still zero. -/
theorem restartable (hR : Holding h a rs s) : Restartable h s := by
  obtain ⟨m₀, hS, hgap, -⟩ := hR
  have ha := hS.rep.core.arena
  refine ⟨⟨ha.pos, ha.dword, ha.space, ?_⟩, ha.lo, ha.hi⟩
  rw [← hgap]
  exact get_congr fun q h1 h2 => hS.rep.core.still q (.inr (.inl (by omega)))

theorem write (hR : Holding h a rs s) (hr : r ∈ rs) {q : Nat} (hq : q ∈ r) (v : UInt8) :
    Holding h a rs { s with mem := putByte s.mem q v } := by
  obtain ⟨m₀, hS, hgap, hH⟩ := hR
  obtain ⟨b, hb, hbr, -, hbhi, -⟩ := hH.block r hr
  have hq1 := hq.1
  have hq2 := hq.2
  have hrep := hS.rep.write hb (p := q) (by omega) (by omega) v
  exact ⟨m₀, ⟨hrep, hS.sealed, hS.brk, rfl, hS.backed⟩, hgap, hH⟩

theorem malloc (hR : Holding h a rs s) {n : Nat} (hn : 1 ≤ n) (hn' : n < 2147483648) :
    (∃ f, (layoutMm h).malloc a n = .error f ∧ mmMalloc s n = .error f) ∨
    ∃ p a' s', (layoutMm h).malloc a n = .ok (p, a') ∧ mmMalloc s n = .ok (p, s') ∧ Grows s s' ∧
      SameBytes rs s.mem s'.mem ∧ Holding h a' (if p = 0 then rs else payload p n :: rs) s' := by
  obtain ⟨m₀, hS, hgap, hH⟩ := hR
  have hroom := newsize_room (show n ≤ maxRequest by unfold maxRequest; omega)
  have hspace : n < addrSpace := by unfold addrSpace; omega
  have hbrk : s.memBrk = a.2 := hS.brk
  unfold layoutMm
  dsimp only
  by_cases hw : a.1.MallocWraps a.2 n
  · rw [if_pos hw]
    exact .inl ⟨.wrap, rfl, hS.rep.mmMalloc_wraps hn hspace (hbrk ▸ hw)⟩
  · rw [if_neg hw]
    obtain ⟨s', hcode, hrep, hbrk', hkeep⟩ :=
      hS.rep.mmMalloc_refines hn hspace (fun _ => hS.sealed) (hbrk ▸ hw)
    obtain ⟨-, hused⟩ := hS.rep.valid.malloc_used (by omega) (h + maxHeap) hspace
    dsimp only at hcode hrep hbrk' hused
    rw [hbrk] at hcode hrep hbrk' hused
    have hgrows : Grows s s' := by
      refine ⟨hrep.core.arena.lo.trans hS.rep.core.arena.lo.symm, ?_⟩
      rw [hbrk', hbrk]
      unfold Layout.mallocBrk
      split <;> omega
    refine .inr ⟨_, _, s', rfl, hcode, hgrows, hH.sameBytes hkeep,
      m₀, ⟨hrep, hS.sealed, hbrk', rfl, by simp, by simp⟩, hgap, ?_⟩
    obtain ⟨hp, hA⟩ | ⟨hp, hfresh, k, hle, hlt, hu⟩ := hused
    · dsimp only
      rw [if_pos hp, hA]
      exact hH
    · dsimp only
      rw [if_neg hp]
      exact hH.grant hn (by omega) hlt hfresh hu

theorem free (hR : Holding h a rs s) (hr : r ∈ rs) : Grows s (mmFree s r.lo) ∧
    SameBytes (rs.erase r) s.mem (mmFree s r.lo).mem ∧
    Holding h (a.1.release r.lo, a.2) (rs.erase r) (mmFree s r.lo) := by
  obtain ⟨m₀, hS, hgap, hH⟩ := hR
  obtain ⟨b, hb, hbr, -⟩ := hH.block r hr
  obtain ⟨hrep, hbrk, hkeep⟩ := hS.rep.mmFree_refines (fun _ => hS.sealed) hb
  have hH' := hH.drop hr (hbr ▸ hS.rep.valid.mem_used_release hb)
  dsimp only at hrep hbrk hkeep
  rw [hbr] at hrep hbrk hkeep
  refine ⟨⟨hrep.core.arena.lo.trans hS.rep.core.arena.lo.symm, hbrk.ge⟩, hH'.sameBytes hkeep,
    m₀, ⟨hrep, hS.sealed, hbrk.trans hS.brk, rfl, by simp, by simp⟩, hgap, hH'⟩

end Holding

/-- `mem_reset_brk` and `mm_init`, in memory that held a heap before. -/
theorem Restartable.init {h : Nat} {s : Heap} (hs : Restartable h s) :
    ∃ s', mmInit (memResetBrk s) = .ok (0, s') ∧ Holding h (layoutMm h).start [] s' := by
  obtain ⟨s', hcode, hS⟩ := sim_init (s := memResetBrk s) hs.base hs.base hs.max hs.start.pos
    hs.start.dword hs.start.space hs.start.sealed
  refine ⟨s', hcode, _, hS, ?_, fun r hr => absurd hr List.not_mem_nil, List.nodup_nil⟩
  rw [Rep.prologueMem_get _ (by omega)]
  exact hs.start.gap

/-- It does what the driver asks, except for reallocations. -/
theorem freeListMm_meets (malloc : Nat → Nat) (h : Nat) :
    Meets (freeListMm malloc) (layoutMm h) false (Restartable h) (Holding h) where
  init _ hs := hs.init
  ready _ _ _ hR := hR.restartable
  live _ _ _ hR := hR.granted
  write _ _ _ _ _ v hR hr hq := hR.write hr hq v
  malloc _ _ _ _ hR hn hn' := hR.malloc hn hn'
  free _ _ s r hR hr := ⟨mmFree s r.lo, rfl, hR.free hr⟩
  realloc hf := absurd hf Bool.false_ne_true

/-! ## A trace without reallocations -/

/-- The most by which the requests of a trace can make the heap grow. -/
def reserve (ops : List TraceOp) : Nat :=
  ((ops.filter (·.type = .alloc)).map fun op => extendsize (toSizeT op.size)).sum

theorem reserve_cons (op : TraceOp) (ops : List TraceOp) : reserve (op :: ops) =
    (if op.type = .alloc then extendsize (toSizeT op.size) else 0) + reserve ops := by
  unfold reserve
  by_cases hop : op.type = .alloc
  · rw [List.filter_cons_of_pos (by simpa using hop), List.map_cons, List.sum_cons, if_pos hop]
  · rw [List.filter_cons_of_neg (by simpa using hop), if_neg hop, Nat.zero_add]

/-- With room for a larger heap a request is answered. -/
theorem Holding.answers {h : Nat} {a : Layout × Nat} {rs : List Range} {s : Heap}
    (hR : Holding h a rs s) {n : Nat} (hroom : a.2 + extendsize n ≤ h + maxHeap) :
    ∃ p a', (layoutMm h).malloc a n = .ok (p, a') ∧ p ≠ 0 ∧ a'.2 ≤ a.2 + extendsize n := by
  obtain ⟨m₀, hS, -, -⟩ := hR
  have ha := hS.rep.core.arena
  have hspace := ha.space
  have hbrk : s.memBrk = a.2 := hS.brk
  have hlo := ha.brkLo
  dsimp only at hlo
  have hgrows : Layout.Grows a.2 (h + maxHeap) n := by
    refine ⟨?_, hroom⟩
    unfold maxHeap at hroom
    omega
  have hw : ¬ a.1.MallocWraps a.2 n := fun hw => by
    have := hw.2.2
    omega
  unfold layoutMm
  dsimp only
  rw [if_neg hw]
  refine ⟨_, _, rfl, ?_, ?_⟩
  · unfold Layout.malloc
    cases hfit : a.1.fit (newsize n) with
    | some p =>
      obtain ⟨b, hb, rfl, -⟩ := hS.rep.valid.fit_some hfit
      have hin := (hS.rep.core.inHeap b hb).lo
      dsimp only
      omega
    | none =>
      dsimp only
      rw [if_pos hgrows, Layout.extend_ptr, ← hbrk]
      have hge := hS.rep.growAt_lo
      dsimp only at hge ⊢
      omega
  · show a.1.mallocBrk a.2 (h + maxHeap) n ≤ _
    unfold Layout.mallocBrk
    split <;> omega

section Room

variable {malloc : Nat → Nat} {h : Nat} {x : Replay (Layout × Nat)} {rs : List Range} {d : Driver}
  {live : List Int} {ops : List TraceOp}

/-- An operation of the trace. -/
theorem Tracks.op_room (hT : Tracks (Holding h) x rs d) {op : TraceOp}
    (hlive : ∀ j ∈ live, ∃ r, x.held j = some r)
    (hl : Legal d.trace.numIds false live (op :: ops))
    (hroom : x.heap.2 + reserve (op :: ops) ≤ h + maxHeap) :
    ∃ x', x.op (layoutMm h) op = .ok (some x') ∧ x'.heap.2 + reserve ops ≤ h + maxHeap := by
  rw [reserve_cons] at hroom
  cases htype : op.type with
  | alloc =>
    rw [if_pos htype] at hroom
    obtain ⟨p, a, hmalloc, hp, hle⟩ := hT.rel.answers (n := toSizeT op.size) (by omega)
    obtain ⟨x', hans, hx'⟩ : ∃ x', x.answer op.index (toSizeT op.size) (p, a) = some x' ∧
        x'.heap = a := ⟨_, if_neg hp, rfl⟩
    refine ⟨x', ?_, by rw [hx']; omega⟩
    unfold Replay.op
    rw [htype]
    dsimp only
    rw [hmalloc]
    exact congrArg Except.ok hans
  | realloc =>
    have hno := hl.2
    rw [htype] at hno
    exact absurd hno.1 Bool.false_ne_true
  | free =>
    obtain ⟨r, hr⟩ := hlive _ (hl.mem (by rw [htype]; decide))
    refine ⟨⟨(layoutMm h).free x.heap r.lo, Function.update x.held op.index none⟩, ?_, ?_⟩
    · unfold Replay.op
      rw [htype, hr]
    · show x.heap.2 + reserve ops ≤ h + maxHeap
      omega

/-- All requests are answered when the heap has room for each of them to make it grow. -/
theorem Tracks.served_of_room (hT : Tracks (Holding h) x rs d)
    (hlive : ∀ j ∈ live, ∃ r, x.held j = some r) (hl : Legal d.trace.numIds false live ops)
    (hroom : x.heap.2 + reserve ops ≤ h + maxHeap) : Served (layoutMm h) ops x := by
  induction ops generalizing x rs d live with
  | nil => exact ⟨x, rfl⟩
  | cons op ops ih =>
    obtain ⟨x', hop, hroom'⟩ := hT.op_room hlive hl hroom
    obtain ⟨rs', d', -, hF, hT'⟩ :=
      speedOp_spec (freeListMm_meets (fun _ => 0) h) hT hlive hl hop
    exact (served_cons hop).2 (ih hT' (Replay.held_op hlive hop) (hF.numIds ▸ hl.rest) hroom')

theorem Legal.noRealloc {numIds : Int} (hl : Legal numIds false live ops) :
    ∀ op ∈ ops, op.type ≠ .realloc := by
  induction ops generalizing live with
  | nil => exact fun op hop => absurd hop List.not_mem_nil
  | cons op ops ih =>
    refine List.forall_mem_cons.2 ⟨fun htype => ?_, ih hl.rest⟩
    have hno := hl.2
    rw [htype] at hno
    exact absurd hno.1 Bool.false_ne_true

/-- Without reallocations the free list allocator passes every trace whose requests fit into MAX_HEAP
    one after the other, at 4096 bytes each or more. -/
theorem evalMmValid_room (hready : Restartable h d.heap)
    (hl : Legal d.trace.numIds false [] d.trace.ops) (hroom : 80 + reserve d.trace.ops ≤ maxHeap)
    (malloc : Nat → Nat) (tracenum : Nat) :
    ∃ d', evalMmValid (freeListMm malloc) tracenum d = .ok (true, d') := by
  have hC := freeListMm_meets malloc h
  obtain ⟨s, -, -, htracks⟩ := hC.start hready
  refine (evalMmValid_passes hC hready hl tracenum).2 ⟨?_, fun op hop hmis => ?_⟩
  · refine (htracks { d with heap := s } rfl).served_of_room
      (fun j hj => absurd hj List.not_mem_nil) hl ?_
    show h + 80 + reserve d.trace.ops ≤ h + maxHeap
    omega
  · exact hl.noRealloc op hop hmis.1

theorem boot_restartable (t : Trace) : Restartable 8 (Driver.boot (fun _ => 0) 8 t).heap :=
  ⟨⟨by decide, by decide, by decide, rfl⟩, rfl, rfl⟩

/-- Three requests and a free. -/
def roomy : Trace := .read 3 [⟨.alloc, 0, 100⟩, ⟨.alloc, 1, 5000⟩, ⟨.free, 0, 0⟩, ⟨.alloc, 2, 64⟩]

theorem evalMmValid_room_roomy :
    ∃ d', evalMmValid (freeListMm fun _ => 0) 0 (.boot (fun _ => 0) 8 roomy) = .ok (true, d') :=
  evalMmValid_room (d := .boot (fun _ => 0) 8 roomy) (boot_restartable _)
    (show Legal 3 false [] roomy.ops by decide) (show 80 + reserve roomy.ops ≤ maxHeap by decide)
    (fun _ => 0) 0

end Room

/-! ## A trace with a block that grows -/

section Grow

variable {malloc : Nat → Nat} {h : Nat} {x : Replay (Layout × Nat)} {rs : List Range} {d : Driver}
  {index size : Int} {tracenum i : Nat}

/-- A payload that libc gave lies outside the heap. -/
theorem Outside.rejects (hout : Outside h malloc) {n : Nat} (hn : 1 ≤ n) (hn' : n < 2147483648)
    (hp : malloc (n * 2 % addrSpace) ≠ 0) (hbase : d.heap.memStartBrk = h)
    (htop : d.heap.memBrk ≤ h + maxHeap) :
    ¬ d.Accepts (payload (malloc (n * 2 % addrSpace)) n) := by
  intro ha
  have hin := ha.inside
  have hlo : (payload (malloc (n * 2 % addrSpace)) n).lo = malloc (n * 2 % addrSpace) := rfl
  have hhi : (payload (malloc (n * 2 % addrSpace)) n).hi = malloc (n * 2 % addrSpace) + n - 1 := rfl
  have hfar := hout _ hp
  rw [hlo, hhi, hbase] at hin
  rw [Nat.mod_eq_of_lt (by unfold addrSpace; omega)] at hin hfar
  omega

theorem validRealloc_null {mm : Mm} {oldp : Nat} {s : Heap} (hblock : d.block index = .ok oldp)
    (hcode : mm.mmRealloc d.heap oldp (toSizeT size) = .ok (0, s)) :
    ∃ d', validRealloc mm tracenum i index size d = .ok (false, d') := by
  refine ⟨Driver.mallocError { d with heap := s } tracenum i "mm_realloc failed.", ?_⟩
  unfold validRealloc
  rw [hblock]
  show (call (mm.mmRealloc d.heap oldp (toSizeT size)) >>= _) = _
  rw [hcode]
  rfl

theorem validRealloc_rejected {mm : Mm} {oldp p : Nat} {s : Heap} {d' : Driver}
    (hblock : d.block index = .ok oldp)
    (hcode : mm.mmRealloc d.heap oldp (toSizeT size) = .ok (p, s)) (hp : p ≠ 0)
    (hadd : (Driver.removeRange { d with heap := s } oldp).addRange p size tracenum i =
      .ok (false, d')) : validRealloc mm tracenum i index size d = .ok (false, d') := by
  unfold validRealloc
  rw [hblock]
  show (call (mm.mmRealloc d.heap oldp (toSizeT size)) >>= _) = _
  rw [hcode]
  show (if p = 0 then _ else _) = _
  rw [if_neg hp]
  show ((Driver.removeRange { d with heap := s } oldp).addRange p size tracenum i >>= _) = _
  rw [hadd]
  rfl

/-- `mm_realloc` of a block that grows by 32 bytes or more does not keep it in the heap. -/
theorem Agrees.realloc_grow (hS : Agrees (Holding h) x rs d) (hout : Outside h malloc) {r : Range}
    (hr : x.held index = some r) (hgrow : r.size + 32 ≤ size) (hsize : size < 2147483648) :
    ∃ d', validRealloc (freeListMm malloc) tracenum i index size d = .ok (false, d') := by
  have hrange : 0 < size ∧ size < 2147483648 := ⟨by omega, hsize⟩
  obtain ⟨hcast, hn, hn'⟩ := toSizeT_eq hrange
  obtain ⟨m₀, hsim, hgap, hH⟩ := hS.rel
  obtain ⟨b, hb, hbr, hle, hbhi, hbsize⟩ := hH.block r (hS.held index r hr).2.1
  have hgt : b.size < newsize (toSizeT size) := by
    rw [newsize_blockSize (by omega)] at hbsize ⊢
    unfold blockSize minBlocksize at *
    unfold Extent.size at *
    omega
  have hgap' : getSize m₀ (h + 40) = 0 := by
    unfold getSize
    rw [hgap]
    rfl
  have hrealloc := hsim.rep.realloc_grow (Layout.mem_used.1 hb).1 malloc hgt
  rw [hbr] at hrealloc
  by_cases hp : malloc (toSizeT size * 2 % addrSpace) = 0
  · rw [if_pos hp] at hrealloc
    exact validRealloc_null (hS.block hr) (congrArg Except.ok hrealloc)
  · rw [if_neg hp] at hrealloc
    have hfar := hout _ hp
    have hdst : malloc (toSizeT size * 2 % addrSpace) + min (toSizeT size) b.size ≤ h ∨
        h + maxHeap ≤ malloc (toSizeT size * 2 % addrSpace) := by
      rw [Nat.mod_eq_of_lt (by unfold addrSpace; omega)] at hfar ⊢
      omega
    obtain ⟨m₁, hrep, -⟩ := hsim.rep.memcpy_free hgap' hb hdst
    rw [hbr] at hrep
    obtain ⟨hacc, -⟩ | ⟨-, msg, hadd⟩ := Driver.addRange_cases
      (d := Driver.removeRange { d with heap := _ } r.lo) hrep.bounded hrange
    · exact absurd hacc (hout.rejects hn hn' hp hrep.core.arena.lo hrep.core.arena.brkHi)
    · exact ⟨_, validRealloc_rejected (hS.block hr) (congrArg Except.ok hrealloc) hp hadd⟩

theorem validLoop_cons (mm : Mm) (tracenum i : Nat) (op : TraceOp) (ops : List TraceOp) (d : Driver) :
    validLoop mm tracenum i (op :: ops) d = (do
      let (more, d) ← validOp mm tracenum i op d
      if more then validLoop mm tracenum (i + 1) ops d else pure (false, d)) := rfl

/-- A prefix of a trace fails, or leaves the driver at the rest of the trace. -/
theorem validLoop_prefix {σ : Type} {mm : Mm} {A : AbsMm σ} {reallocs : Bool} {Ready : Heap → Prop}
    {Rel : σ → List Range → Heap → Prop} {x : Replay σ} {bs : List (Int × Int)} {live : List Int}
    {ops : List TraceOp} (hC : Meets mm A reallocs Ready Rel) (hS : Agrees Rel x rs d)
    (hN : Named x bs) (hlive : ∀ j ∈ live, ∃ r, x.held j = some r)
    (hl : Legal d.trace.numIds reallocs live ops) (rest : List TraceOp) (i : Nat) :
    (∀ d', validLoop mm tracenum i (ops ++ rest) d ≠ .ok (true, d')) ∨
    ∃ x' rs' d₁, validLoop mm tracenum i (ops ++ rest) d =
        validLoop mm tracenum (i + ops.length) rest d₁ ∧ Agrees Rel x' rs' d₁ ∧
      Named x' (inUse bs ops) ∧ ∀ j ∈ liveAfter live ops, ∃ r, x'.held j = some r := by
  induction ops generalizing x rs d bs live i with
  | nil => exact .inr ⟨x, rs, d, rfl, hS, hN, hlive⟩
  | cons op ops ih =>
    have hround := hS.round hC hlive hl tracenum i
    rw [List.cons_append, validLoop_cons]
    generalize hop : x.op A op = a at hround
    generalize validOp mm tracenum i op d = out at hround ⊢
    cases hround with
    | fault f => exact .inl fun d' => nofun
    | refused hF hready => exact .inl fun d' => nofun
    | misread hmis hF hready => exact .inl fun d' => nofun
    | @done x' rs' d₁ hmis hF hS' =>
      have hafter : liveAfter live (op :: ops) = liveAfter (liveAfter live [op]) ops := by
        obtain ⟨type, index, size⟩ := op
        cases type <;> rfl
      have hlen : i + (op :: ops).length = i + 1 + ops.length := by
        rw [List.length_cons]
        omega
      rw [hafter, hlen]
      exact ih hS' (hN.step hl hop) (Replay.held_op hlive hop) (hF.numIds ▸ hl.rest) (i + 1)

/-- No trace in which a block grows by 32 bytes or more passes. -/
theorem evalMmValid_grow {ops rest : List TraceOp} {old : Int} (hout : Outside h malloc)
    (hready : Restartable h d.heap) (hops : d.trace.ops = ops ++ ⟨.realloc, index, size⟩ :: rest)
    (hl : Legal d.trace.numIds false [] ops) (hlive : index ∈ liveAfter [] ops)
    (hold : (inUse [] ops).find? (fun b => b.1 = index) = some (index, old))
    (hgrow : old + 32 ≤ size) (hsize : size < 2147483648) (tracenum : Nat) :
    ∀ d', evalMmValid (freeListMm malloc) tracenum d ≠ .ok (true, d') := by
  intro d' hok
  have hC := freeListMm_meets malloc h
  obtain ⟨s, hcode, -, htracks⟩ := hC.start hready
  unfold evalMmValid at hok
  change (call ((freeListMm malloc).mmInit (memResetBrk d.heap)) >>= _) = _ at hok
  rw [hcode] at hok
  change validLoop (freeListMm malloc) tracenum 0 d.trace.ops { d with heap := s, ranges := [] } = _
    at hok
  have hS : Agrees (Holding h) (Replay.start (layoutMm h)) [] { d with heap := s, ranges := [] } :=
    ⟨⟨htracks _ rfl, fun i r hr => (nomatch hr)⟩, rfl, fun i r hr => (nomatch hr)⟩
  rw [hops] at hok
  have hN₀ : Named (Replay.start (layoutMm h)) [] := fun i r hr => (nomatch hr)
  obtain hno | ⟨x, rs, d₁, hrun, hS₁, hN, hheld⟩ :=
    validLoop_prefix hC hS hN₀ (fun j hj => absurd hj List.not_mem_nil) hl
      (⟨.realloc, index, size⟩ :: rest) 0
  · exact hno d' hok
  · rw [hrun] at hok
    obtain ⟨r, hr⟩ := hheld index hlive
    have hr' := hN index r hr
    rw [hold, Option.some.injEq, Prod.mk.injEq] at hr'
    obtain ⟨d₂, hfail⟩ : ∃ d₂, validRealloc (freeListMm malloc) tracenum (0 + ops.length) index size
        d₁ = .ok (false, d₂) := hS₁.realloc_grow hout hr (by omega) hsize
    rw [validLoop_cons] at hok
    change (validRealloc (freeListMm malloc) tracenum (0 + ops.length) index size d₁ >>= _) = _ at hok
    rw [hfail] at hok
    cases hok

/-- A block of 16 bytes that grows to 48. -/
def growing : Trace := .read 1 [⟨.alloc, 0, 16⟩, ⟨.realloc, 0, 48⟩, ⟨.free, 0, 0⟩]

theorem evalMmValid_grow_growing :
    ¬ ∃ d', evalMmValid (freeListMm fun _ => 30000000) 0 (.boot (fun _ => 0) 8 growing) =
      .ok (true, d') := by
  rintro ⟨d', h⟩
  refine evalMmValid_grow (d := .boot (fun _ => 0) 8 growing) (fun n _ => .inr ?_)
    (boot_restartable _) rfl (show Legal 1 false [] [⟨.alloc, 0, 16⟩] by decide) (by decide) rfl
    (by decide) (by decide) 0 d' h
  show 8 + maxHeap ≤ 30000000
  decide

end Grow

theorem evalMmUtil_spec_roomy : ∃ highWater heapsize d',
    evalMmUtil (freeListMm fun _ => 0) (.boot (fun _ => 0) 8 roomy) =
      .ok ((highWater, heapsize), d') ∧
    IsGreatest {n | ∃ k, n = load (inUse [] (roomy.ops.take k))} highWater ∧
    highWater ≤ heapsize ∧ Frame (.boot (fun _ => 0) 8 roomy) d' ∧ Restartable 8 d'.heap :=
  evalMmUtil_spec (d := .boot (fun _ => 0) 8 roomy) (freeListMm_meets (fun _ => 0) 8)
    (boot_restartable _) (show Legal 3 false [] roomy.ops by decide) ⟨_, rfl⟩

/-- A trace that passes, and one with a request that no heap has room for. -/
theorem mainLoop_spec_two : ∃ stats d',
    mainLoop (freeListMm fun _ => 0) 0 [roomy, .read 1 [⟨.alloc, 0, 30000000⟩], roomy]
      (.boot (fun _ => 0) 8 roomy) = .ok (stats, d') ∧
    List.Forall₂ (Scored (layoutMm 8)) [roomy, .read 1 [⟨.alloc, 0, 30000000⟩], roomy] stats ∧
    d'.errors = 0 + (stats.filter fun s => !s.valid).length := by
  refine mainLoop_spec (d := .boot (fun _ => 0) 8 roomy) (freeListMm_meets (fun _ => 0) 8)
    (boot_restartable _) ?_ ?_ 0
  · simp only [List.forall_mem_cons]
    exact ⟨by decide, by decide, by decide, fun t ht => absurd ht List.not_mem_nil⟩
  · simp only [List.forall_mem_cons]
    exact ⟨⟨_, rfl⟩, ⟨_, rfl⟩, ⟨_, rfl⟩, fun t ht => absurd ht List.not_mem_nil⟩

end OsBasics.Malloc
