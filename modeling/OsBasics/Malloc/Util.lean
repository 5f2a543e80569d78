/-
  The high water mark of `eval_mm_util`, and the replays of a trace that passed.

  `inUse` are the blocks in use after a trace, with the sizes asked for, and `load` is
  what they hold together. `total_size` is the load, and `max_total_size` the greatest
  load there has been (`utilLoop_spec`). The payloads lie apart in a heap that only grows, so the
  utilisation is at most 1.
-/
import Mathlib.Algebra.Order.Ring.Int
import OsBasics.Malloc.Verdict

namespace OsBasics.Malloc

open OsBasics.Lib

/-! ## What is in use -/

/-- The blocks in use, the youngest first, after one more operation: their indices and sizes. -/
def useOp (bs : List (Int × Int)) (op : TraceOp) : List (Int × Int) :=
  match op.type with
  | .alloc => (op.index, op.size) :: bs
  | .realloc => (op.index, op.size) :: bs.eraseP fun b => b.1 = op.index
  | .free => bs.eraseP fun b => b.1 = op.index

/-- The blocks in use after a trace. -/
def inUse (bs : List (Int × Int)) (ops : List TraceOp) : List (Int × Int) := ops.foldl useOp bs

/-- The bytes they hold. -/
def load (bs : List (Int × Int)) : Int := (bs.map Prod.snd).sum

theorem load_cons (b : Int × Int) (bs : List (Int × Int)) : load (b :: bs) = b.2 + load bs := by
  unfold load
  rw [List.map_cons, List.sum_cons]

/-- The block that an index names leaves. -/
theorem load_eraseP {bs : List (Int × Int)} {i n : Int}
    (h : bs.find? (fun b => b.1 = i) = some (i, n)) :
    load (bs.eraseP fun b => b.1 = i) = load bs - n := by
  induction bs with
  | nil => cases h
  | cons b bs ih =>
    by_cases hb : b.1 = i
    · rw [List.find?_cons_of_pos (by simpa using hb), Option.some.injEq] at h
      rw [List.eraseP_cons_of_pos (by simpa using hb), load_cons, h]
      omega
    · rw [List.find?_cons_of_neg (by simpa using hb)] at h
      rw [List.eraseP_cons_of_neg (by simpa using hb), load_cons, load_cons, ih h]
      omega

/-- The other indices name the same blocks. -/
theorem find?_eraseP_ne {bs : List (Int × Int)} {i j : Int} (h : j ≠ i) :
    (bs.eraseP fun b => b.1 = i).find? (fun b => b.1 = j) = bs.find? fun b => b.1 = j := by
  induction bs with
  | nil => rfl
  | cons b bs ih =>
    by_cases hb : b.1 = i
    · rw [List.eraseP_cons_of_pos (by simpa using hb),
        List.find?_cons_of_neg (by simpa [hb] using h.symm)]
    · rw [List.eraseP_cons_of_neg (by simpa using hb)]
      by_cases hj : b.1 = j
      · rw [List.find?_cons_of_pos (by simpa using hj), List.find?_cons_of_pos (by simpa using hj)]
      · rw [List.find?_cons_of_neg (by simpa using hj), List.find?_cons_of_neg (by simpa using hj),
          ih]

variable {σ : Type} {mm : Mm} {A : AbsMm σ} {reallocs : Bool} {Ready : Heap → Prop}
  {Rel : σ → List Range → Heap → Prop} {x x' : Replay σ} {rs : List Range} {d : Driver}
  {bs : List (Int × Int)} {op : TraceOp} {ops : List TraceOp} {live : List Int} {index size : Int}

/-- The youngest block of an index is the one the driver holds. -/
def Named (x : Replay σ) (bs : List (Int × Int)) : Prop :=
  ∀ i r, x.held i = some r → bs.find? (fun b => b.1 = i) = some (i, (r.size : Int))

theorem Named.step (h : Named x bs) {numIds : Int} (hl : Legal numIds reallocs live (op :: ops))
    (hop : x.op A op = .ok (some x')) : Named x' (useOp bs op) := by
  obtain ⟨type, index, size⟩ := op
  intro i r hr
  have hne : i ≠ index → (useOp bs ⟨type, index, size⟩).find? (fun b => b.1 = i) =
      bs.find? fun b => b.1 = i := by
    intro hi
    cases type with
    | alloc => exact List.find?_cons_of_neg (by simpa using hi.symm)
    | realloc =>
      exact (List.find?_cons_of_neg (by simpa using hi.symm)).trans (find?_eraseP_ne hi)
    | free => exact find?_eraseP_ne hi
  obtain ⟨htype, p, hheld⟩ | ⟨-, hheld⟩ := Replay.held_cases hop
  · rw [hheld] at hr
    by_cases hi : i = index
    · rw [hi, Function.update_self, Option.some.injEq] at hr
      obtain ⟨hcast, hn, -⟩ := toSizeT_eq (hl.size htype)
      dsimp only at hr hcast hn
      rw [← hr, payload_size hn, hcast, hi]
      cases type with
      | alloc => exact List.find?_cons_of_pos (by simp)
      | realloc => exact List.find?_cons_of_pos (by simp)
      | free => exact absurd rfl htype
    · rw [Function.update_of_ne hi] at hr
      rw [hne hi]
      exact h i r hr
  · rw [hheld] at hr
    obtain ⟨hi, hr⟩ := Tracks.held_of_drop hr
    rw [hne hi]
    exact h i r hr

/-- The payloads have the sizes of the blocks in use. -/
def Weighed (rs : List Range) (bs : List (Int × Int)) : Prop :=
  ((rs.map Extent.size).sum : Int) = load bs

/-! ## A request that is answered -/

namespace Tracks

theorem alloc_served (hT : Tracks Rel x rs d) (hC : Meets mm A reallocs Ready Rel)
    (hsize : 0 < size ∧ size < 2147483648) (hop : x.op A ⟨.alloc, index, size⟩ = .ok (some x')) :
    ∃ p a s, p ≠ 0 ∧ mm.mmMalloc d.heap (toSizeT size) = .ok (p, s) ∧ Grows d.heap s ∧
      Rel a (payload p (toSizeT size) :: rs) s ∧
      x' = ⟨a, Function.update x.held index (some (payload p (toSizeT size)))⟩ := by
  obtain ⟨-, hn, hn'⟩ := toSizeT_eq hsize
  have heq : x.op A ⟨.alloc, index, size⟩ =
      (A.malloc x.heap (toSizeT size)).map (x.answer index (toSizeT size)) := rfl
  rw [heq] at hop
  obtain ⟨f, hA, -⟩ | ⟨p, a, s, hA, hcode, hg, -, hrel⟩ := hC.malloc _ _ _ _ hT.rel hn hn'
  · rw [hA] at hop
    cases hop
  · rw [hA] at hop
    have hans := Except.ok.inj hop
    unfold Replay.answer at hans
    split at hans
    · cases hans
    · next hp =>
      rw [if_neg hp] at hrel
      exact ⟨p, a, s, hp, hcode, hg, hrel, (Option.some.inj hans).symm⟩

theorem realloc_served (hT : Tracks Rel x rs d) (hC : Meets mm A true Ready Rel)
    (hsize : 0 < size ∧ size < 2147483648) {r : Range} (hr : x.held index = some r)
    (hop : x.op A ⟨.realloc, index, size⟩ = .ok (some x')) :
    ∃ p a s, p ≠ 0 ∧ mm.mmRealloc d.heap r.lo (toSizeT size) = .ok (p, s) ∧ Grows d.heap s ∧
      Rel a (payload p (toSizeT size) :: rs.erase r) s ∧
      x' = ⟨a, Function.update x.held index (some (payload p (toSizeT size)))⟩ := by
  obtain ⟨-, hn, hn'⟩ := toSizeT_eq hsize
  have heq : x.op A ⟨.realloc, index, size⟩ = (A.realloc x.heap r.lo (toSizeT size)).map
      (x.answer index (toSizeT size)) := by
    unfold Replay.op
    dsimp only
    rw [hr]
  rw [heq] at hop
  obtain ⟨f, hA, -⟩ | ⟨p, a, s, hA, hcode, hg, -, hrel, -⟩ :=
    hC.realloc rfl _ _ _ _ _ hT.rel (hT.held index r hr).2.1 hn hn'
  · rw [hA] at hop
    cases hop
  · rw [hA] at hop
    have hans := Except.ok.inj hop
    unfold Replay.answer at hans
    split at hans
    · cases hans
    · next hp =>
      rw [if_neg hp] at hrel
      exact ⟨p, a, s, hp, hcode, hg, hrel, (Option.some.inj hans).symm⟩

theorem free_served (hT : Tracks Rel x rs d) (hC : Meets mm A reallocs Ready Rel) {r : Range}
    (hr : x.held index = some r) (hop : x.op A ⟨.free, index, size⟩ = .ok (some x')) :
    ∃ s, mm.mmFree d.heap r.lo = .ok s ∧ Grows d.heap s ∧
      Rel (A.free x.heap r.lo) (rs.erase r) s ∧
      x' = ⟨A.free x.heap r.lo, Function.update x.held index none⟩ := by
  obtain ⟨s, hcode, hg, -, hrel⟩ := hC.free _ _ _ _ hT.rel (hT.held index r hr).2.1
  refine ⟨s, hcode, hg, hrel, ?_⟩
  unfold Replay.op at hop
  dsimp only at hop
  rw [hr] at hop
  exact (Option.some.inj (Except.ok.inj hop)).symm

end Tracks

/-! ## eval_mm_util -/

namespace Weighed

theorem alloc (hW : Weighed rs bs) (index : Int) (p : Nat) (hsize : 0 < size ∧ size < 2147483648) :
    Weighed (payload p (toSizeT size) :: rs) ((index, size) :: bs) := by
  obtain ⟨hcast, hn, -⟩ := toSizeT_eq hsize
  unfold Weighed at hW ⊢
  rw [List.map_cons, List.sum_cons, load_cons, payload_size hn, Int.natCast_add, hW, hcast]

theorem free (hW : Weighed rs bs) (hN : Named x bs) {r : Range} (hr : x.held index = some r)
    (hmem : r ∈ rs) : Weighed (rs.erase r) (bs.eraseP fun b => b.1 = index) := by
  have hsum := List.sum_map_erase Extent.size hmem
  unfold Weighed at hW ⊢
  rw [load_eraseP (hN index r hr), ← hW]
  omega

/-- The blocks fit into the heap. -/
theorem load_le (hW : Weighed rs bs) {s : Heap} (hG : Granted rs s) : load bs ≤ memHeapsize s := by
  have hb := hG.bounded.base
  have hle := Extent.sum_size_le hG.apart fun r hr => ⟨(hG.inside r hr).1, (hG.inside r hr).2.2⟩
  rw [← hW]
  unfold memHeapsize subU
  rw [if_pos hb]
  exact_mod_cast hle

end Weighed

theorem Grows.heapsize_le {s s' : Heap} (hb : Bounded s) (hg : Grows s s') :
    memHeapsize s ≤ memHeapsize s' := by
  have hbase := hb.base
  have hbrk := hg.brk
  unfold memHeapsize subU
  rw [hg.base, if_pos hbase, if_pos (by omega)]
  omega

/-- What the totals are: the load, and a bound of what it has been, which fits into the heap. -/
structure Counts (t : Totals) (bs : List (Int × Int)) (s : Heap) : Prop where
  total : t.totalSize = load bs
  below : t.totalSize ≤ t.maxTotalSize
  fits : t.maxTotalSize ≤ memHeapsize s

/-- A request. -/
theorem Counts.grow {t : Totals} {s s' : Heap} {bs' : List (Int × Int)} {n : Int} (ht : Counts t bs s)
    (hload : load bs' = load bs + n) (hle : load bs' ≤ memHeapsize s')
    (hheap : memHeapsize s ≤ memHeapsize s') : Counts (t.grow n) bs' s' ∧
      (t.grow n).maxTotalSize = max t.maxTotalSize (load bs') := by
  have htotal := ht.total
  have hfits := ht.fits
  have hmax : (t.grow n).maxTotalSize = max t.maxTotalSize (load bs') := by
    unfold Totals.grow
    dsimp only
    rw [htotal, ← hload]
    split <;> omega
  have hnew : (t.grow n).totalSize = load bs' := by
    unfold Totals.grow
    dsimp only
    omega
  exact ⟨⟨hnew, by omega, by omega⟩, hmax⟩

/-- A free. -/
theorem Counts.shrink {t : Totals} {s s' : Heap} {bs' : List (Int × Int)} {n : Int}
    (ht : Counts t bs s) (hn : 0 ≤ n) (hload : load bs' = load bs - n)
    (hheap : memHeapsize s ≤ memHeapsize s') :
    Counts { t with totalSize := t.totalSize - n } bs' s' ∧
      t.maxTotalSize = max t.maxTotalSize (load bs') := by
  have htotal := ht.total
  have hbelow := ht.below
  have hfits := ht.fits
  have hnew : t.totalSize - n = load bs' := by omega
  exact ⟨⟨hnew, (Int.sub_le_self _ hn).trans hbelow, by dsimp only; omega⟩, by omega⟩

/-- A round of the loop. -/
theorem utilOp_spec {t : Totals} (hC : Meets mm A reallocs Ready Rel) (hM : Measured Rel x rs d)
    (hN : Named x bs)
    (hW : Weighed rs bs) (ht : Counts t bs d.heap) (hlive : ∀ j ∈ live, ∃ r, x.held j = some r)
    (hl : Legal d.trace.numIds reallocs live (op :: ops)) (hop : x.op A op = .ok (some x')) :
    ∃ rs' t' d', utilOp mm op t d = .ok (t', d') ∧ Frame d d' ∧ Measured Rel x' rs' d' ∧
      Weighed rs' (useOp bs op) ∧ Counts t' (useOp bs op) d'.heap ∧
      t'.maxTotalSize = max t.maxTotalSize (load (useOp bs op)) := by
  obtain ⟨type, index, size⟩ := op
  obtain ⟨hidx, hl⟩ := hl
  have hb := (hC.live _ _ _ hM.rel).bounded
  cases type with
  | alloc =>
    obtain ⟨p, a, s, hp, hcode, hg, hrel, rfl⟩ := hM.toTracks.alloc_served hC hl.1 hop
    have hW' := hW.alloc index p hl.1
    obtain ⟨hcounts, hmax⟩ := ht.grow (n := size) (by rw [load_cons, Int.add_comm])
      (hW'.load_le (hC.live _ _ _ hrel)) (hg.heapsize_le hb)
    refine ⟨_, t.grow size, { d with heap := s, trace := d.trace.store index p (toSizeT size) },
      ?_, ⟨rfl, rfl, rfl, rfl⟩, hM.store hC hidx (toSizeT_eq hl.1).2.1
        (fun j r _ hr => (hM.held j r hr).2.1) hrel rfl, hW', hcounts, hmax⟩
    unfold utilOp
    dsimp only
    rw [hcode]
    show (if p = 0 then _ else _) = _
    rw [if_neg hp]
    exact Driver.record (d := { d with heap := s }) hidx p size _
  | realloc =>
    obtain ⟨rfl, hmem, hsize, -⟩ := hl
    obtain ⟨r, hr⟩ := hlive index hmem
    have hrmem := (hM.held index r hr).2.1
    obtain ⟨p, a, s, hp, hcode, hg, hrel, rfl⟩ := hM.toTracks.realloc_served hC hsize hr hop
    have hW' := (hW.free hN hr hrmem).alloc index p hsize
    obtain ⟨hcounts, hmax⟩ := ht.grow (n := size - r.size)
      (by rw [load_cons, load_eraseP (hN index r hr)]; dsimp only; omega)
      (hW'.load_le (hC.live _ _ _ hrel)) (hg.heapsize_le hb)
    refine ⟨_, t.grow (size - r.size),
      { d with heap := s, trace := d.trace.store index p (toSizeT size) }, ?_,
      ⟨rfl, rfl, rfl, rfl⟩, hM.store hC hidx (toSizeT_eq hsize).2.1
        (fun j t hj ht => hM.erase_of_ne hr hj ht) hrel rfl, hW', hcounts, hmax⟩
    unfold utilOp
    dsimp only
    rw [(hM.blockSize hC hr).2, hM.block hr]
    show (call (mm.mmRealloc d.heap r.lo (toSizeT size)) >>= _) = _
    rw [hcode]
    show (if p = 0 then _ else _) = _
    rw [if_neg hp]
    exact Driver.record (d := { d with heap := s }) hidx p size _
  | free =>
    obtain ⟨r, hr⟩ := hlive index hl.1
    have hrmem := (hM.held index r hr).2.1
    obtain ⟨s, hcode, hg, hrel, rfl⟩ := hM.toTracks.free_served hC hr hop
    obtain ⟨hcounts, hmax⟩ := ht.shrink (n := r.size) (by omega)
      (load_eraseP (hN index r hr)) (hg.heapsize_le hb)
    refine ⟨_, { t with totalSize := t.totalSize - r.size }, { d with heap := s }, ?_,
      ⟨rfl, rfl, rfl, rfl⟩, hM.drop hr hrel rfl, hW.free hN hr hrmem, hcounts, hmax⟩
    unfold utilOp
    dsimp only
    rw [(hM.blockSize hC hr).2, hM.block hr]
    show (call (mm.mmFree d.heap r.lo) >>= _) = _
    rw [hcode]
    rfl

/-- The loop, from any of its rounds on. -/
theorem utilLoop_spec {t : Totals} (hC : Meets mm A reallocs Ready Rel) (hM : Measured Rel x rs d)
    (hN : Named x bs)
    (hW : Weighed rs bs) (ht : Counts t bs d.heap) (hlive : ∀ j ∈ live, ∃ r, x.held j = some r)
    (hl : Legal d.trace.numIds reallocs live ops) (hserved : Served A ops x) :
    ∃ t' d', utilLoop mm ops t d = .ok (t', d') ∧ Frame d d' ∧ Ready d'.heap ∧
      t'.maxTotalSize ≤ memHeapsize d'.heap ∧ t.maxTotalSize ≤ t'.maxTotalSize ∧
      (∀ k, load (inUse bs (ops.take k)) ≤ t'.maxTotalSize) ∧
      (t'.maxTotalSize = t.maxTotalSize ∨
        ∃ k, t'.maxTotalSize = load (inUse bs (ops.take k))) := by
  induction ops generalizing x rs d bs t live with
  | nil =>
    refine ⟨t, d, rfl, ⟨rfl, rfl, rfl, rfl⟩, hC.ready _ _ _ hM.rel, ht.fits, le_refl _,
      fun k => ?_, .inl rfl⟩
    rw [List.take_nil]
    exact ht.total ▸ ht.below
  | cons op ops ih =>
    obtain ⟨x', hop⟩ := hserved.head
    obtain ⟨rs', t₁, d₁, hcode, hF, hM', hW', ht', hmax⟩ := utilOp_spec hC hM hN hW ht hlive hl hop
    obtain ⟨t', d', hrest, hF', hready, hfits, hle, hall, hone⟩ := ih hM' (hN.step hl hop) hW' ht'
      (Replay.held_op hlive hop) (hF.numIds ▸ hl.rest) ((served_cons hop).1 hserved)
    have hbs := ht.total ▸ ht.below
    refine ⟨t', d', ?_, hF.trans hF', hready, hfits, by omega, fun k => ?_, ?_⟩
    · show (utilOp mm op t d >>= _) = _
      rw [hcode]
      exact hrest
    · cases k with
      | zero =>
        rw [List.take_zero]
        show load bs ≤ _
        omega
      | succ k => exact hall k
    · obtain hone | ⟨k, hone⟩ := hone
      · by_cases hbig : load (useOp bs op) ≤ t.maxTotalSize
        · exact .inl (by omega)
        · exact .inr ⟨1, by rw [List.take_succ_cons, List.take_zero]; show _ = load (useOp bs op); omega⟩
      · exact .inr ⟨k + 1, hone⟩

/-- The result of `eval_mm_util` on a trace that is served: the greatest load of the trace, and a heap
    that has room for it. -/
theorem evalMmUtil_spec (hC : Meets mm A reallocs Ready Rel) (hready : Ready d.heap)
    (hl : Legal d.trace.numIds reallocs [] d.trace.ops)
    (hserved : Served A d.trace.ops (Replay.start A)) :
    ∃ highWater heapsize d', evalMmUtil mm d = .ok ((highWater, heapsize), d') ∧
      IsGreatest {n | ∃ k, n = load (inUse [] (d.trace.ops.take k))} highWater ∧
      highWater ≤ heapsize ∧ Frame d d' ∧ Ready d'.heap := by
  obtain ⟨s, hcode, hrel, htracks⟩ := hC.start hready
  have hM : Measured Rel (Replay.start A) [] { d with heap := s } :=
    ⟨htracks _ rfl, fun i r hr => (nomatch hr)⟩
  have hN : Named (Replay.start A) [] := fun i r hr => (nomatch hr)
  obtain ⟨t', d', hrun, hF, hready', hfits, hle, hall, hone⟩ := utilLoop_spec (t := ⟨0, 0⟩) hC hM hN rfl
    ⟨rfl, le_refl _, Int.natCast_nonneg _⟩ (fun j hj => absurd hj List.not_mem_nil) hl hserved
  refine ⟨t'.maxTotalSize, memHeapsize d'.heap, d', ?_, ⟨?_, ?_⟩, hfits,
    ⟨hF.ops, hF.numIds, hF.errors, hF.stdout⟩, hready'⟩
  · unfold evalMmUtil
    rw [hcode]
    show (utilLoop mm d.trace.ops ⟨0, 0⟩ { d with heap := s } >>= _) = _
    rw [hrun]
    rfl
  · obtain hone | hone := hone
    · exact ⟨0, hone⟩
    · exact hone
  · rintro n ⟨k, rfl⟩
    exact hall k

end OsBasics.Malloc
