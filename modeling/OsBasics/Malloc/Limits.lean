/-
  Where the allocator falls short, and exactly when it does not.

  `malloc_capacity_iff`: sizes above `maxRequest` wrap to the least block size, so
  the answer has room for the request unless there is no answer. `realloc_grow_iff`:
  growing takes memory from libc, so the answer is a block of this allocator only
  when libc refuses. `realloc_shrink`: `mm_realloc` finds the tail it cuts off
  through the first word of the payload, and is right when that word is its address.
-/
import OsBasics.Malloc.Realloc

namespace OsBasics.Malloc

open OsBasics.Lib

/-! ## Requests that wrap -/

namespace Rep

variable {h : Nat} {m₀ : Mem} {s : Heap} {A : Layout} {b : Block}

/-- `mm_malloc` answers when a free block is large enough or the heap can grow. -/
theorem malloc_answers (hR : Rep h m₀ s A) (hseal : Sealed h m₀) {size : Nat} (hpos : 0 < size)
    (hsize : size < addrSpace) :
    (∃ p s', mmMalloc s size = .ok (p, s') ∧ p ≠ 0) ↔
      (∃ b ∈ A.blocks, b.alloc = false ∧ newsize size ≤ b.size) ∨
        Layout.Grows s.memBrk (h + maxHeap) size := by
  have hspace := hR.core.arena.space
  have hlo := hR.growAt_lo
  have hfit : (∃ b ∈ A.blocks, b.alloc = false ∧ newsize size ≤ b.size) ↔
      A.fit (newsize size) ≠ none := by
    rw [ne_eq, hR.valid.fit_eq_none]
    push Not
    rfl
  rw [hfit]
  by_cases hw : A.MallocWraps s.memBrk size
  · rw [hR.mmMalloc_wraps hpos hsize hw]
    obtain ⟨hnone, -, hsp⟩ := hw
    constructor
    · rintro ⟨p, s', hcode, -⟩
      cases hcode
    · rintro (hsome | hg)
      · exact absurd hnone hsome
      · have := hg.2
        omega
  · obtain ⟨s', hcode, -⟩ := hR.mmMalloc_refines hpos hsize (fun _ => hseal) hw
    have hptr : (A.malloc s.memBrk (h + maxHeap) size).1 ≠ 0 ↔
        A.fit (newsize size) ≠ none ∨ Layout.Grows s.memBrk (h + maxHeap) size := by
      unfold Layout.malloc
      cases hf : A.fit (newsize size) with
      | some p =>
        obtain ⟨d, hd, rfl, -⟩ := hR.valid.fit_some hf
        have := (hR.core.inHeap d hd).lo
        simp only [ne_eq, reduceCtorEq, not_false_eq_true, true_or, iff_true]
        omega
      | none =>
        by_cases hg : Layout.Grows s.memBrk (h + maxHeap) size
        · have hne : growAt A.blocks s.memBrk ≠ 0 := by omega
          simp [hg, Layout.extend_ptr, hne]
        · simp [hg]
    rw [← hptr, hcode]
    constructor
    · rintro ⟨p, s'', he, hp⟩
      rw [Except.ok.injEq, Prod.mk.injEq] at he
      rw [he.1]
      exact hp
    · intro hp
      exact ⟨_, s', rfl, hp⟩

end Rep

/-- The answer of `mm_malloc` has room for the request exactly when the request is at most
    `maxRequest`, or there is no answer: no block is free and the heap cannot grow. -/
theorem malloc_capacity_iff {m : Mem} {h : Nat} {s : Heap} {size : Nat} (hs : Start m h)
    (hc : Called m h s) (hpos : 1 ≤ size) (hsize : size < addrSpace) :
    (∀ p s', mmMalloc s size = .ok (p, s') → p ≠ 0 → size ≤ getSize s'.mem (hdrp p) - 8) ↔
      size ≤ maxRequest ∨ freeWalk s = [] ∧ s.memMaxAddr < s.memBrk + 4096 := by
  obtain ⟨A, m₀, hR, hgap⟩ := hc.rep hs
  have hseal := Rep.sealed_of_size hgap
  have hans := hR.malloc_answers hseal hpos hsize
  have hex := extendsize_eq size
  rw [hR.core.arena.hi]
  constructor
  · intro hroom
    by_contra hbad
    push Not at hbad
    obtain ⟨hbig, hfree⟩ := hbad
    have hn := newsize_wraps hbig hsize
    unfold minBlocksize at hn
    have hyes : ∃ p s', mmMalloc s size = .ok (p, s') ∧ p ≠ 0 := by
      rw [hans]
      by_cases hnil : freeWalk s = []
      · have := hfree hnil
        exact .inr ⟨by omega, by omega⟩
      · obtain ⟨x, rest, hx⟩ := List.exists_cons_of_ne_nil hnil
        rw [hR.freeWalk_eq] at hx
        obtain ⟨b, hb, hba, -⟩ := hR.valid.mem_free.1 (show x ∈ A.free by simp [hx])
        have := (hR.core.inHeap b hb).min
        exact .inl ⟨b, hb, hba, by omega⟩
    obtain ⟨p, s', hcode, hp⟩ := hyes
    obtain ⟨n, hn', -, hsz, -⟩ := hR.malloc_granted hseal hpos hsize hcode hp
    have := hroom p s' hcode hp
    unfold maxRequest at hbig
    omega
  · rintro (hle | ⟨hnil, hfull⟩) p s' hcode hp
    · obtain ⟨n, hn', -, hsz, -⟩ := hR.malloc_granted hseal hpos hsize hcode hp
      have := newsize_room hle
      omega
    · by_cases hle : size ≤ maxRequest
      · obtain ⟨n, hn', -, hsz, -⟩ := hR.malloc_granted hseal hpos hsize hcode hp
        have := newsize_room hle
        omega
      · have hn := newsize_wraps (by omega) hsize
        unfold minBlocksize at hn
        obtain ⟨b, hb, hba, -⟩ | hg := hans.1 ⟨p, s', hcode, hp⟩
        · have hx := hR.valid.mem_free.2 ⟨b, hb, hba, rfl⟩
          rw [← hR.freeWalk_eq, hnil] at hx
          cases hx
        · have := hg.2
          omega

/-- A heap of zeroes at 8 that answers a first request. -/
theorem first_answer {α : Type} (f : Heap → α) (size : Nat) {p : Nat} {v : α}
    (hrun : ((mmInit (memInit (fun _ => 0) 8)).toOption.bind fun out =>
      (mmMalloc out.2 size).toOption.map fun out => (out.1, f out.2)) = some (p, v)) :
    ∃ s₀ s', mmInit (memInit (fun _ => 0) 8) = .ok (0, s₀) ∧ mmMalloc s₀ size = .ok (p, s') ∧
      f s' = v := by
  obtain ⟨s₀, hinit, -⟩ := Start.sim (m := fun _ => 0) (h := 8)
    ⟨by decide, by decide, by decide, by decide⟩
  rw [hinit] at hrun
  cases hcode : mmMalloc s₀ size with
  | error f => simp [Except.toOption, hcode] at hrun
  | ok out =>
    obtain ⟨q, s'⟩ := out
    have : q = p ∧ f s' = v := by simpa [Except.toOption, hcode] using hrun
    obtain ⟨rfl, hv⟩ := this
    exact ⟨s₀, s', hinit, hcode, hv⟩

/-- A request for `2^32 - 1` bytes is answered with a block of 32. -/
theorem malloc_capacity_small : ¬ ∀ s size, Called (fun _ => 0) 8 s → 1 ≤ size → size < addrSpace →
    ∀ p s', mmMalloc s size = .ok (p, s') → p ≠ 0 → size ≤ getSize s'.mem (hdrp p) - 8 := by
  intro hall
  obtain ⟨s₀, s', hinit, hcode, hn⟩ :=
    first_answer (fun s => getSize s.mem (hdrp 56)) 4294967295 (p := 56) (v := 32)
      (by decide +kernel)
  have := hall s₀ 4294967295 (.init hinit) (by decide) (by decide) 56 s' hcode (by decide)
  rw [hn] at this
  exact absurd this (by decide)

/-- A request for 5 bytes is not too large. -/
theorem malloc_capacity_five : ∃ s₀, Called (fun _ => 0) 8 s₀ ∧
    ∀ p s', mmMalloc s₀ 5 = .ok (p, s') → p ≠ 0 → 5 ≤ getSize s'.mem (hdrp p) - 8 := by
  obtain ⟨s₀, hinit, -⟩ := Start.sim (m := fun _ => 0) (h := 8)
    ⟨by decide, by decide, by decide, by decide⟩
  exact ⟨s₀, .init hinit, (malloc_capacity_iff ⟨by decide, by decide, by decide, by decide⟩
    (.init hinit) (by decide) (by decide)).2 (.inl (by decide))⟩

/-! ## Growing a block -/

/-- `out` is the answer and the state after the block `b` moved to a larger one. -/
structure Moved (h : Nat) (s : Heap) (b : Block) (size : Nat) (out : Nat × Heap) : Prop where
  live : ∃ n, Live h out.2 ⟨out.1, n, true⟩ ∧ size + 8 ≤ n
  inside : memHeapLo out.2 ≤ out.1 ∧ out.1 + size - 1 ≤ memHeapHi out.2
  payload : ∀ i, i < min size (b.size - 8) → out.2.mem (out.1 + i) = s.mem (b.addr + i)
  freed : ¬ Live h out.2 b
  others : ∀ c, Live h s c → c ≠ b → Live h out.2 c ∧
    ∀ i, i < c.size - 8 → out.2.mem (c.addr + i) = s.mem (c.addr + i)
  wellFormed : WellFormed h out.2

/-- What a caller of `mm_realloc` expects of growing `b`: nothing happened, or it moved. -/
def Grown (h : Nat) (s : Heap) (b : Block) (size : Nat) (out : Nat × Heap) : Prop :=
  out = (0, s) ∨ Moved h s b size out

/-- Memory from libc is not a block of the heap. -/
theorem not_grown {h : Nat} {m₀ : Mem} {s : Heap} {A : Layout} {b : Block} {size : Nat}
    {malloc : Nat → Nat} (hR : Rep h m₀ s A) (hgap : getSize m₀ (h + 40) = 0) (hb : b ∈ A.used)
    (hpos : 1 ≤ size) (hsize : size < 1073741824) (hgrow : b.size < newsize size)
    (hout : Outside h malloc) (hne : malloc (2 * size) ≠ 0) :
    ¬ Grown h s b size (mmRealloc malloc s b.addr size) := by
  have hlt : size * 2 < addrSpace := by unfold addrSpace; omega
  have hdst := hout _ hne
  rw [hR.realloc_grow (Layout.mem_used.1 hb).1 malloc hgrow, Nat.mod_eq_of_lt hlt,
    Nat.mul_comm size 2, if_neg hne]
  have hdst' : malloc (2 * size) + min size b.size ≤ h ∨ h + maxHeap ≤ malloc (2 * size) := by omega
  obtain ⟨m₁, hR₁, -⟩ := hR.memcpy_free hgap hb hdst'
  have ha := hR₁.core.arena
  have hlo := ha.lo
  have hhi := ha.brkHi
  rintro (he | hm)
  · exact hne (congrArg Prod.fst he)
  · have hin := hm.inside
    unfold memHeapLo memHeapHi at hin
    dsimp only at hin
    omega

/-- Growing a live block does what a caller expects exactly when libc has no memory. -/
theorem realloc_grow_iff {m : Mem} {h : Nat} {s : Heap} {b : Block} {size : Nat}
    {malloc : Nat → Nat} (hs : Start m h) (hc : Called m h s) (hb : Live h s b) (hpos : 1 ≤ size)
    (hsize : size < 1073741824) (hgrow : b.size < blockSize size) (hout : Outside h malloc) :
    Grown h s b size (mmRealloc malloc s b.addr size) ↔ malloc (2 * size) = 0 := by
  obtain ⟨A, m₀, hR, hgap⟩ := hc.rep hs
  have hu := hR.live_iff.1 hb
  rw [← newsize_blockSize (by omega)] at hgrow
  constructor
  · intro hg
    by_contra hne
    exact not_grown hR hgap hu hpos hsize hgrow hout hne hg
  · intro h0
    have hlt : size * 2 < addrSpace := by unfold addrSpace; omega
    rw [hR.realloc_grow (Layout.mem_used.1 hu).1 malloc hgrow, Nat.mod_eq_of_lt hlt,
      Nat.mul_comm size 2, if_pos h0]
    exact .inl rfl

/-- The first block of a heap of zeroes at 8. -/
theorem first_block {α : Type} (f : Heap → α) (size : Nat) {n : Nat} {v : α} (hpos : 0 < size)
    (hsize : size < addrSpace)
    (hrun : ((mmInit (memInit (fun _ => 0) 8)).toOption.bind fun out =>
      (mmMalloc out.2 size).toOption.map fun out =>
        (out.1, getSize out.2.mem (hdrp 56), f out.2)) = some (56, n, v)) :
    ∃ s, Called (fun _ => 0) 8 s ∧ Live 8 s ⟨56, n, true⟩ ∧ f s = v := by
  obtain ⟨s₀, s', hinit, hcode, hv⟩ := first_answer (fun s => (getSize s.mem (hdrp 56), f s)) size hrun
  have hs : Start (fun _ => 0) 8 := ⟨by decide, by decide, by decide, by decide⟩
  obtain ⟨A₀, m₀, hR₀, hgap⟩ := Called.rep hs (.init hinit)
  obtain ⟨k, -, hmem, hsz, -⟩ := hR₀.malloc_granted (Rep.sealed_of_size hgap) hpos hsize hcode (by decide)
  rw [Prod.mk.injEq] at hv
  obtain rfl : k = n := hsz.symm.trans hv.1
  exact ⟨s', .malloc (.init hinit) hsize hcode, ⟨hmem, rfl⟩, hv.2⟩

/-- The block moved to libc's memory at `2^25` is no block of the heap. -/
theorem realloc_grow_libc : ¬ ∀ s b size malloc, Called (fun _ => 0) 8 s → Live 8 s b → 1 ≤ size →
    size < 1073741824 → b.size < blockSize size → Outside 8 malloc →
      Grown 8 s b size (mmRealloc malloc s b.addr size) := by
  intro hall
  obtain ⟨s, hc, hb, -⟩ :=
    first_block (fun _ => ()) 5 (n := 32) (v := ()) (by decide) (by decide)
      (by decide +kernel)
  have hs : Start (fun _ => 0) 8 := ⟨by decide, by decide, by decide, by decide⟩
  obtain ⟨A, m₀, hR, hgap⟩ := hc.rep hs
  have hout : Outside 8 fun _ => 33554432 := fun _ _ =>
    .inr (show 8 + maxHeap ≤ 33554432 by decide)
  exact not_grown hR hgap (hR.live_iff.1 hb) (by decide) (by decide) (by decide +kernel) hout
    (by decide) (hall s _ 100 _ hc hb (by decide) (by decide) (by decide) hout)

theorem realloc_grow_refused : ∃ s, Called (fun _ => 0) 8 s ∧ Live 8 s ⟨56, 32, true⟩ ∧
    Grown 8 s ⟨56, 32, true⟩ 100 (mmRealloc (fun _ => 0) s 56 100) := by
  obtain ⟨s, hc, hb, -⟩ :=
    first_block (fun _ => ()) 5 (n := 32) (v := ()) (by decide) (by decide)
      (by decide +kernel)
  have hout : Outside 8 fun _ => 0 := fun n hn => absurd rfl hn
  exact ⟨s, hc, hb, (realloc_grow_iff ⟨by decide, by decide, by decide, by decide⟩ hc hb
    (by decide) (by decide) (by decide) hout).2 rfl⟩

/-! ## Shrinking a block in place -/

/-- `out` is the answer and the state after the block `b` was cut down to `n` bytes for a
    request of `size`. -/
structure Shrunk (h : Nat) (s : Heap) (b : Block) (n size : Nat) (out : Nat × Heap) : Prop where
  ptr : out.1 = b.addr
  /-- The tail is a free block, merged with a free block behind it; all else stands. -/
  blocks : ∃ l r, heapBlocks h s = l ++ b :: r ∧ heapBlocks h out.2 =
    l ++ ⟨b.addr, n, true⟩ :: push ⟨b.addr + n, b.size - n, false⟩ r
  payload : ∀ i, i < size → out.2.mem (b.addr + i) = s.mem (b.addr + i)
  listed : b.addr + n ∈ freeWalk out.2
  others : ∀ c, Live h s c → c ≠ b → Live h out.2 c ∧
    ∀ i, i < c.size - 8 → out.2.mem (c.addr + i) = s.mem (c.addr + i)
  wellFormed : WellFormed h out.2

/-- After calls that shrink blocks only where the first word of the payload is the address
    of the tail, shrinking another such block is right. -/
theorem realloc_shrink {m : Mem} {h : Nat} {s : Heap} {b : Block} {size : Nat}
    (malloc : Nat → Nat) (hs : Start m h) (hc : Called m h s) (hb : Live h s b)
    (hcut : blockSize size + 24 < b.size)
    (htail : nextBlkp s.mem b.addr = b.addr + blockSize size) :
    Shrunk h s b (blockSize size) size (mmRealloc malloc s b.addr size) := by
  obtain ⟨A, m₀, hR, hgap⟩ := hc.rep hs
  have hu := hR.live_iff.1 hb
  obtain ⟨hbm, hba⟩ := Layout.mem_used.1 hu
  have hin := hR.core.inHeap b hbm
  have hhi := hin.hi
  have hbrk := hR.core.arena.brkHi
  have hlo := hin.lo
  have hsize : size + 8 ≤ blockSize size := by unfold blockSize; omega
  have hmax : maxHeap = 20971520 := rfl
  have hsize31 : size < 2147483648 := by omega
  have hsize32 : size < addrSpace := by unfold addrSpace; omega
  have hn := newsize_blockSize hsize31
  have hb24 := newsize_bounds hsize32
  obtain ⟨l, r, hbs⟩ := List.append_of_mem hbm
  obtain ⟨s', hcode, hR', -, hkept, hothers⟩ := hR.realloc_shrinks hbs hba malloc
    hsize32 (by rw [hn]; exact hcut) (by rw [hn]; exact htail)
  rw [hn] at hR' hkept hb24
  have hblocks := hR.valid.shrink_blocks (n := blockSize size) hbs
  have hlive : ∀ c, Live h s c → c ≠ b → Live h s' c := by
    intro c hcl hcb
    obtain ⟨hcm, hca⟩ := Layout.mem_used.1 (hR.live_iff.1 hcl)
    rw [hR'.live_iff, Layout.mem_used, hblocks]
    rw [hbs] at hcm
    refine ⟨?_, hca⟩
    rcases List.mem_append.1 hcm with hcm | hcm
    · exact List.mem_append_left _ hcm
    · have hcr := (List.mem_cons.1 hcm).resolve_left hcb
      have hmem : c ∈ (push ⟨b.addr + blockSize size, b.size - blockSize size, false⟩ r).filter
          (·.alloc) := by
        rw [Layout.filter_push]
        exact List.mem_filter.2 ⟨List.mem_cons_of_mem _ hcr, hca⟩
      exact List.mem_append_right _ (List.mem_cons_of_mem _ (List.mem_filter.1 hmem).1)
  rw [hcode]
  refine ⟨rfl, ⟨l, r, ?_, ?_⟩, fun i hi => ?_, ?_, fun c hcl hcb => ⟨hlive c hcl hcb, fun i hi => ?_⟩,
    hR'.wellFormed⟩
  · rw [hR.heapBlocks_eq, hbs]
  · rw [hR'.heapBlocks_eq, hblocks]
  · exact hkept _ (by omega) (by omega)
  · rw [hR'.freeWalk_eq, hR'.valid.mem_free, hblocks]
    obtain ⟨t, ts, hpush, hta, htf⟩ :=
      push_head (b := ⟨b.addr + blockSize size, b.size - blockSize size, false⟩) r rfl
    exact ⟨t, by simp [hpush], htf, hta⟩
  · have hcu := hR.live_iff.1 hcl
    exact hothers c hcu hcb _ (by omega) (by omega)

/-- The payload starts with an address inside it, as when the client keeps a pointer there:
    no block starts where the tail was cut off. -/
theorem realloc_shrink_stray : ¬ ∀ s b size malloc, Called (fun _ => 0) 8 s → Live 8 s b →
    1 ≤ size → blockSize size + 24 < b.size →
      Shrunk 8 s b (blockSize size) size (mmRealloc malloc s b.addr size) := by
  intro hall
  obtain ⟨s, hc, hb, hblocks⟩ := first_block (fun s => heapBlocks 8
    (mmRealloc (fun _ => 0) { s with mem := putByte s.mem 56 88 } 56 5).2)
    64 (n := 72) (v := [⟨56, 24, true⟩]) (by decide) (by decide) (by decide +kernel)
  have hs : Start (fun _ => 0) 8 := ⟨by decide, by decide, by decide, by decide⟩
  have hw : Called (fun _ => 0) 8 { s with mem := putByte s.mem 56 88 } :=
    hc.write 88 hb (by decide) (by decide)
  obtain ⟨A, m₀, hR, -⟩ := hc.rep hs
  have hR' := hR.write (hR.live_iff.1 hb) (p := 56) (by decide) (by decide) 88
  have hb' := hR'.live_iff.2 (hR.live_iff.1 hb)
  obtain ⟨l, r, -, hcut⟩ :=
    (hall _ ⟨56, 72, true⟩ 5 (fun _ => 0) hw hb' (by decide) (by decide)).blocks
  obtain ⟨t, ts, hpush, -⟩ := push_head (b := ⟨80, 48, false⟩) r rfl
  rw [hblocks, show (⟨56 + blockSize 5, 72 - blockSize 5, false⟩ : Block) = ⟨80, 48, false⟩ from rfl,
    hpush] at hcut
  have hlen := congrArg List.length hcut
  simp only [List.length_append, List.length_cons, List.length_nil] at hlen
  omega

/-- The payload starts with the address of the tail. -/
theorem realloc_shrink_known : ∃ s, Called (fun _ => 0) 8 s ∧
    Shrunk 8 s ⟨56, 72, true⟩ 24 5 (mmRealloc (fun _ => 0) s 56 5) := by
  obtain ⟨s, hc, hb, htail⟩ := first_block (fun s => nextBlkp (putByte s.mem 56 80) 56)
    64 (n := 72) (v := 80) (by decide) (by decide) (by decide +kernel)
  have hs : Start (fun _ => 0) 8 := ⟨by decide, by decide, by decide, by decide⟩
  obtain ⟨A, m₀, hR, -⟩ := hc.rep hs
  have hR' := hR.write (hR.live_iff.1 hb) (p := 56) (by decide) (by decide) 80
  have hcut : blockSize 5 + 24 < 72 := by decide
  exact ⟨_, hc.write 80 hb (by decide) (by decide), realloc_shrink _ hs
    (hc.write 80 hb (by decide) (by decide)) (hR'.live_iff.2 (hR.live_iff.1 hb)) hcut htail⟩

end OsBasics.Malloc
