/-
  What one call of `mm_malloc` does, and what freeing its answer undoes.

  `malloc_firstFit`: the answer is the first block of the free list that is large
  enough, or the heap grows by one request to `mem_sbrk`, whose refusal leaves the
  state as it was. `malloc_free`: freeing the answer gives back the blocks from
  before, with what the heap grew by as free bytes at its end (`growTail`). Both
  are read off the abstract operations (`Layout.malloc`, `Valid.place_release`).
-/
import OsBasics.Malloc.Safety
import Mathlib.Data.List.Find

namespace OsBasics.Malloc

open OsBasics.Lib

/-! ## The end of the heap -/

/-- The address at which a heap of blocks `bs` grows: its last block when that is free,
    else the break. -/
def growAt (bs : List Block) (brk : Nat) : Nat :=
  match bs.getLast? with
  | some b => if b.alloc then brk else b.addr
  | none => brk

/-- The blocks `bs` with `e` free bytes behind them, joined to a free last block. -/
def growTail (bs : List Block) (brk e : Nat) : List Block :=
  match bs.getLast? with
  | some b => if b.alloc then bs ++ [⟨brk, e, false⟩] else bs.dropLast ++ [⟨b.addr, b.size + e, false⟩]
  | none => [⟨brk, e, false⟩]

namespace Layout

theorem extend_ptr (A : Layout) (brk e : Nat) : (A.extend brk e).1 = growAt A.blocks brk := by
  unfold extend growAt
  rcases left_cases A.blocks with hl | ⟨l, x, hbs, hx⟩
  · simp only [coalesce, absorbLeft_closed hl, absorbRight]
    cases hlast : A.blocks.getLast? with
    | none => rfl
    | some b => exact (if_pos (hl b hlast)).symm
  · simp [hbs, coalesce, absorbLeft_free hx, absorbRight, Block.join, hx]

theorem extend_blocks (A : Layout) (brk e : Nat) :
    (A.extend brk e).2.blocks = growTail A.blocks brk e := by
  unfold extend growTail
  rcases left_cases A.blocks with hl | ⟨l, x, hbs, hx⟩
  · simp only [coalesce, absorbLeft_closed hl, absorbRight]
    cases hlast : A.blocks.getLast? with
    | none => rw [List.getLast?_eq_none_iff.1 hlast]; rfl
    | some b => exact (if_pos (hl b hlast)).symm
  · simp [hbs, coalesce, absorbLeft_free hx, absorbRight, Block.join, hx]

namespace Valid

variable {lo hi : Nat} {A : Layout}

/-- First fit fails when no free block is large enough, and only then. -/
theorem fit_eq_none (hA : Valid lo hi A) {n : Nat} :
    A.fit n = none ↔ ∀ b ∈ A.blocks, b.alloc = false → b.size < n := by
  unfold fit
  rw [List.find?_eq_none]
  constructor
  · intro h b hb hba
    have hx := h b.addr (hA.mem_free.2 ⟨b, hb, hba, rfl⟩)
    by_contra hle
    refine hx (List.any_eq_true.2 ⟨b, hb, ?_⟩)
    simp only [decide_eq_true_eq, true_and]
    omega
  · intro h x hx hany
    obtain ⟨b, hb, hba, rfl⟩ := hA.mem_free.1 hx
    obtain ⟨c, hc, hcb⟩ := List.any_eq_true.1 hany
    simp only [decide_eq_true_eq] at hcb
    obtain rfl := hA.addr_inj hc hb hcb.1
    have := h c hb hba
    omega

/-- Releasing what `place` put into a free block gives back the blocks from before. -/
theorem place_release {b : Block} {asize : Nat} (hA : Valid lo hi A) (hb : b ∈ A.blocks)
    (hba : b.alloc = false) (h24 : minBlocksize ≤ asize) (h8 : asize % 8 = 0)
    (hle : asize ≤ b.size) : ((A.place b.addr asize).release b.addr).blocks = A.blocks := by
  obtain ⟨l, r, h⟩ := List.append_of_mem hb
  have hA' := hA.place_valid h hba h24 h8 hle
  obtain ⟨n, -, -, hu⟩ := hA.mem_used_place h hba hle
  have hnew : (⟨b.addr, n, true⟩ : Block) ∈ (A.place b.addr asize).used := (hu _).2 (.inr rfl)
  have hrel := hA'.release_blocks hnew
  have ht := hA.tiles
  have hs := hA.sized
  rw [h] at ht hs
  obtain ⟨hl, hr⟩ := tiles_split_ne ht hs.pos
  have hmap : ∀ cs : List Block, (∀ c ∈ cs, c.addr ≠ b.addr) →
      cs.map (fun c => if c.addr = b.addr then c.release else c) = cs := by
    intro cs hcs
    rw [List.map_congr_left fun c hc => if_neg (hcs c hc), List.map_id']
  rw [hrel, h]
  dsimp only
  by_cases hrem : minBlocksize ≤ b.size - asize
  · -- the rest of the block merges back
    have hl' : NoAdjFree (l ++ [⟨b.addr, asize, true⟩]) :=
      (hA.noAdj_left h).append (.singleton _) (by simp)
    have hne : b.addr + asize ≠ b.addr := by
      unfold minBlocksize at h24
      omega
    rw [hA.place_split h hrem, coalesce_blocks rfl hl' (hA.noAdj_right h), normalize_map_normalize]
    · rw [List.map_append, List.map_append, List.map_cons, List.map_cons, List.map_nil, hmap l hl,
        hmap r hr]
      dsimp only
      rw [if_pos rfl, if_neg hne, List.append_assoc, List.singleton_append, normalize_append,
        normalize_cons, normalize_cons, ← push_join _ rfl rfl, ← normalize_cons,
        ← normalize_append]
      have hjoin : (Block.release ⟨b.addr, asize, true⟩).join
          ⟨b.addr + asize, b.size - asize, false⟩ = b := by
        unfold Block.release Block.join
        rw [Nat.add_sub_cancel' hle, ← hba]
      rw [hjoin, ← h]
      exact normalize_of_noAdjFree hA.sep
    · intro c hc
      unfold Block.release
      split
      · rw [← hc]
      · rfl
  · rw [hA.place_whole h hrem]
    dsimp only
    rw [List.map_append, List.map_cons, hmap l hl, hmap r hr, if_pos rfl]
    have hb' : Block.release ⟨b.addr, b.size, true⟩ = b := by
      unfold Block.release
      rw [← hba]
    rw [hb', ← h]
    exact normalize_of_noAdjFree hA.sep

/-- Releasing what an allocation granted: the blocks from before, and what the heap
    grew by. -/
theorem malloc_release (hA : Valid lo hi A) (top : Nat) {size : Nat} (hsize : size < addrSpace)
    (hne : (A.malloc hi top size).1 ≠ 0) :
    ((A.malloc hi top size).2.release (A.malloc hi top size).1).blocks =
      if A.mallocBrk hi top size = hi then A.blocks
      else growTail A.blocks hi (A.mallocBrk hi top size - hi) := by
  have hn := newsize_bounds hsize
  have hex := extendsize_eq size
  obtain ⟨hm, -⟩ | ⟨A', b, hA', -, hb, hba, hle, hm, hcase⟩ := hA.malloc_cases top hsize
  · rw [hm] at hne
    exact absurd rfl hne
  · rw [hm, hA'.place_release hb hba hn.1 hn.2.1 hle]
    obtain ⟨rfl, hbrk⟩ | ⟨rfl, hbrk⟩ := hcase
    · rw [if_pos hbrk]
    · rw [if_neg (by omega), hbrk, Nat.add_sub_cancel_left, extend_blocks]

end Valid

end Layout

/-! ## mm_malloc as first fit -/

/-- The block size of a request: the bytes rounded up to 8, and the tags. -/
def blockSize (size : Nat) : Nat := max (8 * ((size + 7) / 8) + 8) 24

/-- The first block of the free list, from `start` on, with at least `n` bytes. -/
def firstFit (s : Heap) (n : Nat) : Option Nat :=
  (freeWalk s).find? fun x => n ≤ getSize s.mem (hdrp x)

theorem newsize_blockSize {size : Nat} (h : size < 2147483648) : newsize size = blockSize size := by
  rw [newsize_eq (by unfold maxRequest; omega)]
  unfold blockSize
  omega

namespace Rep

variable {h : Nat} {m₀ : Mem} {s : Heap} {A : Layout}

theorem firstFit_eq (hR : Rep h m₀ s A) (n : Nat) : firstFit s n = A.fit n := by
  unfold firstFit Layout.fit
  rw [hR.freeWalk_eq]
  refine List.find?_congr fun x hx => ?_
  obtain ⟨b, hb, hba, rfl⟩ := hR.valid.mem_free.1 hx
  rw [getSize_hdrp (hR.fits hb) (hR.core.tagged b hb), Bool.eq_iff_iff, decide_eq_true_eq,
    List.any_eq_true]
  constructor
  · intro hle
    exact ⟨b, hb, by simpa using hle⟩
  · rintro ⟨c, hc, hcb⟩
    simp only [decide_eq_true_eq] at hcb
    obtain rfl := hR.valid.addr_inj hc hb hcb.1
    exact hcb.2

theorem growAt_lo (hR : Rep h m₀ s A) : h + 48 ≤ growAt A.blocks s.memBrk := by
  unfold growAt
  cases hlast : A.blocks.getLast? with
  | none => exact hR.core.arena.brkLo
  | some b =>
    have := (hR.core.inHeap b (List.mem_of_getLast? hlast)).lo
    have := hR.core.arena.brkLo
    dsimp only
    split <;> omega

/-- The answer of `mm_malloc` is a block of its own, at most 16 bytes larger than the
    request needs, and the blocks in use stay as they are. -/
theorem malloc_granted (hR : Rep h m₀ s A) (hseal : Sealed h m₀) {size p : Nat} {s' : Heap}
    (hpos : 0 < size) (hsize : size < addrSpace) (hcode : mmMalloc s size = .ok (p, s')) (hp : p ≠ 0) :
    ∃ n, (n = newsize size ∨ n = newsize size + 8 ∨ n = newsize size + 16) ∧
      ⟨p, n, true⟩ ∈ heapBlocks h s' ∧ getSize s'.mem (hdrp p) = n ∧
      ∀ b ∈ heapBlocks h s, b.alloc = true → b ∈ heapBlocks h s' := by
  have hlo := hR.core.arena.pos
  have hn := newsize_bounds hsize
  have hw : ¬ A.MallocWraps s.memBrk size := by
    intro hw
    rw [hR.mmMalloc_wraps hpos hsize hw] at hcode
    cases hcode
  obtain ⟨s₁, hcode₁, hR', hbrk, -⟩ := hR.mmMalloc_refines hpos hsize (fun _ => hseal) hw
  rw [hcode, Except.ok.injEq, Prod.mk.injEq] at hcode₁
  obtain ⟨hp₁, rfl⟩ := hcode₁
  obtain ⟨-, ⟨h0, -⟩ | ⟨-, -, n, hn1, hn2, hu⟩⟩ :=
    hR.valid.malloc_used (by omega) (h + maxHeap) hsize
  · exact absurd (hp₁.trans h0) hp
  · rw [← hp₁] at hu
    have hnew := Layout.mem_used.1 ((hu ⟨p, n, true⟩).2 (.inr rfl))
    have h8 := (hR'.core.inHeap _ hnew.1).dword
    have hsz := getSize_hdrp (hR'.fits hnew.1) (hR'.core.tagged _ hnew.1)
    unfold minBlocksize at hn2
    dsimp only at h8 hsz
    refine ⟨n, by omega, ?_, hsz, fun b hb hba => ?_⟩
    · rw [hR'.heapBlocks_eq]
      exact hnew.1
    · rw [hR.heapBlocks_eq] at hb
      rw [hR'.heapBlocks_eq]
      exact (Layout.mem_used.1 ((hu b).2 (.inl (Layout.mem_used.2 ⟨hb, hba⟩)))).1

end Rep

/-- `mm_malloc` is first fit. When no free block is large enough it asks `mem_sbrk` once:
    a refusal leaves every byte and variable as it was, and otherwise the block stands
    where the heap grew. -/
theorem malloc_firstFit {m : Mem} {h : Nat} {c : Client} {size : Nat} (hs : Start m h)
    (hc : Reached m h c) (hpos : 1 ≤ size) (hsize : size < 2147483648) :
    (∃ p, findFreeblock c.heap (blockSize size) = .ok p) ∧
    ((∃ b ∈ heapBlocks h c.heap, b.alloc = false ∧ blockSize size ≤ b.size) →
      ∃ p s', firstFit c.heap (blockSize size) = some p ∧ mmMalloc c.heap size = .ok (p, s') ∧
        p ≠ 0 ∧ s'.memBrk = c.heap.memBrk) ∧
    ((∀ b ∈ heapBlocks h c.heap, b.alloc = false → b.size < blockSize size) →
      c.heap.memBrk + max (blockSize size) 4096 < addrSpace →
      (memSbrk c.heap (sizeToInt (max (blockSize size) 4096)) = .ok (minusOne, c.heap) ∧
        mmMalloc c.heap size = .ok (0, c.heap)) ∨
      ∃ s₁ s', memSbrk c.heap (sizeToInt (max (blockSize size) 4096)) = .ok (c.heap.memBrk, s₁) ∧
        s₁.memBrk = c.heap.memBrk + max (blockSize size) 4096 ∧
        mmMalloc c.heap size = .ok (growAt (heapBlocks h c.heap) c.heap.memBrk, s') ∧
        growAt (heapBlocks h c.heap) c.heap.memBrk ≠ 0 ∧ s'.memBrk = s₁.memBrk) ∧
    ∀ p s', mmMalloc c.heap size = .ok (p, s') → p ≠ 0 →
      ∃ n, (n = blockSize size ∨ n = blockSize size + 8 ∨ n = blockSize size + 16) ∧
        ⟨p, n, true⟩ ∈ heapBlocks h s' ∧ getSize s'.mem (hdrp p) = n ∧
        ∀ b ∈ heapBlocks h c.heap, b.alloc = true → b ∈ heapBlocks h s' := by
  obtain ⟨M, hS⟩ := hc.sim hs
  have hR := hS.rep
  have ha := hR.core.arena
  have hn := newsize_bounds (show size < addrSpace by unfold addrSpace; omega)
  have hex := extendsize_eq size
  have hsize' : size < addrSpace := by unfold addrSpace; omega
  rw [← newsize_blockSize hsize, ← hex, hR.heapBlocks_eq]
  refine ⟨⟨_, hR.findFreeblock_eq _⟩, ?_, ?_, fun p s' hcode hp => ?_⟩
  · rintro ⟨b, hb, hba, hle⟩
    cases hfit : M.layout.fit (newsize size) with
    | none =>
      have := hR.valid.fit_eq_none.1 hfit b hb hba
      omega
    | some p =>
      have hw : ¬ M.layout.MallocWraps c.heap.memBrk size := fun hw => by simp [hw.1] at hfit
      obtain ⟨s', hcode, -, hbrk, -⟩ := hR.mmMalloc_refines hpos hsize' (fun _ => hS.sealed) hw
      obtain ⟨d, hd, rfl, -, -⟩ := hR.valid.fit_some hfit
      have hlo := (hR.core.inHeap d hd).lo
      refine ⟨d.addr, s', (hR.firstFit_eq _).trans hfit, ?_, by omega, ?_⟩
      · rw [hcode]
        simp only [Layout.malloc, hfit]
      · rw [hbrk]
        simp only [Layout.mallocBrk, hfit]
        exact if_neg (by simp)
  · intro hnone hsp
    have hfit := hR.valid.fit_eq_none.2 hnone
    have hw : ¬ M.layout.MallocWraps c.heap.memBrk size := fun hw => by have := hw.2.2; omega
    obtain ⟨s', hcode, -, hbrk, -⟩ := hR.mmMalloc_refines hpos hsize' (fun _ => hS.sealed) hw
    by_cases hg : Layout.Grows c.heap.memBrk (h + maxHeap) size
    · have hsbrk := Rep.memSbrk_grows (s := c.heap) hg.1 (by rw [ha.hi]; exact hg.2) hsp
      refine .inr ⟨_, s', hsbrk, rfl, ?_, ?_, ?_⟩
      · rw [hcode, ← Layout.extend_ptr _ _ (extendsize size)]
        simp only [Layout.malloc, hfit, if_pos hg]
      · have := hR.growAt_lo
        omega
      · rw [hbrk]
        simp only [Layout.mallocBrk, hfit]
        exact if_pos ⟨trivial, hg⟩
    · have hno : 2147483648 ≤ extendsize size ∨ c.heap.memBrk + extendsize size < addrSpace ∧
          c.heap.memMaxAddr < c.heap.memBrk + extendsize size := by
        unfold Layout.Grows at hg
        rw [ha.hi]
        omega
      have hlt : extendsize size < addrSpace := by
        unfold addrSpace at *
        omega
      refine .inl ⟨Rep.memSbrk_refuses hlt hno, ?_⟩
      have hcode₂ : extendHeap c.heap (extendsize size / wsize) = .ok (0, c.heap) :=
        Rep.extendHeap_refuses (by omega) hlt hno
      unfold mmMalloc
      rw [if_neg (by omega), hR.findFreeblock_eq, hfit]
      simp only [Option.getD_none, bind, Except.bind]
      rw [if_neg (by simp), hcode₂]
      rfl
  · have := hR.malloc_granted hS.sealed hpos hsize' hcode hp
    rwa [hR.heapBlocks_eq] at this

/-- With two blocks out, 5 bytes fit, 5000 bytes are where the heap grew, and for half
    the address space there is no room. -/
theorem malloc_firstFit_two : ∃ c, Reached (fun _ => 0) 8 c ∧ c.heap.memBrk = 4184 ∧
    (∃ s', firstFit c.heap 24 = some 112 ∧ mmMalloc c.heap 5 = .ok (112, s') ∧ s'.memBrk = 4184) ∧
    (∃ s', mmMalloc c.heap 5000 = .ok (112, s') ∧ s'.memBrk = 9192) ∧
    mmMalloc c.heap 2147483600 = .ok (0, c.heap) := by
  have hs : Start (fun _ => 0) 8 := ⟨by decide, by decide, by decide, by decide⟩
  obtain ⟨c, hc, heval⟩ := Reached.of_eval (m := fun _ => 0) (h := 8) [.malloc 5, .malloc 5]
    (P := fun c => c.heap.memBrk = 4184 ∧ c.heap.memMaxAddr = 8 + maxHeap ∧
      heapBlocks 8 c.heap = [⟨56, 32, true⟩, ⟨88, 24, true⟩, ⟨112, 4072, false⟩] ∧
      firstFit c.heap 24 = some 112) (by decide +kernel)
  obtain ⟨hbrk, hmax, hblocks, hfirst⟩ := of_decide_eq_true heval
  obtain ⟨-, hfit, -, -⟩ := malloc_firstFit hs hc (show 1 ≤ 5 by decide) (by decide)
  obtain ⟨-, -, hgrow, -⟩ := malloc_firstFit hs hc (show 1 ≤ 5000 by decide) (by decide)
  obtain ⟨-, -, hroom, -⟩ := malloc_firstFit hs hc (show 1 ≤ 2147483600 by decide) (by decide)
  rw [hblocks, hbrk] at hgrow hroom
  refine ⟨c, hc, hbrk, ?_, ?_, ?_⟩
  · obtain ⟨p, s', hp, hcode, -, hbrk'⟩ := hfit ⟨⟨112, 4072, false⟩, by simp [hblocks], rfl, by decide⟩
    obtain rfl : 112 = p := Option.some.inj (hfirst.symm.trans hp)
    exact ⟨s', hfirst, hcode, hbrk'.trans hbrk⟩
  · obtain ⟨hrefused, -⟩ | ⟨s₁, s', -, hs₁, hcode, -, hbrk'⟩ := hgrow (by decide) (by decide)
    · rw [Rep.memSbrk_grows (by decide) (by rw [hbrk, hmax]; decide) (by rw [hbrk]; decide), hbrk]
        at hrefused
      cases hrefused
    · exact ⟨s', hcode, hbrk'.trans hs₁⟩
  · obtain ⟨-, hcode⟩ | ⟨s₁, s', hsbrk, -⟩ := hroom (by decide) (by decide)
    · exact hcode
    · rw [Rep.memSbrk_refuses (by decide) (.inr ⟨by rw [hbrk]; decide, by rw [hbrk, hmax]; decide⟩)]
        at hsbrk
      cases hsbrk

/-! ## mm_malloc undone by mm_free -/

/-- Freeing the answer of `mm_malloc` at once gives back the blocks from before; what the
    heap grew by stays as free bytes at its end. The free list holds the free blocks. -/
theorem malloc_free {m : Mem} {h : Nat} {c : Client} {size p : Nat} {s' : Heap} (hs : Start m h)
    (hc : Reached m h c) (hpos : 1 ≤ size) (hsize : size < 2147483648)
    (hcode : mmMalloc c.heap size = .ok (p, s')) (hp : p ≠ 0) :
    (s'.memBrk = c.heap.memBrk → heapBlocks h (mmFree s' p) = heapBlocks h c.heap) ∧
    (s'.memBrk ≠ c.heap.memBrk → heapBlocks h (mmFree s' p) =
      growTail (heapBlocks h c.heap) c.heap.memBrk (s'.memBrk - c.heap.memBrk)) ∧
    (freeWalk (mmFree s' p)).Nodup ∧
    ∀ x, x ∈ freeWalk (mmFree s' p) ↔
      ∃ b ∈ heapBlocks h (mmFree s' p), b.alloc = false ∧ b.addr = x := by
  obtain ⟨M, hS⟩ := hc.sim hs
  have hR := hS.rep
  have hsize' : size < addrSpace := by unfold addrSpace; omega
  have hw : ¬ M.layout.MallocWraps c.heap.memBrk size := by
    intro hw
    rw [hR.mmMalloc_wraps hpos hsize' hw] at hcode
    cases hcode
  obtain ⟨s₁, hcode₁, hR', hbrk, -⟩ := hR.mmMalloc_refines hpos hsize' (fun _ => hS.sealed) hw
  rw [hcode, Except.ok.injEq, Prod.mk.injEq] at hcode₁
  obtain ⟨rfl, rfl⟩ := hcode₁
  obtain ⟨n, -, hmem, -, -⟩ := hR.malloc_granted hS.sealed hpos hsize' hcode hp
  rw [hR'.heapBlocks_eq] at hmem
  obtain ⟨hR'', -, -⟩ := hR'.mmFree_refines (fun _ => hS.sealed) (Layout.mem_used.2 ⟨hmem, rfl⟩)
  have hblocks := hR.valid.malloc_release (h + maxHeap) hsize' hp
  rw [← hbrk] at hblocks
  have hwf := hR''.wellFormed
  rw [hR''.heapBlocks_eq, hblocks, hR.heapBlocks_eq]
  refine ⟨fun e => if_pos e, fun e => if_neg e, hwf.once, fun x => ?_⟩
  rw [hwf.frees, hR''.heapBlocks_eq, hblocks]

/-- The first request in a heap of zeroes at 8, and its answer freed. -/
theorem malloc_free_first : ∃ s₀ s', mmMalloc s₀ 5 = .ok (56, s') ∧ (freeWalk (mmFree s' 56)).Nodup := by
  obtain ⟨s₀, hinit, -⟩ := Start.sim (m := fun _ => 0) (h := 8)
    ⟨by decide, by decide, by decide, by decide⟩
  have hptr : ((mmInit (memInit (fun _ => 0) 8)).toOption.bind fun out =>
      (mmMalloc out.2 5).toOption.map Prod.fst) = some 56 := by decide +kernel
  rw [hinit] at hptr
  cases hcode : mmMalloc s₀ 5 with
  | error f => simp [Except.toOption, hcode] at hptr
  | ok out =>
    obtain ⟨p, s'⟩ := out
    obtain rfl : p = 56 := by simpa [Except.toOption, hcode] using hptr
    exact ⟨s₀, s', hcode, (malloc_free (c := ⟨s₀, []⟩) ⟨by decide, by decide, by decide, by decide⟩
      ⟨s₀, [], hinit, trivial, rfl⟩ (by decide) (by decide) hcode (by decide)).2.2.1⟩

end OsBasics.Malloc
