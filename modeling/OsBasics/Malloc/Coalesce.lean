/-
  `coalesce` merges as the abstract model does.

  `coalesce_refines`: in a heap whose blocks tile it, with correct tags and a free
  list that holds every free block but `b`, `coalesce` on `b` gives the blocks and
  the free list of `Layout.coalesce`, and writes inside free blocks and the
  prologue's cell only. The four cases of the code are the four combinations of a
  free or a closed neighbour on each side.
-/
import OsBasics.Malloc.Rep
import OsBasics.Malloc.Valid

namespace OsBasics.Malloc

open OsBasics.Lib

/-! ## What the code sees of the neighbours -/

section Neighbours

variable {h : Nat} {s : Heap} {l r : List Block} {b : Block} {fl : List Nat}

/-- LEFT_BLKP finds the block before `b`. -/
theorem leftBlkp_block {x : Block} (hc : Core h m₀ s (l ++ [x] ++ b :: r) fl)
    (ht : Tiles (h + 48) (l ++ [x] ++ b :: r) s.memBrk) : leftBlkp s.mem b.addr = x.addr := by
  have hx : x ∈ l ++ [x] ++ b :: r := by simp
  rw [List.append_assoc, List.singleton_append, tiles_split] at ht
  rw [ht.2.1]
  exact leftBlkp_eq (hc.fits hx) (hc.tagged x hx)

/-- RIGHT_BLKP finds the block behind `b`. -/
theorem rightBlkp_block {y : Block} (hc : Core h m₀ s (l ++ b :: y :: r) fl)
    (ht : Tiles (h + 48) (l ++ b :: y :: r) s.memBrk) : rightBlkp s.mem b.addr = y.addr := by
  have hb : b ∈ l ++ b :: y :: r := by simp
  rw [tiles_split] at ht
  rw [ht.2.1]
  exact rightBlkp_eq (hc.fits hb) (hc.tagged b hb)

/-- A closed left end reads as allocated: the last block's footer, or, for the first
    block of the heap, what `hgap` says of the words before the heap. -/
theorem leftAlloc_of_closed (hc : Core h m₀ s (l ++ b :: r) fl)
    (ht : Tiles (h + 48) (l ++ b :: r) s.memBrk) (hl : Layout.LeftClosed l)
    (hgap : l = [] → leftAlloc s.mem b.addr) : leftAlloc s.mem b.addr := by
  rcases List.eq_nil_or_concat l with rfl | ⟨l', x, rfl⟩
  · exact hgap rfl
  · rw [List.concat_eq_append] at *
    have hx : x ∈ l' ++ [x] ++ b :: r := by simp
    refine .inl ?_
    rw [leftBlkp_block hc ht, getAlloc_ftrp (hc.fits hx) (hc.tagged x hx), hl x (by simp)]
    decide

theorem not_leftAlloc_of_free {x : Block} (hc : Core h m₀ s (l ++ [x] ++ b :: r) fl)
    (ht : Tiles (h + 48) (l ++ [x] ++ b :: r) s.memBrk) (hx : x.alloc = false) :
    ¬ leftAlloc s.mem b.addr := by
  have hxm : x ∈ l ++ [x] ++ b :: r := by simp
  have hmin := (hc.inHeap x hxm).min
  unfold leftAlloc
  rw [leftBlkp_block hc ht, getAlloc_ftrp (hc.fits hxm) (hc.tagged x hxm), hx]
  rw [List.append_assoc, List.singleton_append, tiles_split] at ht
  have := ht.2.1
  simp
  omega

/-- A closed right end reads as allocated: the next header, or the epilogue. -/
theorem rightAlloc_of_closed (hc : Core h m₀ s (l ++ b :: r) fl)
    (ht : Tiles (h + 48) (l ++ b :: r) s.memBrk) (hr : Layout.RightClosed r) :
    rightAlloc s.mem b.addr := by
  have hb : b ∈ l ++ b :: r := by simp
  unfold rightAlloc
  cases r with
  | nil =>
    have hbrk := hc.arena.brk_lt
    have hlt := hc.arena.brkLo
    rw [tiles_split] at ht
    rw [rightBlkp_eq (hc.fits hb) (hc.tagged b hb), ht.2, hdrp_eq (by omega),
      getAlloc_eq, hc.epilogue]
    decide
  | cons y r =>
    have hy : y ∈ l ++ b :: y :: r := by simp
    rw [rightBlkp_block hc ht, getAlloc_hdrp (hc.fits hy) (hc.tagged y hy), hr y rfl]
    decide

theorem not_rightAlloc_of_free {y : Block} (hc : Core h m₀ s (l ++ b :: y :: r) fl)
    (ht : Tiles (h + 48) (l ++ b :: y :: r) s.memBrk) (hy : y.alloc = false) :
    ¬ rightAlloc s.mem b.addr := by
  have hym : y ∈ l ++ b :: y :: r := by simp
  unfold rightAlloc
  rw [rightBlkp_block hc ht, getAlloc_hdrp (hc.fits hym) (hc.tagged y hym), hy]
  simp

end Neighbours

/-! ## The last steps of every case -/

/-- Cells of free blocks are inside them. -/
theorem within_of_sameOff {h : Nat} {S : List Block} {xs : List Nat} {m m' : Mem}
    (hoff : SameOff xs (h + 8) m m')
    (hxs : ∀ x ∈ xs, ∃ b ∈ S, b.addr ≤ x ∧ x + 16 ≤ b.addr + b.size) : Within h S m m' := by
  intro q hP hq
  refine hoff q (fun x hx => ?_) (by omega)
  obtain ⟨b, hb, h1, h2⟩ := hxs x hx
  have := hq b hb
  omega

/-- Tagging a block writes inside it. -/
theorem within_setTags {h : Nat} {S : List Block} (s : Heap) {c : Block} (hf : Fits c)
    (hc : ∀ q, (∀ b ∈ S, q < b.addr - 4 ∨ b.addr + b.size - 4 ≤ q) →
      q < c.addr - 4 ∨ c.addr + c.size - 4 ≤ q) :
    Within h S s.mem (setTags s c).mem := by
  have hlow := hf.low
  have hmin := hf.min
  intro q _ hq
  have := hc q hq
  rw [setTags_mem, putWord_byte _ _ (by omega), putWord_byte _ _ (by omega)]

/-- The last steps of the merging cases: tag the merged block `c`, which covers
    blocks no longer on the free list, and put it at the front of the list. -/
theorem Core.merge {h : Nat} {s : Heap} {tg tg' S : List Block} {fl : List Nat} {c : Block}
    (hc : Core h m₀ s tg fl) (hfree : c.alloc = false) (hin : InHeap h s.memBrk c)
    (hsub : ∀ b ∈ tg', b ∈ tg)
    (hdis : ∀ b ∈ tg', b.addr + b.size ≤ c.addr ∨ c.addr + c.size ≤ b.addr)
    (hfl : ∀ x ∈ fl, x + 24 ≤ c.addr ∨ c.addr + c.size ≤ x)
    (hcS : ∀ q, (∀ b ∈ S, q < b.addr - 4 ∨ b.addr + b.size - 4 ≤ q) →
      q < c.addr - 4 ∨ c.addr + c.size - 4 ≤ q)
    (hflS : ∀ x ∈ c.addr :: fl, ∃ b ∈ S, b.addr ≤ x ∧ x + 16 ≤ b.addr + b.size) :
    let s₁ := put s (hdrp c.addr) (pack c.size 0)
    let s₂ := put s₁ (ftrp s₁.mem c.addr) (pack c.size 0)
    Core h m₀ (insertBlock s₂ c.addr) (c :: tg') (c.addr :: fl) ∧
      Within h S s.mem (insertBlock s₂ c.addr).mem := by
  have hf := hin.fits hc.arena.brk_lt
  have hmin := hin.min
  have hhi := hin.hi
  have hbrk := hc.arena.brk_lt
  have hlo := hin.lo
  intro s₁ s₂
  have hs₂ : s₂ = setTags s c := setTags_eq s hf (by rw [pack_zero, tag_free hfree])
  have hcore : Core h m₀ s₂ (c :: tg') fl := by
    rw [hs₂]
    refine hc.retag hin hsub hdis fun x hx => ?_
    have := hfl x hx
    unfold Clear
    omega
  have hins : Core h m₀ (insertBlock s₂ c.addr) (c :: tg') (c.addr :: fl) := by
    refine hcore.insert hlo ?_ ?_ ?_
    · rw [hs₂]
      rw [setTags_memBrk]
      omega
    · intro b hb
      unfold Clear
      rcases List.mem_cons.1 hb with rfl | hb
      · omega
      · have := hdis b hb
        have := (hc.inHeap b (hsub b hb)).lo
        omega
    · intro y hy
      have := hfl y hy
      unfold Apart
      omega
  refine ⟨hins, ?_⟩
  have hw₁ : Within h S s.mem s₂.mem := by
    rw [hs₂]
    exact within_setTags s hf hcS
  have hoff : SameOff (c.addr :: fl) (h + 8) _ _ := insertBlock_frame hcore.ring (by omega)
  exact hw₁.trans (within_of_sameOff hoff hflS)

/-! ## The four cases -/

theorem coalesce_closed_closed {s : Heap} {bp : Nat} (hl : leftAlloc s.mem bp)
    (hr : rightAlloc s.mem bp) : coalesce s bp = (bp, insertBlock s bp) := by
  unfold coalesce
  dsimp only
  rw [if_neg fun h => h.2 hr, if_neg fun h => h.1 hl, if_neg fun h => h.1 hl]

theorem coalesce_closed_free {s : Heap} {bp : Nat} (hl : leftAlloc s.mem bp)
    (hr : ¬ rightAlloc s.mem bp) :
    coalesce s bp =
      (let size := addU (getSize s.mem (hdrp bp)) (getSize s.mem (hdrp (rightBlkp s.mem bp)))
       let s := removeBlock s (rightBlkp s.mem bp)
       let s := put s (hdrp bp) (pack size 0)
       let s := put s (ftrp s.mem bp) (pack size 0)
       (bp, insertBlock s bp)) := by
  unfold coalesce
  dsimp only
  rw [if_pos ⟨hl, hr⟩]

theorem coalesce_free_closed {s : Heap} {bp : Nat} (hl : ¬ leftAlloc s.mem bp)
    (hr : rightAlloc s.mem bp) :
    coalesce s bp =
      (let size := addU (getSize s.mem (hdrp bp)) (getSize s.mem (hdrp (leftBlkp s.mem bp)))
       let bp := leftBlkp s.mem bp
       let s := removeBlock s bp
       let s := put s (hdrp bp) (pack size 0)
       let s := put s (ftrp s.mem bp) (pack size 0)
       (bp, insertBlock s bp)) := by
  unfold coalesce
  dsimp only
  rw [if_neg fun h => hl h.1, if_pos ⟨hl, hr⟩]

theorem coalesce_free_free {s : Heap} {bp : Nat} (hl : ¬ leftAlloc s.mem bp)
    (hr : ¬ rightAlloc s.mem bp) :
    coalesce s bp =
      (let size := getSize s.mem (hdrp bp)
       let s := removeBlock s (leftBlkp s.mem bp)
       let s := removeBlock s (rightBlkp s.mem bp)
       let size := addU size (addU (getSize s.mem (hdrp (leftBlkp s.mem bp)))
         (getSize s.mem (hdrp (rightBlkp s.mem bp))))
       let bp := leftBlkp s.mem bp
       let s := put s (hdrp bp) (pack size 0)
       let s := put s (ftrp s.mem bp) (pack size 0)
       (bp, insertBlock s bp)) := by
  unfold coalesce
  dsimp only
  rw [if_neg fun h => hl h.1, if_neg fun h => hr h.2, if_pos ⟨hl, hr⟩]

/-- The free blocks of a list. -/
def freeBlocks (bs : List Block) : List Block := bs.filter fun b => !b.alloc

theorem mem_freeBlocks {bs : List Block} {b : Block} :
    b ∈ freeBlocks bs ↔ b ∈ bs ∧ b.alloc = false := by
  simp [freeBlocks]

section Refines

variable {h : Nat} {s : Heap} {l r : List Block} {b : Block} {fl : List Nat}

/-- `coalesce` on `b` ended with result `p` and state `s'`, as the abstract merge says. -/
structure Merged (h : Nat) (m₀ : Mem) (s : Heap) (l : List Block) (b : Block) (r : List Block)
    (fl : List Nat) (out : Nat × Heap) : Prop where
  ptr : out.1 = (Layout.coalesce l b r fl).1
  core : Core h m₀ out.2 (Layout.coalesce l b r fl).2.blocks (Layout.coalesce l b r fl).2.free
  within : Within h (freeBlocks (l ++ b :: r)) s.mem out.2.mem
  brk : out.2.memBrk = s.memBrk

/-- A member of the free list is the address of a free block off `b`. -/
theorem mem_free_iff {l r : List Block} {fl : List Nat}
    (hperm : fl.Perm (Layout.freeAddrs (l ++ r))) (x : Nat) :
    x ∈ fl ↔ ∃ c, (c ∈ l ∨ c ∈ r) ∧ c.alloc = false ∧ c.addr = x := by
  rw [hperm.mem_iff, Layout.mem_freeAddrs]
  simp [List.mem_append]

theorem nodup_free (hc : Core h m₀ s (l ++ b :: r) fl) (ht : Tiles (h + 48) (l ++ b :: r) s.memBrk)
    (hperm : fl.Perm (Layout.freeAddrs (l ++ r))) : fl.Nodup := by
  have hs : Layout.Sized (l ++ b :: r) := fun c hcm =>
    ⟨(hc.inHeap c hcm).min, (hc.inHeap c hcm).dword⟩
  have hnd := Layout.nodup_freeAddrs ht hs
  rw [hperm.nodup_iff]
  refine hnd.sublist ?_
  rw [Layout.freeAddrs_append, Layout.freeAddrs_append]
  refine (List.Sublist.refl _).append ?_
  unfold Layout.freeAddrs
  exact ((List.sublist_cons_self b r).filter _).map _

/-- Cells of the free list and of `b` lie in free blocks. -/
theorem cells_in_freeBlocks (hc : Core h m₀ s (l ++ b :: r) fl) (hb : b.alloc = false)
    (hperm : fl.Perm (Layout.freeAddrs (l ++ r))) {x : Nat} (hx : x ∈ b.addr :: fl) :
    ∃ c ∈ freeBlocks (l ++ b :: r), c.addr ≤ x ∧ x + 16 ≤ c.addr + c.size := by
  rcases List.mem_cons.1 hx with rfl | hx
  · have := (hc.inHeap b (by simp)).min
    exact ⟨b, mem_freeBlocks.2 ⟨by simp, hb⟩, Nat.le_refl _, by omega⟩
  · obtain ⟨c, hcm, hca, rfl⟩ := (mem_free_iff hperm x).1 hx
    have hcm' : c ∈ l ++ b :: r := by
      rcases hcm with hcm | hcm <;> simp [hcm]
    have := (hc.inHeap c hcm').min
    exact ⟨c, mem_freeBlocks.2 ⟨hcm', hca⟩, Nat.le_refl _, by omega⟩

theorem merged_closed_closed (hc : Core h m₀ s (l ++ b :: r) fl)
    (ht : Tiles (h + 48) (l ++ b :: r) s.memBrk) (hb : b.alloc = false)
    (hperm : fl.Perm (Layout.freeAddrs (l ++ r))) (hl : Layout.LeftClosed l)
    (hgap : l = [] → leftAlloc s.mem b.addr) (hr : Layout.RightClosed r) : Merged h m₀ s l b r fl (coalesce s b.addr) := by
  have hbm : b ∈ l ++ b :: r := by simp
  have hbin := hc.inHeap b hbm
  have hlo := hbin.lo
  have hhi := hbin.hi
  have hmin := hbin.min
  have hbrk := hc.arena.brk_lt
  obtain ⟨hbl, hbr⟩ := tiles_around ht
  have hout : Layout.coalesce l b r fl = (b.addr, ⟨l ++ b :: r, b.addr :: fl⟩) := by
    simp [Layout.coalesce, Layout.absorbLeft_closed hl, Layout.absorbRight_closed hr]
  rw [coalesce_closed_closed (leftAlloc_of_closed hc ht hl hgap) (rightAlloc_of_closed hc ht hr)]
  refine ⟨by rw [hout], ?_, ?_, by simp⟩
  · rw [hout]
    refine hc.insert hlo (by omega) ?_ ?_
    · intro c hcm
      have := (hc.inHeap c hcm).lo
      unfold Clear
      rcases tiles_disjoint ht hcm hbm with rfl | h | h <;> omega
    · intro y hy
      obtain ⟨c, hcm, -, rfl⟩ := (mem_free_iff hperm y).1 hy
      unfold Apart
      rcases hcm with hcm | hcm
      · have := hbl c hcm
        have := (hc.inHeap c (by simp [hcm])).min
        omega
      · have := hbr c hcm
        omega
  · have hoff : SameOff (b.addr :: fl) (h + 8) _ _ := insertBlock_frame hc.ring (by omega)
    exact within_of_sameOff hoff fun x hx => cells_in_freeBlocks hc hb hperm hx

/-- The blocks after a merge stand where a run of free blocks stood. -/
theorem Core.merge_run (mid : List Block) {c : Block} (hc : Core h m₀ s (l ++ (mid ++ r)) fl)
    (hl : Tiles (h + 48) l c.addr) (hm : Tiles c.addr mid (c.addr + c.size))
    (hr : Tiles (c.addr + c.size) r s.memBrk) (hne : mid ≠ []) (hfree : ∀ d ∈ mid, d.alloc = false)
    (hcf : c.alloc = false)
    (hfl : ∀ x ∈ fl, ∃ d, (d ∈ l ∨ d ∈ r) ∧ d.alloc = false ∧ d.addr = x) :
    let s₁ := put s (hdrp c.addr) (pack c.size 0)
    let s₂ := put s₁ (ftrp s₁.mem c.addr) (pack c.size 0)
    Core h m₀ (insertBlock s₂ c.addr) (l ++ c :: r) (c.addr :: fl) ∧
      Within h (freeBlocks (l ++ (mid ++ r))) s.mem (insertBlock s₂ c.addr).mem := by
  have hmem : ∀ d ∈ mid, d ∈ l ++ (mid ++ r) := fun d hd => by simp [hd]
  have hmemL : ∀ d ∈ l, d ∈ l ++ (mid ++ r) := fun d hd => by simp [hd]
  have hmemR : ∀ d ∈ r, d ∈ l ++ (mid ++ r) := fun d hd => by simp [hd]
  obtain ⟨f, mid', hmid⟩ := List.exists_cons_of_ne_nil hne
  have hf : f ∈ mid := by simp [hmid]
  have hfaddr : f.addr = c.addr := by rw [hmid] at hm; exact hm.1
  have hfin := hc.inHeap f (hmem f hf)
  have hfhi := (tiles_mem hm hf).2
  have hmin := hfin.min
  have hin : InHeap h s.memBrk c := by
    refine ⟨tiles_le hl, tiles_le hr, by omega, ?_⟩
    have := tiles_dvd hm fun d hd => (hc.inHeap d (hmem d hd)).dword
    omega
  have hdis : ∀ d ∈ l ++ r, d.addr + d.size ≤ c.addr ∨ c.addr + c.size ≤ d.addr := by
    intro d hd
    exact (List.mem_append.1 hd).imp (fun hd => (tiles_mem hl hd).2) fun hd => (tiles_mem hr hd).1
  have hsub : ∀ d ∈ l ++ r, d ∈ l ++ (mid ++ r) := by
    intro d hd
    exact (List.mem_append.1 hd).elim (hmemL d) (hmemR d)
  have hflc : ∀ x ∈ fl, x + 24 ≤ c.addr ∨ c.addr + c.size ≤ x := by
    intro x hx
    obtain ⟨d, hd, -, rfl⟩ := hfl x hx
    have hd := List.mem_append.2 hd
    have := hdis d hd
    have := (hc.inHeap d (hsub d hd)).min
    omega
  have hcS : ∀ q, (∀ d ∈ freeBlocks (l ++ (mid ++ r)),
      q < d.addr - 4 ∨ d.addr + d.size - 4 ≤ q) →
      q < c.addr - 4 ∨ c.addr + c.size - 4 ≤ q := by
    intro q hq
    refine tiles_outside hm (by have := hfin.lo; omega) fun d hd => ?_
    exact hq d (mem_freeBlocks.2 ⟨hmem d hd, hfree d hd⟩)
  have hflS : ∀ x ∈ c.addr :: fl, ∃ d ∈ freeBlocks (l ++ (mid ++ r)),
      d.addr ≤ x ∧ x + 16 ≤ d.addr + d.size := by
    intro x hx
    rcases List.mem_cons.1 hx with rfl | hx
    · exact ⟨f, mem_freeBlocks.2 ⟨hmem f hf, hfree f hf⟩, by omega, by omega⟩
    · obtain ⟨d, hd, hda, rfl⟩ := hfl x hx
      have hd := hsub d (List.mem_append.2 hd)
      have := (hc.inHeap d hd).min
      exact ⟨d, mem_freeBlocks.2 ⟨hd, hda⟩, Nat.le_refl _, by omega⟩
  obtain ⟨hm, hw⟩ := hc.merge hcf hin hsub hdis hflc hcS hflS
  refine ⟨hm.subset fun d hd => ?_, hw⟩
  simpa [or_comm, or_left_comm] using hd

/-- Taking a free neighbour off the list writes in cells of free blocks. -/
theorem Core.remove_within (hc : Core h m₀ s (l ++ b :: r) fl) (hb : b.alloc = false)
    (hperm : fl.Perm (Layout.freeAddrs (l ++ r))) {x : Nat} (hx : x ∈ fl) :
    Within h (freeBlocks (l ++ b :: r)) s.mem (removeBlock s x).mem :=
  within_of_sameOff (freeRing_removeBlock hc.ring hx).2 fun _ hy =>
    cells_in_freeBlocks hc hb hperm (List.mem_cons_of_mem _ hy)

theorem merged_closed_free {y : Block} (hc : Core h m₀ s (l ++ b :: y :: r) fl)
    (ht : Tiles (h + 48) (l ++ b :: y :: r) s.memBrk) (hb : b.alloc = false)
    (hperm : fl.Perm (Layout.freeAddrs (l ++ y :: r))) (hl : Layout.LeftClosed l)
    (hgap : l = [] → leftAlloc s.mem b.addr) (hy : y.alloc = false) : Merged h m₀ s l b (y :: r) fl (coalesce s b.addr) := by
  have hbm : b ∈ l ++ b :: y :: r := by simp
  have hym : y ∈ l ++ b :: y :: r := by simp
  have hyfl : y.addr ∈ fl := (mem_free_iff hperm _).2 ⟨y, .inr (by simp), hy, rfl⟩
  have hnd := nodup_free hc ht hperm
  have hsize : addU (getSize s.mem (hdrp b.addr))
      (getSize s.mem (hdrp (rightBlkp s.mem b.addr))) = (b.join y).size := by
    rw [rightBlkp_block hc ht, getSize_hdrp (hc.fits hbm) (hc.tagged b hbm),
      getSize_hdrp (hc.fits hym) (hc.tagged y hym)]
    have := tiles_pair_le ht
    have := hc.arena.brk_lt
    exact addU_eq (by omega)
  have hright := rightBlkp_block hc ht
  have hL := leftAlloc_of_closed hc ht hl hgap
  have hR := not_rightAlloc_of_free hc ht hy
  have hout : Layout.coalesce l b (y :: r) fl =
      (b.addr, ⟨l ++ b.join y :: r, b.addr :: fl.erase y.addr⟩) := by
    simp only [Layout.coalesce, Layout.absorbLeft_closed hl, Layout.absorbRight_free hy]
    rfl
  rw [tiles_split] at ht
  obtain ⟨hm, hw⟩ := Core.merge_run [b, y] (c := b.join y) (hc.remove hyfl) ht.1
    ⟨rfl, ht.2.1, Nat.add_assoc _ _ _⟩
    (by simpa [Block.join, Nat.add_assoc] using ht.2.2) (by simp) (by simp [hb, hy]) rfl
    fun x hx => by
      rw [hnd.mem_erase_iff] at hx
      obtain ⟨d, hd, hda, rfl⟩ := (mem_free_iff hperm x).1 hx.2
      refine ⟨d, hd.imp_right fun hd => ?_, hda, rfl⟩
      exact (List.mem_cons.1 hd).resolve_left fun h => hx.1 (by rw [h])
  rw [coalesce_closed_free hL hR, hsize, hright]
  refine ⟨by rw [hout], by rw [hout]; exact hm, ?_, by simp⟩
  exact (hc.remove_within hb hperm hyfl).trans hw

theorem merged_free_closed {x : Block} (hc : Core h m₀ s (l ++ [x] ++ b :: r) fl)
    (ht : Tiles (h + 48) (l ++ [x] ++ b :: r) s.memBrk) (hb : b.alloc = false)
    (hperm : fl.Perm (Layout.freeAddrs (l ++ [x] ++ r))) (hx : x.alloc = false)
    (hr : Layout.RightClosed r) : Merged h m₀ s (l ++ [x]) b r fl (coalesce s b.addr) := by
  have hbm : b ∈ l ++ [x] ++ b :: r := by simp
  have hxm : x ∈ l ++ [x] ++ b :: r := by simp
  have hxfl : x.addr ∈ fl := (mem_free_iff hperm _).2 ⟨x, .inl (by simp), hx, rfl⟩
  have hnd := nodup_free hc ht hperm
  have hleft := leftBlkp_block hc ht
  have hL := not_leftAlloc_of_free hc ht hx
  have hR := rightAlloc_of_closed hc ht hr
  have hassoc : l ++ [x] ++ b :: r = l ++ x :: b :: r := by simp
  have hsize : addU (getSize s.mem (hdrp b.addr))
      (getSize s.mem (hdrp (leftBlkp s.mem b.addr))) = (x.join b).size := by
    rw [hleft, getSize_hdrp (hc.fits hbm) (hc.tagged b hbm),
      getSize_hdrp (hc.fits hxm) (hc.tagged x hxm)]
    rw [hassoc] at ht
    have := tiles_pair_le ht
    have := hc.arena.brk_lt
    rw [addU_eq (by omega), Nat.add_comm]
    rfl
  have hout : Layout.coalesce (l ++ [x]) b r fl =
      (x.addr, ⟨l ++ x.join b :: r, x.addr :: fl.erase x.addr⟩) := by
    simp only [Layout.coalesce, Layout.absorbLeft_free hx, Layout.absorbRight_closed hr]
    rfl
  have hrm := hc.remove hxfl
  have hw₀ := hc.remove_within hb hperm hxfl
  rw [hassoc, tiles_split] at ht
  rw [hassoc] at hrm hw₀
  obtain ⟨hm, hw⟩ := Core.merge_run [x, b] (c := x.join b) hrm ht.1
    ⟨rfl, ht.2.1, Nat.add_assoc _ _ _⟩
    (by simpa [Block.join, Nat.add_assoc] using ht.2.2) (by simp) (by simp [hb, hx]) rfl
    fun y hy => by
      rw [hnd.mem_erase_iff] at hy
      obtain ⟨d, hd, hda, rfl⟩ := (mem_free_iff hperm y).1 hy.2
      refine ⟨d, hd.imp_left fun hd => ?_, hda, rfl⟩
      rcases List.mem_append.1 hd with hd | hd
      · exact hd
      · exact absurd (by rw [List.mem_singleton.1 hd]) hy.1
  rw [coalesce_free_closed hL hR, hsize, hleft]
  refine ⟨by rw [hout], by rw [hout]; exact hm, ?_, by simp⟩
  rw [hassoc]
  exact hw₀.trans hw

theorem merged_free_free {x y : Block} (hc : Core h m₀ s (l ++ [x] ++ b :: y :: r) fl)
    (ht : Tiles (h + 48) (l ++ [x] ++ b :: y :: r) s.memBrk) (hb : b.alloc = false)
    (hperm : fl.Perm (Layout.freeAddrs (l ++ [x] ++ y :: r))) (hx : x.alloc = false)
    (hy : y.alloc = false) : Merged h m₀ s (l ++ [x]) b (y :: r) fl (coalesce s b.addr) := by
  have hbm : b ∈ l ++ [x] ++ b :: y :: r := by simp
  have hxm : x ∈ l ++ [x] ++ b :: y :: r := by simp
  have hym : y ∈ l ++ [x] ++ b :: y :: r := by simp
  have hxfl : x.addr ∈ fl := (mem_free_iff hperm _).2 ⟨x, .inl (by simp), hx, rfl⟩
  have hyfl : y.addr ∈ fl := (mem_free_iff hperm _).2 ⟨y, .inr (by simp), hy, rfl⟩
  have hnd := nodup_free hc ht hperm
  have hxy : y.addr ≠ x.addr := by
    have := (tiles_around ht).1 x (by simp)
    have := (tiles_around ht).2 y (by simp)
    have := (hc.inHeap x hxm).min
    omega
  have hyfl' : y.addr ∈ fl.erase x.addr := hnd.mem_erase_iff.2 ⟨hxy, hyfl⟩
  have hleft := leftBlkp_block hc ht
  have hL := not_leftAlloc_of_free hc ht hx
  have hR := not_rightAlloc_of_free hc ht hy
  have hassoc : l ++ [x] ++ b :: y :: r = l ++ x :: b :: y :: r := by simp
  -- the code reads both neighbours again after it took them off the list
  have hrm := hc.remove hxfl
  have hrm₂ := hrm.remove hyfl'
  have hright := rightBlkp_block hrm (by simpa using ht)
  have hleft₂ := leftBlkp_block hrm₂ (by simpa using ht)
  have hright₂ := rightBlkp_block hrm₂ (by simpa using ht)
  have hsize : addU (getSize s.mem (hdrp b.addr)) (addU
      (getSize (removeBlock (removeBlock s x.addr) y.addr).mem (hdrp x.addr))
      (getSize (removeBlock (removeBlock s x.addr) y.addr).mem (hdrp y.addr))) =
      ((x.join b).join y).size := by
    rw [getSize_hdrp (hc.fits hbm) (hc.tagged b hbm),
      getSize_hdrp (hrm₂.fits hxm) (hrm₂.tagged x hxm),
      getSize_hdrp (hrm₂.fits hym) (hrm₂.tagged y hym)]
    have h1 := (tiles_around ht).1 x (by simp)
    have h2 := (hc.inHeap y hym).hi
    have h3 := (tiles_around ht).2 y (by simp)
    have := hc.arena.brk_lt
    rw [addU_eq (a := x.size) (by omega), addU_eq (by omega)]
    simp only [Block.join]
    omega
  have hout : Layout.coalesce (l ++ [x]) b (y :: r) fl =
      (x.addr, ⟨l ++ (x.join b).join y :: r, x.addr :: (fl.erase x.addr).erase y.addr⟩) := by
    simp only [Layout.coalesce, Layout.absorbLeft_free hx, Layout.absorbRight_free hy]
    rfl
  have hw₁ := hc.remove_within hb hperm hxfl
  have hw₂ : Within h (freeBlocks (l ++ [x] ++ b :: y :: r)) (removeBlock s x.addr).mem
      (removeBlock (removeBlock s x.addr) y.addr).mem :=
    within_of_sameOff (freeRing_removeBlock hrm.ring hyfl').2 fun z hz =>
      cells_in_freeBlocks hc hb hperm (List.mem_cons_of_mem _ (List.mem_of_mem_erase hz))
  rw [hassoc, tiles_split] at ht
  rw [hassoc] at hrm₂ hw₁ hw₂
  obtain ⟨hm, hw⟩ := Core.merge_run [x, b, y] (c := (x.join b).join y) hrm₂
    (by simpa [Block.join] using ht.1)
    ⟨rfl, ht.2.1, ht.2.2.1, by simp [Tiles, Block.join, Nat.add_assoc]⟩
    (by simpa [Block.join, Nat.add_assoc] using ht.2.2.2) (by simp) (by simp [hb, hx, hy]) rfl
    fun z hz => by
      rw [(hnd.erase _).mem_erase_iff, hnd.mem_erase_iff] at hz
      obtain ⟨d, hd, hda, rfl⟩ := (mem_free_iff hperm z).1 hz.2.2
      refine ⟨d, hd.imp (fun hd => ?_) fun hd => ?_, hda, rfl⟩
      · rcases List.mem_append.1 hd with hd | hd
        · exact hd
        · exact absurd (by rw [List.mem_singleton.1 hd]) hz.2.1
      · exact (List.mem_cons.1 hd).resolve_left fun h => hz.1 (by rw [h])
  rw [coalesce_free_free hL hR]
  simp only [hleft, hright, hleft₂, hright₂, hsize]
  refine ⟨by rw [hout], by rw [hout]; exact hm, ?_, by simp⟩
  rw [hassoc]
  exact (hw₁.trans hw₂).trans hw

/-- `coalesce` refines the abstract merge. -/
theorem coalesce_refines (hc : Core h m₀ s (l ++ b :: r) fl)
    (ht : Tiles (h + 48) (l ++ b :: r) s.memBrk) (hb : b.alloc = false)
    (hperm : fl.Perm (Layout.freeAddrs (l ++ r))) (hgap : l = [] → leftAlloc s.mem b.addr) :
    Merged h m₀ s l b r fl (coalesce s b.addr) := by
  rcases Layout.left_cases l with hl | ⟨l', x, rfl, hx⟩ <;>
  rcases Layout.right_cases r with hr | ⟨y, r', rfl, hy⟩
  · exact merged_closed_closed hc ht hb hperm hl hgap hr
  · exact merged_closed_free hc ht hb hperm hl hgap hy
  · exact merged_free_closed hc ht hb hperm hx hr
  · exact merged_free_free hc ht hb hperm hx hy

end Refines

end OsBasics.Malloc
