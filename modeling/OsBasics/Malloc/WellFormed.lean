/-
  The heap as a reader of its memory sees it.

  `heapBlocks` walks the headers from the first block up to the epilogue, and
  `freeWalk` follows PREV_BLKP from `start` up to an allocated header. On memory
  that holds a layout they give the layout back (`heapBlocks_eq`, `freeWalk_eq`).
  `WellFormed` is the heap invariant in terms of these two walks and of the
  macros of the source, and `Rep.wellFormed` proves it.
-/
import OsBasics.Malloc.Refine

namespace OsBasics.Malloc

open OsBasics.Lib

/-! ## Walks -/

/-- The block at `bp`, as its header says. -/
def blockAt (m : Mem) (bp : Nat) : Block :=
  ⟨bp, getSize m (hdrp bp), getAlloc m (hdrp bp) ≠ 0⟩

/-- The blocks from `bp` up to a header of size 0, at most `n` of them. -/
def blocksFrom (m : Mem) : Nat → Nat → List Block
  | 0, _ => []
  | n + 1, bp =>
    if getSize m (hdrp bp) = 0 then [] else blockAt m bp :: blocksFrom m n (rightBlkp m bp)

/-- The blocks of the heap at `h`. -/
def heapBlocks (h : Nat) (s : Heap) : List Block := blocksFrom s.mem s.memBrk (h + 48)

/-- The blocks met along PREV_BLKP from `bp` up to an allocated header, at most `n`. -/
def freeFrom (m : Mem) : Nat → Nat → List Nat
  | 0, _ => []
  | n + 1, bp =>
    if getAlloc m (hdrp bp) ≠ 0 then [] else bp :: freeFrom m n (prevBlkp m bp)

/-- The free list, in the order `find_freeblock` walks it. -/
def freeWalk (s : Heap) : List Nat := freeFrom s.mem addrSpace s.start

theorem blocksFrom_stop {m : Mem} {n bp : Nat} (h : getSize m (hdrp bp) = 0) :
    blocksFrom m (n + 1) bp = [] := if_pos h

theorem blocksFrom_step {m : Mem} {n bp : Nat} (h : getSize m (hdrp bp) ≠ 0) :
    blocksFrom m (n + 1) bp = blockAt m bp :: blocksFrom m n (rightBlkp m bp) := if_neg h

theorem freeFrom_stop {m : Mem} {n bp : Nat} (h : getAlloc m (hdrp bp) ≠ 0) :
    freeFrom m (n + 1) bp = [] := if_pos h

theorem freeFrom_step {m : Mem} {n bp : Nat} (h : getAlloc m (hdrp bp) = 0) :
    freeFrom m (n + 1) bp = bp :: freeFrom m n (prevBlkp m bp) := if_neg (by simp [h])

/-! ## The invariant of the heap -/

/-- The heap at `h` between two calls. -/
structure WellFormed (h : Nat) (s : Heap) : Prop where
  /-- From the header at `h + 44` on, the blocks lie side by side up to the break. -/
  tiles : Tiles (h + 48) (heapBlocks h s) s.memBrk
  sizes : ∀ b ∈ heapBlocks h s, 24 ≤ b.size ∧ b.size % 8 = 0
  footers : ∀ b ∈ heapBlocks h s,
    get s.mem (ftrp s.mem b.addr) = get s.mem (hdrp b.addr) ∧
      get s.mem (hdrp b.addr) = pack b.size (if b.alloc then 1 else 0)
  epilogue : get s.mem (s.memBrk - 4) = pack 0 1
  /-- The free list meets every block whose header says free once, and no other. -/
  once : (freeWalk s).Nodup
  frees : ∀ x, x ∈ freeWalk s ↔ ∃ b ∈ heapBlocks h s, b.alloc = false ∧ b.addr = x
  first : s.start = (freeWalk s).headD (h + 8)
  top : nextBlkp s.mem s.start = 0
  /-- PREV_BLKP leads along it to the prologue, and NEXT_BLKP leads back. -/
  links : (freeWalk s ++ [h + 8]).IsChain fun x y => prevBlkp s.mem x = y ∧ nextBlkp s.mem y = x
  prologue : getAlloc s.mem (hdrp (h + 8)) = 1
  /-- No two neighbours are both free. -/
  sep : NoAdjFree (heapBlocks h s)

namespace Rep

variable {h : Nat} {s : Heap} {A : Layout}

theorem epilogue_size (hR : Rep h m₀ s A) : getSize s.mem (hdrp s.memBrk) = 0 := by
  have hlo := hR.core.arena.brkLo
  unfold getSize
  rw [hdrp_eq (by omega), hR.core.epilogue]
  decide

theorem blocksFrom_eq (hR : Rep h m₀ s A) {bs : List Block} (hbs : ∀ b ∈ bs, b ∈ A.blocks) {a : Nat}
    (ht : Tiles a bs s.memBrk) {n : Nat} (hn : bs.length < n) : blocksFrom s.mem n a = bs := by
  induction bs generalizing a n with
  | nil =>
    obtain ⟨n, rfl⟩ := Nat.exists_eq_add_of_lt hn
    have ha : a = s.memBrk := ht
    rw [ha]
    exact blocksFrom_stop hR.epilogue_size
  | cons b bs ih =>
    obtain ⟨n, rfl⟩ := Nat.exists_eq_add_of_lt hn
    have hb := hbs b List.mem_cons_self
    have hf := hR.fits hb
    have htag := hR.core.tagged b hb
    have hsize := getSize_hdrp hf htag
    have halloc := getAlloc_hdrp hf htag
    have hmin := hf.min
    obtain ⟨rfl, ht⟩ := ht
    rw [blocksFrom_step (by omega), rightBlkp_eq hf htag,
      ih (fun c hc => hbs c (List.mem_cons_of_mem _ hc)) ht
        (by simp only [List.length_cons]; omega)]
    have hblock : blockAt s.mem b.addr = b := by
      unfold blockAt
      rw [hsize, halloc]
      cases hba : b.alloc <;> simp [← hba]
    rw [hblock]

theorem blocks_length {a e : Nat} {bs : List Block} (ht : Tiles a bs e)
    (hpos : ∀ b ∈ bs, 0 < b.size) : a + bs.length ≤ e := by
  induction bs generalizing a with
  | nil => exact Nat.le_of_eq ht
  | cons b bs ih =>
    have h1 := ih ht.2 fun c hc => hpos c (List.mem_cons_of_mem _ hc)
    have h2 := hpos b List.mem_cons_self
    rw [List.length_cons]
    omega

theorem heapBlocks_eq (hR : Rep h m₀ s A) : heapBlocks h s = A.blocks := by
  have hlen := blocks_length hR.valid.tiles hR.valid.sized.pos
  exact hR.blocksFrom_eq (fun b hb => hb) hR.valid.tiles (by omega)

theorem freeFrom_eq (hR : Rep h m₀ s A) {n : Nat} {pre rest : List Nat} (hfl : A.free = pre ++ rest)
    (hn : rest.length < n) : freeFrom s.mem n (rest.headD (h + 8)) = rest := by
  induction rest generalizing n pre with
  | nil =>
    obtain ⟨n, rfl⟩ := Nat.exists_eq_add_of_lt hn
    exact freeFrom_stop (by simp [hR.prologue_alloc])
  | cons x rest ih =>
    obtain ⟨n, rfl⟩ := Nat.exists_eq_add_of_lt hn
    have hx : x ∈ A.free := by simp [hfl]
    obtain ⟨b, hb, hba, rfl⟩ := hR.valid.mem_free.1 hx
    have halloc := getAlloc_hdrp (hR.fits hb) (hR.core.tagged b hb)
    rw [hba] at halloc
    rw [List.headD_cons, freeFrom_step halloc, hR.prevBlkp_mem hfl,
      ih (show A.free = (pre ++ [b.addr]) ++ rest by simp [hfl]) (by simp only [List.length_cons]; omega)]

theorem freeWalk_eq (hR : Rep h m₀ s A) : freeWalk s = A.free := by
  unfold freeWalk
  rw [hR.core.ring.first]
  exact hR.freeFrom_eq (show A.free = [] ++ A.free from rfl) hR.free_length

theorem wellFormed (hR : Rep h m₀ s A) : WellFormed h s := by
  have hblocks := hR.heapBlocks_eq
  have hfree := hR.freeWalk_eq
  have hring := hR.core.ring
  refine ⟨?_, ?_, ?_, hR.core.epilogue, ?_, ?_, ?_, hring.top, ?_, hR.prologue_alloc, ?_⟩
  · rw [hblocks]
    exact hR.valid.tiles
  · rw [hblocks]
    exact hR.valid.sized
  · rw [hblocks]
    intro b hb
    have hf := hR.fits hb
    have ht := hR.core.tagged b hb
    rw [ftrp_eq hf ht, hdrp_addr hf, ht.header, ht.footer]
    refine ⟨rfl, ?_⟩
    cases hba : b.alloc with
    | false => rw [tag_free hba]; exact (pack_zero _).symm
    | true => rw [tag_alloc hba]; exact (pack_one hf.dword).symm
  · rw [hfree]
    exact hR.valid.nodup_free
  · rw [hfree, hblocks]
    exact fun x => hR.valid.mem_free
  · rw [hfree]
    exact hring.first
  · rw [hfree]
    refine hring.chain.imp_of_mem_imp fun x y hx _ hxy => ⟨?_, hxy.2⟩
    have := hring.range x hx
    rw [prevBlkp_eq _ (by omega)]
    exact hxy.1
  · rw [hblocks]
    exact hR.valid.sep

end Rep

end OsBasics.Malloc
