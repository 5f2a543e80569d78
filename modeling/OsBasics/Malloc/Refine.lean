/-
  The allocator refines its abstract model.

  `Rep h m₀ s A` says that memory holds the layout `A`: every tag, every link, the
  prologue and the epilogue. Each call of the code takes a represented layout to
  the one the abstract operation gives (`mmFree_refines`, `place_refines`,
  `extendHeap_refines`, `mmMalloc_refines`), and keeps the bytes of every block in
  use (`Keeps`). `findFreeblock_eq` also says that the walk along the free list
  ends. `mmInit_refines` is the start.
-/
import OsBasics.Malloc.Coalesce
import Mathlib.Data.List.Perm.Subperm

namespace OsBasics.Malloc

open OsBasics.Lib

/-- Memory holds the layout `A`. -/
structure Rep (h : Nat) (m₀ : Mem) (s : Heap) (A : Layout) : Prop where
  core : Core h m₀ s A.blocks A.free
  valid : A.Valid (h + 48) s.memBrk

/-- The bytes of the blocks `bs`, short of their footers, are the same in `m'`. -/
def Keeps (bs : List Block) (m m' : Mem) : Prop :=
  ∀ b ∈ bs, ∀ q, b.addr ≤ q → q < b.addr + b.size - 4 → m' q = m q

theorem Keeps.trans {bs : List Block} {m m' m'' : Mem} (h : Keeps bs m m')
    (h' : Keeps bs m' m'') : Keeps bs m m'' :=
  fun b hb q h1 h2 => (h' b hb q h1 h2).trans (h b hb q h1 h2)

/-- Blocks off the written ones keep their bytes. -/
theorem keeps_of_within {h : Nat} {S bs : List Block} {m m' : Mem} (hw : Within h S m m')
    (hlo : ∀ b ∈ bs, h + 48 ≤ b.addr)
    (hdis : ∀ b ∈ bs, ∀ c ∈ S, b.addr + b.size ≤ c.addr ∨ c.addr + c.size ≤ b.addr) :
    Keeps bs m m' := by
  intro b hb q h1 h2
  have := hlo b hb
  refine hw q (by omega) fun c hc => ?_
  have := hdis b hb c hc
  omega

namespace Rep

variable {h : Nat} {s : Heap} {A : Layout} {b : Block}

/-- A change inside free blocks of a tiling keeps its blocks in use. -/
theorem keeps_freeBlocks {lo hi : Nat} {bs cs : List Block} {m m' : Mem} (ht : Tiles lo cs hi)
    (hlo : h + 48 ≤ lo) (hbs : ∀ b ∈ bs, b ∈ cs ∧ b.alloc = true)
    (hw : Within h (freeBlocks cs) m m') : Keeps bs m m' := by
  refine keeps_of_within hw (fun b hb => ?_) fun b hb c hc => ?_
  · have := (tiles_mem ht (hbs b hb).1).1
    omega
  · obtain ⟨hcm, hcf⟩ := mem_freeBlocks.1 hc
    rcases tiles_disjoint ht (hbs b hb).1 hcm with e | h | h
    · exact absurd (e ▸ (hbs b hb).2) (by simp [hcf])
    · exact .inl h
    · exact .inr h

theorem fits (hR : Rep h m₀ s A) (hb : b ∈ A.blocks) : Fits b := hR.core.fits hb

/-- Cells of the free list are clear of the tags of a block that lies in `b`. -/
theorem clear_of_mem (hR : Rep h m₀ s A) (hb : b ∈ A.blocks) {c : Block}
    (h1 : b.addr ≤ c.addr) (h2 : c.addr + c.size ≤ b.addr + b.size)
    (hb' : b.alloc = true ∨ c.addr = b.addr ∧ 24 ≤ c.size) : ∀ x ∈ A.free, Clear c x := by
  intro x hx
  obtain ⟨d, hd, hda, rfl⟩ := hR.valid.mem_free.1 hx
  have hmin := (hR.core.inHeap d hd).min
  unfold Clear
  rcases tiles_disjoint hR.valid.tiles hd hb with rfl | h | h
  · rcases hb' with hb' | hb'
    · simp [hb'] at hda
    · omega
  · omega
  · omega

/-! ## mm_free -/

theorem mmFree_eq {s s' : Heap} {bp v : Nat} (hv : pack (getSize s.mem (hdrp bp)) 0 = v)
    (hs : put (put s (hdrp bp) v) (ftrp (put s (hdrp bp) v).mem bp) v = s') :
    mmFree s bp = (coalesce s' bp).2 := by
  rw [mmFree, hv, hs]

theorem mmFree_refines (hR : Rep h m₀ s A) (hgap : b.addr = h + 48 → Sealed h m₀)
    (hb : b ∈ A.used) :
    Rep h m₀ (mmFree s b.addr) (A.release b.addr) ∧ (mmFree s b.addr).memBrk = s.memBrk ∧
      Keeps (A.release b.addr).used s.mem (mmFree s b.addr).mem := by
  obtain ⟨hbm, hba⟩ := Layout.mem_used.1 hb
  obtain ⟨l, r, hbs⟩ := List.append_of_mem hbm
  have hvalid := hR.valid.release_valid hb
  have ht := hR.valid.tiles
  have hin := hR.core.inHeap b hbm
  have hf := (hR.fits hbm).release
  have hfree : mmFree s b.addr = (coalesce (setTags s b.release) b.addr).2 := by
    have hv : pack (getSize s.mem (hdrp b.addr)) 0 = tag b.release := by
      rw [getSize_hdrp (hR.fits hbm) (hR.core.tagged b hbm), pack_zero, tag_free rfl,
        Block.release_size]
    have htags := setTags_eq s hf rfl
    rw [Block.release_addr] at htags
    exact mmFree_eq hv htags
  -- the tags of the block now say free
  have hcore : Core h m₀ (setTags s b.release) (l ++ b.release :: r) A.free := by
    rw [hbs] at ht
    obtain ⟨hl, hr⟩ := tiles_around ht
    have hcore := hR.core.retag (c := b.release) hin.release
      (fun c (hc : c ∈ l ++ r) => by
        rw [hbs]
        rcases List.mem_append.1 hc with hc | hc <;> simp [hc])
      (fun c hc => (List.mem_append.1 hc).imp (hl c) (hr c))
      (hR.clear_of_mem hbm (Nat.le_refl _) (Nat.le_refl _) (.inl hba))
    refine hcore.subset fun c hc => ?_
    simpa [or_comm, or_assoc, or_left_comm] using hc
  have ht' : Tiles (h + 48) (l ++ b.release :: r) s.memBrk := by
    rw [hbs, tiles_split] at ht
    exact tiles_split.2 ht
  have hmerged := coalesce_refines hcore ht' rfl (hR.valid.perm_of_alloc hbs hba) fun hl => by
    rw [hl] at ht'
    have haddr : b.addr = h + 48 := ht'.1
    rw [Block.release_addr, haddr]
    exact hgap haddr _ hcore.still
  rw [Block.release_addr] at hmerged
  have hw : Within h (freeBlocks (l ++ b.release :: r)) s.mem (setTags s b.release).mem :=
    within_setTags s hf fun q hq => hq b.release (mem_freeBlocks.2 ⟨by simp, rfl⟩)
  rw [hfree]
  have hrel := hR.valid.release_eq hbs
  have hbrk := hmerged.brk
  rw [setTags_memBrk] at hbrk
  refine ⟨⟨?_, ?_⟩, hbrk, ?_⟩
  · rw [hrel]
    exact hmerged.core
  · rw [hbrk]
    exact hvalid
  · refine keeps_freeBlocks ht' (Nat.le_refl _) (fun c hc => ?_) (hw.trans hmerged.within)
    obtain ⟨hcu, hne⟩ := (hR.valid.mem_used_release hb c).1 hc
    obtain ⟨hcm, hca⟩ := Layout.mem_used.1 hcu
    rw [hbs] at hcm
    refine ⟨?_, hca⟩
    rcases List.mem_append.1 hcm with hcm | hcm
    · simp [hcm]
    · rcases List.mem_cons.1 hcm with rfl | hcm
      · exact absurd rfl hne
      · simp [hcm]

/-! ## place -/

/-- Cells of the free list lie in free blocks. -/
theorem cells (hR : Rep h m₀ s A) {x : Nat} (hx : x ∈ A.free) :
    ∃ d ∈ freeBlocks A.blocks, d.addr ≤ x ∧ x + 16 ≤ d.addr + d.size := by
  obtain ⟨d, hd, hda, rfl⟩ := hR.valid.mem_free.1 hx
  have := (hR.core.inHeap d hd).min
  exact ⟨d, mem_freeBlocks.2 ⟨hd, hda⟩, Nat.le_refl _, by omega⟩

/-- The first steps of `place`: `n` bytes at the start of the free block `b` are
    tagged as in use, and `b` goes off the free list. -/
theorem take {l r : List Block} {n : Nat} (hR : Rep h m₀ s A) (hbs : A.blocks = l ++ b :: r)
    (hba : b.alloc = false) (h24 : 24 ≤ n) (h8 : n % 8 = 0) (hle : n ≤ b.size) :
    let c : Block := ⟨b.addr, n, true⟩
    Core h m₀ (removeBlock (setTags s c) b.addr) (c :: (l ++ r)) (A.free.erase b.addr) ∧
      Within h (freeBlocks A.blocks) s.mem (removeBlock (setTags s c) b.addr).mem := by
  intro c
  have hbm : b ∈ A.blocks := by simp [hbs]
  have hbin := hR.core.inHeap b hbm
  have hlo := hbin.lo
  have hhi := hbin.hi
  have hin : InHeap h s.memBrk c := ⟨hlo, by simp only [c]; omega, h24, h8⟩
  have ht := hR.valid.tiles
  rw [hbs] at ht
  obtain ⟨hl, hr⟩ := tiles_around ht
  have hbfl : b.addr ∈ A.free := hR.valid.mem_free.2 ⟨b, hbm, hba, rfl⟩
  have hcore : Core h m₀ (setTags s c) (c :: (l ++ r)) A.free := by
    refine hR.core.retag hin (fun d hd => ?_) (fun d hd => ?_)
      (hR.clear_of_mem hbm (Nat.le_refl _) (by simp only [c]; omega) (.inr ⟨rfl, h24⟩))
    · rw [hbs]
      rcases List.mem_append.1 hd with hd | hd <;> simp [hd]
    · simp only [c]
      rcases List.mem_append.1 hd with hd | hd
      · exact .inl (hl d hd)
      · have := hr d hd
        exact .inr (by omega)
  have hw : Within h (freeBlocks A.blocks) s.mem (setTags s c).mem := by
    refine within_setTags s (hin.fits hR.core.arena.brk_lt) fun q hq => ?_
    have := hq b (mem_freeBlocks.2 ⟨hbm, hba⟩)
    simp only [c]
    omega
  refine ⟨hcore.remove hbfl, hw.trans ?_⟩
  exact within_of_sameOff (freeRing_removeBlock hcore.ring hbfl).2 fun x hx => hR.cells hx

section Place

variable {l r : List Block} {asize : Nat}

theorem place_whole (hR : Rep h m₀ s A) (hbm : b ∈ A.blocks) (hle : asize ≤ b.size)
    (hrem : ¬ minBlocksize ≤ b.size - asize) :
    place s b.addr asize = removeBlock (setTags s ⟨b.addr, b.size, true⟩) b.addr := by
  have hf := hR.fits hbm
  have hsize := getSize_hdrp hf (hR.core.tagged b hbm)
  have htags := setTags_eq s (c := ⟨b.addr, b.size, true⟩) ⟨hf.low, hf.high, hf.min, hf.dword⟩
    ((pack_one hf.dword).trans (tag_alloc (b := ⟨b.addr, b.size, true⟩) rfl).symm)
  unfold place
  dsimp only at htags ⊢
  rw [hsize, subU_eq hle, if_neg hrem, htags]

theorem place_split (hR : Rep h m₀ s A) (hbs : A.blocks = l ++ b :: r) (hba : b.alloc = false)
    (h24 : 24 ≤ asize) (h8 : asize % 8 = 0) (hle : asize ≤ b.size)
    (hrem : minBlocksize ≤ b.size - asize) :
    place s b.addr asize = (coalesce (setTags (removeBlock (setTags s ⟨b.addr, asize, true⟩) b.addr)
      ⟨b.addr + asize, b.size - asize, false⟩) (b.addr + asize)).2 := by
  have hbm : b ∈ A.blocks := by simp [hbs]
  have hf := hR.fits hbm
  have hhigh := hf.high
  have hdw := hf.dword
  have hrem' : 24 ≤ b.size - asize := hrem
  have hfc : Fits ⟨b.addr, asize, true⟩ := ⟨hf.low, by dsimp only; omega, h24, h8⟩
  have hfd : Fits ⟨b.addr + asize, b.size - asize, false⟩ :=
    ⟨by dsimp only; omega, by dsimp only; omega, hrem', by dsimp only; omega⟩
  have hsize := getSize_hdrp hf (hR.core.tagged b hbm)
  have htags := setTags_eq s hfc ((pack_one h8).trans (tag_alloc (b := ⟨b.addr, asize, true⟩) rfl).symm)
  obtain ⟨hcore, -⟩ := hR.take hbs hba h24 h8 hle
  have hright := rightBlkp_eq hfc (hcore.tagged ⟨b.addr, asize, true⟩ List.mem_cons_self)
  have htags₂ := setTags_eq (removeBlock (setTags s ⟨b.addr, asize, true⟩) b.addr) hfd
    ((pack_zero _).trans (tag_free (b := ⟨b.addr + asize, b.size - asize, false⟩) rfl).symm)
  unfold place
  dsimp only at htags htags₂ hright ⊢
  rw [hsize, subU_eq hle, if_pos hrem, htags, hright, htags₂]

/-- The last steps of a split: the rest of the block is tagged free and merged. -/
theorem rest_merged {s₁ : Heap} {fl : List Nat}
    (hcore : Core h m₀ s₁ (⟨b.addr, asize, true⟩ :: (l ++ r)) fl)
    (ht : Tiles (h + 48) (l ++ b :: r) s₁.memBrk) (h8 : asize % 8 = 0) (hle : asize ≤ b.size)
    (hrem : 24 ≤ b.size - asize)
    (hdw : b.size % 8 = 0) (hperm : fl.Perm (Layout.freeAddrs (l ++ r))) :
    let c : Block := ⟨b.addr, asize, true⟩
    let d : Block := ⟨b.addr + asize, b.size - asize, false⟩
    Tiles (h + 48) (l ++ [c] ++ d :: r) s₁.memBrk ∧
      Merged h m₀ (setTags s₁ d) (l ++ [c]) d r fl (coalesce (setTags s₁ d) d.addr) ∧
      Within h (freeBlocks (l ++ [c] ++ d :: r)) s₁.mem (setTags s₁ d).mem := by
  intro c d
  obtain ⟨hl, hr⟩ := tiles_around ht
  have hlo := (hcore.inHeap c List.mem_cons_self).lo
  rw [tiles_split] at ht
  have hhi := tiles_le ht.2
  have hin : InHeap h s₁.memBrk d :=
    ⟨by simp only [c, d] at *; omega, by simp only [d]; omega, hrem, by simp only [d]; omega⟩
  have hclear : ∀ x ∈ fl, Clear d x := by
    intro x hx
    obtain ⟨e, he, -, rfl⟩ := Layout.mem_freeAddrs.1 (hperm.mem_iff.1 hx)
    have hmin := (hcore.inHeap e (List.mem_cons_of_mem _ he)).min
    simp only [Clear, d]
    rcases List.mem_append.1 he with he | he
    · have := hl e he
      omega
    · have := hr e he
      omega
  have htags : Core h m₀ (setTags s₁ d) (d :: c :: (l ++ r)) fl := by
    refine hcore.retag hin (fun e he => he) (fun e he => ?_) hclear
    simp only [d]
    rcases List.mem_cons.1 he with rfl | he
    · exact .inl (Nat.le_refl _)
    · rcases List.mem_append.1 he with he | he
      · have := hl e he
        exact .inl (by omega)
      · have := hr e he
        exact .inr (by omega)
  have hcore' : Core h m₀ (setTags s₁ d) (l ++ [c] ++ d :: r) fl := by
    refine htags.subset fun e he => ?_
    simpa [or_comm, or_assoc, or_left_comm] using he
  have ht' : Tiles (h + 48) (l ++ [c] ++ d :: r) s₁.memBrk := by
    rw [List.append_assoc, List.singleton_append, tiles_split]
    refine ⟨ht.1, rfl, ?_⟩
    rw [Nat.add_assoc, Nat.add_sub_cancel' hle]
    exact ht.2
  refine ⟨ht', coalesce_refines hcore' ht' rfl ?_ (by simp), ?_⟩
  · rwa [Layout.freeAddrs_append, Layout.freeAddrs_append, Layout.freeAddrs_cons_alloc _ rfl,
      ← Layout.freeAddrs_append, List.append_nil, ← Layout.freeAddrs_append]
  · exact within_setTags s₁ (hin.fits hcore.arena.brk_lt) fun q hq =>
      hq d (mem_freeBlocks.2 ⟨by simp, rfl⟩)

/-- `place` refines the abstract operation. -/
theorem place_refines (hR : Rep h m₀ s A) (hbm : b ∈ A.blocks) (hba : b.alloc = false)
    (h24 : 24 ≤ asize) (h8 : asize % 8 = 0) (hle : asize ≤ b.size) :
    Rep h m₀ (place s b.addr asize) (A.place b.addr asize) ∧
      (place s b.addr asize).memBrk = s.memBrk ∧ Keeps A.used s.mem (place s b.addr asize).mem := by
  obtain ⟨l, r, hbs⟩ := List.append_of_mem hbm
  have hvalid := hR.valid.place_valid hbs hba h24 h8 hle
  have ht := hR.valid.tiles
  have hdw := (hR.fits hbm).dword
  have hkeep : ∀ c ∈ A.used, c ∈ A.blocks ∧ c.alloc = true := fun c hc => Layout.mem_used.1 hc
  by_cases hrem : minBlocksize ≤ b.size - asize
  · obtain ⟨hcore, hw⟩ := hR.take hbs hba h24 h8 hle
    rw [hR.place_split hbs hba h24 h8 hle hrem]
    generalize hs₁ : removeBlock (setTags s ⟨b.addr, asize, true⟩) b.addr = s₁ at hcore hw ⊢
    have hbrk₁ : s₁.memBrk = s.memBrk := by rw [← hs₁, removeBlock_memBrk, setTags_memBrk]
    obtain ⟨ht₁, hmerged, hw₂⟩ := rest_merged hcore (by rw [hbrk₁, ← hbs]; exact ht) h8 hle hrem
      hdw (hR.valid.erase_perm hbs hba)
    have hbrk := hmerged.brk
    rw [setTags_memBrk, hbrk₁] at hbrk
    refine ⟨⟨?_, by rw [hbrk]; exact hvalid⟩, hbrk, ?_⟩
    · rw [hR.valid.place_split hbs hrem]
      exact hmerged.core
    · -- the blocks in use are blocks of both tilings
      refine (keeps_freeBlocks ht (Nat.le_refl _) hkeep hw).trans
        (keeps_freeBlocks ht₁ (Nat.le_refl _) (fun c hc => ?_) (hw₂.trans hmerged.within))
      obtain ⟨hc, hca⟩ := hkeep c hc
      rw [hbs] at hc
      refine ⟨?_, hca⟩
      rcases List.mem_append.1 hc with hc | hc
      · simp [hc]
      · rcases List.mem_cons.1 hc with rfl | hc
        · simp [hba] at hca
        · simp [hc]
  · obtain ⟨hcore, hw⟩ := hR.take hbs hba (hR.fits hbm).min hdw (Nat.le_refl _)
    rw [hR.place_whole hbm hle hrem]
    have hbrk : (removeBlock (setTags s ⟨b.addr, b.size, true⟩) b.addr).memBrk = s.memBrk := by
      rw [removeBlock_memBrk, setTags_memBrk]
    refine ⟨⟨?_, by rw [hbrk]; exact hvalid⟩, hbrk, keeps_freeBlocks ht (Nat.le_refl _) hkeep hw⟩
    rw [hR.valid.place_whole hbs hrem]
    refine hcore.subset fun c hc => ?_
    simpa [or_comm, or_assoc, or_left_comm] using hc

end Place

/-! ## extend_heap -/

/-- `mem_sbrk` refuses a size that is negative as an `int`, or does not fit. -/
theorem memSbrk_refuses {e : Nat} (he : e < addrSpace)
    (hno : 2147483648 ≤ e ∨ s.memBrk + e < addrSpace ∧ s.memMaxAddr < s.memBrk + e) :
    memSbrk s (sizeToInt e) = .ok (minusOne, s) := by
  unfold memSbrk sizeToInt addrSpace at *
  by_cases h31 : e < 2147483648
  · rw [if_pos h31, if_neg (by omega), if_neg (by omega), if_pos (by omega)]
  · rw [if_neg h31, if_pos (by omega)]

theorem memSbrk_grows {e : Nat} (he : e < 2147483648) (hmax : s.memBrk + e ≤ s.memMaxAddr)
    (hsp : s.memBrk + e < addrSpace) :
    memSbrk s (sizeToInt e) = .ok (s.memBrk, { s with memBrk := s.memBrk + e }) := by
  unfold memSbrk sizeToInt
  rw [if_pos he, if_neg (by omega), if_neg (by omega), if_neg (by omega)]
  rfl

theorem extendHeap_refuses {e : Nat} (h8 : e % 8 = 0) (he : e < addrSpace)
    (hno : 2147483648 ≤ e ∨ s.memBrk + e < addrSpace ∧ s.memMaxAddr < s.memBrk + e) :
    extendHeap s (e / 4) = .ok (0, s) := by
  have hsize : e / 4 * wsize % addrSpace = e := by
    unfold wsize
    rw [show e / 4 * 4 = e by omega, Nat.mod_eq_of_lt he]
  unfold extendHeap
  rw [if_neg (by omega), hsize]
  dsimp only
  rw [memSbrk_refuses he hno]
  rfl

theorem extendHeap_wraps {e : Nat} (h8 : e % 8 = 0) (he : e < 2147483648)
    (hw : addrSpace ≤ s.memBrk + e) : extendHeap s (e / 4) = .error .wrap := by
  have hsize : e / 4 * wsize % addrSpace = e := by
    unfold wsize addrSpace
    omega
  have hsbrk : memSbrk s (sizeToInt e) = .error .wrap := by
    unfold memSbrk sizeToInt
    rw [if_pos he, if_neg (by omega), if_pos (by omega)]
  unfold extendHeap
  rw [if_neg (by omega), hsize]
  dsimp only
  rw [hsbrk]
  rfl

theorem extendHeap_eq {e : Nat} (h24 : 24 ≤ e) (h8 : e % 8 = 0) (he : e < 2147483648)
    (hlo : 8 ≤ s.memBrk) (hdw : s.memBrk % 8 = 0) (hmax : s.memBrk + e ≤ s.memMaxAddr)
    (hsp : s.memBrk + e < addrSpace) :
    extendHeap s (e / 4) = .ok (coalesce (put (setTags { s with memBrk := s.memBrk + e }
      ⟨s.memBrk, e, false⟩) (s.memBrk + e - 4) 1) s.memBrk) := by
  have hsize : e / 4 * wsize % addrSpace = e := by
    unfold wsize addrSpace
    omega
  have hne : ¬ sizeToInt s.memBrk = -1 := by
    unfold sizeToInt
    unfold addrSpace at *
    split <;> omega
  have hf : Fits ⟨s.memBrk, e, false⟩ := ⟨hlo, hsp, h24, h8⟩
  have htags := setTags_eq { s with memBrk := s.memBrk + e } hf (pack_zero e)
  have hright := rightBlkp_eq hf (tagged_put (m := s.mem) hf)
  have hhdrp : hdrp (s.memBrk + e) = s.memBrk + e - 4 := hdrp_eq (by omega)
  unfold extendHeap
  rw [if_neg (by omega), hsize]
  dsimp only at htags hright ⊢
  rw [memSbrk_grows he hmax hsp]
  simp only [bind, Except.bind, pure, Except.pure]
  rw [if_neg hne, htags, setTags_mem]
  dsimp only
  rw [hright, hhdrp]
  rfl

/-- `extend_heap` refines the abstract operation. The epilogue word is written before
    it is read, so `s` may differ there from the represented `s₀`. -/
theorem extendHeap_refines {s₀ : Heap} {e : Nat} (hR : Rep h m₀ s₀ A) (hbrk : s.memBrk = s₀.memBrk)
    (hs : Core.Raised s₀ { s with memBrk := s.memBrk + e } e) (h24 : 24 ≤ e) (h8 : e % 8 = 0)
    (he : e < 2147483648) (hmax : s.memBrk + e ≤ h + maxHeap)
    (hgap : A.blocks = [] → leftAlloc (put (setTags { s with memBrk := s.memBrk + e }
      ⟨s.memBrk, e, false⟩) (s.memBrk + e - 4) 1).mem s.memBrk) :
    ∃ s', extendHeap s (e / 4) = .ok ((A.extend s.memBrk e).1, s') ∧
      Rep h m₀ s' (A.extend s.memBrk e).2 ∧ s'.memBrk = s.memBrk + e ∧ Keeps A.used s₀.mem s'.mem := by
  have ha := hR.core.arena
  have hlo := ha.brkLo
  have hspace := ha.space
  have hval := hR.valid
  have hcode := extendHeap_eq (s := s) h24 h8 he (by omega) (by rw [hbrk]; exact ha.brkDword)
    (by rw [hs.memMaxAddr.trans ha.hi]; exact hmax) (by omega)
  have hgrow := hR.core.grow hs h24 h8 (by omega)
  have hbyte := fun q => Core.grow_byte hs h24 (q := q)
  have hbrk₁ : (put (setTags { s with memBrk := s.memBrk + e } ⟨s₀.memBrk, e, false⟩)
    (s₀.memBrk + e - 4) 1).memBrk = s₀.memBrk + e := by rw [put_memBrk, setTags_memBrk, hs.memBrk]
  rw [hbrk] at hcode hgrow hbyte hbrk₁ hgap ⊢
  generalize put (setTags { s with memBrk := s₀.memBrk + e } ⟨s₀.memBrk, e, false⟩)
    (s₀.memBrk + e - 4) 1 = s₁ at hcode hgrow hbyte hbrk₁ hgap
  -- the heap with the new block behind the old ones
  have ht : Tiles (h + 48) (A.blocks ++ [⟨s₀.memBrk, e, false⟩]) s₁.memBrk := by
    rw [hbrk₁, tiles_split]
    exact ⟨hval.tiles, rfl⟩
  have hcore : Core h m₀ s₁ (A.blocks ++ [⟨s₀.memBrk, e, false⟩]) A.free := by
    refine hgrow.subset fun c hc => ?_
    simpa [or_comm] using hc
  have hmerged := coalesce_refines hcore ht rfl (by rw [List.append_nil]; exact hval.perm) hgap
  dsimp only at hmerged
  have hbrk₂ := hmerged.brk.trans hbrk₁
  refine ⟨_, ?_, ⟨hmerged.core, ?_⟩, hbrk₂, ?_⟩
  · rw [hcode]
    exact congrArg _ (Prod.ext hmerged.ptr rfl)
  · rw [hbrk₂]
    exact hval.extend_valid h24 h8
  · have hkeep₁ : Keeps A.used s₀.mem s₁.mem := by
      intro b hb q h1 h2
      have := (tiles_mem hval.tiles (Layout.mem_used.1 hb).1).2
      exact hbyte q (by omega)
    refine hkeep₁.trans (keeps_freeBlocks ht (Nat.le_refl _) (fun c hc => ?_) hmerged.within)
    obtain ⟨hc, hca⟩ := Layout.mem_used.1 hc
    exact ⟨List.mem_append_left _ hc, hca⟩

/-! ## find_freeblock -/

/-- The prologue ends every walk. -/
theorem prologue_alloc (hR : Rep h m₀ s A) : getAlloc s.mem (hdrp (h + 8)) = 1 := by
  rw [hdrp_eq (by omega), getAlloc_eq, show h + 8 - 4 = h + 4 by omega, hR.core.prologue]

/-- PREV_BLKP of a member of the free list is the next member, or the prologue. -/
theorem prevBlkp_mem (hR : Rep h m₀ s A) {pre rest : List Nat} {x : Nat}
    (hfl : A.free = pre ++ x :: rest) : prevBlkp s.mem x = rest.headD (h + 8) := by
  have hx : x ∈ A.free ++ [h + 8] := by simp [hfl]
  have hr := hR.core.ring.range x hx
  have hchain := hR.core.ring.chain
  rw [hfl, List.append_assoc, List.cons_append] at hchain
  rw [prevBlkp_eq _ (by omega)]
  cases rest with
  | nil => exact (List.isChain_append_cons_cons.1 hchain).2.1.1
  | cons y r => exact (List.isChain_append_cons_cons.1 hchain).2.1.1

theorem findLoop_alloc {m : Mem} {asize n bp : Nat} (h : getAlloc m (hdrp bp) ≠ 0) :
    findLoop m asize (n + 1) bp = .ok 0 := if_neg h

theorem findLoop_fit {m : Mem} {asize n bp : Nat} (h : getAlloc m (hdrp bp) = 0)
    (hle : asize ≤ getSize m (hdrp bp)) : findLoop m asize (n + 1) bp = .ok bp :=
  (if_pos h).trans (if_pos hle)

theorem findLoop_skip {m : Mem} {asize n bp : Nat} (h : getAlloc m (hdrp bp) = 0)
    (hle : ¬ asize ≤ getSize m (hdrp bp)) :
    findLoop m asize (n + 1) bp = findLoop m asize n (prevBlkp m bp) :=
  (if_pos h).trans (if_neg hle)

/-- The walk from any point of the free list is a search of the rest. -/
theorem findLoop_eq (hR : Rep h m₀ s A) (asize : Nat) {n : Nat} {pre rest : List Nat}
    (hfl : A.free = pre ++ rest) (hn : rest.length < n) :
    findLoop s.mem asize n (rest.headD (h + 8)) =
      .ok ((rest.find? fun x => A.blocks.any fun b => b.addr = x ∧ asize ≤ b.size).getD 0) := by
  induction rest generalizing n pre with
  | nil =>
    obtain ⟨n, rfl⟩ := Nat.exists_eq_add_of_lt hn
    exact findLoop_alloc (by simp [hR.prologue_alloc])
  | cons x rest ih =>
    obtain ⟨n, rfl⟩ := Nat.exists_eq_add_of_lt hn
    have hx : x ∈ A.free := by simp [hfl]
    obtain ⟨b, hb, hba, hbx⟩ := hR.valid.mem_free.1 hx
    have hf := hR.fits hb
    have ht := hR.core.tagged b hb
    have halloc : getAlloc s.mem (hdrp x) = 0 := by
      rw [← hbx, getAlloc_hdrp hf ht, hba]
      rfl
    have hsize : getSize s.mem (hdrp x) = b.size := by rw [← hbx, getSize_hdrp hf ht]
    have hany : (A.blocks.any fun c => c.addr = x ∧ asize ≤ c.size) = decide (asize ≤ b.size) := by
      rw [Bool.eq_iff_iff]
      simp only [List.any_eq_true, decide_eq_true_eq]
      constructor
      · rintro ⟨c, hc, hcx, hle⟩
        rwa [hR.valid.addr_inj hb hc (hbx.trans hcx.symm)]
      · exact fun hle => ⟨b, hb, hbx, hle⟩
    rw [List.find?_cons, hany, List.headD_cons]
    by_cases hle : asize ≤ b.size
    · rw [findLoop_fit halloc (by rwa [hsize]), decide_eq_true hle]
      rfl
    · rw [findLoop_skip halloc (by rwa [hsize]), decide_eq_false hle, hR.prevBlkp_mem hfl]
      exact ih (show A.free = (pre ++ [x]) ++ _ by rw [hfl]; simp)
        (by simp only [List.length_cons]; omega)

/-- The free list is shorter than the address space. -/
theorem free_length (hR : Rep h m₀ s A) : A.free.length < addrSpace := by
  have hnd := hR.core.ring.nodup
  have hsub : A.free ++ [h + 8] ⊆ List.range addrSpace := by
    intro x hx
    have := hR.core.ring.range x hx
    exact List.mem_range.2 (by omega)
  have hlen := (List.Nodup.subperm hnd hsub).length_le
  rw [List.length_append, List.length_range] at hlen
  exact hlen

/-- `find_freeblock` ends, with the first block that is large enough, or NULL. -/
theorem findFreeblock_eq (hR : Rep h m₀ s A) (asize : Nat) :
    findFreeblock s asize = .ok ((A.fit asize).getD 0) := by
  unfold findFreeblock
  rw [hR.core.ring.first]
  exact hR.findLoop_eq asize (show A.free = [] ++ A.free from rfl) hR.free_length

/-! ## mm_malloc -/

section Malloc

variable {size : Nat} (hR : Rep h m₀ s A) (hpos : 0 < size) (hsize : size < addrSpace)
include hR hpos hsize

/-- The heap would have to grow past the address space: `mem_sbrk` adds without a check. -/
theorem mmMalloc_wraps (hw : A.MallocWraps s.memBrk size) : mmMalloc s size = .error .wrap := by
  have hn := newsize_bounds hsize
  have hex := extendsize_eq size
  obtain ⟨hfit, he, hsp⟩ := hw
  have hcode : extendHeap s (extendsize size / wsize) = .error .wrap :=
    extendHeap_wraps (by omega) he hsp
  unfold mmMalloc
  rw [if_neg (by omega), hR.findFreeblock_eq, hfit]
  simp only [Option.getD_none, bind, Except.bind]
  rw [if_neg (by simp), hcode]

/-- `mm_malloc` refines the abstract operation. -/
theorem mmMalloc_refines (hgap : A.blocks = [] → Sealed h m₀)
    (hw : ¬ A.MallocWraps s.memBrk size) :
    ∃ s', mmMalloc s size = .ok ((A.malloc s.memBrk (h + maxHeap) size).1, s') ∧
      Rep h m₀ s' (A.malloc s.memBrk (h + maxHeap) size).2 ∧
      s'.memBrk = A.mallocBrk s.memBrk (h + maxHeap) size ∧ Keeps A.used s.mem s'.mem := by
  have hn := newsize_bounds hsize
  have hex := extendsize_eq size
  have ha := hR.core.arena
  have hlo := ha.brkLo
  unfold mmMalloc
  rw [if_neg (by omega), hR.findFreeblock_eq]
  simp only [bind, Except.bind, pure, Except.pure]
  cases hfit : A.fit (newsize size) with
  | some p =>
    obtain ⟨b, hb, rfl, hba, hle⟩ := hR.valid.fit_some hfit
    obtain ⟨hR', hbrk, hkeep⟩ := hR.place_refines hb hba hn.1 hn.2.1 hle
    have hb0 : b.addr ≠ 0 := by
      have := (hR.core.inHeap b hb).lo
      omega
    simp only [Layout.malloc, Layout.mallocBrk, hfit, Option.getD_some]
    refine ⟨place s b.addr (newsize size), if_pos hb0, hR', ?_, hkeep⟩
    rw [hbrk]
    simp
  | none =>
    simp only [Layout.malloc, Layout.mallocBrk, hfit, Option.getD_none]
    rw [if_neg (by simp)]
    by_cases hg : Layout.Grows s.memBrk (h + maxHeap) size
    · -- the heap grows, and the request goes into the new block
      have hs : Core.Raised s { s with memBrk := s.memBrk + extendsize size } (extendsize size) :=
        ⟨rfl, rfl, rfl, rfl, fun _ _ => rfl⟩
      obtain ⟨s₁, hcode, hR₁, hbrk₁, hkeep₁⟩ :=
        hR.extendHeap_refines rfl hs (by omega) (by omega) hg.1 hg.2 fun hnil => by
          have hbrk : s.memBrk = h + 48 := by
            have ht := hR.valid.tiles
            rw [hnil] at ht
            exact ht.symm
          rw [hbrk]
          have hstill := Core.grow_still hs (by omega) hlo hg.2
          rw [hbrk] at hstill
          exact hgap hnil _ (hR.core.still.trans hstill)
      obtain ⟨b, hb, hbp, hba, hle⟩ := Layout.coalesce_mem (l := A.blocks) (r := [])
        (b := ⟨s.memBrk, extendsize size, false⟩) A.free rfl
      have hle' : newsize size ≤ b.size := by
        dsimp only at hle
        omega
      obtain ⟨hR', hbrk, hkeep⟩ := hR₁.place_refines hb hba hn.1 hn.2.1 hle'
      have hb0 : b.addr ≠ 0 := by
        have := (hR₁.core.inHeap b hb).lo
        omega
      have hbp' : (A.extend s.memBrk (extendsize size)).1 = b.addr := hbp.symm
      rw [hR.valid.extend_used] at hkeep
      rw [show extendsize size / wsize = extendsize size / 4 from rfl, hcode]
      simp only [hbp', if_pos hg]
      refine ⟨place s₁ b.addr (newsize size), if_neg hb0, hR', ?_, hkeep₁.trans hkeep⟩
      rw [hbrk, hbrk₁, if_pos ⟨trivial, hg⟩]
    · have hcode : extendHeap s (extendsize size / wsize) = .ok (0, s) := by
        have hw' : ¬ (extendsize size < 2147483648 ∧ addrSpace ≤ s.memBrk + extendsize size) :=
          fun h => hw ⟨hfit, h⟩
        unfold Layout.Grows at hg
        refine extendHeap_refuses (by omega) ?_ ?_
        · unfold addrSpace at *
          omega
        · rw [ha.hi]
          omega
      rw [hcode, if_neg hg]
      refine ⟨s, rfl, hR, ?_, fun _ _ _ _ _ => rfl⟩
      rw [if_neg fun h => hg h.2]

end Malloc

/-! ## mm_init -/

/-- The words `mm_init` writes before it extends the heap. -/
def prologueMem (m : Mem) (h : Nat) : Mem :=
  putWord (putWord (putWord (putWord (putWord (putWord m h 0) (h + 4) 25) (h + 8) 0) (h + 12) 0)
    (h + 24) 25) (h + 28) 1

theorem prologueMem_get (m : Mem) {h p : Nat} (hp : h + 32 ≤ p) :
    get (prologueMem m h) p = get m p := by
  unfold prologueMem
  rw [get_putWord_ne _ _ (by omega), get_putWord_ne _ _ (by omega), get_putWord_ne _ _ (by omega),
    get_putWord_ne _ _ (by omega), get_putWord_ne _ _ (by omega), get_putWord_ne _ _ (by omega)]

/-- `mm_init` on an empty heap: the prologue, then `extend_heap`. -/
theorem mmInit_eq (h1 : s.memBrk = h) (h2 : s.memMaxAddr = h + maxHeap) (hpos : 0 < h)
    (hspace : h + maxHeap < addrSpace) :
    mmInit s = (extendHeap ⟨prologueMem s.mem h, s.memStartBrk, h + 48, s.memMaxAddr, h, h + 8⟩
      (32 / 4)).map fun out => (if out.1 = 0 then -1 else 0, out.2) := by
  have hspace' : h + 20971520 < addrSpace := hspace
  have hsbrk : memSbrk s (2 * minBlocksize) = .ok (h, { s with memBrk := h + 48 }) := by
    have htop : s.memMaxAddr = h + 20971520 := h2
    unfold memSbrk minBlocksize
    rw [if_neg (by omega), if_neg (by omega), if_neg (by omega), h1]
    rfl
  have e4 : addU h wsize = h + 4 := addU_eq (by unfold wsize; omega)
  have e8 : addU h dsize = h + 8 := addU_eq (by unfold dsize; omega)
  have e12 : addU (h + 8) wsize = h + 12 := addU_eq (by unfold wsize; omega)
  have e24 : addU h minBlocksize = h + 24 := addU_eq (by unfold minBlocksize; omega)
  have e28 : addU (h + 4) minBlocksize = h + 28 := addU_eq (by unfold minBlocksize; omega)
  unfold mmInit
  rw [hsbrk]
  simp only [bind, Except.bind, pure, Except.pure]
  rw [if_neg (by omega), e4, e8, e12, e24, e28]
  show (extendHeap ⟨prologueMem s.mem h, s.memStartBrk, h + 48, s.memMaxAddr, h, h + 8⟩
    chunkWords).bind _ = _
  rw [show chunkWords = 32 / 4 from rfl]
  cases extendHeap ⟨prologueMem s.mem h, s.memStartBrk, h + 48, s.memMaxAddr, h, h + 8⟩ (32 / 4) with
  | error f => rfl
  | ok out =>
    by_cases hout : out.1 = 0
    · simp [Except.bind, Except.map, hout]
    · simp [Except.bind, Except.map, hout]

/-- The heap behind the prologue, once its epilogue is written. -/
theorem prologue_core (h0 : s.memStartBrk = h) (h1 : s.memBrk = h + 48)
    (h2 : s.memMaxAddr = h + maxHeap) (hstart : s.start = h + 8) (hpos : 0 < h) (hdw : h % 8 = 0)
    (hspace : h + maxHeap < addrSpace) {m : Mem}
    (hm : s.mem = putWord (prologueMem m h) (h + 44) 1) : Core h (prologueMem m h) s [] [] := by
  have hspace' : h + 20971520 < addrSpace := hspace
  have hmax : 48 ≤ maxHeap := by decide
  refine ⟨⟨h0, h2, hpos, hdw, hspace, ?_, ?_, ?_⟩, ?_, fun q hq => ?_, ?_, ?_, ?_, ?_, ?_,
    ⟨hstart, ?_, ?_, ?_, ?_⟩⟩
  · omega
  · rw [h1]
    exact Nat.add_le_add_left (by decide) h
  · omega
  · rw [hm, get_putWord_ne _ _ (by omega)]
    unfold prologueMem
    rw [get_putWord_ne _ _ (by omega), get_putWord_ne _ _ (by omega), get_putWord_ne _ _ (by omega),
      get_putWord_ne _ _ (by omega), get_putWord_same _ _ (by decide)]
  · rw [hm, putWord_byte _ _ (by omega)]
  · rw [hm, h1]
    exact get_putWord_same _ _ (by decide)
  · simp
  · simp
  · simp
  · simp
  · rw [hm, hstart, get_putWord_ne _ _ (by omega)]
    unfold prologueMem
    rw [get_putWord_ne _ _ (by omega), get_putWord_ne _ _ (by omega), get_putWord_ne _ _ (by omega),
      get_putWord_same _ _ (by decide)]
  · simp
  · simp
  · intro x hx
    rw [List.nil_append, List.mem_singleton] at hx
    omega

/-- A gap word of size zero seals the heap: LEFT_BLKP of the first block is that block. -/
theorem sealed_of_size {m : Mem} (hgap : getSize m (h + 40) = 0) : Sealed h m := by
  intro m' hs
  refine .inr ?_
  have hp : subU (hdrp (h + 48)) wsize = h + 40 := by
    rw [hdrp_eq (by omega), subU_eq (by unfold wsize; omega)]
    unfold wsize
    omega
  have hget : get m' (h + 40) = get m (h + 40) := get_congr fun q h1 h2 => hs q (by omega)
  unfold leftBlkp
  rw [hp, getSize, hget, ← getSize, hgap]
  exact subU_eq (Nat.zero_le _)

/-- The memory in which `mm_init` coalesces its first block: the prologue, the tags of the
    block and the epilogue are written. -/
def initMem (m : Mem) (h : Nat) : Mem :=
  putWord (putWord (putWord (prologueMem m h) (h + 44) 32) (h + 72) 32) (h + 76) 1

theorem initMem_still (m : Mem) (h : Nat) : Still h (prologueMem m h) (initMem m h) := by
  have hmax : 80 ≤ maxHeap := by decide
  intro q hq
  unfold initMem
  rw [putWord_byte _ _ (by omega), putWord_byte _ _ (by omega), putWord_byte _ _ (by omega)]

/-- `mm_init` on an empty heap leaves the initial layout when it finds no block before the
    first one. -/
theorem mmInit_refines (h0 : s.memStartBrk = h) (h1 : s.memBrk = h)
    (h2 : s.memMaxAddr = h + maxHeap) (hpos : 0 < h) (hdw : h % 8 = 0)
    (hspace : h + maxHeap < addrSpace) (hgap : leftAlloc (initMem s.mem h) (h + 48)) :
    ∃ s', mmInit s = .ok (0, s') ∧ Rep h (prologueMem s.mem h) s' (Layout.initial h) ∧
      s'.memBrk = h + 80 := by
  -- the heap before `extend_heap`, and the same with an epilogue
  let s₁ : Heap := ⟨prologueMem s.mem h, s.memStartBrk, h + 48, s.memMaxAddr, h, h + 8⟩
  let s₀ : Heap := put s₁ (h + 44) 1
  have hcore : Core h (prologueMem s.mem h) s₀ [] [] :=
    prologue_core (s := s₀) h0 rfl h2 rfl hpos hdw hspace rfl
  have hvalid : Layout.Valid (h + 48) (h + 48) ⟨[], []⟩ :=
    ⟨rfl, by simp [Layout.Sized], .nil, .refl _⟩
  have hR : Rep h (prologueMem s.mem h) s₀ ⟨[], []⟩ := ⟨hcore, hvalid⟩
  have hs : Core.Raised s₀ { s₁ with memBrk := s₁.memBrk + 32 } 32 := by
    refine ⟨rfl, rfl, rfl, rfl, fun q hq => (putWord_byte _ _ ?_).symm⟩
    simp only [s₀, s₁, put_memBrk] at hq
    omega
  obtain ⟨s', hcode, hR', hbrk, -⟩ := hR.extendHeap_refines (s := s₁) (e := 32) rfl hs (by decide)
    (by decide) (by decide) (Nat.add_le_add_left (show 80 ≤ maxHeap by decide) h) fun _ => hgap
  refine ⟨s', ?_, hR', hbrk⟩
  rw [mmInit_eq h1 h2 hpos hspace, hcode]
  show Except.ok _ = _
  simp [Layout.extend, Layout.coalesce, Layout.absorbLeft, Layout.absorbRight, s₁]

end Rep

end OsBasics.Malloc
