/-
  `mm_init` on memory that is not clear.

  `mm_init` asks for 48 bytes and writes 32, so the word at `h + 40` keeps what
  it held, and `coalesce` reads it as the footer of a block before the first one.
  `mm_init` itself goes right exactly when that word leads to no free block, and
  no later free of the first block goes wrong when memory is `Closed`: the word
  names no other block, or it leads to a header and a footer in memory that the
  allocator never writes, and the footer says allocated.
-/
import OsBasics.Malloc.Safety

namespace OsBasics.Malloc

open OsBasics.Lib

/-- The word at `p` lies where the allocator never writes and no block lies. -/
def Fixed (h p : Nat) : Prop :=
  p + 4 ≤ h + 8 ∨ h + 12 ≤ p ∧ p + 4 ≤ h + 44 ∨ h + maxHeap ≤ p

/-- What `coalesce` finds before the first block stays allocated: the gap word has size
    zero, or header and footer of the block it leads to are fixed and say so. -/
def Closed (h : Nat) (m : Mem) : Prop :=
  getSize m (h + 40) = 0 ∨ Fixed h (hdrp (leftBlkp m (h + 48))) ∧
    Fixed h (ftrp m (leftBlkp m (h + 48))) ∧ getAlloc m (ftrp m (leftBlkp m (h + 48))) ≠ 0

/-- The heap is empty: `mem_init` or `mem_reset_brk` was called, and memory holds anything. -/
structure Empty (h : Nat) (s : Heap) : Prop where
  lo : s.memStartBrk = h
  brk : s.memBrk = h
  hi : s.memMaxAddr = h + maxHeap
  pos : 0 < h
  dword : h % 8 = 0
  space : h + maxHeap < addrSpace

/-- The heap `mm_init` is to leave: one free block at `h + 48`, which the free list holds. -/
structure InitOk (h : Nat) (s : Heap) : Prop where
  tiles : Tiles (h + 48) (heapBlocks h s) s.memBrk
  tags : ∀ b ∈ heapBlocks h s, get s.mem (ftrp s.mem b.addr) = get s.mem (hdrp b.addr) ∧
    get s.mem (hdrp b.addr) = pack b.size (if b.alloc then 1 else 0)
  single : ∃ n, heapBlocks h s = [⟨h + 48, n, false⟩]
  listed : freeWalk s = [h + 48]

/-- The state `mm_free` passes to `coalesce`: the tags of the block say free. -/
def untagged (s : Heap) (bp : Nat) : Heap :=
  let size := getSize s.mem (hdrp bp)
  let s := put s (hdrp bp) (pack size 0)
  put s (ftrp s.mem bp) (pack size 0)

/-- Whenever a client that starts with `s` frees the first block, `coalesce` takes no block
    before it for free. -/
def FirstAlone (h : Nat) (s : Heap) : Prop :=
  ∀ c, Client.Leads ⟨s, []⟩ c → ∀ k g, c.Holds k g → g.ptr = h + 48 →
    leftAlloc (untagged c.heap (h + 48)).mem (h + 48)

/-! ## The word before the first header -/

section Words

variable {h : Nat} {m m' : Mem}

theorem hdrp_first (h : Nat) : subU (hdrp (h + 48)) wsize = h + 40 := by
  rw [hdrp_eq (by omega), subU_eq (by unfold wsize; omega)]
  unfold wsize
  omega

theorem leftBlkp_first (h : Nat) (m : Mem) :
    leftBlkp m (h + 48) = subU (h + 48) (getSize m (h + 40)) := by
  unfold leftBlkp
  rw [hdrp_first]

theorem Still.get_eq (hs : Still h m m') {p : Nat} (hp : Fixed h p) : get m' p = get m p :=
  get_congr fun q h1 h2 => hs q (by unfold Fixed at hp; omega)

theorem Still.leftBlkp (hs : Still h m m') : leftBlkp m' (h + 48) = leftBlkp m (h + 48) := by
  rw [leftBlkp_first, leftBlkp_first]
  unfold getSize
  rw [hs.get_eq (p := h + 40) (by unfold Fixed; omega)]

/-- The footer of the block before the first one is found through a fixed header. -/
theorem Still.ftrp (hs : Still h m m') (hH : Fixed h (hdrp (Malloc.leftBlkp m (h + 48)))) :
    Malloc.ftrp m' (Malloc.leftBlkp m (h + 48)) = Malloc.ftrp m (Malloc.leftBlkp m (h + 48)) := by
  unfold Malloc.ftrp getSize
  rw [hs.get_eq hH]

theorem leftBlkp_of_zero (hgap : getSize m (h + 40) = 0) : leftBlkp m (h + 48) = h + 48 := by
  rw [leftBlkp_first, hgap]
  exact subU_eq (Nat.zero_le _)

theorem Closed.sealed (hc : Closed h m) : Sealed h m := by
  intro m' hs
  unfold leftAlloc
  rw [hs.leftBlkp]
  rcases hc with hgap | ⟨hH, hF, ha⟩
  · exact .inr (leftBlkp_of_zero hgap)
  · rw [hs.ftrp hH]
    unfold getAlloc at ha ⊢
    rw [hs.get_eq hF]
    exact .inl ha

end Words

/-! ## mm_init -/

namespace Empty

variable {h : Nat} {s : Heap}

theorem memInit {m : Mem} (hpos : 0 < h) (hdw : h % 8 = 0) (hspace : h + maxHeap < addrSpace) :
    Empty h (memInit m h) := ⟨rfl, rfl, rfl, hpos, hdw, hspace⟩

theorem refines (he : Empty h s) (hgap : leftAlloc (Rep.initMem s.mem h) (h + 48)) :
    ∃ s', mmInit s = .ok (0, s') ∧ Rep h (Rep.prologueMem s.mem h) s' (Layout.initial h) ∧
      s'.memBrk = h + 80 :=
  Rep.mmInit_refines he.lo he.brk he.hi he.pos he.dword he.space hgap

/-- When `mm_init` finds a free block before the first one, its list does not start with
    the first block. -/
theorem leftAlloc_of_listed (he : Empty h s) {s' : Heap} (hinit : mmInit s = .ok (0, s'))
    (hlist : freeWalk s' = [h + 48]) : leftAlloc (Rep.initMem s.mem h) (h + 48) := by
  by_contra hL
  have hspace : h + 20971520 < addrSpace := he.space
  have hpos := he.pos
  have hdw := he.dword
  have hmax : s.memMaxAddr = h + 20971520 := he.hi
  -- `extend_heap` coalesces in `initMem`
  have hcode := Rep.extendHeap_eq (s := ⟨Rep.prologueMem s.mem h, s.memStartBrk, h + 48,
    s.memMaxAddr, h, h + 8⟩) (e := 32) (by decide) (by decide) (by decide) (by dsimp only; omega)
    (by dsimp only; omega) (by dsimp only; omega) (by dsimp only; omega)
  generalize hs₁ : put (setTags _ _) _ _ = s₁ at hcode
  have hmem : s₁.mem = Rep.initMem s.mem h := by rw [← hs₁]; rfl
  have hR : rightAlloc s₁.mem (h + 48) := by
    have hsz : getSize s₁.mem (hdrp (h + 48)) = 32 := by
      rw [hdrp_eq (by omega), show h + 48 - 4 = h + 44 by omega, hmem]
      unfold getSize Rep.initMem
      rw [get_putWord_ne _ _ (by omega), get_putWord_ne _ _ (by omega),
        get_putWord_same _ _ (by decide)]
      rfl
    unfold rightAlloc rightBlkp
    rw [hsz, addU_eq (by omega), hdrp_eq (by omega), getAlloc_eq, show h + 48 + 32 - 4 = h + 76 by omega,
      hmem]
    unfold Rep.initMem
    rw [get_putWord_same _ _ (by decide)]
    decide
  rw [← hmem] at hL
  rw [Rep.mmInit_eq he.brk he.hi he.pos he.space, hcode, coalesce_free_closed hL hR] at hinit
  have hstart : leftBlkp s₁.mem (h + 48) = s'.start :=
    congrArg (fun out => out.2.start) (Except.ok.inj hinit)
  -- but a list that is not empty starts at `start`
  have hhead : s'.start = h + 48 := by
    unfold freeWalk addrSpace at hlist
    by_cases ha : getAlloc s'.mem (hdrp s'.start) = 0
    · rw [freeFrom_step ha] at hlist
      exact (List.cons.inj hlist).1
    · rw [freeFrom_stop ha] at hlist
      cases hlist
  exact hL (.inr (hstart.trans hhead))

end Empty

theorem initOk_of_rep {h : Nat} {m₀ : Mem} {s : Heap} (hR : Rep h m₀ s (Layout.initial h)) :
    InitOk h s := by
  have hwf := hR.wellFormed
  refine ⟨hwf.tiles, hwf.footers, ⟨32, ?_⟩, ?_⟩
  · rw [hR.heapBlocks_eq]
    rfl
  · rw [hR.freeWalk_eq]
    rfl

theorem untagged_eq {h : Nat} {m₀ : Mem} {s : Heap} {A : Layout} {b : Block} (hR : Rep h m₀ s A)
    (hb : b ∈ A.blocks) : untagged s b.addr = setTags s b.release := by
  have hf := hR.fits hb
  unfold untagged
  dsimp only
  rw [getSize_hdrp hf (hR.core.tagged b hb), ← Block.release_addr b, ← Block.release_size b,
    pack_zero]
  exact setTags_eq s hf.release (tag_free rfl).symm

/-- A closed heap stays closed whatever its clients do. -/
theorem Empty.firstAlone {h : Nat} {s s' : Heap} (he : Empty h s)
    (hc : Closed h (Rep.prologueMem s.mem h)) (hinit : mmInit s = .ok (0, s')) :
    FirstAlone h s' := by
  rintro c ⟨ops, hl, hrun⟩ k g hk hp
  obtain ⟨s₁, hinit₁, hS⟩ := sim_init he.lo he.brk he.hi he.pos he.dword he.space hc.sealed
  rw [hinit, Except.ok.injEq, Prod.mk.injEq] at hinit₁
  obtain ⟨-, rfl⟩ := hinit₁
  obtain hw | ⟨c', M, hrun', hS'⟩ := hS.run hl
  · rw [hw] at hrun
    cases hrun
  · rw [hrun, Except.ok.injEq] at hrun'
    subst hrun'
    obtain ⟨b, hb, hbp, -⟩ := hS'.holds hk
    have hbm := (Layout.mem_used.1 hb).1
    have hin := hS'.rep.core.inHeap b hbm
    have hlo := hin.lo
    have hhi := hin.hi
    have hmin := hin.min
    have hbrk := hS'.rep.core.arena.brkHi
    rw [← hp, ← hbp, untagged_eq hS'.rep hbm, hbp, hp]
    refine hS'.sealed _ (hS'.rep.core.still.trans fun q hq => ?_)
    rw [setTags_mem, putWord_byte _ _ (by rw [Block.release_addr, Block.release_size]; omega),
      putWord_byte _ _ (by rw [Block.release_addr]; omega)]

/-! ## Which memory does no harm -/

/-- `mm_init` leaves the heap it is to leave exactly when the word before the first header
    leads to no free block; a client never finds one there when that word is `Closed`. -/
theorem init_stale {h : Nat} {s : Heap} (he : Empty h s) :
    ((∃ s', mmInit s = .ok (0, s') ∧ InitOk h s') ↔ leftAlloc (Rep.initMem s.mem h) (h + 48)) ∧
      (Closed h (Rep.prologueMem s.mem h) →
        ∃ s', mmInit s = .ok (0, s') ∧ InitOk h s' ∧ FirstAlone h s') := by
  refine ⟨⟨?_, ?_⟩, fun hc => ?_⟩
  · rintro ⟨s', hinit, hok⟩
    exact he.leftAlloc_of_listed hinit hok.listed
  · intro hgap
    obtain ⟨s', hinit, hR, -⟩ := he.refines hgap
    exact ⟨s', hinit, initOk_of_rep hR⟩
  · obtain ⟨s', hinit, hR, -⟩ := he.refines (hc.sealed _ (Rep.initMem_still s.mem h))
    exact ⟨s', hinit, initOk_of_rep hR, he.firstAlone hc hinit⟩

/-- Memory that is clear everywhere is closed. -/
theorem init_stale_clear :
    Empty 8 (memInit (fun _ => 0) 8) ∧ Closed 8 (Rep.prologueMem (fun _ => 0) 8) ∧
      ∃ s', mmInit (memInit (fun _ => 0) 8) = .ok (0, s') ∧ InitOk 8 s' ∧ FirstAlone 8 s' := by
  have he : Empty 8 (memInit (fun _ => 0) 8) := .memInit (by decide) (by decide) (by decide)
  have hc : Closed 8 (Rep.prologueMem (fun _ => 0) 8) := .inl (by decide)
  exact ⟨he, hc, (init_stale he).2 hc⟩

/-- A byte 8 before the first header, in memory otherwise clear: `mm_init` takes the padding
    for a free block and joins the first block to it. -/
theorem init_stale_joined :
    Empty 8 (memInit (fun q => if q = 48 then 8 else 0) 8) ∧
      ¬ ∃ s', mmInit (memInit (fun q => if q = 48 then 8 else 0) 8) = .ok (0, s') ∧
        InitOk 8 s' ∧ FirstAlone 8 s' := by
  have he : Empty 8 (memInit (fun q => if q = 48 then 8 else 0) 8) :=
    .memInit (by decide) (by decide) (by decide)
  refine ⟨he, ?_⟩
  rintro ⟨s', hinit, hok, -⟩
  have hgap := he.leftAlloc_of_listed hinit hok.listed
  unfold leftAlloc at hgap
  revert hgap
  decide

end OsBasics.Malloc
