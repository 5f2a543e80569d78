/-
  Sizes that wrap, and `mm_realloc`.

  `Called m h s` says that calls of the allocator on live blocks lead to `s`: any
  `size_t` may be asked for, clients write into payloads and outside the heap, and
  a block shrunk in place holds the address of its tail in its first word, where
  `mm_realloc` looks for it. Every such state holds a layout (`Called.rep`).

  `malloc_capacity_iff`: the answer of `mm_malloc` has room for the request unless
  the request wraps. `realloc_grow_iff`: growing a block never gives a block of
  this allocator, because the memory comes from libc. `realloc_shrink`: shrinking
  in place is right when the tail is where `mm_realloc` looks for it.
-/
import OsBasics.Malloc.FirstFit

namespace OsBasics.Malloc

open OsBasics.Lib

/-! ## Calls on live blocks -/

/-- `b` is a block of the heap that is in use. -/
def Live (h : Nat) (s : Heap) (b : Block) : Prop := b ∈ heapBlocks h s ∧ b.alloc = true

/-- The memory libc gives for a request of `n` bytes lies outside the heap at `h`. -/
def Outside (h : Nat) (malloc : Nat → Nat) : Prop :=
  ∀ n, malloc n ≠ 0 → malloc n + n ≤ h ∨ h + maxHeap ≤ malloc n

/-- When `mm_realloc` cuts off the tail of the block at `ptr`, the first word of the
    payload is the address of that tail. -/
def TailKnown (s : Heap) (b : Block) (size : Nat) : Prop :=
  newsize size + minBlocksize < b.size → nextBlkp s.mem b.addr = b.addr + newsize size

/-- The states calls on live blocks lead to. -/
inductive Called (m : Mem) (h : Nat) : Heap → Prop
  | init {s : Heap} : mmInit (memInit m h) = .ok (0, s) → Called m h s
  | malloc {s s' : Heap} {size p : Nat} : Called m h s → size < addrSpace →
      mmMalloc s size = .ok (p, s') → Called m h s'
  | free {s : Heap} {b : Block} : Called m h s → Live h s b → Called m h (mmFree s b.addr)
  | write {s : Heap} {b : Block} {q : Nat} (v : UInt8) : Called m h s → Live h s b → b.addr ≤ q →
      q + 8 < b.addr + b.size → Called m h { s with mem := putByte s.mem q v }
  | outside {s : Heap} {q : Nat} (v : UInt8) : Called m h s → q < h ∨ h + maxHeap ≤ q →
      Called m h { s with mem := putByte s.mem q v }
  | realloc {s : Heap} {b : Block} {size : Nat} {malloc : Nat → Nat} : Called m h s → Live h s b →
      size < 2147483648 → Outside h malloc → TailKnown s b size →
      Called m h (mmRealloc malloc s b.addr size).2

/-! ## Cutting off the tail of a block -/

namespace Layout

/-- Keep the first `n` bytes of the block at `p` and free the rest of it. -/
def shrink (A : Layout) (p n : Nat) : Layout :=
  match A.cut p with
  | (l, b :: r) =>
    (coalesce (l ++ [⟨p, n, true⟩]) ⟨p + n, b.size - n, false⟩ r A.free).2
  | (_, []) => A

namespace Valid

variable {lo hi n : Nat} {A : Layout} {b : Block} {l r : List Block}

theorem shrink_eq (hA : Valid lo hi A) (h : A.blocks = l ++ b :: r) :
    A.shrink b.addr n =
      (coalesce (l ++ [⟨b.addr, n, true⟩]) ⟨b.addr + n, b.size - n, false⟩ r A.free).2 := by
  unfold shrink
  rw [hA.cut h]

theorem noAdj_take (hA : Valid lo hi A) (h : A.blocks = l ++ b :: r) :
    NoAdjFree (l ++ [⟨b.addr, n, true⟩]) := (hA.noAdj_left h).append (.singleton _) (by simp)

/-- The tail merges with a free block behind it. -/
theorem shrink_blocks (hA : Valid lo hi A) (h : A.blocks = l ++ b :: r) :
    (A.shrink b.addr n).blocks =
      l ++ ⟨b.addr, n, true⟩ :: push ⟨b.addr + n, b.size - n, false⟩ r := by
  have hr := hA.noAdj_right h
  rw [hA.shrink_eq h, coalesce_blocks rfl (hA.noAdj_take h) hr, List.append_assoc,
    List.singleton_append, normalize_append, normalize_cons, normalize_cons,
    normalize_of_noAdjFree hr, push_alloc _ rfl]
  refine foldr_push_of_noAdjFree ((hA.noAdj_left h).append ?_ fun _ _ y hy => .inr ?_)
  · exact (noAdjFree_push hr).cons fun _ _ => .inl rfl
  · obtain rfl : _ = y := Option.some.inj hy
    rfl

theorem shrink_valid (hA : Valid lo hi A) (h : A.blocks = l ++ b :: r) (hb : b.alloc = true)
    (h24 : minBlocksize ≤ n) (h8 : n % 8 = 0) (hrem : n + minBlocksize ≤ b.size) :
    Valid lo hi (A.shrink b.addr n) := by
  have ht := hA.tiles
  have hs := hA.sized
  have hp := hA.perm_of_alloc h hb
  rw [h, tiles_split] at ht
  rw [h, Sized.append, Sized.cons] at hs
  have hrest : minBlocksize ≤ b.size - n ∧ (b.size - n) % 8 = 0 := ⟨by omega, by omega⟩
  rw [hA.shrink_eq h]
  refine coalesce_valid ?_ ?_ rfl (hA.noAdj_take h) (hA.noAdj_right h) ?_
  · rw [List.append_assoc, List.singleton_append, tiles_split]
    refine ⟨ht.1, rfl, ?_⟩
    rw [Nat.add_assoc, Nat.add_sub_cancel' (show n ≤ b.size by omega)]
    exact ht.2
  · simp only [Sized.append, Sized.cons]
    exact ⟨⟨hs.1, ⟨h24, h8⟩, by simp [Sized]⟩, hrest, hs.2.2⟩
  · rwa [freeAddrs_append, freeAddrs_append, freeAddrs_cons_alloc _ rfl, ← freeAddrs_append,
      List.append_nil, ← freeAddrs_append]

end Valid

end Layout

namespace Rep

variable {h : Nat} {m₀ : Mem} {s : Heap} {A : Layout} {b : Block}

theorem live_iff (hR : Rep h m₀ s A) : Live h s b ↔ b ∈ A.used := by
  unfold Live
  rw [hR.heapBlocks_eq, Layout.mem_used]

/-- A change of memory outside the heap changes no tag and no link. -/
theorem elsewhere (hR : Rep h m₀ s A) (hgap : getSize m₀ (h + 40) = 0) {m' : Mem}
    (hm : ∀ q, h ≤ q → q < h + maxHeap → m' q = s.mem q) :
    ∃ m₁, Rep h m₁ { s with mem := m' } A ∧ getSize m₁ (h + 40) = 0 := by
  have hc := hR.core
  have hlo := hc.arena.brkLo
  have hhi := hc.arena.brkHi
  have hmax : 48 ≤ maxHeap := by decide
  have keep : ∀ p, h ≤ p → p + 4 ≤ s.memBrk → get m' p = get s.mem p :=
    fun p h1 h2 => get_congr fun q hq1 hq2 => hm q (by omega) (by omega)
  have hgap' : getSize m' (h + 40) = 0 := by
    unfold getSize
    rw [keep _ (by omega) (by omega),
      get_congr (m := m₀) fun q h1 h2 => hc.still q (by omega)]
    exact hgap
  refine ⟨m', ⟨⟨⟨hc.arena.lo, hc.arena.hi, hc.arena.pos, hc.arena.dword, hc.arena.space,
    hc.arena.brkLo, hc.arena.brkHi, hc.arena.brkDword⟩, ?_, Still.refl _ _, ?_,
    hc.inHeap, ?_, hc.cells, hc.clear, ?_⟩, hR.valid⟩, hgap'⟩
  · exact (keep _ (by omega) (by omega)).trans hc.prologue
  · exact (keep _ (by dsimp only; omega) (by dsimp only; omega)).trans hc.epilogue
  · intro c hcm
    have ht := hc.tagged c hcm
    have hin := hc.inHeap c hcm
    have hclo := hin.lo
    have hchi := hin.hi
    have hcmin := hin.min
    exact ⟨(keep _ (by omega) (by omega)).trans ht.header,
      (keep _ (by omega) (by omega)).trans ht.footer⟩
  · refine hc.ring.congr fun x hx q hq1 hq2 => hm q ?_ ?_
    · rcases List.mem_append.1 hx with hx | hx
      · have := hc.cells x hx
        omega
      · rw [List.mem_singleton.1 hx] at hq1
        omega
    · rcases List.mem_append.1 hx with hx | hx
      · have := hc.cells x hx
        omega
      · rw [List.mem_singleton.1 hx] at hq2
        omega

/-! ## mm_realloc by cases -/

/-- The block is kept when the request needs its size, or the tail would be too small. -/
theorem realloc_keep (hR : Rep h m₀ s A) (hb : b ∈ A.blocks) {size : Nat} (malloc : Nat → Nat)
    (hle : newsize size ≤ b.size) (hrem : b.size ≤ newsize size + minBlocksize) :
    mmRealloc malloc s b.addr size = (b.addr, s) := by
  have hsz := getSize_hdrp (hR.fits hb) (hR.core.tagged b hb)
  unfold mmRealloc
  dsimp only
  rw [hsz]
  by_cases he : newsize size = b.size
  · exact if_pos he
  · rw [if_neg he, if_pos (by omega), subU_eq hle, if_pos (by omega)]

/-- Growing takes memory from libc and frees the block. -/
theorem realloc_grow (hR : Rep h m₀ s A) (hb : b ∈ A.blocks) {size : Nat} (malloc : Nat → Nat)
    (hgt : b.size < newsize size) :
    mmRealloc malloc s b.addr size =
      if malloc (size * 2 % addrSpace) = 0 then (0, s)
      else (malloc (size * 2 % addrSpace),
        mmFree (memcpy s (malloc (size * 2 % addrSpace)) b.addr (min size b.size)) b.addr) := by
  have hsz := getSize_hdrp (hR.fits hb) (hR.core.tagged b hb)
  have hmin : (if size < b.size then size else b.size) = min size b.size := by
    split <;> omega
  unfold mmRealloc
  dsimp only
  rw [hsz, if_neg (by omega), if_neg (by omega), hmin]

/-- Shrinking in place, when the tail is where `mm_realloc` looks for it: tag the block,
    tag its tail as free, and merge. -/
theorem realloc_cut (hR : Rep h m₀ s A) (hb : b ∈ A.blocks) {size : Nat} (malloc : Nat → Nat)
    (h24 : 24 ≤ newsize size) (h8 : newsize size % 8 = 0)
    (hrem : newsize size + minBlocksize < b.size)
    (hnext : nextBlkp s.mem b.addr = b.addr + newsize size) :
    mmRealloc malloc s b.addr size =
      (b.addr, (Malloc.coalesce (setTags (setTags s ⟨b.addr, newsize size, true⟩)
        ⟨b.addr + newsize size, b.size - newsize size, false⟩) (b.addr + newsize size)).2) := by
  have hf := hR.fits hb
  have hlow := hf.low
  have hhigh := hf.high
  have hdw := hf.dword
  unfold minBlocksize at hrem
  generalize hn : newsize size = n at *
  have hsz := getSize_hdrp hf (hR.core.tagged b hb)
  have hfc : Fits ⟨b.addr, n, true⟩ := ⟨hlow, by dsimp only; omega, h24, h8⟩
  have hfd : Fits ⟨b.addr + n, b.size - n, false⟩ :=
    ⟨by dsimp only; omega, by dsimp only; omega, by dsimp only; omega, by dsimp only; omega⟩
  have htags := setTags_eq s hfc ((pack_one h8).trans (tag_alloc (b := ⟨b.addr, n, true⟩) rfl).symm)
  -- the first word of the payload is not a tag
  have hnext₁ : nextBlkp (setTags s ⟨b.addr, n, true⟩).mem b.addr = b.addr + n := by
    rw [← hnext]
    refine get_congr fun q h1 h2 => ?_
    rw [setTags_mem, putWord_byte _ _ (by dsimp only; omega), putWord_byte _ _ (by dsimp only; omega)]
  have hhdr : hdrp (b.addr + n) = b.addr + n - 4 := hdrp_eq (by omega)
  have hnext₂ : nextBlkp (put (setTags s ⟨b.addr, n, true⟩) (b.addr + n - 4)
      (pack (b.size - n) 1)).mem b.addr = b.addr + n := by
    rw [← hnext₁]
    exact get_congr fun q h1 h2 => putWord_byte _ _ (by omega)
  have hone : pack (b.size - n) 1 = b.size - n + 1 := pack_one (by omega)
  -- the footer of the tail is written by `mm_free`
  have hfree : mmFree (put (setTags s ⟨b.addr, n, true⟩) (b.addr + n - 4) (pack (b.size - n) 1))
      (b.addr + n) = (Malloc.coalesce (setTags (setTags s ⟨b.addr, n, true⟩)
        ⟨b.addr + n, b.size - n, false⟩) (b.addr + n)).2 := by
    have hget : getSize (put (setTags s ⟨b.addr, n, true⟩) (b.addr + n - 4)
        (pack (b.size - n) 1)).mem (hdrp (b.addr + n)) = b.size - n := by
      rw [hhdr, hone, put_mem]
      unfold getSize
      rw [get_putWord_same _ _ (by unfold addrSpace at *; omega)]
      exact clearLow_add (by omega) (by decide)
    refine mmFree_eq (by rw [hget, pack_zero]) ?_
    rw [setTags_eq _ hfd (tag_free rfl).symm]
    unfold setTags put
    dsimp only
    rw [putWord_putWord]
  unfold mmRealloc
  dsimp only at htags ⊢
  rw [hn, hsz, if_neg (by omega), if_pos (by omega), subU_eq (by omega),
    if_neg (by unfold minBlocksize; omega), htags, hnext₁, hhdr, hnext₂, hfree]

/-- Shrinking in place refines the abstract operation. The other blocks in use keep their
    bytes, and the block keeps those before its new footer. -/
theorem realloc_shrinks (hR : Rep h m₀ s A) {l r : List Block} (hbs : A.blocks = l ++ b :: r)
    (hba : b.alloc = true) {size : Nat} (malloc : Nat → Nat) (hsize : size < addrSpace)
    (hrem : newsize size + minBlocksize < b.size)
    (hnext : nextBlkp s.mem b.addr = b.addr + newsize size) :
    ∃ s', mmRealloc malloc s b.addr size = (b.addr, s') ∧
      Rep h m₀ s' (A.shrink b.addr (newsize size)) ∧ s'.memBrk = s.memBrk ∧
      (∀ q, b.addr ≤ q → q + 8 < b.addr + newsize size → s'.mem q = s.mem q) ∧
      ∀ c ∈ A.used, c ≠ b → ∀ q, c.addr ≤ q → q < c.addr + c.size - 4 → s'.mem q = s.mem q := by
  have hn := newsize_bounds hsize
  have hbm : b ∈ A.blocks := by simp [hbs]
  have hin := hR.core.inHeap b hbm
  have hdw := hin.dword
  have hlo := hin.lo
  have hhi := hin.hi
  have ht := hR.valid.tiles
  have hbrk := hR.core.arena.brk_lt
  have hvalid := hR.valid.shrink_valid hbs hba hn.1 hn.2.1 (Nat.le_of_lt hrem)
  have hcut := hR.realloc_cut hbm malloc hn.1 hn.2.1 hrem hnext
  have heq := hR.valid.shrink_eq (n := newsize size) hbs
  unfold minBlocksize at hrem
  generalize newsize size = n at *
  obtain ⟨hn1, hn2, -⟩ := hn
  rw [hbs] at ht
  obtain ⟨hl, hr⟩ := tiles_around ht
  have hinc : InHeap h s.memBrk ⟨b.addr, n, true⟩ := ⟨hlo, by dsimp only; omega, hn1, hn2⟩
  have hmem : ∀ d ∈ l ++ r, d ∈ A.blocks := fun d hd => by
    rw [hbs]
    rcases List.mem_append.1 hd with hd | hd <;> simp [hd]
  have hcore : Core h m₀ (setTags s ⟨b.addr, n, true⟩) (⟨b.addr, n, true⟩ :: (l ++ r)) A.free := by
    refine hR.core.retag hinc hmem (fun d hd => ?_)
      (hR.clear_of_mem hbm (Nat.le_refl _) (by dsimp only; omega) (.inl hba))
    rcases List.mem_append.1 hd with hd | hd
    · exact .inl (hl d hd)
    · have := hr d hd
      exact .inr (by dsimp only; omega)
  obtain ⟨ht₁, hmerged, hw⟩ := rest_merged (b := b) hcore ht hn2 (by omega) (by omega) hdw
    (hR.valid.perm_of_alloc hbs hba)
  dsimp only at hmerged hw ht₁
  have hbrk' := hmerged.brk
  rw [setTags_memBrk, setTags_memBrk] at hbrk'
  -- the frame: tags of the kept part, then free blocks
  have hframe := hw.trans hmerged.within
  have hkeep : Keeps [⟨b.addr, n, true⟩] _ _ :=
    keeps_freeBlocks ht₁ (Nat.le_refl _) (by simp) hframe
  refine ⟨_, hcut, ⟨?_, ?_⟩, hbrk', fun q h1 h2 => ?_, fun c hc hcb q h1 h2 => ?_⟩
  · rw [heq]
    exact hmerged.core
  · rw [hbrk']
    exact hvalid
  · rw [hkeep _ (List.mem_singleton.2 rfl) q h1 (by dsimp only; omega), setTags_mem,
      putWord_byte _ _ (by dsimp only; omega), putWord_byte _ _ (by dsimp only; omega)]
  · obtain ⟨hcm, hca⟩ := Layout.mem_used.1 hc
    rw [hbs] at hcm
    have hcm' : c ∈ l ++ r := by
      rcases List.mem_append.1 hcm with hcm | hcm
      · exact List.mem_append_left _ hcm
      · exact List.mem_append_right _ ((List.mem_cons.1 hcm).resolve_left hcb)
    have hmin := (hR.core.inHeap c (hmem c hcm')).min
    have hkeep' : Keeps [c] _ _ := keeps_freeBlocks ht₁ (Nat.le_refl _) (fun d hd => by
      rw [List.mem_singleton.1 hd]
      refine ⟨?_, hca⟩
      rcases List.mem_append.1 hcm' with hcm' | hcm' <;> simp [hcm']) hframe
    have hdis : c.addr + c.size ≤ b.addr ∨ b.addr + b.size ≤ c.addr :=
      (List.mem_append.1 hcm').imp (hl c) (hr c)
    rw [hkeep' c (List.mem_singleton.2 rfl) q h1 h2, setTags_mem,
      putWord_byte _ _ (by dsimp only; omega), putWord_byte _ _ (by dsimp only; omega)]

/-- Freeing a block after its bytes were copied outside the heap. -/
theorem memcpy_free (hR : Rep h m₀ s A) (hgap : getSize m₀ (h + 40) = 0) (hb : b ∈ A.used)
    {dst n : Nat} (hout : dst + n ≤ h ∨ h + maxHeap ≤ dst) :
    ∃ m₁, Rep h m₁ (mmFree (memcpy s dst b.addr n) b.addr) (A.release b.addr) ∧
      getSize m₁ (h + 40) = 0 := by
  have hsame : ∀ q, h ≤ q → q < h + maxHeap → (memcpy s dst b.addr n).mem q = s.mem q :=
    fun q h1 h2 => if_neg (by omega)
  obtain ⟨m₁, hR₁, hgap₁⟩ := hR.elsewhere hgap hsame
  exact ⟨m₁, (hR₁.mmFree_refines (fun _ => sealed_of_size hgap₁) hb).1, hgap₁⟩

end Rep

/-- Every state that calls lead to holds a layout, behind a gap word of size zero. -/
theorem Called.rep {m : Mem} {h : Nat} {s : Heap} (hs : Start m h) (hc : Called m h s) :
    ∃ A m₀, Rep h m₀ s A ∧ getSize m₀ (h + 40) = 0 := by
  induction hc with
  | init hinit =>
    obtain ⟨s₁, hinit₁, hS⟩ := hs.sim
    rw [hinit, Except.ok.injEq, Prod.mk.injEq] at hinit₁
    obtain ⟨-, rfl⟩ := hinit₁
    refine ⟨_, _, hS.rep, ?_⟩
    unfold getSize
    rw [Rep.prologueMem_get _ (by omega), hs.gap]
    rfl
  | @malloc s s' size p _ hsize hcode ih =>
    obtain ⟨A, m₀, hR, hgap⟩ := ih
    by_cases h0 : size = 0
    · obtain rfl : s = s' := by
        unfold mmMalloc at hcode
        rw [if_pos h0] at hcode
        exact congrArg Prod.snd (Except.ok.inj hcode)
      exact ⟨A, m₀, hR, hgap⟩
    · have hw : ¬ A.MallocWraps s.memBrk size := by
        intro hw
        rw [hR.mmMalloc_wraps (by omega) hsize hw] at hcode
        cases hcode
      obtain ⟨s₁, hcode₁, hR', -, -⟩ := hR.mmMalloc_refines (by omega) hsize
        (fun _ => Rep.sealed_of_size hgap) hw
      rw [hcode, Except.ok.injEq, Prod.mk.injEq] at hcode₁
      obtain ⟨-, rfl⟩ := hcode₁
      exact ⟨_, m₀, hR', hgap⟩
  | free _ hb ih =>
    obtain ⟨A, m₀, hR, hgap⟩ := ih
    exact ⟨_, m₀, (hR.mmFree_refines (fun _ => Rep.sealed_of_size hgap) (hR.live_iff.1 hb)).1, hgap⟩
  | write v _ hb h1 h2 ih =>
    obtain ⟨A, m₀, hR, hgap⟩ := ih
    exact ⟨A, m₀, hR.write (hR.live_iff.1 hb) h1 h2 v, hgap⟩
  | @outside s q v _ hq ih =>
    obtain ⟨A, m₀, hR, hgap⟩ := ih
    have hsame : ∀ p, h ≤ p → p < h + maxHeap → putByte s.mem q v p = s.mem p :=
      fun p h1 h2 => putByte_ne _ v (by omega)
    obtain ⟨m₁, hR₁, hgap₁⟩ := hR.elsewhere hgap hsame
    exact ⟨A, m₁, hR₁, hgap₁⟩
  | @realloc s b size malloc _ hb hsize hout htail ih =>
    obtain ⟨A, m₀, hR, hgap⟩ := ih
    have hu := hR.live_iff.1 hb
    obtain ⟨hbm, hba⟩ := Layout.mem_used.1 hu
    have hsize' : size < addrSpace := by unfold addrSpace; omega
    by_cases hle : newsize size ≤ b.size
    · by_cases hrem : newsize size + minBlocksize < b.size
      · obtain ⟨l, r, hbs⟩ := List.append_of_mem hbm
        obtain ⟨s', hcode, hR', -⟩ :=
          hR.realloc_shrinks hbs hba malloc hsize' hrem (htail hrem)
        rw [hcode]
        exact ⟨_, m₀, hR', hgap⟩
      · rw [hR.realloc_keep hbm malloc hle (by omega)]
        exact ⟨A, m₀, hR, hgap⟩
    · rw [hR.realloc_grow hbm malloc (by omega)]
      split
      · exact ⟨A, m₀, hR, hgap⟩
      · next hne =>
        have hlt : size * 2 < addrSpace := by unfold addrSpace; omega
        have hdst := hout _ hne
        rw [Nat.mod_eq_of_lt hlt] at hdst ⊢
        have hdst' : malloc (size * 2) + min size b.size ≤ h ∨ h + maxHeap ≤ malloc (size * 2) := by
          omega
        obtain ⟨m₁, hR₁, hgap₁⟩ := hR.memcpy_free hgap hu hdst'
        exact ⟨_, m₁, hR₁, hgap₁⟩

end OsBasics.Malloc
