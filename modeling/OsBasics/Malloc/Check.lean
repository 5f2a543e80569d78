/-
  The heap checker of `mm_freeList.c`, `mm_check` and `mm_checkBlock`.

  `mm_check` takes `heap_listp` for the prologue, which begins 8 bytes behind it, and
  `mm_checkBlock` takes a NULL link for one that leaves the heap. So no heap passes:
  on one that is well formed the checker reports what libc keeps before the heap, and
  the ends of the free list, and nothing else (`mmCheck_reached`).
-/
import OsBasics.Lib.Runs
import OsBasics.Malloc.Safety

namespace OsBasics.Malloc

open OsBasics.Lib

/-! ## The checker -/

/-- `printf(msg)`, when the test before it holds. -/
def report (c : Prop) [Decidable c] (msg : String) : List String := if c then [msg] else []

/-- The message about a link that leaves the heap. -/
def outOfBounds : String := "Heap out of bounds \n"

/-- `mm_checkBlock(bp)`: what it prints. -/
def mmCheckBlock (s : Heap) (bp : Nat) : List String :=
  if hdrp bp = 0 ∨ ftrp s.mem bp = 0 then []
  else
    let next := nextBlkp s.mem bp
    let prev := prevBlkp s.mem bp
    report (getSize s.mem (hdrp bp) ≠ getSize s.mem (ftrp s.mem bp))
      "Header size does not match the footer size \n" ++
    report (getAlloc s.mem (hdrp bp) ≠ getAlloc s.mem (ftrp s.mem bp))
      "Header does not match the footer alloc \n" ++
    report (next < memHeapLo s ∨ prev < memHeapLo s ∨ prev > memHeapHi s ∨ next > memHeapHi s)
      outOfBounds

/-- The loop of `mm_check` from `bp` on, for at most `n` rounds. -/
def checkLoop (s : Heap) : Nat → Nat → Except Fault (List String)
  | 0, _ => .error .hang
  | n + 1, bp =>
    if bp = 0 then pure []
    else do
      let out ← checkLoop s n (prevBlkp s.mem bp)
      pure (mmCheckBlock s bp ++ out)

/-- What `mm_check` prints about the block at `bp`, its prologue. -/
def checkPrologue (m : Mem) (bp : Nat) : List String :=
  report (getSize m (hdrp bp) ≠ minBlocksize) "Prologue header - wrong size" ++
  report (getAlloc m (hdrp bp) = 0) "Prologue header - allocation bit incorrect"

/-- `mm_check`: what it prints. A walk of `2^32` rounds has met some block twice. -/
def mmCheck (s : Heap) : Except Fault (List String) := do
  let out ← checkLoop s addrSpace s.start
  pure (checkPrologue s.mem s.heapListp ++ out)

/-! ## heap_listp -/

/-- Only `mm_init` sets `heap_listp`. -/
theorem put_heapListp (s : Heap) (p v : Nat) : (put s p v).heapListp = s.heapListp := rfl

theorem insertBlock_heapListp (s : Heap) (bp : Nat) : (insertBlock s bp).heapListp = s.heapListp := rfl

theorem removeBlock_heapListp (s : Heap) (bp : Nat) : (removeBlock s bp).heapListp = s.heapListp := by
  unfold removeBlock
  dsimp only
  split <;> rfl

theorem coalesce_heapListp (s : Heap) (bp : Nat) : (coalesce s bp).2.heapListp = s.heapListp := by
  unfold coalesce
  dsimp only
  split
  · rw [insertBlock_heapListp, put_heapListp, put_heapListp, removeBlock_heapListp]
  · split
    · rw [insertBlock_heapListp, put_heapListp, put_heapListp, removeBlock_heapListp]
    · split
      · rw [insertBlock_heapListp, put_heapListp, put_heapListp, removeBlock_heapListp,
          removeBlock_heapListp]
      · rw [insertBlock_heapListp]

theorem place_heapListp (s : Heap) (bp asize : Nat) : (place s bp asize).heapListp = s.heapListp := by
  unfold place
  dsimp only
  split
  · rw [coalesce_heapListp, put_heapListp, put_heapListp, removeBlock_heapListp, put_heapListp,
      put_heapListp]
  · rw [removeBlock_heapListp, put_heapListp, put_heapListp]

theorem memSbrk_heapListp {s s' : Heap} {incr : Int} {p : Nat} (h : memSbrk s incr = .ok (p, s')) :
    s'.heapListp = s.heapListp := by
  unfold memSbrk at h
  split at h
  · cases h
    rfl
  · split at h
    · cases h
    · split at h
      · cases h
        rfl
      · cases h
        rfl

theorem extendHeap_heapListp {s s' : Heap} {words p : Nat} (h : extendHeap s words = .ok (p, s')) :
    s'.heapListp = s.heapListp := by
  obtain ⟨⟨bp, s₁⟩, hsbrk, h⟩ := bind_ok h
  have hs₁ := memSbrk_heapListp hsbrk
  dsimp only at h
  split at h
  · cases h
    exact hs₁
  · have hout : (coalesce _ bp).2 = s' := congrArg Prod.snd (Except.ok.inj h)
    rw [← hout, coalesce_heapListp]
    exact hs₁

theorem mmMalloc_heapListp {s s' : Heap} {size p : Nat} (h : mmMalloc s size = .ok (p, s')) :
    s'.heapListp = s.heapListp := by
  unfold mmMalloc at h
  split at h
  · cases h
    rfl
  · obtain ⟨bp, -, h⟩ := bind_ok h
    split at h
    · have hout : place s bp (newsize size) = s' := congrArg Prod.snd (Except.ok.inj h)
      rw [← hout, place_heapListp]
    · obtain ⟨⟨q, s₁⟩, hext, h⟩ := bind_ok h
      have hs₁ := extendHeap_heapListp hext
      dsimp only at h
      split at h
      · cases h
        exact hs₁
      · have hout : place s₁ q (newsize size) = s' := congrArg Prod.snd (Except.ok.inj h)
        rw [← hout, place_heapListp]
        exact hs₁

theorem mmFree_heapListp (s : Heap) (bp : Nat) : (mmFree s bp).heapListp = s.heapListp := by
  unfold mmFree
  dsimp only
  rw [coalesce_heapListp, put_heapListp, put_heapListp]

theorem Client.step_heapListp {c c' : Client} {op : Op} (h : c.step op = .ok c') :
    c'.heap.heapListp = c.heap.heapListp := by
  cases op with
  | malloc size =>
    obtain ⟨⟨p, s⟩, hcode, h⟩ := bind_ok h
    rw [← Except.ok.inj h]
    exact mmMalloc_heapListp hcode
  | free k =>
    unfold Client.step at h
    dsimp only at h
    split at h
    · rw [← Except.ok.inj h]
      exact mmFree_heapListp _ _
    · rw [← Except.ok.inj h]
  | write k off v =>
    unfold Client.step at h
    dsimp only at h
    split at h <;> rw [← Except.ok.inj h]

theorem Client.run_heapListp {c c' : Client} {ops : List Op} (h : c.run ops = .ok c') :
    c'.heap.heapListp = c.heap.heapListp := by
  induction ops generalizing c with
  | nil => rw [← Except.ok.inj h]
  | cons op ops ih =>
    obtain ⟨c₁, hstep, hrun⟩ := bind_ok h
    exact (ih hrun).trans (step_heapListp hstep)

theorem Reached.heapListp {m : Mem} {h : Nat} {c : Client} (hs : Start m h) (hc : Reached m h c) :
    c.heap.heapListp = h := by
  obtain ⟨s₀, ops, hinit, -, hrun⟩ := hc
  rw [Client.run_heapListp hrun]
  rw [Rep.mmInit_eq (s := memInit m h) rfl rfl hs.pos hs.space] at hinit
  generalize hext : extendHeap _ (32 / 4) = out at hinit
  cases out with
  | error f => cases hinit
  | ok out =>
    obtain ⟨p, s₁⟩ := out
    rw [← (Prod.mk.inj (Except.ok.inj hinit)).2]
    exact extendHeap_heapListp hext

/-! ## A heap that is well formed -/

/-- The words before the heap keep what libc put there. -/
theorem prologueMem_before (m : Mem) {h p : Nat} (hp : p + 4 ≤ h) :
    get (Rep.prologueMem m h) p = get m p := by
  unfold Rep.prologueMem
  rw [get_putWord_ne _ _ (by omega), get_putWord_ne _ _ (by omega), get_putWord_ne _ _ (by omega),
    get_putWord_ne _ _ (by omega), get_putWord_ne _ _ (by omega), get_putWord_ne _ _ (by omega)]

/-- The word at `h + 16` is none of those `mm_init` writes. -/
theorem prologueMem_end (m : Mem) (h : Nat) :
    get (Rep.prologueMem m h) (h + 16) = get m (h + 16) := by
  unfold Rep.prologueMem
  rw [get_putWord_ne _ _ (by omega), get_putWord_ne _ _ (by omega), get_putWord_ne _ _ (by omega),
    get_putWord_ne _ _ (by omega), get_putWord_ne _ _ (by omega), get_putWord_ne _ _ (by omega)]

theorem prologueMem_footer (m : Mem) (h : Nat) : get (Rep.prologueMem m h) (h + 24) = 25 := by
  unfold Rep.prologueMem
  rw [get_putWord_ne _ _ (by omega), get_putWord_same _ _ (by decide)]

theorem checkLoop_step {s : Heap} {n bp : Nat} {out : List String} (h : bp ≠ 0)
    (hrest : checkLoop s n (prevBlkp s.mem bp) = .ok out) :
    checkLoop s (n + 1) bp = .ok (mmCheckBlock s bp ++ out) := by
  unfold checkLoop
  rw [if_neg h, hrest]
  rfl

/-- A block whose tags agree and whose links stay in the heap. -/
theorem mmCheckBlock_eq {s : Heap} {bp : Nat} (h0 : hdrp bp ≠ 0) (h1 : ftrp s.mem bp ≠ 0)
    (htags : get s.mem (ftrp s.mem bp) = get s.mem (hdrp bp)) :
    mmCheckBlock s bp = report (nextBlkp s.mem bp < memHeapLo s ∨ prevBlkp s.mem bp < memHeapLo s ∨
      prevBlkp s.mem bp > memHeapHi s ∨ nextBlkp s.mem bp > memHeapHi s) outOfBounds := by
  unfold mmCheckBlock
  rw [if_neg (not_or.2 ⟨h0, h1⟩)]
  dsimp only
  rw [getSize, getSize, getAlloc, getAlloc, htags]
  unfold report
  rw [if_neg (not_not.2 rfl), if_neg (not_not.2 rfl)]
  rfl

namespace Rep

variable {h : Nat} {m₀ : Mem} {s : Heap} {A : Layout}

/-- The points of the walk lie in the heap, where a link to them does not offend. -/
theorem head_mem_heap (hR : Rep h m₀ s A) {pre rest : List Nat} (hfl : A.free = pre ++ rest) :
    memHeapLo s ≤ rest.headD (h + 8) ∧ rest.headD (h + 8) ≤ memHeapHi s := by
  have ha := hR.core.arena
  have hbrk := ha.brkLo
  unfold memHeapLo memHeapHi
  rw [ha.lo]
  cases rest with
  | nil =>
    rw [List.headD_nil]
    omega
  | cons x rest =>
    have hx := hR.core.cells x (by simp [hfl])
    rw [List.headD_cons]
    omega

/-- The first free block has NULL for NEXT_BLKP; the others pass. -/
theorem mmCheckBlock_free (hR : Rep h m₀ s A) {pre rest : List Nat} {x : Nat}
    (hfl : A.free = pre ++ x :: rest) : mmCheckBlock s x = report (pre = []) outOfBounds := by
  have ha := hR.core.arena
  have hpos := ha.pos
  have hx : x ∈ A.free := by simp [hfl]
  obtain ⟨b, hb, hba, rfl⟩ := hR.valid.mem_free.1 hx
  have hf := hR.fits hb
  have ht := hR.core.tagged b hb
  have hin := hR.core.inHeap b hb
  have hlo := hin.lo
  have hmin := hin.min
  have hprev := hR.prevBlkp_mem hfl
  have hhead := hR.head_mem_heap (show A.free = (pre ++ [b.addr]) ++ rest by simp [hfl])
  rw [mmCheckBlock_eq (by rw [hdrp_addr hf]; omega) (by rw [ftrp_eq hf ht]; omega)
    (by rw [ftrp_eq hf ht, hdrp_addr hf, ht.footer, ht.header]), hprev]
  have hring := hR.core.ring
  obtain rfl | ⟨l, y, rfl⟩ := List.eq_nil_or_concat' pre
  · have hnext : nextBlkp s.mem b.addr = 0 := by
      have hfirst := hring.first
      rw [hfl, List.nil_append, List.headD_cons] at hfirst
      rw [← hfirst]
      exact hring.top
    have hlow : memHeapLo s = h := ha.lo
    rw [hnext, report, report, if_pos (.inl (by omega)), if_pos rfl]
  · have hnext : nextBlkp s.mem b.addr = y := by
      have hchain := hring.chain
      rw [hfl, List.append_assoc, List.append_assoc] at hchain
      exact (List.isChain_append_cons_cons.1 hchain).2.1.2
    have hy := hR.head_mem_heap (show A.free = l ++ y :: b.addr :: rest by simp [hfl])
    rw [List.headD_cons] at hy
    rw [hnext, report, report, if_neg (by omega), if_neg (by simp)]

/-- The prologue has whatever is at `h + 16` for PREV_BLKP. -/
theorem mmCheckBlock_prologue {m : Mem} (hR : Rep h (prologueMem m h) s A) (hend : get m (h + 16) = 0) :
    prevBlkp s.mem (h + 8) = 0 ∧ mmCheckBlock s (h + 8) = [outOfBounds] := by
  have ha := hR.core.arena
  have hspace : h + 20971520 < addrSpace := ha.space
  have hpos := ha.pos
  have hmax : 48 ≤ maxHeap := by decide
  have hstill : ∀ p, h + 12 ≤ p → p + 4 ≤ h + 44 → get s.mem p = get (prologueMem m h) p :=
    fun p h1 h2 => get_congr fun q hq1 hq2 => hR.core.still q (by omega)
  have hprev : prevBlkp s.mem (h + 8) = 0 := by
    rw [prevBlkp_eq _ (by omega), hstill _ (by omega) (by omega), prologueMem_end, hend]
  have hhdr : hdrp (h + 8) = h + 4 := hdrp_eq (by omega)
  have hftr : ftrp s.mem (h + 8) = h + 24 := by
    unfold ftrp getSize
    rw [hhdr, hR.core.prologue, addU_eq (show h + 8 + clearLow 25 < addrSpace by unfold clearLow; omega)]
    exact subU_eq (show dsize ≤ h + 8 + clearLow 25 by unfold clearLow dsize; omega)
  have hfoot : get s.mem (h + 24) = 25 := by
    rw [hstill _ (by omega) (by omega), prologueMem_footer]
  refine ⟨hprev, ?_⟩
  have hlow : memHeapLo s = h := ha.lo
  rw [mmCheckBlock_eq (by rw [hhdr]; omega) (by rw [hftr]; omega)
    (by rw [hftr, hhdr, hfoot, hR.core.prologue]), hprev, report, if_pos (.inr (.inl (by omega)))]

/-- The walk over the free list and the prologue is short of `2^32` rounds. -/
theorem walk_length (hR : Rep h m₀ s A) : A.free.length + 1 < addrSpace := by
  have ha := hR.core.arena
  have hbrk := ha.brk_lt
  have hlo := ha.brkLo
  have hnd := hR.core.ring.nodup.sublist (List.sublist_append_left _ _)
  have hsub : A.free ⊆ List.range (s.memBrk - 15) := by
    intro x hx
    have hcell := hR.core.cells x hx
    exact List.mem_range.2 (by omega)
  have hlen := (List.Nodup.subperm hnd hsub).length_le
  rw [List.length_range] at hlen
  omega

/-- The walk over the rest of the free list: NEXT_BLKP of the first block and PREV_BLKP of the prologue
    are NULL. -/
theorem checkLoop_eq {m : Mem} (hR : Rep h (prologueMem m h) s A) (hend : get m (h + 16) = 0)
    {n : Nat} {pre rest : List Nat} (hfl : A.free = pre ++ rest) (hn : rest.length + 1 < n) :
    checkLoop s n (rest.headD (h + 8)) =
      .ok (report (pre = [] ∧ rest ≠ []) outOfBounds ++ [outOfBounds]) := by
  induction rest generalizing n pre with
  | nil =>
    obtain ⟨n, rfl⟩ := Nat.exists_eq_add_of_lt hn
    obtain ⟨hprev, hcheck⟩ := hR.mmCheckBlock_prologue hend
    have hnull : checkLoop s (0 + 1 + n) (prevBlkp s.mem (h + 8)) = .ok [] := by
      rw [hprev, Nat.add_comm _ n]
      exact if_pos rfl
    rw [List.headD_nil, List.length_nil, checkLoop_step (Nat.succ_ne_zero _) hnull, hcheck, report,
      if_neg (by simp)]
    rfl
  | cons x rest ih =>
    obtain ⟨n, rfl⟩ := Nat.exists_eq_add_of_lt hn
    have hx := hR.core.cells x (by simp [hfl])
    have hrest := ih (n := (x :: rest).length + 1 + n)
      (show A.free = (pre ++ [x]) ++ rest by simp [hfl]) (by rw [List.length_cons]; omega)
    rw [← hR.prevBlkp_mem hfl] at hrest
    rw [List.headD_cons, checkLoop_step (by omega) hrest, hR.mmCheckBlock_free hfl]
    simp [report]

end Rep

/-- What `mm_check` prints in any state that a client can reach: its view of the words before the heap,
    and one complaint for each end of the free list. -/
theorem mmCheck_reached {m : Mem} {h : Nat} {c : Client} (hs : Start m h) (hend : get m (h + 16) = 0)
    (hc : Reached m h c) :
    mmCheck c.heap = .ok (checkPrologue m h ++
      (if freeWalk c.heap = [] then [outOfBounds] else [outOfBounds, outOfBounds])) := by
  obtain ⟨M, hS⟩ := hc.sim hs
  have hR := hS.rep
  have hloop := hR.checkLoop_eq hend (n := addrSpace) (List.nil_append M.layout.free).symm
    hR.walk_length
  have hbefore : get c.heap.mem (hdrp h) = get m (hdrp h) := by
    have hpos := hs.pos
    have hdw := hs.dword
    rw [hdrp_eq (by omega), ← prologueMem_before m (show h - 4 + 4 ≤ h by omega)]
    exact get_congr fun q h1 h2 => hR.core.still q (by omega)
  unfold mmCheck
  rw [hR.core.ring.first, hloop, hc.heapListp hs, hR.freeWalk_eq]
  show Except.ok (checkPrologue c.heap.mem h ++ _) = _
  unfold checkPrologue getSize getAlloc
  rw [hbefore]
  by_cases hfree : M.layout.free = []
  · simp [report, hfree]
  · simp [report, hfree]

/-- Two blocks in zeroed storage, and a free one behind them. -/
theorem mmCheck_reached_two : ∃ c, Reached (fun _ => 0) 8 c ∧
    c.grants = [⟨56, 5, true⟩, ⟨88, 5, true⟩] ∧ freeWalk c.heap = [112] ∧
    mmCheck c.heap = .ok ["Prologue header - wrong size",
      "Prologue header - allocation bit incorrect", outOfBounds, outOfBounds] := by
  obtain ⟨c, hc, heval⟩ := Reached.of_eval (m := fun _ => 0) (h := 8) [.malloc 5, .malloc 5]
    (P := fun c => c.grants = [⟨56, 5, true⟩, ⟨88, 5, true⟩] ∧ freeWalk c.heap = [112])
    (by decide +kernel)
  obtain ⟨hgrants, hfree⟩ := of_decide_eq_true heval
  have hs : Start (fun _ => 0) 8 := ⟨by decide, by decide, by decide, by decide⟩
  have hcheck := mmCheck_reached hs (by decide) hc
  rw [if_neg (by simp [hfree])] at hcheck
  exact ⟨c, hc, hgrants, hfree, hcheck⟩

end OsBasics.Malloc
