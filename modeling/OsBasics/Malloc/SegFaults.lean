/-
  Where the calls of the segregated allocator store through NULL.

  `insertBlock` begins with a store through the first word of the block
  (`insertBlock_null`), and `removeBlock` reads through NEXT_BLKP, which is NULL
  at the head of a list (`removeBlock_null`). In storage that still holds zeroes
  every path through `coalesce` comes to one of the two, so `mm_init` does not
  return (`mmInit_null`). In lists that are as they should be, `place` takes the
  head of a class out, and `mm_malloc` does not return either
  (`mmMalloc_head`).
-/
import OsBasics.Malloc.Refine
import OsBasics.Malloc.SegInsert

namespace OsBasics.Malloc.Seg

open OsBasics.Lib

section Null

variable {l : Locals} {s : SegHeap} {ptr bp size words : Nat}

/-! ## The list operations -/

theorem set_null (s : SegHeap) (src : Nat) : set s 0 src = .error .null := if_pos rfl

/-- Into an empty class a block whose first word is NULL does not come. -/
theorem insertBlock_null (hlist : s.seglist (sizeClass size) = 0) (hfirst : prevBlkp s.heap.mem ptr = 0) :
    insertBlock s ptr size = .error .null := by
  rw [insertBlock_unlisted hlist, hfirst, set_null]
  rfl

/-- A block whose NEXT_BLKP is NULL is not taken out of a list. -/
theorem removeBlock_null (hnext : nextBlkp s.heap.mem bp = 0) : removeBlock s bp = .error .null := by
  have hderef : listNext s.heap.mem bp = .error .null := if_pos hnext
  unfold removeBlock
  dsimp only
  rw [hderef]
  rfl

/-- The head of a list, its tail and the block before the tail are not taken out of it. -/
theorem removeBlock_listed {p t : Nat} {l₁ l₂ : List Nat}
    (hlist : DList 0 (prevBlkp s.heap.mem) (nextBlkp s.heap.mem) p t (l₁ ++ bp :: l₂))
    (hend : l₁ = [] ∨ l₂.length ≤ 1) : removeBlock s bp = .error .null := by
  rcases List.eq_nil_or_concat l₁ with rfl | ⟨l, y, rfl⟩
  · exact removeBlock_null (hlist.prev_eq.trans rfl)
  rw [List.concat_eq_append] at hlist
  have hnext : nextBlkp s.heap.mem bp = y := by
    rw [hlist.prev_eq, List.getLast?_concat]
    rfl
  have hback : prevBlkp s.heap.mem y = bp := by
    rw [List.append_assoc] at hlist
    exact hlist.next_eq
  have hy : y ≠ 0 := hlist.fwd.ne_null (by simp)
  have hbp : bp ≠ 0 := hlist.fwd.ne_null (by simp)
  have hderef : listNext s.heap.mem bp = .ok bp := by
    unfold listNext
    rw [hnext, deref, if_neg hy]
    exact congrArg _ hback
  unfold removeBlock
  dsimp only
  rw [hderef]
  match l₂, hend, hlist with
  | [], _, hlist =>
    have hlast : prevBlkp s.heap.mem bp = 0 := hlist.next_eq
    simp only [bind, Except.bind, hlast, ne_eq, not_true_eq_false, hbp, not_false_eq_true, if_false, if_true,
      set_null]
  | [c], _, hlist =>
    have hnext' : prevBlkp s.heap.mem bp = c := hlist.next_eq
    have hlast : prevBlkp s.heap.mem c = 0 := by
      rw [List.append_cons] at hlist
      exact hlist.next_eq
    have hc : c ≠ 0 := hlist.fwd.ne_null (by simp)
    simp only [bind, Except.bind, hnext', hlast, ne_eq, hc, hbp, not_false_eq_true, if_true, set_null]
  | c :: d :: l₂, hend, _ => simp at hend

/-- `coalesce` comes to a store or a read through NULL, whatever its locals hold. -/
theorem coalesce_null (hlist : ∀ c, s.seglist c = 0) (hfirst : prevBlkp s.heap.mem ptr = 0)
    (hleft : l.leftAlloc = 0 → nextBlkp s.heap.mem (leftBlkp s.heap.mem ptr) = 0)
    (hright : nextBlkp s.heap.mem (rightBlkp s.heap.mem ptr) = 0) :
    coalesce l s ptr = .error .null := by
  unfold coalesce
  by_cases hl : l.leftAlloc = 0
  · have hrem := removeBlock_null (hleft hl)
    by_cases hr : l.rightAlloc = 0
    · simp only [hl, hr, ne_eq, not_true_eq_false, false_and, and_false, if_false, hrem]
      rfl
    · simp only [hl, hr, ne_eq, not_true_eq_false, not_false_eq_true, false_and, and_self, if_false,
        if_true, hrem]
      rfl
  · by_cases hr : l.rightAlloc = 0
    · have hrem := removeBlock_null hright
      simp only [hl, hr, ne_eq, not_true_eq_false, not_false_eq_true, and_false, and_self, if_false,
        if_true, hrem]
      rfl
    · simp only [hl, hr, ne_eq, not_false_eq_true, and_self, if_true, insertBlock_null (hlist _) hfirst]
      rfl

/-! ## Zeroed storage -/

/-- The next `size` bytes and the three words behind them can be handed out and are zero, and no
    block is listed. -/
structure Fresh (s : SegHeap) (size : Nat) : Prop where
  low : 8 ≤ s.heap.memBrk
  room : s.heap.memBrk + size + 12 ≤ s.heap.memMaxAddr
  high : s.heap.memMaxAddr < addrSpace
  zero : ∀ q, s.heap.memBrk ≤ q → q < s.heap.memMaxAddr → s.heap.mem q = 0
  unlisted : ∀ c, s.seglist c = 0

theorem Fresh.get_zero (hf : Fresh s size) {p : Nat} (hlo : s.heap.memBrk ≤ p)
    (hhi : p + 4 ≤ s.heap.memMaxAddr) : get s.heap.mem p = 0 :=
  (get_congr (m := fun _ => 0) fun q _ _ => hf.zero q (by omega) (by omega)).trans rfl

section Sizes

variable {m : Mem} {b n : Nat}

theorem getSize_putWord (m : Mem) (p : Nat) (hdw : n % 8 = 0) (hn : n < addrSpace) :
    getSize (putWord m p n) p = n := by
  unfold getSize
  rw [get_putWord_same _ _ hn, ← Nat.add_zero n]
  exact clearLow_add hdw (by decide)

theorem rightBlkp_of_size (hb : 4 ≤ b) (hn : getSize m (b - 4) = n) (hspace : b + n < addrSpace) :
    rightBlkp m b = b + n := by
  unfold rightBlkp
  rw [hdrp_eq hb, hn, addU_eq hspace]

theorem ftrp_of_size (hb : 4 ≤ b) (hn : getSize m (b - 4) = n) (hmin : 8 ≤ n)
    (hspace : b + n ≤ addrSpace) : ftrp m b = b + n - 8 := by
  unfold ftrp
  rw [hdrp_eq hb, hn]
  unfold addU subU dsize
  split <;> split <;> omega

theorem leftBlkp_of_size (hb : 8 ≤ b) (hn : getSize m (b - 8) = n) (hle : n ≤ b) :
    leftBlkp m b = b - n := by
  have hword : subU (b - 4) wsize = b - 8 := subU_eq (by unfold wsize; omega)
  unfold leftBlkp
  rw [hdrp_eq (by omega), hword, hn, subU_eq hle]

end Sizes

/-- Memory `m` after `extend_heap` has written the tags of a block of `size` bytes at `b`. -/
def grown (m : Mem) (b size : Nat) : Mem :=
  putWord (putWord (putWord m (b - 4) size) (b + size - 8) size) (b + size - 4) (pack 0 1)

theorem grown_get (m : Mem) {b p : Nat} (hb : 4 ≤ b) (hmin : 8 ≤ size)
    (h : p + 4 ≤ b - 4 ∨ b ≤ p ∧ p + 4 ≤ b + size - 8 ∨ b + size ≤ p) :
    get (grown m b size) p = get m p := by
  unfold grown
  rw [get_putWord_ne _ _ (by omega), get_putWord_ne _ _ (by omega), get_putWord_ne _ _ (by omega)]

theorem grown_header (m : Mem) {b : Nat} (hb : 4 ≤ b) (hmin : 8 ≤ size) (hdw : size % 8 = 0)
    (hn : size < addrSpace) : getSize (grown m b size) (b - 4) = size := by
  unfold grown getSize
  rw [get_putWord_ne _ _ (by omega), get_putWord_ne _ _ (by omega)]
  exact getSize_putWord m (b - 4) hdw hn

theorem extendHeap_eq (hf : Fresh s size) (hwords : words * wsize = size) (heven : words % 2 = 0)
    (hmin : 16 ≤ size) (hint : size < 2147483648) : extendHeap l s words =
      coalesce l ⟨{ s.heap with memBrk := s.heap.memBrk + size, mem := grown s.heap.mem s.heap.memBrk size },
        s.seglist⟩ s.heap.memBrk := by
  have hlow := hf.low
  have hroom := hf.room
  have hhigh := hf.high
  have hspace : s.heap.memBrk + size < addrSpace := by omega
  have hdw : size % 8 = 0 := by
    unfold wsize at hwords
    omega
  have hbreak : sizeToInt s.heap.memBrk ≠ -1 := by
    unfold sizeToInt addrSpace
    unfold addrSpace at hspace
    split <;> omega
  have hftrp : ftrp (putWord s.heap.mem (s.heap.memBrk - 4) size) s.heap.memBrk =
      s.heap.memBrk + size - 8 :=
    ftrp_of_size (by omega) (getSize_putWord _ _ hdw (by omega)) (by omega) hspace.le
  have hright : rightBlkp (putWord (putWord s.heap.mem (s.heap.memBrk - 4) size)
      (s.heap.memBrk + size - 8) size) s.heap.memBrk = s.heap.memBrk + size := by
    refine rightBlkp_of_size (by omega) ?_ hspace
    unfold getSize
    rw [get_putWord_ne _ _ (by omega)]
    exact getSize_putWord _ _ hdw (by omega)
  have hsize : words * wsize % addrSpace = size := by rw [hwords, Nat.mod_eq_of_lt (by omega)]
  unfold extendHeap
  simp only [heven, ne_eq, not_true_eq_false, if_false, hsize,
    Rep.memSbrk_grows (s := s.heap) hint (by omega) hspace]
  show (if sizeToInt s.heap.memBrk = -1 then _ else _) = _
  rw [if_neg hbreak]
  simp only [put, Malloc.put, pack_zero, hdrp_eq (show 4 ≤ s.heap.memBrk by omega), hftrp, hright,
    hdrp_eq (show 4 ≤ s.heap.memBrk + size by omega)]
  rfl

/-- The heap does not grow into zeroed storage, when the last block before it has 8 bytes, as the
    prologue has. -/
theorem extendHeap_null (hf : Fresh s size) (hwords : words * wsize = size) (heven : words % 2 = 0)
    (hmin : 16 ≤ size) (hint : size < 2147483648)
    (hlast : getSize s.heap.mem (s.heap.memBrk - 8) = 8) : extendHeap l s words = .error .null := by
  have hlow := hf.low
  have hroom := hf.room
  have hhigh := hf.high
  have hdw : size % 8 = 0 := by
    unfold wsize at hwords
    omega
  rw [extendHeap_eq hf hwords heven hmin hint]
  have hfirst : get (grown s.heap.mem s.heap.memBrk size) s.heap.memBrk = 0 :=
    (grown_get _ (by omega) (by omega) (by omega)).trans (hf.get_zero le_rfl (by omega))
  have hleft : leftBlkp (grown s.heap.mem s.heap.memBrk size) s.heap.memBrk = s.heap.memBrk - 8 := by
    refine leftBlkp_of_size hlow ?_ hlow
    unfold getSize
    rw [grown_get _ (by omega) (by omega) (by omega)]
    exact hlast
  have hright := rightBlkp_of_size (b := s.heap.memBrk) (by omega)
    (grown_header s.heap.mem (by omega) (by omega) hdw (by omega)) (by omega)
  refine coalesce_null hf.unlisted hfirst (fun _ => ?_) ?_
  · show get _ (addU (leftBlkp _ _) dsize) = 0
    rw [hleft, addU_eq (by unfold dsize; omega),
      show s.heap.memBrk - 8 + dsize = s.heap.memBrk by unfold dsize; omega]
    exact hfirst
  · show get _ (addU (rightBlkp _ _) dsize) = 0
    rw [hright, addU_eq (by unfold dsize; omega)]
    exact (grown_get _ (by omega) (by omega) (by unfold dsize; omega)).trans
      (hf.get_zero (by omega) (by unfold dsize; omega))

/-- `mm_init` does not return on storage that holds zeroes, whatever its locals hold. -/
theorem mmInit_null (l : Locals) {m : Mem} {h : Nat} (seglist : Fin listCount → Nat)
    (hspace : h + maxHeap < addrSpace) (hzero : ∀ q, h ≤ q → q < h + maxHeap → m q = 0) :
    mmInit l ⟨memInit m h, seglist⟩ = .error .null := by
  have hmax : (memInit m h).memMaxAddr = h + maxHeap := rfl
  have hbrk : (memInit m h).memBrk = h := rfl
  have hbreak : sizeToInt h ≠ -1 := by
    unfold sizeToInt addrSpace
    unfold maxHeap addrSpace at hspace
    split <;> omega
  have hsbrk : memSbrk (memInit m h) (24 * wsize) = .ok (h, { memInit m h with memBrk := h + 96 }) :=
    Rep.memSbrk_grows (s := memInit m h) (e := 96) (by decide) (by rw [hmax, hbrk]; unfold maxHeap; omega)
      (by rw [hbrk]; unfold maxHeap at hspace; omega)
  have hadd (k : Nat) (hk : k < 24) : addU h (k * wsize) = h + 4 * k := by
    rw [addU_eq (by unfold wsize; unfold maxHeap at hspace; omega), wsize, Nat.mul_comm]
  generalize hm' : putWord (putWord (putWord (putWord m h 0) (h + 84) (pack dsize 1)) (h + 88)
    (pack dsize 1)) (h + 92) (pack 0 1) = m'
  have hprologue : getSize m' (h + 88) = 8 := by
    unfold getSize
    rw [← hm', get_putWord_ne _ _ (by omega), get_putWord_same _ _ (by decide)]
    rfl
  have hkept (q : Nat) (hq : h + 96 ≤ q) : m' q = m q := by
    rw [← hm', putWord_byte _ _ (by omega), putWord_byte _ _ (by omega), putWord_byte _ _ (by omega),
      putWord_byte _ _ (by omega)]
  have hf : Fresh ⟨{ memInit m h with memBrk := h + 96, start := h, mem := m' }, fun _ => 0⟩ 4096 :=
    ⟨by show 8 ≤ h + 96; omega, by show h + 96 + 4096 + 12 ≤ h + maxHeap; unfold maxHeap; omega, hspace,
      fun q h1 h2 => (hkept q h1).trans (hzero q (Nat.le_of_add_right_le h1) h2), fun _ => rfl⟩
  have hext := extendHeap_null (l := l) hf (show 1024 * wsize = 4096 from rfl) rfl (by decide) (by decide) hprologue
  unfold mmInit
  simp only [hsbrk]
  show (if sizeToInt h = -1 then _ else _) = _
  rw [if_neg hbreak]
  simp only [memInit] at hext
  simp only [memInit, put, Malloc.put, show addU h (21 * wsize) = h + 84 from hadd 21 (by decide),
    show addU h (22 * wsize) = h + 88 from hadd 22 (by decide),
    show addU h (23 * wsize) = h + 92 from hadd 23 (by decide), hm',
    show 1 <<< 12 / wsize = 1024 from rfl, hext]
  rfl

/-! ## Lists as they should be -/

section Ends

variable {bs : List Nat} {p t k v w : Nat} {ls : Fin listCount → List Nat} {l₁ l₂ : List Nat}

/-- The two tags of a block of `k` bytes at `bp` are no links, when it has 24 bytes at least. -/
theorem linked_tags (hb : Blocks s.heap.mem bs) (hbp : bp ∈ bs) (hk : 24 ≤ k)
    (hle : k ≤ getSize s.heap.mem (hdrp bp)) {xs : List Nat} (hsub : ∀ x ∈ xs, x ∈ bs)
    (hlist : DList 0 (prevBlkp s.heap.mem) (nextBlkp s.heap.mem) p t xs) :
    DList 0 (prevBlkp (putWord (putWord s.heap.mem (bp - 4) v) (bp + k - 8) w))
      (nextBlkp (putWord (putWord s.heap.mem (bp - 4) v) (bp + k - 8) w)) p t xs := by
  have hlow := hb.low bp hbp
  -- the two link words of a block are apart from the tags
  have hfar {x : Nat} (hx : x ∈ xs) (d : Nat) (hd : d = x ∨ d = x + 8) :
      get (putWord (putWord s.heap.mem (bp - 4) v) (bp + k - 8) w) d = get s.heap.mem d := by
    have hmin := hb.min x (hsub x hx)
    by_cases heq : x = bp
    · rw [get_putWord_ne _ _ (by omega), get_putWord_ne _ _ (by omega)]
    · have hapart := hb.apart x (hsub x hx) bp hbp heq
      rw [get_putWord_ne _ _ (by omega), get_putWord_ne _ _ (by omega)]
  refine hlist.congr (fun x hx => hfar hx x (.inl rfl)) fun x hx => ?_
  rw [hb.nextBlkp_eq (hsub x hx), hb.nextBlkp_eq (hsub x hx)]
  exact hfar hx (x + 8) (.inr rfl)

/-- `place` does not take a block from an end of its list. -/
theorem place_null (hb : Blocks s.heap.mem bs) (hsub : ∀ x ∈ l₁ ++ bp :: l₂, x ∈ bs)
    (hlist : DList 0 (prevBlkp s.heap.mem) (nextBlkp s.heap.mem) p t (l₁ ++ bp :: l₂))
    (hend : l₁ = [] ∨ l₂.length ≤ 1) (hmin : 24 ≤ size) (hdw : size % 8 = 0)
    (hfit : size ≤ getSize s.heap.mem (hdrp bp)) : place s bp size = .error .null := by
  have hbp : bp ∈ bs := hsub bp (by simp)
  have hlow := hb.low bp hbp
  have hhigh := hb.high bp hbp
  have htags {k : Nat} (hk : 24 ≤ k) (hk8 : k % 8 = 0) (hle : k ≤ getSize s.heap.mem (hdrp bp)) :
      removeBlock (put (put s (hdrp bp) (pack k 1))
        (ftrp (put s (hdrp bp) (pack k 1)).heap.mem bp) (pack k 1)) bp = .error .null := by
    have hsize : getSize (putWord s.heap.mem (bp - 4) (pack k 1)) (bp - 4) = k := by
      unfold getSize
      rw [pack_one hk8, get_putWord_same _ _ (by omega)]
      exact clearLow_add hk8 (by decide)
    have hftrp : ftrp (putWord s.heap.mem (bp - 4) (pack k 1)) bp = bp + k - 8 :=
      ftrp_of_size hlow hsize (by omega) (by omega)
    refine removeBlock_listed (p := p) (t := t) ?_ hend
    simp only [put_mem]
    rw [hdrp_eq hlow, hftrp]
    exact linked_tags hb hbp hk hle hsub hlist
  have hrem : subU (getSize s.heap.mem (hdrp bp)) size = getSize s.heap.mem (hdrp bp) - size :=
    subU_eq hfit
  have hcsize : getSize s.heap.mem (hdrp bp) % 8 = 0 := Nat.mul_mod_left _ 8
  unfold place
  dsimp only
  rw [hrem]
  by_cases hsplit : getSize s.heap.mem (hdrp bp) - size ≥ 2 * dsize
  · rw [if_pos hsplit, htags hmin hdw hfit]
    rfl
  · rw [if_neg hsplit]
    exact htags (by omega) hcsize le_rfl

/-- In lists as they should be, a request above 8 bytes does not return when the block found is the
    first of its class or one of the last two. -/
theorem mmMalloc_ends (hwf : WellFormed bs s ls) (hb : Blocks s.heap.mem bs) (hlo : 8 < size)
    (hhi : size < 2147483648) {c : Fin listCount} (hc : ls c = l₁ ++ bp :: l₂)
    (hbest : ∀ x ∈ l₁, getSize s.heap.mem (hdrp x) < newsize size)
    (hbelow : ∀ c' < c, ∀ x ∈ ls c', getSize s.heap.mem (hdrp x) < newsize size)
    (hfit : newsize size ≤ getSize s.heap.mem (hdrp bp)) (hend : l₁ = [] ∨ l₂.length ≤ 1) :
    mmMalloc l s size = .error .null := by
  have hbp0 : bp ≠ 0 := by
    obtain ⟨_, hlist⟩ := hwf.linked c
    exact hlist.fwd.ne_null (by rw [hc]; simp)
  have hfind : (ls c).find? (fits s (newsize size)) = some bp := by
    rw [hc, List.find?_append, List.find?_eq_none.2 fun x hx => by simpa [fits] using hbest x hx]
    exact List.find?_cons_of_pos (decide_eq_true hfit)
  have hlisted : Listed s ls := fun c => (hwf.linked c).elim fun _ h => h.fwd
  obtain ⟨bp', hcode, hfound⟩ := searchLoop_spec hlisted hwf.filed (le_newsize hhi) l.bp
    (show 0 < listCount by decide) fun c hc => absurd hc (Nat.not_lt_zero _)
  rw [Nat.pow_zero, Nat.div_one] at hcode
  have hmem : bp ∈ ls c := List.mem_of_find?_eq_some hfind
  have hyes : fits s (newsize size) bp = true := decide_eq_true hfit
  obtain rfl : bp' = bp := by
    rcases hfound with ⟨-, hnone⟩ | ⟨c', -, hfind', hlow⟩
    · rw [hnone c bp hmem] at hyes
      cases hyes
    · rcases lt_trichotomy c' c with hlt | rfl | hgt
      · have hsmall := hbelow c' hlt bp' (List.mem_of_find?_eq_some hfind')
        have hlarge : fits s (newsize size) bp' = true := List.find?_some hfind'
        exact absurd (of_decide_eq_true hlarge) (Nat.not_le.2 hsmall)
      · exact Option.some.inj (hfind'.symm.trans hfind)
      · rw [hlow c hgt bp hmem] at hyes
        cases hyes
  obtain ⟨last, hlist⟩ := hwf.linked c
  rw [hc] at hlist
  have hplace : place s bp' (newsize size) = .error .null := by
    have hnew := newsize_of_lt hhi
    rw [if_neg (by omega)] at hnew
    exact place_null hb (fun x hx => hwf.blocks c x (hc ▸ hx)) hlist hend (by omega) (by omega) hfit
  unfold mmMalloc
  rw [if_neg (by omega), hcode]
  show (if bp' ≠ 0 then _ else _) = _
  rw [if_pos hbp0, hplace]
  rfl

end Ends

end Null

/-- Storage from a fresh mapping. -/
theorem mmInit_null_zero : mmInit ⟨0, 0, 1⟩ ⟨memInit (fun _ => 0) 8, fun _ => 0⟩ = .error .null :=
  mmInit_null ⟨0, 0, 1⟩ (fun _ => 0) (by decide) fun _ _ _ => rfl

/-- The only block of its class is its head. -/
theorem mmMalloc_ends_one : mmMalloc ⟨0, 0, 0⟩ oneBlock 9 = .error .null := by
  have hlinked (c : Fin listCount) : ∃ last, DList 0 (prevBlkp oneBlock.heap.mem)
      (nextBlkp oneBlock.heap.mem) (oneBlock.seglist c) last (oneList c) := by
    by_cases hc : c.val = 4
    · rw [show oneBlock.seglist c = 104 from if_pos hc, show oneList c = [104] from if_pos hc]
      exact ⟨104, ⟨rfl, by decide, by rfl⟩, ⟨rfl, by decide, by rfl⟩⟩
    · rw [show oneBlock.seglist c = 0 from if_neg hc, show oneList c = [] from if_neg hc]
      exact ⟨0, DList.nil⟩
  have hwf : WellFormed [104] oneBlock oneList := ⟨hlinked, by decide, by decide⟩
  have hb : Blocks oneBlock.heap.mem [104] := ⟨by decide, by decide, by decide, by decide⟩
  have hc : oneList ⟨4, by decide⟩ = [] ++ 104 :: [] := rfl
  exact mmMalloc_ends hwf hb (show 8 < 9 by decide) (by decide) hc (by decide) (by decide) (by decide)
    (.inl rfl)

end OsBasics.Malloc.Seg
