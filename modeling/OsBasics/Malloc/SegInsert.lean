/-
  The list operations of the segregated allocator never file a block.

  `SET(PREV_BLKP(ptr), …)` stores to the address that the first word of `ptr`
  holds, and so on: `insertBlock` leaves the links of the blocks to whatever
  they held. Into an empty list it does not even set the head
  (`insertBlock_empty`). Into any other it puts the block before the head
  (`insertBlock_head`), whose NEXT_BLKP is NULL: it stores through NULL unless
  its first store happens to hit that word, and then the links of the new list
  do not agree (`insertBlock_never`).
-/
import OsBasics.Lib.Runs
import OsBasics.Malloc.SegSearch
import OsBasics.Malloc.Tags

namespace OsBasics.Malloc.Seg

open OsBasics.Lib

/-- The blocks `bs` lie in the address space and no two of them overlap. A block is the
    bytes from its header to that of the block behind it. -/
structure Blocks (m : Mem) (bs : List Nat) : Prop where
  low : ∀ b ∈ bs, 4 ≤ b
  min : ∀ b ∈ bs, 16 ≤ getSize m (hdrp b)
  high : ∀ b ∈ bs, b + getSize m (hdrp b) ≤ addrSpace
  apart : ∀ b ∈ bs, ∀ c ∈ bs, b ≠ c →
    b + getSize m (hdrp b) ≤ c ∨ c + getSize m (hdrp c) ≤ b

/-- The class lists are the lists `ls` of blocks among `bs`, doubly linked, every block in
    the class of its size. -/
structure WellFormed (bs : List Nat) (s : SegHeap) (ls : Fin listCount → List Nat) : Prop where
  linked : ∀ c, ∃ last, DList 0 (prevBlkp s.heap.mem) (nextBlkp s.heap.mem) (s.seglist c) last (ls c)
  filed : Filed s ls
  blocks : ∀ c, ∀ b ∈ ls c, b ∈ bs

/-- The byte `q` is in a list-pointer word of the block `b`. -/
def InLinks (b q : Nat) : Prop := b ≤ q ∧ q < b + 4 ∨ b + 8 ≤ q ∧ q < b + 12

/-- From `s` with the lists `ls` to `s'` with `ls'`, the block `ptr` of `size` bytes has come
    into the list of its class, and nothing else has happened. -/
structure Inserted (s : SegHeap) (ls : Fin listCount → List Nat) (ptr size : Nat) (s' : SegHeap)
    (ls' : Fin listCount → List Nat) : Prop where
  once : (ls' (sizeClass size)).count ptr = 1
  elsewhere : ∀ c, c ≠ sizeClass size → ptr ∉ ls' c
  others : ∀ c b, b ≠ ptr → (b ∈ ls' c ↔ b ∈ ls c)
  frame : ∀ q, (∀ c, ∀ b ∈ ls' c, ¬ InLinks b q) → s'.heap.mem q = s.heap.mem q

/-- `insertBlock` files the block, and `removeBlock` then takes it out again. -/
def Files (bs : List Nat) (s : SegHeap) (ls : Fin listCount → List Nat) (ptr size : Nat) : Prop :=
  ∃ s' ls', insertBlock s ptr size = .ok s' ∧ WellFormed bs s' ls' ∧ Inserted s ls ptr size s' ls' ∧
    ∃ s'' ls'', removeBlock s' ptr = .ok s'' ∧ WellFormed bs s'' ls'' ∧
      ∀ c b, b ∈ ls'' c ↔ b ∈ ls c

/-! ## One store -/

theorem set_ok {s s' : SegHeap} {dest src : Nat} (h : set s dest src = .ok s') :
    dest ≠ 0 ∧ s' = put s dest src := by
  unfold set at h
  split at h
  · cases h
  · exact ⟨by assumption, (Except.ok.inj h).symm⟩

/-! ## The walk stops at the head -/

theorem halve_fst (n size count : Nat) :
    (halve n size count).1 = size / 2 ^ min n (Nat.log 2 size) := by
  induction n generalizing size count with
  | zero => rw [Nat.zero_min, Nat.pow_zero, Nat.div_one]; rfl
  | succ n ih =>
    unfold halve
    by_cases h : size > 1
    · have hlog : Nat.log 2 size = Nat.log 2 (size / 2) + 1 :=
        Nat.log_of_one_lt_of_le (by decide) h
      rw [if_pos h, ih, hlog, Nat.add_min_add_right, Nat.pow_succ', Nat.div_div_eq_div_mul]
    · rw [if_neg h, Nat.log_of_lt (by omega), Nat.min_zero, Nat.pow_zero, Nat.div_one]

/-- The halved size is not above the size of any block of the class. -/
theorem halved_le {size z : Nat} (hsize : size < addrSpace) (hz : 0 < z)
    (hclass : sizeClass z = sizeClass size) : (halve (listCount - 1) size 0).1 ≤ z := by
  have hsame := congrArg Fin.val hclass
  rw [sizeClass_eq, sizeClass_eq] at hsame
  rw [halve_fst]
  unfold listCount addrSpace at *
  by_cases hlast : Nat.log 2 size < 19
  · have hup := Nat.lt_pow_succ_log_self (b := 2) (by decide) size
    rw [Nat.pow_succ] at hup
    rw [Nat.min_eq_right (by omega)]
    have hone : size / 2 ^ Nat.log 2 size < 2 :=
      (Nat.div_lt_iff_lt_mul (Nat.two_pow_pos _)).2 (by omega)
    omega
  · have hlow := Nat.pow_le_of_le_log (b := 2) (by omega) (show 19 ≤ Nat.log 2 z by omega)
    rw [Nat.min_eq_left (by omega)]
    omega

section Insert

variable {s s' : SegHeap} {ptr size : Nat}

/-- Into an empty list no block comes: its head stays NULL. -/
theorem insertBlock_empty (h0 : s.seglist (sizeClass size) = 0)
    (h : insertBlock s ptr size = .ok s') : s'.seglist = s.seglist := by
  rw [insertBlock_unlisted h0] at h
  obtain ⟨s₁, h₁, h⟩ := bind_ok h
  obtain ⟨-, rfl⟩ := set_ok h₁
  obtain ⟨-, rfl⟩ := set_ok h
  rfl

/-- Into another list the block comes before the head `tmp`, if the stores find a way. -/
theorem insertBlock_head {tmp : Nat} (htmp : s.seglist (sizeClass size) = tmp) (h0 : tmp ≠ 0)
    (hstop : (halve (listCount - 1) size 0).1 ≤ getSize s.heap.mem (hdrp tmp))
    (h : insertBlock s ptr size = .ok s') :
    ∃ m₁ m₂, m₁ = putWord s.heap.mem (prevBlkp s.heap.mem ptr) tmp ∧
      nextBlkp m₁ tmp ≠ 0 ∧ m₂ = putWord m₁ (nextBlkp m₁ tmp) ptr ∧
      nextBlkp m₂ ptr ≠ 0 ∧ s'.heap.mem = putWord m₂ (nextBlkp m₂ ptr) 0 ∧
      prevBlkp s.heap.mem ptr ≠ 0 ∧ s'.seglist (sizeClass size) = ptr := by
  have hwalk : walk s.heap.mem (halve (listCount - 1) size 0).1 walkBound 0 tmp = .ok (0, tmp) :=
    if_neg fun hgo => absurd hgo.2 (by omega)
  unfold insertBlock at h
  dsimp only at h
  rw [htmp, hwalk] at h
  obtain ⟨p, hp, h⟩ := bind_ok h
  cases hp
  rw [if_pos h0, if_neg (by simp)] at h
  obtain ⟨s₁, h₁, h⟩ := bind_ok h
  obtain ⟨hp₁, rfl⟩ := set_ok h₁
  obtain ⟨s₂, h₂, h⟩ := bind_ok h
  obtain ⟨hp₂, rfl⟩ := set_ok h₂
  obtain ⟨s₃, h₃, h⟩ := bind_ok h
  obtain ⟨hp₃, rfl⟩ := set_ok h₃
  cases h
  exact ⟨_, _, rfl, hp₂, rfl, hp₃, rfl, hp₁, if_pos rfl⟩

end Insert

/-! ## No call files a block -/

/-- The word at `p` is unchanged unless the store to `d` overlaps it. -/
theorem near_of_get_ne {m : Mem} {d v p : Nat} (h : get (putWord m d v) p ≠ get m p) :
    p < d + 4 ∧ d < p + 4 := by
  by_contra hfar
  exact h (get_putWord_ne m v (by omega))

section Never

variable {bs : List Nat} {m : Mem} {s : SegHeap} {ls : Fin listCount → List Nat} {ptr : Nat}

theorem Blocks.nextBlkp_eq (hb : Blocks m bs) {b : Nat} (hmem : b ∈ bs) (m' : Mem) :
    nextBlkp m' b = get m' (b + 8) := by
  have h1 := hb.min b hmem
  have h2 := hb.high b hmem
  unfold nextBlkp
  rw [addU_eq (by unfold dsize; omega)]
  rfl

/-- Nothing inside a block is another block. -/
theorem Blocks.eq_of_near (hb : Blocks m bs) {b c : Nat} (hbm : b ∈ bs) (hcm : c ∈ bs)
    (h1 : b < c + 16) (h2 : c < b + 16) : b = c := by
  by_contra hne
  have h3 := hb.min b hbm
  have h4 := hb.min c hcm
  rcases hb.apart b hbm c hcm hne with h | h <;> omega

/-- When the three stores of the head case go through, no list that starts with `ptr` and
    goes on to `tmp` is linked both ways. -/
theorem stores_disagree (hb : Blocks m bs) {tmp : Nat} (htmp : tmp ∈ bs) (hptr : ptr ∈ bs)
    (hne : tmp ≠ ptr) (hzero : nextBlkp m tmp = 0) {m₁ m₂ m₃ : Mem}
    (hm₁ : m₁ = putWord m (prevBlkp m ptr) tmp) (hm₂ : m₂ = putWord m₁ (nextBlkp m₁ tmp) ptr)
    (hm₃ : m₃ = putWord m₂ (nextBlkp m₂ ptr) 0) (hp₁ : prevBlkp m ptr ≠ 0)
    (hp₂ : nextBlkp m₁ tmp ≠ 0) (hp₃ : nextBlkp m₂ ptr ≠ 0) {l : List Nat} {last : Nat}
    (hl : DList 0 (prevBlkp m₃) (nextBlkp m₃) ptr last (ptr :: l)) (hmem : tmp ∈ ptr :: l)
    (hsub : ∀ b ∈ ptr :: l, b ∈ bs) : False := by
  have hnext := hb.nextBlkp_eq htmp
  have hnext' := hb.nextBlkp_eq hptr
  rw [hnext] at hzero hp₂ hm₂
  rw [hnext'] at hp₃ hm₃
  have h1 := hb.min tmp htmp
  have h2 := hb.min ptr hptr
  have hfar := hb.apart tmp htmp ptr hptr hne
  -- the first store hits NEXT_BLKP of the head
  have hnear₁ : tmp + 8 < prevBlkp m ptr + 4 ∧ prevBlkp m ptr < tmp + 8 + 4 := by
    apply near_of_get_ne (v := tmp) (m := m)
    rw [← hm₁, hzero]
    exact hp₂
  -- the third one hits NEXT_BLKP of the block
  have hlast : get m₃ (ptr + 8) = 0 := by
    rw [← hnext']
    exact hl.prev_head
  have hnear₃ : ptr + 8 < get m₂ (ptr + 8) + 4 ∧ get m₂ (ptr + 8) < ptr + 8 + 4 := by
    apply near_of_get_ne (v := 0) (m := m₂)
    rw [← hm₃, hlast]
    exact hp₃.symm
  have hprev₃ : prevBlkp m₃ ptr = get m₂ ptr := by
    rw [hm₃]
    exact get_putWord_ne m₂ 0 (by omega)
  have hprev₁ : get m₁ ptr = prevBlkp m ptr := by
    rw [hm₁]
    exact get_putWord_ne m tmp (by omega)
  have hself : prevBlkp m₃ ptr ≠ ptr := hl.fwd.next_ne_head List.mem_cons_self
  by_cases hover : ptr < get m₁ (tmp + 8) + 4 ∧ get m₁ (tmp + 8) < ptr + 4
  · -- the second store hits the block: it is where NEXT_BLKP of the old head leads
    have htmp₂ : get m₂ (tmp + 8) = get m₁ (tmp + 8) := by
      rw [hm₂]
      exact get_putWord_ne m₁ ptr (by omega)
    have htmp₃ : nextBlkp m₃ tmp = get m₁ (tmp + 8) := by
      rw [hnext, hm₃, ← htmp₂]
      exact get_putWord_ne m₂ 0 (by omega)
    have hin : get m₁ (tmp + 8) ∈ bs := by
      rcases hl.bwd.next_mem (List.mem_reverse.2 hmem) with h | h
      · exact absurd (htmp₃.symm.trans h) hp₂
      · rw [htmp₃] at h
        exact hsub _ (List.mem_reverse.1 h)
    have heq := hb.eq_of_near hin hptr (by omega) (by omega)
    apply hself
    rw [hprev₃, hm₂, heq]
    exact get_putWord_same m₁ ptr (by have := hb.high ptr hptr; omega)
  · -- the link of the block is still the address inside the old head
    have hprev₂ : prevBlkp m₃ ptr = prevBlkp m ptr := by
      rw [hprev₃, ← hprev₁, hm₂]
      exact get_putWord_ne m₁ ptr (by omega)
    have hin : prevBlkp m ptr ∈ bs := by
      rcases hl.fwd.next_mem List.mem_cons_self with h | h
      · exact absurd (hprev₂.symm.trans h) hp₁
      · rw [hprev₂] at h
        exact hsub _ h
    have heq := hb.eq_of_near hin htmp (by omega) (by omega)
    omega

/-- `insertBlock` never does what it is for, whatever the lists and the block hold. -/
theorem insertBlock_never (hwf : WellFormed bs s ls) (hb : Blocks s.heap.mem bs) (hptr : ptr ∈ bs)
    (hfree : getAlloc s.heap.mem (hdrp ptr) = 0) (hnew : ∀ c, ptr ∉ ls c) :
    ¬ Files bs s ls ptr (getSize s.heap.mem (hdrp ptr)) := by
  rintro ⟨s', ls', hcall, hwf', hins, -⟩
  generalize hsz : getSize s.heap.mem (hdrp ptr) = size at hcall hins
  obtain ⟨last, hlist⟩ := hwf.linked (sizeClass size)
  obtain ⟨last', hlist'⟩ := hwf'.linked (sizeClass size)
  have hmem : ptr ∈ ls' (sizeClass size) := by
    apply List.count_pos_iff.1
    rw [hins.once]
    exact Nat.zero_lt_one
  cases hold : ls (sizeClass size) with
  | nil =>
    rw [hold] at hlist
    -- the head is still NULL
    have hnull := insertBlock_empty hlist.fwd hcall
    have hfwd := hlist'.fwd
    rw [hnull, show s.seglist (sizeClass size) = 0 from hlist.fwd] at hfwd
    rw [hfwd.nil_of_null] at hmem
    cases hmem
  | cons tmp l =>
    have htmpls : tmp ∈ ls (sizeClass size) := by
      rw [hold]
      exact List.mem_cons_self
    have hne : tmp ≠ ptr := by
      rintro rfl
      exact hnew _ htmpls
    have htmp := hwf.blocks _ tmp htmpls
    have htmp' : tmp ∈ ls' (sizeClass size) := (hins.others _ tmp hne).2 htmpls
    rw [hold] at hlist
    have hzero : nextBlkp s.heap.mem tmp = 0 := hlist.prev_head
    have hstop : (halve (listCount - 1) size 0).1 ≤ getSize s.heap.mem (hdrp tmp) := by
      have h1 := hb.min tmp htmp
      have h2 := hb.high ptr hptr
      have h3 := hb.low ptr hptr
      exact halved_le (by omega) (by omega) (hwf.filed _ tmp htmpls)
    obtain ⟨m₁, m₂, hm₁, hp₂, hm₂, hp₃, hm₃, hp₁, hhead⟩ :=
      insertBlock_head hlist.fwd.1 hlist.fwd.2.1 hstop hcall
    have hsub (b : Nat) (hbmem : b ∈ ls' (sizeClass size)) : b ∈ bs := hwf'.blocks _ b hbmem
    rw [hhead] at hlist'
    cases hnewl : ls' (sizeClass size) with
    | nil =>
      rw [hnewl] at hmem
      cases hmem
    | cons x l' =>
      rw [hnewl] at hlist' htmp' hsub
      obtain rfl : ptr = x := hlist'.fwd.1
      exact stores_disagree hb htmp hptr hne hzero hm₁ hm₂ hm₃ hp₁ hp₂ hp₃ hlist' htmp' hsub

end Never

/-- The blocks of 24 bytes at 104, listed, and at 128, not listed and naming itself. -/
def twoBlocks : SegHeap where
  heap := memInit (putWord (putWord (putWord oneBlock.heap.mem 124 24) 128 128) 136 128) 96
  seglist := oneBlock.seglist

theorem insertBlock_never_two : ¬ Files [104, 128] twoBlocks oneList 128 24 := by
  have hlinked (c : Fin listCount) : ∃ last, DList 0 (prevBlkp twoBlocks.heap.mem)
      (nextBlkp twoBlocks.heap.mem) (twoBlocks.seglist c) last (oneList c) := by
    by_cases hc : c.val = 4
    · refine ⟨104, ?_⟩
      rw [show twoBlocks.seglist c = 104 from if_pos hc, show oneList c = [104] from if_pos hc]
      exact ⟨⟨rfl, by decide, by rfl⟩, ⟨rfl, by decide, by rfl⟩⟩
    · refine ⟨0, ?_⟩
      rw [show twoBlocks.seglist c = 0 from if_neg hc, show oneList c = [] from if_neg hc]
      exact DList.nil
  have hblocks : Blocks twoBlocks.heap.mem [104, 128] := ⟨by decide, by decide, by decide, by decide⟩
  exact insertBlock_never ⟨hlinked, by decide, by decide⟩ hblocks (show 128 ∈ [104, 128] by decide)
    (by decide) (by decide)

/-- The first block `mm_init` makes, of 4096 bytes in zeroed memory. -/
def firstBlock : SegHeap where
  heap := memInit (putWord (fun _ => 0) 188 4096) 96
  seglist := fun _ => 0

/-- Its two link words are 0, so `insertBlock` stores through NULL. -/
theorem insertBlock_first : WellFormed [192] firstBlock (fun _ => []) ∧
    Blocks firstBlock.heap.mem [192] ∧ getAlloc firstBlock.heap.mem (hdrp 192) = 0 ∧
    getSize firstBlock.heap.mem (hdrp 192) = 4096 ∧
    insertBlock firstBlock 192 4096 = .error .null ∧
    ¬ Files [192] firstBlock (fun _ => []) 192 4096 := by
  have hcall : insertBlock firstBlock 192 4096 = .error .null := by rfl
  refine ⟨⟨fun c => ⟨0, DList.nil⟩, by decide, by decide⟩, ⟨by decide, by decide, by decide, by decide⟩,
    by decide, by decide, hcall, ?_⟩
  rintro ⟨s', ls', h, -⟩
  rw [hcall] at h
  cases h

end OsBasics.Malloc.Seg
