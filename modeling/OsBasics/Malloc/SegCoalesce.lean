/-
  Boundary-tag merging in the segregated allocator.

  `coalesce` takes blocks out of the lists (`removals`), rewrites tags (`retag`)
  and inserts the result (`coalesce_eq`). What `retag` does on a heap with
  right tags is computed once for each pair of locals (`retag_none`,
  `retag_left`, `retag_right`, `retag_both`). When the list calls keep to their
  own words, the merge is right exactly when the locals agree with the tags and,
  where only the right block is free, it has the size of the left one
  (`coalesce_merges_iff`).
-/
import OsBasics.Malloc.SegInsert
import OsBasics.Malloc.SegLinks

namespace OsBasics.Malloc.Seg

open OsBasics.Lib

/-- The blocks `bs`, the prologue among them, tile the heap from `lo` to `hi`; the header and the footer
    of each hold its tag, and the epilogue header comes last. -/
structure Tagging (m : Mem) (lo hi : Nat) (bs : List Block) : Prop where
  tiles : Tiles lo bs hi
  low : 4 ≤ lo
  high : hi < addrSpace
  sized : ∀ b ∈ bs, 8 ≤ b.size ∧ b.size % 8 = 0
  tagged : ∀ b ∈ bs, Tagged m b
  epilogue : get m (hi - 4) = pack 0 1

/-- The byte `q` is in a header or a footer of the heap. -/
def InTags (bs : List Block) (hi q : Nat) : Prop :=
  (∃ b ∈ bs, (b.addr - 4 ≤ q ∧ q < b.addr) ∨
    (b.addr + b.size - 8 ≤ q ∧ q < b.addr + b.size - 4)) ∨ (hi - 4 ≤ q ∧ q < hi)

/-- From `s` to `s'` no tag of the heap changes. -/
def KeepsTags (bs : List Block) (hi : Nat) (s s' : SegHeap) : Prop :=
  ∀ q, InTags bs hi q → s'.heap.mem q = s.heap.mem q

/-- `coalesce` merges the free block `b`, with `x` to its left and `r` to its right, with those
    of its two neighbours that are free. -/
def Merges (l : Locals) (s : SegHeap) (lo hi : Nat) (pre : List Block) (x b : Block)
    (r : List Block) : Prop :=
  ∃ s', coalesce l s b.addr = .ok ((if x.alloc then b else x).addr, s') ∧
    Tagging s'.heap.mem lo hi (pre ++ push x (push b r))

/-- The size of the right neighbour, if it is free. -/
def freeRight : List Block → Nat
  | [] => 0
  | y :: _ => if y.alloc then 0 else y.size

/-- The locals say of the two neighbours what their tags say, and a right neighbour that is
    merged alone has the size of the left one. -/
structure Agrees (l : Locals) (x : Block) (r : List Block) : Prop where
  left : l.leftAlloc = 0 ↔ x.alloc = false
  right : l.rightAlloc = 0 ↔ freeRight r ≠ 0
  size : x.alloc = true → freeRight r ≠ 0 → freeRight r = x.size

/-! ## The three parts of coalesce -/

/-- `coalesce` takes the neighbours it is going to merge out of the lists. -/
def removals (l : Locals) (s : SegHeap) (ptr : Nat) : Except Fault SegHeap := do
  let s ← if l.leftAlloc = 0 then removeBlock s (leftBlkp s.heap.mem ptr) else pure s
  if l.rightAlloc = 0 then removeBlock s (rightBlkp s.heap.mem ptr) else pure s

theorem removals_eq {s s₁ : SegHeap} {ptr : Nat}
    (hleft : (if l.leftAlloc = 0 then removeBlock s (leftBlkp s.heap.mem ptr) else pure s) = .ok s₁) :
    removals l s ptr =
      if l.rightAlloc = 0 then removeBlock s₁ (rightBlkp s₁.heap.mem ptr) else pure s₁ := by
  unfold removals
  by_cases hl : l.leftAlloc = 0
  · rw [if_pos hl] at hleft
    simp only [if_pos hl, hleft]
    rfl
  · rw [if_neg hl] at hleft
    obtain rfl : s = s₁ := Except.ok.inj hleft
    simp only [if_neg hl]
    rfl

/-- The tags that `coalesce` then writes, with the pointer and the size it inserts. -/
def retag (l : Locals) (s : SegHeap) (ptr size : Nat) : Nat × Nat × SegHeap :=
  let m := s.heap.mem
  if l.leftAlloc ≠ 0 ∧ l.rightAlloc ≠ 0 then (ptr, size, s)
  else if l.leftAlloc = 0 ∧ l.rightAlloc ≠ 0 then
    let size := addU size (getSize m (hdrp (leftBlkp m ptr)))
    let s := put s (ftrp m ptr) (pack size 0)
    let s := put s (hdrp (leftBlkp s.heap.mem ptr)) (pack size 0)
    (leftBlkp s.heap.mem ptr, size, s)
  else if l.leftAlloc ≠ 0 ∧ l.rightAlloc = 0 then
    let size := addU size (getSize m (hdrp (leftBlkp m ptr)))
    let s := put s (hdrp ptr) (pack size 0)
    let s := put s (ftrp s.heap.mem ptr) (pack size 0)
    (ptr, size, s)
  else
    let size := addU (addU size (getSize m (hdrp (leftBlkp m ptr))))
      (getSize m (ftrp m (rightBlkp m ptr)))
    let s := put s (hdrp (leftBlkp m ptr)) (pack size 0)
    let s := put s (ftrp s.heap.mem (rightBlkp s.heap.mem ptr)) (pack size 0)
    (leftBlkp s.heap.mem ptr, size, s)

theorem coalesce_eq (l : Locals) (s : SegHeap) (ptr : Nat) :
    coalesce l s ptr = (do
      let s₁ ← removals l s ptr
      let (p, size, s₂) := retag l s₁ ptr (getSize s.heap.mem (hdrp ptr))
      let s₃ ← insertBlock s₂ p size
      pure (p, s₃)) := by
  unfold coalesce removals retag
  by_cases hl : l.leftAlloc = 0
  · by_cases hr : l.rightAlloc = 0
    · simp only [hl, hr, ne_eq, not_true_eq_false, false_and, and_false, if_false, if_true]
      cases removeBlock s (leftBlkp s.heap.mem ptr) with
      | error e => rfl
      | ok s₁ => rfl
    · simp only [hl, hr, ne_eq, not_true_eq_false, not_false_eq_true, false_and, and_self, if_false,
        if_true]
      cases removeBlock s (leftBlkp s.heap.mem ptr) with
      | error e => rfl
      | ok s₁ => rfl
  · by_cases hr : l.rightAlloc = 0
    · simp only [hl, hr, ne_eq, not_true_eq_false, not_false_eq_true, and_false, and_self, if_false,
        if_true]
      rfl
    · simp only [hl, hr, ne_eq, not_false_eq_true, and_self, if_false, if_true]
      rfl

/-- The list calls of `coalesce` return, and neither the removals nor the insertion changes a tag. -/
def QuietLists (bs : List Block) (hi : Nat) (l : Locals) (s : SegHeap) (ptr : Nat) : Prop :=
  ∃ s₁ s₂, removals l s ptr = .ok s₁ ∧ KeepsTags bs hi s s₁ ∧
    let t := retag l s₁ ptr (getSize s.heap.mem (hdrp ptr))
    insertBlock t.2.2 t.1 t.2.1 = .ok s₂ ∧ KeepsTags bs hi t.2.2 s₂

/-! ## Tagged heaps -/

namespace Tagging

variable {m m' : Mem} {lo hi : Nat} {bs pre mid post : List Block} {b c : Block}

theorem congr (ht : Tagging m lo hi bs) (h : ∀ q, InTags bs hi q → m' q = m q) :
    Tagging m' lo hi bs where
  tiles := ht.tiles
  low := ht.low
  high := ht.high
  sized := ht.sized
  tagged := fun b hb => (ht.tagged b hb).congr (fun q h1 h2 => h q (.inl ⟨b, hb, .inl (by
      have := (tiles_mem ht.tiles hb).1
      have := ht.low
      omega)⟩))
    fun q h1 h2 => h q (.inl ⟨b, hb, .inr (by
      have := (ht.sized b hb).1
      omega)⟩)
  epilogue := (get_congr fun q h1 h2 => h q (.inr (by
    have := tiles_le ht.tiles
    have := ht.low
    omega))).trans ht.epilogue

theorem room (ht : Tagging m lo hi bs) (hb : b ∈ bs) : Room b where
  low := ht.low.trans (tiles_mem ht.tiles hb).1
  high := Nat.lt_of_le_of_lt (tiles_mem ht.tiles hb).2 ht.high
  min := (ht.sized b hb).1
  dword := (ht.sized b hb).2

/-- Blocks side by side become one when its two tags are written. -/
theorem join (ht : Tagging m lo hi (pre ++ (mid ++ post))) (htiles : Tiles lo (pre ++ c :: post) hi)
    (hsize : 8 ≤ c.size ∧ c.size % 8 = 0) (htag : Tagged m' c)
    (hoff : ∀ q, ¬ (c.addr - 4 ≤ q ∧ q < c.addr) →
      ¬ (c.addr + c.size - 8 ≤ q ∧ q < c.addr + c.size - 4) → m' q = m q) :
    Tagging m' lo hi (pre ++ c :: post) := by
  obtain ⟨hpre, hpost⟩ := tiles_around htiles
  have hc := tiles_mem htiles (List.mem_append_right pre List.mem_cons_self)
  have hlow := ht.low
  have hold (d : Block) (hd : d ∈ pre ++ c :: post) (hne : d = c ∨ d ∈ pre ∨ d ∈ post) :
      d = c ∨ d ∈ pre ++ (mid ++ post) := by
    rcases hne with h | h | h
    · exact .inl h
    · exact .inr (List.mem_append_left _ h)
    · exact .inr (List.mem_append_right _ (List.mem_append_right _ h))
  have hcase (d : Block) (hd : d ∈ pre ++ c :: post) : d = c ∨ d ∈ pre ∨ d ∈ post := by
    simp only [List.mem_append, List.mem_cons] at hd
    tauto
  refine ⟨htiles, ht.low, ht.high, fun d hd => ?_, fun d hd => ?_, ?_⟩
  · rcases hold d hd (hcase d hd) with rfl | h
    · exact hsize
    · exact ht.sized d h
  · rcases hcase d hd with rfl | h | h
    · exact htag
    · have h1 := hpre d h
      have h2 := ht.sized d (List.mem_append_left _ h)
      exact (ht.tagged d (List.mem_append_left _ h)).congr
        (fun q _ _ => hoff q (by omega) (by omega)) fun q _ _ => hoff q (by omega) (by omega)
    · have h1 := hpost d h
      have h2 := ht.sized d (List.mem_append_right _ (List.mem_append_right _ h))
      exact (ht.tagged d (List.mem_append_right _ (List.mem_append_right _ h))).congr
        (fun q _ _ => hoff q (by omega) (by omega)) fun q _ _ => hoff q (by omega) (by omega)
  · exact (get_congr fun q _ _ => hoff q (by omega) (by omega)).trans ht.epilogue

/-- The same, with the two stores in either order. -/
theorem join_put (ht : Tagging m lo hi (pre ++ (mid ++ post))) (htiles : Tiles lo (pre ++ c :: post) hi)
    (hsize : 8 ≤ c.size ∧ c.size % 8 = 0) (hfree : c.alloc = false) {p q : Nat}
    (hpq : p = c.addr - 4 ∧ q = c.addr + c.size - 8 ∨ p = c.addr + c.size - 8 ∧ q = c.addr - 4) :
    Tagging (putWord (putWord m p c.size) q c.size) lo hi (pre ++ c :: post) := by
  have hc := tiles_mem htiles (List.mem_append_right pre List.mem_cons_self)
  have hlow := ht.low
  have hhigh := ht.high
  refine ht.join htiles hsize ?_ fun r h1 h2 => ?_
  · have hdone (d : Nat) (hd : d = p ∨ d = q) :
        get (putWord (putWord m p c.size) q c.size) d = c.size := by
      rcases hd with rfl | rfl
      · rw [get_putWord_ne _ _ (by omega), get_putWord_same _ _ (by omega)]
      · exact get_putWord_same _ _ (by omega)
    exact ⟨(hdone _ (by omega)).trans (tag_free hfree).symm,
      (hdone _ (by omega)).trans (tag_free hfree).symm⟩
  · rw [putWord_byte _ _ (by omega), putWord_byte _ _ (by omega)]

end Tagging

/-! ## What retag does -/

section Retag

variable {l : Locals} {s : SegHeap} {lo hi : Nat} {pre r : List Block} {x b y : Block}

/-- `x` ends where `b` starts. -/
theorem Tagging.left_end {m : Mem} (ht : Tagging m lo hi (pre ++ x :: b :: r)) :
    x.addr + x.size = b.addr := by
  have h := ht.tiles
  rw [tiles_split] at h
  exact h.2.1.symm

theorem Tagging.leftBlkp_eq {m m' : Mem} (ht : Tagging m lo hi (pre ++ x :: b :: r))
    (h : get m' (b.addr - 8) = get m (b.addr - 8)) : leftBlkp m' b.addr = x.addr := by
  have hx : x ∈ pre ++ x :: b :: r := by simp
  rw [← ht.left_end] at h ⊢
  exact (ht.room hx).leftBlkp_of_footer (h.trans (ht.tagged x hx).footer)

theorem retag_none (hl : l.leftAlloc ≠ 0) (hr : l.rightAlloc ≠ 0) (ptr size : Nat) :
    retag l s ptr size = (ptr, size, s) := if_pos ⟨hl, hr⟩

/-- The addresses and sizes of two neighbours, as the macros need them. -/
theorem Tagging.bounds {m : Mem} (ht : Tagging m lo hi (pre ++ x :: b :: r)) :
    x ∈ pre ++ x :: b :: r ∧ b ∈ pre ++ x :: b :: r ∧ 4 ≤ x.addr ∧ 8 ≤ x.size ∧ 8 ≤ b.size ∧
      x.addr + x.size = b.addr ∧ b.addr + b.size < addrSpace := by
  have hxm : x ∈ pre ++ x :: b :: r := by simp
  have hbm : b ∈ pre ++ x :: b :: r := by simp
  exact ⟨hxm, hbm, (ht.room hxm).low, (ht.room hxm).min, (ht.room hbm).min, ht.left_end,
    (ht.room hbm).high⟩

/-- The two sizes that every merge with the left block, and the one with the right, add up. -/
theorem Tagging.addU_left {m : Mem} (ht : Tagging m lo hi (pre ++ x :: b :: r)) :
    addU b.size (getSize m (hdrp (leftBlkp m b.addr))) = x.size + b.size := by
  obtain ⟨hxm, -, -, -, -, hend, hhigh⟩ := ht.bounds
  rw [ht.leftBlkp_eq rfl, (ht.room hxm).getSize_hdrp (ht.tagged x hxm), addU_eq (by omega),
    Nat.add_comm]

theorem retag_left (hl : l.leftAlloc = 0) (hr : l.rightAlloc ≠ 0)
    (ht : Tagging s.heap.mem lo hi (pre ++ x :: b :: r)) :
    retag l s b.addr b.size = (x.addr, x.size + b.size,
      put (put s (b.addr + b.size - 8) (x.size + b.size)) (x.addr - 4) (x.size + b.size)) := by
  obtain ⟨hxm, hbm, hlow, hx, hb, hend, -⟩ := ht.bounds
  have hp₁ : leftBlkp (putWord s.heap.mem (b.addr + b.size - 8) (x.size + b.size)) b.addr =
      x.addr := ht.leftBlkp_eq (get_putWord_ne _ _ (by omega))
  have hp₂ : leftBlkp (putWord (putWord s.heap.mem (b.addr + b.size - 8) (x.size + b.size))
      (x.addr - 4) (x.size + b.size)) b.addr = x.addr := by
    apply ht.leftBlkp_eq
    rw [get_putWord_ne _ _ (by omega), get_putWord_ne _ _ (by omega)]
  unfold retag
  rw [if_neg (by simp [hl]), if_pos ⟨hl, hr⟩]
  simp only [ht.addU_left, (ht.room hbm).ftrp_eq (ht.tagged b hbm), pack_zero, put_mem, hp₁,
    (ht.room hxm).hdrp_addr, hp₂]

/-- FTRP goes by the new header, which adds the size of the left block. -/
theorem retag_right (hl : l.leftAlloc ≠ 0) (hr : l.rightAlloc = 0)
    (ht : Tagging s.heap.mem lo hi (pre ++ x :: b :: r)) :
    retag l s b.addr b.size = (b.addr, x.size + b.size,
      put (put s (b.addr - 4) (x.size + b.size)) (subU (addU b.addr (x.size + b.size)) dsize)
        (x.size + b.size)) := by
  obtain ⟨hxm, hbm, hlow, hx, hb, hend, hhigh⟩ := ht.bounds
  have hmod : (x.size + b.size) % 8 = 0 := by
    have h1 := (ht.room hxm).dword
    have h2 := (ht.room hbm).dword
    omega
  have hhdr : getSize (putWord s.heap.mem (b.addr - 4) (x.size + b.size)) (b.addr - 4) =
      x.size + b.size := by
    unfold getSize
    rw [get_putWord_same _ _ (by omega), ← Nat.add_zero (x.size + b.size)]
    exact clearLow_add hmod (by decide)
  unfold retag
  rw [if_neg (by simp [hr]), if_neg (by simp [hl]), if_pos ⟨hl, hr⟩]
  simp only [ht.addU_left, (ht.room hbm).hdrp_addr, pack_zero, put_mem, ftrp, hhdr]

/-- FTRP of the right block is its own footer. -/
theorem retag_both (hl : l.leftAlloc = 0) (hr : l.rightAlloc = 0)
    (ht : Tagging s.heap.mem lo hi (pre ++ x :: b :: y :: r)) :
    retag l s b.addr b.size = (x.addr, x.size + b.size + y.size,
      put (put s (x.addr - 4) (x.size + b.size + y.size)) (y.addr + y.size - 8)
        (x.size + b.size + y.size)) := by
  obtain ⟨hxm, hbm, hlow, hx, hb, hend, -⟩ := ht.bounds
  have ht' : Tagging s.heap.mem lo hi ((pre ++ [x]) ++ b :: y :: r) := by
    rw [List.append_assoc]
    exact ht
  obtain ⟨-, hym, -, -, hy, hend', hhigh⟩ := ht'.bounds
  rw [List.append_assoc] at hym
  have hroomb := ht.room hbm
  have hroomy := ht.room hym
  have hright {m' : Mem} (h : Tagged m' b) : rightBlkp m' b.addr = y.addr := by
    rw [hroomb.rightBlkp_eq h, hend']
  have hfoot : getSize s.heap.mem (y.addr + y.size - 8) = y.size :=
    getSize_of_tag hroomy.dword (ht.tagged y hym).footer
  have hsize : addU (x.size + b.size) y.size = x.size + b.size + y.size := addU_eq (by omega)
  have hsame {d : Block} (hd : Tagged s.heap.mem d) (hfar : b.addr ≤ d.addr) (hmin : 8 ≤ d.size) :
      Tagged (putWord s.heap.mem (x.addr - 4) (x.size + b.size + y.size)) d :=
    hd.congr (fun q _ _ => putWord_byte _ _ (by omega)) fun q _ _ => putWord_byte _ _ (by omega)
  have hb₁ := hsame (ht.tagged b hbm) le_rfl hb
  have hy₁ := hsame (ht.tagged y hym) (by omega) hy
  have hp : leftBlkp (putWord (putWord s.heap.mem (x.addr - 4) (x.size + b.size + y.size))
      (y.addr + y.size - 8) (x.size + b.size + y.size)) b.addr = x.addr := by
    apply ht.leftBlkp_eq
    rw [get_putWord_ne _ _ (by omega), get_putWord_ne _ _ (by omega)]
  unfold retag
  rw [if_neg (by simp [hl]), if_neg (by simp [hr]), if_neg (by simp [hl])]
  simp only [ht.addU_left, hright (ht.tagged b hbm), hroomy.ftrp_eq (ht.tagged y hym), hfoot, hsize]
  simp only [ht.leftBlkp_eq rfl, (ht.room hxm).hdrp_addr, pack_zero, put_mem, hright hb₁,
    hroomy.ftrp_eq hy₁, hp]

/-- Before the epilogue FTRP of the right block is the footer of `b` again. -/
theorem retag_both_end (hl : l.leftAlloc = 0) (hr : l.rightAlloc = 0)
    (ht : Tagging s.heap.mem lo hi (pre ++ [x, b])) :
    retag l s b.addr b.size = (x.addr, addU (x.size + b.size) b.size,
      put (put s (x.addr - 4) (addU (x.size + b.size) b.size)) (b.addr + b.size - 8)
        (addU (x.size + b.size) b.size)) := by
  obtain ⟨hxm, hbm, hlow, hx, hb, hend, hhigh⟩ := ht.bounds
  have hroomb := ht.room hbm
  obtain rfl : b.addr + b.size = hi := by
    have h := ht.tiles
    rw [tiles_split] at h
    rw [← hend]
    exact h.2.2
  have hend₀ {m' : Mem} (h : get m' (b.addr + b.size - 4) = get s.heap.mem (b.addr + b.size - 4)) :
      ftrp m' (b.addr + b.size) = b.addr + b.size - 8 := by
    unfold ftrp getSize
    rw [hdrp_eq (by omega), h, ht.epilogue, show clearLow (pack 0 1) = 0 from rfl,
      addU_eq (by omega), subU_eq (by unfold dsize; omega)]
    rfl
  have hfoot : getSize s.heap.mem (b.addr + b.size - 8) = b.size :=
    getSize_of_tag hroomb.dword (ht.tagged b hbm).footer
  have hb₁ : Tagged (putWord s.heap.mem (x.addr - 4) (addU (x.size + b.size) b.size)) b :=
    (ht.tagged b hbm).congr (fun q _ _ => putWord_byte _ _ (by omega))
      fun q _ _ => putWord_byte _ _ (by omega)
  have hp : leftBlkp (putWord (putWord s.heap.mem (x.addr - 4) (addU (x.size + b.size) b.size))
      (b.addr + b.size - 8) (addU (x.size + b.size) b.size)) b.addr = x.addr := by
    apply ht.leftBlkp_eq
    rw [get_putWord_ne _ _ (by omega), get_putWord_ne _ _ (by omega)]
  unfold retag
  rw [if_neg (by simp [hl]), if_neg (by simp [hr]), if_neg (by simp [hl])]
  simp only [ht.addU_left, hroomb.rightBlkp_eq (ht.tagged b hbm), hend₀ rfl, hfoot]
  simp only [ht.leftBlkp_eq rfl, (ht.room hxm).hdrp_addr, pack_zero, put_mem, hroomb.rightBlkp_eq hb₁,
    hend₀ (get_putWord_ne s.heap.mem (addU (x.size + b.size) b.size)
      (show b.addr + b.size - 4 + 4 ≤ x.addr - 4 ∨ x.addr - 4 + 4 ≤ b.addr + b.size - 4 by omega)), hp]

/-- `retag` writes no bytes but of tags, except for the footer where the right block alone is merged. -/
theorem retag_off (ht : Tagging s.heap.mem lo hi (pre ++ x :: b :: r)) {q : Nat}
    (hq : ¬ InTags (pre ++ x :: b :: r) hi q)
    (hstray : l.leftAlloc ≠ 0 → l.rightAlloc = 0 →
      ¬ (subU (addU b.addr (x.size + b.size)) dsize ≤ q ∧
        q < subU (addU b.addr (x.size + b.size)) dsize + 4)) :
    (retag l s b.addr b.size).2.2.heap.mem q = s.heap.mem q := by
  obtain ⟨hxm, hbm, hlow, hx, hb, hend, -⟩ := ht.bounds
  have hoff {c : Block} (hc : c ∈ pre ++ x :: b :: r) : ¬ (c.addr - 4 ≤ q ∧ q < c.addr) ∧
      ¬ (c.addr + c.size - 8 ≤ q ∧ q < c.addr + c.size - 4) :=
    ⟨fun h => hq (.inl ⟨c, hc, .inl h⟩), fun h => hq (.inl ⟨c, hc, .inr h⟩)⟩
  have hxoff := hoff hxm
  have hboff := hoff hbm
  by_cases hl : l.leftAlloc = 0
  · by_cases hr : l.rightAlloc = 0
    · cases r with
      | nil =>
        rw [retag_both_end hl hr ht, put_mem, put_mem, putWord_byte _ _ (by omega),
          putWord_byte _ _ (by omega)]
      | cons y r =>
        have hyoff := hoff (c := y) (by simp)
        have hy := ht.sized y (by simp)
        rw [retag_both hl hr ht, put_mem, put_mem, putWord_byte _ _ (by omega),
          putWord_byte _ _ (by omega)]
    · rw [retag_left hl hr ht, put_mem, put_mem, putWord_byte _ _ (by omega),
        putWord_byte _ _ (by omega)]
  · by_cases hr : l.rightAlloc = 0
    · have hfoot := hstray hl hr
      rw [retag_right hl hr ht, put_mem, put_mem, putWord_byte _ _ (by omega),
        putWord_byte _ _ (by omega)]
    · rw [retag_none hl hr]

/-- The block `coalesce` inserts. -/
theorem retag_fst (ht : Tagging s.heap.mem lo hi (pre ++ x :: b :: r)) :
    (retag l s b.addr b.size).1 = if l.leftAlloc = 0 then x.addr else b.addr := by
  by_cases hl : l.leftAlloc = 0
  · rw [if_pos hl]
    by_cases hr : l.rightAlloc = 0
    · cases r with
      | nil => rw [retag_both_end hl hr ht]
      | cons y r => rw [retag_both hl hr ht]
    · rw [retag_left hl hr ht]
  · rw [if_neg hl]
    by_cases hr : l.rightAlloc = 0
    · rw [retag_right hl hr ht]
    · rw [retag_none hl hr]

theorem retag_seglist (l : Locals) (s : SegHeap) (ptr size : Nat) :
    (retag l s ptr size).2.2.seglist = s.seglist := by
  unfold retag
  dsimp only
  split
  · rfl
  split
  · rfl
  split
  · rfl
  · rfl

end Retag

/-! ## Quiet links -/

section Quiet

variable {l : Locals} {s : SegHeap} {lo hi : Nat} {pre r : List Block} {x b : Block} {ws : List Nat}

/-- What keeps the list calls of `coalesce` away from the tags, said of the memory before: the links of
    the blocks they are given name words of `ws`, which name one another and are no tags; no write of a
    tag hits the links of the block that is inserted; no block is listed. -/
structure QuietLinks (ws : List Nat) (bs : List Block) (hi : Nat) (l : Locals) (s : SegHeap)
    (x b : Block) : Prop where
  sink : Sink ws s.heap.mem
  tags : ∀ d ∈ ws, ∀ q, d ≤ q ∧ q < d + 4 → ¬ InTags bs hi q
  left : l.leftAlloc = 0 → Linked ws s.heap.mem x.addr
  right : l.rightAlloc = 0 → Linked ws s.heap.mem (b.addr + b.size)
  merged : Linked ws s.heap.mem (if l.leftAlloc = 0 then x.addr else b.addr)
  links : ∀ q, InLinks (if l.leftAlloc = 0 then x.addr else b.addr) q → ¬ InTags bs hi q ∧
    (l.leftAlloc ≠ 0 → l.rightAlloc = 0 →
      ¬ (subU (addU b.addr (x.size + b.size)) dsize ≤ q ∧
        q < subU (addU b.addr (x.size + b.size)) dsize + 4))
  unlisted : ∀ c, s.seglist c = 0

/-- Whether a block is linked is told by its two links. -/
theorem Linked.congr {m m' : Mem} {p : Nat} (h : Linked ws m p) (hsame : ∀ q, InLinks p q → m' q = m q)
    (hp : p + 8 < addrSpace) : Linked ws m' p := by
  have hprev : prevBlkp m' p = prevBlkp m p := get_congr fun q _ _ => hsame q (.inl (by omega))
  have hnext : nextBlkp m' p = nextBlkp m p := by
    unfold nextBlkp
    rw [addU_eq (by unfold dsize; exact hp)]
    exact get_congr fun q _ _ => hsame q (.inr (by unfold dsize at *; omega))
  exact ⟨hprev ▸ h.prev, h.prevOff, hnext ▸ h.next, h.nextOff⟩

/-- Quiet links make quiet list calls. -/
theorem QuietLinks.quiet (ht : Tagging s.heap.mem lo hi (pre ++ x :: b :: r))
    (hq : QuietLinks ws (pre ++ x :: b :: r) hi l s x b) :
    QuietLists (pre ++ x :: b :: r) hi l s b.addr := by
  obtain ⟨hxm, hbm, hlow, hx, hb, hend, hhigh⟩ := ht.bounds
  have hkeeps {m m' : Mem} (hs : Spares ws m m') (q : Nat) (h : InTags (pre ++ x :: b :: r) hi q) :
      m' q = m q := hs.frame q fun d hd hdq => hq.tags d hd q hdq h
  -- the left block is removed first
  obtain ⟨s₁, hleft, hlist₁, hs₁⟩ : ∃ s₁, (if l.leftAlloc = 0 then removeBlock s (leftBlkp s.heap.mem b.addr)
      else pure s) = .ok s₁ ∧ s₁.seglist = s.seglist ∧ Spares ws s.heap.mem s₁.heap.mem := by
    by_cases hl : l.leftAlloc = 0
    · rw [if_pos hl, ht.leftBlkp_eq rfl]
      exact removeBlock_sink hq.sink (hq.left hl)
    · rw [if_neg hl]
      exact ⟨s, rfl, rfl, hq.sink, fun _ h => h, fun _ _ => rfl⟩
  have ht₁ := ht.congr (hkeeps hs₁)
  obtain ⟨s₂, hright, hlist₂, hs₂⟩ : ∃ s₂, (if l.rightAlloc = 0 then
      removeBlock s₁ (rightBlkp s₁.heap.mem b.addr) else pure s₁) = .ok s₂ ∧ s₂.seglist = s₁.seglist ∧
      Spares ws s₁.heap.mem s₂.heap.mem := by
    by_cases hr : l.rightAlloc = 0
    · rw [if_pos hr, (ht₁.room hbm).rightBlkp_eq (ht₁.tagged b hbm)]
      exact removeBlock_sink hs₁.sink (hs₁.linked _ (hq.right hr))
    · rw [if_neg hr]
      exact ⟨s₁, rfl, rfl, hs₁.sink, fun _ h => h, fun _ _ => rfl⟩
  have hs := hs₁.trans hs₂
  have ht₂ := ht.congr (hkeeps hs)
  have hrem : removals l s b.addr = .ok s₂ := (removals_eq hleft).trans hright
  -- the tags are written, and the links of the merged block are as before
  have hfst := retag_fst (l := l) ht₂
  have hoff := fun q => retag_off (l := l) (q := q) ht₂
  generalize hmem : (retag l s₂ b.addr b.size).2.2.heap.mem = m at hoff
  have hlinked : Linked ws m (retag l s₂ b.addr b.size).1 := by
    rw [hfst]
    refine (hs.linked _ hq.merged).congr (fun q hin => hoff q (hq.links q hin).1 (hq.links q hin).2) ?_
    split <;> omega
  have hempty : (retag l s₂ b.addr b.size).2.2.seglist (sizeClass (retag l s₂ b.addr b.size).2.1) = 0 := by
    rw [retag_seglist, hlist₂, hlist₁]
    exact hq.unlisted _
  obtain ⟨s₃, hins, hframe⟩ := insertBlock_sink hempty hq.sink.pos (by rw [hmem]; exact hlinked)
  refine ⟨s₂, s₃, hrem, hkeeps hs, ?_⟩
  rw [(ht.room hbm).getSize_hdrp (ht.tagged b hbm)]
  exact ⟨hins, fun q hin => hframe q fun d hd hdq => hq.tags d hd q hdq hin⟩

end Quiet

/-! ## The merged heap -/

section Merged

variable {m : Mem} {lo hi : Nat} {pre r cs : List Block} {x b : Block}

/-- Merging two blocks makes no new tag word. -/
theorem inTags_push {a e q : Nat} (h : Tiles a (b :: cs) e) (hq : InTags (pre ++ push b cs) hi q) :
    InTags (pre ++ b :: cs) hi q := by
  cases cs with
  | nil => exact hq
  | cons c cs =>
    have hend : b.addr + b.size = c.addr := by
      rw [h.1]
      exact h.2.1.symm
    by_cases hfree : b.alloc = false ∧ c.alloc = false
    · rw [push_free cs hfree.1 hfree.2] at hq
      rcases hq with ⟨d, hd, hq⟩ | hq
      · rcases List.mem_append.1 hd with hd | hd
        · exact .inl ⟨d, by simp [hd], hq⟩
        · rcases List.mem_cons.1 hd with rfl | hd
          · rcases hq with hq | hq
            · exact .inl ⟨b, by simp, .inl hq⟩
            · have hsize : (b.join c).addr + (b.join c).size = c.addr + c.size := by
                rw [← hend, Nat.add_assoc]
                rfl
              rw [hsize] at hq
              exact .inl ⟨c, by simp, .inr hq⟩
          · exact .inl ⟨d, by simp [hd], hq⟩
      · exact .inr hq
    · rwa [show push b (c :: cs) = b :: c :: cs from if_neg hfree] at hq

theorem inTags_merged {q : Nat} (h : Tiles lo (pre ++ x :: b :: r) hi)
    (hq : InTags (pre ++ push x (push b r)) hi q) : InTags (pre ++ x :: b :: r) hi q := by
  rw [tiles_append] at h
  obtain ⟨c, -, h⟩ := h
  have hpush : InTags (pre ++ x :: push b r) hi q := inTags_push ⟨h.1, tiles_push h.2⟩ hq
  rw [List.append_cons] at hpush ⊢
  exact inTags_push h.2 hpush

/-- The right neighbour is in use or the end of the heap, or it is a free block. -/
theorem right_cases (b : Block) (hsized : ∀ y ∈ r, 8 ≤ y.size) :
    freeRight r = 0 ∧ push b r = b :: r ∨
      ∃ y r', r = y :: r' ∧ y.alloc = false ∧ freeRight r = y.size ∧ 8 ≤ y.size := by
  cases r with
  | nil => exact .inl ⟨rfl, rfl⟩
  | cons y r =>
    cases hy : y.alloc with
    | true => exact .inl ⟨if_pos hy, push_alloc_head r hy⟩
    | false => exact .inr ⟨y, r, rfl, hy, if_neg (by simp [hy]), hsized y List.mem_cons_self⟩

/-- The header of the merged block has the sum of the sizes. -/
theorem merged_header (ht : Tagging m lo hi (pre ++ push x (push b r))) (hb : b.alloc = false) :
    get m ((if x.alloc then b else x).addr - 4) =
      (if x.alloc then 0 else x.size) + (b.size + freeRight r) := by
  have hright : ∃ r', push b r = ⟨b.addr, b.size + freeRight r, false⟩ :: r' := by
    obtain ⟨a, n, f⟩ := b
    obtain rfl : f = false := hb
    cases r with
    | nil => exact ⟨[], rfl⟩
    | cons y r =>
      cases hy : y.alloc with
      | true =>
        rw [push_alloc_head r hy, freeRight, if_pos hy]
        exact ⟨y :: r, rfl⟩
      | false =>
        rw [push_free r rfl hy, freeRight, if_neg (by simp [hy])]
        exact ⟨r, rfl⟩
  obtain ⟨r', hright⟩ := hright
  rw [hright] at ht
  cases hx : x.alloc with
  | true =>
    rw [push_alloc _ hx] at ht
    rw [if_pos rfl, if_pos rfl, Nat.zero_add]
    exact (ht.tagged ⟨b.addr, b.size + freeRight r, false⟩ (by simp)).header
  | false =>
    rw [push_free r' hx rfl] at ht
    rw [if_neg (by simp), if_neg (by simp)]
    exact (ht.tagged (x.join ⟨b.addr, b.size + freeRight r, false⟩) (by simp)).header

variable {l : Locals} {s : SegHeap}

/-- A merge that starts in the right place with the right size has followed the tags. -/
theorem agrees_of_header (ht : Tagging s.heap.mem lo hi (pre ++ x :: b :: r)) (hb : b.alloc = false)
    (hp : (retag l s b.addr b.size).1 = (if x.alloc then b else x).addr)
    (hh : get (retag l s b.addr b.size).2.2.heap.mem ((if x.alloc then b else x).addr - 4) =
      (if x.alloc then 0 else x.size) + (b.size + freeRight r)) : Agrees l x r := by
  obtain ⟨hxm, hbm, hlow, hx, hbs, hend, hhigh⟩ := ht.bounds
  by_cases hl : l.leftAlloc = 0
  · -- the block returned is `x`, so `x` has to be free
    have hreturn : (retag l s b.addr b.size).1 = x.addr := by
      by_cases hr : l.rightAlloc = 0
      · cases r with
        | nil => rw [retag_both_end hl hr ht]
        | cons y r => rw [retag_both hl hr ht]
      · rw [retag_left hl hr ht]
    have hfree : x.alloc = false := by
      cases hxa : x.alloc with
      | false => rfl
      | true =>
        rw [hreturn, hxa, if_pos rfl] at hp
        omega
    rw [hfree, if_neg (by simp), if_neg (by simp)] at hh
    refine ⟨⟨fun _ => hfree, fun _ => hl⟩, ?_, fun hxa => absurd (hxa.symm.trans hfree) (by simp)⟩
    by_cases hr : l.rightAlloc = 0
    · refine ⟨fun _ => ?_, fun _ => hr⟩
      cases r with
      | nil =>
        rw [retag_both_end hl hr ht] at hh
        dsimp only [put_mem, freeRight] at hh ⊢
        rw [get_putWord_ne _ _ (by omega), get_putWord_same _ _ (by unfold addU; split <;> omega)] at hh
        unfold addU at hh
        split at hh <;> omega
      | cons y r =>
        have hym : y ∈ pre ++ x :: b :: y :: r := by simp
        have hy := (ht.sized y hym).1
        have hyhigh := (ht.room hym).high
        have hyaddr := (tiles_around (l := pre ++ [x]) (by simpa using ht.tiles)).2 y (by simp)
        rw [retag_both hl hr ht] at hh
        dsimp only [put_mem] at hh
        rw [get_putWord_ne _ _ (by omega), get_putWord_same _ _ (by omega)] at hh
        omega
    · refine ⟨fun h => absurd h hr, fun hpos => ?_⟩
      rw [retag_left hl hr ht] at hh
      dsimp only [put_mem] at hh
      rw [get_putWord_same _ _ (by omega)] at hh
      omega
  · have hreturn : (retag l s b.addr b.size).1 = b.addr := by
      by_cases hr : l.rightAlloc = 0
      · rw [retag_right hl hr ht]
      · rw [retag_none hl hr]
    have hused : x.alloc = true := by
      cases hxa : x.alloc with
      | true => rfl
      | false =>
        rw [hreturn, hxa, if_neg (by simp)] at hp
        omega
    rw [hused, if_pos rfl, if_pos rfl, Nat.zero_add] at hh
    have hleft : l.leftAlloc = 0 ↔ x.alloc = false :=
      ⟨fun h => absurd h hl, fun h => absurd (hused.symm.trans h) (by simp)⟩
    by_cases hr : l.rightAlloc = 0
    · -- the header has the size of the left block added
      rw [retag_right hl hr ht] at hh
      dsimp only [put_mem] at hh
      have hfar : b.addr - 4 + 4 ≤ subU (addU b.addr (x.size + b.size)) dsize ∨
          subU (addU b.addr (x.size + b.size)) dsize + 4 ≤ b.addr - 4 := by
        unfold subU addU dsize
        split <;> split <;> omega
      rw [get_putWord_ne _ _ hfar, get_putWord_same _ _ (by omega)] at hh
      exact ⟨hleft, ⟨fun _ => by omega, fun _ => hr⟩, fun _ _ => by omega⟩
    · rw [retag_none hl hr] at hh
      rw [(ht.tagged b hbm).header] at hh
      have hzero : freeRight r = 0 := by
        rw [tag_free hb] at hh
        omega
      exact ⟨hleft, ⟨fun h => absurd h hr, fun h => absurd hzero h⟩, fun _ h => absurd hzero h⟩

/-- Locals that agree with the tags merge the blocks that are free. -/
theorem retag_agrees (ht : Tagging s.heap.mem lo hi (pre ++ x :: b :: r)) (hb : b.alloc = false)
    (ha : Agrees l x r) : (retag l s b.addr b.size).1 = (if x.alloc then b else x).addr ∧
      Tagging (retag l s b.addr b.size).2.2.heap.mem lo hi (pre ++ push x (push b r)) := by
  obtain ⟨hxm, hbm, hlow, hx, hbs, hend, hhigh⟩ := ht.bounds
  have hdx := (ht.room hxm).dword
  have hdb := (ht.room hbm).dword
  have hsized : ∀ y ∈ r, 8 ≤ y.size := fun y hy => (ht.sized y (by simp [hy])).1
  have htiles : Tiles lo (pre ++ push x (push b r)) hi := by
    have h := ht.tiles
    rw [tiles_append] at h ⊢
    obtain ⟨c, hpre, h⟩ := h
    exact ⟨c, hpre, tiles_push ⟨h.1, tiles_push h.2⟩⟩
  rcases right_cases b hsized with ⟨hzero, hpush⟩ | ⟨y, r, rfl, hya, hfree, hy⟩
  · -- nothing to merge on the right
    have hr : l.rightAlloc ≠ 0 := fun h => ha.right.1 h hzero
    rw [hpush] at htiles ⊢
    cases hxa : x.alloc with
    | true =>
      have hl : l.leftAlloc ≠ 0 := fun h => absurd (hxa.symm.trans (ha.left.1 h)) (by simp)
      rw [retag_none hl hr, push_alloc _ hxa]
      exact ⟨rfl, ht⟩
    | false =>
      rw [retag_left (ha.left.2 hxa) hr ht]
      rw [push_free r hxa hb] at htiles ⊢
      refine ⟨rfl, ?_⟩
      have hsize : x.addr + (x.size + b.size) - 8 = b.addr + b.size - 8 := by omega
      have hold : Tagging s.heap.mem lo hi (pre ++ ([x, b] ++ r)) := ht
      exact hold.join_put htiles (show 8 ≤ x.size + b.size ∧ (x.size + b.size) % 8 = 0 by omega) rfl
        (.inr ⟨hsize.symm, rfl⟩)
  · have hr : l.rightAlloc = 0 := ha.right.2 (by omega)
    have hym : y ∈ pre ++ x :: b :: y :: r := by simp
    have hdy := (ht.room hym).dword
    have hend' : b.addr + b.size = y.addr := by
      have h := ht
      rw [List.append_cons] at h
      exact h.left_end
    have hyhigh := (ht.room hym).high
    rw [push_free r hb hya] at htiles ⊢
    cases hxa : x.alloc with
    | true =>
      have hl : l.leftAlloc ≠ 0 := fun h => absurd (hxa.symm.trans (ha.left.1 h)) (by simp)
      have hsame : x.size = y.size := by
        rw [← ha.size hxa (by omega), hfree]
      rw [retag_right hl hr ht]
      rw [push_alloc _ hxa, List.append_cons] at htiles ⊢
      refine ⟨rfl, ?_⟩
      have hold : Tagging s.heap.mem lo hi ((pre ++ [x]) ++ ([b, y] ++ r)) := by
        simpa using ht
      have hsum : x.size + b.size = b.size + y.size := by omega
      have hfoot : subU (addU b.addr (b.size + y.size)) dsize = b.addr + (b.size + y.size) - 8 := by
        rw [addU_eq (by omega), subU_eq (by unfold dsize; omega)]
        rfl
      rw [hsum, hfoot]
      exact hold.join_put htiles (show 8 ≤ b.size + y.size ∧ (b.size + y.size) % 8 = 0 by omega) rfl
        (.inl ⟨rfl, rfl⟩)
    | false =>
      rw [retag_both (ha.left.2 hxa) hr ht]
      rw [push_free r hxa rfl] at htiles ⊢
      refine ⟨rfl, ?_⟩
      have hold : Tagging s.heap.mem lo hi (pre ++ ([x, b, y] ++ r)) := ht
      have hsum : x.size + b.size + y.size = x.size + (b.size + y.size) := Nat.add_assoc _ _ _
      have hfoot : y.addr + y.size - 8 = x.addr + (x.size + (b.size + y.size)) - 8 := by omega
      rw [hsum, hfoot]
      exact hold.join_put htiles (show 8 ≤ x.size + (b.size + y.size) ∧
        (x.size + (b.size + y.size)) % 8 = 0 by omega) rfl (.inl ⟨rfl, rfl⟩)

/-- `coalesce` merges with exactly the free neighbours iff its locals agree with the tags and a right
    block merged alone has the size of the left one, as long as the list calls leave the tags alone. -/
theorem coalesce_merges_iff (ht : Tagging s.heap.mem lo hi (pre ++ x :: b :: r))
    (hb : b.alloc = false) (hq : QuietLists (pre ++ x :: b :: r) hi l s b.addr) :
    Merges l s lo hi pre x b r ↔ Agrees l x r := by
  have hbm : b ∈ pre ++ x :: b :: r := by simp
  have hxm : x ∈ pre ++ x :: b :: r := by simp
  obtain ⟨s₁, s₂, hrem, hkeep, hins, hkeep₂⟩ := hq
  rw [(ht.room hbm).getSize_hdrp (ht.tagged b hbm)] at hins hkeep₂
  have ht₁ := ht.congr hkeep
  have hcode : coalesce l s b.addr = .ok ((retag l s₁ b.addr b.size).1, s₂) := by
    rw [coalesce_eq, hrem, (ht.room hbm).getSize_hdrp (ht.tagged b hbm)]
    dsimp only [bind, Except.bind]
    rw [hins]
    rfl
  constructor
  · rintro ⟨s', hcall, htag⟩
    rw [hcode] at hcall
    obtain ⟨hp, rfl⟩ := Prod.mk.inj (Except.ok.inj hcall)
    refine agrees_of_header ht₁ hb hp ?_
    rw [← merged_header htag hb]
    -- the insertion has left the header of the merged block alone
    refine (get_congr fun q h1 h2 => hkeep₂ q (.inl ?_)).symm
    cases hxa : x.alloc with
    | true =>
      have hlow := (ht.room hbm).low
      rw [hxa, if_pos rfl] at h1 h2
      exact ⟨b, hbm, .inl ⟨h1, by omega⟩⟩
    | false =>
      have hlow := (ht.room hxm).low
      rw [hxa, if_neg (by simp)] at h1 h2
      exact ⟨x, hxm, .inl ⟨h1, by omega⟩⟩
  · intro ha
    obtain ⟨hp, htag⟩ := retag_agrees ht₁ hb ha
    refine ⟨s₂, by rw [hcode, hp], htag.congr fun q hq => hkeep₂ q (inTags_merged ht.tiles hq)⟩

end Merged

/-- The prologue, a free block and the block just freed, then one in use. Both free blocks link to
    themselves. -/
def leftFree : SegHeap where
  heap := memInit (putWord (putWord (putWord (putWord (putWord (putWord (putWord (putWord (putWord
    (putWord (putWord (putWord (fun _ => 0) 92 9) 96 9) 100 24) 120 24) 124 24) 144 24) 148 25)
    168 25) 172 1) 104 104) 112 104) 128 128) 92
  seglist := fun _ => 0

theorem coalesce_merges_iff_left :
    Merges ⟨0, 0, 1⟩ leftFree 96 176 [⟨96, 8, true⟩] ⟨104, 24, false⟩ ⟨128, 24, false⟩
      [⟨152, 24, true⟩] := by
  have ht : Tagging leftFree.heap.mem 96 176
      ([⟨96, 8, true⟩] ++ ⟨104, 24, false⟩ :: ⟨128, 24, false⟩ :: [⟨152, 24, true⟩]) := by
    refine ⟨⟨rfl, rfl, rfl, rfl, rfl⟩, by decide, by decide, by decide, ?_, by rfl⟩
    simp only [List.cons_append, List.nil_append, List.forall_mem_cons]
    exact ⟨⟨by rfl, by rfl⟩, ⟨by rfl, by rfl⟩, ⟨by rfl, by rfl⟩, ⟨by rfl, by rfl⟩, by simp⟩
  have hpast {q : Nat} (hq : InTags ([⟨96, 8, true⟩] ++ ⟨104, 24, false⟩ :: ⟨128, 24, false⟩ ::
      [⟨152, 24, true⟩]) 176 q) : q < 104 ∨ 120 ≤ q := by
    simp only [InTags, List.cons_append, List.nil_append, List.exists_mem_cons_iff] at hq
    simp at hq
    omega
  have hself : Linked [104] leftFree.heap.mem 104 := ⟨by decide, by decide, by decide, by decide⟩
  -- both links of the left block name its first word
  have hlinks : QuietLinks [104] ([⟨96, 8, true⟩] ++ ⟨104, 24, false⟩ :: ⟨128, 24, false⟩ ::
      [⟨152, 24, true⟩]) 176 ⟨0, 0, 1⟩ leftFree ⟨104, 24, false⟩ ⟨128, 24, false⟩ := by
    refine ⟨⟨by decide, by decide, by decide⟩, fun d hd q hdq hq => ?_, fun _ => hself,
      fun hr => absurd hr (by decide), hself, fun q hin => ⟨fun hq => ?_, fun hl => absurd rfl hl⟩, fun _ => rfl⟩
    · obtain rfl := List.mem_singleton.1 hd
      have := hpast hq
      omega
    · have := hpast hq
      unfold InLinks at hin
      simp only [if_true] at hin
      omega
  have hq := hlinks.quiet ht
  exact (coalesce_merges_iff ht rfl hq).2 ⟨by decide, by decide, by decide⟩

/-- The prologue, the block just freed and a free block. -/
def rightFree : SegHeap where
  heap := memInit (putWord (putWord (putWord (putWord (putWord (putWord (putWord (putWord (putWord
    (putWord (putWord (fun _ => 0) 92 9) 96 9) 100 24) 120 24) 124 24) 144 24) 148 1) 104 104)
    112 104) 128 128) 136 128) 92
  seglist := fun _ => 0

/-- With the right locals the 8 bytes of the prologue are added, not the 24 of the free block, and with
    nonzero locals nothing is merged. -/
theorem coalesce_adds_left :
    Tagging rightFree.heap.mem 96 152 [⟨96, 8, true⟩, ⟨104, 24, false⟩, ⟨128, 24, false⟩] ∧
    (coalesce ⟨0, 1, 0⟩ rightFree 104).map (fun r => get r.2.heap.mem 100) = .ok 32 ∧
    ¬ Merges ⟨0, 1, 0⟩ rightFree 96 152 [] ⟨96, 8, true⟩ ⟨104, 24, false⟩ [⟨128, 24, false⟩] ∧
    ¬ Merges ⟨0, 1, 1⟩ rightFree 96 152 [] ⟨96, 8, true⟩ ⟨104, 24, false⟩ [⟨128, 24, false⟩] := by
  have hhdr {l : Locals} {n : Nat} (hn : n ≠ 48)
      (hcall : (coalesce l rightFree 104).map (fun r => get r.2.heap.mem 100) = .ok n) :
      ¬ Merges l rightFree 96 152 [] ⟨96, 8, true⟩ ⟨104, 24, false⟩ [⟨128, 24, false⟩] := by
    rintro ⟨s', hmerge, htag⟩
    rw [show (coalesce l rightFree 104) = .ok (104, s') from hmerge] at hcall
    have hsum : get s'.heap.mem 100 = 48 :=
      (htag.tagged ⟨104, 48, false⟩ (by simp [push, Block.join])).header
    exact hn ((Except.ok.inj hcall).symm.trans hsum)
  have hadd : (coalesce ⟨0, 1, 0⟩ rightFree 104).map (fun r => get r.2.heap.mem 100) = .ok 32 := by
    rfl
  refine ⟨⟨⟨rfl, rfl, rfl, rfl⟩, by decide, by decide, by decide, ?_, by rfl⟩, hadd,
    hhdr (by decide) hadd, hhdr (show 24 ≠ 48 by decide) (by rfl)⟩
  simp only [List.forall_mem_cons]
  exact ⟨⟨by rfl, by rfl⟩, ⟨by rfl, by rfl⟩, ⟨by rfl, by rfl⟩, by simp⟩

end OsBasics.Malloc.Seg
