/-
  The abstract model keeps its invariant.

  Every operation of `Layout` takes a valid layout to a valid one
  (`release_valid`, `place_valid`, `extend_valid`). The blocks after a merge are
  the normal form of those before it (`coalesce_blocks`), so a merge changes no
  block in use (`coalesce_used`), `release` takes one out of `used`
  (`mem_used_release`) and `place` puts one in (`mem_used_place`).
  `malloc_cases` is the case analysis of an allocation that the rest uses.
-/
import OsBasics.Malloc.Layout
import OsBasics.Malloc.Tags

namespace OsBasics.Malloc

open OsBasics.Lib

namespace Layout

/-! ## The abstract merge by cases -/

/-- No free block at the end of `l`. -/
def LeftClosed (l : List Block) : Prop := ∀ x ∈ l.getLast?, x.alloc = true

/-- No free block at the start of `r`. -/
def RightClosed (r : List Block) : Prop := ∀ y ∈ r.head?, y.alloc = true

theorem left_cases (l : List Block) :
    LeftClosed l ∨ ∃ l' x, l = l' ++ [x] ∧ x.alloc = false := by
  rcases List.eq_nil_or_concat l with rfl | ⟨l', x, rfl⟩
  · exact .inl (by simp [LeftClosed])
  · cases hx : x.alloc with
    | true => exact .inl (by simp [LeftClosed, hx])
    | false => exact .inr ⟨l', x, List.concat_eq_append, hx⟩

theorem right_cases (r : List Block) :
    RightClosed r ∨ ∃ y r', r = y :: r' ∧ y.alloc = false := by
  cases r with
  | nil => exact .inl (by simp [RightClosed])
  | cons y r =>
    cases hy : y.alloc with
    | true => exact .inl (by simp [RightClosed, hy])
    | false => exact .inr ⟨y, r, rfl, hy⟩

theorem absorbLeft_closed {l : List Block} (h : LeftClosed l) (b : Block) (fl : List Nat) :
    absorbLeft l b fl = (l, b, fl) := by
  unfold absorbLeft
  split
  · rfl
  · next x hx => rw [if_pos (h x hx)]

theorem absorbLeft_free {l : List Block} {x : Block} (hx : x.alloc = false) (b : Block)
    (fl : List Nat) : absorbLeft (l ++ [x]) b fl = (l, x.join b, fl.erase x.addr) := by
  simp [absorbLeft, hx]

theorem absorbRight_closed {r : List Block} (h : RightClosed r) (b : Block) (fl : List Nat) :
    absorbRight b r fl = (b, r, fl) := by
  cases r with
  | nil => rfl
  | cons y r => exact if_pos (h y rfl)

theorem absorbRight_free {r : List Block} {y : Block} (hy : y.alloc = false) (b : Block)
    (fl : List Nat) : absorbRight b (y :: r) fl = (b.join y, r, fl.erase y.addr) := by
  simp [absorbRight, hy]

/-! ## What the abstract merge keeps -/

variable {lo hi : Nat} {l r : List Block} {b : Block} {fl : List Nat}

theorem coalesce_tiles (h : Tiles lo (l ++ b :: r) hi) :
    Tiles lo (coalesce l b r fl).2.blocks hi := by
  rcases left_cases l with hl | ⟨l', x, rfl, hx⟩ <;>
  rcases right_cases r with hr | ⟨y, r', rfl, hy⟩
  · simpa [coalesce, absorbLeft_closed hl, absorbRight_closed hr] using h
  · simp only [coalesce, absorbLeft_closed hl, absorbRight_free hy]
    rw [tiles_split] at h ⊢
    obtain ⟨h1, h2, h3⟩ := h
    exact ⟨h1, by rw [← h2] at h3; simpa [Block.join, Nat.add_assoc, h2] using h3⟩
  · simp only [coalesce, absorbLeft_free hx, absorbRight_closed hr]
    rw [List.append_assoc, List.singleton_append, tiles_split] at h
    obtain ⟨h1, h2, h3⟩ := h
    rw [tiles_split]
    exact ⟨h1, by simpa [Block.join, Nat.add_assoc] using h3⟩
  · simp only [coalesce, absorbLeft_free hx, absorbRight_free hy]
    rw [List.append_assoc, List.singleton_append, tiles_split] at h
    obtain ⟨h1, h2, h3, h4⟩ := h
    rw [tiles_split]
    exact ⟨h1, by simpa [Block.join, Nat.add_assoc] using h4⟩

theorem coalesce_sized (h : Sized (l ++ b :: r)) : Sized (coalesce l b r fl).2.blocks := by
  rcases left_cases l with hl | ⟨l', x, rfl, hx⟩ <;>
  rcases right_cases r with hr | ⟨y, r', rfl, hy⟩
  · simpa [coalesce, absorbLeft_closed hl, absorbRight_closed hr] using h
  · simp only [coalesce, absorbLeft_closed hl, absorbRight_free hy, Sized.append, Sized.cons,
      Block.join] at h ⊢
    exact ⟨h.1, by omega, h.2.2.2⟩
  · simp only [coalesce, absorbLeft_free hx, absorbRight_closed hr, Sized.append, Sized.cons,
      Block.join] at h ⊢
    exact ⟨h.1.1, by omega, h.2.2⟩
  · simp only [coalesce, absorbLeft_free hx, absorbRight_free hy, Sized.append, Sized.cons,
      Block.join] at h ⊢
    exact ⟨h.1.1, by omega, h.2.2.2⟩

/-- The free list after a merge lists the free blocks. -/
theorem coalesce_perm (hb : b.alloc = false) (h : fl.Perm (freeAddrs (l ++ r))) :
    (coalesce l b r fl).2.free.Perm (freeAddrs (coalesce l b r fl).2.blocks) := by
  rcases left_cases l with hl | ⟨l', x, rfl, hx⟩ <;>
  rcases right_cases r with hr | ⟨y, r', rfl, hy⟩
  · simp only [coalesce, absorbLeft_closed hl, absorbRight_closed hr]
    rw [freeAddrs_append, freeAddrs_cons_free _ hb]
    rw [freeAddrs_append] at h
    exact (h.cons b.addr).trans List.perm_middle.symm
  · simp only [coalesce, absorbLeft_closed hl, absorbRight_free hy]
    rw [freeAddrs_append, freeAddrs_cons_free _ (show (b.join y).alloc = false from rfl)]
    rw [freeAddrs_append, freeAddrs_cons_free _ hy] at h
    have h' := (h.trans List.perm_middle).erase y.addr
    rw [List.erase_cons_head] at h'
    exact (h'.cons b.addr).trans List.perm_middle.symm
  · simp only [coalesce, absorbLeft_free hx, absorbRight_closed hr]
    rw [freeAddrs_append, freeAddrs_cons_free _ (show (x.join b).alloc = false from rfl)]
    rw [List.append_assoc, List.singleton_append, freeAddrs_append, freeAddrs_cons_free _ hx] at h
    have h' := (h.trans List.perm_middle).erase x.addr
    rw [List.erase_cons_head] at h'
    exact (h'.cons x.addr).trans List.perm_middle.symm
  · simp only [coalesce, absorbLeft_free hx, absorbRight_free hy]
    rw [freeAddrs_append,
      freeAddrs_cons_free _ (show ((x.join b).join y).alloc = false from rfl)]
    rw [List.append_assoc, List.singleton_append, freeAddrs_append, freeAddrs_cons_free _ hx,
      freeAddrs_cons_free _ hy] at h
    have h' := (h.trans List.perm_middle).erase x.addr
    rw [List.erase_cons_head] at h'
    have h'' := (h'.trans List.perm_middle).erase y.addr
    rw [List.erase_cons_head] at h''
    exact (h''.cons x.addr).trans List.perm_middle.symm

theorem leftClosed_of_free {x : Block} (h : NoAdjFree (l ++ [x])) (hx : x.alloc = false) :
    LeftClosed l := by
  intro z hz
  have := (List.isChain_append.1 h).2.2 z hz x rfl
  simpa [hx] using this

theorem rightClosed_of_free {y : Block} (h : NoAdjFree (y :: r)) (hy : y.alloc = false) :
    RightClosed r := by
  intro z hz
  have := (List.isChain_cons.1 h).1 z hz
  simpa [hy] using this

/-- A block between closed ends has no free neighbour. -/
theorem noAdjFree_insert (hl : NoAdjFree l) (hr : NoAdjFree r) (hlc : LeftClosed l)
    (hrc : RightClosed r) : NoAdjFree (l ++ b :: r) :=
  hl.append (hr.cons fun y hy => .inr (hrc y hy)) fun x hx _ _ => .inl (hlc x hx)

/-- The blocks after a merge are the normal form of those before it. -/
theorem coalesce_blocks (hb : b.alloc = false) (hl : NoAdjFree l) (hr : NoAdjFree r) :
    (coalesce l b r fl).2.blocks = normalize (l ++ b :: r) := by
  rw [normalize_append, normalize_cons, normalize_of_noAdjFree hr]
  rcases left_cases l with hlc | ⟨l', x, rfl, hx⟩ <;>
  rcases right_cases r with hrc | ⟨y, r', rfl, hy⟩
  · have hall := noAdjFree_insert (b := b) hl hr hlc hrc
    rw [push_of_noAdjFree (hr.cons fun y hy => .inr (hrc y hy)), foldr_push_of_noAdjFree hall]
    simp [coalesce, absorbLeft_closed hlc, absorbRight_closed hrc]
  · have hr' : NoAdjFree r' := hr.tail
    have hall := noAdjFree_insert (b := b.join y) hl hr' hlc (rightClosed_of_free hr hy)
    rw [push_free _ hb hy, foldr_push_of_noAdjFree hall]
    simp [coalesce, absorbLeft_closed hlc, absorbRight_free hy]
  · have hl' : NoAdjFree l' := hl.left_of_append
    have hall := noAdjFree_insert (b := x.join b) hl' hr (leftClosed_of_free hl hx) hrc
    rw [List.foldr_append, push_of_noAdjFree (hr.cons fun y hy => .inr (hrc y hy))]
    rw [show [x].foldr push (b :: r) = push x (b :: r) from rfl, push_free _ hx hb,
      foldr_push_of_noAdjFree hall]
    simp [coalesce, absorbLeft_free hx, absorbRight_closed hrc]
  · have hl' : NoAdjFree l' := hl.left_of_append
    have hr' : NoAdjFree r' := hr.tail
    have hall := noAdjFree_insert (b := (x.join b).join y) hl' hr'
      (leftClosed_of_free hl hx) (rightClosed_of_free hr hy)
    rw [List.foldr_append, push_free _ hb hy]
    rw [show [x].foldr push (b.join y :: r') = push x (b.join y :: r') from rfl,
      push_free (b := x) (c := b.join y) _ hx rfl]
    rw [show x.join (b.join y) = (x.join b).join y by simp [Block.join, Nat.add_assoc],
      foldr_push_of_noAdjFree hall]
    simp [coalesce, absorbLeft_free hx, absorbRight_free hy]

/-- The free block a merge leaves, where it says it is. -/
theorem coalesce_mem (fl : List Nat) (hb : b.alloc = false) :
    ∃ c ∈ (coalesce l b r fl).2.blocks,
      c.addr = (coalesce l b r fl).1 ∧ c.alloc = false ∧ b.size ≤ c.size := by
  rcases left_cases l with hl | ⟨l', x, rfl, hx⟩ <;>
  rcases right_cases r with hr | ⟨y, r', rfl, hy⟩
  · exact ⟨b, by simp [coalesce, absorbLeft_closed hl, absorbRight_closed hr]; exact hb⟩
  · exact ⟨b.join y, by simp [coalesce, absorbLeft_closed hl, absorbRight_free hy, Block.join]⟩
  · exact ⟨x.join b, by simp [coalesce, absorbLeft_free hx, absorbRight_closed hr, Block.join]⟩
  · refine ⟨(x.join b).join y, ?_⟩
    simp only [coalesce, absorbLeft_free hx, absorbRight_free hy, Block.join]
    simp
    omega

theorem coalesce_valid (ht : Tiles lo (l ++ b :: r) hi) (hs : Sized (l ++ b :: r))
    (hb : b.alloc = false) (hl : NoAdjFree l) (hr : NoAdjFree r)
    (hp : fl.Perm (freeAddrs (l ++ r))) : Valid lo hi (coalesce l b r fl).2 where
  tiles := coalesce_tiles ht
  sized := coalesce_sized hs
  sep := by rw [coalesce_blocks hb hl hr]; exact noAdjFree_normalize _
  perm := coalesce_perm hb hp

/-! ## Blocks in use -/

/-- The blocks in use, in address order. -/
def used (A : Layout) : List Block := A.blocks.filter (·.alloc)

theorem mem_used {A : Layout} {b : Block} : b ∈ A.used ↔ b ∈ A.blocks ∧ b.alloc = true := by
  simp [used]

theorem filter_push (b : Block) (bs : List Block) :
    (push b bs).filter (·.alloc) = (b :: bs).filter (·.alloc) := by
  cases bs with
  | nil => rfl
  | cons c cs =>
    by_cases h : b.alloc = false ∧ c.alloc = false
    · rw [push_free cs h.1 h.2]
      simp [Block.join, h.1, h.2]
    · rw [show push b (c :: cs) = b :: c :: cs from if_neg h]

/-- Merging free neighbours changes no block in use. -/
theorem filter_normalize (bs : List Block) :
    (normalize bs).filter (·.alloc) = bs.filter (·.alloc) := by
  induction bs with
  | nil => rfl
  | cons b bs ih =>
    rw [normalize_cons, filter_push, List.filter_cons, List.filter_cons, ih]

theorem coalesce_used (hb : b.alloc = false) (hl : NoAdjFree l) (hr : NoAdjFree r) :
    (coalesce l b r fl).2.used = (l ++ r).filter (·.alloc) := by
  unfold used
  rw [coalesce_blocks hb hl hr, filter_normalize, List.filter_append, List.filter_append,
    List.filter_cons_of_neg (by simp [hb])]

/-! ## A layout cut at one of its blocks -/

namespace Valid

variable {A : Layout}

theorem noAdj_left (hA : Valid lo hi A) (h : A.blocks = l ++ b :: r) : NoAdjFree l := by
  have hsep := hA.sep
  rw [h] at hsep
  exact hsep.left_of_append

theorem noAdj_right (hA : Valid lo hi A) (h : A.blocks = l ++ b :: r) : NoAdjFree r := by
  have hsep := hA.sep
  rw [h] at hsep
  exact hsep.right_of_append.tail

theorem cut (hA : Valid lo hi A) (h : A.blocks = l ++ b :: r) : A.cut b.addr = (l, b :: r) := by
  obtain ⟨bs, fl⟩ := A
  obtain rfl : bs = l ++ b :: r := h
  exact cut_eq hA.tiles hA.sized

theorem addr_inj (hA : Valid lo hi A) {c : Block} (hb : b ∈ A.blocks) (hc : c ∈ A.blocks)
    (h : b.addr = c.addr) : b = c :=
  tiles_addr_inj hA.tiles hA.sized.pos hb hc h

theorem mem_free (hA : Valid lo hi A) {x : Nat} :
    x ∈ A.free ↔ ∃ b ∈ A.blocks, b.alloc = false ∧ b.addr = x := by
  rw [hA.perm.mem_iff, mem_freeAddrs]

theorem nodup_free (hA : Valid lo hi A) : A.free.Nodup :=
  hA.perm.nodup_iff.2 (nodup_freeAddrs hA.tiles hA.sized)

/-- The free list without the block at the cut, when that block is free. -/
theorem erase_perm (hA : Valid lo hi A) (h : A.blocks = l ++ b :: r) (hb : b.alloc = false) :
    (A.free.erase b.addr).Perm (freeAddrs (l ++ r)) := by
  have hp := hA.perm
  rw [h, freeAddrs_append, freeAddrs_cons_free _ hb] at hp
  have hp' := (hp.trans List.perm_middle).erase b.addr
  rwa [List.erase_cons_head, ← freeAddrs_append] at hp'

/-- The free list does not hold the block at the cut, when that block is in use. -/
theorem perm_of_alloc (hA : Valid lo hi A) (h : A.blocks = l ++ b :: r) (hb : b.alloc = true) :
    A.free.Perm (freeAddrs (l ++ r)) := by
  have hp := hA.perm
  rwa [h, freeAddrs_append, freeAddrs_cons_alloc _ hb, ← freeAddrs_append] at hp

/-! ## release -/

theorem release_eq (hA : Valid lo hi A) (h : A.blocks = l ++ b :: r) :
    A.release b.addr = (coalesce l b.release r A.free).2 := by
  unfold release
  rw [hA.cut h]

theorem release_valid (hA : Valid lo hi A) (hb : b ∈ A.used) : Valid lo hi (A.release b.addr) := by
  obtain ⟨hb, hba⟩ := mem_used.1 hb
  obtain ⟨l, r, h⟩ := List.append_of_mem hb
  have ht := hA.tiles
  have hs := hA.sized
  rw [h] at ht hs
  rw [hA.release_eq h]
  refine coalesce_valid ?_ ?_ rfl (hA.noAdj_left h) (hA.noAdj_right h) (hA.perm_of_alloc h hba)
  · rw [tiles_split] at ht ⊢
    exact ht
  · rw [Sized.append, Sized.cons] at hs ⊢
    exact hs

/-- The blocks after a release: the normal form of those with `b` released. -/
theorem release_blocks (hA : Valid lo hi A) (hb : b ∈ A.used) :
    (A.release b.addr).blocks =
      normalize (A.blocks.map fun c => if c.addr = b.addr then c.release else c) := by
  obtain ⟨l, r, h⟩ := List.append_of_mem (mem_used.1 hb).1
  have ht := hA.tiles
  have hs := hA.sized
  rw [h] at ht hs
  obtain ⟨hl, hr⟩ := tiles_split_ne ht hs.pos
  rw [hA.release_eq h, coalesce_blocks rfl (hA.noAdj_left h) (hA.noAdj_right h), h, List.map_append,
    List.map_cons, if_pos rfl, List.map_congr_left fun c hc => if_neg (hl c hc),
    List.map_congr_left fun c hc => if_neg (hr c hc), List.map_id', List.map_id']

/-- The other blocks in use stay in use. -/
theorem mem_used_release (hA : Valid lo hi A) (hb : b ∈ A.used) (c : Block) :
    c ∈ (A.release b.addr).used ↔ c ∈ A.used ∧ c.addr ≠ b.addr := by
  obtain ⟨l, r, h⟩ := List.append_of_mem (mem_used.1 hb).1
  have ht := hA.tiles
  have hs := hA.sized
  rw [h] at ht hs
  obtain ⟨hl, hr⟩ := tiles_split_ne ht hs.pos
  rw [hA.release_eq h, coalesce_used rfl (hA.noAdj_left h) (hA.noAdj_right h), mem_used, h]
  simp only [List.mem_filter, List.mem_append, List.mem_cons]
  constructor
  · rintro ⟨hc | hc, hca⟩
    · exact ⟨⟨.inl hc, hca⟩, hl c hc⟩
    · exact ⟨⟨.inr (.inr hc), hca⟩, hr c hc⟩
  · rintro ⟨⟨hc | rfl | hc, hca⟩, hne⟩
    · exact ⟨.inl hc, hca⟩
    · exact absurd rfl hne
    · exact ⟨.inr hc, hca⟩

/-! ## place -/

section Place

variable {asize : Nat} (hA : Valid lo hi A) (h : A.blocks = l ++ b :: r)
include hA h

theorem place_split (hrem : minBlocksize ≤ b.size - asize) :
    A.place b.addr asize =
      (coalesce (l ++ [⟨b.addr, asize, true⟩]) ⟨b.addr + asize, b.size - asize, false⟩ r
        (A.free.erase b.addr)).2 := by
  unfold place
  rw [hA.cut h]
  exact if_pos hrem

theorem place_whole (hrem : ¬ minBlocksize ≤ b.size - asize) :
    A.place b.addr asize = ⟨l ++ ⟨b.addr, b.size, true⟩ :: r, A.free.erase b.addr⟩ := by
  unfold place
  rw [hA.cut h]
  exact if_neg hrem

variable (hb : b.alloc = false)
include hb

theorem place_valid (h24 : minBlocksize ≤ asize) (h8 : asize % 8 = 0) (hle : asize ≤ b.size) :
    Valid lo hi (A.place b.addr asize) := by
  have ht := hA.tiles
  have hs := hA.sized
  have hp := hA.erase_perm h hb
  rw [h, tiles_split] at ht
  rw [h, Sized.append, Sized.cons] at hs
  by_cases hrem : minBlocksize ≤ b.size - asize
  · rw [hA.place_split h hrem]
    refine coalesce_valid ?_ ?_ rfl ?_ (hA.noAdj_right h) ?_
    · rw [List.append_assoc, List.singleton_append, tiles_split]
      refine ⟨ht.1, rfl, ?_⟩
      rw [Nat.add_assoc, Nat.add_sub_cancel' hle]
      exact ht.2
    · simp only [Sized.append, Sized.cons]
      exact ⟨⟨hs.1, ⟨h24, h8⟩, by simp [Sized]⟩, ⟨hrem, by omega⟩, hs.2.2⟩
    · exact (hA.noAdj_left h).append (.singleton _) (by simp)
    · rwa [freeAddrs_append, freeAddrs_append, freeAddrs_cons_alloc _ rfl, ← freeAddrs_append,
        List.append_nil, ← freeAddrs_append]
  · rw [hA.place_whole h hrem]
    refine ⟨?_, ?_, ?_, ?_⟩
    · rw [tiles_split]
      exact ht
    · rw [Sized.append, Sized.cons]
      exact hs
    · exact (hA.noAdj_left h).append ((hA.noAdj_right h).cons fun _ _ => .inl rfl) (by simp)
    · rwa [freeAddrs_append, freeAddrs_cons_alloc _ rfl, ← freeAddrs_append]

/-- The blocks in use after `place`: those before, and the new one, which leaves no
    room for another block. -/
theorem mem_used_place (hle : asize ≤ b.size) :
    ∃ n, asize ≤ n ∧ n < asize + minBlocksize ∧
      ∀ c, c ∈ (A.place b.addr asize).used ↔ c ∈ A.used ∨ c = ⟨b.addr, n, true⟩ := by
  have hused : ∀ c, c ∈ A.used ↔ (c ∈ l ∨ c ∈ r) ∧ c.alloc = true := by
    intro c
    rw [mem_used, h]
    simp only [List.mem_append, List.mem_cons]
    constructor
    · rintro ⟨hc | rfl | hc, hca⟩
      · exact ⟨.inl hc, hca⟩
      · simp [hb] at hca
      · exact ⟨.inr hc, hca⟩
    · rintro ⟨hc | hc, hca⟩
      · exact ⟨.inl hc, hca⟩
      · exact ⟨.inr (.inr hc), hca⟩
  by_cases hrem : minBlocksize ≤ b.size - asize
  · refine ⟨asize, Nat.le_refl _, Nat.lt_add_of_pos_right (by decide), fun c => ?_⟩
    have hl : NoAdjFree (l ++ [⟨b.addr, asize, true⟩]) :=
      (hA.noAdj_left h).append (.singleton _) (by simp)
    rw [hA.place_split h hrem, coalesce_used rfl hl (hA.noAdj_right h), hused]
    simp only [List.mem_filter, List.mem_append, List.mem_singleton]
    constructor
    · rintro ⟨(hc | hc) | hc, hca⟩
      · exact .inl ⟨.inl hc, hca⟩
      · exact .inr hc
      · exact .inl ⟨.inr hc, hca⟩
    · rintro (⟨hc | hc, hca⟩ | rfl)
      · exact ⟨.inl (.inl hc), hca⟩
      · exact ⟨.inr hc, hca⟩
      · exact ⟨.inl (.inr rfl), rfl⟩
  · refine ⟨b.size, hle, by omega, fun c => ?_⟩
    rw [hA.place_whole h hrem, hused, mem_used]
    simp only [List.mem_append, List.mem_cons]
    constructor
    · rintro ⟨hc | hc | hc, hca⟩
      · exact .inl ⟨.inl hc, hca⟩
      · exact .inr hc
      · exact .inl ⟨.inr hc, hca⟩
    · rintro (⟨hc | hc, hca⟩ | rfl)
      · exact ⟨.inl hc, hca⟩
      · exact ⟨.inr (.inr hc), hca⟩
      · exact ⟨.inr (.inl rfl), rfl⟩

end Place

/-! ## extend -/

section Extend

variable {e : Nat} (hA : Valid lo hi A) (h24 : minBlocksize ≤ e) (h8 : e % 8 = 0)
include hA

theorem extend_used : (A.extend hi e).2.used = A.used := by
  unfold extend
  rw [coalesce_used rfl hA.sep .nil, List.append_nil]
  rfl

include h24 h8

theorem extend_valid : Valid lo (hi + e) (A.extend hi e).2 := by
  unfold extend
  refine coalesce_valid ?_ ?_ rfl hA.sep .nil ?_
  · rw [tiles_split]
    exact ⟨hA.tiles, rfl⟩
  · rw [Sized.append, Sized.cons]
    exact ⟨hA.sized, ⟨h24, h8⟩, by simp [Sized]⟩
  · rw [List.append_nil]
    exact hA.perm

end Extend

/-! ## malloc -/

/-- First fit finds a free block that is large enough. -/
theorem fit_some (hA : Valid lo hi A) {asize p : Nat} (h : A.fit asize = some p) :
    ∃ b ∈ A.blocks, b.addr = p ∧ b.alloc = false ∧ asize ≤ b.size := by
  have hp := List.find?_some h
  have hfree := List.mem_of_find?_eq_some h
  obtain ⟨b, hb, hba, rfl⟩ := hA.mem_free.1 hfree
  simp only [List.any_eq_true, decide_eq_true_eq] at hp
  obtain ⟨c, hc, hcb, hle⟩ := hp
  obtain rfl := hA.addr_inj hc hb hcb
  exact ⟨c, hc, rfl, hba, hle⟩

/-- An allocation fails and changes nothing, or places the request in a free block
    of the layout, or of the layout extended, which has the same blocks in use. -/
theorem malloc_cases (hA : Valid lo hi A) (top : Nat) {size : Nat} (hsize : size < addrSpace) :
    (A.malloc hi top size = (0, A) ∧ A.mallocBrk hi top size = hi) ∨
    ∃ A' b, Valid lo (A.mallocBrk hi top size) A' ∧ A'.used = A.used ∧ b ∈ A'.blocks ∧
      b.alloc = false ∧ newsize size ≤ b.size ∧
      A.malloc hi top size = (b.addr, A'.place b.addr (newsize size)) ∧
      (A' = A ∧ A.mallocBrk hi top size = hi ∨
        A' = (A.extend hi (extendsize size)).2 ∧
          A.mallocBrk hi top size = hi + extendsize size) := by
  have hn := newsize_bounds hsize
  unfold malloc mallocBrk
  cases hfit : A.fit (newsize size) with
  | some p =>
    obtain ⟨b, hb, rfl, hba, hle⟩ := hA.fit_some hfit
    exact .inr ⟨A, b, by simpa using hA, rfl, hb, hba, hle, rfl, .inl ⟨rfl, if_neg (by simp)⟩⟩
  | none =>
    by_cases hg : Grows hi top size
    · have hex : minBlocksize ≤ extendsize size ∧ extendsize size % 8 = 0 ∧
          newsize size ≤ extendsize size := by
        rw [extendsize_eq]
        unfold minBlocksize
        omega
      obtain ⟨b, hb, hbp, hba, hle⟩ :=
        coalesce_mem (l := A.blocks) (r := []) (b := ⟨hi, extendsize size, false⟩) A.free rfl
      refine .inr ⟨(A.extend hi (extendsize size)).2, b, ?_, hA.extend_used, hb, hba,
        hex.2.2.trans hle, ?_, .inr ⟨rfl, if_pos ⟨rfl, hg⟩⟩⟩
      · rw [if_pos ⟨rfl, hg⟩]
        exact hA.extend_valid hex.1 hex.2.1
      · rw [hbp]
        exact if_pos hg
    · exact .inl ⟨if_neg hg, if_neg fun h => hg h.2⟩

/-- What an allocation does to the blocks in use. -/
theorem malloc_used (hA : Valid lo hi A) (hlo : 0 < lo) (top : Nat) {size : Nat}
    (hsize : size < addrSpace) :
    Valid lo (A.mallocBrk hi top size) (A.malloc hi top size).2 ∧
    (((A.malloc hi top size).1 = 0 ∧ (A.malloc hi top size).2 = A) ∨
      (A.malloc hi top size).1 ≠ 0 ∧ (∀ c ∈ A.used, c.addr ≠ (A.malloc hi top size).1) ∧
        ∃ n, newsize size ≤ n ∧ n < newsize size + minBlocksize ∧
          ∀ c, c ∈ (A.malloc hi top size).2.used ↔
            c ∈ A.used ∨ c = ⟨(A.malloc hi top size).1, n, true⟩) := by
  have hn := newsize_bounds hsize
  obtain ⟨hm, hbrk⟩ | ⟨A', b, hA', hu, hb, hba, hle, hm, -⟩ := hA.malloc_cases top hsize
  · rw [hm, hbrk]
    exact ⟨hA, .inl ⟨rfl, rfl⟩⟩
  · obtain ⟨l, r, h⟩ := List.append_of_mem hb
    have hpos := (tiles_mem hA'.tiles hb).1
    obtain ⟨n, hn1, hn2, hn3⟩ := hA'.mem_used_place h hba hle
    rw [hm]
    refine ⟨hA'.place_valid h hba hn.1 hn.2.1 hle, .inr ⟨by omega, fun c hc hcb => ?_, n, hn1,
      hn2, fun c => ?_⟩⟩
    · obtain ⟨hcm, hca⟩ := mem_used.1 (hu ▸ hc)
      rw [hA'.addr_inj hcm hb hcb, hba] at hca
      exact Bool.noConfusion hca
    · rw [← hu]
      exact hn3 c

end Valid

end Layout

end OsBasics.Malloc
