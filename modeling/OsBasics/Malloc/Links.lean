/-
  The free list as a doubly linked list in memory.

  `FreeRing m start P fl`: `start` is the first of `fl ++ [P]`, PREV_BLKP leads
  along that list to the prologue `P`, NEXT_BLKP leads back, and NEXT_BLKP of the
  first is NULL. A member owns the twelve bytes from its address on (its two link
  words and the word between them). `insertBlock` and `removeBlock` write inside
  these cells only (`insertBlock_frame`, `removeBlock_frame`), put a block at the
  front, and take any member out (`freeRing_insertBlock`, `freeRing_removeBlock`).
-/
import OsBasics.Malloc.Tags
import Mathlib.Data.List.Chain

namespace OsBasics.Malloc

open OsBasics.Lib

/-- The cells at `x` and `y` do not overlap. -/
def Apart (x y : Nat) : Prop := x + 12 ≤ y ∨ y + 12 ≤ x

/-- `PREV_BLKP(x)` is `y`, and `NEXT_BLKP(y)` is `x`. -/
def Linked (m : Mem) (x y : Nat) : Prop := get m (x + 8) = y ∧ get m y = x

/-- The free list `fl` in memory, in front of the prologue `P`. -/
structure FreeRing (m : Mem) (start P : Nat) (fl : List Nat) : Prop where
  first : start = fl.headD P
  top : get m start = 0
  chain : (fl ++ [P]).IsChain (Linked m)
  apart : (fl ++ [P]).Pairwise Apart
  range : ∀ x ∈ fl ++ [P], 0 < x ∧ x + 12 ≤ addrSpace

/-- Memory agrees off the cells at `xs` and the NEXT word of the prologue `P`. -/
def SameOff (xs : List Nat) (P : Nat) (m m' : Mem) : Prop :=
  ∀ q, (∀ x ∈ xs, q < x ∨ x + 12 ≤ q) → (q < P ∨ P + 4 ≤ q) → m' q = m q

theorem SameOff.trans {xs : List Nat} {P : Nat} {m m' m'' : Mem} (h : SameOff xs P m m')
    (h' : SameOff xs P m' m'') : SameOff xs P m m'' :=
  fun q hq hP => (h' q hq hP).trans (h q hq hP)

/-- A store into the cell of a member. -/
theorem sameOff_put {xs : List Nat} {P : Nat} {m : Mem} {x p v : Nat} (hx : x ∈ xs)
    (h1 : x ≤ p) (h2 : p ≤ x + 8) : SameOff xs P m (putWord m p v) := by
  intro q hq _
  have := hq x hx
  exact putWord_byte m v (by omega)

/-- A store into the NEXT word of a member or of the prologue. -/
theorem sameOff_next {xs : List Nat} {P : Nat} {m : Mem} {x v : Nat} (hx : x ∈ xs ++ [P]) :
    SameOff xs P m (putWord m x v) := by
  intro q hq hP
  rcases List.mem_append.1 hx with hx | hx
  · have := hq x hx
    exact putWord_byte m v (by omega)
  · rw [List.mem_singleton.1 hx]
    exact putWord_byte m v (by omega)

/-- A chain survives a change that keeps the words it reads: PREV of every member
    but the last, NEXT of every member but the first. -/
theorem chain_congr {m m' : Mem} {l : List Nat} (h : l.IsChain (Linked m))
    (hp : ∀ x ∈ l.dropLast, get m' (x + 8) = get m (x + 8))
    (hn : ∀ y ∈ l.tail, get m' y = get m y) : l.IsChain (Linked m') := by
  rw [List.isChain_iff_forall_rel_of_append_cons_cons] at h ⊢
  intro x y l₁ l₂ hl
  have hx : x ∈ l.dropLast := by simp [hl, List.dropLast_append_of_ne_nil]
  have hy : y ∈ l.tail := by cases l₁ <;> simp [hl]
  obtain ⟨h1, h2⟩ := h hl
  exact ⟨(hp x hx).trans h1, (hn y hy).trans h2⟩

namespace FreeRing

variable {m : Mem} {start P : Nat} {fl : List Nat}

/-- The list with the prologue, from `start` on. -/
theorem cons_start (h : FreeRing m start P fl) : ∃ r, fl ++ [P] = start :: r := by
  cases fl with
  | nil => exact ⟨[], by rw [h.first]; rfl⟩
  | cons x fl => exact ⟨fl ++ [P], by rw [h.first]; rfl⟩

theorem start_mem (h : FreeRing m start P fl) : start ∈ fl ++ [P] := by
  obtain ⟨r, hr⟩ := h.cons_start
  simp [hr]

theorem nodup (h : FreeRing m start P fl) : (fl ++ [P]).Nodup :=
  h.apart.imp fun hxy => by unfold Apart at hxy; omega

/-- A free list survives a change of bytes outside its cells. -/
theorem congr {m' : Mem} (h : FreeRing m start P fl)
    (hm : ∀ x ∈ fl ++ [P], ∀ q, x ≤ q → q < x + 12 → m' q = m q) : FreeRing m' start P fl where
  first := h.first
  top := (get_congr fun q h1 h2 => hm _ h.start_mem q h1 (by omega)).trans h.top
  chain := chain_congr h.chain
    (fun x hx => get_congr fun q h1 h2 =>
      hm x (List.dropLast_subset _ hx) q (by omega) (by omega))
    (fun y hy => get_congr fun q h1 h2 => hm y (List.mem_of_mem_tail hy) q h1 (by omega))
  apart := h.apart
  range := h.range

end FreeRing

/-! ## insertBlock -/

theorem insertBlock_mem (s : Heap) {bp : Nat} (h : bp + 8 < addrSpace) :
    (insertBlock s bp).mem =
      putWord (putWord (putWord s.mem (bp + 8) s.start) s.start bp) bp 0 := by
  have hadd : addU bp dsize = bp + 8 := addU_eq h
  simp [insertBlock, setPrevBlkp, setNextBlkp, hadd]

@[simp] theorem insertBlock_start (s : Heap) (bp : Nat) : (insertBlock s bp).start = bp := rfl
@[simp] theorem insertBlock_memStartBrk (s : Heap) (bp : Nat) :
    (insertBlock s bp).memStartBrk = s.memStartBrk := rfl
@[simp] theorem insertBlock_memBrk (s : Heap) (bp : Nat) :
    (insertBlock s bp).memBrk = s.memBrk := rfl
@[simp] theorem insertBlock_memMaxAddr (s : Heap) (bp : Nat) :
    (insertBlock s bp).memMaxAddr = s.memMaxAddr := rfl

/-- `insertBlock` writes the new cell and the NEXT word at `start`. -/
theorem insertBlock_frame {s : Heap} {P : Nat} {fl : List Nat} {bp : Nat}
    (h : FreeRing s.mem s.start P fl) (hb : bp + 8 < addrSpace) :
    SameOff (bp :: fl) P s.mem (insertBlock s bp).mem := by
  have hs : s.start ∈ bp :: fl ++ [P] := List.mem_cons_of_mem _ h.start_mem
  have hbp : bp ∈ bp :: fl := List.mem_cons_self
  rw [insertBlock_mem s hb]
  have h1 (m : Mem) : SameOff (bp :: fl) P m (putWord m (bp + 8) s.start) :=
    sameOff_put hbp (by omega) (by omega)
  have h2 (m : Mem) : SameOff (bp :: fl) P m (putWord m s.start bp) := sameOff_next hs
  have h3 (m : Mem) : SameOff (bp :: fl) P m (putWord m bp 0) :=
    sameOff_put hbp (by omega) (by omega)
  exact ((h1 _).trans (h2 _)).trans (h3 _)

/-- `insertBlock` puts a block with a cell of its own at the front. -/
theorem freeRing_insertBlock {s : Heap} {P : Nat} {fl : List Nat} {bp : Nat}
    (h : FreeRing s.mem s.start P fl) (h0 : 0 < bp) (hb : bp + 12 ≤ addrSpace)
    (hap : ∀ x ∈ fl ++ [P], Apart bp x) :
    FreeRing (insertBlock s bp).mem bp P (bp :: fl) := by
  obtain ⟨r, hr⟩ := h.cons_start
  have hs := hap _ h.start_mem
  have hsr : ∀ y ∈ r, Apart s.start y := by
    have := h.apart
    rw [hr] at this
    exact (List.pairwise_cons.1 this).1
  have hsp := (h.range _ h.start_mem).2
  have hsplit : ∀ x ∈ fl ++ [P], x = s.start ∨ x ∈ r := by
    intro x hx
    rw [hr] at hx
    exact List.mem_cons.1 hx
  unfold Apart at hs hsr hap
  refine ⟨rfl, ?_, ?_, List.pairwise_cons.2 ⟨hap, h.apart⟩, ?_⟩
  · rw [insertBlock_mem s (by omega)]
    exact get_putWord_same _ _ (by decide)
  · show (bp :: (fl ++ [P])).IsChain _
    rw [insertBlock_mem s (by omega), hr]
    refine List.IsChain.cons_cons ⟨?_, ?_⟩ (chain_congr (hr ▸ h.chain) ?_ ?_)
    · rw [get_putWord_ne _ _ (by omega), get_putWord_ne _ _ (by omega),
        get_putWord_same _ _ (by omega)]
    · rw [get_putWord_ne _ _ (by omega), get_putWord_same _ _ (by omega)]
    · intro x hx
      have hx := List.dropLast_subset _ hx
      rw [← hr] at hx
      have := hap x hx
      have : x = s.start ∨ x + 12 ≤ s.start ∨ s.start + 12 ≤ x := by
        rcases hsplit x hx with e | hx
        · exact .inl e
        · have := hsr x hx
          omega
      rw [get_putWord_ne _ _ (by omega), get_putWord_ne _ _ (by omega),
        get_putWord_ne _ _ (by omega)]
    · intro y hy
      have := hap y (by rw [hr]; exact List.mem_cons_of_mem _ hy)
      have := hsr y hy
      rw [get_putWord_ne _ _ (by omega), get_putWord_ne _ _ (by omega),
        get_putWord_ne _ _ (by omega)]
  · intro x hx
    rcases List.mem_cons.1 hx with rfl | hx
    · exact ⟨h0, hb⟩
    · exact h.range x hx

/-! ## removeBlock -/

@[simp] theorem removeBlock_memStartBrk (s : Heap) (bp : Nat) :
    (removeBlock s bp).memStartBrk = s.memStartBrk := by
  unfold removeBlock
  split <;> rfl

@[simp] theorem removeBlock_memBrk (s : Heap) (bp : Nat) :
    (removeBlock s bp).memBrk = s.memBrk := by
  unfold removeBlock
  split <;> rfl

@[simp] theorem removeBlock_memMaxAddr (s : Heap) (bp : Nat) :
    (removeBlock s bp).memMaxAddr = s.memMaxAddr := by
  unfold removeBlock
  split <;> rfl

theorem prevBlkp_eq (m : Mem) {bp : Nat} (h : bp + 8 < addrSpace) :
    prevBlkp m bp = get m (bp + 8) := by
  unfold prevBlkp
  rw [addU_eq (show bp + dsize < addrSpace from h)]
  rfl

/-- `removeBlock` on a member without a NEXT: `start` moves to its PREV. -/
theorem removeBlock_first {s : Heap} {x y : Nat} (hx : x + 8 < addrSpace)
    (hn : get s.mem x = 0) (hp : get s.mem (x + 8) = y) :
    (removeBlock s x).mem = putWord s.mem y 0 ∧ (removeBlock s x).start = y := by
  have hn' : nextBlkp s.mem x = 0 := hn
  simp [removeBlock, hn', prevBlkp_eq _ hx, hp, setNextBlkp, put]

/-- `removeBlock` on a member with NEXT `n`: `n` is linked with its PREV. -/
theorem removeBlock_next {s : Heap} {n x y : Nat} (hx : x + 8 < addrSpace)
    (hn : n + 8 < addrSpace) (h0 : n ≠ 0) (hnx : Apart n x)
    (hnext : get s.mem x = n) (hprev : get s.mem (x + 8) = y) :
    (removeBlock s x).mem = putWord (putWord s.mem (n + 8) y) y n ∧
      (removeBlock s x).start = s.start := by
  unfold Apart at hnx
  have hn' : nextBlkp s.mem x = n := hnext
  have hp' : prevBlkp s.mem x = y := by rw [prevBlkp_eq _ hx, hprev]
  have hp2 : prevBlkp (putWord s.mem (n + 8) y) x = y := by
    rw [prevBlkp_eq _ hx, get_putWord_ne _ _ (by omega), hprev]
  have hn2 : nextBlkp (putWord s.mem (n + 8) y) x = n := by
    unfold nextBlkp
    rw [get_putWord_ne _ _ (by omega), hnext]
  have hadd : addU n dsize = n + 8 := addU_eq hn
  constructor
  · simp [removeBlock, hn', hp', h0, setPrevBlkp, setNextBlkp, hadd, hp2, hn2]
  · simp [removeBlock, hn', hp', h0, setPrevBlkp, setNextBlkp]

/-- Writing the link words of two neighbours takes out what was between them. -/
theorem chain_bypass {m : Mem} {l r : List Nat} {n y : Nat}
    (hl : (l ++ [n]).IsChain (Linked m)) (hr : (y :: r).IsChain (Linked m))
    (hap : (l ++ n :: y :: r).Pairwise Apart) (hn : n < addrSpace) (hy : y < addrSpace) :
    (l ++ n :: y :: r).IsChain (Linked (putWord (putWord m (n + 8) y) y n)) := by
  rw [List.pairwise_append] at hap
  obtain ⟨-, hapr, hcross⟩ := hap
  obtain ⟨hny, hapr⟩ := List.pairwise_cons.1 hapr
  have hyr := (List.pairwise_cons.1 hapr).1
  have hny' := hny y List.mem_cons_self
  have hln : ∀ x ∈ l ++ [n], Apart x y ∧ (x = n ∨ Apart x n) := by
    intro x hx
    rcases List.mem_append.1 hx with hx | hx
    · exact ⟨hcross x hx y (by simp), .inr (hcross x hx n (by simp))⟩
    · obtain rfl := List.mem_singleton.1 hx
      exact ⟨hny', .inl rfl⟩
  rw [List.isChain_append_cons_cons]
  refine ⟨chain_congr hl ?_ ?_, ⟨?_, get_putWord_same _ _ hn⟩, chain_congr hr ?_ ?_⟩
  · intro x hx
    rw [List.dropLast_concat] at hx
    have h1 := hcross x hx n (by simp)
    have h2 := hcross x hx y (by simp)
    unfold Apart at h1 h2
    rw [get_putWord_ne _ _ (by omega), get_putWord_ne _ _ (by omega)]
  · intro x hx
    have hx := hln x (List.mem_of_mem_tail hx)
    unfold Apart at hx
    rw [get_putWord_ne _ _ (by omega), get_putWord_ne _ _ (by omega)]
  · unfold Apart at hny'
    rw [get_putWord_ne _ _ (by omega), get_putWord_same _ _ hy]
  · intro x hx
    have hx := List.dropLast_subset _ hx
    have h1 := hny x hx
    have h2 : x = y ∨ Apart y x := (List.mem_cons.1 hx).imp_right (hyr x)
    unfold Apart at h1 h2
    rw [get_putWord_ne _ _ (by omega), get_putWord_ne _ _ (by omega)]
  · intro x hx
    have h1 := hny x (List.mem_cons_of_mem _ hx)
    have h2 := hyr x hx
    unfold Apart at h1 h2
    rw [get_putWord_ne _ _ (by omega), get_putWord_ne _ _ (by omega)]

/-- Writing NULL as NEXT of the second member takes out the first. -/
theorem chain_drop_first {m : Mem} {y : Nat} {r : List Nat} (hr : (y :: r).IsChain (Linked m))
    (hap : (y :: r).Pairwise Apart) : (y :: r).IsChain (Linked (putWord m y 0)) := by
  have hyr := (List.pairwise_cons.1 hap).1
  refine chain_congr hr ?_ ?_
  · intro x hx
    have : x = y ∨ Apart y x :=
      (List.mem_cons.1 (List.dropLast_subset _ hx)).imp_right (hyr x)
    unfold Apart at this
    exact get_putWord_ne _ _ (by omega)
  · intro x hx
    have := hyr x hx
    unfold Apart at this
    exact get_putWord_ne _ _ (by omega)

/-- `removeBlock` takes a member out and writes in the cells of the list only. -/
theorem freeRing_removeBlock {s : Heap} {P x : Nat} {fl : List Nat}
    (h : FreeRing s.mem s.start P fl) (hx : x ∈ fl) :
    FreeRing (removeBlock s x).mem (removeBlock s x).start P (fl.erase x) ∧
      SameOff fl P s.mem (removeBlock s x).mem := by
  obtain ⟨l, r, rfl, hxl⟩ : ∃ l r, fl = l ++ x :: r ∧ x ∉ l := List.eq_append_cons_of_mem hx
  have herase : (l ++ x :: r).erase x = l ++ r := by
    rw [List.erase_append_right _ hxl, List.erase_cons_head]
  obtain ⟨y, r', hy⟩ : ∃ y r', r ++ [P] = y :: r' := by cases r <;> simp
  have hlist : l ++ x :: r ++ [P] = l ++ x :: y :: r' := by simp [hy]
  have hlist' : l ++ r ++ [P] = l ++ y :: r' := by simp [hy]
  have hc := h.chain
  have hap := h.apart
  have hrange := h.range
  rw [hlist] at hc hap hrange
  have hc' := (List.isChain_append_cons_cons.1 hc)
  have hxr := hrange x (by simp)
  have hyr := hrange y (by simp)
  have hprev : get s.mem (x + 8) = y := hc'.2.1.1
  have hap' : (l ++ y :: r').Pairwise Apart :=
    hap.sublist ((List.Sublist.refl l).append (List.sublist_cons_self _ _))
  have hrange' : ∀ z ∈ l ++ y :: r', 0 < z ∧ z + 12 ≤ addrSpace := by
    intro z hz
    exact hrange z (((List.Sublist.refl l).append (List.sublist_cons_self _ _)).subset hz)
  rw [herase]
  rcases List.eq_nil_or_concat l with rfl | ⟨l, n, rfl⟩
  · -- `x` is the first member: PREV of `x` becomes the first
    have hstart : s.start = x := h.first
    have hnext : get s.mem x = 0 := by rw [← hstart]; exact h.top
    obtain ⟨hm, hs⟩ := removeBlock_first (by omega) hnext hprev
    rw [List.nil_append] at hap' hrange' hlist' ⊢
    rw [hm, hs]
    refine ⟨⟨?_, get_putWord_same _ _ (by decide), ?_, ?_, ?_⟩, ?_⟩
    · cases r <;> simp_all
    · rw [hy]
      exact chain_drop_first hc'.2.2 hap'
    · rw [hy]; exact hap'
    · rw [hy]; exact hrange'
    · refine sameOff_next (x := y) ?_
      rw [List.nil_append, List.cons_append, hy]
      simp
  · -- `x` has a NEXT `n`, which is linked with PREV of `x`
    simp only [List.concat_eq_append, List.append_assoc, List.singleton_append] at *
    have hn := hrange n (by simp)
    obtain ⟨hln, ⟨-, hnext⟩, -⟩ := List.isChain_append_cons_cons.1 hc
    have hnx : Apart n x :=
      (List.pairwise_cons.1 (List.pairwise_append.1 hap).2.1).1 x List.mem_cons_self
    obtain ⟨hm, hs⟩ := removeBlock_next (by omega) (by omega) (by omega) hnx hnext hprev
    have hym : y ∈ l ++ n :: x :: y :: r' := by simp
    have hnew : l ++ n :: r ++ [P] = l ++ n :: y :: r' := by simp [hy]
    have hstart : s.start ∈ l ++ [n] := by
      rw [h.first]
      cases l <;> simp
    have hfar : Apart s.start y ∧ (s.start = n ∨ Apart s.start n) := by
      have hp := List.pairwise_append.1 hap'
      rcases List.mem_append.1 hstart with hl | hl
      · exact ⟨hp.2.2 _ hl y (by simp), .inr (hp.2.2 _ hl n (by simp))⟩
      · rw [List.mem_singleton.1 hl]
        exact ⟨(List.pairwise_cons.1 hp.2.1).1 y List.mem_cons_self, .inl rfl⟩
    rw [hm, hs]
    refine ⟨⟨?_, ?_, ?_, ?_, ?_⟩, ?_⟩
    · rw [h.first]
      cases l <;> rfl
    · unfold Apart at hfar
      rw [get_putWord_ne _ _ (by omega), get_putWord_ne _ _ (by omega), h.top]
    · rw [hnew]
      exact chain_bypass hln hc'.2.2 hap' (by omega) (by omega)
    · rw [hnew]; exact hap'
    · rw [hnew]; exact hrange'
    · have h1 (m : Mem) : SameOff (l ++ n :: x :: r) P m (putWord m (n + 8) y) :=
        sameOff_put (x := n) (by simp) (by omega) (by omega)
      have h2 (m : Mem) : SameOff (l ++ n :: x :: r) P m (putWord m y n) :=
        sameOff_next (by rw [List.append_assoc, hlist]; exact hym)
      exact (h1 _).trans (h2 _)

end OsBasics.Malloc
