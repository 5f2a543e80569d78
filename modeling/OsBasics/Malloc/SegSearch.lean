/-
  The search of the segregated allocator finds a fitting block when one is listed.

  `insertBlock` files a block of size `z` under `min 19 ⌊log₂ z⌋` (`sizeClass_eq`).
  The search halves the request as it goes up the classes, so a class it passes
  without looking holds only blocks smaller than the request (`small_of_passed`).
  `searchLoop_spec` carries this up the classes; `malloc_search` is the result.
-/
import OsBasics.Lib.NullList
import OsBasics.Malloc.SegLists
import Mathlib.Algebra.Order.Floor.Div
import Mathlib.Data.Nat.Log

namespace OsBasics.Malloc.Seg

open OsBasics.Lib

/-- The class lists hold the blocks `ls`: list `c` is finite and ends in NULL. -/
def Listed (s : SegHeap) (ls : Fin listCount → List Nat) : Prop :=
  ∀ c, NullList 0 (prevBlkp s.heap.mem) (s.seglist c) (ls c)

instance (s : SegHeap) (ls : Fin listCount → List Nat) : Decidable (Listed s ls) :=
  inferInstanceAs (Decidable (∀ _, _))

/-- Every listed block is in the class of its size. -/
def Filed (s : SegHeap) (ls : Fin listCount → List Nat) : Prop :=
  ∀ c, ∀ b ∈ ls c, sizeClass (getSize s.heap.mem (hdrp b)) = c

instance (s : SegHeap) (ls : Fin listCount → List Nat) : Decidable (Filed s ls) :=
  inferInstanceAs (Decidable (∀ _, ∀ _ ∈ _, _))

/-- The block `b` is large enough for `newsize` bytes. -/
def fits (s : SegHeap) (newsize b : Nat) : Bool := newsize ≤ getSize s.heap.mem (hdrp b)

/-! ## Halving -/

theorem halve_snd (n size count : Nat) : (halve n size count).2 = count + min n (Nat.log 2 size) := by
  induction n generalizing size count with
  | zero => rw [Nat.zero_min]; rfl
  | succ n ih =>
    unfold halve
    by_cases h : size > 1
    · have hlog : Nat.log 2 size = Nat.log 2 (size / 2) + 1 :=
        Nat.log_of_one_lt_of_le (by decide) h
      rw [if_pos h, ih, hlog, Nat.add_min_add_right]
      omega
    · rw [if_neg h, Nat.log_of_lt (by omega), Nat.min_zero]
      rfl

/-- The class of a block is the binary logarithm of its size, or the last one. -/
theorem sizeClass_eq (size : Nat) : (sizeClass size).val = min 19 (Nat.log 2 size) := by
  unfold sizeClass
  dsimp only
  rw [halve_snd, Nat.zero_add]
  rfl

/-- Halving brings a size down to 1 only after as many rounds as its class counts: a block
    in class `c`, not the last, is smaller than a request that is still above 1 there. -/
theorem small_of_passed {size z : Nat} {c : Fin listCount} (hz : sizeClass z = c)
    (hlast : c.val ≠ listCount - 1) (hbig : ¬ size / 2 ^ c.val ≤ 1) : z < size := by
  have hc := sizeClass_eq z
  have hlt := c.isLt
  rw [hz] at hc
  unfold listCount at hlast hlt
  have hlog : Nat.log 2 z = c.val := by omega
  have hup : z < 2 ^ (c.val + 1) := by
    rw [← hlog]
    exact Nat.lt_pow_succ_log_self (by decide) z
  have htwo : 2 * 2 ^ c.val ≤ size := (Nat.le_div_iff_mul_le (Nat.two_pow_pos _)).1 (by omega)
  rw [Nat.pow_succ] at hup
  omega

/-! ## newsize -/

/-- A request below `2^31` does not wrap. -/
theorem newsize_of_lt {size : Nat} (hw : size < 2147483648) :
    newsize size = if size ≤ 8 then 16 else 8 * ((size + 15) / 8) := by
  have h8 : addU size dsize = size + 8 := if_pos (by unfold dsize addrSpace; omega)
  have h15 : addU (addU size dsize) (dsize - 1) = size + 15 := by
    rw [h8]
    exact if_pos (by unfold dsize addrSpace; omega)
  unfold newsize
  rw [h15]
  rfl

theorem newsize_eq {size : Nat} (hw : size < 2147483648) :
    newsize size = max 16 (8 * ((size + 8) ⌈/⌉ 8)) := by
  rw [newsize_of_lt hw, Nat.ceilDiv_eq_add_pred_div]
  split <;> omega

theorem le_newsize {size : Nat} (hw : size < 2147483648) : size ≤ newsize size := by
  rw [newsize_of_lt hw]
  split <;> omega

/-! ## One list -/

section Walk

variable {s : SegHeap} {l : List Nat} {newsize p : Nat}

/-- The walk along a list stops at its first fitting block, or at NULL. -/
theorem walk_eq (hl : NullList 0 (prevBlkp s.heap.mem) p l) {n : Nat} (hn : l.length < n) (pos : Nat) :
    ∃ pos', walk s.heap.mem newsize n pos p = .ok (pos', (l.find? (fits s newsize)).getD 0) := by
  induction l generalizing p n pos with
  | nil =>
    obtain ⟨n, rfl⟩ : ∃ k, n = k + 1 := ⟨n - 1, by have := hn; simp at this; omega⟩
    rw [NullList.nil_iff] at hl
    subst hl
    exact ⟨pos, if_neg (by simp)⟩
  | cons b l ih =>
    obtain ⟨n, rfl⟩ : ∃ k, n = k + 1 := ⟨n - 1, by omega⟩
    obtain ⟨rfl, hp, hl⟩ := hl
    unfold walk
    by_cases hf : newsize > getSize s.heap.mem (hdrp p)
    · have hno : fits s newsize p = false := decide_eq_false (by omega)
      rw [if_pos ⟨hp, hf⟩, List.find?_cons, hno]
      exact ih hl (by rw [List.length_cons] at hn; omega) p
    · have hyes : fits s newsize p = true := decide_eq_true (by omega)
      rw [if_neg (fun h => hf h.2), List.find?_cons, hyes]
      exact ⟨pos, rfl⟩

theorem walk_list (newsize : Nat) (hl : NullList 0 (prevBlkp s.heap.mem) p l) :
    ∃ pos, walk s.heap.mem newsize walkBound 0 p = .ok (pos, (l.find? (fits s newsize)).getD 0) := by
  have hlen := hl.length_le (N := addrSpace) (by decide) fun q => wordAt_lt s.heap.mem q
  exact walk_eq hl (by unfold walkBound; omega) 0

end Walk

/-! ## All lists -/

/-- `bp` is what a search that has left out no fitting block ends with: the first fitting
    block of the lowest class that has one, or NULL. -/
def Best (s : SegHeap) (ls : Fin listCount → List Nat) (newsize bp : Nat) : Prop :=
  (bp = 0 ∧ ∀ c, ∀ b ∈ ls c, fits s newsize b = false) ∨
    ∃ c, bp ≠ 0 ∧ (ls c).find? (fits s newsize) = some bp ∧
      ∀ c' < c, ∀ b ∈ ls c', fits s newsize b = false

section Search

variable {s : SegHeap} {ls : Fin listCount → List Nat} {newsize size : Nat}

/-- From class `count` on, when no list below has a fitting block. -/
theorem searchLoop_spec (hl : Listed s ls) (hf : Filed s ls) (hsize : size ≤ newsize) {count : Nat}
    (bp : Nat) (hcount : count < listCount) (hbelow : ∀ c, c.val < count → ∀ b ∈ ls c, fits s newsize b = false) :
    ∃ bp', searchLoop s newsize (size / 2 ^ count) count bp = .ok bp' ∧ Best s ls newsize bp' := by
  induction hk : listCount - count generalizing count bp with
  | zero => omega
  | succ k ih =>
    have hsucc (c : Fin listCount) (hc : c.val < count + 1) : c.val < count ∨ c = ⟨count, hcount⟩ := by
      rcases Nat.lt_succ_iff_lt_or_eq.1 hc with hlt | heq
      · exact .inl hlt
      · exact .inr (Fin.ext heq)
    -- the step up the classes, when this one has no fitting block either
    have hup (bp : Nat) (hnone : ∀ b ∈ ls ⟨count, hcount⟩, fits s newsize b = false)
        (hnext : count ≠ listCount - 1) : ∃ bp', searchLoop s newsize (size / 2 ^ count / 2)
          (count + 1) bp = .ok bp' ∧ Best s ls newsize bp' := by
      rw [Nat.div_div_eq_div_mul, ← Nat.pow_succ]
      refine ih bp (by omega) (fun c hc => ?_) (by omega)
      rcases hsucc c hc with hlt | rfl
      · exact hbelow c hlt
      · exact hnone
    rw [searchLoop, dif_pos hcount]
    by_cases hlook : count = listCount - 1 ∨ size / 2 ^ count ≤ 1 ∧ s.seglist ⟨count, hcount⟩ ≠ 0
    · obtain ⟨pos, hwalk⟩ := walk_list newsize (hl ⟨count, hcount⟩)
      rw [if_pos hlook, hwalk]
      dsimp only [bind, Except.bind]
      cases hfind : (ls ⟨count, hcount⟩).find? (fits s newsize) with
      | some b =>
        have hb : b ≠ 0 := (hl _).ne_null (List.mem_of_find?_eq_some hfind)
        rw [Option.getD_some, if_pos hb]
        exact ⟨b, rfl, .inr ⟨⟨count, hcount⟩, hb, hfind, fun c hc => hbelow c hc⟩⟩
      | none =>
        have hnone : ∀ b ∈ ls ⟨count, hcount⟩, fits s newsize b = false := by
          intro b hb
          exact Bool.eq_false_iff.2 (List.find?_eq_none.1 hfind b hb)
        rw [Option.getD_none, if_neg (by simp)]
        by_cases hlast : count = listCount - 1
        · -- after the last class the loop ends with NULL
          rw [searchLoop, dif_neg (by unfold listCount at hlast ⊢; omega)]
          refine ⟨0, rfl, .inl ⟨rfl, fun c => ?_⟩⟩
          rcases hsucc c (by have := c.isLt; omega) with hlt | rfl
          · exact hbelow c hlt
          · exact hnone
        · exact hup 0 hnone hlast
    · have hlast : count ≠ listCount - 1 := fun h => hlook (.inl h)
      rw [if_neg hlook]
      refine hup bp (fun b hb => ?_) hlast
      by_cases hpassed : size / 2 ^ count ≤ 1
      · -- the list is empty
        have hnull : s.seglist ⟨count, hcount⟩ = 0 := by
          by_contra h
          exact hlook (.inr ⟨hpassed, h⟩)
        have hempty := hl ⟨count, hcount⟩
        rw [hnull] at hempty
        rw [hempty.nil_of_null] at hb
        cases hb
      · have hlt := small_of_passed (hf _ b hb) hlast hpassed
        exact decide_eq_false (by omega)

/-- The class of a block, the size `mm_malloc` looks for, and what its search ends with. -/
theorem malloc_search (hl : Listed s ls) (hf : Filed s ls) (hw : size < 2 ^ 31) (bp₀ : Nat) :
    (∀ z, (sizeClass z).val = min 19 (Nat.log 2 z)) ∧
    Seg.newsize size = max 16 (8 * ((size + 8) ⌈/⌉ 8)) ∧
    ∃ bp, searchLoop s (Seg.newsize size) size 0 bp₀ = .ok bp ∧
      (bp = 0 ↔ ∀ c, ∀ b ∈ ls c, getSize s.heap.mem (hdrp b) < Seg.newsize size) ∧
      (bp ≠ 0 → ∃ c, (ls c).find? (fits s (Seg.newsize size)) = some bp ∧
        ∀ c' < c, ∀ b ∈ ls c', getSize s.heap.mem (hdrp b) < Seg.newsize size) := by
  have hnofit (b : Nat) : fits s (Seg.newsize size) b = false ↔
      getSize s.heap.mem (hdrp b) < Seg.newsize size := by
    rw [fits, decide_eq_false_iff_not, Nat.not_le]
  refine ⟨sizeClass_eq, newsize_eq hw, ?_⟩
  obtain ⟨bp, hcode, hbest⟩ := searchLoop_spec hl hf (le_newsize hw) bp₀
    (show 0 < listCount by decide) (fun c hc => absurd hc (Nat.not_lt_zero _))
  rw [Nat.pow_zero, Nat.div_one] at hcode
  refine ⟨bp, hcode, ?_⟩
  simp only [← hnofit]
  rcases hbest with ⟨rfl, hnone⟩ | ⟨c, hbp, hfind, hlow⟩
  · exact ⟨⟨fun _ => hnone, fun _ => rfl⟩, fun h => absurd rfl h⟩
  · refine ⟨⟨fun h => absurd h hbp, fun hnone => ?_⟩, fun _ => ⟨c, hfind, hlow⟩⟩
    have hyes := List.find?_some hfind
    rw [hnone c bp (List.mem_of_find?_eq_some hfind)] at hyes
    cases hyes

end Search

/-- A free block of 24 bytes at 104, in class 4. -/
def oneBlock : SegHeap where
  heap := memInit (putWord (fun _ => 0) 100 24) 96
  seglist := fun c => if c.val = 4 then 104 else 0

def oneList : Fin listCount → List Nat := fun c => if c.val = 4 then [104] else []

/-- A request of 5 bytes starts in class 2, and the block it ends with is large enough. -/
theorem malloc_search_one :
    Listed oneBlock oneList ∧ Filed oneBlock oneList ∧
      ∃ bp, searchLoop oneBlock (newsize 5) 5 0 7 = .ok bp ∧ bp ≠ 0 := by
  have hl : Listed oneBlock oneList := by decide
  have hf : Filed oneBlock oneList := by decide
  obtain ⟨-, -, bp, hcode, hnone, -⟩ := malloc_search hl hf (show 5 < 2 ^ 31 by decide) 7
  refine ⟨hl, hf, bp, hcode, fun hbp => ?_⟩
  have hsmall := hnone.1 hbp ⟨4, by decide⟩ 104 (by decide)
  revert hsmall
  decide

end OsBasics.Malloc.Seg
