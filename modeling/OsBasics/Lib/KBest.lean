/-
  The `k` least of a list.

  `best k l` are the `k` least entries of `l`, in order. One more entry is inserted among
  them, and what then is too much falls off at the end (`best_concat`): an entry below the
  last one takes its place (`orderedInsert_concat_of_le`), and any other stays out
  (`orderedInsert_of_forall_le`).
-/
import Mathlib.Data.List.Sort

namespace OsBasics.Lib

variable {α : Type} [LinearOrder α] {l : List α} {a b : α} {k : Nat}

/-- The `k` least entries, in order. -/
def best (k : Nat) (l : List α) : List α := (l.insertionSort (· ≤ ·)).take k

/-- Two sorted lists of the same entries are one. -/
theorem eq_of_perm_of_sorted {l' : List α} (hp : l.Perm l') (h : l.Pairwise (· ≤ ·))
    (h' : l'.Pairwise (· ≤ ·)) : l = l' := hp.eq_of_pairwise' h h'

theorem orderedInsert_of_forall_le (h : l.Pairwise (· ≤ ·)) (ha : ∀ x ∈ l, x ≤ a) :
    l.orderedInsert (· ≤ ·) a = l ++ [a] := by
  refine eq_of_perm_of_sorted ?_ (h.orderedInsert a l) ?_
  · exact (List.perm_orderedInsert _ a l).trans (List.perm_append_singleton a l).symm
  · rw [List.pairwise_append]
    refine ⟨h, List.pairwise_singleton _ _, fun x hx y hy => ?_⟩
    rw [List.mem_singleton.1 hy]
    exact ha x hx

theorem orderedInsert_concat_of_le (h : a ≤ b) :
    (l ++ [b]).orderedInsert (· ≤ ·) a = l.orderedInsert (· ≤ ·) a ++ [b] := by
  induction l with
  | nil => rw [List.nil_append, List.orderedInsert_cons, if_pos h]; rfl
  | cons x l ih =>
    rw [List.cons_append, List.orderedInsert_cons, List.orderedInsert_cons, ih]
    split <;> rfl

/-- Only the first `k` places matter to the first `k` places. -/
theorem take_orderedInsert (l : List α) (a : α) (k : Nat) :
    (l.orderedInsert (· ≤ ·) a).take k = ((l.take k).orderedInsert (· ≤ ·) a).take k := by
  induction l generalizing k with
  | nil => rw [List.take_nil]
  | cons x l ih =>
    cases k with
    | zero => rfl
    | succ k =>
      rw [List.take_succ_cons, List.orderedInsert_cons, List.orderedInsert_cons]
      split
      · rw [List.take_succ_cons, List.take_succ_cons, ← List.take_succ_cons (a := x), List.take_take,
          Nat.min_eq_left (Nat.le_succ k)]
      · rw [List.take_succ_cons, List.take_succ_cons, ih]

theorem insertionSort_concat (l : List α) (a : α) :
    (l ++ [a]).insertionSort (· ≤ ·) = (l.insertionSort (· ≤ ·)).orderedInsert (· ≤ ·) a := by
  refine eq_of_perm_of_sorted ?_ (List.pairwise_insertionSort _ _)
    ((List.pairwise_insertionSort _ l).orderedInsert a _)
  refine (List.perm_insertionSort _ _).trans ((List.perm_append_singleton a l).trans ?_)
  exact (((List.perm_insertionSort _ l).cons a).symm).trans (List.perm_orderedInsert _ a _).symm

/-- One more entry. -/
theorem best_concat (k : Nat) (l : List α) (a : α) :
    best k (l ++ [a]) = ((best k l).orderedInsert (· ≤ ·) a).take k := by
  unfold best
  rw [insertionSort_concat, take_orderedInsert]

theorem best_sorted (k : Nat) (l : List α) : (best k l).Pairwise (· ≤ ·) :=
  (List.pairwise_insertionSort _ l).sublist (List.take_sublist _ _)

theorem best_length (k : Nat) (l : List α) : (best k l).length = min k l.length := by
  rw [best, List.length_take, List.length_insertionSort]

/-- The first of them is the least entry. -/
theorem best_head (hk : 0 < k) (h : (best k l)[0]? = some a) : a ∈ l ∧ ∀ b ∈ l, a ≤ b := by
  rw [best, List.getElem?_take_of_lt hk] at h
  have hperm := List.perm_insertionSort (· ≤ ·) l
  have hsorted := List.pairwise_insertionSort (· ≤ ·) l
  generalize l.insertionSort (· ≤ ·) = s at h hperm hsorted
  cases s with
  | nil => cases h
  | cons x s =>
    obtain rfl : x = a := Option.some.inj h
    refine ⟨hperm.mem_iff.1 List.mem_cons_self, fun b hb => ?_⟩
    obtain rfl | hb := List.mem_cons.1 (hperm.mem_iff.2 hb)
    · exact le_refl _
    · exact (List.pairwise_cons.1 hsorted).1 b hb

end OsBasics.Lib
