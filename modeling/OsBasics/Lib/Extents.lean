/-
  Closed intervals, and families of them.

  Two intervals are `Apart` when they share no point; one is `Around` another when it
  reaches past both its ends. Neither end of an interval lies in another one exactly
  when one of these holds (`ends_outside_iff`), so a family that grows by a look at the
  two ends is `Nested`, with the last one first. Intervals of naturals that are pairwise apart
  have together no more points than the stretch they lie in (`sum_size_le`).
-/
import Mathlib.Algebra.BigOperators.Group.List.Basic
import Mathlib.Algebra.GroupWithZero.Nat
import Mathlib.Order.Interval.Finset.Nat

namespace OsBasics.Lib

/-- The interval from `lo` to `hi`, both included. -/
structure Extent (α : Type) where
  lo : α
  hi : α
  deriving DecidableEq, Repr

namespace Extent

section Order

variable {α : Type} [LinearOrder α] {r s : Extent α} {x : α}

instance : Membership α (Extent α) := ⟨fun r x => r.lo ≤ x ∧ x ≤ r.hi⟩

theorem mem_iff : x ∈ r ↔ r.lo ≤ x ∧ x ≤ r.hi := Iff.rfl

instance : Decidable (x ∈ r) := decidable_of_iff _ mem_iff.symm

/-- No point is in both. -/
def Apart (r s : Extent α) : Prop := r.hi < s.lo ∨ s.hi < r.lo

/-- `r` reaches past both ends of `s`. -/
def Around (r s : Extent α) : Prop := r.lo < s.lo ∧ s.hi < r.hi

instance : Decidable (r.Apart s) := inferInstanceAs (Decidable (_ ∨ _))

instance : Decidable (r.Around s) := inferInstanceAs (Decidable (_ ∧ _))

theorem Apart.symm (h : r.Apart s) : s.Apart r := Or.symm h

instance : Std.Symm (@Apart α _) := ⟨fun _ _ h => h.symm⟩

theorem Apart.not_mem (h : r.Apart s) (hx : x ∈ r) : x ∉ s := by
  rintro ⟨h1, h2⟩
  rcases h with h | h
  · exact absurd (hx.2.trans_lt h) h1.not_gt
  · exact absurd (h2.trans_lt h) hx.1.not_gt

/-- What a look at the two ends of `r` tells. -/
theorem ends_outside_iff (hr : r.lo ≤ r.hi) :
    r.lo ∉ s ∧ r.hi ∉ s ↔ r.Apart s ∨ r.Around s := by
  simp only [mem_iff, not_and_or, not_le]
  constructor
  · rintro ⟨hlo | hlo, hhi | hhi⟩
    · exact .inl (.inl hhi)
    · exact .inr ⟨hlo, hhi⟩
    · exact .inl (.inl hhi)
    · exact .inl (.inr hlo)
  · rintro ((h | h) | ⟨hlo, hhi⟩)
    · exact ⟨.inl (hr.trans_lt h), .inl h⟩
    · exact ⟨.inr h, .inr (h.trans_le hr)⟩
    · exact ⟨.inl hlo, .inr hhi⟩

/-- Every interval of the list is apart from those behind it or around them. -/
def Nested (rs : List (Extent α)) : Prop := rs.Pairwise fun r s => r.Apart s ∨ r.Around s

instance (rs : List (Extent α)) : Decidable (Nested rs) :=
  inferInstanceAs (Decidable (rs.Pairwise _))

/-- Two intervals of a nested list. -/
theorem Nested.cases {rs : List (Extent α)} (h : Nested rs) (hr : r ∈ rs) (hs : s ∈ rs)
    (hne : r ≠ s) : r.Apart s ∨ r.Around s ∨ s.Around r := by
  have hsymm : Std.Symm fun r s : Extent α => r.Apart s ∨ r.Around s ∨ s.Around r :=
    ⟨fun _ _ h => h.imp Apart.symm Or.symm⟩
  have hpair : rs.Pairwise fun r s => r.Apart s ∨ r.Around s ∨ s.Around r :=
    h.imp fun h => h.imp_right .inl
  exact hpair.forall hr hs hne

end Order

/-! ## Sizes -/

/-- How many points there are. -/
def size (r : Extent Nat) : Nat := r.hi + 1 - r.lo

theorem card_Icc (r : Extent Nat) : (Finset.Icc r.lo r.hi).card = r.size := Nat.card_Icc _ _

/-- The points of a family that is pairwise apart. -/
theorem sum_size {rs : List (Extent Nat)} (h : rs.Pairwise Apart) :
    ∃ points : Finset Nat, points.card = (rs.map size).sum ∧ ∀ x, x ∈ points ↔ ∃ r ∈ rs, x ∈ r := by
  induction rs with
  | nil => exact ⟨∅, rfl, by simp⟩
  | cons r rs ih =>
    obtain ⟨hr, hrs⟩ := List.pairwise_cons.1 h
    obtain ⟨points, hcard, hmem⟩ := ih hrs
    refine ⟨Finset.Icc r.lo r.hi ∪ points, ?_, fun x => ?_⟩
    · rw [Finset.card_union_of_disjoint, card_Icc, hcard, List.map_cons, List.sum_cons]
      refine Finset.disjoint_left.2 fun x hx hp => ?_
      obtain ⟨s, hs, hxs⟩ := (hmem x).1 hp
      exact (hr s hs).not_mem (Finset.mem_Icc.1 hx) hxs
    · rw [Finset.mem_union, Finset.mem_Icc, hmem]
      simp [mem_iff]

/-- Together they fit into what they lie in. -/
theorem sum_size_le {rs : List (Extent Nat)} {a b : Nat} (h : rs.Pairwise Apart)
    (hin : ∀ r ∈ rs, a ≤ r.lo ∧ r.hi < b) : (rs.map size).sum ≤ b - a := by
  obtain ⟨points, hcard, hmem⟩ := sum_size h
  rw [← hcard, ← Nat.card_Ico]
  refine Finset.card_le_card fun x hx => ?_
  obtain ⟨r, hr, hxr⟩ := (hmem x).1 hx
  exact Finset.mem_Ico.2 ⟨(hin r hr).1.trans hxr.1, hxr.2.trans_lt (hin r hr).2⟩

end Extent

end OsBasics.Lib
