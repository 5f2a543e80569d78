/-
  Service orders: the orders the comparators stand for, and the path of the head.

  Each comparator is 0 exactly when its first argument may come first in a fixed
  total preorder: a rank for the elevator's direction, and a key within a rank. On
  entries whose `dist` and `up` fit their cylinder, sorting by it makes two sweeps
  (`two_phases`). `pathLength` is the way of the head along a service order, which is
  what the loops of the policies add up.
-/
import OsBasics.Disk.Queue
import Mathlib.Algebra.Order.Group.Abs

namespace OsBasics.Disk

open OsBasics.Lib

/-! ## The orders of the comparators -/

/-- 0 for an entry in the elevator's direction. -/
def phase (bit : Bool) (t : Task) : Nat := if decide (t.up ≠ 0) = bit then 0 else 1

/-- The order of `sstf_compare`. -/
def sstfLe : Task → Task → Bool := lexLe (fun _ => 0) Task.dist

/-- The order of `scan_compare`. -/
def scanLe (bit : Bool) : Task → Task → Bool := lexLe (phase bit) Task.dist

/-- The key of `cscan_compare` in a direction. -/
def circleKey (bit : Bool) (t : Task) : Int := if decide (t.up ≠ 0) = bit then t.dist else -t.dist

/-- The order of `cscan_compare`. -/
def cscanLe (bit : Bool) : Task → Task → Bool := lexLe (phase bit) (circleKey bit)

theorem truth_lt_le_iff (a b : Int) : truth (decide (a < b)) ≤ 0 ↔ b ≤ a := by
  unfold truth
  by_cases h : a < b
  · simp [h]
  · rw [decide_eq_false h]
    exact iff_of_true (by decide) (Int.not_lt.1 h)

theorem sstfCompare_le_iff (a b : Task) : sstfCompare a b ≤ 0 ↔ sstfLe a b = true := by
  simp [sstfCompare, sstfLe, lexLe_iff, truth_lt_le_iff]

theorem scanCompare_le_iff (bit : Bool) (a b : Task) :
    scanCompare (truth bit) a b ≤ 0 ↔ scanLe bit a b = true := by
  have h0 : lnot (truth true) = 0 := rfl
  have h1 : lnot (truth false) = 1 := rfl
  unfold scanCompare scanLe
  rw [lexLe_iff]
  by_cases ha : a.up = 0 <;> by_cases hb : b.up = 0 <;> cases bit <;>
    simp [ha, hb, phase, truth_lt_le_iff, h0, h1] <;> decide

theorem cscanCompare_le_iff (bit : Bool) (a b : Task) :
    cscanCompare (truth bit) a b ≤ 0 ↔ cscanLe bit a b = true := by
  have h0 : truth true = 1 := rfl
  have h1 : truth false = 0 := rfl
  have h2 : lnot 0 = 1 := rfl
  unfold cscanCompare cscanLe
  rw [lexLe_iff]
  by_cases ha : a.up = 0 <;> by_cases hb : b.up = 0 <;> cases bit <;>
    simp [ha, hb, phase, circleKey, truth_lt_le_iff, h0, h1, h2]

/-! ## Sweeps -/

/-- `a` may be served before `b` on the way up (`bit`) or down. -/
def along (bit : Bool) (a b : Int) : Prop := if bit then a ≤ b else b ≤ a

/-- The entries with `first` in the order `r₁`, then the others in the order `r₂`. -/
def TwoPhases (first : Task → Prop) (r₁ r₂ : Int → Int → Prop) (ts : List Task) : Prop :=
  ∃ A B, ts = A ++ B ∧ (∀ t ∈ A, first t) ∧ (∀ t ∈ B, ¬ first t) ∧
    (A.map Task.cylinder).Pairwise r₁ ∧ (B.map Task.cylinder).Pairwise r₂

/-- The distance of an entry is that of its cylinder, in its direction. -/
def Aimed (start : Int) (t : Task) : Prop :=
  t.dist = if t.up ≠ 0 then t.cylinder - start else start - t.cylinder

theorem request_aimed (start r : Int) : Aimed start (request start r) := by
  unfold Aimed request truth
  by_cases h : r - start > 0
  · simp only [h, decide_true, if_true]
    rw [if_pos Int.one_ne_zero, abs_of_pos h]
  · simp only [h, decide_false]
    rw [if_neg (by decide), abs_of_nonpos (by omega)]
    omega

theorem requests_aimed (start : Int) (reqs : List Int) :
    ∀ t ∈ requests start reqs, Aimed start t := by
  intro t ht
  obtain ⟨r, -, rfl⟩ := List.mem_map.1 ht
  exact request_aimed start r

theorem mem_bounded {start : Int} {reqs : List Int} {t : Task} : t ∈ bounded start reqs ↔
    t = ⟨lowestLevel, start, 0⟩ ∨ t ∈ requests start reqs ∨
      t = ⟨highestLevel, highestLevel - start, 1⟩ := by
  simp [bounded]

theorem bounded_aimed (start : Int) (reqs : List Int) : ∀ t ∈ bounded start reqs, Aimed start t := by
  intro t ht
  obtain rfl | ht | rfl := mem_bounded.1 ht
  · simp [Aimed, lowestLevel]
  · exact requests_aimed start reqs t ht
  · simp [Aimed]

/-- A list in which what has `p` comes first is cut in two by `p`. -/
theorem filter_append_filter {τ : Type} {p : τ → Bool} {l : List τ}
    (h : l.Pairwise fun a b => p b = true → p a = true) :
    l.filter p ++ l.filter (fun a => !p a) = l := by
  induction l with
  | nil => rfl
  | cons a l ih =>
    obtain ⟨ha, hl⟩ := List.pairwise_cons.1 h
    by_cases hp : p a = true
    · rw [List.filter_cons_of_pos hp, List.filter_cons_of_neg (by simp [hp]), List.cons_append, ih hl]
    · have hnone : l.filter p = [] := List.filter_eq_nil_iff.2 fun b hb hpb => hp (ha b hb hpb)
      rw [List.filter_cons_of_neg hp, List.filter_cons_of_pos (by simp [hp]), hnone, List.nil_append]
      have := ih hl
      rw [hnone, List.nil_append] at this
      rw [this]

/-- Sorting by rank and key makes two sweeps. -/
theorem two_phases {bit : Bool} {key : Task → Int} {ts : List Task} {r₁ r₂ : Int → Int → Prop}
    (hs : ts.Pairwise fun a b => lexLe (phase bit) key a b)
    (h₁ : ∀ a ∈ ts, ∀ b ∈ ts, decide (a.up ≠ 0) = bit → decide (b.up ≠ 0) = bit → key a ≤ key b →
      r₁ a.cylinder b.cylinder)
    (h₂ : ∀ a ∈ ts, ∀ b ∈ ts, decide (a.up ≠ 0) ≠ bit → decide (b.up ≠ 0) ≠ bit → key a ≤ key b →
      r₂ a.cylinder b.cylinder) :
    TwoPhases (fun t => decide (t.up ≠ 0) = bit) r₁ r₂ ts := by
  refine ⟨ts.filter fun t => decide (t.up ≠ 0) == bit, ts.filter fun t => !(decide (t.up ≠ 0) == bit),
    ?_, ?_, ?_, ?_, ?_⟩
  · refine (filter_append_filter (hs.imp fun {a b} hab hb => ?_)).symm
    rw [lexLe_iff, phase, phase] at hab
    simp only [beq_iff_eq] at hb ⊢
    rw [if_pos hb] at hab
    by_contra ha
    rw [if_neg ha] at hab
    omega
  · exact fun t ht => by simpa using (List.mem_filter.1 ht).2
  · exact fun t ht => by simpa using (List.mem_filter.1 ht).2
  · refine List.pairwise_map.2 ((hs.filter _).imp_of_mem fun {a b} ha hb hab => ?_)
    obtain ⟨ha, hpa⟩ := List.mem_filter.1 ha
    obtain ⟨hb, hpb⟩ := List.mem_filter.1 hb
    rw [beq_iff_eq] at hpa hpb
    rw [lexLe_iff, phase, phase, if_pos hpa, if_pos hpb] at hab
    exact h₁ a ha b hb hpa hpb (by omega)
  · refine List.pairwise_map.2 ((hs.filter _).imp_of_mem fun {a b} ha hb hab => ?_)
    obtain ⟨ha, hpa⟩ := List.mem_filter.1 ha
    obtain ⟨hb, hpb⟩ := List.mem_filter.1 hb
    have hpa' : decide (a.up ≠ 0) ≠ bit := by simpa using hpa
    have hpb' : decide (b.up ≠ 0) ≠ bit := by simpa using hpb
    rw [lexLe_iff, phase, phase, if_neg hpa', if_neg hpb'] at hab
    exact h₂ a ha b hb hpa' hpb' (by omega)

theorem along_not (bit : Bool) (a b : Int) : along (!bit) a b ↔ along bit b a := by
  cases bit <;> rfl

/-- In one direction the nearer entry comes first. -/
theorem Aimed.along {start : Int} {a b : Task} {bit : Bool} (ha : Aimed start a)
    (hb : Aimed start b) (hda : decide (a.up ≠ 0) = bit) (hdb : decide (b.up ≠ 0) = bit)
    (h : a.dist ≤ b.dist) : along bit a.cylinder b.cylinder := by
  rw [ha, hb] at h
  cases bit with
  | true =>
    rw [if_pos (of_decide_eq_true hda), if_pos (of_decide_eq_true hdb)] at h
    exact Int.le_of_sub_le_sub_right h
  | false =>
    rw [if_neg (of_decide_eq_false hda), if_neg (of_decide_eq_false hdb)] at h
    exact Int.le_of_sub_le_sub_left h

theorem scan_phases {start : Int} {bit : Bool} {ts : List Task} (ha : ∀ t ∈ ts, Aimed start t)
    (hs : ts.Pairwise fun a b => scanLe bit a b) :
    TwoPhases (fun t => decide (t.up ≠ 0) = bit) (along bit) (along !bit) ts := by
  refine two_phases hs (fun a hma b hmb hda hdb hk => (ha a hma).along (ha b hmb) hda hdb hk)
    (fun a hma b hmb hda hdb hk => ?_)
  exact (ha a hma).along (ha b hmb) (Bool.eq_not_of_ne hda) (Bool.eq_not_of_ne hdb) hk

theorem cscan_phases {start : Int} {bit : Bool} {ts : List Task} (ha : ∀ t ∈ ts, Aimed start t)
    (hs : ts.Pairwise fun a b => cscanLe bit a b) :
    TwoPhases (fun t => decide (t.up ≠ 0) = bit) (along bit) (along bit) ts := by
  refine two_phases hs (fun a hma b hmb hda hdb hk => ?_) (fun a hma b hmb hda hdb hk => ?_)
  · rw [circleKey, circleKey, if_pos hda, if_pos hdb] at hk
    exact (ha a hma).along (ha b hmb) hda hdb hk
  · rw [circleKey, circleKey, if_neg hda, if_neg hdb] at hk
    rw [← along_not]
    exact (ha b hmb).along (ha a hma) (Bool.eq_not_of_ne hdb) (Bool.eq_not_of_ne hda)
      (Int.neg_le_neg_iff.1 hk)

/-! ## The path of the head -/

/-- The length of the path from `a` over `cs`. -/
def pathLength : Int → List Int → Int
  | _, [] => 0
  | a, c :: cs => |a - c| + pathLength c cs

theorem pathLength_nil (a : Int) : pathLength a [] = 0 := rfl

theorem pathLength_cons (a c : Int) (cs : List Int) :
    pathLength a (c :: cs) = |a - c| + pathLength c cs := rfl

theorem pathLength_append (a : Int) (l r : List Int) :
    pathLength a (l ++ r) = pathLength a l + pathLength (l.getLastD a) r := by
  induction l generalizing a with
  | nil => rw [List.nil_append, pathLength_nil, Int.zero_add]; rfl
  | cons c l ih => rw [List.cons_append, pathLength_cons, pathLength_cons, ih, Int.add_assoc,
      List.getLastD_cons]

/-- A sweep up that ends at `b`. -/
theorem pathLength_up {a b : Int} {l : List Int} (hs : l.Pairwise (· ≤ ·))
    (hl : ∀ x ∈ l, a ≤ x ∧ x ≤ b) (hb : b ∈ l) : pathLength a l = b - a ∧ l.getLastD a = b := by
  induction l generalizing a with
  | nil => simp at hb
  | cons x l ih =>
    obtain ⟨hx, hs⟩ := List.pairwise_cons.1 hs
    have hax := hl x List.mem_cons_self
    rw [pathLength_cons, abs_of_nonpos (by omega), List.getLastD_cons]
    by_cases hbl : b ∈ l
    · obtain ⟨hlen, hlast⟩ := ih hs (fun y hy => ⟨hx y hy, (hl y (List.mem_cons_of_mem x hy)).2⟩) hbl
      exact ⟨by omega, hlast⟩
    · obtain rfl : b = x := (List.mem_cons.1 hb).resolve_right hbl
      have hnil : l = [] := by
        refine List.eq_nil_iff_forall_not_mem.2 fun y hy => hbl ?_
        have hy' := (hl y (List.mem_cons_of_mem b hy)).2
        rwa [Int.le_antisymm (hx y hy) hy']
      rw [hnil, pathLength_nil]
      exact ⟨by omega, rfl⟩

/-- The path mirrored at 0. -/
theorem pathLength_neg (a : Int) (l : List Int) : pathLength (-a) (l.map (- ·)) = pathLength a l := by
  induction l generalizing a with
  | nil => rfl
  | cons c l ih => rw [List.map_cons, pathLength_cons, pathLength_cons, ih, neg_sub_neg, abs_sub_comm]

/-- A sweep down that ends at `b`. -/
theorem pathLength_down {a b : Int} {l : List Int} (hs : l.Pairwise fun x y => y ≤ x)
    (hl : ∀ x ∈ l, b ≤ x ∧ x ≤ a) (hb : b ∈ l) : pathLength a l = a - b ∧ l.getLastD a = b := by
  have hmem : ∀ x ∈ l.map (- ·), -a ≤ x ∧ x ≤ -b := by
    intro x hx
    obtain ⟨y, hy, rfl⟩ := List.mem_map.1 hx
    have := hl y hy
    omega
  obtain ⟨hlen, hlast⟩ := pathLength_up (a := -a) (b := -b)
    (List.pairwise_map.2 (hs.imp fun h => Int.neg_le_neg h)) hmem (List.mem_map_of_mem hb)
  rw [pathLength_neg] at hlen
  refine ⟨by omega, ?_⟩
  have hmap : (l.map (- ·)).getLastD (-a) = -(l.getLastD a) := by
    rw [List.getLastD_eq_getLast?, List.getLastD_eq_getLast?, List.getLast?_map]
    cases l.getLast? <;> rfl
  rw [hmap] at hlast
  exact Int.neg_inj.1 hlast

/-- Stopping at fewer cylinders makes no path longer. -/
theorem pathLength_sublist {l l' : List Int} (h : l'.Sublist l) (a : Int) :
    pathLength a l' ≤ pathLength a l := by
  have hshift : ∀ a x l, pathLength a l ≤ |a - x| + pathLength x l := by
    intro a x l
    cases l with
    | nil => simp [pathLength]
    | cons c l =>
      rw [pathLength_cons, pathLength_cons]
      have := abs_sub_le a x c
      omega
  induction h generalizing a with
  | slnil => exact Int.le_refl _
  | cons x h ih =>
    rw [pathLength_cons]
    have h₁ := hshift a x
    exact (h₁ _).trans (Int.add_le_add_left (ih x) _)
  | cons_cons x h ih =>
    rw [pathLength_cons, pathLength_cons]
    exact Int.add_le_add_left (ih x) _

/-! ## What the loops add up -/

/-- The distance a policy reports for the order `cs`. -/
def reported (step : Seek → Int → Seek) (start : Int) (cs : List Int) : Int :=
  (cs.foldl step (Seek.init start)).totalDist

theorem reported_move (start : Int) (cs : List Int) :
    reported Seek.move start cs = pathLength start cs := by
  have hfold : ∀ st : Seek,
      (cs.foldl Seek.move st).totalDist = st.totalDist + pathLength st.prevDist cs := by
    induction cs with
    | nil => exact fun st => (Int.add_zero _).symm
    | cons c cs ih =>
      intro st
      rw [List.foldl_cons, ih, pathLength_cons, ← Int.add_assoc]
      rfl
  rw [reported, hfold]
  exact Int.zero_add _

/-- A round of the loop with a flag, where the cylinder 0 turns. -/
theorem circle_eq {turn : Int → Bool} (h0 : turn 0 = true) {st : Seek}
    (hst : st.directionChange = 0) (c : Int) :
    Seek.circle turn st c =
      ⟨st.totalDist + |st.prevDist - c| + (if turn c ∧ c ≠ 0 then |c + c| else 0), c, 0⟩ := by
  by_cases hc : c = 0
  · subst hc
    simp [Seek.circle, hst, h0]
  · by_cases ht : turn c = true
    · simp [Seek.circle, hst, hc, ht, Seek.move]
    · simp [Seek.circle, hst, hc, ht, Seek.move]

/-- The loop with a flag adds a turn's cylinder twice, unless it is 0. -/
theorem reported_circle {turn : Int → Bool} (h0 : turn 0 = true) (start : Int) (cs : List Int) :
    reported (Seek.circle turn) start cs = pathLength start cs +
      ((cs.filter fun c => turn c ∧ c ≠ 0).map fun c => |c + c|).sum := by
  have hfold : ∀ st : Seek, st.directionChange = 0 →
      (cs.foldl (Seek.circle turn) st).totalDist = st.totalDist + (pathLength st.prevDist cs +
        ((cs.filter fun c => turn c ∧ c ≠ 0).map fun c => |c + c|).sum) := by
    induction cs with
    | nil => exact fun st _ => (Int.add_zero _).symm
    | cons c cs ih =>
      intro st hst
      rw [List.foldl_cons, circle_eq h0 hst, ih _ rfl, pathLength_cons, List.filter_cons]
      dsimp only
      by_cases hc : turn c = true ∧ c ≠ 0
      · rw [if_pos hc, if_pos (decide_eq_true hc), List.map_cons, List.sum_cons]
        omega
      · rw [if_neg hc, if_neg (by rw [decide_eq_true_eq]; exact hc)]
        omega
  rw [reported, hfold _ rfl]
  exact Int.zero_add _

end OsBasics.Disk
