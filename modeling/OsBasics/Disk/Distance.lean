/-
  What the policies report, and how far it is from the best step.

  `scan_distance`: SCAN on the disk's cylinders reports the way to one end and from
  there to the other. `cscan_distance`: C-SCAN reports 400 too much for every entry
  at cylinder 200, so never the length of its path. `sstf_greedy_iff`: SSTF sorts by
  the distance from the start, which is the nearest request at every step only while
  the sides of the start are far enough apart (`SidesApart`).
-/
import OsBasics.Disk.Elevator

namespace OsBasics.Disk

open OsBasics.Lib OsBasics.Lists

variable {s : Sim} {reqs : List Int} {src q : List Nat} {m : ListMem Task}

/-! ## SCAN -/

theorem cylinders_eq_map (m : ListMem Task) (q : List Nat) :
    cylinders m q = (q.map m.data).map Task.cylinder := by
  rw [List.map_map]
  rfl

theorem bounded_range {start : Int} (hr : ∀ r ∈ reqs, 0 ≤ r ∧ r ≤ 200) :
    ∀ t ∈ bounded start reqs, 0 ≤ t.cylinder ∧ t.cylinder ≤ 200 := by
  intro t ht
  obtain rfl | ht | rfl := mem_bounded.1 ht
  · exact (by decide : 0 ≤ lowestLevel ∧ lowestLevel ≤ 200)
  · obtain ⟨r, hmem, rfl⟩ := List.mem_map.1 ht
    exact hr r hmem
  · exact (by decide : 0 ≤ highestLevel ∧ highestLevel ≤ 200)

/-- The way to one end and from there to the other. -/
theorem pathLength_sweeps {start : Int} {bit : Bool} {ts : List Task}
    (hs : 0 ≤ start ∧ start ≤ 200) (hr : ∀ r ∈ reqs, 0 ≤ r ∧ r ≤ 200)
    (hperm : ts.Perm (bounded start reqs))
    (hphases : TwoPhases (fun t => decide (t.up ≠ 0) = bit) (along bit) (along !bit) ts) :
    pathLength start (ts.map Task.cylinder) = if bit then 400 - start else start + 200 := by
  obtain ⟨A, B, rfl, hfst, hsnd, hA, hB⟩ := hphases
  have hmem : ∀ t ∈ A ++ B, t ∈ bounded start reqs := fun t ht => hperm.subset ht
  have hlow : (⟨lowestLevel, start, 0⟩ : Task) ∈ A ++ B :=
    hperm.symm.subset (mem_bounded.2 (.inl rfl))
  have hhigh : (⟨highestLevel, highestLevel - start, 1⟩ : Task) ∈ A ++ B :=
    hperm.symm.subset (mem_bounded.2 (.inr (.inr rfl)))
  have hbounds : ∀ t ∈ A ++ B, 0 ≤ t.cylinder ∧ t.cylinder ≤ 200 :=
    fun t ht => bounded_range hr t (hmem t ht)
  rw [List.map_append, pathLength_append]
  cases bit with
  | true =>
    have hhighA : (⟨highestLevel, highestLevel - start, 1⟩ : Task) ∈ A :=
      (List.mem_append.1 hhigh).resolve_right fun h => hsnd _ h (decide_eq_true Int.one_ne_zero)
    have hlowB : (⟨lowestLevel, start, 0⟩ : Task) ∈ B :=
      (List.mem_append.1 hlow).resolve_left fun h => of_decide_eq_true (hfst _ h) rfl
    have hup : ∀ x ∈ A.map Task.cylinder, start ≤ x ∧ x ≤ 200 := by
      intro x hx
      obtain ⟨t, ht, rfl⟩ := List.mem_map.1 hx
      have htm := List.mem_append_left B ht
      exact ⟨(bounded_sides hs (hmem t htm)).1 (of_decide_eq_true (hfst t ht)), (hbounds t htm).2⟩
    have hdown : ∀ x ∈ B.map Task.cylinder, 0 ≤ x ∧ x ≤ 200 := by
      intro x hx
      obtain ⟨t, ht, rfl⟩ := List.mem_map.1 hx
      exact hbounds t (List.mem_append_right A ht)
    obtain ⟨hlenA, hlast⟩ := pathLength_up (b := 200) hA hup (List.mem_map_of_mem hhighA)
    obtain ⟨hlenB, -⟩ := pathLength_down (a := 200) (b := 0) hB hdown (List.mem_map_of_mem hlowB)
    rw [hlast, hlenA, hlenB, if_pos rfl]
    omega
  | false =>
    have hlowA : (⟨lowestLevel, start, 0⟩ : Task) ∈ A :=
      (List.mem_append.1 hlow).resolve_right fun h => hsnd _ h (decide_eq_false (not_not.2 rfl))
    have hhighB : (⟨highestLevel, highestLevel - start, 1⟩ : Task) ∈ B :=
      (List.mem_append.1 hhigh).resolve_left fun h => of_decide_eq_false (hfst _ h) Int.one_ne_zero
    have hdown : ∀ x ∈ A.map Task.cylinder, 0 ≤ x ∧ x ≤ start := by
      intro x hx
      obtain ⟨t, ht, rfl⟩ := List.mem_map.1 hx
      have htm := List.mem_append_left B ht
      exact ⟨(hbounds t htm).1, (bounded_sides hs (hmem t htm)).2 (of_decide_eq_false (hfst t ht))⟩
    have hup : ∀ x ∈ B.map Task.cylinder, 0 ≤ x ∧ x ≤ 200 := by
      intro x hx
      obtain ⟨t, ht, rfl⟩ := List.mem_map.1 hx
      exact hbounds t (List.mem_append_right A ht)
    obtain ⟨hlenA, hlast⟩ := pathLength_down (b := 0) hA hdown (List.mem_map_of_mem hlowA)
    obtain ⟨hlenB, -⟩ := pathLength_up (a := 0) (b := 200) hB hup (List.mem_map_of_mem hhighB)
    rw [hlast, hlenA, hlenB, if_neg (by decide)]
    omega

/-- SCAN reports the way over the whole disk, whatever the requests are. -/
theorem scan_distance (h : Loaded s reqs src) (hs : 0 ≤ s.start ∧ s.start ≤ 200)
    (hr : ∀ r ∈ reqs, 0 ≤ r ∧ r ≤ 200) (bit : Bool) :
    ∃ s' q, scanTick bit runqueue s = .ok s' ∧ IsRing s'.mem 1 q ∧
      s'.fp = s.fp ++ row "SCAN" (if bit then 400 - s.start else s.start + 200)
        (cylinders s'.mem q) := by
  obtain ⟨s', q, hrun, hS⟩ := scan_served h bit
  have hstable := hS.order.tasks_stable (totalPreorder_lexLe _ _)
  have hphases := scan_phases
    (hS.order.aimed (totalPreorder_lexLe _ _) (bounded_aimed s.start reqs)) hstable.sorted
  refine ⟨s', q, hrun, hS.order.queue, ?_⟩
  rw [hS.fp, reported_move]
  congr 2
  rw [cylinders_eq_map]
  exact pathLength_sweeps hs hr hstable.perm hphases

theorem scan_distance_two :
    ∃ s' q, scanTick true runqueue (withRequests 50 [40, 61]) = .ok s' ∧ IsRing s'.mem 1 q ∧
      s'.fp = "" ++ row "SCAN" (if true then 400 - 50 else 50 + 200) (cylinders s'.mem q) :=
  scan_distance (withRequests_loaded 50 [40, 61]) (by decide) (by decide) true

/-! ## C-SCAN -/

/-- C-SCAN counts each entry at 200 twice more, as the way from -200 to 200. -/
theorem reported_cscan (start : Int) (cs : List Int) :
    reported (Seek.circle fun c => c = lowestLevel ∨ c = highestLevel) start cs =
      pathLength start cs + 400 * cs.count highestLevel := by
  rw [reported_circle (by decide)]
  congr 1
  induction cs with
  | nil => rfl
  | cons c cs ih =>
    rw [List.filter_cons, List.count_cons]
    by_cases hc : c = highestLevel
    · subst hc
      rw [if_pos (by decide), List.map_cons, List.sum_cons, ih, if_pos (by decide),
        show |highestLevel + highestLevel| = 400 by decide]
      omega
    · have hskip : ¬ ((c = lowestLevel ∨ c = highestLevel) ∧ c ≠ 0) :=
        fun ⟨hor, hne⟩ => hor.elim hne hc
      rw [if_neg (by simpa using hskip), ih, if_neg (by simpa using hc), Nat.add_zero]

theorem cscan_reported (h : Loaded s reqs src) (bit : Bool) :
    ∃ s' q total, cscanTick bit runqueue s = .ok s' ∧ IsRing s'.mem 1 q ∧
      s'.fp = s.fp ++ row "CSCAN" total (cylinders s'.mem q) ∧
      total = pathLength s.start (cylinders s'.mem q) +
        400 * (cylinders s'.mem q).count highestLevel ∧
      highestLevel ∈ cylinders s'.mem q := by
  obtain ⟨s', q, hrun, hS⟩ := cscan_served h bit
  refine ⟨s', q, _, hrun, hS.order.queue, hS.fp, reported_cscan _ _, ?_⟩
  have hstable := hS.order.tasks_stable (totalPreorder_lexLe _ _)
  rw [cylinders_eq_map]
  exact List.mem_map_of_mem (hstable.perm.symm.subset (mem_bounded.2 (.inr (.inr rfl))))

/-- C-SCAN never reports the length of its path. -/
theorem cscan_distance (h : Loaded s reqs src) (bit : Bool) :
    ∃ s' q total, cscanTick bit runqueue s = .ok s' ∧ IsRing s'.mem 1 q ∧
      s'.fp = s.fp ++ row "CSCAN" total (cylinders s'.mem q) ∧
      total ≠ pathLength s.start (cylinders s'.mem q) := by
  obtain ⟨s', q, total, hrun, hring, hfp, htotal, hmem⟩ := cscan_reported h bit
  refine ⟨s', q, total, hrun, hring, hfp, ?_⟩
  have hpos := List.count_pos_iff.2 hmem
  omega

theorem cscan_distance_two :
    ∃ s' q total, cscanTick true runqueue (withRequests 50 [40, 61]) = .ok s' ∧ IsRing s'.mem 1 q ∧
      s'.fp = "" ++ row "CSCAN" total (cylinders s'.mem q) ∧
      total ≠ pathLength 50 (cylinders s'.mem q) :=
  cscan_distance (withRequests_loaded 50 [40, 61]) true

/-- A path of 390 is reported as 790. -/
theorem cscan_overcounts :
    (cscanTick true runqueue (withRequests 50 [40, 61])).map Sim.fp =
        .ok "CSCAN,790,61,200,0,40\n" ∧
      pathLength 50 [61, 200, 0, 40] = 390 :=
  ⟨by rfl, by decide⟩

/-! ## SSTF -/

/-- From `a` on, every entry is nearest among those left. -/
def Greedy : Int → List Int → Prop
  | _, [] => True
  | a, c :: cs => (∀ d ∈ cs, |c - a| ≤ |d - a|) ∧ Greedy c cs

/-- `a` and `b` lie on different sides of 0. -/
def Opposite (a b : Int) : Prop := a < 0 ∧ 0 < b ∨ b < 0 ∧ 0 < a

/-- At each change of sides from `a` to `b`, what comes later on the side of `a` is far enough. -/
def Changes : List Int → Prop
  | a :: b :: l =>
    (Opposite a b → ∀ c ∈ l, Opposite c b → 2 * |a| + |b| ≤ |c|) ∧ Changes (b :: l)
  | _ => True

theorem greedy_sub (start a : Int) (cs : List Int) :
    Greedy (a - start) (cs.map (· - start)) ↔ Greedy a cs := by
  induction cs generalizing a with
  | nil => exact Iff.rfl
  | cons c cs ih =>
    refine and_congr ?_ (ih c)
    rw [List.forall_mem_map]
    refine forall₂_congr fun d _ => ?_
    rw [sub_sub_sub_cancel_right, sub_sub_sub_cancel_right]

/-- With distances from 0 that grow, one step is the best if no other comes nearer. -/
theorem nearest_iff {a b : Int} {l : List Int} (hab : |a| ≤ |b|) (hl : ∀ c ∈ l, |b| ≤ |c|) :
    (∀ c ∈ l, |b - a| ≤ |c - a|) ↔ (Opposite a b → ∀ c ∈ l, Opposite c b → 2 * |a| + |b| ≤ |c|) := by
  simp only [Int.abs_eq_natAbs] at *
  constructor
  · intro h hopp c hc hcb
    have hbest := h c hc
    have hbc := hl c hc
    unfold Opposite at hopp hcb
    omega
  · intro h c hc
    have hbc := hl c hc
    by_cases hopp : Opposite a b
    · by_cases hcb : Opposite c b
      · have hfar := h hopp c hc hcb
        unfold Opposite at hopp hcb
        omega
      · unfold Opposite at hopp hcb
        omega
    · unfold Opposite at hopp
      omega

/-- Entries in order of their distance from 0 are served greedily when the changes of sides are
    far enough apart. -/
theorem greedy_iff_changes {xs : List Int} (hs : xs.Pairwise fun a b => |a| ≤ |b|) :
    Greedy 0 xs ↔ Changes xs := by
  have hstep : ∀ (l : List Int) (a : Int), (a :: l).Pairwise (fun a b => |a| ≤ |b|) →
      (Greedy a l ↔ Changes (a :: l)) := by
    intro l
    induction l with
    | nil => exact fun _ _ => Iff.rfl
    | cons b l ih =>
      intro a hs
      obtain ⟨ha, hs⟩ := List.pairwise_cons.1 hs
      exact and_congr (nearest_iff (ha b List.mem_cons_self) (List.pairwise_cons.1 hs).1) (ih b hs)
  cases xs with
  | nil => exact Iff.rfl
  | cons a l =>
    rw [← hstep l a hs]
    refine and_iff_right fun d hd => ?_
    rw [sub_zero, sub_zero]
    exact (List.pairwise_cons.1 hs).1 d hd

/-- `Changes` over a list of indices. -/
theorem changes_map_iff (f : Nat → Int) (l : List Nat) :
    Changes (l.map f) ↔ ∀ A i j B, l = A ++ i :: j :: B → Opposite (f i) (f j) →
      ∀ k ∈ B, Opposite (f k) (f j) → 2 * |f i| + |f j| ≤ |f k| := by
  induction l with
  | nil => exact iff_of_true trivial fun A i j B h => absurd h (by simp)
  | cons a l ih =>
    cases l with
    | nil =>
      refine iff_of_true trivial fun A i j B h => absurd (congrArg List.length h) ?_
      simp only [List.length_append, List.length_cons, List.length_nil]
      omega
    | cons b l =>
      rw [List.map_cons, List.map_cons, Changes, ← List.map_cons, ih, List.forall_mem_map]
      constructor
      · rintro ⟨hab, hrest⟩ A i j B h
        cases A with
        | nil =>
          rw [List.nil_append, List.cons.injEq, List.cons.injEq] at h
          obtain ⟨rfl, rfl, rfl⟩ := h
          exact hab
        | cons x A => exact hrest A i j B (List.cons.inj h).2
      · exact fun h => ⟨h [] a b l rfl, fun A i j B hl => h (a :: A) i j B (by rw [hl]; rfl)⟩

/-- The cylinder of a request, from the start. -/
def offset (start : Int) (reqs : List Int) (i : Nat) : Int := reqs.getD i 0 - start

/-- Request `i` is nearer to the start than request `j`, or as near and earlier in the input. -/
def Nearer (start : Int) (reqs : List Int) (i j : Nat) : Prop :=
  |offset start reqs i| < |offset start reqs j| ∨
    |offset start reqs i| = |offset start reqs j| ∧ i < j

/-- When `j` comes next after `i` in the order of distance and lies on the other side of the start,
    what is farther on the side of `i` is far enough to leave the head no better choice. -/
def SidesApart (start : Int) (reqs : List Int) : Prop :=
  ∀ i < reqs.length, ∀ j < reqs.length, Nearer start reqs i j →
    (∀ l < reqs.length, Nearer start reqs i l → ¬ Nearer start reqs l j) →
    Opposite (offset start reqs i) (offset start reqs j) →
    ∀ k < reqs.length, Nearer start reqs j k → Opposite (offset start reqs k) (offset start reqs j) →
      2 * |offset start reqs i| + |offset start reqs j| ≤ |offset start reqs k|

theorem Nearer.asymm {start : Int} {i j : Nat} (h : Nearer start reqs i j) :
    ¬ Nearer start reqs j i := by
  unfold Nearer at *
  omega

/-- In a list in the order of a relation, what is behind `x` comes later. -/
theorem mem_behind {τ : Type} {r : τ → τ → Prop} (hasymm : ∀ a b, r a b → ¬ r b a) {A B : List τ}
    {x y : τ} (hl : (A ++ x :: B).Pairwise r) (hy : y ∈ A ++ x :: B) (hxy : r x y) : y ∈ B := by
  obtain ⟨-, hxB, hAB⟩ := List.pairwise_append.1 hl
  obtain hy | hy := List.mem_append.1 hy
  · exact absurd (hAB y hy x List.mem_cons_self) (hasymm _ _ hxy)
  · obtain rfl | hy := List.mem_cons.1 hy
    · exact absurd hxy (hasymm _ _ hxy)
    · exact hy

theorem changes_iff_sidesApart {start : Int} {σ : List Nat}
    (hσ : σ.Pairwise (Nearer start reqs)) (hperm : σ.Perm (List.range reqs.length)) :
    Changes (σ.map (offset start reqs)) ↔ SidesApart start reqs := by
  have hmem : ∀ i, i ∈ σ ↔ i < reqs.length := fun i => hperm.mem_iff.trans List.mem_range
  have hasymm : ∀ a b, Nearer start reqs a b → ¬ Nearer start reqs b a := fun _ _ h => h.asymm
  rw [changes_map_iff]
  constructor
  · intro h i hi j hj hij hnext hopp k hk hjk hopp'
    obtain ⟨A, R, rfl⟩ := List.append_of_mem ((hmem i).2 hi)
    have hjR := mem_behind hasymm hσ ((hmem j).2 hj) hij
    -- `j` is the first behind `i`
    obtain ⟨j', B, rfl⟩ := List.exists_cons_of_ne_nil (List.ne_nil_of_mem hjR)
    have hR := (List.pairwise_append.1 hσ).2.1
    obtain hjj' | hjB := List.mem_cons.1 hjR
    · subst hjj'
      have hcut : A ++ i :: j :: B = (A ++ [i]) ++ j :: B := List.append_cons A i (j :: B)
      exact h A i j B rfl hopp k (mem_behind hasymm (hcut ▸ hσ) (hcut ▸ (hmem k).2 hk) hjk) hopp'
    · have hj'j := (List.pairwise_cons.1 (List.pairwise_cons.1 hR).2).1 j hjB
      exact absurd hj'j (hnext j' ((hmem j').1 (by simp)) ((List.pairwise_cons.1 hR).1 j' (by simp)))
  · intro h A i j B hl hopp k hk hopp'
    subst hl
    obtain ⟨-, hR, hA⟩ := List.pairwise_append.1 hσ
    obtain ⟨hiR, hjR⟩ := List.pairwise_cons.1 hR
    refine h i ((hmem i).1 (by simp)) j ((hmem j).1 (by simp)) (hiR j (by simp)) ?_ hopp k
      ((hmem k).1 (by simp [hk])) ((List.pairwise_cons.1 hjR).1 k hk) hopp'
    intro l hl hil hlj
    have hlR := mem_behind hasymm hσ ((hmem l).2 hl) hil
    obtain rfl | hlB := List.mem_cons.1 hlR
    · exact hlj.asymm hlj
    · exact hlj.asymm ((List.pairwise_cons.1 hjR).1 l hlB)

/-- SSTF serves the requests in the order of their distance from the start, as `read_config`
    computed it. -/
theorem sstf_order (h : Loaded s reqs src) (hne : reqs ≠ []) :
    ∃ s', ∃ σ : List Nat, sstfTick runqueue s = .ok s' ∧ IsRing s'.mem 1 (σ.map (s.mem.fresh + ·)) ∧
      σ.Perm (List.range reqs.length) ∧ σ.Pairwise (Nearer s.start reqs) ∧
      (∀ i < reqs.length, cylinderAt s'.mem (s.mem.fresh + i) = reqs.getD i 0) ∧
      s'.fp = s.fp ++ row "SSTF" (pathLength s.start (σ.map fun i => reqs.getD i 0))
        (σ.map fun i => reqs.getD i 0) := by
  obtain ⟨s', q, ts, hrun, hS, hcyl, hdist⟩ := sstf_served h hne
  have hlen : ts.length = reqs.length := by rw [← hcyl, List.length_map]
  have htasks := hS.order.tasks
  have hstable := hS.order.stable
  rw [hlen] at htasks hstable
  -- what the new entries hold
  have hdata : ∀ i < reqs.length, cylinderAt s'.mem (s.mem.fresh + i) = reqs.getD i 0 ∧
      (s'.mem.data (s.mem.fresh + i)).dist = |offset s.start reqs i| := by
    intro i hi
    have hi' : i < ts.length := by omega
    have htask : s'.mem.data (s.mem.fresh + i) = ts[i] := by
      have := List.getElem_of_eq htasks (i := i) (by simpa using hi)
      simpa using this
    have hc := List.getElem_of_eq hcyl (i := i) (by simpa using hi')
    have hd := List.getElem_of_eq hdist (i := i) (by simpa using hi')
    rw [List.getElem_map] at hc hd
    rw [List.getElem_map] at hd
    rw [cylinderAt, htask, hc, hd, offset, List.getD_eq_getElem?_getD, List.getElem?_eq_getElem hi]
    exact ⟨rfl, rfl⟩
  have hmem : ∀ x ∈ q, ∃ i < reqs.length, x = s.mem.fresh + i := by
    intro x hx
    have hx' := List.mem_range'_1.1 (hstable.perm.subset hx)
    exact ⟨x - s.mem.fresh, by omega, by omega⟩
  obtain ⟨σ, rfl⟩ : ∃ σ : List Nat, q = σ.map (s.mem.fresh + ·) := by
    refine ⟨q.map (· - s.mem.fresh), ?_⟩
    rw [List.map_map]
    refine (List.map_id q).symm.trans (List.map_congr_left fun x hx => ?_)
    obtain ⟨i, -, rfl⟩ := hmem x hx
    simp
  have hlt : ∀ i ∈ σ, i < reqs.length := by
    intro i hi
    obtain ⟨j, hj, hij⟩ := hmem _ (List.mem_map_of_mem hi)
    omega
  have hread : cylinders s'.mem (σ.map (s.mem.fresh + ·)) = σ.map fun i => reqs.getD i 0 := by
    rw [cylinders, List.map_map]
    exact List.map_congr_left fun i hi => (hdata i (hlt i hi)).1
  refine ⟨s', σ, hrun, hS.order.queue, ?_, ?_, fun i hi => (hdata i hi).1, ?_⟩
  · have hperm := hstable.perm
    rw [List.range'_eq_map_range] at hperm
    exact (List.map_perm_map_iff fun a b => Nat.add_left_cancel).1 hperm
  · have hties := hstable.pairwise_ties List.pairwise_lt_range' fun a => by simp [sstfLe, lexLe_iff]
    rw [List.pairwise_map] at hties
    refine hties.imp_of_mem fun {i j} hi hj hij => ?_
    have hdi := (hdata i (hlt i hi)).2
    have hdj := (hdata j (hlt j hj)).2
    simp only [sstfLe, lexLe_iff, hdi, hdj, Nat.lt_irrefl, false_or, true_and] at hij
    obtain ⟨hle, hties⟩ := hij
    obtain hlt | heq := lt_or_eq_of_le hle
    · exact .inl hlt
    · have := hties heq.ge
      exact .inr ⟨heq, by omega⟩
  · rw [hS.fp, reported_move, hread]

/-- SSTF serves a nearest request at every step exactly when the sides are far enough apart. -/
theorem sstf_greedy_iff (h : Loaded s reqs src) (hne : reqs ≠ []) :
    ∃ s', ∃ σ : List Nat, sstfTick runqueue s = .ok s' ∧
      IsRing s'.mem 1 (σ.map (s.mem.fresh + ·)) ∧ σ.Perm (List.range reqs.length) ∧
      (∀ i < reqs.length, cylinderAt s'.mem (s.mem.fresh + i) = reqs.getD i 0) ∧
      (Greedy s.start (σ.map fun i => reqs.getD i 0) ↔ SidesApart s.start reqs) := by
  obtain ⟨s', σ, hrun, hring, hperm, hnearer, hdata, -⟩ := sstf_order h hne
  refine ⟨s', σ, hrun, hring, hperm, hdata, ?_⟩
  have hoffsets : (σ.map fun i => reqs.getD i 0).map (· - s.start) = σ.map (offset s.start reqs) := by
    rw [List.map_map]
    rfl
  have hsorted : (σ.map (offset s.start reqs)).Pairwise fun a b => |a| ≤ |b| := by
    refine List.pairwise_map.2 (hnearer.imp fun hij => ?_)
    unfold Nearer at hij
    omega
  rw [← greedy_sub s.start, Int.sub_self, hoffsets, greedy_iff_changes hsorted,
    changes_iff_sidesApart hnearer hperm]

theorem sstf_greedy_iff_two :
    ∃ s', ∃ σ : List Nat, sstfTick runqueue (withRequests 50 [40, 61]) = .ok s' ∧
      IsRing s'.mem 1 (σ.map (4 + ·)) ∧ σ.Perm (List.range 2) ∧
      (∀ i < 2, cylinderAt s'.mem (4 + i) = [40, 61].getD i 0) ∧
      (Greedy 50 (σ.map fun i => [40, 61].getD i 0) ↔ SidesApart 50 [40, 61]) :=
  sstf_greedy_iff (withRequests_loaded 50 [40, 61]) (by decide)

/-- From 40 SSTF goes to 61, and leaves 38 for later. -/
theorem sstf_not_nearest :
    (sstfTick runqueue (withRequests 50 [40, 61, 38])).map Sim.fp = .ok "SSTF,54,40,61,38\n" ∧
      ¬ Greedy 50 [40, 61, 38] :=
  ⟨by rfl, fun h => absurd (h.2.1 38 (by decide)) (by decide)⟩

end OsBasics.Disk
