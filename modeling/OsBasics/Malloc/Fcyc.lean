/-
  The K-best timer of the driver, `fcyc.c`.

  `fcyc` runs the function until the `kbest` least times agree, or `maxsamples` runs are made,
  and answers with the least time. A time is a value of a linear order; what a run takes and
  the factor `1 + epsilon` are parameters. `values` holds the `kbest` least samples so far
  (`addSample_eq`), so the loop stops at the first run after which they agree
  (`fcyc_spec`).
-/
import Mathlib.Algebra.GroupWithZero.Nat
import Mathlib.Data.List.Induction
import Mathlib.Order.Bounds.Basic
import OsBasics.Lib.KBest

namespace OsBasics.Malloc

open OsBasics.Lib

/-- The first `n` samples. -/
def samples {T : Type} (cyc : Nat → T) (n : Nat) : List T := (List.range n).map cyc

theorem samples_succ {T : Type} (cyc : Nat → T) (n : Nat) : samples cyc (n + 1) = samples cyc n ++ [cyc n] := by
  unfold samples
  rw [List.range_succ, List.map_append]
  rfl

theorem samples_length {T : Type} (cyc : Nat → T) (n : Nat) : (samples cyc n).length = n := by
  unfold samples
  rw [List.length_map, List.length_range]

/-- `values` and `samplecount`. -/
structure Sampler (α : Type) where
  values : List α
  samplecount : Nat

variable {α : Type} [LinearOrder α] [Zero α]

/-- `init_sampler()`. -/
def initSampler (kbest : Nat) : Sampler α where
  values := List.replicate kbest 0
  samplecount := 0

/-- The insertion sort of `add_sample`, from `pos` on. -/
def insertionLoop : Nat → List α → List α
  | 0, values => values
  | pos + 1, values =>
    if values.getD pos 0 > values.getD (pos + 1) 0 then
      let temp := values.getD pos 0
      insertionLoop pos ((values.set pos (values.getD (pos + 1) 0)).set (pos + 1) temp)
    else values

/-- `add_sample(val)`. -/
def addSample (kbest : Nat) (s : Sampler α) (val : α) : Sampler α :=
  let (pos, values) :=
    if s.samplecount < kbest then (s.samplecount, s.values.set s.samplecount val)
    else if val < s.values.getD (kbest - 1) 0 then (kbest - 1, s.values.set (kbest - 1) val)
    else (0, s.values)
  { values := insertionLoop pos values, samplecount := s.samplecount + 1 }

/-- `has_converged()`, where `slack v` is `(1 + epsilon) * v`. -/
def hasConverged (kbest : Nat) (slack : α → α) (s : Sampler α) : Prop :=
  s.samplecount ≥ kbest ∧ slack (s.values.getD 0 0) ≥ s.values.getD (kbest - 1) 0

instance (kbest : Nat) (slack : α → α) (s : Sampler α) : Decidable (hasConverged kbest slack s) :=
  inferInstanceAs (Decidable (_ ∧ _))

/-- The loop of `fcyc`, where `cyc i` is the time of run `i`. Each round is a run, so `maxsamples` rounds
    are enough, and one when that is none. -/
def sampleLoop (kbest : Nat) (slack : α → α) (maxsamples : Nat) (cyc : Nat → α) :
    Nat → Sampler α → Sampler α
  | 0, s => s
  | n + 1, s =>
    let s := addSample kbest s (cyc s.samplecount)
    if ¬ hasConverged kbest slack s ∧ s.samplecount < maxsamples then
      sampleLoop kbest slack maxsamples cyc n s
    else s

/-- `fcyc(f, argp)`: the result, and how often `f` was run. -/
def fcyc (kbest : Nat) (slack : α → α) (maxsamples : Nat) (cyc : Nat → α) : α × Nat :=
  let s := sampleLoop kbest slack maxsamples cyc (max maxsamples 1) (initSampler kbest)
  (s.values.getD 0 0, s.samplecount)

/-! ## add_sample -/

/-- The entry behind a sorted prefix sinks into it. -/
theorem insertionLoop_eq {l : List α} (h : l.Pairwise (· ≤ ·)) (a : α) (rest : List α) :
    insertionLoop l.length (l ++ a :: rest) = l.orderedInsert (· ≤ ·) a ++ rest := by
  induction l using List.reverseRecOn generalizing rest with
  | nil => rfl
  | append_singleton l b ih =>
    have hl := h.sublist (List.sublist_append_left l [b])
    have hb : ∀ x ∈ l, x ≤ b := fun x hx =>
      (List.pairwise_append.1 h).2.2 x hx b (List.mem_singleton_self b)
    have hpos : (l ++ [b] ++ a :: rest).getD l.length 0 = b := by simp
    have hnext : (l ++ [b] ++ a :: rest).getD (l.length + 1) 0 = a := by simp
    rw [List.length_append, List.length_singleton, insertionLoop, hpos, hnext]
    by_cases hlt : b > a
    · have hswap : ((l ++ [b] ++ a :: rest).set l.length a).set (l.length + 1) b =
          l ++ a :: b :: rest := by simp
      rw [if_pos hlt]
      dsimp only
      rw [hswap, ih hl, orderedInsert_concat_of_le (le_of_lt hlt), List.append_assoc]
      rfl
    · have hle : b ≤ a := not_lt.1 hlt
      have hall : ∀ x ∈ l ++ [b], x ≤ a := fun x hx =>
        (List.mem_append.1 hx).elim (fun hx => (hb x hx).trans hle)
          fun hx => (List.mem_singleton.1 hx).trans_le hle
      rw [if_neg hlt, orderedInsert_of_forall_le h hall, List.append_assoc (l ++ [b])]
      rfl

/-- The sampler after the samples `l`: the least of them, and places not yet used. -/
def Sampled (kbest : Nat) (l : List α) (s : Sampler α) : Prop :=
  s.values = best kbest l ++ List.replicate (kbest - l.length) 0 ∧ s.samplecount = l.length

variable {kbest maxsamples : Nat} {slack : α → α} {cyc : Nat → α} {l : List α} {s : Sampler α}

theorem initSampler_eq : Sampled kbest [] (initSampler kbest : Sampler α) := by
  refine ⟨?_, rfl⟩
  show _ = ([] : List α).take kbest ++ _
  rw [List.take_nil, List.nil_append]
  rfl

/-- Full, with the greatest of the `kbest` least in the last place. -/
theorem Sampled.full (h : Sampled kbest l s) (hk : 0 < kbest) (hlen : kbest ≤ l.length) :
    ∃ ys m, s.values = ys ++ [m] ∧ best kbest l = ys ++ [m] ∧ ys.length = kbest - 1 := by
  have hbest := best_length kbest l
  rw [Nat.min_eq_left hlen] at hbest
  obtain hnil | ⟨ys, m, hys⟩ := List.eq_nil_or_concat' (best kbest l)
  · rw [hnil, List.length_nil] at hbest
    omega
  · rw [hys, List.length_append, List.length_singleton] at hbest
    refine ⟨ys, m, ?_, hys, by omega⟩
    rw [h.1, hys, Nat.sub_eq_zero_of_le hlen, List.replicate_zero, List.append_nil]

/-- One sample. -/
theorem addSample_eq (h : Sampled kbest l s) (hk : 0 < kbest) (val : α) :
    Sampled kbest (l ++ [val]) (addSample kbest s val) := by
  have hsorted := best_sorted kbest l
  have hcount := h.2
  refine ⟨?_, by rw [List.length_append, List.length_singleton, ← hcount]; rfl⟩
  rw [best_concat, List.length_append, List.length_singleton]
  unfold addSample
  by_cases hroom : l.length < kbest
  · rw [if_pos (by omega)]
    dsimp only
    have hbest := best_length kbest l
    rw [Nat.min_eq_right (by omega)] at hbest
    obtain ⟨j, hj⟩ : ∃ j, kbest - l.length = j + 1 := ⟨kbest - l.length - 1, by omega⟩
    have hset : s.values.set l.length val = best kbest l ++ val :: List.replicate j 0 := by
      rw [h.1, hj, List.replicate_succ, ← hbest]
      simp
    rw [hcount, hset, ← hbest, insertionLoop_eq hsorted, List.take_of_length_le, hbest]
    · rw [show kbest - (l.length + 1) = j by omega]
    · rw [List.orderedInsert_length]
      omega
  · rw [if_neg (by omega)]
    obtain ⟨ys, m, hvals, hys, hlen⟩ := h.full hk (by omega)
    have hlast : s.values.getD (kbest - 1) 0 = m := by rw [hvals, ← hlen]; simp
    rw [hys] at hsorted ⊢
    rw [hlast, show kbest - (l.length + 1) = 0 by omega, List.replicate_zero, List.append_nil]
    by_cases hlt : val < m
    · have hset : s.values.set (kbest - 1) val = ys ++ [val] := by rw [hvals, ← hlen]; simp
      rw [if_pos hlt]
      dsimp only
      rw [hset, ← hlen, insertionLoop_eq (hsorted.sublist (List.sublist_append_left _ _)),
        orderedInsert_concat_of_le (le_of_lt hlt), List.append_nil, List.take_left']
      rw [List.orderedInsert_length]
      omega
    · have hm : ∀ x ∈ ys ++ [m], x ≤ val := by
        intro x hx
        obtain hx | hx := List.mem_append.1 hx
        · exact ((List.pairwise_append.1 hsorted).2.2 x hx m (List.mem_singleton_self m)).trans
            (not_lt.1 hlt)
        · exact (List.mem_singleton.1 hx).trans_le (not_lt.1 hlt)
      rw [if_neg hlt, orderedInsert_of_forall_le hsorted hm, List.take_left']
      · exact hvals
      · rw [List.length_append, List.length_singleton]
        omega

/-! ## fcyc -/

/-- The samples agree: there are `kbest`, and the greatest of the `kbest` least is in the reach of the
    least one. -/
def Agreed (kbest : Nat) (slack : α → α) (l : List α) : Prop :=
  ∃ lo hi, (best kbest l)[0]? = some lo ∧ (best kbest l)[kbest - 1]? = some hi ∧ hi ≤ slack lo

theorem Sampled.least (h : Sampled kbest l s) (hk : 0 < kbest) (hl : l ≠ []) :
    (best kbest l)[0]? = some (s.values.getD 0 0) := by
  have hlen := best_length kbest l
  have hpos := List.length_pos_iff.2 hl
  rw [h.1]
  generalize best kbest l = b at hlen
  cases b with
  | nil =>
    rw [List.length_nil] at hlen
    omega
  | cons x b => rfl

theorem Sampled.converged_iff (h : Sampled kbest l s) (hk : 0 < kbest) :
    hasConverged kbest slack s ↔ Agreed kbest slack l := by
  unfold hasConverged Agreed
  rw [h.2]
  constructor
  · rintro ⟨hlen, hle⟩
    obtain ⟨ys, m, hvals, hys, hlast⟩ := h.full hk hlen
    have hl : l ≠ [] := List.ne_nil_of_length_pos (by omega)
    refine ⟨_, m, h.least hk hl, ?_, ?_⟩
    · rw [hys, ← hlast]
      simp
    · rw [hvals, ← hlast] at hle
      rw [hvals]
      simpa using hle
  · rintro ⟨lo, hi, hlo, hhi, hle⟩
    have hlen : kbest - 1 < (best kbest l).length := (List.getElem?_eq_some_iff.1 hhi).1
    rw [best_length] at hlen
    obtain ⟨ys, m, hvals, hys, hlast⟩ := h.full hk (by omega)
    have hl : l ≠ [] := List.ne_nil_of_length_pos (by omega)
    rw [h.least hk hl, Option.some.injEq] at hlo
    have hm : s.values.getD (kbest - 1) 0 = m := by rw [hvals, ← hlast]; simp
    have hi' : hi = m := by
      rw [hys, ← hlast] at hhi
      simpa using hhi.symm
    rw [hlo, hm, ← hi']
    exact ⟨by omega, hle⟩

/-- The loop from sample `m` on: it stops at the first sample with which the least agree, or at the
    last one allowed. -/
theorem sampleLoop_spec (hk : 0 < kbest) {n m : Nat} (h : Sampled kbest (samples cyc m) s) (hn : 0 < n)
    (hmax : maxsamples ≤ m + n) :
    ∃ j, m < j ∧ Sampled kbest (samples cyc j) (sampleLoop kbest slack maxsamples cyc n s) ∧
      (Agreed kbest slack (samples cyc j) ∨ maxsamples ≤ j) ∧
      ∀ i, m < i → i < j → ¬ Agreed kbest slack (samples cyc i) ∧ i < maxsamples := by
  induction n generalizing m s with
  | zero => exact absurd hn (Nat.lt_irrefl 0)
  | succ n ih =>
    have hm := h.2
    rw [samples_length] at hm
    have h' := addSample_eq h hk (cyc m)
    rw [← samples_succ] at h'
    have hcount := h'.2
    rw [samples_length] at hcount
    unfold sampleLoop
    dsimp only
    rw [hm, hcount]
    have hconv : hasConverged kbest slack (addSample kbest s (cyc m)) ↔
        Agreed kbest slack (samples cyc (m + 1)) := h'.converged_iff hk
    by_cases hgo : ¬ hasConverged kbest slack (addSample kbest s (cyc m)) ∧ m + 1 < maxsamples
    · obtain ⟨j, hj, hS, hstop, hbefore⟩ := ih h' (by omega) (by omega)
      rw [if_pos hgo]
      refine ⟨j, by omega, hS, hstop, fun i hi hij => ?_⟩
      obtain rfl | hi := Nat.eq_or_lt_of_le (Nat.succ_le_of_lt hi)
      · exact ⟨mt hconv.2 hgo.1, hgo.2⟩
      · exact hbefore i hi hij
    · rw [if_neg hgo]
      refine ⟨m + 1, Nat.lt_succ_self m, h', ?_, fun i hi hij => by omega⟩
      by_cases hagreed : hasConverged kbest slack (addSample kbest s (cyc m))
      · exact .inl (hconv.1 hagreed)
      · exact .inr (not_lt.1 fun hlt => hgo ⟨hagreed, hlt⟩)

/-- The result is the least of the times taken, and the runs stop with the first after which the `kbest`
    least agree, or with the last one allowed. -/
theorem fcyc_spec (hk : 0 < kbest) (slack : α → α) (maxsamples : Nat) (cyc : Nat → α) :
    ∃ v j, fcyc kbest slack maxsamples cyc = (v, j) ∧ 1 ≤ j ∧ j ≤ max maxsamples 1 ∧
      IsLeast {x | ∃ i < j, x = cyc i} v ∧
      (Agreed kbest slack (samples cyc j) ∨ maxsamples ≤ j) ∧
      ∀ i, 0 < i → i < j → ¬ Agreed kbest slack (samples cyc i) := by
  have hmax : maxsamples ≤ 0 + max maxsamples 1 := by omega
  have hstart : Sampled kbest (samples cyc 0) (initSampler kbest) := initSampler_eq
  obtain ⟨j, hj, hS, hstop, hbefore⟩ := sampleLoop_spec (s := initSampler kbest) hk hstart
    (show 0 < max maxsamples 1 by omega) hmax
  have hl : samples cyc j ≠ [] := List.ne_nil_of_length_pos (by rw [samples_length]; exact hj)
  obtain ⟨hmem, hleast⟩ := best_head hk (hS.least hk hl)
  have hiff : ∀ x, x ∈ samples cyc j ↔ ∃ i < j, x = cyc i := by
    intro x
    unfold samples
    rw [List.mem_map]
    simp only [List.mem_range, eq_comm]
  refine ⟨_, j, Prod.ext rfl (hS.2.trans (samples_length cyc j)), hj, ?_, ⟨(hiff _).1 hmem, ?_⟩, hstop,
    fun i hi hij => (hbefore i hi hij).1⟩
  · by_cases h1 : j = 1
    · omega
    · have hlt := (hbefore (j - 1) (by omega) (by omega)).2
      omega
  · exact fun x hx => hleast x ((hiff x).2 hx)

/-- Four runs, of which three are within a hundredth of the fastest. -/
theorem fcyc_spec_four : ∃ v j, fcyc 3 (fun v => v + v / 100) 20 (fun i => [900, 500, 504, 505].getD i 0) =
    (v, j) ∧ v = 500 ∧ j = 4 ∧ IsLeast {x | ∃ i < j, x = [900, 500, 504, 505].getD i 0} v := by
  obtain ⟨v, j, hrun, -, -, hleast, -⟩ := fcyc_spec (show 0 < 3 by decide) (fun v => v + v / 100) 20
    (fun i => [900, 500, 504, 505].getD i 0)
  have heval : fcyc 3 (fun v => v + v / 100) 20 (fun i => [900, 500, 504, 505].getD i 0) = (500, 4) := by
    decide
  obtain ⟨hv, hj⟩ := Prod.mk.inj (hrun.symm.trans heval)
  exact ⟨v, j, hrun, hv, hj, hleast⟩

end OsBasics.Malloc
