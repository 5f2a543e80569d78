/-
  Stable sorting, and bottom-up merge sort.

  `StableSort le l l'` says that `l'` is `l` sorted by `le`, with the entries that
  are equal under `le` in the order of `l`. There is only one such list
  (`StableSort.unique`), deleting entries before or after sorting makes no
  difference (`StableSort.filter`), and the merge of two stably sorted lists is
  the stable sort of their concatenation (`StableSort.merge`). So is collecting the
  entries key by key (`collect_stable`).

  `bottomUp` merges runs of length `k`, `2k`, `4k`, … until one is left. It permutes
  its input for every `le` (`bottomUp_perm`), and sorts it stably when `le` is a
  total preorder (`bottomUp_stable`).
-/
import Mathlib.Algebra.Group.Nat.Defs
import Mathlib.Data.List.Sort
import Mathlib.Data.Nat.Basic

namespace OsBasics.Lib

variable {α : Type*}

/-- Any two entries compare, and comparisons compose. -/
structure TotalPreorder (le : α → α → Bool) : Prop where
  trans : ∀ a b c, le a b → le b c → le a c
  total : ∀ a b, le a b || le b a

namespace TotalPreorder

variable {le : α → α → Bool}

theorem refl (h : TotalPreorder le) (a : α) : le a a := by simpa using h.total a a

end TotalPreorder

/-- `a` and `b` are equal under `le`. -/
def tie (le : α → α → Bool) (a b : α) : Bool := le a b && le b a

theorem tie_iff {le : α → α → Bool} {a b : α} : tie le a b = true ↔ le a b ∧ le b a := by
  simp [tie]

/-! ## Stable sorting -/

/-- `l'` is `l`, sorted, with ties in the order of `l`. -/
structure StableSort (le : α → α → Bool) (l l' : List α) : Prop where
  perm : l'.Perm l
  sorted : l'.Pairwise fun a b => le a b
  ties : ∀ a, l'.filter (tie le a) = l.filter (tie le a)

/-- A sorted list is known by its ties. -/
theorem eq_of_sorted_of_ties {le : α → α → Bool} (h : TotalPreorder le) {l₁ l₂ : List α}
    (h₁ : l₁.Pairwise fun a b => le a b) (h₂ : l₂.Pairwise fun a b => le a b)
    (ht : ∀ a, l₁.filter (tie le a) = l₂.filter (tie le a)) : l₁ = l₂ := by
  have hmem : ∀ {m₁ m₂ : List α}, (∀ a, m₁.filter (tie le a) = m₂.filter (tie le a)) →
      ∀ x ∈ m₁, x ∈ m₂ := by
    intro m₁ m₂ hm x hx
    have hxx : x ∈ m₁.filter (tie le x) :=
      List.mem_filter.2 ⟨hx, tie_iff.2 ⟨h.refl x, h.refl x⟩⟩
    rw [hm] at hxx
    exact List.mem_of_mem_filter hxx
  induction l₁ generalizing l₂ with
  | nil =>
    cases l₂ with
    | nil => rfl
    | cons y l₂ => exact absurd (hmem (fun a => (ht a).symm) y List.mem_cons_self) (by simp)
  | cons x l₁ ih =>
    cases l₂ with
    | nil => exact absurd (hmem ht x List.mem_cons_self) (by simp)
    | cons y l₂ =>
      obtain ⟨hx, h₁'⟩ := List.pairwise_cons.1 h₁
      obtain ⟨hy, h₂'⟩ := List.pairwise_cons.1 h₂
      -- the heads are least in both lists, so they tie, and are the first of their ties
      have hxy : le x y := by
        obtain rfl | hm := List.mem_cons.1 (hmem (fun a => (ht a).symm) y List.mem_cons_self)
        · exact h.refl y
        · exact hx y hm
      have hyx : le y x := by
        obtain rfl | hm := List.mem_cons.1 (hmem ht x List.mem_cons_self)
        · exact h.refl x
        · exact hy x hm
      have hhead := ht x
      rw [List.filter_cons_of_pos (tie_iff.2 ⟨h.refl x, h.refl x⟩),
        List.filter_cons_of_pos (tie_iff.2 ⟨hxy, hyx⟩)] at hhead
      obtain rfl := (List.cons.inj hhead).1
      refine congrArg _ (ih h₁' h₂' fun a => ?_)
      have hta := ht a
      by_cases hax : tie le a x = true
      · rw [List.filter_cons_of_pos hax, List.filter_cons_of_pos hax] at hta
        exact (List.cons.inj hta).2
      · rwa [List.filter_cons_of_neg hax, List.filter_cons_of_neg hax] at hta

namespace StableSort

variable {le : α → α → Bool} {l l' a a' b b' : List α}

theorem nil : StableSort le ([] : List α) [] := ⟨.nil, .nil, fun _ => rfl⟩

theorem singleton (x : α) : StableSort le [x] [x] := ⟨.refl _, by simp, fun _ => rfl⟩

/-- Stable sorting has one result. -/
theorem unique (h : TotalPreorder le) (h₁ : StableSort le l a) (h₂ : StableSort le l b) : a = b :=
  eq_of_sorted_of_ties h h₁.sorted h₂.sorted fun x => (h₁.ties x).trans (h₂.ties x).symm

/-- Entries may be deleted before or after sorting. -/
theorem filter (h : StableSort le l l') (p : α → Bool) :
    StableSort le (l.filter p) (l'.filter p) where
  perm := h.perm.filter p
  sorted := h.sorted.filter p
  ties x := by
    rw [List.filter_filter, List.filter_filter, List.filter_congr fun y _ => Bool.and_comm _ _,
      ← List.filter_filter, h.ties x, List.filter_filter,
      List.filter_congr fun y _ => Bool.and_comm _ _]

/-- Sorting a list of names for the entries sorts the entries. -/
theorem map {β : Type*} {leβ : β → β → Bool} (h : TotalPreorder leβ) (f : α → β)
    (hl : StableSort le l l') (hle : ∀ a ∈ l, ∀ b ∈ l, leβ (f a) (f b) = le a b) :
    StableSort leβ (l.map f) (l'.map f) where
  perm := hl.perm.map f
  sorted := by
    refine List.pairwise_map.2 ((hl.sorted).imp_of_mem fun {a b} ha hb hab => ?_)
    rwa [hle a (hl.perm.subset ha) b (hl.perm.subset hb)]
  ties b := by
    rw [List.filter_map, List.filter_map]
    congr 1
    by_cases hb : ∃ x ∈ l, tie leβ b (f x) = true
    · -- the ties of `b` are those of an entry
      obtain ⟨x, hx, hbx⟩ := hb
      have hbx' := tie_iff.1 hbx
      have hsame : ∀ y ∈ l, (tie leβ b ∘ f) y = tie le x y := by
        intro y hy
        have hty : tie le x y = tie leβ (f x) (f y) := by
          unfold tie
          rw [hle x hx y hy, hle y hy x hx]
        rw [hty, Function.comp_apply, Bool.eq_iff_iff, tie_iff, tie_iff]
        constructor
        · exact fun hy' => ⟨h.trans _ _ _ hbx'.2 hy'.1, h.trans _ _ _ hy'.2 hbx'.1⟩
        · exact fun hy' => ⟨h.trans _ _ _ hbx'.1 hy'.1, h.trans _ _ _ hy'.2 hbx'.2⟩
      rw [List.filter_congr hsame, List.filter_congr fun y hy => hsame y (hl.perm.subset hy)]
      exact hl.ties x
    · have hnone : ∀ y ∈ l, ¬ (tie leβ b ∘ f) y = true := fun y hy hby => hb ⟨y, hy, hby⟩
      rw [List.filter_eq_nil_iff.2 hnone,
        List.filter_eq_nil_iff.2 fun y hy => hnone y (hl.perm.subset hy)]

/-- Ties come in the order of the input. -/
theorem pairwise_ties {r : α → α → Prop} (hl : StableSort le l l') (hr : l.Pairwise r)
    (hrefl : ∀ a, le a a) : l'.Pairwise fun a b => le a b ∧ (le b a → r a b) := by
  refine hl.sorted.and ?_
  rw [List.pairwise_iff_forall_sublist]
  intro a b hab hba
  -- the two stand in the ties of `a`, which the input has in the same order
  have hle : le a b := (List.pairwise_iff_forall_sublist.1 hl.sorted) hab
  have hties := hab.filter (tie le a)
  rw [List.filter_cons_of_pos (tie_iff.2 ⟨hrefl a, hrefl a⟩),
    List.filter_cons_of_pos (tie_iff.2 ⟨hle, hba⟩), List.filter_nil, hl.ties a] at hties
  exact (List.pairwise_iff_forall_sublist.1 hr) (hties.trans List.filter_sublist)

end StableSort

/-- Entries compare by `rank`, and by `key` in a rank. -/
def lexLe (rank : α → Nat) (key : α → Int) (a b : α) : Bool :=
  decide (rank a < rank b ∨ rank a = rank b ∧ key a ≤ key b)

theorem lexLe_iff {rank : α → Nat} {key : α → Int} {a b : α} :
    lexLe rank key a b = true ↔ rank a < rank b ∨ rank a = rank b ∧ key a ≤ key b := by
  simp [lexLe]

theorem totalPreorder_lexLe (rank : α → Nat) (key : α → Int) : TotalPreorder (lexLe rank key) where
  trans a b c hab hbc := by
    rw [lexLe_iff] at *
    omega
  total a b := by
    rw [Bool.or_eq_true, lexLe_iff, lexLe_iff]
    omega

/-- Merging keeps the ties of both sides, the left ones first. -/
theorem filter_tie_merge {le : α → α → Bool} (h : TotalPreorder le) {xs ys : List α}
    (hx : xs.Pairwise fun a b => le a b) (hy : ys.Pairwise fun a b => le a b) (a : α) :
    (xs.merge ys le).filter (tie le a) = xs.filter (tie le a) ++ ys.filter (tie le a) := by
  induction xs generalizing ys with
  | nil => simp
  | cons x xs ihx =>
    induction ys with
    | nil => simp
    | cons y ys ihy =>
      by_cases hxy : le x y
      · rw [List.cons_merge_cons_pos le xs ys hxy]
        by_cases hax : tie le a x = true
        · rw [List.filter_cons_of_pos hax, List.filter_cons_of_pos hax, ihx hx.tail hy]
          rfl
        · rw [List.filter_cons_of_neg hax, List.filter_cons_of_neg hax, ihx hx.tail hy]
      · rw [List.cons_merge_cons_neg le xs ys hxy, List.filter_cons, ihy hy.tail]
        by_cases hay : tie le a y = true
        · -- nothing on the left ties with `y`, which is strictly smaller
          have hnone : (x :: xs).filter (tie le a) = [] := by
            rw [List.filter_eq_nil_iff]
            intro z hz htz
            have hxz : le x z := by
              obtain rfl | hz := List.mem_cons.1 hz
              · exact h.refl z
              · exact (List.pairwise_cons.1 hx).1 z hz
            have hzy := h.trans z a y (tie_iff.1 htz).2 (tie_iff.1 hay).1
            exact hxy (h.trans x z y hxz hzy)
          rw [hnone, if_pos hay, List.filter_cons_of_pos hay]
          rfl
        · rw [if_neg hay, List.filter_cons_of_neg (l := ys) hay]

theorem StableSort.merge {le : α → α → Bool} (h : TotalPreorder le) {a a' b b' : List α}
    (ha : StableSort le a a') (hb : StableSort le b b') :
    StableSort le (a ++ b) (a'.merge b' le) where
  perm := (List.merge_perm_append le).trans (ha.perm.append hb.perm)
  sorted := List.pairwise_merge h.trans h.total a' b' ha.sorted hb.sorted
  ties x := by
    rw [filter_tie_merge h ha.sorted hb.sorted, ha.ties, hb.ties, List.filter_append]

/-! ## Sorting by collecting -/

/-- Entries compare by `key`. -/
def keyLe (key : α → Int) (a b : α) : Bool := decide (key a ≤ key b)

theorem keyLe_iff {key : α → Int} {a b : α} : keyLe key a b = true ↔ key a ≤ key b := by
  simp [keyLe]

theorem totalPreorder_keyLe (key : α → Int) : TotalPreorder (keyLe key) where
  trans a b c hab hbc := by
    rw [keyLe_iff] at *
    exact hab.trans hbc
  total a b := by
    rw [Bool.or_eq_true, keyLe_iff, keyLe_iff]
    exact Int.le_total _ _

/-- The entries with key 0, then those with key 1, and so on below `n`. -/
def collect (key : α → Int) (l : List α) (n : Nat) : List α :=
  (List.range n).flatMap fun t : Nat => l.filter fun a => key a = t

theorem collect_succ (key : α → Int) (l : List α) (n : Nat) :
    collect key l (n + 1) = collect key l n ++ l.filter fun a => key a = n := by
  simp [collect, List.range_succ]

/-- When all keys are 0 nothing is moved. -/
theorem collect_zero {key : α → Int} {l : List α} (h : ∀ a ∈ l, key a = 0) (n : Nat) :
    collect key l (n + 1) = l := by
  induction n with
  | zero =>
    rw [collect_succ, List.filter_eq_self.2 fun a ha => by simp [h a ha]]
    rfl
  | succ n ih =>
    rw [collect_succ, ih, List.filter_eq_nil_iff.2 fun a ha => ?_, List.append_nil]
    rw [h a ha, decide_eq_true_eq]
    omega

theorem mem_collect {key : α → Int} {l : List α} {n : Nat} {a : α} :
    a ∈ collect key l n ↔ a ∈ l ∧ 0 ≤ key a ∧ key a < n := by
  simp only [collect, List.mem_flatMap, List.mem_range, List.mem_filter, decide_eq_true_eq]
  constructor
  · rintro ⟨t, ht, hl, hk⟩
    exact ⟨hl, by omega, by omega⟩
  · rintro ⟨hl, h0, hn⟩
    exact ⟨(key a).toNat, by omega, hl, by omega⟩

theorem collect_sorted (key : α → Int) (l : List α) (n : Nat) :
    (collect key l n).Pairwise fun a b => keyLe key a b := by
  induction n with
  | zero => exact .nil
  | succ n ih =>
    rw [collect_succ, List.pairwise_append]
    refine ⟨ih, List.pairwise_iff_forall_sublist.2 fun {a b} hab => ?_, fun a ha b hb => ?_⟩
    · have ha := hab.subset (show a ∈ [a, b] by simp)
      have hb := hab.subset (show b ∈ [a, b] by simp)
      simp only [List.mem_filter, decide_eq_true_eq] at ha hb
      rw [keyLe_iff]
      omega
    · have ha := mem_collect.1 ha
      simp only [List.mem_filter, decide_eq_true_eq] at hb
      rw [keyLe_iff]
      omega

theorem collect_ties (key : α → Int) (l : List α) (n : Nat) (a : α) :
    (collect key l n).filter (tie (keyLe key) a) =
      (l.filter fun a => 0 ≤ key a ∧ key a < n).filter (tie (keyLe key) a) := by
  induction n with
  | zero =>
    rw [List.filter_filter, eq_comm, List.filter_eq_nil_iff.2]
    · rfl
    · intro x _ hx
      simp only [Bool.and_eq_true, decide_eq_true_eq] at hx
      omega
  | succ n ih =>
    rw [collect_succ, List.filter_append, ih, List.filter_filter, List.filter_filter,
      List.filter_filter]
    by_cases ha : key a = n
    · -- the ties of `a` are all in the last part
      rw [List.filter_eq_nil_iff.2, List.nil_append]
      · refine List.filter_congr fun x _ => ?_
        rw [Bool.eq_iff_iff]
        simp only [Bool.and_eq_true, tie_iff, keyLe_iff, decide_eq_true_eq]
        omega
      · intro x _ hx
        simp only [Bool.and_eq_true, tie_iff, keyLe_iff, decide_eq_true_eq] at hx
        omega
    · have hnone : (l.filter fun x => tie (keyLe key) a x && decide (key x = (n : Int))) = [] := by
        rw [List.filter_eq_nil_iff]
        intro x _ hx
        simp only [Bool.and_eq_true, tie_iff, keyLe_iff, decide_eq_true_eq] at hx
        omega
      rw [hnone, List.append_nil]
      refine List.filter_congr fun x _ => ?_
      rw [Bool.eq_iff_iff]
      simp only [Bool.and_eq_true, tie_iff, keyLe_iff, decide_eq_true_eq]
      omega

/-- Collecting sorts the entries whose keys are in range, stably. -/
theorem collect_stable (key : α → Int) (l : List α) (n : Nat) :
    StableSort (keyLe key) (l.filter fun a => 0 ≤ key a ∧ key a < n) (collect key l n) := by
  refine ⟨?_, collect_sorted key l n, collect_ties key l n⟩
  classical
  rw [List.perm_iff_count]
  intro a
  -- an entry is among its own ties
  have hcount : ∀ m : List α, m.count a = (m.filter (tie (keyLe key) a)).count a := by
    intro m
    have hself : keyLe key a a = true := keyLe_iff.2 (Int.le_refl _)
    rw [List.count_filter (tie_iff.2 ⟨hself, hself⟩)]
  rw [hcount, collect_ties, ← hcount]

/-- Once every entry is collected nothing more comes. -/
theorem collect_full {key : α → Int} {l : List α} {n : Nat}
    (h : (collect key l n).length = l.length) (k : Nat) : collect key l (n + k) = collect key l n := by
  rw [(collect_stable key l n).perm.length_eq, List.length_filter_eq_length_iff] at h
  induction k with
  | zero => rfl
  | succ k ih =>
    have hnone : (l.filter fun a => key a = ((n + k : Nat) : Int)) = [] := by
      rw [List.filter_eq_nil_iff]
      intro a ha hk
      have := h a ha
      simp only [decide_eq_true_eq] at hk this
      omega
    rw [← Nat.add_assoc, collect_succ, hnone, List.append_nil, ih]

/-! ## Bottom-up merge sort -/

/-- Merge the runs of length `k` in pairs. -/
def mergePass (le : α → α → Bool) (k : Nat) (l : List α) : List α :=
  if l = [] ∨ k = 0 then l
  else (l.take k).merge ((l.drop k).take k) le ++ mergePass le k (l.drop (2 * k))
termination_by l.length
decreasing_by
  rename_i h
  have hl : l ≠ [] := fun e => h (.inl e)
  have := List.length_pos_of_ne_nil hl
  rw [List.length_drop]
  omega

/-- Passes with runs of length `k`, `2k`, … until there is one run, at most `n` of them. -/
def bottomUp (le : α → α → Bool) : Nat → Nat → List α → List α
  | 0, _, l => l
  | n + 1, k, l =>
    if l.length ≤ 2 * k then mergePass le k l else bottomUp le n (2 * k) (mergePass le k l)

theorem mergePass_nil (le : α → α → Bool) (k : Nat) : mergePass le k [] = [] := by
  rw [mergePass, if_pos (.inl rfl)]

theorem mergePass_step (le : α → α → Bool) {k : Nat} {l : List α} (hl : l ≠ []) (hk : 0 < k) :
    mergePass le k l =
      (l.take k).merge ((l.drop k).take k) le ++ mergePass le k (l.drop (2 * k)) := by
  rw [mergePass, if_neg (by simp [hl]; omega)]

theorem mergePass_perm (le : α → α → Bool) (k : Nat) (l : List α) :
    (mergePass le k l).Perm l := by
  induction l using mergePass.induct (k := k) with
  | case1 l h => rw [mergePass, if_pos h]
  | case2 l h ih =>
    rw [mergePass, if_neg h]
    have hsplit : l.take k ++ ((l.drop k).take k ++ l.drop (2 * k)) = l := by
      rw [Nat.two_mul, ← List.drop_drop, List.take_append_drop, List.take_append_drop]
    refine ((List.merge_perm_append le).append ih).trans ?_
    rw [List.append_assoc, hsplit]

theorem mergePass_length (le : α → α → Bool) (k : Nat) (l : List α) :
    (mergePass le k l).length = l.length := (mergePass_perm le k l).length_eq

theorem bottomUp_perm (le : α → α → Bool) (n k : Nat) (l : List α) :
    (bottomUp le n k l).Perm l := by
  induction n generalizing k l with
  | zero => exact .refl _
  | succ n ih =>
    unfold bottomUp
    split
    · exact mergePass_perm le k l
    · exact (ih _ _).trans (mergePass_perm le k l)

/-- `l'` is `l` with every run of length `k` sorted stably. -/
def SortedRuns (le : α → α → Bool) (k : Nat) (l l' : List α) : Prop :=
  l'.length = l.length ∧ ∀ i, StableSort le ((l.drop (i * k)).take k) ((l'.drop (i * k)).take k)

theorem sortedRuns_one (le : α → α → Bool) (l : List α) : SortedRuns le 1 l l := by
  refine ⟨rfl, fun i => ?_⟩
  cases l.drop (i * 1) with
  | nil => exact .nil
  | cons x r => exact .singleton x

theorem length_merge_runs (le : α → α → Bool) (k : Nat) (l : List α) :
    ((l.take k).merge ((l.drop k).take k) le).length = min (2 * k) l.length := by
  rw [List.length_merge, List.length_take, List.length_take, List.length_drop]
  omega

/-- What a pass leaves behind its first run. -/
theorem mergePass_drop_one (le : α → α → Bool) {k : Nat} (hk : 0 < k) (l : List α) :
    (mergePass le k l).drop (2 * k) = mergePass le k (l.drop (2 * k)) := by
  by_cases hshort : l.length ≤ 2 * k
  · rw [List.drop_of_length_le (by rwa [mergePass_length]), List.drop_of_length_le hshort,
      mergePass_nil]
  · have hl : l ≠ [] := fun e => hshort (by simp [e])
    rw [mergePass_step le hl hk]
    exact List.drop_left' (by rw [length_merge_runs]; omega)

theorem mergePass_drop (le : α → α → Bool) {k : Nat} (hk : 0 < k) (i : Nat) (l : List α) :
    (mergePass le k l).drop (i * (2 * k)) = mergePass le k (l.drop (i * (2 * k))) := by
  induction i generalizing l with
  | zero => simp
  | succ i ih =>
    rw [Nat.add_mul, Nat.one_mul, Nat.add_comm, ← List.drop_drop, ← List.drop_drop,
      mergePass_drop_one le hk, ih]

theorem mergePass_take (le : α → α → Bool) {k : Nat} (hk : 0 < k) (l : List α) :
    (mergePass le k l).take (2 * k) = (l.take k).merge ((l.drop k).take k) le := by
  by_cases hl : l = []
  · simp [hl, mergePass_nil]
  · rw [mergePass_step le hl hk]
    by_cases hshort : l.length ≤ 2 * k
    · rw [List.drop_of_length_le hshort, mergePass_nil, List.append_nil,
        List.take_of_length_le (by rw [length_merge_runs]; omega)]
    · exact List.take_left' (by rw [length_merge_runs]; omega)

/-- A pass doubles the length of the sorted runs. -/
theorem sortedRuns_mergePass {le : α → α → Bool} (h : TotalPreorder le) {k : Nat} (hk : 0 < k)
    {l l' : List α} (hs : SortedRuns le k l l') : SortedRuns le (2 * k) l (mergePass le k l') := by
  refine ⟨(mergePass_length le k l').trans hs.1, fun i => ?_⟩
  have hmul : i * (2 * k) = 2 * i * k := by rw [← Nat.mul_assoc, Nat.mul_comm i 2]
  rw [mergePass_drop le hk, mergePass_take le hk]
  have hsplit : (l.drop (i * (2 * k))).take (2 * k) =
      (l.drop (2 * i * k)).take k ++ (l.drop ((2 * i + 1) * k)).take k := by
    rw [hmul, Nat.add_mul, Nat.one_mul, ← List.drop_drop, Nat.two_mul k, List.take_add]
  have h₁ := hs.2 (2 * i)
  have h₂ := hs.2 (2 * i + 1)
  have hnext : (2 * i + 1) * k = 2 * i * k + k := by rw [Nat.add_mul, Nat.one_mul]
  rw [hnext, ← List.drop_drop (l := l')] at h₂
  rw [hsplit, hmul, hnext]
  exact h₁.merge h h₂

/-- Bottom-up merge sort is stable sorting, when there are passes enough. -/
theorem bottomUp_stable {le : α → α → Bool} (h : TotalPreorder le) {n k : Nat} (hk : 0 < k)
    {l l' : List α} (hn : l.length ≤ 2 ^ n * k) (hpos : 0 < n) (hs : SortedRuns le k l l') :
    StableSort le l (bottomUp le n k l') := by
  induction n generalizing k l' with
  | zero => omega
  | succ n ih =>
    have hs' := sortedRuns_mergePass h hk hs
    unfold bottomUp
    by_cases hlen : l'.length ≤ 2 * k
    · rw [if_pos hlen]
      have h0 := hs'.2 0
      rwa [Nat.zero_mul, List.drop_zero, List.drop_zero,
        List.take_of_length_le (by rw [← hs.1]; exact hlen),
        List.take_of_length_le (by rw [mergePass_length]; exact hlen)] at h0
    · rw [if_neg hlen]
      have hn' : l.length ≤ 2 ^ n * (2 * k) := by
        rw [Nat.pow_succ] at hn
        rw [← Nat.mul_assoc]
        exact hn
      refine ih (by omega) hn' ?_ hs'
      by_contra h0
      obtain rfl : n = 0 := by omega
      rw [hs.1] at hlen
      simp only [Nat.pow_zero, Nat.one_mul] at hn'
      omega

/-- Insertion sort is stable. -/
theorem stableSort_insertionSort {le : α → α → Bool} (h : TotalPreorder le) (l : List α) :
    StableSort le l (l.insertionSort fun a b => le a b) := by
  have : Std.Total fun a b => le a b = true := ⟨fun a b => by simpa using h.total a b⟩
  have : IsTrans α fun a b => le a b = true := ⟨h.trans⟩
  have hperm := List.perm_insertionSort (fun a b => le a b = true) l
  refine ⟨hperm, List.pairwise_insertionSort _ l, fun a => ?_⟩
  have hties : (l.filter (tie le a)).Pairwise fun x y => le x y := by
    refine List.pairwise_of_forall_mem_list fun x hx y hy => ?_
    exact h.trans x a y (tie_iff.1 (List.of_mem_filter hx)).2 (tie_iff.1 (List.of_mem_filter hy)).1
  have hsub := (List.sublist_insertionSort hties List.filter_sublist).filter (tie le a)
  simp only [List.filter_filter, Bool.and_self] at hsub
  exact (hsub.eq_of_length (hperm.filter _).length_eq.symm).symm

end OsBasics.Lib
