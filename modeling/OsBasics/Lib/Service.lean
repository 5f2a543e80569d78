/-
  Serving jobs one after another.

  A server takes jobs from what is left, each after its release, and is idle until the
  next release when nothing has come. `clock` is the time at which it is free and a job
  is there. `Greedy` says that each job it takes has been released by then and is least in
  `key` among those that have; `greedy_concat` extends such a service by one job, and
  `clock_eq` splits its time into the end of the last job and the next release.
-/
import Mathlib.Algebra.BigOperators.Group.List.Basic
import Mathlib.Algebra.Order.Group.Int
import Mathlib.Data.List.Count

namespace OsBasics.Lib

variable {α T : Type} [DecidableEq α] [AddCommMonoid T] [LinearOrder T]
  {release length key : α → T} {t : T} {rest left served : List α} {p : α}

/-- The first release, of the jobs `rest`. -/
def earliest (release : α → T) (rest : List α) : T := ((rest.map release).min?).getD 0

/-- The time at which the next job can start, when those in `served` are taken from `rest` and the
    first of them can start at `t`. -/
def clock (release length : α → T) : T → List α → List α → T
  | t, _, [] => t
  | t, rest, p :: served =>
    clock release length (max (t + length p) (earliest release (rest.erase p))) (rest.erase p) served

/-- At `t` the job `p` of `rest` is released, and least of those that are. -/
structure Picks (release key : α → T) (t : T) (rest : List α) (p : α) : Prop where
  mem : p ∈ rest
  released : release p ≤ t
  least : ∀ r ∈ rest, release r ≤ t → key p ≤ key r

/-- The jobs `served` are picked from `rest` one after another, the first at `t`. -/
def Greedy (release length key : α → T) : T → List α → List α → Prop
  | _, _, [] => True
  | t, rest, p :: served => Picks release key t rest p ∧
    Greedy release length key (max (t + length p) (earliest release (rest.erase p))) (rest.erase p) served

/-- A service goes on with the next pick. -/
theorem greedy_concat : Greedy release length key t rest (served ++ [p]) ↔
    Greedy release length key t rest served ∧
      Picks release key (clock release length t rest served) (rest.diff served) p := by
  induction served generalizing t rest with
  | nil => simp [Greedy, clock]
  | cons r served ih =>
    rw [List.cons_append, Greedy, Greedy, ih, and_assoc, clock, List.diff_cons]

/-- What is left when `served` is taken. -/
theorem diff_perm (h : (served ++ left).Perm rest) : (rest.diff served).Perm left := by
  have hsub : served.Subperm rest := (List.sublist_append_left served left).subperm.trans h.subperm
  have hback := List.subperm_append_diff_self_of_count_le (List.subperm_ext_iff.1 hsub)
  exact (List.perm_append_left_iff served).1 (hback.trans h.symm)

omit [DecidableEq α] [AddCommMonoid T] in
/-- The pick does not depend on the order. -/
theorem Picks.congr (h : rest.Perm left) : Picks release key t rest p ↔ Picks release key t left p := by
  constructor
  · rintro ⟨hp, harr, hleast⟩
    exact ⟨h.subset hp, harr, fun r hr => hleast r (h.symm.subset hr)⟩
  · rintro ⟨hp, harr, hleast⟩
    exact ⟨h.symm.subset hp, harr, fun r hr => hleast r (h.subset hr)⟩

/-- The end of the last job of `served`, when each starts at the end of the one before or at its own
    release. -/
def finish (release length : α → T) (t : T) (served : List α) : T :=
  served.foldl (fun t p => max t (release p) + length p) t

omit [DecidableEq α] in
theorem finish_concat : finish release length t (served ++ [p]) =
    max (finish release length t served) (release p) + length p := List.foldl_concat _ _ _ _

omit [DecidableEq α] [LinearOrder T] in
theorem earliest_le [LinearOrder T] (hp : p ∈ rest) : earliest release rest ≤ release p := by
  unfold earliest
  cases hmin : (rest.map release).min? with
  | none =>
    rw [List.min?_eq_none_iff, List.map_eq_nil_iff] at hmin
    rw [hmin] at hp
    cases hp
  | some a => exact (List.min?_eq_some_iff.1 hmin).2 _ (List.mem_map_of_mem hp)

omit [DecidableEq α] [LinearOrder T] in
theorem le_earliest [LinearOrder T] (hne : rest ≠ []) (h : ∀ r ∈ rest, t ≤ release r) :
    t ≤ earliest release rest := by
  unfold earliest
  cases hmin : (rest.map release).min? with
  | none => exact absurd (List.map_eq_nil_iff.1 (List.min?_eq_none_iff.1 hmin)) hne
  | some a =>
    obtain ⟨r, hr, rfl⟩ := List.mem_map.1 (List.min?_mem hmin)
    exact h r hr

/-- The next job starts at the end of the last one, or at the next release. -/
theorem clock_eq (h : Greedy release length key (max t (earliest release rest)) rest served) :
    clock release length (max t (earliest release rest)) rest served =
      max (finish release length t served) (earliest release (rest.diff served)) := by
  induction served generalizing t rest with
  | nil => rfl
  | cons p served ih =>
    obtain ⟨⟨hp, hcome, -⟩, hrest⟩ := h
    -- `p` starts at its release, or when it is its turn
    have hturn : max t (earliest release rest) = max t (release p) :=
      le_antisymm (max_le_max le_rfl (earliest_le hp)) (max_le (le_max_left _ _) hcome)
    rw [hturn] at hrest ⊢
    rw [clock, ih hrest, List.diff_cons]
    rfl

end OsBasics.Lib
