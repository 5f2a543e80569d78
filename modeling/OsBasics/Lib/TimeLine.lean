/-
  Time lines.

  Jobs that run one after another give a time line, the name of each as often as it has
  slots. `timeLine_split` finds the job a slot belongs to, `timeLine_at` the slots of a
  job, and `count_timeLine` what a job has had. `forall_split_cons` goes through the
  jobs with those before and after them.
-/
import Mathlib.Algebra.GroupWithZero.Nat
import Mathlib.Data.List.Basic
import Mathlib.Data.List.Nodup

namespace OsBasics.Lib

variable {α β : Type} {name : α → β} {size : α → Nat} {jobs jobs' l l' : List α} {p : α}
  {before after : List β} {b : β} {u : Nat}

/-- The time line of `jobs`. -/
def timeLine (name : α → β) (size : α → Nat) (jobs : List α) : List β :=
  jobs.flatMap fun p => List.replicate (size p) (name p)

@[simp] theorem timeLine_nil : timeLine name size [] = [] := rfl

theorem timeLine_cons : timeLine name size (p :: jobs) =
    List.replicate (size p) (name p) ++ timeLine name size jobs := rfl

@[simp] theorem timeLine_append : timeLine name size (jobs ++ jobs') =
    timeLine name size jobs ++ timeLine name size jobs' := List.flatMap_append

theorem timeLine_length : (timeLine name size jobs).length = (jobs.map size).sum := by
  simp [timeLine, List.length_flatMap]

/-- A slot belongs to a job, which has had `u` slots before it. -/
theorem timeLine_split (h : timeLine name size jobs = before ++ b :: after) :
    ∃ l p l' u, jobs = l ++ p :: l' ∧ u < size p ∧ b = name p ∧
      before = timeLine name size l ++ List.replicate u (name p) := by
  induction jobs generalizing before with
  | nil => simp at h
  | cons p jobs ih =>
    rw [timeLine_cons, List.append_eq_append_iff] at h
    obtain ⟨before', hbefore, hrest⟩ | ⟨more, hp, hrest⟩ := h
    · obtain ⟨l, r, l', u, rfl, hu, hb, rfl⟩ := ih hrest
      exact ⟨p :: l, r, l', u, rfl, hu, hb, by rw [hbefore, timeLine_cons, List.append_assoc]⟩
    · cases more with
      | nil =>
        obtain ⟨l, r, l', u, rfl, hu, hb, hnil⟩ := ih (show timeLine name size jobs = [] ++ b :: after from hrest.symm)
        rw [List.append_nil] at hp
        refine ⟨p :: l, r, l', u, rfl, hu, hb, ?_⟩
        rw [timeLine_cons, List.append_assoc, ← hnil, hp, List.append_nil]
      | cons c more =>
        rw [List.cons_append, List.cons.injEq] at hrest
        obtain ⟨rfl, -⟩ := hrest
        obtain ⟨hlen, hbefore, hmore⟩ := List.append_eq_replicate_iff.1 hp.symm
        rw [List.length_cons] at hlen
        refine ⟨[], p, jobs, before.length, rfl, by omega, ?_, by simpa using hbefore⟩
        rw [List.length_cons, List.replicate_succ, List.cons.injEq] at hmore
        exact hmore.1

/-- The slots of a job. -/
theorem timeLine_at (l l' : List α) (h : u < size p) : timeLine name size (l ++ p :: l') =
    (timeLine name size l ++ List.replicate u (name p)) ++
      name p :: (List.replicate (size p - u - 1) (name p) ++ timeLine name size l') := by
  have hslots : List.replicate (size p) (name p) =
      List.replicate u (name p) ++ name p :: List.replicate (size p - u - 1) (name p) := by
    rw [← List.replicate_succ, List.replicate_append_replicate]
    congr 1
    omega
  rw [timeLine_append, timeLine_cons, hslots]
  simp only [List.append_assoc, List.cons_append]

/-- The splits of a list at one of its members. -/
theorem forall_split_cons {P : List α → α → List α → Prop} :
    (∀ l c l', p :: jobs = l ++ c :: l' → P l c l') ↔
      P [] p jobs ∧ ∀ l c l', jobs = l ++ c :: l' → P (p :: l) c l' := by
  constructor
  · intro h
    exact ⟨h [] p jobs rfl, fun l c l' hl => h (p :: l) c l' (by rw [hl]; rfl)⟩
  · rintro ⟨hfirst, hrest⟩ l c l' hl
    cases l with
    | nil =>
      obtain ⟨rfl, rfl⟩ := List.cons.inj hl
      exact hfirst
    | cons d l =>
      obtain ⟨rfl, htail⟩ := List.cons.inj hl
      exact hrest l c l' htail

theorem forall_split_append {more : List α} {P : List α → α → List α → Prop} :
    (∀ l c l', jobs ++ more = l ++ c :: l' → P l c l') ↔
      (∀ l c l', jobs = l ++ c :: l' → P l c (l' ++ more)) ∧
        ∀ l c l', more = l ++ c :: l' → P (jobs ++ l) c l' := by
  induction jobs generalizing P with
  | nil => simp
  | cons p jobs ih =>
    rw [List.cons_append, forall_split_cons, forall_split_cons (P := fun l c l' => P l c (l' ++ more)),
      ih (P := fun l c l' => P (p :: l) c l'), and_assoc]
    rfl

theorem forall_split_concat {P : List α → α → List α → Prop} :
    (∀ l c l', jobs ++ [p] = l ++ c :: l' → P l c l') ↔
      (∀ l c l', jobs = l ++ c :: l' → P l c (l' ++ [p])) ∧ P jobs p [] := by
  rw [forall_split_append, forall_split_cons (P := fun l c l' => P (jobs ++ l) c l'), List.append_nil]
  exact and_congr_right fun _ => and_iff_left fun l c l' hl => by simp at hl

/-- What goes between two parts of a list goes in front of a member or behind it. -/
theorem split_insert {A B : List α} (h : A ++ B = l ++ p :: l') (c : α) :
    (∃ l₁, l₁.Perm (c :: l) ∧ A ++ c :: B = l₁ ++ p :: l') ∨ ∃ A₁, A = l ++ p :: A₁ ∧ A₁ ++ B = l' := by
  obtain ⟨l₀, rfl, rfl⟩ | ⟨A₀, rfl, hA⟩ := List.append_eq_append_iff.1 h
  · exact .inl ⟨A ++ c :: l₀, List.perm_middle, by simp⟩
  · obtain ⟨rfl, rfl⟩ | ⟨A₁, rfl, rfl⟩ := List.cons_eq_append_iff.1 hA
    · exact .inl ⟨l ++ [c], List.perm_append_singleton c l, by simp⟩
    · exact .inr ⟨A₁, rfl, rfl⟩

/-- A time line has the same slots in any order of the jobs. -/
theorem timeLine_perm (h : jobs.Perm jobs') : (timeLine name size jobs).Perm (timeLine name size jobs') :=
  h.flatMap_right _

variable [DecidableEq β]

/-- A name that is not there has no slots. -/
theorem count_timeLine_of_notMem (h : b ∉ jobs.map name) : (timeLine name size jobs).count b = 0 := by
  refine List.count_eq_zero.2 fun hb => h ?_
  obtain ⟨p, hp, hmem⟩ := List.mem_flatMap.1 hb
  rw [List.eq_of_mem_replicate hmem]
  exact List.mem_map_of_mem hp

/-- When names are distinct a job has its own slots. -/
theorem count_timeLine (hnd : (jobs.map name).Nodup) (h : p ∈ jobs) :
    (timeLine name size jobs).count (name p) = size p := by
  obtain ⟨l, l', rfl⟩ := List.append_of_mem h
  rw [List.map_append, List.map_cons] at hnd
  obtain ⟨hl, hl'⟩ : name p ∉ l.map name ∧ name p ∉ l'.map name := by
    have hmid := (List.nodup_middle.1 hnd)
    rw [List.nodup_cons, List.mem_append, not_or] at hmid
    exact hmid.1
  rw [timeLine_append, timeLine_cons, List.count_append, List.count_append, List.count_replicate_self,
    count_timeLine_of_notMem hl, count_timeLine_of_notMem hl']
  omega

end OsBasics.Lib
