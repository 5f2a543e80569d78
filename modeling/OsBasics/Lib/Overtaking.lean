/-
  Jobs that wait for one another.

  `waits` adds up how long each job of a list waits for those in front of it. `Overtakes`:
  the jobs of a list are picked one at a time, and a pick overtakes only jobs that last as
  long as it does, or longer. Then the waiting times never add up to more than they do in
  the order of the list (`Overtakes.waits_le`).
-/
import Mathlib.Algebra.Order.Monoid.Defs

namespace OsBasics.Lib

variable {α T : Type} [AddCommMonoid T] {w : α → T} {x a : α} {A B l l' queue rest : List α}

/-- The total of the waiting times: every job behind the first waits for it. -/
def waits (w : α → T) : List α → T
  | [] => 0
  | x :: l => l.length • w x + waits w l

theorem waits_cons : waits w (x :: l) = l.length • w x + waits w l := rfl

section Order

variable [PartialOrder T] [IsOrderedAddMonoid T]

theorem waits_cons_le (hlen : l.length = l'.length) (h : waits w l ≤ waits w l') :
    waits w (x :: l) ≤ waits w (x :: l') := by
  rw [waits_cons, waits_cons, hlen]
  exact add_le_add_right h _

theorem waits_append_le (hlen : l.length = l'.length) (h : waits w l ≤ waits w l') :
    waits w (queue ++ l) ≤ waits w (queue ++ l') := by
  induction queue with
  | nil => exact h
  | cons p queue ih => exact waits_cons_le (by simp [hlen]) ih

/-- Of two neighbours the shorter one had better be first. -/
theorem waits_swap (h : w x ≤ w a) : waits w (x :: a :: l) ≤ waits w (a :: x :: l) := by
  calc waits w (x :: a :: l) = w x + (l.length • w x + l.length • w a + waits w l) := by
        rw [waits_cons, waits_cons, List.length_cons, succ_nsmul']
        simp only [add_assoc]
    _ ≤ w a + (l.length • w x + l.length • w a + waits w l) := add_le_add_left h _
    _ = waits w (a :: x :: l) := by
        rw [waits_cons, waits_cons, List.length_cons, succ_nsmul', add_comm (l.length • w x)]
        simp only [add_assoc]

/-- A job that is moved to the front overtakes one neighbour after the other. -/
theorem waits_move (h : ∀ a ∈ A, w x ≤ w a) :
    waits w (x :: (A ++ B)) ≤ waits w (A ++ x :: B) := by
  induction A with
  | nil => exact le_rfl
  | cons a A ih =>
    calc waits w (x :: a :: (A ++ B)) ≤ waits w (a :: x :: (A ++ B)) :=
          waits_swap (h a List.mem_cons_self)
      _ ≤ waits w (a :: (A ++ x :: B)) :=
          waits_cons_le List.perm_middle.length_eq.symm (ih fun b hb => h b (List.mem_cons_of_mem _ hb))

/-- The jobs `queue` are picked out of `l` and `rest` is left, in the order of `l`. -/
inductive Overtakes (w : α → T) (l : List α) : List α → List α → Prop
  | start : Overtakes w l [] l
  | pick {queue A B : List α} {x : α} (h : Overtakes w l queue (A ++ x :: B))
    (hlong : ∀ a ∈ A, w x ≤ w a) : Overtakes w l (queue ++ [x]) (A ++ B)

omit [AddCommMonoid T] [IsOrderedAddMonoid T] in
/-- Every job is picked once or left. -/
theorem Overtakes.perm (h : Overtakes w l queue rest) : (queue ++ rest).Perm l := by
  induction h with
  | start => exact .refl _
  | @pick queue A B x h hlong ih =>
    rw [List.append_assoc, List.singleton_append]
    exact (List.perm_middle.symm.append_left queue).trans ih

/-- Nobody pays for what is overtaken. -/
theorem Overtakes.waits_le (h : Overtakes w l queue rest) : waits w (queue ++ rest) ≤ waits w l := by
  induction h with
  | start => exact le_rfl
  | @pick queue A B x h hlong ih =>
    rw [List.append_assoc, List.singleton_append]
    exact (waits_append_le List.perm_middle.length_eq.symm (waits_move hlong)).trans ih

end Order

end OsBasics.Lib
