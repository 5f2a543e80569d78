/-
  Linked lists that end in a null pointer.

  `NullList null next p l` says that the pointers from `p` along `next` are the
  nodes `l`, in this order, and then `null`. A list of this kind meets no node
  twice (`NullList.nodup`), so when `next` takes fewer than `N` values it has at
  most `N` nodes (`NullList.length_le`).

  `DList` is the doubly linked kind: `prev` leads from the last node back to the
  first. A node is put before the first (`DList.pushFront`), after the last
  (`DList.pushBack`) or taken out (`DList.remove`) by changing the links of the
  node and of its neighbours.
-/
import Mathlib.Data.List.Nodup
import Mathlib.Data.Finset.Card
import Mathlib.Data.Finset.Range

namespace OsBasics.Lib

variable {α : Type*} {null : α} {next next' : α → α} {p : α} {l l₁ l₂ : List α}

/-- The nodes from `p` along `next` are `l`, and `null` comes after the last one. -/
def NullList (null : α) (next : α → α) : α → List α → Prop
  | p, [] => p = null
  | p, x :: l => p = x ∧ x ≠ null ∧ NullList null next (next x) l

namespace NullList

instance decidable [DecidableEq α] (null : α) (next : α → α) :
    (p : α) → (l : List α) → Decidable (NullList null next p l)
  | p, [] => inferInstanceAs (Decidable (p = null))
  | p, x :: l =>
    have : Decidable (NullList null next (next x) l) := decidable null next (next x) l
    inferInstanceAs (Decidable (p = x ∧ x ≠ null ∧ NullList null next (next x) l))

theorem nil_iff : NullList null next p [] ↔ p = null := Iff.rfl

theorem nil_of_null (h : NullList null next null l) : l = [] := by
  cases l with
  | nil => rfl
  | cons x l => exact absurd h.1.symm h.2.1

/-- A pointer heads one list only. -/
theorem unique (h₁ : NullList null next p l₁) (h₂ : NullList null next p l₂) : l₁ = l₂ := by
  induction l₁ generalizing p l₂ with
  | nil =>
    rw [nil_iff] at h₁
    subst h₁
    exact h₂.nil_of_null.symm
  | cons x l₁ ih =>
    obtain ⟨rfl, hx, h₁⟩ := h₁
    cases l₂ with
    | nil => exact absurd h₂ hx
    | cons y l₂ =>
      obtain ⟨rfl, -, h₂⟩ := h₂
      rw [ih h₁ h₂]

/-- The nodes from a node of the list on are a list of its own. -/
theorem suffix {x : α} (h : NullList null next p (l₁ ++ x :: l₂)) :
    NullList null next x (x :: l₂) := by
  induction l₁ generalizing p with
  | nil => exact ⟨rfl, h.2⟩
  | cons y l₁ ih => exact ih h.2.2

theorem ne_null {x : α} (h : NullList null next p l) (hx : x ∈ l) : x ≠ null := by
  obtain ⟨l₁, l₂, rfl⟩ := List.append_of_mem hx
  exact h.suffix.2.1

theorem nodup (h : NullList null next p l) : l.Nodup := by
  induction l generalizing p with
  | nil => exact List.nodup_nil
  | cons x l ih =>
    refine List.nodup_cons.2 ⟨fun hx => ?_, ih h.2.2⟩
    -- a second `x` heads a shorter list than the first one
    obtain ⟨l₁, l₂, rfl⟩ := List.append_of_mem hx
    have hlong : NullList null next x (x :: (l₁ ++ x :: l₂)) := ⟨rfl, h.2⟩
    have hlen := congrArg List.length (hlong.unique h.2.2.suffix)
    simp only [List.length_cons, List.length_append] at hlen
    omega

/-- A list depends on the links of its own nodes only. -/
theorem congr (h : NullList null next p l) (hn : ∀ x ∈ l, next' x = next x) :
    NullList null next' p l := by
  induction l generalizing p with
  | nil => exact h
  | cons x l ih =>
    refine ⟨h.1, h.2.1, ?_⟩
    rw [hn x List.mem_cons_self]
    exact ih h.2.2 fun y hy => hn y (List.mem_cons_of_mem _ hy)

theorem head_eq (h : NullList null next p l) : p = l.head?.getD null := by
  cases l with
  | nil => exact h
  | cons x l => exact h.1

/-- A link out of the list leads into the list or nowhere. -/
theorem next_mem {x : α} (h : NullList null next p l) (hx : x ∈ l) :
    next x = null ∨ next x ∈ l := by
  obtain ⟨l₁, l₂, rfl⟩ := List.append_of_mem hx
  have hrest := h.suffix.2.2
  cases l₂ with
  | nil => exact .inl hrest
  | cons y l₂ =>
    refine .inr ?_
    rw [hrest.1]
    simp

/-- No link of a list leads to its first node. -/
theorem next_ne_head {x : α} (h : NullList null next p l) (hx : x ∈ l) : next x ≠ p := by
  intro heq
  have hnodup := h.nodup
  have hhead := h.head_eq
  obtain ⟨l₁, l₂, rfl⟩ := List.append_of_mem hx
  have hrest := h.suffix.2.2
  rw [heq] at hrest
  cases l₂ with
  | nil =>
    have hmem : p ∈ l₁ ++ [x] := by
      cases l₁ with
      | nil => rw [hhead]; simp
      | cons y l₁ => rw [hhead]; simp
    exact h.ne_null hmem hrest
  | cons z l₂ =>
    obtain ⟨rfl, -⟩ := hrest
    cases l₁ with
    | nil =>
      rw [hhead] at hnodup
      simp at hnodup
    | cons y l₁ =>
      rw [hhead] at hnodup
      simp at hnodup

/-- Two nodes of a list do not lead to the same node. -/
theorem next_inj {x y : α} (h : NullList null next p l) (hx : x ∈ l) (hy : y ∈ l)
    (heq : next x = next y) : x = y := by
  induction l generalizing p with
  | nil => cases hx
  | cons z l ih =>
    rcases List.mem_cons.1 hx with rfl | hx'
    · rcases List.mem_cons.1 hy with rfl | hy'
      · rfl
      · exact absurd heq.symm (h.2.2.next_ne_head hy')
    · rcases List.mem_cons.1 hy with rfl | hy'
      · exact absurd heq (h.2.2.next_ne_head hx')
      · exact ih h.2.2 hx' hy'

section Update

variable [DecidableEq α] {x y t v : α}

/-- The link of a node outside the list does not matter. -/
theorem update_of_notMem (h : NullList null next p l) (hx : x ∉ l) :
    NullList null (Function.update next x v) p l :=
  h.congr fun y hy => Function.update_of_ne (by rintro rfl; exact hx hy) _ _

/-- A new node before the first. -/
theorem push (h : NullList null next p l) (hx : x ∉ l) (h0 : x ≠ null) :
    NullList null (Function.update next x p) x (x :: l) := by
  refine ⟨rfl, h0, ?_⟩
  rw [Function.update_self]
  exact h.update_of_notMem hx

/-- A new node after the last. -/
theorem append (h : NullList null next p (l ++ [t])) (hx : x ∉ l ++ [t]) (h0 : x ≠ null)
    (hn : next x = null) : NullList null (Function.update next t x) p (l ++ [t, x]) := by
  have hxt : x ≠ t := fun heq => hx (by simp [heq])
  induction l generalizing p with
  | nil =>
    refine ⟨h.1, h.2.1, ?_⟩
    rw [Function.update_self]
    refine ⟨rfl, h0, ?_⟩
    rw [Function.update_of_ne hxt]
    exact hn
  | cons y l ih =>
    have hyt : y ≠ t := by
      rintro rfl
      exact (List.nodup_cons.1 h.nodup).1 (by simp)
    refine ⟨h.1, h.2.1, ?_⟩
    rw [Function.update_of_ne hyt]
    exact ih h.2.2 fun hmem => hx (List.mem_cons_of_mem _ hmem)

/-- Skip the node after `y`. -/
theorem skip (h : NullList null next p (l₁ ++ y :: x :: l₂)) :
    NullList null (Function.update next y (next x)) p (l₁ ++ y :: l₂) := by
  induction l₁ generalizing p with
  | nil =>
    have hy : y ∉ l₂ := fun hmem => (List.nodup_cons.1 h.nodup).1 (List.mem_cons_of_mem _ hmem)
    refine ⟨h.1, h.2.1, ?_⟩
    rw [Function.update_self]
    exact h.2.2.2.2.update_of_notMem hy
  | cons z l₁ ih =>
    have hzy : z ≠ y := by
      rintro rfl
      exact (List.nodup_cons.1 h.nodup).1 (by simp)
    refine ⟨h.1, h.2.1, ?_⟩
    rw [Function.update_of_ne hzy]
    exact ih h.2.2

end Update

end NullList

/-- Links below `N` make a list of at most `N` nodes. -/
theorem NullList.length_le {next : Nat → Nat} {p N : Nat} {l : List Nat}
    (h : NullList 0 next p l) (hpos : 0 < N) (hlt : ∀ q, next q < N) : l.length ≤ N := by
  cases l with
  | nil => exact Nat.zero_le _
  | cons x l =>
    -- every node after the first is a link, and none is 0
    have hmem : ∀ y ∈ l, y < N ∧ y ≠ 0 := by
      intro y hy
      refine ⟨?_, h.2.2.ne_null hy⟩
      obtain ⟨l₁, l₂, rfl⟩ := List.append_of_mem hy
      have hlink := h.2.2
      clear h hy
      generalize x = z at hlink
      induction l₁ generalizing z with
      | nil => exact hlink.1 ▸ hlt z
      | cons w l₁ ih => exact ih w hlink.2.2
    have hsub : l.toFinset ⊆ (Finset.range N).erase 0 := by
      intro y hy
      rw [List.mem_toFinset] at hy
      exact Finset.mem_erase.2 ⟨(hmem y hy).2, Finset.mem_range.2 (hmem y hy).1⟩
    have hcard := Finset.card_le_card hsub
    rw [List.toFinset_card_of_nodup h.2.2.nodup, Finset.card_erase_of_mem (by simpa using hpos),
      Finset.card_range] at hcard
    rw [List.length_cons]
    omega

/-- A doubly linked list: `next` leads from `p` through `l`, `prev` from `t` back. -/
structure DList (null : α) (next prev : α → α) (p t : α) (l : List α) : Prop where
  fwd : NullList null next p l
  bwd : NullList null prev t l.reverse

namespace DList

variable {prev prev' : α → α} {t x : α}

theorem nil : DList null next prev null null [] := ⟨rfl, rfl⟩

theorem reverse (h : DList null next prev p t l) : DList null prev next t p l.reverse :=
  ⟨h.bwd, by rw [List.reverse_reverse]; exact h.fwd⟩

theorem reverse_at (h : DList null next prev p t (l₁ ++ x :: l₂)) :
    DList null prev next t p (l₂.reverse ++ x :: l₁.reverse) := by
  have hrev := h.reverse
  rw [List.reverse_append, List.reverse_cons, List.append_assoc, List.singleton_append] at hrev
  exact hrev

theorem congr (h : DList null next prev p t l) (hn : ∀ x ∈ l, next' x = next x)
    (hp : ∀ x ∈ l, prev' x = prev x) : DList null next' prev' p t l :=
  ⟨h.fwd.congr hn, h.bwd.congr fun x hx => hp x (List.mem_reverse.1 hx)⟩

theorem next_eq (h : DList null next prev p t (l₁ ++ x :: l₂)) : next x = l₂.head?.getD null :=
  h.fwd.suffix.2.2.head_eq

theorem prev_eq (h : DList null next prev p t (l₁ ++ x :: l₂)) : prev x = l₁.getLast?.getD null := by
  rw [h.reverse_at.next_eq, List.head?_reverse]

theorem prev_mem (h : DList null next prev p t (l₁ ++ x :: l₂)) : prev x = null ∨ prev x ∈ l₁ := by
  rw [h.prev_eq]
  obtain rfl | ⟨l₁, y, rfl⟩ := List.eq_nil_or_concat l₁
  · exact .inl rfl
  · exact .inr (by simp)

theorem next_mem (h : DList null next prev p t (l₁ ++ x :: l₂)) : next x = null ∨ next x ∈ l₂ := by
  rw [h.next_eq]
  cases l₂ with
  | nil => exact .inl rfl
  | cons y l₂ => exact .inr (by simp)

theorem prev_eq_null_iff (h : DList null next prev p t (l₁ ++ x :: l₂)) :
    prev x = null ↔ l₁ = [] := by
  rw [h.prev_eq]
  obtain rfl | ⟨l₁, y, rfl⟩ := List.eq_nil_or_concat l₁
  · exact ⟨fun _ => rfl, fun _ => rfl⟩
  · rw [List.concat_eq_append, List.getLast?_concat, Option.getD_some]
    exact ⟨fun hnull => absurd hnull (h.fwd.ne_null (by simp)), fun hnil => by simp at hnil⟩

theorem next_eq_null_iff (h : DList null next prev p t (l₁ ++ x :: l₂)) :
    next x = null ↔ l₂ = [] := by
  rw [h.reverse_at.prev_eq_null_iff, List.reverse_eq_nil_iff]

/-- Nothing is before the first node. -/
theorem prev_head (h : DList null next prev p t (x :: l)) : prev x = null :=
  (show DList null next prev p t ([] ++ x :: l) from h).prev_eq_null_iff.2 rfl

/-- The node without a node before it is the first. -/
theorem first_iff (h : DList null next prev p t (l₁ ++ x :: l₂)) : p = x ↔ prev x = null := by
  rw [h.prev_eq_null_iff]
  cases l₁ with
  | nil => exact ⟨fun _ => rfl, fun _ => h.fwd.1⟩
  | cons y l₁ =>
    refine ⟨?_, fun hnil => by simp at hnil⟩
    -- the first node of a list that does not start with `x`
    rintro rfl
    have hnodup := h.fwd.nodup
    rw [← h.fwd.1] at hnodup
    simp at hnodup

theorem last_iff (h : DList null next prev p t (l₁ ++ x :: l₂)) : t = x ↔ next x = null :=
  h.reverse_at.first_iff

variable [DecidableEq α]

/-- A new node before the first, as the links of it and of the first node are set. -/
theorem pushFront (h : DList null next prev p t l) (hx : x ∉ l) (h0 : x ≠ null) :
    DList null (Function.update next x p)
      (if p ≠ null then Function.update (Function.update prev x null) p x
        else Function.update prev x null) x (if p ≠ null then t else x) (x :: l) := by
  refine ⟨h.fwd.push hx h0, ?_⟩
  cases l with
  | nil =>
    rw [if_neg (fun hp => hp h.fwd), if_neg (fun hp => hp h.fwd)]
    exact ⟨rfl, h0, Function.update_self ..⟩
  | cons y l =>
    obtain ⟨rfl, hp, -⟩ := h.fwd
    rw [if_pos hp, if_pos hp, List.reverse_cons, List.reverse_cons, List.append_assoc]
    have hx' : x ∉ l.reverse ++ [p] := by
      rw [← List.reverse_cons, List.mem_reverse]
      exact hx
    refine NullList.append ?_ hx' h0 (Function.update_self ..)
    rw [← List.reverse_cons]
    exact h.bwd.update_of_notMem (mt List.mem_reverse.1 hx)

/-- A new node after the last. -/
theorem pushBack (h : DList null next prev p t l) (hl : l ≠ []) (hx : x ∉ l) (h0 : x ≠ null) :
    DList null (Function.update (Function.update next x null) t x) (Function.update prev x t) p x
      (l ++ [x]) := by
  have hrev := h.reverse.pushFront (by simpa using hx) h0
  have ht : t ≠ null := by
    rw [h.bwd.head_eq]
    obtain rfl | ⟨l, y, rfl⟩ := List.eq_nil_or_concat l
    · exact absurd rfl hl
    · rw [List.concat_eq_append, List.reverse_append]
      exact h.fwd.ne_null (by simp)
  rw [if_pos ht, if_pos ht] at hrev
  have hback := hrev.reverse
  rw [List.reverse_cons, List.reverse_reverse] at hback
  exact hback

theorem remove_fwd (h : DList null next prev p t (l₁ ++ x :: l₂)) :
    NullList null (if prev x ≠ null then Function.update next (prev x) (next x) else next)
      (if prev x ≠ null then p else next x) (l₁ ++ l₂) := by
  rw [h.prev_eq]
  obtain rfl | ⟨l₁, y, rfl⟩ := List.eq_nil_or_concat l₁
  · rw [if_neg (fun hne => hne rfl), if_neg (fun hne => hne rfl)]
    exact h.fwd.2.2
  · have hy : y ≠ null := h.fwd.ne_null (by simp)
    rw [List.concat_eq_append] at h ⊢
    rw [List.getLast?_concat, Option.getD_some, if_pos hy, if_pos hy]
    have hskip := h.fwd
    rw [List.append_assoc] at hskip ⊢
    exact hskip.skip

/-- Take out a node: its neighbours are linked to one another. -/
theorem remove (h : DList null next prev p t (l₁ ++ x :: l₂)) :
    DList null (if prev x ≠ null then Function.update next (prev x) (next x) else next)
      (if next x ≠ null then Function.update prev (next x) (prev x) else prev)
      (if prev x ≠ null then p else next x) (if next x ≠ null then t else prev x) (l₁ ++ l₂) := by
  refine ⟨h.remove_fwd, ?_⟩
  rw [List.reverse_append]
  exact h.reverse_at.remove_fwd

end DList

end OsBasics.Lib
