/-
  Cutting a list twice.

  `List.splitBy r` cuts between neighbours that `r` does not relate. Cutting by `r` and
  then every piece by `s` is cutting by both (`flatMap_splitBy`), so the two cuts can be
  made in either order.
-/
import Mathlib.Data.List.SplitBy

namespace OsBasics.Lib

universe u

variable {α β : Type u} {r s : α → α → Bool}

theorem isChain_and {R S : α → α → Prop} {l : List α} (hr : l.IsChain R) (hs : l.IsChain S) :
    l.IsChain fun a b => R a b ∧ S a b := by
  induction hr with
  | nil => exact .nil
  | singleton a => exact .singleton a
  | cons_cons hab _ ih =>
    obtain ⟨hab', hs⟩ := List.isChain_cons_cons.1 hs
    exact .cons_cons ⟨hab, hab'⟩ (ih hs)

/-- A list that `r` does not cut. -/
theorem splitBy_and_of_isChain {l : List α} (h : l.IsChain fun a b => r a b) :
    l.splitBy (fun a b => r a b && s a b) = l.splitBy s := by
  refine List.splitBy_eq_iff.2 ⟨(List.flatten_splitBy s l).symm, List.nil_notMem_splitBy s l,
    fun m hm => ?_, ?_⟩
  · have hinfix : m <:+: l := by
      have hflat := List.infix_of_mem_flatten hm
      rwa [List.flatten_splitBy] at hflat
    have hs := List.isChain_of_mem_splitBy hm
    have hr : m.IsChain fun a b => r a b := List.IsChain.infix h hinfix
    refine (isChain_and hr hs).imp fun a b hab => ?_
    rw [hab.1, hab.2, Bool.and_self]
  · refine (List.isChain_getLast_head_splitBy s l).imp fun a b => ?_
    rintro ⟨ha, hb, hcut⟩
    exact ⟨ha, hb, by rw [hcut, Bool.and_false]⟩

/-- Cutting by `r`, and every piece by `s`. -/
theorem flatMap_splitBy (r s : α → α → Bool) (l : List α) :
    (l.splitBy r).flatMap (List.splitBy s) = l.splitBy fun a b => r a b && s a b := by
  have hall : ∀ ls : List (List α), [] ∉ ls → (∀ m ∈ ls, m.IsChain fun a b => r a b) →
      (ls.IsChain fun a b => ∃ ha hb, r (a.getLast ha) (b.head hb) = false) →
      ls.flatMap (List.splitBy s) = ls.flatten.splitBy fun a b => r a b && s a b := by
    intro ls hnil hchain hcut
    induction ls with
    | nil => rfl
    | cons m ls ih =>
      rw [List.mem_cons, not_or] at hnil
      rw [List.flatMap_cons, List.flatten_cons, List.splitBy_append,
        splitBy_and_of_isChain (hchain m List.mem_cons_self),
        ih hnil.2 (fun m' hm' => hchain m' (List.mem_cons_of_mem m hm')) hcut.tail]
      intro x hx y hy
      cases ls with
      | nil => cases hy
      | cons m' ls =>
        obtain ⟨hm, hm', hxy⟩ := (List.isChain_cons_cons.1 hcut).1
        rw [List.getLast?_eq_some_getLast hm, Option.mem_some] at hx
        rw [List.flatten_cons, List.head?_append_of_ne_nil _ hm', List.head?_eq_some_head hm',
          Option.mem_some] at hy
        rw [← hx, ← hy, hxy, Bool.false_and]
  have h := hall (l.splitBy r) (List.nil_notMem_splitBy r l)
    (fun m hm => List.isChain_of_mem_splitBy hm) (List.isChain_getLast_head_splitBy r l)
  rwa [List.flatten_splitBy] at h

/-- Cutting by what a function makes of the elements. -/
theorem splitBy_map {r : β → β → Bool} (f : α → β) (l : List α) :
    (l.map f).splitBy r = (l.splitBy fun a b => r (f a) (f b)).map (List.map f) := by
  refine List.splitBy_eq_iff.2 ⟨?_, ?_, ?_, ?_⟩
  · rw [← List.map_flatten, List.flatten_splitBy]
  · intro h
    obtain ⟨m, hm, hnil⟩ := List.mem_map.1 h
    exact List.ne_nil_of_mem_splitBy hm (List.map_eq_nil_iff.1 hnil)
  · intro m hm
    obtain ⟨k, hk, rfl⟩ := List.mem_map.1 hm
    rw [List.isChain_map]
    exact List.isChain_of_mem_splitBy hk
  · rw [List.isChain_map]
    refine (List.isChain_getLast_head_splitBy _ l).imp fun a b => ?_
    rintro ⟨ha, hb, hcut⟩
    refine ⟨fun h => ha (List.map_eq_nil_iff.1 h), fun h => hb (List.map_eq_nil_iff.1 h), ?_⟩
    rw [List.getLast_map, List.head_map, hcut]

theorem splitBy_cons_of_cut {a : α} {l : List α} (h : ∀ b ∈ l.head?, r a b = false) :
    (a :: l).splitBy r = [a] :: l.splitBy r := by
  refine List.splitBy_append (l := [a]) (m := l) fun x hx y hy => ?_
  rw [List.getLast?_singleton, Option.mem_some] at hx
  rw [← hx]
  exact h y hy

theorem splitBy_cons_of_join {a b : α} {l m : List α} {ms : List (List α)} (h : r a b)
    (hl : (b :: l).splitBy r = m :: ms) : (a :: b :: l).splitBy r = (a :: m) :: ms := by
  obtain ⟨hflat, hnil, hchain, hcut⟩ := List.splitBy_eq_iff.1 hl
  cases m with
  | nil => exact absurd List.mem_cons_self hnil
  | cons b' m =>
    obtain ⟨rfl, hl⟩ := List.cons.inj hflat
    refine List.splitBy_eq_iff.2 ⟨by rw [hflat]; rfl, ?_, ?_, ?_⟩
    · intro hmem
      rcases List.mem_cons.1 hmem with hmem | hmem
      · cases hmem
      · exact hnil (List.mem_cons_of_mem _ hmem)
    · intro k hk
      rcases List.mem_cons.1 hk with rfl | hk
      · exact List.isChain_cons_cons.2 ⟨h, hchain _ List.mem_cons_self⟩
      · exact hchain k (List.mem_cons_of_mem _ hk)
    · cases ms with
      | nil => exact List.isChain_singleton _
      | cons k ms =>
        obtain ⟨⟨ha, hb, hab⟩, htail⟩ := List.isChain_cons_cons.1 hcut
        exact List.isChain_cons_cons.2
          ⟨⟨List.cons_ne_nil _ _, hb, by rw [List.getLast_cons ha]; exact hab⟩, htail⟩

end OsBasics.Lib
