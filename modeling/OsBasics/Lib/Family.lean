/-
  Families of lists that share no node.

  A `Family` gives each of its heads a list of entries. Nodes are put behind or in front of a node
  of any of the lists, taken out, and a list is spliced into another; in none of these does a
  node get into two lists (`Apart.put`, `Apart.init`, `Apart.mono`). `Owns` says which list a node
  is in, and every operation is known by what it does to `Owns`.
-/
import Mathlib.Data.List.Basic
import Mathlib.Logic.Function.Basic
import Mathlib.Tactic.Tauto

namespace OsBasics.Lib

variable {ι : Type} {x z : ι} {pre post l A B : List ι}

section Around

variable [DecidableEq ι]

/-- `l` with `pre` in front of `x` and `post` behind it. -/
def putAround (x : ι) (pre post l : List ι) : List ι :=
  l.flatMap fun z => if z = x then pre ++ z :: post else [z]

theorem putAround_append : putAround x pre post (A ++ B) =
    putAround x pre post A ++ putAround x pre post B := List.flatMap_append

theorem putAround_of_notMem (h : x ∉ l) : putAround x pre post l = l := by
  induction l with
  | nil => rfl
  | cons z l ih =>
    obtain ⟨hz, hl⟩ := not_or.1 (mt List.mem_cons.2 h)
    rw [← List.singleton_append, putAround_append, ih hl]
    exact congrArg (· ++ l) (by simp [putAround, Ne.symm hz])

/-- Around the only `x` of a list. -/
theorem putAround_split (hA : x ∉ A) (hB : x ∉ B) :
    putAround x pre post (A ++ x :: B) = A ++ (pre ++ x :: post) ++ B := by
  rw [putAround_append, ← List.singleton_append, putAround_append, putAround_of_notMem hA,
    putAround_of_notMem hB, List.append_assoc]
  simp [putAround]

theorem mem_putAround :
    z ∈ putAround x pre post l ↔ z ∈ l ∨ x ∈ l ∧ (z ∈ pre ∨ z ∈ post) := by
  induction l with
  | nil => simp [putAround]
  | cons y l ih =>
    rw [← List.singleton_append, putAround_append, List.mem_append, ih]
    by_cases hy : y = x
    · subst hy
      simp only [putAround, List.flatMap_singleton, if_pos, List.mem_append, List.mem_cons,
        List.not_mem_nil, or_false]
      tauto
    · simp only [putAround, List.flatMap_singleton, if_neg hy, List.mem_append, List.mem_cons,
        List.not_mem_nil, or_false, Ne.symm hy, false_or]
      tauto

end Around

/-- Some heads, and the list of each. -/
structure Family (ι : Type) where
  heads : List ι
  entries : ι → List ι

namespace Family

variable (F : Family ι)

/-- `z` is the head `h` or one of its entries. -/
def Owns (h z : ι) : Prop := h ∈ F.heads ∧ z ∈ h :: F.entries h

/-- `x` is in some list. -/
def Linked (x : ι) : Prop := ∃ h, F.Owns h x

/-- `n` is in no list, or it is one without entries. -/
def Loose (n : ι) : Prop := ∀ h, F.Owns h n → h = n ∧ F.entries n = []

/-- No node is in two lists. -/
def Apart : Prop := ∀ h k z, F.Owns h z → F.Owns k z → h = k

section Operations

variable [DecidableEq ι]

instance (h z : ι) : Decidable (F.Owns h z) := inferInstanceAs (Decidable (_ ∧ _))

instance (x : ι) : Decidable (F.Linked x) :=
  decidable_of_iff (∃ h ∈ F.heads, x ∈ h :: F.entries h) (by simp only [Linked, Owns])

instance (n : ι) : Decidable (F.Loose n) :=
  decidable_of_iff (∀ h ∈ F.heads, n ∈ h :: F.entries h → h = n ∧ F.entries n = [])
    (by simp only [Loose, Owns, and_imp])

/-- `h` becomes a list without entries. -/
def init (h : ι) : Family ι :=
  ⟨h :: F.heads.filter (· ≠ h), Function.update F.entries h []⟩

/-- `n` is put behind `x`. -/
def addAfter (x n : ι) : Family ι :=
  ⟨F.heads.filter (· ≠ n), fun h => (putAround x [] [n] (h :: F.entries h)).tail⟩

/-- `n` is put in front of `x`, or at the end when `x` is a head. -/
def addBefore (x n : ι) : Family ι :=
  ⟨F.heads.filter (· ≠ n), fun h =>
    if h = x then F.entries h ++ [n] else putAround x [n] [] (F.entries h)⟩

/-- `e` is taken out of its list. -/
def remove (e : ι) : Family ι :=
  ⟨F.heads.filter (· ≠ e), fun h => (F.entries h).filter (· ≠ e)⟩

/-- The entries of `lst` are put behind `x`, and `lst` is no list any more. -/
def splice (lst x : ι) : Family ι :=
  ⟨F.heads.filter (· ≠ lst), fun h => (putAround x [] (F.entries lst) (h :: F.entries h)).tail⟩

/-- The entries of `h` are rearranged. -/
def rearrange (h : ι) (f : List ι → List ι) : Family ι :=
  ⟨F.heads, Function.update F.entries h (f (F.entries h))⟩

end Operations

variable {F} {F' : Family ι} {h k n e lst : ι} {ns : List ι}

/-! ## No node gets into two lists -/

theorem Apart.mono (hF : F.Apart) (hsub : ∀ h z, F'.Owns h z → F.Owns h z) : F'.Apart :=
  fun h k z hz kz => hF h k z (hsub h z hz) (hsub k z kz)

/-- Nodes `ns` that no list keeps are put beside `x`. -/
theorem Apart.put (hF : F.Apart) (ns : List ι) (x : ι)
    (hput : ∀ h z, F'.Owns h z → F.Owns h z ∧ z ∉ ns ∨ z ∈ ns ∧ F.Owns h x) : F'.Apart := by
  intro h k z hz kz
  obtain ⟨hz, hn⟩ | ⟨hn, hx⟩ := hput h z hz <;> obtain ⟨kz, kn⟩ | ⟨kn, kx⟩ := hput k z kz
  · exact hF h k z hz kz
  · exact absurd kn hn
  · exact absurd hn kn
  · exact hF h k x hx kx

theorem Apart.add (hF : F.Apart) (hn : F.Loose n)
    (howns : ∀ h z, F'.Owns h z → h ≠ n ∧ (F.Owns h z ∨ F.Owns h x ∧ z = n)) : F'.Apart := by
  refine hF.put [n] x fun h z hz => ?_
  obtain ⟨hne, hz | ⟨hx, rfl⟩⟩ := howns h z hz
  · refine .inl ⟨hz, fun hzn => ?_⟩
    rw [List.mem_singleton.1 hzn] at hz
    exact hne (hn h hz).1
  · exact .inr ⟨List.mem_singleton.2 rfl, hx⟩

variable [DecidableEq ι]

theorem mem_heads_filter : k ∈ F.heads.filter (· ≠ n) ↔ k ∈ F.heads ∧ k ≠ n := by
  rw [List.mem_filter, decide_eq_true_eq]

theorem tail_putAround : h :: (putAround x [] post (h :: l)).tail = putAround x [] post (h :: l) := by
  simp only [putAround, List.flatMap_cons]
  split <;> rfl

/-! ## The list at the place of the operation, and the other lists -/

theorem entries_addAfter (hs : h :: F.entries h = A ++ x :: B) (hA : x ∉ A) (hB : x ∉ B) :
    h :: (F.addAfter x n).entries h = A ++ x :: n :: B := by
  simp only [addAfter]
  rw [tail_putAround, hs, putAround_split hA hB]
  simp

theorem entries_addAfter_of_notMem (hx : x ∉ h :: F.entries h) :
    (F.addAfter x n).entries h = F.entries h := by
  simp only [addAfter]
  rw [putAround_of_notMem hx]
  rfl

theorem entries_addBefore_head : (F.addBefore h n).entries h = F.entries h ++ [n] := if_pos rfl

theorem entries_addBefore (hs : F.entries h = A ++ x :: B) (hne : h ≠ x) (hA : x ∉ A)
    (hB : x ∉ B) : (F.addBefore x n).entries h = A ++ n :: x :: B := by
  simp only [addBefore]
  rw [if_neg hne, hs, putAround_split hA hB]
  simp

theorem entries_addBefore_of_notMem (hx : x ∉ h :: F.entries h) :
    (F.addBefore x n).entries h = F.entries h := by
  obtain ⟨hne, hx⟩ := not_or.1 (mt List.mem_cons.2 hx)
  simp only [addBefore]
  rw [if_neg (Ne.symm hne), putAround_of_notMem hx]

theorem entries_splice (hs : h :: F.entries h = A ++ x :: B) (hA : x ∉ A) (hB : x ∉ B) :
    h :: (F.splice lst x).entries h = A ++ x :: (F.entries lst ++ B) := by
  simp only [splice]
  rw [tail_putAround, hs, putAround_split hA hB]
  simp

theorem entries_splice_of_notMem (hx : x ∉ h :: F.entries h) :
    (F.splice lst x).entries h = F.entries h := by
  simp only [splice]
  rw [putAround_of_notMem hx]
  rfl

theorem entries_remove (hs : h :: F.entries h = A ++ e :: B) (hne : h ≠ e) (hA : e ∉ A)
    (hB : e ∉ B) : h :: (F.remove e).entries h = A ++ B := by
  have hkeep : ∀ l : List ι, e ∉ l → l.filter (· ≠ e) = l := fun l hl =>
    List.filter_eq_self.2 fun z hz => decide_eq_true (ne_of_mem_of_not_mem hz hl)
  have hf : (h :: F.entries h).filter (· ≠ e) = h :: (F.remove e).entries h :=
    List.filter_cons_of_pos (decide_eq_true hne)
  rw [← hf, hs, List.filter_append, List.filter_cons_of_neg (by simp), hkeep A hA, hkeep B hB]

theorem entries_remove_of_notMem (he : e ∉ h :: F.entries h) :
    (F.remove e).entries h = F.entries h :=
  List.filter_eq_self.2 fun _ hz =>
    decide_eq_true (ne_of_mem_of_not_mem (List.mem_cons_of_mem h hz) he)

/-! ## The owner of a node -/

theorem owns_init : (F.init h).Owns k z ↔ k = h ∧ z = h ∨ k ≠ h ∧ F.Owns k z := by
  simp only [Owns, init, List.mem_cons, mem_heads_filter]
  by_cases hk : k = h
  · subst hk
    simp
  · simp [hk]

theorem owns_addAfter : (F.addAfter x n).Owns h z ↔
    h ≠ n ∧ (F.Owns h z ∨ F.Owns h x ∧ z = n) := by
  simp only [Owns, addAfter]
  rw [tail_putAround, mem_putAround, mem_heads_filter, List.mem_singleton]
  simp only [List.not_mem_nil, false_or]
  tauto

theorem owns_addBefore : (F.addBefore x n).Owns h z ↔
    h ≠ n ∧ (F.Owns h z ∨ F.Owns h x ∧ z = n) := by
  simp only [Owns, addBefore]
  rw [mem_heads_filter, List.mem_cons]
  by_cases hx : h = x
  · subst hx
    rw [if_pos rfl, List.mem_append, List.mem_singleton]
    simp only [List.mem_cons, true_or, and_true]
    tauto
  · rw [if_neg hx, mem_putAround, List.mem_singleton]
    simp only [List.not_mem_nil, or_false, List.mem_cons, Ne.symm hx, false_or]
    tauto

theorem owns_remove : (F.remove e).Owns h z ↔ h ≠ e ∧ F.Owns h z ∧ z ≠ e := by
  simp only [Owns, remove]
  rw [mem_heads_filter, List.mem_cons, List.mem_filter, decide_eq_true_eq, List.mem_cons]
  constructor
  · rintro ⟨⟨hh, he⟩, rfl | ⟨hz, hze⟩⟩
    · exact ⟨he, ⟨hh, .inl rfl⟩, he⟩
    · exact ⟨he, ⟨hh, .inr hz⟩, hze⟩
  · rintro ⟨he, ⟨hh, hz⟩, hze⟩
    exact ⟨⟨hh, he⟩, hz.imp_right fun hz => ⟨hz, hze⟩⟩

theorem owns_splice : (F.splice lst x).Owns h z ↔
    h ≠ lst ∧ (F.Owns h z ∨ F.Owns h x ∧ z ∈ F.entries lst) := by
  simp only [Owns, splice]
  rw [tail_putAround, mem_putAround, mem_heads_filter]
  simp only [List.not_mem_nil, false_or]
  tauto

theorem owns_rearrange {f : List ι → List ι} (hf : ∀ z, z ∈ f (F.entries h) ↔ z ∈ F.entries h) :
    (F.rearrange h f).Owns k z ↔ F.Owns k z := by
  simp only [Owns, rearrange, List.mem_cons]
  by_cases hk : k = h
  · subst hk
    rw [Function.update_self, hf]
  · rw [Function.update_of_ne hk]

theorem Apart.init (hF : F.Apart) (hh : F.Loose h) : (F.init h).Apart := by
  intro k k' z hk hk'
  rw [owns_init] at hk hk'
  obtain ⟨hkh, hz⟩ | ⟨hne, hk⟩ := hk <;> obtain ⟨hkh', hz'⟩ | ⟨hne', hk'⟩ := hk'
  · exact hkh.trans hkh'.symm
  · exact absurd (hh k' (hz ▸ hk')).1 hne'
  · exact absurd (hh k (hz' ▸ hk)).1 hne
  · exact hF k k' z hk hk'

theorem Apart.splice (hF : F.Apart) (hlst : lst ∈ F.heads) : (F.splice lst x).Apart := by
  refine hF.put (F.entries lst) x fun h z hz => ?_
  obtain ⟨hne, hz | ⟨hx, hz⟩⟩ := owns_splice.1 hz
  · exact .inl ⟨hz, fun hzl => hne (hF h lst z hz ⟨hlst, List.mem_cons_of_mem _ hzl⟩)⟩
  · exact .inr ⟨hz, hx⟩

/-! ## Loose nodes -/

/-- A node that was taken out may be put anywhere. -/
theorem loose_remove : (F.remove e).Loose e :=
  fun _ h => absurd rfl (owns_remove.1 h).2.2

/-- The list that was spliced is free. -/
theorem loose_splice (hF : F.Apart) (hlst : lst ∈ F.heads)
    (hnot : lst ∉ F.entries lst) : (F.splice lst x).Loose lst := by
  intro h hh
  obtain ⟨hne, hh | ⟨-, hh⟩⟩ := owns_splice.1 hh
  · exact absurd (hF h lst lst hh ⟨hlst, List.mem_cons_self⟩) hne
  · exact absurd hh hnot

theorem Linked.remove (hx : F.Linked x) (hne : x ≠ e)
    (he : e ∈ F.heads → F.entries e = []) : (F.remove e).Linked x := by
  obtain ⟨h, hh, hx⟩ := hx
  refine ⟨h, owns_remove.2 ⟨?_, ⟨hh, hx⟩, hne⟩⟩
  rintro rfl
  rw [he hh] at hx
  exact hne (List.mem_singleton.1 hx)

end Family

end OsBasics.Lib
