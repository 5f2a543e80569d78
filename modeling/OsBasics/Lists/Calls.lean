/-
  Every use of `list.h`.

  A program calls the list functions in any order, on any number of lists. As long as each call is
  `Legal` (it names nodes that are linked where the function reads links, and does not add a
  node that some list still has), memory holds at every moment the lists of a `Family`
  (`Represents`), every call does to memory what it does to the family, and what the
  program reads back is what the family says (`calls_refines`). No call reads or writes
  through a pointer that is not a node's.
-/
import OsBasics.Lib.Family
import OsBasics.Lists.Moves
import OsBasics.Lists.Sort

namespace OsBasics.Lists

open OsBasics.Lib

variable {α : Type}

/-! ## Calls -/

/-- A call of a list function. -/
inductive Call where
  | init (ptr : Nat)
  | add (new head : Nat)
  | addTail (new head : Nat)
  | del (entry : Nat)
  | delInit (entry : Nat)
  | move (list head : Nat)
  | moveTail (list head : Nat)
  | splice (list head : Nat)
  | spliceInit (list head : Nat)
  | empty (head : Nat)
  | forEach (head : Nat)
  | sort (head : Nat)
  deriving DecidableEq, Repr

/-- What a call tells its caller. -/
inductive Answer (α : Type) where
  | empty (b : Bool)
  | walk (xs : List α)
  deriving DecidableEq, Repr

/-- A body of `list_for_each` that reads each entry. -/
def readEntry (pos : Ptr) (s : ListMem α × List α) : Except Fault (ListMem α × List α) := do
  let x ← s.1.listEntry pos
  pure (s.1, s.2 ++ [x])

/-- A call that tells nothing. -/
def silent (r : Except Fault (ListMem α)) : Except Fault (ListMem α × List (Answer α)) := do
  let m ← r
  pure (m, [])

section Runs

variable (cmp : α → α → Int)

/-- One call on memory. -/
def call (m : ListMem α) : Call → Except Fault (ListMem α × List (Answer α))
  | .init ptr => silent (m.initListHead (.node ptr))
  | .add new head => silent (m.listAdd (.node new) (.node head))
  | .addTail new head => silent (m.listAddTail (.node new) (.node head))
  | .del entry => silent (m.listDel (.node entry))
  | .delInit entry => silent (m.listDelInit (.node entry))
  | .move list head => silent (m.listMove (.node list) (.node head))
  | .moveTail list head => silent (m.listMoveTail (.node list) (.node head))
  | .splice list head => silent (m.listSplice (.node list) (.node head))
  | .spliceInit list head => silent (m.listSpliceInit (.node list) (.node head))
  | .empty head => do
    let b ← m.listEmpty (.node head)
    pure (m, [.empty b])
  | .forEach head => do
    let s ← listForEach Prod.fst (.node head) readEntry (m, [])
    pure (s.1, [.walk s.2])
  | .sort head => silent (listSort cmp m (.node head))

/-- The calls of a program, in turn. -/
def calls : List Call → ListMem α → Except Fault (ListMem α × List (Answer α))
  | [], m => pure (m, [])
  | c :: cs, m => do
    let (m, told) ← call cmp m c
    let (m, rest) ← calls cs m
    pure (m, told ++ rest)

/-- What a call does to the lists. -/
def after (data : Nat → α) (F : Family Nat) : Call → Family Nat
  | .init ptr => F.init ptr
  | .add new head => F.addAfter head new
  | .addTail new head => F.addBefore head new
  | .del entry => F.remove entry
  | .delInit entry => (F.remove entry).init entry
  | .move list head => (F.remove list).addAfter head list
  | .moveTail list head => (F.remove list).addBefore head list
  | .splice list head => if F.entries list = [] then F else F.splice list head
  | .spliceInit list head =>
    if F.entries list = [] then F else (F.splice list head).init list
  | .empty _ => F
  | .forEach _ => F
  | .sort head => F.rearrange head fun l => l.insertionSort fun x y => cmp (data x) (data y) ≤ 0

/-- What a call tells, by the lists. -/
def tells (data : Nat → α) (F : Family Nat) : Call → List (Answer α)
  | .empty head => [.empty (head ∈ F.heads ∧ F.entries head = [])]
  | .forEach head => [.walk ((F.entries head).map data)]
  | _ => []

/-- The lists after the calls, and what they tell. -/
def track (data : Nat → α) : List Call → Family Nat → Family Nat × List (Answer α)
  | [], F => (F, [])
  | c :: cs, F =>
    let r := track data cs (after cmp data F c)
    (r.1, tells data F c ++ r.2)

end Runs

/-! ## Legal calls -/

/-- `n` can be linked in: it is an entry, and in no list. -/
def CanAdd (m : ListMem α) (F : Family Nat) (n : Nat) : Prop :=
  m.Valid n ∧ m.heads ≤ n ∧ F.Loose n

/-- `e` can be taken out: it is in a list, and is not the head of other entries. -/
def CanRemove (F : Family Nat) (e : Nat) : Prop :=
  F.Linked e ∧ (e ∈ F.heads → F.entries e = [])

/-- What a call relies on. -/
def Legal (m : ListMem α) (F : Family Nat) : Call → Prop
  | .init ptr => m.Valid ptr ∧ F.Loose ptr
  | .add new head => CanAdd m F new ∧ F.Linked head ∧ head ≠ new
  | .addTail new head => CanAdd m F new ∧ F.Linked head ∧ head ≠ new
  | .del entry => CanRemove F entry
  | .delInit entry => CanRemove F entry
  | .move list head => CanRemove F list ∧ m.heads ≤ list ∧ F.Linked head ∧ head ≠ list
  | .moveTail list head => CanRemove F list ∧ m.heads ≤ list ∧ F.Linked head ∧ head ≠ list
  | .splice list head => list ∈ F.heads ∧ F.Linked head ∧ ¬F.Owns list head
  | .spliceInit list head => list ∈ F.heads ∧ F.Linked head ∧ ¬F.Owns list head
  | .empty head => F.Linked head
  | .forEach head => head ∈ F.heads
  | .sort head => head ∈ F.heads ∧ F.entries head ≠ []

instance (m : ListMem α) (a : Nat) : Decidable (m.Valid a) := inferInstanceAs (Decidable (_ ∧ _))

instance (m : ListMem α) (F : Family Nat) (n : Nat) : Decidable (CanAdd m F n) :=
  inferInstanceAs (Decidable (_ ∧ _))

instance (F : Family Nat) (e : Nat) : Decidable (CanRemove F e) :=
  inferInstanceAs (Decidable (_ ∧ _))

instance (m : ListMem α) (F : Family Nat) : (c : Call) → Decidable (Legal m F c)
  | .init _ | .add _ _ | .addTail _ _ | .del _ | .delInit _ | .move _ _ | .moveTail _ _
  | .splice _ _ | .spliceInit _ _ | .sort _ => inferInstanceAs (Decidable (_ ∧ _))
  | .empty head => inferInstanceAs (Decidable (F.Linked head))
  | .forEach head => inferInstanceAs (Decidable (head ∈ F.heads))

/-- Every call is legal where it is made. -/
def LegalRun (cmp : α → α → Int) (m : ListMem α) : List Call → Family Nat → Prop
  | [], _ => True
  | c :: cs, F => Legal m F c ∧ LegalRun cmp m cs (after cmp m.data F c)

instance (cmp : α → α → Int) (m : ListMem α) :
    (cs : List Call) → (F : Family Nat) → Decidable (LegalRun cmp m cs F)
  | [], _ => inferInstanceAs (Decidable True)
  | c :: cs, F =>
    have := instDecidableLegalRun cmp m cs (after cmp m.data F c)
    inferInstanceAs (Decidable (_ ∧ _))

/-! ## Memory that holds a family -/

variable {m m' : ListMem α} {F F' : Family Nat} {cmp : α → α → Int} {h n x e : Nat}

/-- Memory holds the lists of the family. -/
structure Represents (m : ListMem α) (F : Family Nat) : Prop where
  rings : ∀ h ∈ F.heads, IsRing m h (F.entries h)
  apart : F.Apart

/-- The same nodes, with the same data. -/
structure SameNodes (m m' : ListMem α) : Prop where
  valid : ∀ x, m.Valid x → m'.Valid x
  heads : m'.heads = m.heads
  data : m'.data = m.data

theorem SameNodes.refl (m : ListMem α) : SameNodes m m := ⟨fun _ h => h, rfl, rfl⟩

theorem SameNodes.trans {m₁ m₂ m₃ : ListMem α} (h : SameNodes m₁ m₂) (h' : SameNodes m₂ m₃) :
    SameNodes m₁ m₃ :=
  ⟨fun x hx => h'.valid x (h.valid x hx), h'.heads.trans h.heads, h'.data.trans h.data⟩

theorem SameOff.sameNodes {xs : List Nat} (h : SameOff xs m m') (hd : m'.data = m.data) :
    SameNodes m m' := ⟨h.valid, h.heads, hd⟩

namespace Represents

theorem valid (hr : Represents m F) (hx : F.Linked x) : m.Valid x := by
  obtain ⟨h, hh, hx⟩ := hx
  exact (hr.rings h hh).valid x hx

/-- A linked node, in the ring it is in. -/
theorem home (hr : Represents m F) (hx : F.Linked x) : ∃ k A rest, k ∈ F.heads ∧
    k :: F.entries k = A ++ x :: rest ∧ x ∉ A ∧ x ∉ rest := by
  obtain ⟨k, hk, hx⟩ := hx
  obtain ⟨A, rest, hs⟩ := List.append_of_mem hx
  obtain ⟨hA, hrest, -⟩ := notMem_opened (hr.rings k hk).nodup hs
  exact ⟨k, A, rest, hk, hs, hA, hrest⟩

/-- Lists that are written are again lists, and the others stay. -/
theorem update {xs : List Nat} (hr : Represents m F) (hoff : SameOff xs m m') (hF : F'.Apart)
    (hlists : ∀ h ∈ F'.heads, IsRing m' h (F'.entries h) ∨
      h ∈ F.heads ∧ F'.entries h = F.entries h ∧ ∀ z, F.Owns h z → z ∉ xs) :
    Represents m' F' := by
  refine ⟨fun h hh => ?_, hF⟩
  obtain hring | ⟨hF, he, hxs⟩ := hlists h hh
  · exact hring
  · rw [he]
    exact (hr.rings h hF).congr hoff fun z hz => hxs z ⟨hF, hz⟩

/-- Nodes that are in no list may be written. -/
theorem off {xs : List Nat} (hr : Represents m F) (hoff : SameOff xs m m')
    (hxs : ∀ z ∈ xs, ¬F.Linked z) : Represents m' F :=
  hr.update hoff hr.apart fun h hh => .inr ⟨hh, rfl, fun z hz hzx => hxs z hzx ⟨h, hz⟩⟩

/-! ## `INIT_LIST_HEAD` -/

theorem init (hr : Represents m F) (hv : m.Valid h) (hh : F.Loose h) :
    ∃ m', m.initListHead (.node h) = .ok m' ∧ Represents m' (F.init h) ∧ SameNodes m m' := by
  obtain ⟨m', hcode, hring, hoff, hdata, -⟩ := initListHead_ring hv
  refine ⟨m', hcode, hr.update hoff (hr.apart.init hh) fun k hk => ?_, hoff.sameNodes hdata⟩
  obtain rfl | hne := eq_or_ne k h
  · left
    rw [show (F.init k).entries k = [] from Function.update_self _ _ _]
    exact hring
  · have hkF : k ∈ F.heads := by
      obtain rfl | hk := List.mem_cons.1 hk
      · exact absurd rfl hne
      · exact (Family.mem_heads_filter.1 hk).1
    refine .inr ⟨hkF, Function.update_of_ne hne _ _, fun z hz hzh => hne ?_⟩
    rw [List.mem_singleton.1 hzh] at hz
    exact (hh k hz).1

/-! ## Adding -/

theorem notMem_of_loose (hn : F.Loose n) (hne : x ≠ n) {k : Nat} (hk : F.Owns k x) :
    n ∉ k :: F.entries k := by
  intro hm
  obtain ⟨rfl, he⟩ := hn k ⟨hk.1, hm⟩
  have hx := hk.2
  rw [he] at hx
  exact hne (List.mem_singleton.1 hx)

/-- `n` is put into the list `k` of `x`, and no other list is written. -/
theorem put {k : Nat} (hr : Represents m F) (hoff : SameOff (n :: k :: F.entries k) m m')
    (hring : IsRing m' k (F'.entries k)) (hk : F.Owns k x) (hn : F.Loose n)
    (howns : ∀ h z, F'.Owns h z → h ≠ n ∧ (F.Owns h z ∨ F.Owns h x ∧ z = n))
    (hheads : ∀ h ∈ F'.heads, h ∈ F.heads)
    (hothers : ∀ h, x ∉ h :: F.entries h → F'.entries h = F.entries h) : Represents m' F' := by
  refine hr.update hoff (hr.apart.add hn howns) fun h hh => ?_
  obtain rfl | hne := eq_or_ne h k
  · exact .inl hring
  · have hhF := hheads h hh
    refine .inr ⟨hhF, hothers h fun hx => hne (hr.apart h k x ⟨hhF, hx⟩ hk), fun z hz hzn => ?_⟩
    obtain rfl | hzk := List.mem_cons.1 hzn
    · exact (howns h h ⟨hh, List.mem_cons_self⟩).1 (hn h hz).1
    · exact hne (hr.apart h k z hz ⟨hk.1, hzk⟩)

theorem add (hr : Represents m F) (hn : CanAdd m F n) (hx : F.Linked x) (hne : x ≠ n) :
    ∃ m', m.listAdd (.node n) (.node x) = .ok m' ∧ Represents m' (F.addAfter x n) ∧
      SameNodes m m' := by
  obtain ⟨hv, he, hl⟩ := hn
  obtain ⟨k, A, rest, hk, hs, hA, hB⟩ := hr.home hx
  have hown : F.Owns k x := ⟨hk, by simp [hs]⟩
  obtain ⟨m', hcode, hring, hoff, hdata, -⟩ := listAdd_ring (hr.rings k hk) hs
    (Family.entries_addAfter hs hA hB) hv he (notMem_of_loose hl hne hown)
  exact ⟨m', hcode, hr.put hoff hring hown hl (fun _ _ => Family.owns_addAfter.1)
    (fun _ hh => (Family.mem_heads_filter.1 hh).1) (fun _ => Family.entries_addAfter_of_notMem),
    hoff.sameNodes hdata⟩

theorem addTail (hr : Represents m F) (hn : CanAdd m F n) (hx : F.Linked x) (hne : x ≠ n) :
    ∃ m', m.listAddTail (.node n) (.node x) = .ok m' ∧ Represents m' (F.addBefore x n) ∧
      SameNodes m m' := by
  obtain ⟨hv, he, hl⟩ := hn
  obtain ⟨k, A, rest, hk, hs, hA, hB⟩ := hr.home hx
  have hown : F.Owns k x := ⟨hk, by simp [hs]⟩
  have hnot := notMem_of_loose hl hne hown
  have hk' := hr.rings k hk
  obtain ⟨m', hcode, hring, hoff, hdata⟩ : ∃ m', m.listAddTail (.node n) (.node x) = .ok m' ∧
      IsRing m' k ((F.addBefore x n).entries k) ∧ SameOff (n :: k :: F.entries k) m m' ∧
      m'.data = m.data := by
    cases A with
    | nil =>
      obtain ⟨rfl, -⟩ := List.cons.inj hs
      obtain ⟨m', hcode, hring, hoff, hdata, -⟩ := listAddTail_ring hk' hv he hnot
      refine ⟨m', hcode, ?_, hoff, hdata⟩
      rw [Family.entries_addBefore_head]
      exact hring
    | cons a A =>
      obtain ⟨rfl, hs'⟩ := List.cons.inj hs
      obtain ⟨hne', hA'⟩ := not_or.1 (mt List.mem_cons.2 hA)
      rw [hs'] at hk' hnot ⊢
      obtain ⟨m', hcode, hring, hoff, hdata, -⟩ := listAddTail_ring_before hk' hv he hnot
      refine ⟨m', hcode, ?_, hoff, hdata⟩
      rw [Family.entries_addBefore hs' (Ne.symm hne') hA' hB]
      exact hring
  exact ⟨m', hcode, hr.put hoff hring hown hl (fun _ _ => Family.owns_addBefore.1)
    (fun _ hh => (Family.mem_heads_filter.1 hh).1) (fun _ => Family.entries_addBefore_of_notMem),
    hoff.sameNodes hdata⟩

/-! ## Taking out -/

/-- `__list_del(entry->prev, entry->next)` takes the entry out of its list, if it is in one. -/
theorem unlink (hr : Represents m F) (he : CanRemove F e) :
    ∃ p q m', m.getPrev (.node e) = .ok p ∧ m.getNext (.node e) = .ok q ∧
      m.listDelBetween p q = .ok m' ∧ Represents m' (F.remove e) ∧ SameNodes m m' := by
  obtain ⟨hx, halone⟩ := he
  have hv := hr.valid hx
  have hapart : (F.remove e).Apart := hr.apart.mono fun _ _ h => (Family.owns_remove.1 h).2.1
  have hothers : ∀ h, e ∉ h :: F.entries h → (F.remove e).entries h = F.entries h :=
    fun _ => Family.entries_remove_of_notMem
  obtain ⟨k, A, rest, hk, hs, hA, hB⟩ := hr.home hx
  obtain rfl | ⟨B, y, rfl⟩ := List.eq_nil_or_concat A
  · -- `e` is a list of its own: its two links are written back as they are
    obtain ⟨rfl, -⟩ := List.cons.inj hs
    have hring := hr.rings k hk
    rw [halone hk] at hring
    have hnext : m.next k = .node k := hring.next_head
    have hprev : m.prev k = .node k := hring.prev_head (A := []) rfl
    refine ⟨_, _, m.join k k, by rw [getPrev_node hv, hprev], by rw [getNext_node hv, hnext], ?_,
      hr.update (sameOff_join (List.mem_singleton_self k) (List.mem_singleton_self k)) hapart fun h hh => ?_,
      ⟨fun _ h => h, rfl, rfl⟩⟩
    · unfold ListMem.listDelBetween
      rw [setPrev_node hv, ok_bind]
      exact setNext_node (by exact hv) _
    · obtain ⟨hhF, hne⟩ := Family.mem_heads_filter.1 hh
      have hnot : ∀ z, F.Owns h z → z ∉ [k] := fun z hz hzk => by
        rw [List.mem_singleton.1 hzk] at hz
        exact hne (hr.apart h k k hz ⟨hk, List.mem_cons_self⟩)
      exact .inr ⟨hhF, hothers h fun hkh => hnot k ⟨hhF, hkh⟩ List.mem_cons_self, hnot⟩
  · rw [List.concat_eq_append] at hA hs
    rw [List.append_assoc, List.singleton_append] at hs
    have hring := hr.rings k hk
    have hke : k ≠ e := by
      rintro rfl
      cases B with
      | nil => exact hA (by simp [(List.cons.inj hs).1])
      | cons b B => exact hA (by simp [(List.cons.inj hs).1])
    have hs' : k :: (F.remove e).entries k = B ++ y :: rest := by
      rw [Family.entries_remove (A := B ++ [y]) (by rw [hs]; simp) hke hA hB, List.append_assoc,
        List.singleton_append]
    obtain ⟨hcode, hring', hoff⟩ := listDelBetween_ring hring hs hs'
    refine ⟨_, _, _, by rw [getPrev_node hv, hring.prev_eq hs], by
      rw [getNext_node hv, hring.next_of_split (hs.trans (List.append_cons B y (e :: rest)))], hcode,
      hr.update hoff hapart fun h hh => ?_, hoff.sameNodes rfl⟩
    obtain rfl | hne := eq_or_ne h k
    · exact .inl hring'
    · have hhF := (Family.mem_heads_filter.1 hh).1
      have hnot : ∀ z, F.Owns h z → ¬F.Owns k z := fun z hz hkz => hne (hr.apart h k z hz hkz)
      refine .inr ⟨hhF, hothers h fun heh => hnot e ⟨hhF, heh⟩ ⟨hk, by simp [hs]⟩, fun z hz hzk => ?_⟩
      have hown : (F.remove e).Owns k z := ⟨Family.mem_heads_filter.2 ⟨hk, hke⟩, hzk⟩
      exact hnot z hz (Family.owns_remove.1 hown).2.1

theorem del (hr : Represents m F) (he : CanRemove F e) :
    ∃ m', m.listDel (.node e) = .ok m' ∧ Represents m' (F.remove e) ∧ SameNodes m m' := by
  obtain ⟨p, q, m₁, hp, hq, hdel, hr₁, hs₁⟩ := hr.unlink he
  have hv := hs₁.valid e (hr.valid he.1)
  have hoff : SameOff [e] m₁ ((m₁.withNext e .poison1).withPrev e .poison2) :=
    ⟨fun z hz => Function.update_of_ne (fun h => hz (List.mem_singleton.2 h)) _ _,
      fun z hz => Function.update_of_ne (fun h => hz (List.mem_singleton.2 h)) _ _, rfl, fun _ h => h⟩
  refine ⟨(m₁.withNext e .poison1).withPrev e .poison2, ?_, hr₁.off hoff ?_,
    hs₁.trans ⟨fun _ h => h, rfl, rfl⟩⟩
  · unfold ListMem.listDel
    rw [hp, ok_bind, hq, ok_bind, hdel, ok_bind, setNext_node hv, ok_bind]
    exact setPrev_node (by exact hv) _
  · rintro z hz ⟨h, hh⟩
    rw [List.mem_singleton.1 hz] at hh
    exact (Family.owns_remove.1 hh).2.2 rfl

theorem delInit (hr : Represents m F) (he : CanRemove F e) :
    ∃ m', m.listDelInit (.node e) = .ok m' ∧ Represents m' ((F.remove e).init e) ∧
      SameNodes m m' := by
  obtain ⟨p, q, m₁, hp, hq, hdel, hr₁, hs₁⟩ := hr.unlink he
  obtain ⟨m', hcode, hr', hs'⟩ := hr₁.init (hs₁.valid e (hr.valid he.1)) Family.loose_remove
  refine ⟨m', ?_, hr', hs₁.trans hs'⟩
  unfold ListMem.listDelInit
  rw [hp, ok_bind, hq, ok_bind, hdel, ok_bind, hcode]

theorem canAdd_removed (hr : Represents m F) (he : CanRemove F e) (hentry : m.heads ≤ e)
    (hs : SameNodes m m') : CanAdd m' (F.remove e) e :=
  ⟨hs.valid e (hr.valid he.1), hs.heads ▸ hentry, Family.loose_remove⟩

theorem move (hr : Represents m F) (he : CanRemove F e) (hentry : m.heads ≤ e)
    (hx : F.Linked x) (hne : x ≠ e) :
    ∃ m', m.listMove (.node e) (.node x) = .ok m' ∧ Represents m' ((F.remove e).addAfter x e) ∧
      SameNodes m m' := by
  obtain ⟨p, q, m₁, hp, hq, hdel, hr₁, hs₁⟩ := hr.unlink he
  obtain ⟨m', hcode, hr', hs'⟩ := hr₁.add (hr.canAdd_removed he hentry hs₁)
    (hx.remove hne he.2) hne
  refine ⟨m', ?_, hr', hs₁.trans hs'⟩
  unfold ListMem.listMove
  rw [hp, ok_bind, hq, ok_bind, hdel, ok_bind, hcode]

theorem moveTail (hr : Represents m F) (he : CanRemove F e) (hentry : m.heads ≤ e)
    (hx : F.Linked x) (hne : x ≠ e) :
    ∃ m', m.listMoveTail (.node e) (.node x) = .ok m' ∧
      Represents m' ((F.remove e).addBefore x e) ∧ SameNodes m m' := by
  obtain ⟨p, q, m₁, hp, hq, hdel, hr₁, hs₁⟩ := hr.unlink he
  obtain ⟨m', hcode, hr', hs'⟩ := hr₁.addTail (hr.canAdd_removed he hentry hs₁)
    (hx.remove hne he.2) hne
  refine ⟨m', ?_, hr', hs₁.trans hs'⟩
  unfold ListMem.listMoveTail
  rw [hp, ok_bind, hq, ok_bind, hdel, ok_bind, hcode]

/-! ## Splicing -/

/-- `list_empty`. -/
theorem empty (hr : Represents m F) (hx : F.Linked x) :
    m.listEmpty (.node x) = .ok (x ∈ F.heads ∧ F.entries x = []) := by
  obtain ⟨k, A, rest, hk, hs, hA, hB⟩ := hr.home hx
  have hring := hr.rings k hk
  have hiff : Ptr.node (rest.headD k) = Ptr.node x ↔ x ∈ F.heads ∧ F.entries x = [] := by
    rw [Ptr.node.injEq]
    constructor
    · intro hnext
      cases rest with
      | cons y r => exact absurd (hnext ▸ List.mem_cons_self) hB
      | nil =>
        obtain rfl : k = x := hnext
        refine ⟨hk, ?_⟩
        cases A with
        | nil => exact (List.cons.inj hs).2
        | cons a A => exact absurd ((List.cons.inj hs).1 ▸ List.mem_cons_self) hA
    · rintro ⟨hxF, hnil⟩
      have hkx : k = x := hr.apart k x x ⟨hk, by simp [hs]⟩ ⟨hxF, List.mem_cons_self⟩
      subst hkx
      have hlen := congrArg List.length hs
      rw [hnil, List.length_append, List.length_cons, List.length_cons, List.length_nil] at hlen
      have hrest : rest = [] := List.length_eq_zero_iff.1 (by omega)
      rw [hrest, List.headD_nil]
  unfold ListMem.listEmpty
  rw [getNext_node (hr.valid hx), ok_bind, hring.next_of_split hs]
  exact congrArg Except.ok (decide_eq_decide.2 hiff)

theorem splice {lst : Nat} (hr : Represents m F) (hl : lst ∈ F.heads) (hne : F.entries lst ≠ [])
    (hx : F.Linked x) (hnot : ¬F.Owns lst x) :
    ∃ m', m.listSpliceBetween (.node lst) (.node x) = .ok m' ∧ Represents m' (F.splice lst x) ∧
      SameNodes m m' := by
  obtain ⟨k, A, rest, hk, hs, hA, hB⟩ := hr.home hx
  have hkx : F.Owns k x := ⟨hk, by simp [hs]⟩
  have hkl : k ≠ lst := fun h => hnot (h ▸ hkx)
  have hs' : k :: (F.splice lst x).entries k = A ++ x :: (F.entries lst ++ rest) :=
    Family.entries_splice hs hA hB
  obtain ⟨m', hcode, hring, hoff, hdata, -⟩ := listSpliceBetween_ring (hr.rings k hk)
    (hr.rings lst hl) hne hs hs' fun z hz hz' => hkl (hr.apart k lst z ⟨hk, hz⟩ ⟨hl, hz'⟩)
  refine ⟨m', hcode, hr.update hoff (hr.apart.splice hl) fun h hh => ?_, hoff.sameNodes hdata⟩
  obtain ⟨hhF, hhl⟩ := Family.mem_heads_filter.1 hh
  obtain rfl | hhk := eq_or_ne h k
  · exact .inl hring
  · refine .inr ⟨hhF, Family.entries_splice_of_notMem fun hxh => hhk (hr.apart h k x ⟨hhF, hxh⟩ hkx),
      fun z hz hzk => ?_⟩
    have hown : (F.splice lst x).Owns k z := ⟨Family.mem_heads_filter.2 ⟨hk, hkl⟩, hzk⟩
    obtain ⟨-, hkz | ⟨-, hzl⟩⟩ := Family.owns_splice.1 hown
    · exact hhk (hr.apart h k z hz hkz)
    · exact hhl (hr.apart h lst z hz ⟨hl, List.mem_cons_of_mem lst hzl⟩)

/-! ## Loops and sorting -/

theorem forEach (hr : Represents m F) (hh : h ∈ F.heads) :
    listForEach Prod.fst (.node h) readEntry (m, []) = .ok (m, (F.entries h).map m.data) := by
  have hring := hr.rings h hh
  have hstep : ∀ done x rest s, F.entries h = done ++ x :: rest → s = (m, done.map m.data) →
      ∃ s', readEntry (.node x) s = .ok s' ∧ s' = (m, (done ++ [x]).map m.data) := by
    rintro done x rest s hs rfl
    have hx : x ∈ F.entries h := by simp [hs]
    refine ⟨_, ?_, rfl⟩
    unfold readEntry
    rw [listEntry_node (hring.valid x (List.mem_cons_of_mem h hx)) (hring.entries x hx), ok_bind,
      List.map_append]
    rfl
  have hkeep : ∀ (done : List Nat) (s : ListMem α × List α), s = (m, done.map m.data) →
      IsRing s.1 h (F.entries h) := by
    rintro done s rfl
    exact hring
  obtain ⟨s', hcode, rfl⟩ := listForEach_rule (fun done s => s = (m, done.map m.data)) hkeep hstep rfl
  exact hcode

theorem sort (hcmp : TotalPreorder fun x y => decide (cmp x y ≤ 0)) (hr : Represents m F)
    (hh : h ∈ F.heads) (hne : F.entries h ≠ []) :
    ∃ m', listSort cmp m (.node h) = .ok m' ∧
      Represents m' (F.rearrange h fun l => l.insertionSort fun x y => cmp (m.data x) (m.data y) ≤ 0) ∧
      SameNodes m m' := by
  have hring := hr.rings h hh
  have hnodes : TotalPreorder (cmpLe cmp m) :=
    ⟨fun _ _ _ => hcmp.trans _ _ _, fun _ _ => hcmp.total _ _⟩
  obtain ⟨m', hcode, hring', hrel⟩ := listSort_ring cmp hring hne
  have hsort : bottomUp (cmpLe cmp m) (m.fresh + 1) 1 (F.entries h) =
      (F.entries h).insertionSort fun x y => cmp (m.data x) (m.data y) ≤ 0 := by
    have hstable : StableSort (cmpLe cmp m) (F.entries h)
        ((F.entries h).insertionSort fun x y => cmp (m.data x) (m.data y) ≤ 0) := by
      convert stableSort_insertionSort hnodes (F.entries h) using 4
      exact decide_eq_true_iff.symm
    refine (bottomUp_stable hnodes Nat.one_pos ?_ (Nat.succ_pos _) (sortedRuns_one _ _)).unique
      hnodes hstable
    have hpow := Nat.lt_two_pow_self (n := m.fresh + 1)
    have hlen := hring.length_lt
    omega
  have hself : (F.rearrange h fun l => l.insertionSort fun x y => cmp (m.data x) (m.data y) ≤ 0).entries
      h = (F.entries h).insertionSort fun x y => cmp (m.data x) (m.data y) ≤ 0 := Function.update_self _ _ _
  rw [hsort, ← hself] at hring'
  refine ⟨m', hcode, hr.update hrel.off ?_ fun k hk => ?_, hrel.off.sameNodes hrel.data⟩
  · exact hr.apart.mono fun k z => (Family.owns_rearrange fun z => List.mem_insertionSort _).1
  · obtain rfl | hkh := eq_or_ne k h
    · exact .inl hring'
    · exact .inr ⟨hk, Function.update_of_ne hkh _ _, fun z hz hzh =>
        hkh (hr.apart k h z hz ⟨hh, hzh⟩)⟩

/-! ## One call, and a run -/

theorem call (hcmp : TotalPreorder fun x y => decide (cmp x y ≤ 0)) (hr : Represents m F)
    {c : Call} (hl : Legal m F c) : ∃ m', Lists.call cmp m c = .ok (m', tells m.data F c) ∧
      Represents m' (after cmp m.data F c) ∧ SameNodes m m' := by
  have hsilent : ∀ {r : Except Fault (ListMem α)} {F' : Family Nat},
      (∃ m', r = .ok m' ∧ Represents m' F' ∧ SameNodes m m') →
      ∃ m', silent r = .ok (m', []) ∧ Represents m' F' ∧ SameNodes m m' := by
    rintro r F' ⟨m', rfl, h⟩
    exact ⟨m', rfl, h⟩
  cases c with
  | init ptr => exact hsilent (hr.init hl.1 hl.2)
  | add new head => exact hsilent (hr.add hl.1 hl.2.1 hl.2.2)
  | addTail new head => exact hsilent (hr.addTail hl.1 hl.2.1 hl.2.2)
  | del entry => exact hsilent (hr.del hl)
  | delInit entry => exact hsilent (hr.delInit hl)
  | move list head => exact hsilent (hr.move hl.1 hl.2.1 hl.2.2.1 hl.2.2.2)
  | moveTail list head => exact hsilent (hr.moveTail hl.1 hl.2.1 hl.2.2.1 hl.2.2.2)
  | splice list head =>
    obtain ⟨hlist, hx, hnot⟩ := hl
    refine hsilent ?_
    have hempty := hr.empty ⟨list, hlist, List.mem_cons_self⟩
    simp only [ListMem.listSplice, after, hempty, ok_bind, hlist, true_and, decide_eq_true_eq]
    by_cases hnil : F.entries list = []
    · rw [if_pos hnil, if_pos hnil]
      exact ⟨m, rfl, hr, .refl m⟩
    · rw [if_neg hnil, if_neg hnil]
      exact hr.splice hlist hnil hx hnot
  | spliceInit list head =>
    obtain ⟨hlist, hx, hnot⟩ := hl
    refine hsilent ?_
    have hempty := hr.empty ⟨list, hlist, List.mem_cons_self⟩
    simp only [ListMem.listSpliceInit, after, hempty, ok_bind, hlist, true_and, decide_eq_true_eq]
    by_cases hnil : F.entries list = []
    · rw [if_pos hnil, if_pos hnil]
      exact ⟨m, rfl, hr, .refl m⟩
    · rw [if_neg hnil, if_neg hnil]
      obtain ⟨m₁, hcode, hr₁, hs₁⟩ := hr.splice hlist hnil hx hnot
      have hring := hr.rings list hlist
      obtain ⟨m', hinit, hr', hs'⟩ := hr₁.init (hs₁.valid list (hring.valid list List.mem_cons_self))
        (Family.loose_splice hr.apart hlist (List.nodup_cons.1 hring.nodup).1)
      rw [hcode, ok_bind]
      exact ⟨m', hinit, hr', hs₁.trans hs'⟩
  | empty head =>
    refine ⟨m, ?_, hr, .refl m⟩
    rw [Lists.call, hr.empty hl, ok_bind]
    rfl
  | forEach head =>
    refine ⟨m, ?_, hr, .refl m⟩
    rw [Lists.call, hr.forEach hl, ok_bind]
    rfl
  | sort head => exact hsilent (hr.sort hcmp hl.1 hl.2)

end Represents

theorem CanAdd.mono (h : CanAdd m F n) (hs : SameNodes m m') : CanAdd m' F n :=
  ⟨hs.valid n h.1, hs.heads ▸ h.2.1, h.2.2⟩

theorem Legal.mono {c : Call} (h : Legal m F c) (hs : SameNodes m m') : Legal m' F c := by
  cases c with
  | init ptr => exact ⟨hs.valid ptr h.1, h.2⟩
  | add new head => exact ⟨h.1.mono hs, h.2⟩
  | addTail new head => exact ⟨h.1.mono hs, h.2⟩
  | move list head => exact ⟨h.1, hs.heads ▸ h.2.1, h.2.2⟩
  | moveTail list head => exact ⟨h.1, hs.heads ▸ h.2.1, h.2.2⟩
  | _ => exact h

theorem LegalRun.mono {cs : List Call} (h : LegalRun cmp m cs F) (hs : SameNodes m m') :
    LegalRun cmp m' cs F := by
  induction cs generalizing F with
  | nil => trivial
  | cons c cs ih =>
    refine ⟨h.1.mono hs, ?_⟩
    rw [hs.data]
    exact ih h.2

/-- Any legal calls, on any number of lists, do to memory what they do to the lists, and tell what
    the lists say. -/
theorem calls_refines (hcmp : TotalPreorder fun x y => decide (cmp x y ≤ 0)) (cs : List Call)
    (hr : Represents m F) (hl : LegalRun cmp m cs F) :
    ∃ m', calls cmp cs m = .ok (m', (track cmp m.data cs F).2) ∧
      Represents m' (track cmp m.data cs F).1 ∧ m'.data = m.data ∧
      ∀ h ∈ (track cmp m.data cs F).1.heads, members m' h = (track cmp m.data cs F).1.entries h := by
  induction cs generalizing m F with
  | nil => exact ⟨m, rfl, hr, rfl, fun h hh => (hr.rings h hh).members⟩
  | cons c cs ih =>
    obtain ⟨m₁, hcall, hr₁, hs₁⟩ := hr.call hcmp hl.1
    have hl₁ := hl.2.mono hs₁
    rw [← hs₁.data] at hr₁ hl₁
    obtain ⟨m', hcalls, hr', hdata, hmem⟩ := ih hr₁ hl₁
    rw [hs₁.data] at hcalls hr' hmem hdata
    refine ⟨m', ?_, hr', hdata, hmem⟩
    rw [calls, hcall, ok_bind]
    dsimp only
    rw [hcalls]
    rfl

/-- Three entries on two lists, sorted, spliced and moved about. -/
theorem calls_refines_two : ∃ m', calls (fun x y : Int => x - y)
    [.init 0, .init 1, .addTail 2 0, .addTail 3 0, .add 4 0, .sort 0, .forEach 0, .move 3 1,
      .spliceInit 0 3, .forEach 1, .empty 0, .delInit 4, .moveTail 3 0, .forEach 0]
    ⟨fun _ => .null, fun _ => .null, fun a => 7 - (a : Int), fun _ => true, 2, 5⟩ =
      .ok (m', [.walk [3, 4, 5], .walk [4, 3, 5], .empty true, .walk [4]]) := by
  have hcmp : TotalPreorder fun x y : Int => decide (x - y ≤ 0) :=
    ⟨fun a b c hab hbc => by simp only [decide_eq_true_eq] at *; omega,
      fun a b => by simp only [Bool.or_eq_true, decide_eq_true_eq]; omega⟩
  have hempty : Represents ⟨fun _ => .null, fun _ => .null, fun a => 7 - (a : Int), fun _ => true, 2, 5⟩
      ⟨[], fun _ => []⟩ :=
    ⟨fun h hh => (List.not_mem_nil hh).elim, fun h k z hz => (List.not_mem_nil hz.1).elim⟩
  obtain ⟨m', hcalls, -⟩ := calls_refines hcmp
    [.init 0, .init 1, .addTail 2 0, .addTail 3 0, .add 4 0, .sort 0, .forEach 0, .move 3 1,
      .spliceInit 0 3, .forEach 1, .empty 0, .delInit 4, .moveTail 3 0, .forEach 0]
    hempty (by decide +kernel)
  exact ⟨m', hcalls⟩

end OsBasics.Lists
