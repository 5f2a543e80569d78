/-
  The operations of `list.h` that take entries out, move them and join lists.

  All of them close a gap or open one: `join x y` makes `y` the successor of `x`, and two chains
  that are joined at their ends are one chain (`isChain_join`). `__list_del` is one join and
  `__list_splice` two, so what they leave is a list again (`listDelBetween_ring`,
  `listSpliceBetween_ring`).
-/
import OsBasics.Lists.Ring

namespace OsBasics.Lists

variable {α : Type} {m m' : ListMem α} {hd : Nat} {l : List Nat}

namespace ListMem

variable (m : ListMem α)

/-- `list_del_init(entry)`. -/
def listDelInit (entry : Ptr) : Except Fault (ListMem α) := do
  let prev ← m.getPrev entry
  let next ← m.getNext entry
  let m ← m.listDelBetween prev next
  m.initListHead entry

/-- `list_move(list, head)`. -/
def listMove (list head : Ptr) : Except Fault (ListMem α) := do
  let prev ← m.getPrev list
  let next ← m.getNext list
  let m ← m.listDelBetween prev next
  m.listAdd list head

/-- `list_move_tail(list, head)`. -/
def listMoveTail (list head : Ptr) : Except Fault (ListMem α) := do
  let prev ← m.getPrev list
  let next ← m.getNext list
  let m ← m.listDelBetween prev next
  m.listAddTail list head

/-- `list_empty(head)`. -/
def listEmpty (head : Ptr) : Except Fault Bool := do
  let next ← m.getNext head
  pure (next = head)

/-- `__list_splice(list, head)`. -/
def listSpliceBetween (list head : Ptr) : Except Fault (ListMem α) := do
  let first ← m.getNext list
  let last ← m.getPrev list
  let next ← m.getNext head
  let m ← m.setPrev first head
  let m ← m.setNext head first
  let m ← m.setNext last next
  m.setPrev next last

/-- `list_splice(list, head)`. -/
def listSplice (list head : Ptr) : Except Fault (ListMem α) := do
  let empty ← m.listEmpty list
  if empty then pure m else m.listSpliceBetween list head

/-- `list_splice_init(list, head)`. -/
def listSpliceInit (list head : Ptr) : Except Fault (ListMem α) := do
  let empty ← m.listEmpty list
  if empty then pure m
  else do
    let m ← m.listSpliceBetween list head
    m.initListHead list

/-- `y` becomes the successor of `x`. -/
def join (x y : Nat) : ListMem α := (m.withNext x (.node y)).withPrev y (.node x)

end ListMem

/-! ## Joins -/

/-- Two chains are joined at their ends. -/
theorem isChain_join {P Q : List Nat} {x y : Nat} (hP : (P ++ [x]).IsChain (Link m))
    (hQ : (y :: Q).IsChain (Link m)) (hxP : x ∉ P) (hxQ : x ∉ (y :: Q).dropLast)
    (hyP : y ∉ (P ++ [x]).tail) (hyQ : y ∉ Q) : (P ++ x :: y :: Q).IsChain (Link (m.join x y)) := by
  rw [List.isChain_append_cons_cons]
  refine ⟨isChain_congr hP (fun z hz => ?_) (fun z hz => ?_), ⟨?_, ?_⟩,
    isChain_congr hQ (fun z hz => ?_) (fun z hz => ?_)⟩
  · rw [List.dropLast_concat] at hz
    exact Function.update_of_ne (ne_of_mem_of_not_mem hz hxP) _ _
  · exact Function.update_of_ne (ne_of_mem_of_not_mem hz hyP) _ _
  · exact Function.update_self _ _ _
  · exact Function.update_self _ _ _
  · exact Function.update_of_ne (ne_of_mem_of_not_mem hz hxQ) _ _
  · exact Function.update_of_ne (ne_of_mem_of_not_mem (show z ∈ Q from hz) hyQ) _ _

theorem sameOff_join {xs : List Nat} {x y : Nat} (hx : x ∈ xs) (hy : y ∈ xs) :
    SameOff xs m (m.join x y) :=
  ⟨fun _ hz => Function.update_of_ne (ne_of_mem_of_not_mem hx hz).symm _ _,
    fun _ hz => Function.update_of_ne (ne_of_mem_of_not_mem hy hz).symm _ _, rfl, fun _ h => h⟩

/-! ## A ring opened at a member -/

/-- The nodes of a ring up to `x` and those behind `x` up to the head. -/
theorem IsRing.opened {A rest : List Nat} {x : Nat} (h : IsRing m hd l)
    (hl : hd :: l = A ++ x :: rest) :
    (A ++ [x]).IsChain (Link m) ∧ (rest ++ [hd]).IsChain (Link m) := by
  have hc := h.chain
  rw [hl, List.append_assoc, List.cons_append, ← List.singleton_append, ← List.append_assoc] at hc
  exact List.isChain_append.1 hc |>.imp id And.left

/-- The successor of `x` in the ring is where the second part starts. -/
theorem concat_eq_headD_cons (rest : List Nat) (hd : Nat) :
    rest ++ [hd] = rest.headD hd :: (rest ++ [hd]).tail := by
  cases rest <;> rfl

/-- In a ring that is opened behind `x`, neither `x` nor its successor is on the other side. -/
theorem notMem_opened {A rest : List Nat} {x : Nat} (hnd : (hd :: l).Nodup)
    (hl : hd :: l = A ++ x :: rest) :
    x ∉ A ∧ x ∉ rest ∧ rest.headD hd ∉ (A ++ [x]).tail ∧ rest.headD hd ∉ (rest ++ [hd]).tail := by
  have hnd' := hnd
  rw [hl] at hnd'
  obtain ⟨hA, hx, hAx⟩ := List.nodup_append.1 hnd'
  refine ⟨fun h => hAx x h x List.mem_cons_self rfl, (List.nodup_cons.1 hx).1, ?_⟩
  have hhd : hd ∉ (A ++ [x]).tail ++ rest := by
    have htail : (A ++ [x]).tail ++ rest = l := by
      cases A with
      | nil => exact ((List.cons.injEq .. ▸ hl : hd = x ∧ l = rest).2).symm
      | cons a A =>
        rw [List.cons_append, List.cons.injEq] at hl
        rw [hl.2, List.cons_append, List.tail_cons, List.append_assoc, List.singleton_append]
    rw [htail]
    exact (List.nodup_cons.1 hnd).1
  cases rest with
  | nil => exact ⟨fun h => hhd (List.mem_append_left _ h), List.not_mem_nil⟩
  | cons y r =>
    have hy := List.nodup_cons.1 (List.nodup_cons.1 hx).2
    refine ⟨fun h => ?_, fun h => ?_⟩
    · obtain h | h := List.mem_append.1 (List.mem_of_mem_tail h)
      · exact hAx y h y (by simp) rfl
      · have hyx : y = x := List.mem_singleton.1 h
        exact (List.nodup_cons.1 hx).1 (hyx ▸ List.mem_cons_self)
    · obtain h | h := List.mem_append.1 h
      · exact hy.1 h
      · have hyhd : y = hd := List.mem_singleton.1 h
        exact hhd (hyhd ▸ List.mem_append_right _ List.mem_cons_self)

/-- The successor of `x`. -/
theorem IsRing.next_of_split {A rest : List Nat} {x : Nat} (h : IsRing m hd l)
    (hl : hd :: l = A ++ x :: rest) : m.next x = .node (rest.headD hd) := by
  cases A with
  | nil =>
    rw [List.nil_append, List.cons.injEq] at hl
    obtain ⟨rfl, rfl⟩ := hl
    exact h.next_head
  | cons w A =>
    rw [List.cons_append, List.cons.injEq] at hl
    obtain ⟨-, rfl⟩ := hl
    exact h.next_eq

/-- The successor of a member is a node of the ring. -/
theorem headD_mem {A rest : List Nat} {x : Nat} (hl : hd :: l = A ++ x :: rest) :
    rest.headD hd ∈ hd :: l := by
  cases rest with
  | nil => exact List.mem_cons_self
  | cons y r => simp [hl]

/-! ## Deletion -/

/-- `__list_del` around the member `e` of a list: `A` up to its predecessor `x`, `rest` behind it.
    `e` is not written. -/
theorem listDelBetween_ring {l' A rest : List Nat} {x e : Nat} (h : IsRing m hd l)
    (hl : hd :: l = A ++ x :: e :: rest) (hl' : hd :: l' = A ++ x :: rest) :
    m.listDelBetween (.node x) (.node (rest.headD hd)) = .ok (m.join x (rest.headD hd)) ∧
      IsRing (m.join x (rest.headD hd)) hd l' ∧ SameOff (hd :: l') m (m.join x (rest.headD hd)) := by
  have hsub : (hd :: l').Sublist (hd :: l) := by
    rw [hl, hl']
    exact (List.sublist_cons_self e rest).cons_cons x |>.append_left A
  have hx : x ∈ hd :: l' := by simp [hl']
  have hy : rest.headD hd ∈ hd :: l' := headD_mem hl'
  have hnd : (hd :: l').Nodup := h.nodup.sublist hsub
  obtain ⟨hxA, hxr, hyA, hyr⟩ := notMem_opened hnd hl'
  refine ⟨?_, ⟨?_, hnd, fun z hz => h.valid z (hsub.subset hz), fun z hz =>
    h.entries z ((List.cons_sublist_cons.1 hsub).subset hz)⟩, sameOff_join hx hy⟩
  · unfold ListMem.listDelBetween
    rw [setPrev_node (h.valid _ (hsub.subset hy)), ok_bind]
    exact setNext_node (by exact h.valid x (hsub.subset hx)) _
  · have hA := (h.opened hl).1
    have hB := (h.opened (x := e) (hl.trans (List.append_cons A x (e :: rest)))).2
    rw [concat_eq_headD_cons rest] at hB
    rw [hl', List.append_assoc, List.cons_append, concat_eq_headD_cons rest]
    refine isChain_join hA hB hxA ?_ hyA hyr
    rw [← concat_eq_headD_cons, List.dropLast_concat]
    exact hxr

/-! ## Splicing -/

/-- `__list_splice` of the entries `ks` of another list behind the member `x`. -/
theorem listSpliceBetween_ring {l' A rest ks : List Nat} {x lst : Nat} (h : IsRing m hd l)
    (hk : IsRing m lst ks) (hks : ks ≠ []) (hl : hd :: l = A ++ x :: rest)
    (hl' : hd :: l' = A ++ x :: (ks ++ rest)) (hdis : List.Disjoint (hd :: l) (lst :: ks)) :
    ∃ m', m.listSpliceBetween (.node lst) (.node x) = .ok m' ∧ IsRing m' hd l' ∧
      SameOff (hd :: l') m m' ∧ m'.data = m.data ∧ m'.fresh = m.fresh := by
  obtain ⟨last, P, hlast⟩ : ∃ last P, ks = P ++ [last] :=
    ⟨ks.getLast hks, ks.dropLast, (List.dropLast_append_getLast hks).symm⟩
  obtain ⟨first, Q, hfirst⟩ := List.exists_cons_of_ne_nil hks
  have hx : x ∈ hd :: l := by simp [hl]
  have hy : rest.headD hd ∈ hd :: l := headD_mem hl
  have hfk : first ∈ ks := by simp [hfirst]
  have hlk : last ∈ ks := by simp [hlast]
  have hmem : ∀ z, z ∈ hd :: l' ↔ z ∈ hd :: l ∨ z ∈ ks := by
    intro z
    rw [hl, hl']
    simp only [List.mem_append, List.mem_cons]
    tauto
  have hnd : (hd :: l').Nodup := by
    have hp : (hd :: l').Perm (hd :: l ++ ks) := by
      rw [hl, hl', List.append_assoc, List.cons_append]
      exact ((List.perm_append_comm).cons x).append_left A
    refine hp.nodup_iff.2 (List.nodup_append.2 ⟨h.nodup, (List.nodup_cons.1 hk.nodup).2, ?_⟩)
    exact fun a ha b hb e => hdis ha (e ▸ List.mem_cons_of_mem lst hb)
  refine ⟨(m.join x first).join last (rest.headD hd), ?_, ⟨?_, hnd, ?_, ?_⟩, ?_, rfl, rfl⟩
  · have hprev : m.prev lst = .node last := hk.prev_head (A := lst :: P) (by rw [hlast]; rfl)
    have hnext : m.next lst = .node first := by
      rw [hk.next_head, hfirst, List.headD_cons]
    unfold ListMem.listSpliceBetween
    have hlv := hk.valid lst List.mem_cons_self
    rw [getNext_node hlv, ok_bind, getPrev_node hlv, ok_bind, getNext_node (h.valid x hx), ok_bind,
      hprev, hnext, h.next_of_split hl,
      setPrev_node (hk.valid first (List.mem_cons_of_mem _ hfk)), ok_bind,
      setNext_node (by exact h.valid x hx), ok_bind,
      setNext_node (by exact hk.valid last (List.mem_cons_of_mem _ hlk)), ok_bind,
      setPrev_node (by exact h.valid _ hy)]
    rfl
  · -- the chain up to `x`, the spliced entries and the rest, joined one after the other
    obtain ⟨hA, hB⟩ := h.opened hl
    have hK : (first :: Q).IsChain (Link m) := by
      rw [← hfirst]
      exact (List.isChain_append.1 hk.chain).1.tail
    have hl₁ : hd :: l' = A ++ x :: P ++ last :: rest := by simp [hl', hlast]
    have hfx : first ∉ hd :: l := fun h' => hdis h' (List.mem_cons_of_mem lst hfk)
    have hxk : x ∉ first :: Q := fun h' => hdis hx (List.mem_cons_of_mem lst (hfirst ▸ h'))
    have hfQ : first ∉ Q := by
      have hnk := (List.nodup_cons.1 hk.nodup).2
      rw [hfirst] at hnk
      exact (List.nodup_cons.1 hnk).1
    have hsub : ∀ z ∈ A ++ [x], z ∈ hd :: l := fun z hz => by
      rw [hl, List.append_cons]
      exact List.mem_append_left rest hz
    have hrest : ∀ z ∈ rest ++ [hd], z ∈ hd :: l := fun z hz => by
      rw [hl]
      obtain hz | hz := List.mem_append.1 hz
      · simp [hz]
      · rw [List.mem_singleton.1 hz, ← hl]
        exact List.mem_cons_self
    have h₁ := isChain_join hA hK (notMem_opened h.nodup hl).1
      (fun h' => hxk (List.dropLast_subset _ h'))
      (fun h' => hfx (hsub _ (List.mem_of_mem_tail h'))) hfQ
    have hB₁ : (rest ++ [hd]).IsChain (Link (m.join x first)) := by
      refine isChain_congr hB (fun z hz => ?_) fun z hz => ?_
      · rw [List.dropLast_concat] at hz
        exact Function.update_of_ne (ne_of_mem_of_not_mem hz (notMem_opened h.nodup hl).2.1) _ _
      · exact Function.update_of_ne
          (ne_of_mem_of_not_mem (hrest z (List.mem_of_mem_tail hz)) hfx) _ _
    obtain ⟨hxA, hxr, hyA, hyr⟩ := notMem_opened hnd hl₁
    rw [← hfirst, hlast, ← List.cons_append, ← List.append_assoc] at h₁
    rw [concat_eq_headD_cons rest] at hB₁
    rw [hl₁, List.append_assoc, List.cons_append, concat_eq_headD_cons rest]
    refine isChain_join h₁ hB₁ hxA ?_ hyA hyr
    rw [← concat_eq_headD_cons, List.dropLast_concat]
    exact hxr
  · intro z hz
    obtain hz | hz := (hmem z).1 hz
    · exact h.valid z hz
    · exact hk.valid z (List.mem_cons_of_mem lst hz)
  · intro z hz
    obtain rfl | hne := eq_or_ne z hd
    · exact absurd hz (List.nodup_cons.1 hnd).1
    · obtain h' | h' := (hmem z).1 (List.mem_cons_of_mem hd hz)
      · exact h.entries z ((List.mem_cons.1 h').resolve_left hne)
      · exact hk.entries z h'
  · exact (sameOff_join ((hmem x).2 (.inl hx)) ((hmem first).2 (.inr hfk))).trans
      (sameOff_join ((hmem last).2 (.inr hlk)) ((hmem _).2 (.inl hy)))

end OsBasics.Lists
