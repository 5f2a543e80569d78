/-
  Lists in memory.

  `IsRing m hd l` says that the list with head `hd` holds the entries `l`: `next`
  leads from the head along `l` back to the head, and `prev` leads the other way.
  `list_add_tail` puts a new entry at the end and `list_add` puts one behind any
  member (`isRing_listAddTail`, `isRing_listAdd`); a list none of whose nodes is
  written stays as it is (`IsRing.congr`). `listForEach_ring` is the rule for a
  loop over a list.
-/
import OsBasics.Lists.ListH
import Mathlib.Data.List.Chain
import Mathlib.Data.List.Perm.Subperm
import Mathlib.Tactic.Tauto

namespace OsBasics.Lists

variable {α : Type} {m m' : ListMem α} {hd a : Nat} {l : List Nat}

/-! ## Reading and writing nodes -/

namespace ListMem

/-- `a` is a node that may be used. -/
def Valid (m : ListMem α) (a : Nat) : Prop := a < m.fresh ∧ m.alive a = true

theorem Valid.lt {m : ListMem α} {a : Nat} (h : m.Valid a) : a < m.fresh := h.1

theorem Valid.alive {m : ListMem α} {a : Nat} (h : m.Valid a) : m.alive a = true := h.2

/-- Memory after `a->next = v`. -/
def withNext (m : ListMem α) (a : Nat) (v : Ptr) : ListMem α :=
  { m with next := Function.update m.next a v }

/-- Memory after `a->prev = v`. -/
def withPrev (m : ListMem α) (a : Nat) (v : Ptr) : ListMem α :=
  { m with prev := Function.update m.prev a v }

/-- Memory after the fields of the entry `a` are stored. -/
def withData (m : ListMem α) (a : Nat) (x : α) : ListMem α :=
  { m with data := Function.update m.data a x }

/-- Memory with a new entry that holds `x`. -/
def withEntry (m : ListMem α) (x : α) : ListMem α := m.malloc.2.withData m.fresh x

variable (m : ListMem α) (a b : Nat) (v : Ptr) (x : α)

@[simp] theorem withNext_fresh : (m.withNext a v).fresh = m.fresh := rfl
@[simp] theorem withNext_heads : (m.withNext a v).heads = m.heads := rfl
@[simp] theorem withNext_data : (m.withNext a v).data = m.data := rfl
@[simp] theorem withNext_prev : (m.withNext a v).prev = m.prev := rfl
@[simp] theorem withNext_next : (m.withNext a v).next = Function.update m.next a v := rfl
@[simp] theorem withPrev_fresh : (m.withPrev a v).fresh = m.fresh := rfl
@[simp] theorem withPrev_heads : (m.withPrev a v).heads = m.heads := rfl
@[simp] theorem withPrev_data : (m.withPrev a v).data = m.data := rfl
@[simp] theorem withPrev_next : (m.withPrev a v).next = m.next := rfl
@[simp] theorem withPrev_prev : (m.withPrev a v).prev = Function.update m.prev a v := rfl
@[simp] theorem withData_fresh : (m.withData a x).fresh = m.fresh := rfl
@[simp] theorem withData_heads : (m.withData a x).heads = m.heads := rfl
@[simp] theorem withData_next : (m.withData a x).next = m.next := rfl
@[simp] theorem withData_prev : (m.withData a x).prev = m.prev := rfl
@[simp] theorem withData_data : (m.withData a x).data = Function.update m.data a x := rfl
@[simp] theorem withEntry_fresh : (m.withEntry x).fresh = m.fresh + 1 := rfl
@[simp] theorem withEntry_heads : (m.withEntry x).heads = m.heads := rfl
@[simp] theorem withEntry_data : (m.withEntry x).data = Function.update m.data m.fresh x := rfl

end ListMem

theorem deref_node (h : m.Valid a) : m.deref (.node a) = .ok a := if_pos h.alive

theorem getNext_node (h : m.Valid a) : m.getNext (.node a) = .ok (m.next a) := by
  unfold ListMem.getNext
  rw [deref_node h]
  rfl

theorem getPrev_node (h : m.Valid a) : m.getPrev (.node a) = .ok (m.prev a) := by
  unfold ListMem.getPrev
  rw [deref_node h]
  rfl

theorem setNext_node (h : m.Valid a) (v : Ptr) :
    m.setNext (.node a) v = .ok (m.withNext a v) := by
  unfold ListMem.setNext
  rw [deref_node h]
  rfl

theorem setPrev_node (h : m.Valid a) (v : Ptr) :
    m.setPrev (.node a) v = .ok (m.withPrev a v) := by
  unfold ListMem.setPrev
  rw [deref_node h]
  rfl

theorem listEntry_node (h : m.Valid a) (hh : m.heads ≤ a) :
    m.listEntry (.node a) = .ok (m.data a) := by
  unfold ListMem.listEntry
  rw [deref_node h]
  exact if_pos hh

theorem setEntry_node (h : m.Valid a) (hh : m.heads ≤ a) (x : α) :
    m.setEntry (.node a) x = .ok (m.withData a x) := by
  unfold ListMem.setEntry
  rw [deref_node h]
  exact if_pos hh

theorem valid_malloc (m : ListMem α) : m.malloc.2.Valid m.fresh :=
  ⟨Nat.lt_succ_self _, Function.update_self _ _ _⟩

theorem listEntry_malloc (hh : m.heads ≤ m.fresh) :
    m.malloc.2.listEntry m.malloc.1 = .ok (m.data m.fresh) :=
  listEntry_node (m := m.malloc.2) (valid_malloc m) hh

theorem setEntry_malloc (hh : m.heads ≤ m.fresh) (x : α) :
    m.malloc.2.setEntry m.malloc.1 x = .ok (m.withEntry x) :=
  setEntry_node (m := m.malloc.2) (valid_malloc m) hh x

/-- A step of an operation that succeeded goes on with its result. -/
theorem ok_bind {ε β γ : Type} (x : β) (f : β → Except ε γ) : (Except.ok x >>= f) = f x := rfl

/-- A sequence has the result its parts have. -/
theorem bind_of_ok {ε β γ : Type} {x : Except ε β} {f : β → Except ε γ} {c : γ}
    (h : ∃ b, x = .ok b ∧ f b = .ok c) : (x >>= f) = .ok c := by
  obtain ⟨b, rfl, hf⟩ := h
  exact hf

/-! ## Rings -/

/-- `next` of `x` is `y`, and `prev` of `y` is `x`. -/
def Link (m : ListMem α) (x y : Nat) : Prop := m.next x = .node y ∧ m.prev y = .node x

/-- The list with head `hd` holds the entries `l`. -/
structure IsRing (m : ListMem α) (hd : Nat) (l : List Nat) : Prop where
  chain : (hd :: l ++ [hd]).IsChain (Link m)
  nodup : (hd :: l).Nodup
  valid : ∀ x ∈ hd :: l, m.Valid x
  entries : ∀ x ∈ l, m.heads ≤ x

/-- The node of a list after its members `pre`: the first of `rest`, or the head. -/
theorem IsRing.next_eq {pre rest : List Nat} {x : Nat} (h : IsRing m hd (pre ++ x :: rest)) :
    m.next x = .node (rest.headD hd) := by
  have hc := h.chain
  rw [List.cons_append, List.append_assoc, List.cons_append, ← List.cons_append] at hc
  cases rest with
  | nil => exact (List.isChain_append_cons_cons.1 hc).2.1.1
  | cons y rest => exact (List.isChain_append_cons_cons.1 hc).2.1.1

theorem IsRing.next_head (h : IsRing m hd l) : m.next hd = .node (l.headD hd) := by
  have hc := h.chain
  cases l with
  | nil => exact (List.isChain_cons_cons.1 hc).1.1
  | cons y l => exact (List.isChain_cons_cons.1 hc).1.1

theorem IsRing.prev_head {A : List Nat} {x : Nat} (h : IsRing m hd l) (hl : hd :: l = A ++ [x]) :
    m.prev hd = .node x := by
  have hc := h.chain
  rw [hl, List.append_assoc, List.singleton_append] at hc
  exact (List.isChain_append_cons_cons.1 hc).2.1.2

/-- The node before a member of a list: the member before it, or the head. -/
theorem IsRing.prev_eq {A rest : List Nat} {x y : Nat} (h : IsRing m hd l)
    (hl : hd :: l = A ++ y :: x :: rest) : m.prev x = .node y := by
  have hc := h.chain
  rw [hl, List.append_assoc, List.cons_append, List.cons_append] at hc
  exact (List.isChain_append_cons_cons.1 hc).2.1.2

/-- A chain survives a change of memory that keeps the links it reads. -/
theorem isChain_congr {c : List Nat} (h : c.IsChain (Link m))
    (hn : ∀ x ∈ c.dropLast, m'.next x = m.next x) (hp : ∀ x ∈ c.tail, m'.prev x = m.prev x) :
    c.IsChain (Link m') := by
  rw [List.isChain_iff_forall_rel_of_append_cons_cons] at h ⊢
  intro x y l₁ l₂ hl
  have hx : x ∈ c.dropLast := by simp [hl, List.dropLast_append_of_ne_nil]
  have hy : y ∈ c.tail := by cases l₁ <;> simp [hl]
  exact ⟨(hn x hx).trans (h hl).1, (hp y hy).trans (h hl).2⟩

/-- Memory changed at the nodes `xs` only, and by new nodes. -/
structure SameOff (xs : List Nat) (m m' : ListMem α) : Prop where
  next : ∀ x, x ∉ xs → m'.next x = m.next x
  prev : ∀ x, x ∉ xs → m'.prev x = m.prev x
  heads : m'.heads = m.heads
  valid : ∀ x, m.Valid x → m'.Valid x

theorem SameOff.refl (xs : List Nat) (m : ListMem α) : SameOff xs m m :=
  ⟨fun _ _ => rfl, fun _ _ => rfl, rfl, fun _ h => h⟩

theorem SameOff.trans {xs : List Nat} {m₁ m₂ m₃ : ListMem α} (h : SameOff xs m₁ m₂)
    (h' : SameOff xs m₂ m₃) : SameOff xs m₁ m₃ :=
  ⟨fun x hx => (h'.next x hx).trans (h.next x hx), fun x hx => (h'.prev x hx).trans (h.prev x hx),
    h'.heads.trans h.heads, fun x hx => h'.valid x (h.valid x hx)⟩

theorem SameOff.mono {xs ys : List Nat} (h : SameOff xs m m') (hxy : xs ⊆ ys) : SameOff ys m m' :=
  ⟨fun x hx => h.next x fun hm => hx (hxy hm), fun x hx => h.prev x fun hm => hx (hxy hm),
    h.heads, h.valid⟩

/-- A list is unchanged when other nodes are written. -/
theorem IsRing.congr {xs : List Nat} (h : IsRing m hd l) (hs : SameOff xs m m')
    (hdis : ∀ x ∈ hd :: l, x ∉ xs) : IsRing m' hd l where
  chain := by
    have hmem : ∀ x, x ∈ hd :: l ++ [hd] → x ∈ hd :: l := by
      intro x hx
      obtain hx | hx := List.mem_append.1 hx
      · exact hx
      · rw [List.mem_singleton.1 hx]
        exact List.mem_cons_self
    exact isChain_congr h.chain
      (fun x hx => hs.next x (hdis x (hmem x (List.dropLast_subset _ hx))))
      (fun x hx => hs.prev x (hdis x (hmem x (List.mem_of_mem_tail hx))))
  nodup := h.nodup
  valid x hx := hs.valid x (h.valid x hx)
  entries x hx := hs.heads ▸ h.entries x hx

theorem valid_withEntry (x : α) : ∀ z, m.Valid z → (m.withEntry x).Valid z :=
  fun _ hz => ⟨hz.lt.trans (Nat.lt_succ_self _),
    (Function.update_of_ne hz.lt.ne _ _).trans hz.alive⟩

/-- A new entry is in no list. -/
theorem IsRing.withEntry (h : IsRing m hd l) (x : α) : IsRing (m.withEntry x) hd l :=
  h.congr (show SameOff [] m (m.withEntry x) from
    ⟨fun _ _ => rfl, fun _ _ => rfl, rfl, valid_withEntry x⟩) fun _ _ => List.not_mem_nil

/-- The data of the entries is not part of a list. -/
theorem IsRing.withData (h : IsRing m hd l) (a : Nat) (x : α) : IsRing (m.withData a x) hd l :=
  h.congr (show SameOff [] m (m.withData a x) from
    ⟨fun _ _ => rfl, fun _ _ => rfl, rfl, fun _ hz => hz⟩) fun _ _ => List.not_mem_nil

theorem IsRing.fresh_notMem (h : IsRing m hd l) : m.fresh ∉ hd :: l :=
  fun hm => Nat.lt_irrefl _ (h.valid _ hm).lt

/-- The nodes that `next` leads through from `pos` to the head, at most `n`. -/
def membersFrom (m : ListMem α) (hd : Nat) : Nat → Ptr → List Nat
  | 0, _ => []
  | n + 1, .node a => if a = hd then [] else a :: membersFrom m hd n (m.next a)
  | _ + 1, _ => []

/-- The members of the list with head `hd`. -/
def members (m : ListMem α) (hd : Nat) : List Nat := membersFrom m hd m.fresh (m.next hd)

/-- A list with its head has no more members than there are nodes. -/
theorem IsRing.length_lt (h : IsRing m hd l) : l.length < m.fresh := by
  have hsub : hd :: l ⊆ List.range m.fresh := fun x hx => List.mem_range.2 (h.valid x hx).lt
  have := (h.nodup.subperm hsub).length_le
  rwa [List.length_range] at this

/-- A list holds its members. -/
theorem IsRing.members (h : IsRing m hd l) : members m hd = l := by
  have hwalk : ∀ rest done n, l = done ++ rest → rest.length < n →
      membersFrom m hd n (.node (rest.headD hd)) = rest := by
    intro rest
    induction rest with
    | nil =>
      intro done n hl hn
      obtain ⟨n, rfl⟩ := Nat.exists_eq_add_of_lt hn
      exact if_pos rfl
    | cons x rest ih =>
      intro done n hl hn
      obtain ⟨n, rfl⟩ := Nat.exists_eq_add_of_lt hn
      have hne : x ≠ hd := fun e => (List.nodup_cons.1 h.nodup).1 (by simp [hl, ← e])
      have hnext : m.next x = .node (rest.headD hd) := by
        rw [hl] at h
        exact h.next_eq
      rw [List.headD_cons, membersFrom, if_neg hne, hnext,
        ih (done ++ [x]) _ (by simp [hl]) (by simp only [List.length_cons]; omega)]
  rw [OsBasics.Lists.members, h.next_head]
  exact hwalk l [] _ rfl h.length_lt

/-- The nodes from 2 on, linked in turn. -/
theorem isRing_range' {n : Nat} (hvalid : ∀ x < n + 2, m.Valid x) (hheads : m.heads ≤ 2)
    (hlink : ∀ i ≤ n, Link m (if i = 0 then 0 else i + 1) (if i = n then 0 else i + 2)) :
    IsRing m 0 (List.range' 2 n) where
  chain := by
    rw [List.isChain_iff_getElem]
    intro i hi
    have hi' : i ≤ n := by
      simp only [List.length_append, List.length_cons, List.length_range', List.length_nil] at hi
      omega
    have hread : ∀ j (hj : j < (0 :: List.range' 2 n ++ [0]).length),
        (0 :: List.range' 2 n ++ [0])[j] = if j = 0 ∨ j = n + 1 then 0 else j + 1 := by
      intro j hj
      simp only [List.length_append, List.length_cons, List.length_range', List.length_nil] at hj
      obtain rfl | hpos := Nat.eq_zero_or_pos j
      · rfl
      · by_cases hlast : j = n + 1
        · rw [if_pos (.inr hlast), List.getElem_append_right (by simp; omega)]
          simp
        · rw [if_neg (by omega), List.getElem_append_left (by simp; omega), List.getElem_cons,
            dif_neg hpos.ne', List.getElem_range']
          omega
    have h := hlink i hi'
    rw [hread, hread]
    rwa [show (if i = 0 ∨ i = n + 1 then 0 else i + 1) = if i = 0 then 0 else i + 1 by
        split <;> split <;> omega,
      show (if i + 1 = 0 ∨ i + 1 = n + 1 then 0 else i + 1 + 1) = if i = n then 0 else i + 2 by
        split <;> split <;> omega]
  nodup := by simp [List.nodup_range']
  valid x hx := by
    refine hvalid x ?_
    simp only [List.mem_cons, List.mem_range'_1] at hx
    omega
  entries x hx := hheads.trans (List.mem_range'_1.1 hx).1

/-! ## Operations -/

/-- `INIT_LIST_HEAD` makes an empty list. -/
theorem initListHead_ring (hv : m.Valid hd) : ∃ m', m.initListHead (.node hd) = .ok m' ∧
    IsRing m' hd [] ∧ SameOff [hd] m m' ∧ m'.data = m.data ∧ m'.fresh = m.fresh := by
  refine ⟨(m.withNext hd (.node hd)).withPrev hd (.node hd), ?_, ⟨?_, by simp, ?_,
    by simp⟩, ⟨?_, ?_, rfl, fun _ h => h⟩, rfl, rfl⟩
  · unfold ListMem.initListHead
    rw [setNext_node hv, ok_bind, setPrev_node (by exact hv)]
  · simp [Link]
  · intro x hx
    rw [List.mem_singleton.1 hx]
    exact hv
  · intro x hx
    exact Function.update_of_ne (by simpa using hx) _ _
  · intro x hx
    exact Function.update_of_ne (by simpa using hx) _ _

/-- A node linked in between two neighbours of a chain. -/
theorem isChain_insert {A B : List Nat} {x y n : Nat}
    (hc : (A ++ x :: y :: B).IsChain (Link m)) (hdl : (A ++ x :: y :: B).dropLast.Nodup)
    (htl : (A ++ x :: y :: B).tail.Nodup) (hn : n ∉ A ++ x :: y :: B)
    (hnext : m'.next = Function.update (Function.update m.next n (.node y)) x (.node n))
    (hprev : m'.prev = Function.update (Function.update m.prev y (.node n)) n (.node x)) :
    (A ++ x :: n :: y :: B).IsChain (Link m') := by
  obtain ⟨hA, -, hB⟩ := List.isChain_append_cons_cons.1 hc
  simp only [List.mem_append, List.mem_cons, not_or] at hn
  obtain ⟨hnA, hnx, hny, hnB⟩ := hn
  rw [List.dropLast_append_of_ne_nil (by simp), List.dropLast_cons_of_ne_nil (by simp)] at hdl
  have hxA : x ∉ A := fun h => (List.nodup_append.1 hdl).2.2 x h x List.mem_cons_self rfl
  have hxB : x ∉ (y :: B).dropLast := (List.nodup_cons.1 (List.nodup_append.1 hdl).2.1).1
  have hyA : y ∉ (A ++ [x]).tail ∧ y ∉ B := by
    cases A with
    | nil =>
      rw [List.nil_append, List.tail_cons] at htl
      exact ⟨by simp, (List.nodup_cons.1 htl).1⟩
    | cons z A =>
      rw [List.cons_append, List.tail_cons] at htl
      have h := List.nodup_append.1 htl
      have h' := List.nodup_cons.1 h.2.1
      refine ⟨fun hy => ?_, (List.nodup_cons.1 h'.2).1⟩
      rw [List.cons_append, List.tail_cons, List.mem_append, List.mem_singleton] at hy
      obtain hy | hy := hy
      · exact h.2.2 y hy y (by simp) rfl
      · exact h'.1 (by simp [hy])
  rw [List.isChain_append_cons_cons, List.isChain_cons_cons]
  refine ⟨isChain_congr hA (fun z hz => ?_) (fun z hz => ?_), ⟨?_, ?_⟩, ⟨?_, ?_⟩,
    isChain_congr hB (fun z hz => ?_) (fun z hz => ?_)⟩
  · rw [List.dropLast_concat] at hz
    rw [hnext, Function.update_of_ne (ne_of_mem_of_not_mem hz hxA),
      Function.update_of_ne (ne_of_mem_of_not_mem hz hnA)]
  · have hzA := List.mem_of_mem_tail hz
    have hzn : z ≠ n := by
      intro e
      subst e
      obtain h | h := List.mem_append.1 hzA
      · exact hnA h
      · exact hnx (List.mem_singleton.1 h)
    rw [hprev, Function.update_of_ne hzn, Function.update_of_ne (ne_of_mem_of_not_mem hz hyA.1)]
  · rw [hnext, Function.update_self]
  · rw [hprev, Function.update_self]
  · rw [hnext, Function.update_of_ne hnx, Function.update_self]
  · rw [hprev, Function.update_of_ne (Ne.symm hny), Function.update_self]
  · have hzn : z ≠ n := by
      intro e
      subst e
      obtain h | h := List.mem_cons.1 (List.dropLast_subset _ hz)
      · exact hny h
      · exact hnB h
    rw [hnext, Function.update_of_ne (ne_of_mem_of_not_mem hz hxB), Function.update_of_ne hzn]
  · rw [List.tail_cons] at hz
    rw [hprev, Function.update_of_ne (ne_of_mem_of_not_mem hz hnB),
      Function.update_of_ne (ne_of_mem_of_not_mem hz hyA.2)]

/-- `__list_add` behind the member `x` of a list: `A` up to `x`, `rest` behind it. -/
theorem listAddBetween_ring {l' A rest : List Nat} {x n : Nat} (h : IsRing m hd l)
    (hl : hd :: l = A ++ x :: rest) (hl' : hd :: l' = A ++ x :: n :: rest) (hv : m.Valid n)
    (he : m.heads ≤ n) (hn : n ∉ hd :: l) :
    ∃ m', m.listAddBetween (.node n) (.node x) (.node (rest.headD hd)) = .ok m' ∧
      IsRing m' hd l' ∧ SameOff (n :: hd :: l) m m' ∧ m'.data = m.data ∧ m'.fresh = m.fresh := by
  have hx : x ∈ hd :: l := by simp [hl]
  have hy : rest.headD hd ∈ hd :: l := by
    cases rest with
    | nil => exact List.mem_cons_self
    | cons y r => simp [hl]
  have hxv := h.valid x hx
  have hyv := h.valid _ hy
  refine ⟨((((m.withPrev (rest.headD hd) (.node n)).withNext n (.node (rest.headD hd))).withPrev n
    (.node x)).withNext x (.node n)), ?_, ⟨?_, ?_, ?_, ?_⟩, ⟨?_, ?_, rfl, fun _ h => h⟩, rfl, rfl⟩
  · unfold ListMem.listAddBetween
    rw [setPrev_node hyv, ok_bind, setNext_node (by exact hv), ok_bind, setPrev_node (by exact hv),
      ok_bind, setNext_node (by exact hxv)]
  · -- the ring, opened at the head, is a chain that is cut behind `x`
    have hcyc : ∃ B, hd :: l ++ [hd] = A ++ x :: rest.headD hd :: B ∧
        hd :: l' ++ [hd] = A ++ x :: n :: rest.headD hd :: B := by
      rw [hl, hl']
      cases rest with
      | nil => exact ⟨[], by simp⟩
      | cons y r => exact ⟨r ++ [hd], by simp⟩
    obtain ⟨B, hB, hB'⟩ := hcyc
    have hnd := h.nodup
    rw [hB']
    refine isChain_insert (m := m) ?_ ?_ ?_ ?_ rfl rfl
    · rw [← hB]; exact h.chain
    · rw [← hB, List.dropLast_concat]; exact hnd
    · rw [← hB, List.cons_append, List.tail_cons]
      rw [List.nodup_cons] at hnd
      exact (List.perm_append_singleton hd l).nodup_iff.2 (List.nodup_cons.2 hnd)
    · rw [← hB, List.mem_append, List.mem_singleton, not_or]
      exact ⟨hn, fun e => hn (by simp [e])⟩
  · have hnd := h.nodup
    rw [hl] at hnd hn
    rw [hl']
    have hp : (A ++ x :: n :: rest).Perm (n :: (A ++ x :: rest)) := by
      rw [← List.singleton_append (x := x), ← List.append_assoc,
        show A ++ x :: rest = A ++ [x] ++ rest by simp]
      exact List.perm_middle
    exact hp.nodup_iff.2 (List.nodup_cons.2 ⟨hn, hnd⟩)
  · intro z hz
    rw [hl'] at hz
    have hz' : z = n ∨ z ∈ hd :: l := by
      rw [hl]
      simp only [List.mem_append, List.mem_cons] at hz ⊢
      tauto
    obtain rfl | hz := hz'
    · exact hv
    · exact h.valid z hz
  · intro z hz
    have hz' : z = n ∨ z ∈ l := by
      cases A with
      | nil =>
        rw [List.nil_append, List.cons.injEq] at hl hl'
        rw [hl'.2] at hz
        rw [hl.2]
        exact List.mem_cons.1 hz
      | cons w A =>
        rw [List.cons_append, List.cons.injEq] at hl hl'
        rw [hl'.2] at hz
        rw [hl.2]
        simp only [List.mem_append, List.mem_cons] at hz ⊢
        tauto
    obtain rfl | hz := hz'
    · exact he
    · exact h.entries z hz
  · intro z hz
    simp only [List.mem_cons, not_or] at hz
    have hzx : z ≠ x := fun e => by
      subst e
      exact (List.mem_cons.1 hx).elim hz.2.1 hz.2.2
    simp only [ListMem.withNext_next, ListMem.withPrev_next]
    rw [Function.update_of_ne hzx, Function.update_of_ne hz.1]
  · intro z hz
    simp only [List.mem_cons, not_or] at hz
    have hzy : z ≠ rest.headD hd := fun e => by
      rw [e] at hz
      exact (List.mem_cons.1 hy).elim hz.2.1 hz.2.2
    simp only [ListMem.withNext_prev, ListMem.withPrev_prev]
    rw [Function.update_of_ne hz.1, Function.update_of_ne hzy]

/-- `list_add_tail` puts a new entry at the end. -/
theorem listAddTail_ring {n : Nat} (h : IsRing m hd l) (hv : m.Valid n) (he : m.heads ≤ n)
    (hn : n ∉ hd :: l) : ∃ m', m.listAddTail (.node n) (.node hd) = .ok m' ∧
      IsRing m' hd (l ++ [n]) ∧ SameOff (n :: hd :: l) m m' ∧ m'.data = m.data ∧
      m'.fresh = m.fresh := by
  obtain ⟨A, x, hA⟩ : ∃ A x, hd :: l = A ++ [x] :=
    ⟨(hd :: l).dropLast, (hd :: l).getLast (by simp), (List.dropLast_append_getLast _).symm⟩
  obtain ⟨m', hcode, hrest⟩ := listAddBetween_ring h hA
    (show hd :: (l ++ [n]) = A ++ x :: n :: [] by rw [← List.cons_append, hA]; simp) hv he hn
  refine ⟨m', ?_, hrest⟩
  unfold ListMem.listAddTail
  rw [getPrev_node (h.valid hd List.mem_cons_self), ok_bind, h.prev_head hA]
  exact hcode

/-- `list_add_tail` at a member `x` puts a new entry in front of it. -/
theorem listAddTail_ring_before {A rest : List Nat} {x n : Nat} (h : IsRing m hd (A ++ x :: rest))
    (hv : m.Valid n) (he : m.heads ≤ n) (hn : n ∉ hd :: (A ++ x :: rest)) :
    ∃ m', m.listAddTail (.node n) (.node x) = .ok m' ∧ IsRing m' hd (A ++ n :: x :: rest) ∧
      SameOff (n :: hd :: (A ++ x :: rest)) m m' ∧ m'.data = m.data ∧ m'.fresh = m.fresh := by
  obtain ⟨B, y, hB⟩ : ∃ B y, hd :: A = B ++ [y] :=
    ⟨(hd :: A).dropLast, (hd :: A).getLast (by simp), (List.dropLast_append_getLast _).symm⟩
  have hl : hd :: (A ++ x :: rest) = B ++ y :: x :: rest := by
    rw [← List.cons_append, hB]
    simp
  have hl' : hd :: (A ++ n :: x :: rest) = B ++ y :: n :: x :: rest := by
    rw [← List.cons_append, hB]
    simp
  obtain ⟨m', hcode, hrest⟩ := listAddBetween_ring h hl hl' hv he hn
  refine ⟨m', ?_, hrest⟩
  unfold ListMem.listAddTail
  rw [getPrev_node (h.valid x (by simp)), ok_bind, h.prev_eq hl]
  exact hcode

/-- `list_add` puts a new entry behind the member `x`, or in front when `x` is the head. -/
theorem listAdd_ring {l' A rest : List Nat} {x n : Nat} (h : IsRing m hd l)
    (hl : hd :: l = A ++ x :: rest) (hl' : hd :: l' = A ++ x :: n :: rest) (hv : m.Valid n)
    (he : m.heads ≤ n) (hn : n ∉ hd :: l) :
    ∃ m', m.listAdd (.node n) (.node x) = .ok m' ∧ IsRing m' hd l' ∧
      SameOff (n :: hd :: l) m m' ∧ m'.data = m.data ∧ m'.fresh = m.fresh := by
  have hnext : m.next x = .node (rest.headD hd) := by
    cases A with
    | nil =>
      rw [List.nil_append, List.cons.injEq] at hl
      obtain ⟨rfl, rfl⟩ := hl
      exact h.next_head
    | cons w A =>
      rw [List.cons_append, List.cons.injEq] at hl
      obtain ⟨-, rfl⟩ := hl
      exact h.next_eq
  have hx : x ∈ hd :: l := by simp [hl]
  unfold ListMem.listAdd
  rw [getNext_node (h.valid x hx), ok_bind, hnext]
  exact listAddBetween_ring h hl hl' hv he hn

/-- A new entry at the end of a list. -/
theorem addEntry_ring (h : IsRing m hd l) (he : m.heads ≤ m.fresh) (x : α) :
    ∃ m', (m.withEntry x).listAddTail m.malloc.1 (.node hd) = .ok m' ∧
      IsRing m' hd (l ++ [m.fresh]) ∧ SameOff (m.fresh :: hd :: l) m m' ∧
      m'.data = Function.update m.data m.fresh x ∧ m'.fresh = m.fresh + 1 := by
  obtain ⟨m', hadd, hring, hoff, hdata, hfresh⟩ :=
    listAddTail_ring (n := m.fresh) (h.withEntry x) (valid_malloc m) he h.fresh_notMem
  exact ⟨m', hadd, hring, ⟨hoff.next, hoff.prev, hoff.heads, fun z hz => hoff.valid z (valid_withEntry x z hz)⟩,
    hdata, hfresh⟩

/-! ## Loops over a list -/

theorem forEachFrom_step {σ : Type} {mem : σ → ListMem α} {body : Ptr → σ → Except Fault σ}
    {head pos : Ptr} {s s' : σ} {n : Nat} (hne : pos ≠ head) (hbody : body pos s = .ok s') :
    forEachFrom mem head body (n + 1) pos s =
      (mem s').getNext pos >>= fun pos => forEachFrom mem head body n pos s' := by
  rw [forEachFrom, if_neg hne, hbody]
  rfl

/-- The rule for `list_for_each`: `I` relates the members done to the state, and the
    body takes it over each member in turn. The list itself may be written as long as
    the loop finds it again. -/
theorem listForEach_rule {σ : Type} {mem : σ → ListMem α} {body : Ptr → σ → Except Fault σ}
    (I : List Nat → σ → Prop) (hring : ∀ done s, I done s → IsRing (mem s) hd l)
    (hstep : ∀ done x rest s, l = done ++ x :: rest → I done s →
      ∃ s', body (.node x) s = .ok s' ∧ I (done ++ [x]) s')
    {s : σ} (h0 : I [] s) : ∃ s', listForEach mem (.node hd) body s = .ok s' ∧ I l s' := by
  have hloop : ∀ rest done n s, l = done ++ rest → rest.length < n → I done s →
      ∃ s', forEachFrom mem (.node hd) body n (.node (rest.headD hd)) s = .ok s' ∧ I l s' := by
    intro rest
    induction rest with
    | nil =>
      intro done n s hl hn hI
      obtain ⟨n, rfl⟩ := Nat.exists_eq_add_of_lt hn
      refine ⟨s, if_pos rfl, ?_⟩
      rw [hl, List.append_nil]
      exact hI
    | cons x rest ih =>
      intro done n s hl hn hI
      obtain ⟨n, rfl⟩ := Nat.exists_eq_add_of_lt hn
      obtain ⟨s₁, hbody, hI₁⟩ := hstep done x rest s hl hI
      have hR := hring _ _ hI₁
      have hx : x ∈ hd :: l := by simp [hl]
      have hne : x ≠ hd := by
        rintro rfl
        exact (List.nodup_cons.1 hR.nodup).1 (by simp [hl])
      have hnext : (mem s₁).next x = .node (rest.headD hd) := by
        rw [hl] at hR
        exact hR.next_eq
      obtain ⟨s', hloop, hI'⟩ := ih (done ++ [x]) (rest.length + 1 + n) s₁
        (by simp [hl]) (by omega) hI₁
      refine ⟨s', ?_, hI'⟩
      rw [List.headD_cons, forEachFrom_step (by simpa using hne) hbody,
        getNext_node (hR.valid x hx), ok_bind, hnext]
      exact hloop
  have hR := hring _ _ h0
  unfold listForEach
  rw [getNext_node (hR.valid hd List.mem_cons_self), ok_bind, hR.next_head]
  refine hloop l [] _ s rfl ?_ h0
  have := hR.length_lt
  omega

theorem forEachUntilFrom_step {σ : Type} {mem : σ → ListMem α}
    {body : Ptr → σ → Except Fault (σ × Bool)} {head pos : Ptr} {s s' : σ} {n : Nat}
    (hne : pos ≠ head) (hbody : body pos s = .ok (s', false)) :
    forEachUntilFrom mem head body (n + 1) pos s =
      (mem s').getNext pos >>= fun pos => forEachUntilFrom mem head body n pos s' := by
  rw [forEachUntilFrom, if_neg hne, hbody]
  rfl

theorem forEachUntilFrom_leave {σ : Type} {mem : σ → ListMem α}
    {body : Ptr → σ → Except Fault (σ × Bool)} {head pos : Ptr} {s s' : σ} {n : Nat}
    (hne : pos ≠ head) (hbody : body pos s = .ok (s', true)) :
    forEachUntilFrom mem head body (n + 1) pos s = .ok (s', pos) := by
  rw [forEachUntilFrom, if_neg hne, hbody]
  rfl

/-- The rule for a loop that may be left. The body may put entries into the list, as long as none
    comes between the member it is at and the rest; so it is at the members of `l` in turn,
    until `Q` holds where the loop is left. -/
theorem listForEachUntil_rule {σ : Type} {mem : σ → ListMem α}
    {body : Ptr → σ → Except Fault (σ × Bool)} (I : List Nat → σ → Prop)
    (Q : List Nat → Nat → σ → Prop)
    (hring : ∀ done x rest s, l = done ++ x :: rest → I (done ++ [x]) s →
      ∃ pre, IsRing (mem s) hd (pre ++ x :: rest))
    (hstep : ∀ done x rest s, l = done ++ x :: rest → I done s →
      ∃ s' left, body (.node x) s = .ok (s', left) ∧
        if left then Q done x s' else I (done ++ [x]) s')
    {s : σ} (hR : IsRing (mem s) hd l) (h0 : I [] s) :
    (∃ s', listForEachUntil mem (.node hd) body s = .ok (s', .node hd) ∧ I l s') ∨
      ∃ done x rest s', l = done ++ x :: rest ∧
        listForEachUntil mem (.node hd) body s = .ok (s', .node x) ∧ Q done x s' := by
  have hnotMem : ∀ x ∈ l, x ≠ hd := fun x hx e => (List.nodup_cons.1 hR.nodup).1 (e ▸ hx)
  have hloop : ∀ rest done n s, l = done ++ rest → rest.length < n → I done s →
      (∃ s', forEachUntilFrom mem (.node hd) body n (.node (rest.headD hd)) s = .ok (s', .node hd) ∧
        I l s') ∨
      ∃ done x rest' s', l = done ++ x :: rest' ∧
        forEachUntilFrom mem (.node hd) body n (.node (rest.headD hd)) s = .ok (s', .node x) ∧
        Q done x s' := by
    intro rest
    induction rest with
    | nil =>
      intro done n s hl hn hI
      obtain ⟨n, rfl⟩ := Nat.exists_eq_add_of_lt hn
      refine .inl ⟨s, if_pos rfl, ?_⟩
      rw [hl, List.append_nil]
      exact hI
    | cons x rest ih =>
      intro done n s hl hn hI
      obtain ⟨n, rfl⟩ := Nat.exists_eq_add_of_lt hn
      obtain ⟨s₁, left, hbody, hleft⟩ := hstep done x rest s hl hI
      have hne : x ≠ hd := hnotMem x (by simp [hl])
      cases left with
      | true =>
        refine .inr ⟨done, x, rest, s₁, hl, ?_, hleft⟩
        rw [List.headD_cons, forEachUntilFrom_leave (by simpa using hne) hbody]
      | false =>
        obtain ⟨pre, hR₁⟩ := hring done x rest s₁ hl hleft
        have hstart : forEachUntilFrom mem (.node hd) body ((x :: rest).length + n + 1)
            (.node ((x :: rest).headD hd)) s =
              forEachUntilFrom mem (.node hd) body (rest.length + 1 + n) (.node (rest.headD hd)) s₁ := by
          rw [List.headD_cons, forEachUntilFrom_step (by simpa using hne) hbody,
            getNext_node (hR₁.valid x (by simp)), ok_bind, hR₁.next_eq]
          rfl
        rw [hstart]
        exact ih (done ++ [x]) (rest.length + 1 + n) s₁ (by simp [hl]) (by omega) hleft
  unfold listForEachUntil
  rw [getNext_node (hR.valid hd List.mem_cons_self), ok_bind, hR.next_head]
  refine hloop l [] _ s rfl ?_ h0
  have := hR.length_lt
  omega

end OsBasics.Lists
