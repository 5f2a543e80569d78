/-
  `list.h`: intrusive circular doubly linked lists, and `list_sort`.

  Both simulators include this header; `list_sort` is in the disk simulator's copy.
  Memory is a set of nodes, numbered from 0 up to `fresh`. The first `heads` of them
  are bare list heads inside a `struct rq`; the others are entries and carry data.
  Reading a node through a pointer that leads to no node that is `alive`, or an
  entry's data through one that is no entry, is a `Fault`, and so is a walk that never
  meets its end: a walk of more steps than there are nodes has met one of them twice.
-/
import Mathlib.Logic.Function.Basic

namespace OsBasics.Lists

/-- The value of a `struct list_head *`. -/
inductive Ptr where
  | null
  /-- `LIST_POISON1` -/
  | poison1
  /-- `LIST_POISON2` -/
  | poison2
  | node (a : Nat)
  deriving DecidableEq, Repr

/-- Why a list operation has no result. -/
inductive Fault where
  | badPtr
  | hang
  deriving DecidableEq, Repr

/-- The nodes in memory. -/
structure ListMem (α : Type) where
  next : Nat → Ptr
  prev : Nat → Ptr
  data : Nat → α
  alive : Nat → Bool
  heads : Nat
  fresh : Nat

namespace ListMem

variable {α : Type} (m : ListMem α)

/-- The node a pointer leads to. -/
def deref : Ptr → Except Fault Nat
  | .node a => if m.alive a then pure a else .error .badPtr
  | _ => .error .badPtr

/-- `p->next`. -/
def getNext (p : Ptr) : Except Fault Ptr := do
  let a ← m.deref p
  pure (m.next a)

/-- `p->prev`. -/
def getPrev (p : Ptr) : Except Fault Ptr := do
  let a ← m.deref p
  pure (m.prev a)

/-- `p->next = v`. -/
def setNext (p v : Ptr) : Except Fault (ListMem α) := do
  let a ← m.deref p
  pure { m with next := Function.update m.next a v }

/-- `p->prev = v`. -/
def setPrev (p v : Ptr) : Except Fault (ListMem α) := do
  let a ← m.deref p
  pure { m with prev := Function.update m.prev a v }

/-- `*list_entry(p, struct task_struct, tasks)`. -/
def listEntry (p : Ptr) : Except Fault α := do
  let a ← m.deref p
  if m.heads ≤ a then pure (m.data a) else .error .badPtr

/-- Store the fields of the entry at `p`. -/
def setEntry (p : Ptr) (x : α) : Except Fault (ListMem α) := do
  let a ← m.deref p
  if m.heads ≤ a then pure { m with data := Function.update m.data a x } else .error .badPtr

/-- `malloc(sizeof(struct task_struct))`: a new entry, with whatever its fields held. -/
def malloc : Ptr × ListMem α :=
  (.node m.fresh, { m with alive := Function.update m.alive m.fresh true, fresh := m.fresh + 1 })

/-! ## Insertion and deletion -/

/-- `INIT_LIST_HEAD(ptr)`. -/
def initListHead (ptr : Ptr) : Except Fault (ListMem α) := do
  let m ← m.setNext ptr ptr
  m.setPrev ptr ptr

/-- `__list_add(new, prev, next)`. -/
def listAddBetween (new prev next : Ptr) : Except Fault (ListMem α) := do
  let m ← m.setPrev next new
  let m ← m.setNext new next
  let m ← m.setPrev new prev
  m.setNext prev new

/-- `list_add(new, head)`. -/
def listAdd (new head : Ptr) : Except Fault (ListMem α) := do
  let next ← m.getNext head
  m.listAddBetween new head next

/-- `list_add_tail(new, head)`. -/
def listAddTail (new head : Ptr) : Except Fault (ListMem α) := do
  let prev ← m.getPrev head
  m.listAddBetween new prev head

/-- `__list_del(prev, next)`. -/
def listDelBetween (prev next : Ptr) : Except Fault (ListMem α) := do
  let m ← m.setPrev next prev
  m.setNext prev next

/-- `list_del(entry)`. -/
def listDel (entry : Ptr) : Except Fault (ListMem α) := do
  let prev ← m.getPrev entry
  let next ← m.getNext entry
  let m ← m.listDelBetween prev next
  let m ← m.setNext entry .poison1
  m.setPrev entry .poison2

end ListMem

/-- The loop of `list_for_each(pos, head)` from `pos` on, for at most `n` entries. The
    state `σ` of the body holds the memory. -/
def forEachFrom {α σ : Type} (mem : σ → ListMem α) (head : Ptr) (body : Ptr → σ → Except Fault σ) :
    Nat → Ptr → σ → Except Fault σ
  | 0, _, _ => .error .hang
  | n + 1, pos, s =>
    if pos = head then pure s
    else do
      let s ← body pos s
      let pos ← (mem s).getNext pos
      forEachFrom mem head body n pos s

/-- `list_for_each(pos, head) body`. -/
def listForEach {α σ : Type} (mem : σ → ListMem α) (head : Ptr) (body : Ptr → σ → Except Fault σ)
    (s : σ) : Except Fault σ := do
  let pos ← (mem s).getNext head
  forEachFrom mem head body ((mem s).fresh + 1) pos s

/-- The same for a body that may leave the loop. The result has the `pos` it ends with. -/
def forEachUntilFrom {α σ : Type} (mem : σ → ListMem α) (head : Ptr)
    (body : Ptr → σ → Except Fault (σ × Bool)) : Nat → Ptr → σ → Except Fault (σ × Ptr)
  | 0, _, _ => .error .hang
  | n + 1, pos, s =>
    if pos = head then pure (s, pos)
    else do
      let (s, left) ← body pos s
      if left then pure (s, pos)
      else do
        let pos ← (mem s).getNext pos
        forEachUntilFrom mem head body n pos s

/-- `list_for_each(pos, head) body`, where the body may leave the loop. -/
def listForEachUntil {α σ : Type} (mem : σ → ListMem α) (head : Ptr)
    (body : Ptr → σ → Except Fault (σ × Bool)) (s : σ) : Except Fault (σ × Ptr) := do
  let pos ← (mem s).getNext head
  forEachUntilFrom mem head body ((mem s).fresh + 1) pos s

/-! ## list_sort -/

/-- The local variables of `list_sort` that its inner loops change, with the memory. -/
structure SortState (α : Type) where
  mem : ListMem α
  p : Ptr
  q : Ptr
  list : Ptr
  tail : Ptr
  psize : Nat
  qsize : Nat

section Sorting

variable {α : Type} (cmp : α → α → Int) (oldhead : Ptr)

/-- `x->next`, or NULL at the end of the ring. -/
def advance (m : ListMem α) (x : Ptr) : Except Fault Ptr := do
  let next ← m.getNext x
  pure (if next = oldhead then .null else next)

/-- The `for` loop over `i`, with `n` rounds left: step `q` over a run and count it. -/
def runEnd (m : ListMem α) : Nat → Ptr → Nat → Except Fault (Ptr × Nat)
  | 0, q, psize => pure (q, psize)
  | n + 1, q, psize => do
    let q ← advance oldhead m q
    if q = .null then pure (q, psize + 1) else runEnd m n q (psize + 1)

/-- `e` goes to the end of the new list. -/
def emit (st : SortState α) (e : Ptr) : Except Fault (SortState α) := do
  let st ←
    if st.tail ≠ .null then do
      let mem ← st.mem.setNext st.tail e
      pure { st with mem := mem }
    else pure { st with list := e }
  let mem ← st.mem.setPrev e st.tail
  pure { st with mem := mem, tail := e }

/-- `e = p`, and `p` moves on. -/
def takeP (st : SortState α) : Except Fault (SortState α) := do
  let p ← advance oldhead st.mem st.p
  emit { st with p := p, psize := st.psize - 1 } st.p

/-- `e = q`, and `q` moves on. -/
def takeQ (st : SortState α) : Except Fault (SortState α) := do
  let q ← advance oldhead st.mem st.q
  emit { st with q := q, qsize := st.qsize - 1 } st.q

/-- The body of the inner `while`. -/
def mergeStep (st : SortState α) : Except Fault (SortState α) :=
  if st.psize = 0 then takeQ oldhead st
  else if st.qsize = 0 ∨ st.q = .null then takeP oldhead st
  else do
    let a ← st.mem.listEntry st.p
    let b ← st.mem.listEntry st.q
    if cmp a b ≤ 0 then takeP oldhead st else takeQ oldhead st

/-- The inner `while`. A round takes one from `psize` or from `qsize`, so their sum
    bounds the rounds. -/
def mergeRuns : Nat → SortState α → Except Fault (SortState α)
  | 0, st => pure st
  | n + 1, st =>
    if st.psize > 0 ∨ st.qsize > 0 ∧ st.q ≠ .null then do
      let st ← mergeStep cmp oldhead st
      mergeRuns n st
    else pure st

/-- The `while (p)` loop with `nmerges`, for at most `n` merges. -/
def mergeAll (insize : Nat) : Nat → SortState α → Nat → Except Fault (SortState α × Nat)
  | 0, _, _ => .error .hang
  | n + 1, st, nmerges =>
    if st.p = .null then pure (st, nmerges)
    else do
      let (q, psize) ← runEnd oldhead st.mem insize st.p 0
      let st ← mergeRuns cmp oldhead (psize + insize)
        { st with q := q, psize := psize, qsize := insize }
      mergeAll insize n { st with p := st.q } (nmerges + 1)

/-- The `for (;;)` loop, for at most `n` passes. -/
def sortPasses : Nat → ListMem α → Ptr → Nat → Except Fault (ListMem α × Ptr)
  | 0, _, _, _ => .error .hang
  | n + 1, m, list, insize => do
    let (st, nmerges) ← mergeAll cmp list insize (m.fresh + 1) ⟨m, list, .null, .null, .null, 0, 0⟩ 0
    let m ← st.mem.setNext st.tail st.list
    let m ← m.setPrev st.list st.tail
    if nmerges ≤ 1 then pure (m, st.list) else sortPasses n m st.list (insize * 2)

/-- `list_sort(head, cmp)`. -/
def listSort (m : ListMem α) (head : Ptr) : Except Fault (ListMem α) := do
  let list ← m.getNext head
  let m ← m.listDel head
  let (m, list) ← sortPasses cmp (m.fresh + 1) m list 1
  let m ← m.setNext head list
  let m ← m.setPrev head (← m.getPrev list)
  let m ← m.setNext (← m.getPrev list) head
  m.setPrev list head

end Sorting

end OsBasics.Lists
