/-
  What the driver asks of an allocator.

  `AbsMm` is an allocator without memory: what it answers and how it goes on. `Meets`
  says that an `mm.c` answers as an `AbsMm` does, whatever the memory holds, and that the
  payloads it has given out stay aligned, in the heap, apart from each other, and unchanged.
  `replay` runs a trace on an `AbsMm`; `Tracks` relates it to the driver, and has one
  lemma for a pointer that is stored and one for a block that is freed.
-/
import OsBasics.Malloc.Mdriver

namespace OsBasics.Malloc

open OsBasics.Lib

/-! ## The allocator -/

/-- The heap lies in the storage of `mem_init`. -/
structure Bounded (s : Heap) : Prop where
  pos : 0 < s.memStartBrk
  base : s.memStartBrk ≤ s.memBrk
  top : s.memBrk ≤ s.memStartBrk + maxHeap
  space : s.memStartBrk + maxHeap < addrSpace

/-- The heap has not moved, and the break only up. -/
structure Grows (s s' : Heap) : Prop where
  base : s'.memStartBrk = s.memStartBrk
  brk : s.memBrk ≤ s'.memBrk

/-- The payloads `rs` are as the driver wants them. -/
structure Granted (rs : List Range) (s : Heap) : Prop where
  bounded : Bounded s
  apart : rs.Pairwise Extent.Apart
  aligned : ∀ r ∈ rs, r.lo % 8 = 0
  inside : ∀ r ∈ rs, s.memStartBrk ≤ r.lo ∧ r.lo ≤ r.hi ∧ r.hi < s.memBrk

/-- The payload of `n` bytes at `p`. -/
def payload (p n : Nat) : Range := ⟨p, p + n - 1⟩

/-- The bytes of the payloads `rs` are the same. -/
def SameBytes (rs : List Range) (m m' : Mem) : Prop := ∀ r ∈ rs, ∀ q ∈ r, m' q = m q

/-- An allocator without memory. The answer 0 is NULL. -/
structure AbsMm (σ : Type) where
  start : σ
  malloc : σ → Nat → Except Fault (Nat × σ)
  free : σ → Nat → σ
  realloc : σ → Nat → Nat → Except Fault (Nat × σ)

/-- `mm` does what `A` says: `Ready` holds of a heap in which it can be started, and `Rel a rs s` of a
    heap `s` in which it is in state `a` and has given out the payloads `rs`. `reallocs` says whether
    `mm_realloc` does so as well. -/
structure Meets {σ : Type} (mm : Mm) (A : AbsMm σ) (reallocs : Bool) (Ready : Heap → Prop)
    (Rel : σ → List Range → Heap → Prop) : Prop where
  init : ∀ s, Ready s → ∃ s', mm.mmInit (memResetBrk s) = .ok (0, s') ∧ Rel A.start [] s'
  ready : ∀ a rs s, Rel a rs s → Ready s
  live : ∀ a rs s, Rel a rs s → Granted rs s
  write : ∀ a rs s r q v, Rel a rs s → r ∈ rs → q ∈ r →
    Rel a rs { s with mem := putByte s.mem q v }
  malloc : ∀ a rs s n, Rel a rs s → 1 ≤ n → n < 2147483648 →
    (∃ f, A.malloc a n = .error f ∧ mm.mmMalloc s n = .error f) ∨
    ∃ p a' s', A.malloc a n = .ok (p, a') ∧ mm.mmMalloc s n = .ok (p, s') ∧ Grows s s' ∧
      SameBytes rs s.mem s'.mem ∧ Rel a' (if p = 0 then rs else payload p n :: rs) s'
  free : ∀ a rs s r, Rel a rs s → r ∈ rs → ∃ s', mm.mmFree s r.lo = .ok s' ∧ Grows s s' ∧
    SameBytes (rs.erase r) s.mem s'.mem ∧ Rel (A.free a r.lo) (rs.erase r) s'
  realloc : reallocs = true → ∀ a rs s r n, Rel a rs s → r ∈ rs → 1 ≤ n → n < 2147483648 →
    (∃ f, A.realloc a r.lo n = .error f ∧ mm.mmRealloc s r.lo n = .error f) ∨
    ∃ p a' s', A.realloc a r.lo n = .ok (p, a') ∧ mm.mmRealloc s r.lo n = .ok (p, s') ∧
      Grows s s' ∧ SameBytes (rs.erase r) s.mem s'.mem ∧
      Rel a' (if p = 0 then rs else payload p n :: rs.erase r) s' ∧
      (p ≠ 0 → ∀ j < min n r.size, s'.mem (p + j) = s.mem (r.lo + j))

theorem mem_payload {p n q : Nat} (hn : 1 ≤ n) : q ∈ payload p n ↔ p ≤ q ∧ q < p + n := by
  rw [Extent.mem_iff]
  unfold payload
  dsimp only
  omega

theorem payload_size {p n : Nat} (hn : 1 ≤ n) : (payload p n).size = n := by
  unfold payload Extent.size
  dsimp only
  omega

/-- A payload overlaps itself. -/
theorem Granted.notMem {r : Range} {rs : List Range} {s : Heap} (h : Granted (r :: rs) s) : r ∉ rs := by
  intro hr
  have hap := (List.pairwise_cons.1 h.apart).1 r hr
  have hin := (h.inside r List.mem_cons_self).2.1
  rcases hap with h | h <;> omega

/-- Payloads are found by where they start. -/
theorem Granted.lo_inj {rs : List Range} {s : Heap} (h : Granted rs s) {r t : Range} (hr : r ∈ rs)
    (ht : t ∈ rs) (hlo : r.lo = t.lo) : r = t := by
  by_contra hne
  have hap : r.Apart t := h.apart.forall hr ht hne
  have hr' := (h.inside r hr).2.1
  have ht' := (h.inside t ht).2.1
  rcases hap with h | h <;> omega

/-! ## Traces -/

/-- The allocator and the payload behind each index. -/
structure Replay (σ : Type) where
  heap : σ
  held : Int → Option Range

variable {σ : Type} {mm : Mm} {A : AbsMm σ} {reallocs : Bool} {Ready : Heap → Prop}
  {Rel : σ → List Range → Heap → Prop}

namespace Replay

/-- The answer `p` to a request of `n` bytes for `index`, or NULL. -/
def answer (x : Replay σ) (index : Int) (n : Nat) (out : Nat × σ) : Option (Replay σ) :=
  if out.1 = 0 then none
  else some ⟨out.2, Function.update x.held index (some (payload out.1 n))⟩

/-- A request. Nothing happens to a block that is not held. -/
def op (A : AbsMm σ) (x : Replay σ) (op : TraceOp) : Except Fault (Option (Replay σ)) :=
  match op.type, x.held op.index with
  | .alloc, _ => (A.malloc x.heap (toSizeT op.size)).map (x.answer op.index (toSizeT op.size))
  | .realloc, some r =>
    (A.realloc x.heap r.lo (toSizeT op.size)).map (x.answer op.index (toSizeT op.size))
  | .free, some r => .ok (some ⟨A.free x.heap r.lo, Function.update x.held op.index none⟩)
  | _, none => .ok (some x)

end Replay

/-- A trace, up to the first request that is answered with NULL. -/
def replay (A : AbsMm σ) : List TraceOp → Replay σ → Except Fault (Option (Replay σ))
  | [], x => .ok (some x)
  | op :: ops, x =>
    match x.op A op with
    | .error f => .error f
    | .ok none => .ok none
    | .ok (some x) => replay A ops x

/-- The allocator as `mm_init` leaves it. -/
def Replay.start (A : AbsMm σ) : Replay σ := ⟨A.start, fun _ => none⟩

/-- Every request of the trace answers. -/
def Served (A : AbsMm σ) (ops : List TraceOp) (x : Replay σ) : Prop :=
  ∃ x', replay A ops x = .ok (some x')

theorem served_cons {A : AbsMm σ} {op : TraceOp} {ops : List TraceOp} {x x' : Replay σ}
    (hop : x.op A op = .ok (some x')) : Served A (op :: ops) x ↔ Served A ops x' := by
  unfold Served
  conv_lhs => unfold replay
  rw [hop]

theorem not_served {A : AbsMm σ} {op : TraceOp} {ops : List TraceOp} {x : Replay σ}
    (hop : (∃ f, x.op A op = .error f) ∨ x.op A op = .ok none) : ¬ Served A (op :: ops) x := by
  rintro ⟨x', h⟩
  unfold replay at h
  obtain ⟨f, hop⟩ | hop := hop
  · rw [hop] at h
    cases h
  · rw [hop] at h
    cases h

/-- The first request of a trace that is served. -/
theorem Served.head {A : AbsMm σ} {op : TraceOp} {ops : List TraceOp} {x : Replay σ}
    (h : Served A (op :: ops) x) : ∃ x', x.op A op = .ok (some x') := by
  rcases hop : x.op A op with f | (_ | x')
  · exact absurd h (not_served (.inl ⟨f, hop⟩))
  · exact absurd h (not_served (.inr hop))
  · exact ⟨x', rfl⟩

/-- A trace that keeps to the protocol, when the indices `live` are in use: an index is
    one of the `numIds`, sizes are positive, and a block is freed or reallocated while it is held.
    Without `reallocs` no block is reallocated. -/
def Legal (numIds : Int) (reallocs : Bool) : List Int → List TraceOp → Prop
  | _, [] => True
  | live, op :: ops => (0 ≤ op.index ∧ op.index < numIds) ∧
    match op.type with
    | .alloc => (0 < op.size ∧ op.size < 2147483648) ∧
        Legal numIds reallocs (op.index :: live) ops
    | .realloc => reallocs = true ∧ op.index ∈ live ∧ (0 < op.size ∧ op.size < 2147483648) ∧
        Legal numIds reallocs live ops
    | .free => op.index ∈ live ∧ Legal numIds reallocs (live.filter (· ≠ op.index)) ops

/-- The size of a request is in range. -/
theorem Legal.size {numIds : Int} {reallocs : Bool} {live : List Int} {op : TraceOp}
    {ops : List TraceOp} (hl : Legal numIds reallocs live (op :: ops)) (hop : op.type ≠ .free) :
    0 < op.size ∧ op.size < 2147483648 := by
  obtain ⟨type, index, size⟩ := op
  cases type with
  | alloc => exact hl.2.1
  | realloc => exact hl.2.2.2.1
  | free => exact absurd rfl hop

/-- A block that is freed or reallocated is in use. -/
theorem Legal.mem {numIds : Int} {reallocs : Bool} {live : List Int} {op : TraceOp}
    {ops : List TraceOp} (hl : Legal numIds reallocs live (op :: ops)) (hop : op.type ≠ .alloc) :
    op.index ∈ live := by
  obtain ⟨type, index, size⟩ := op
  cases type with
  | alloc => exact absurd rfl hop
  | realloc => exact hl.2.2.1
  | free => exact hl.2.1

instance Legal.decidable (numIds : Int) (reallocs : Bool) :
    (live : List Int) → (ops : List TraceOp) → Decidable (Legal numIds reallocs live ops)
  | _, [] => .isTrue trivial
  | live, ⟨.alloc, index, _⟩ :: ops =>
    have := Legal.decidable numIds reallocs (index :: live) ops
    inferInstanceAs (Decidable (_ ∧ _ ∧ _))
  | live, ⟨.realloc, _, _⟩ :: ops =>
    have := Legal.decidable numIds reallocs live ops
    inferInstanceAs (Decidable (_ ∧ _ ∧ _ ∧ _ ∧ _))
  | live, ⟨.free, index, _⟩ :: ops =>
    have := Legal.decidable numIds reallocs (live.filter (· ≠ index)) ops
    inferInstanceAs (Decidable (_ ∧ _ ∧ _))

theorem toSizeT_eq {n : Int} (h : 0 < n ∧ n < 2147483648) :
    (toSizeT n : Int) = n ∧ 1 ≤ toSizeT n ∧ toSizeT n < 2147483648 := by
  unfold toSizeT addrSpace
  omega

/-! ## The driver and the replay -/

/-- The driver has the pointers of the replay, and `rs` are the payloads in use. -/
structure Tracks (Rel : σ → List Range → Heap → Prop) (x : Replay σ) (rs : List Range) (d : Driver) :
    Prop where
  rel : Rel x.heap rs d.heap
  held : ∀ i r, x.held i = some r →
    (0 ≤ i ∧ i < d.trace.numIds) ∧ r ∈ rs ∧ d.trace.blocks i.toNat = r.lo
  inj : ∀ i j r, x.held i = some r → x.held j = some r → i = j

namespace Driver

variable {d : Driver} {index : Int}

theorem slot_eq (h : 0 ≤ index ∧ index < d.trace.numIds) : d.slot index = .ok index.toNat := if_pos h

theorem setBlock_eq (h : 0 ≤ index ∧ index < d.trace.numIds) (p : Nat) :
    d.setBlock index p = .ok { d with trace := { d.trace with
      blocks := Function.update d.trace.blocks index.toNat p } } :=
  congrArg (Except.map _) (slot_eq h)

theorem setBlockSize_eq (h : 0 ≤ index ∧ index < d.trace.numIds) (size : Int) :
    d.setBlockSize index size = .ok { d with trace := { d.trace with
      blockSizes := Function.update d.trace.blockSizes index.toNat (toSizeT size) } } :=
  congrArg (Except.map _) (slot_eq h)

end Driver

namespace Tracks

variable {x : Replay σ} {rs : List Range} {d d' : Driver} {index : Int} {r : Range}

theorem block (hT : Tracks Rel x rs d) (hr : x.held index = some r) : d.block index = .ok r.lo := by
  obtain ⟨hidx, -, hblock⟩ := hT.held index r hr
  unfold Driver.block
  rw [Driver.slot_eq hidx, ← hblock]
  rfl

/-- The pointer to a new payload is stored at `index`. -/
theorem store (hT : Tracks Rel x rs d) (hC : Meets mm A reallocs Ready Rel) {a : σ}
    {rs₁ : List Range} (hidx : 0 ≤ index ∧ index < d.trace.numIds)
    (hkeep : ∀ i t, i ≠ index → x.held i = some t → t ∈ rs₁) (hrel : Rel a (r :: rs₁) d'.heap)
    (hblocks : d'.trace.blocks = Function.update d.trace.blocks index.toNat r.lo)
    (hids : d'.trace.numIds = d.trace.numIds) :
    Tracks Rel ⟨a, Function.update x.held index (some r)⟩ (r :: rs₁) d' := by
  have hnew := (hC.live _ _ _ hrel).notMem
  refine ⟨hrel, fun i t ht => ?_, fun i j t hi hj => ?_⟩
  · rw [hids, hblocks]
    dsimp only at ht
    by_cases hi : i = index
    · rw [hi, Function.update_self, Option.some.injEq] at ht
      rw [hi, Function.update_self, ← ht]
      exact ⟨hidx, List.mem_cons_self, rfl⟩
    · rw [Function.update_of_ne hi] at ht
      obtain ⟨hin, -, hblock⟩ := hT.held i t ht
      rw [Function.update_of_ne (by omega), hblock]
      exact ⟨hin, List.mem_cons_of_mem _ (hkeep i t hi ht), rfl⟩
  · dsimp only at hi hj
    by_cases hi' : i = index <;> by_cases hj' : j = index
    · rw [hi', hj']
    · rw [hi', Function.update_self, Option.some.injEq] at hi
      rw [Function.update_of_ne hj'] at hj
      exact absurd (hi ▸ hkeep j t hj' hj) hnew
    · rw [hj', Function.update_self, Option.some.injEq] at hj
      rw [Function.update_of_ne hi'] at hi
      exact absurd (hj ▸ hkeep i t hi' hi) hnew
    · rw [Function.update_of_ne hi'] at hi
      rw [Function.update_of_ne hj'] at hj
      exact hT.inj i j t hi hj

/-- What is held at another index is another payload. -/
theorem erase_of_ne (hT : Tracks Rel x rs d) (hr : x.held index = some r) {i : Int} {t : Range}
    (hi : i ≠ index) (ht : x.held i = some t) : t ∈ rs.erase r :=
  (List.mem_erase_of_ne fun e : t = r => hi (hT.inj i index r (e ▸ ht) hr)).2 (hT.held i t ht).2.1

/-- What is held once `index` is given back. -/
theorem held_of_drop {held : Int → Option Range} {j : Int} {t : Range}
    (ht : Function.update held index none j = some t) : j ≠ index ∧ held j = some t := by
  by_cases hj : j = index
  · rw [hj, Function.update_self] at ht
    cases ht
  · exact ⟨hj, by rwa [Function.update_of_ne hj] at ht⟩

/-- The payload at `index` is given back. -/
theorem drop (hT : Tracks Rel x rs d) (hr : x.held index = some r) {a : σ}
    (hrel : Rel a (rs.erase r) d'.heap) (htrace : d'.trace = d.trace) :
    Tracks Rel ⟨a, Function.update x.held index none⟩ (rs.erase r) d' := by
  refine ⟨hrel, fun i t ht => ?_,
    fun i j t hi hj => hT.inj i j t (held_of_drop hi).2 (held_of_drop hj).2⟩
  obtain ⟨hi, ht⟩ := held_of_drop ht
  obtain ⟨hidx, -, hblock⟩ := hT.held i t ht
  rw [htrace]
  exact ⟨hidx, hT.erase_of_ne hr hi ht, hblock⟩

end Tracks

/-- `memset` inside a payload. -/
theorem Meets.memset (hC : Meets mm A reallocs Ready Rel) {a : σ} {rs : List Range} {r : Range}
    {d : Driver} (h : Rel a rs d.heap) (hr : r ∈ rs) (v : Nat) {size : Nat}
    (hsize : ∀ q, r.lo ≤ q → q < r.lo + size → q ∈ r) : Rel a rs (d.memset r.lo v size).heap := by
  induction size with
  | zero =>
    have hnone : (d.memset r.lo v 0).heap.mem = d.heap.mem := by
      funext q
      exact if_neg (by omega)
    have hheap : (d.memset r.lo v 0).heap = { d.heap with mem := (d.memset r.lo v 0).heap.mem } := rfl
    rw [hheap, hnone]
    exact h
  | succ size ih =>
    have hih := ih fun q h1 h2 => hsize q h1 (by omega)
    have hlast := hC.write _ _ _ r (r.lo + size) (UInt8.ofNat v) hih hr
      (hsize _ (by omega) (by omega))
    have hbyte : (d.memset r.lo v (size + 1)).heap.mem =
        putByte (d.memset r.lo v size).heap.mem (r.lo + size) (UInt8.ofNat v) := by
      funext q
      unfold Driver.memset putByte
      dsimp only
      by_cases hq : q = r.lo + size
      · rw [if_pos hq, if_pos (by omega)]
      · rw [if_neg hq]
        exact if_congr (by omega) rfl rfl
    have hheap : (d.memset r.lo v (size + 1)).heap = { (d.memset r.lo v size).heap with
        mem := (d.memset r.lo v (size + 1)).heap.mem } := rfl
    rwa [hheap, hbyte]

end OsBasics.Malloc
