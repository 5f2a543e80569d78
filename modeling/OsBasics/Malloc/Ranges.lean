/-
  The range list, under any allocator.

  `add_range` looks at the two ends of a payload only, so of the payloads in its list it
  notices all but those that the new one lies around (`Driver.addRange_cases`). Hence the
  list is nested in every run, the youngest payload first (`evalMmValid_nested`), and not more: an
  allocator that hands out a payload around another one passes.
-/
import OsBasics.Lib.Runs
import OsBasics.Malloc.Contract

namespace OsBasics.Malloc

open OsBasics.Lib

/-! ## One payload -/

namespace Driver

variable {d d' : Driver} {lo : Nat} {size : Int} {tracenum opnum : Nat}

theorem overlaps_iff {lo hi : Nat} {p : Range} : overlaps lo hi p = true ↔ lo ∈ p ∨ hi ∈ p := by
  unfold overlaps
  simp only [Bool.or_eq_true, Bool.and_eq_true, decide_eq_true_eq, Extent.mem_iff]

/-- What `add_range` asks of the payload `r`. -/
structure Accepts (d : Driver) (r : Range) : Prop where
  aligned : r.lo % 8 = 0
  inside : d.heap.memStartBrk ≤ r.lo ∧ r.hi < d.heap.memBrk
  ends : ∀ p ∈ d.ranges, r.lo ∉ p ∧ r.hi ∉ p

/-- The last byte of a payload. -/
theorem last_eq {n : Nat} (hn : 1 ≤ n) (h : lo + n ≤ addrSpace) :
    subU (addU lo n) 1 = (payload lo n).hi := by
  unfold payload addU
  dsimp only
  by_cases hlt : lo + n < addrSpace
  · rw [if_pos hlt, subU, if_pos (by omega)]
  · rw [if_neg hlt, subU, if_neg (by omega)]
    omega

/-- A payload that runs past the last address ends before it starts. -/
theorem last_wraps {n : Nat} (h : addrSpace < lo + n) :
    subU (addU lo n) 1 = lo + n - addrSpace - 1 := by
  unfold addU
  rw [if_neg (by omega), subU, if_pos (by omega)]

/-- A payload is taken exactly when no payload of the list has one of its ends. -/
theorem addRange_cases (hb : Bounded d.heap) (hsize : 0 < size ∧ size < 2147483648) :
    (d.Accepts (payload lo (toSizeT size)) ∧ d.addRange lo size tracenum opnum =
      .ok (true, { d with ranges := payload lo (toSizeT size) :: d.ranges })) ∨
    ¬ d.Accepts (payload lo (toSizeT size)) ∧ ∃ msg, d.addRange lo size tracenum opnum =
      .ok (false, d.mallocError tracenum opnum msg) := by
  obtain ⟨-, hn, hn'⟩ := toSizeT_eq hsize
  unfold addRange
  rw [if_neg (not_not.2 hsize.1)]
  split
  · next halign => exact .inr ⟨fun h => halign h.aligned, _, rfl⟩
  · next halign =>
    split
    · next hout =>
      refine .inr ⟨fun h => ?_, _, rfl⟩
      obtain ⟨h1, h2⟩ := h.inside
      have htop := hb.top
      have hspace := hb.space
      have hhi : (payload lo (toSizeT size)).hi = lo + toSizeT size - 1 := rfl
      have hlo : (payload lo (toSizeT size)).lo = lo := rfl
      rw [last_eq hn (by omega), hhi] at hout
      unfold memHeapLo memHeapHi at hout
      omega
    · next hin =>
      have hfit : lo + toSizeT size ≤ addrSpace := by
        by_contra hwrap
        have hbase := hb.base
        have htop := hb.top
        have hspace := hb.space
        rw [last_wraps (by omega)] at hin
        unfold memHeapLo memHeapHi at hin
        unfold addrSpace at *
        unfold maxHeap at *
        omega
      rw [last_eq hn hfit] at hin ⊢
      split
      · next p hp =>
        refine .inr ⟨fun h => ?_, _, rfl⟩
        have hmem := List.mem_of_find?_eq_some hp
        have hover := overlaps_iff.1 (List.find?_some hp)
        exact hover.elim (h.ends p hmem).1 (h.ends p hmem).2
      · next hnone =>
        refine .inl ⟨⟨not_not.1 halign, ?_, fun p hp => ?_⟩, rfl⟩
        · have hpos := hb.pos
          have hbase := hb.base
          have hlo : (payload lo (toSizeT size)).lo = lo := rfl
          unfold memHeapLo memHeapHi at hin
          omega
        · have hnot := List.find?_eq_none.1 hnone p hp
          rw [overlaps_iff, not_or] at hnot
          exact hnot

theorem addRange_true (hb : Bounded d.heap) (hsize : size < 2147483648)
    (h : d.addRange lo size tracenum opnum = .ok (true, d')) : 1 ≤ toSizeT size ∧
      d.Accepts (payload lo (toSizeT size)) ∧
      d' = { d with ranges := payload lo (toSizeT size) :: d.ranges } := by
  have hpos : 0 < size := by
    by_contra hneg
    unfold addRange at h
    rw [if_pos hneg] at h
    cases h
  refine ⟨(toSizeT_eq ⟨hpos, hsize⟩).2.1, ?_⟩
  obtain ⟨ha, hok⟩ | ⟨-, msg, hok⟩ := addRange_cases hb ⟨hpos, hsize⟩
  · rw [hok, Except.ok.injEq, Prod.mk.injEq] at h
    exact ⟨ha, h.2.symm⟩
  · rw [hok, Except.ok.injEq, Prod.mk.injEq] at h
    exact absurd h.1 Bool.false_ne_true

end Driver

/-! ## The list -/

/-- What the list of the payloads `rs` keeps. -/
structure Checked (rs : List Range) (s : Heap) : Prop where
  bounded : Bounded s
  nested : Extent.Nested rs
  aligned : ∀ r ∈ rs, r.lo % 8 = 0
  inside : ∀ r ∈ rs, s.memStartBrk ≤ r.lo ∧ r.lo ≤ r.hi ∧ r.hi < s.memBrk

namespace Checked

variable {rs : List Range} {s s' : Heap}

theorem nil (hb : Bounded s) : Checked [] s :=
  ⟨hb, .nil, fun _ hr => absurd hr List.not_mem_nil, fun _ hr => absurd hr List.not_mem_nil⟩

/-- The heap grows. -/
theorem grow (h : Checked rs s) (hb : Bounded s') (hg : Grows s s') : Checked rs s' := by
  refine ⟨hb, h.nested, h.aligned, fun r hr => ?_⟩
  have hin := h.inside r hr
  have hbrk := hg.brk
  rw [hg.base]
  omega

theorem sublist (h : Checked rs s) {rs' : List Range} (hsub : rs'.Sublist rs) : Checked rs' s :=
  ⟨h.bounded, h.nested.sublist hsub, fun r hr => h.aligned r (hsub.subset hr),
    fun r hr => h.inside r (hsub.subset hr)⟩

/-- A payload that the driver accepts. -/
theorem add {d : Driver} (h : Checked d.ranges d.heap) {p n : Nat} (hn : 1 ≤ n)
    (ha : d.Accepts (payload p n)) : Checked (payload p n :: d.ranges) d.heap := by
  have hle : (payload p n).lo ≤ (payload p n).hi := by
    unfold payload
    dsimp only
    omega
  refine ⟨h.bounded, List.pairwise_cons.2 ⟨fun r hr => ?_, h.nested⟩, ?_, ?_⟩
  · exact (Extent.ends_outside_iff hle).1 (ha.ends r hr)
  · exact List.forall_mem_cons.2 ⟨ha.aligned, h.aligned⟩
  · exact List.forall_mem_cons.2 ⟨⟨ha.inside.1, hle, ha.inside.2⟩, h.inside⟩

/-- No two payloads of the list start at one address. -/
theorem nodup (h : Checked rs s) : (rs.map Extent.lo).Nodup := by
  refine List.pairwise_map.2 (h.nested.imp_of_mem fun {r t} hr ht hrt => ?_)
  have hr' := (h.inside r hr).2.1
  have ht' := (h.inside t ht).2.1
  obtain (h | h) | h := hrt
  · omega
  · omega
  · exact h.1.ne

end Checked

/-! ## A run -/

/-- The calls of `mm` leave the heap in its storage, and do not move it down. -/
structure Steady (mm : Mm) : Prop where
  init : ∀ s v s', Bounded s → mm.mmInit s = .ok (v, s') → Bounded s' ∧ Grows s s'
  malloc : ∀ s n p s', Bounded s → mm.mmMalloc s n = .ok (p, s') → Bounded s' ∧ Grows s s'
  free : ∀ s p s', Bounded s → mm.mmFree s p = .ok s' → Bounded s' ∧ Grows s s'
  realloc : ∀ s q n p s', Bounded s → mm.mmRealloc s q n = .ok (p, s') → Bounded s' ∧ Grows s s'

/-- The indices in use after a trace, when `live` were in use before. -/
def liveAfter : List Int → List TraceOp → List Int
  | live, [] => live
  | live, op :: ops =>
    match op.type with
    | .alloc => liveAfter (op.index :: live) ops
    | .realloc => liveAfter live ops
    | .free => liveAfter (live.filter (· ≠ op.index)) ops

/-- The rest of the trace. -/
theorem Legal.rest {numIds : Int} {reallocs : Bool} {live : List Int} {op : TraceOp}
    {ops : List TraceOp} (hl : Legal numIds reallocs live (op :: ops)) :
    Legal numIds reallocs (liveAfter live [op]) ops := by
  obtain ⟨type, index, size⟩ := op
  obtain ⟨-, hl⟩ := hl
  cases type with
  | alloc => exact hl.2
  | realloc => exact hl.2.2.2
  | free => exact hl.2

/-- The payload of an index. -/
def Trace.payloadOf (t : Trace) (index : Int) : Range :=
  payload (t.blocks index.toNat) (t.blockSizes index.toNat)

/-- The payload of `n` bytes at `p` is stored for `index`. -/
def Trace.store (t : Trace) (index : Int) (p n : Nat) : Trace :=
  { t with
    blocks := Function.update t.blocks index.toNat p
    blockSizes := Function.update t.blockSizes index.toNat n }

theorem Trace.store_self (t : Trace) (index : Int) (p n : Nat) :
    (t.store index p n).payloadOf index = payload p n := by
  unfold Trace.payloadOf Trace.store
  dsimp only
  rw [Function.update_self, Function.update_self]

theorem Trace.store_ne (t : Trace) {index i : Int} (hidx : 0 ≤ index) (hi : 0 ≤ i) (hne : i ≠ index)
    (p n : Nat) : (t.store index p n).payloadOf i = t.payloadOf i := by
  unfold Trace.payloadOf Trace.store
  dsimp only
  rw [Function.update_of_ne (by omega), Function.update_of_ne (by omega)]

/-- The list has the payloads of the indices `live`. -/
structure Registered (live : List Int) (d : Driver) : Prop where
  checked : Checked d.ranges d.heap
  mem : ∀ i ∈ live, (0 ≤ i ∧ i < d.trace.numIds) ∧ d.trace.payloadOf i ∈ d.ranges
  inj : ∀ i ∈ live, ∀ j ∈ live, d.trace.payloadOf i = d.trace.payloadOf j → i = j

theorem call_ok {α : Type} {x : Except Fault α} {a : α} (h : call x = .ok a) : x = .ok a := by
  cases x with
  | error f => cases h
  | ok b => exact congrArg _ (Except.ok.inj h)

section Arrays

variable {d d' : Driver} {index : Int}

theorem slot_ok {i : Nat} (h : d.slot index = .ok i) :
    (0 ≤ index ∧ index < d.trace.numIds) ∧ i = index.toNat := by
  unfold Driver.slot at h
  split at h
  · next hidx => exact ⟨hidx, (Except.ok.inj h).symm⟩
  · cases h

theorem block_ok {p : Nat} (h : d.block index = .ok p) : p = d.trace.blocks index.toNat := by
  obtain ⟨i, hi, rfl⟩ := map_ok h
  rw [(slot_ok hi).2]

theorem setBlock_ok {p : Nat} (h : d.setBlock index p = .ok d') :
    (0 ≤ index ∧ index < d.trace.numIds) ∧ d' = { d with trace := { d.trace with
      blocks := Function.update d.trace.blocks index.toNat p } } := by
  obtain ⟨i, hi, rfl⟩ := map_ok h
  obtain ⟨hidx, rfl⟩ := slot_ok hi
  exact ⟨hidx, rfl⟩

theorem setBlockSize_ok {size : Int} (h : d.setBlockSize index size = .ok d') :
    d' = { d with trace := { d.trace with
      blockSizes := Function.update d.trace.blockSizes index.toNat (toSizeT size) } } := by
  obtain ⟨i, hi, rfl⟩ := map_ok h
  rw [(slot_ok hi).2]

end Arrays

namespace Registered

variable {live live' : List Int} {d d' : Driver} {index : Int}

theorem congr (h : Registered live d) (hlive : ∀ i, i ∈ live' → i ∈ live) : Registered live' d :=
  ⟨h.checked, fun i hi => h.mem i (hlive i hi),
    fun i hi j hj => h.inj i (hlive i hi) j (hlive j hj)⟩

/-- A call of the allocator. -/
theorem call (h : Registered live d) {s : Heap} (hs : Bounded s ∧ Grows d.heap s) :
    Registered live { d with heap := s } := ⟨h.checked.grow hs.1 hs.2, h.mem, h.inj⟩

/-- The payload of an index leaves the list. -/
theorem drop (h : Registered live d) (hi : index ∈ live) :
    Registered (live.filter (· ≠ index)) (d.removeRange (d.trace.blocks index.toNat)) := by
  have hsub := List.eraseP_sublist (p := fun p : Range => p.lo = d.trace.blocks index.toNat)
    (l := d.ranges)
  have hother : ∀ i ∈ live.filter (· ≠ index), i ∈ live ∧ i ≠ index := fun i hi => by
    simpa using hi
  refine ⟨h.checked.sublist hsub, fun i hi' => ?_, fun i hi' j hj' => ?_⟩
  · obtain ⟨hil, hne⟩ := hother i hi'
    obtain ⟨hidx, hmem⟩ := h.mem i hil
    refine ⟨hidx, (List.mem_eraseP_of_neg fun hlo => hne ?_).2 hmem⟩
    refine h.inj i hil index hi ?_
    exact List.inj_on_of_nodup_map h.checked.nodup hmem (h.mem index hi).2 (of_decide_eq_true hlo)
  · exact h.inj i (hother i hi').1 j (hother j hj').1

/-- The rest of a request, once its payload is in the list. -/
theorem store (h : Registered (live.filter (· ≠ index)) d) {p tracenum opnum : Nat} {size : Int}
    {d₁ d₂ : Driver} (hsize : size < 2147483648)
    (hadd : d.addRange p size tracenum opnum = .ok (true, d₁)) {m : Mem}
    (hset : Driver.setBlock { d₁ with heap := { d₁.heap with mem := m } } index p = .ok d₂)
    (hset' : d₂.setBlockSize index size = .ok d') : Registered (index :: live) d' := by
  obtain ⟨hn, ha, rfl⟩ := Driver.addRange_true h.checked.bounded hsize hadd
  obtain ⟨hidx, rfl⟩ := setBlock_ok hset
  obtain rfl := setBlockSize_ok hset'
  obtain ⟨hb, hnested, haligned, hin⟩ := h.checked.add hn ha
  have hold : ∀ i ∈ index :: live, i ≠ index → i ∈ live.filter (· ≠ index) := fun i hi hne =>
    List.mem_filter.2 ⟨(List.mem_cons.1 hi).resolve_left hne, decide_eq_true hne⟩
  have hself := d.trace.store_self index p (toSizeT size)
  have hrest : ∀ i ∈ index :: live, i ≠ index →
      (0 ≤ i ∧ i < d.trace.numIds) ∧ d.trace.payloadOf i ∈ d.ranges ∧
        (d.trace.store index p (toSizeT size)).payloadOf i = d.trace.payloadOf i := by
    intro i hi hne
    obtain ⟨hi', hmem⟩ := h.mem i (hold i hi hne)
    exact ⟨hi', hmem, d.trace.store_ne hidx.1 hi'.1 hne _ _⟩
  have hnew : ∀ i ∈ index :: live, i ≠ index →
      payload p (toSizeT size) ≠ d.trace.payloadOf i := by
    intro i hi hne heq
    refine (ha.ends _ (hrest i hi hne).2.1).1 ?_
    rw [← heq]
    exact ⟨le_refl _, (hin _ List.mem_cons_self).2.1⟩
  refine ⟨⟨⟨hb.pos, hb.base, hb.top, hb.space⟩, hnested, haligned, hin⟩, fun i hi => ?_,
    fun i hi j hj heq => ?_⟩
  · show _ ∧ (d.trace.store index p (toSizeT size)).payloadOf i ∈ _
    by_cases hne : i = index
    · rw [hne, hself]
      exact ⟨hidx, List.mem_cons_self⟩
    · obtain ⟨hi', hmem, heq⟩ := hrest i hi hne
      rw [heq]
      exact ⟨hi', List.mem_cons_of_mem _ hmem⟩
  · change (d.trace.store index p (toSizeT size)).payloadOf i =
      (d.trace.store index p (toSizeT size)).payloadOf j at heq
    by_cases hi' : i = index <;> by_cases hj' : j = index
    · rw [hi', hj']
    · rw [hi', hself, (hrest j hj hj').2.2] at heq
      exact absurd heq (hnew j hj hj')
    · rw [hj', hself, (hrest i hi hi').2.2] at heq
      exact absurd heq.symm (hnew i hi hi')
    · rw [(hrest i hi hi').2.2, (hrest j hj hj').2.2] at heq
      exact h.inj i (hold i hi hi') j (hold j hj hj') heq

end Registered

/-- What a round of the loop leaves behind, when `live` are in use after it. -/
def Round (live : List Int) (out : Bool × Driver) : Prop :=
  Checked out.2.ranges out.2.heap ∧ (out.1 = true → Registered live out.2)

section Steps

variable {mm : Mm} {tracenum i : Nat} {index size : Int} {live : List Int} {d : Driver}
  {out : Bool × Driver}

theorem Round.of_true {d' : Driver} (h : Registered live d') : Round live (true, d') :=
  ⟨h.checked, fun _ => h⟩

theorem Round.of_false {d' : Driver} (h : Checked d'.ranges d'.heap) : Round live (false, d') :=
  ⟨h, fun hf => absurd hf Bool.false_ne_true⟩

/-- A payload that is refused leaves the list alone. -/
theorem Registered.refuse (h : Registered live d) {p opnum : Nat} {d' : Driver}
    (hsize : 0 < size ∧ size < 2147483648)
    (hadd : d.addRange p size tracenum opnum = .ok (false, d')) : Checked d'.ranges d'.heap := by
  obtain ⟨-, hok⟩ | ⟨-, msg, hok⟩ := Driver.addRange_cases h.checked.bounded hsize
  · rw [hok, Except.ok.injEq, Prod.mk.injEq] at hadd
    exact absurd hadd.1 Bool.false_ne_true.symm
  · rw [hok, Except.ok.injEq, Prod.mk.injEq] at hadd
    rw [← hadd.2]
    exact h.checked

theorem validAlloc_round (hmm : Steady mm) (h : Registered live d)
    (hsize : 0 < size ∧ size < 2147483648) (hok : validAlloc mm tracenum i index size d = .ok out) :
    Round (index :: live) out := by
  obtain ⟨⟨p, s⟩, hcall, hok⟩ := bind_ok hok
  have hd := h.call (hmm.malloc _ _ _ _ h.checked.bounded (call_ok hcall))
  dsimp only at hok
  split at hok
  · obtain rfl := Except.ok.inj hok
    exact .of_false hd.checked
  · obtain ⟨⟨added, d₁⟩, hadd, hok⟩ := bind_ok hok
    cases added with
    | false =>
      obtain rfl := Except.ok.inj hok
      exact .of_false (hd.refuse hsize hadd)
    | true =>
      obtain ⟨d₂, hset, hok⟩ := bind_ok hok
      obtain ⟨d₃, hset', hok⟩ := bind_ok hok
      obtain rfl := Except.ok.inj hok
      refine .of_true ((hd.congr fun j hj => ?_).store hsize.2 hadd hset hset')
      exact (List.mem_filter.1 hj).1

theorem validFree_round (hmm : Steady mm) (h : Registered live d) (hi : index ∈ live)
    (hok : validFree mm index d = .ok out) : Round (live.filter (· ≠ index)) out := by
  obtain ⟨p, hp, hok⟩ := bind_ok hok
  obtain rfl := block_ok hp
  obtain ⟨s, hcall, hok⟩ := bind_ok hok
  obtain rfl := Except.ok.inj hok
  exact .of_true ((h.drop hi).call (hmm.free _ _ _ h.checked.bounded (call_ok hcall)))

theorem validRealloc_round (hmm : Steady mm) (h : Registered live d) (hi : index ∈ live)
    (hsize : 0 < size ∧ size < 2147483648)
    (hok : validRealloc mm tracenum i index size d = .ok out) : Round live out := by
  obtain ⟨oldp, hp, hok⟩ := bind_ok hok
  obtain rfl := block_ok hp
  obtain ⟨⟨newp, s⟩, hcall, hok⟩ := bind_ok hok
  have hd := h.call (hmm.realloc _ _ _ _ _ h.checked.bounded (call_ok hcall))
  dsimp only at hok
  split at hok
  · obtain rfl := Except.ok.inj hok
    exact .of_false hd.checked
  · obtain ⟨⟨added, d₁⟩, hadd, hok⟩ := bind_ok hok
    have hdrop := hd.drop hi
    cases added with
    | false =>
      obtain rfl := Except.ok.inj hok
      exact .of_false (hdrop.refuse hsize hadd)
    | true =>
      obtain ⟨old, -, hok⟩ := bind_ok hok
      dsimp only at hok
      generalize (if size < old then size else old).toNat = n at hok
      split at hok
      · obtain rfl := Except.ok.inj hok
        obtain ⟨hn, ha, rfl⟩ := Driver.addRange_true hdrop.checked.bounded hsize.2 hadd
        exact .of_false (hdrop.checked.add hn ha)
      · obtain ⟨d₂, hset, hok⟩ := bind_ok hok
        obtain ⟨d₃, hset', hok⟩ := bind_ok hok
        obtain rfl := Except.ok.inj hok
        exact .of_true ((hdrop.store hsize.2 hadd hset hset').congr fun j hj =>
          List.mem_cons_of_mem _ hj)

/-- A run of the loop. -/
theorem validLoop_round {numIds : Int} {reallocs : Bool} {ops : List TraceOp} (hmm : Steady mm)
    (hl : Legal numIds reallocs live ops) (h : Registered live d)
    (hok : validLoop mm tracenum i ops d = .ok out) : Round (liveAfter live ops) out := by
  induction ops generalizing live d i with
  | nil =>
    obtain rfl := Except.ok.inj hok
    exact .of_true h
  | cons op ops ih =>
    obtain ⟨type, index, size⟩ := op
    obtain ⟨-, hl⟩ := hl
    obtain ⟨⟨more, d'⟩, hop, hrun⟩ := bind_ok hok
    have hround : Round (liveAfter live [⟨type, index, size⟩]) (more, d') := by
      cases type with
      | alloc => exact validAlloc_round hmm h hl.1 hop
      | realloc => exact validRealloc_round hmm h hl.2.1 hl.2.2.1 hop
      | free => exact validFree_round hmm h hl.1 hop
    cases more with
    | false =>
      obtain rfl := Except.ok.inj hrun
      exact .of_false hround.1
    | true =>
      cases type with
      | alloc => exact ih hl.2 (hround.2 rfl) hrun
      | realloc => exact ih hl.2.2.2 (hround.2 rfl) hrun
      | free => exact ih hl.2 (hround.2 rfl) hrun

end Steps

/-- What the check is worth: whatever the allocator, the payloads in the list are aligned, in the heap and
    nested, and after a trace that passes these are the payloads of the blocks in use. -/
theorem evalMmValid_nested {mm : Mm} {reallocs : Bool} {tracenum : Nat} {d d' : Driver} {v : Bool}
    (hmm : Steady mm) (hb : Bounded d.heap)
    (hl : Legal d.trace.numIds reallocs [] d.trace.ops)
    (hok : evalMmValid mm tracenum d = .ok (v, d')) :
    Checked d'.ranges d'.heap ∧
      (v = true → ∀ i ∈ liveAfter [] d.trace.ops, d'.trace.payloadOf i ∈ d'.ranges ∧
        ∀ j ∈ liveAfter [] d.trace.ops, i ≠ j →
          (d'.trace.payloadOf i).Apart (d'.trace.payloadOf j) ∨
          (d'.trace.payloadOf i).Around (d'.trace.payloadOf j) ∨
          (d'.trace.payloadOf j).Around (d'.trace.payloadOf i)) := by
  obtain ⟨⟨status, s⟩, hinit, hok⟩ := bind_ok hok
  have hb' : Bounded (memResetBrk d.heap) := ⟨hb.pos, le_refl _, Nat.le_add_right _ _, hb.space⟩
  have hs := (hmm.init _ _ _ hb' (call_ok hinit)).1
  dsimp only at hok
  split at hok
  · obtain ⟨rfl, rfl⟩ := Prod.mk.inj (Except.ok.inj hok)
    exact ⟨.nil hs, fun hv => absurd hv Bool.false_ne_true⟩
  · have hempty : Registered [] { d with heap := s, ranges := [] } :=
      ⟨.nil hs, fun _ hi => absurd hi List.not_mem_nil, fun _ hi => absurd hi List.not_mem_nil⟩
    obtain ⟨hchecked, hall⟩ := validLoop_round hmm hl hempty hok
    refine ⟨hchecked, fun hv i hi => ?_⟩
    obtain ⟨-, hmem, hinj⟩ := hall hv
    refine ⟨(hmem i hi).2, fun j hj hne => ?_⟩
    exact hchecked.nested.cases (hmem i hi).2 (hmem j hj).2 fun heq => hne (hinj i hi j hj heq)

/-- An allocator with a heap of 64 bytes, which answers every longer request with a payload
    around the one it gives for a short one. -/
def aroundMm : Mm where
  mmInit s := .ok (0, { s with memBrk := max s.memBrk (s.memStartBrk + 64) })
  mmMalloc s n := .ok (if n ≤ 8 then s.memStartBrk + 16 else s.memStartBrk, s)
  mmFree s _ := .ok s
  mmRealloc s _ _ := .ok (0, s)

theorem aroundMm_steady : Steady aroundMm := by
  refine ⟨fun s v s' hb h => ?_, fun s n p s' hb h => ?_, fun s p s' hb h => ?_,
    fun s q n p s' hb h => ?_⟩
  · obtain ⟨-, rfl⟩ := Prod.mk.inj (Except.ok.inj h)
    obtain ⟨h1, h2, h3, h4⟩ := hb
    have hroom : 64 ≤ maxHeap := by decide
    exact ⟨⟨h1, le_max_of_le_left h2, max_le h3 (Nat.add_le_add_left hroom _), h4⟩, rfl, le_max_left _ _⟩
  · obtain ⟨-, rfl⟩ := Prod.mk.inj (Except.ok.inj h)
    exact ⟨hb, rfl, le_refl _⟩
  · obtain rfl := Except.ok.inj h
    exact ⟨hb, rfl, le_refl _⟩
  · obtain ⟨-, rfl⟩ := Prod.mk.inj (Except.ok.inj h)
    exact ⟨hb, rfl, le_refl _⟩

theorem boot_bounded (m : Mem) (t : Trace) : Bounded (Driver.boot m 8 t).heap := by
  refine ⟨?_, le_refl _, Nat.le_add_right _ _, ?_⟩
  · show 0 < 8
    decide
  · show 8 + maxHeap < addrSpace
    decide

/-- Two requests, the second one for a payload around the first. -/
def aroundTrace : Trace := .read 2 [⟨.alloc, 0, 8⟩, ⟨.alloc, 1, 40⟩]

/-- It passes, with two payloads that overlap. -/
theorem evalMmValid_around : ∃ d',
    evalMmValid aroundMm 0 (.boot (fun _ => 0) 8 aroundTrace) = .ok (true, d') ∧
    Checked d'.ranges d'.heap ∧ ¬ d'.ranges.Pairwise Extent.Apart := by
  obtain ⟨d', hok, hover⟩ : ∃ d', evalMmValid aroundMm 0 (.boot (fun _ => 0) 8 aroundTrace) =
      .ok (true, d') ∧ ¬ d'.ranges.Pairwise Extent.Apart := ⟨_, rfl, by decide⟩
  have hl : Legal 2 false [] aroundTrace.ops := by decide
  exact ⟨d', hok, (evalMmValid_nested (d := .boot (fun _ => 0) 8 aroundTrace) aroundMm_steady
    (boot_bounded _ _) hl hok).1, hover⟩

end OsBasics.Malloc
