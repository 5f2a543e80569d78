/-
  The verdict of `eval_mm_valid` on an allocator that does what the driver asks.

  `judge` is the verdict read off the abstract allocator: the first request that is
  refused, or the first block reallocated under an index whose low byte is no `char`, since
  `newp[j] != (index & 0xFF)` compares a signed byte with an unsigned one.
  `validLoop_final` is the simulation of the loop. So on a trace that keeps to the protocol
  the verdict is 1 exactly when every request is answered and no such index is
  reallocated (`evalMmValid_verdict`), and a payload is never what is wrong.
-/
import OsBasics.Malloc.Ranges

namespace OsBasics.Malloc

open OsBasics.Lib

/-! ## The verdict on the abstract allocator -/

/-- What is printed when a request is refused. -/
def refusal : OpType → String
  | .alloc => "mm_malloc failed."
  | .realloc => "mm_realloc failed."
  | .free => ""

/-- What is printed when the bytes of a block have changed. -/
def notPreserved : String := "mm_realloc did not preserve the data from old block"

/-- The bytes of the block are negative as `char`s. -/
def Misread (op : TraceOp) : Prop := op.type = .realloc ∧ 128 ≤ lowByte op.index

instance : DecidablePred Misread := fun _ => inferInstanceAs (Decidable (_ ∧ _))

variable {σ : Type}

/-- The operation that fails, and what is printed about it, from operation `i` on. -/
def judge (A : AbsMm σ) : Nat → List TraceOp → Replay σ → Except Fault (Option (Nat × String))
  | _, [], _ => .ok none
  | i, op :: ops, x =>
    match x.op A op with
    | .error f => .error f
    | .ok none => .ok (some (i, refusal op.type))
    | .ok (some x') =>
      if Misread op then .ok (some (i, notPreserved)) else judge A (i + 1) ops x'

/-- A trace passes when it is served and no block is misread. -/
theorem judge_none_iff {A : AbsMm σ} {i : Nat} {ops : List TraceOp} {x : Replay σ} :
    judge A i ops x = .ok none ↔ Served A ops x ∧ ∀ op ∈ ops, ¬ Misread op := by
  induction ops generalizing i x with
  | nil => exact ⟨fun _ => ⟨⟨x, rfl⟩, fun _ h => absurd h List.not_mem_nil⟩, fun _ => rfl⟩
  | cons op ops ih =>
    unfold Served judge replay
    rw [List.forall_mem_cons]
    rcases x.op A op with f | (_ | x')
    · exact iff_of_false (fun h => by cases h) fun h => by cases h.1.choose_spec
    · exact iff_of_false (fun h => by cases h) fun h => by cases h.1.choose_spec
    · dsimp only
      by_cases hop : Misread op
      · rw [if_pos hop]
        exact iff_of_false (fun h => by cases h) fun h => h.2.1 hop
      · rw [if_neg hop, ih]
        exact ⟨fun h => ⟨h.1, hop, h.2⟩, fun h => ⟨h.1, h.2.2⟩⟩

/-- A free is never refused. -/
theorem Replay.op_none {A : AbsMm σ} {x : Replay σ} {op : TraceOp} (h : x.op A op = .ok none) :
    op.type ≠ .free := by
  obtain ⟨type, index, size⟩ := op
  rintro rfl
  unfold Replay.op at h
  rcases hr : x.held index with _ | r
  · rw [hr] at h
    cases h
  · rw [hr] at h
    cases h

/-- The operation that fails. -/
theorem judge_some {A : AbsMm σ} {i k : Nat} {msg : String} {ops : List TraceOp} {x : Replay σ}
    (h : judge A i ops x = .ok (some (k, msg))) : ∃ j op, k = i + j ∧ ops[j]? = some op ∧
      (op.type ≠ .free ∧ msg = refusal op.type ∨ Misread op ∧ msg = notPreserved) := by
  induction ops generalizing i x with
  | nil => cases h
  | cons op ops ih =>
    unfold judge at h
    rcases hop : x.op A op with f | (_ | x')
    · rw [hop] at h
      cases h
    · rw [hop] at h
      obtain ⟨rfl, rfl⟩ := Prod.mk.inj (Option.some.inj (Except.ok.inj h))
      exact ⟨0, op, rfl, rfl, .inl ⟨Replay.op_none hop, rfl⟩⟩
    · rw [hop] at h
      dsimp only at h
      split at h
      · next hmis =>
        obtain ⟨rfl, rfl⟩ := Prod.mk.inj (Option.some.inj (Except.ok.inj h))
        exact ⟨0, op, rfl, rfl, .inr ⟨hmis, rfl⟩⟩
      · obtain ⟨j, op', hk, hj, hmsg⟩ := ih h
        exact ⟨j + 1, op', by omega, hj, hmsg⟩

/-! ## A round -/

/-- The driver has the pointers and the sizes. -/
structure Measured (Rel : σ → List Range → Heap → Prop) (x : Replay σ) (rs : List Range)
    (d : Driver) : Prop extends Tracks Rel x rs d where
  sizes : ∀ i r, x.held i = some r → d.trace.blockSizes i.toNat = r.size

/-- It has the ranges as well, and every payload held is full of the low byte of its index. -/
structure Agrees (Rel : σ → List Range → Heap → Prop) (x : Replay σ) (rs : List Range) (d : Driver) :
    Prop extends Measured Rel x rs d where
  ranges : d.ranges = rs
  filled : ∀ i r, x.held i = some r → ∀ q ∈ r, d.heap.mem q = UInt8.ofNat (lowByte i)

/-- The trace itself and the messages are the same. -/
structure Frame (d d' : Driver) : Prop where
  ops : d'.trace.ops = d.trace.ops
  numIds : d'.trace.numIds = d.trace.numIds
  errors : d'.errors = d.errors
  stdout : d'.stdout = d.stdout

theorem Frame.trans {d d₁ d₂ : Driver} (h : Frame d d₁) (h' : Frame d₁ d₂) : Frame d d₂ :=
  ⟨h'.ops.trans h.ops, h'.numIds.trans h.numIds, h'.errors.trans h.errors, h'.stdout.trans h.stdout⟩

/-- The outcome of a round of the loop for the outcome of the request. -/
inductive Matches (Ready : Heap → Prop) (Rel : σ → List Range → Heap → Prop) (tracenum i : Nat)
    (op : TraceOp) (d : Driver) :
    Except Fault (Option (Replay σ)) → Except Stop (Bool × Driver) → Prop
  | fault (f : Fault) : Matches Ready Rel tracenum i op d (.error f) (.error (.fault f))
  | refused {d' : Driver} : Frame d d' → Ready d'.heap →
      Matches Ready Rel tracenum i op d (.ok none)
        (.ok (false, d'.mallocError tracenum i (refusal op.type)))
  | misread {x' : Replay σ} {d' : Driver} : Misread op → Frame d d' → Ready d'.heap →
      Matches Ready Rel tracenum i op d (.ok (some x'))
        (.ok (false, d'.mallocError tracenum i notPreserved))
  | done {x' : Replay σ} {rs' : List Range} {d' : Driver} : ¬ Misread op → Frame d d' →
      Agrees Rel x' rs' d' → Matches Ready Rel tracenum i op d (.ok (some x')) (.ok (true, d'))

/-- The bytes of a payload, read as `char`s. -/
theorem charValue_lowByte (index : Int) :
    charValue (UInt8.ofNat (lowByte index)) = lowByte index ↔ lowByte index < 128 := by
  have hlt : lowByte index < 256 := by
    unfold lowByte
    omega
  unfold charValue
  rw [UInt8.toNat_ofNat', Nat.mod_eq_of_lt hlt]
  split <;> omega

/-- The comparison loop. -/
theorem preserved_iff {m : Mem} {newp : Nat} {index : Int} {n j : Nat} :
    preserved m newp index n j = true ↔
      ∀ k, j ≤ k → k < j + n → charValue (m (newp + k)) = lowByte index := by
  induction n generalizing j with
  | zero => exact ⟨fun _ k _ _ => by omega, fun _ => rfl⟩
  | succ n ih =>
    unfold preserved
    by_cases hj : charValue (m (newp + j)) = lowByte index
    · rw [if_neg (not_not.2 hj), ih]
      constructor
      · intro h k hk hlt
        by_cases hkj : k = j
        · rw [hkj, hj]
        · exact h k (by omega) (by omega)
      · exact fun h k hk hlt => h k (by omega) (by omega)
    · rw [if_pos hj]
      exact ⟨fun h => absurd h Bool.false_ne_true, fun h => absurd (h j (le_refl _) (by omega)) hj⟩

variable {mm : Mm} {A : AbsMm σ} {reallocs : Bool} {Ready : Heap → Prop}
  {Rel : σ → List Range → Heap → Prop} {x : Replay σ} {rs : List Range} {d : Driver}
  {index size : Int} {tracenum i : Nat}

/-- A new payload of a good allocator is taken. -/
theorem Granted.addRange {p : Nat} (hG : Granted (payload p (toSizeT size) :: d.ranges) d.heap)
    (hsize : 0 < size ∧ size < 2147483648) (tracenum opnum : Nat) :
    d.addRange p size tracenum opnum =
      .ok (true, { d with ranges := payload p (toSizeT size) :: d.ranges }) := by
  have hin := hG.inside _ List.mem_cons_self
  obtain ⟨-, hok⟩ | ⟨hno, -⟩ := Driver.addRange_cases hG.bounded hsize
  · exact hok
  · refine absurd ⟨hG.aligned _ List.mem_cons_self, ⟨hin.1, hin.2.2⟩, fun r hr => ?_⟩ hno
    exact (Extent.ends_outside_iff hin.2.1).2 (.inl ((List.pairwise_cons.1 hG.apart).1 r hr))

/-- `remove_range` finds the payload. -/
theorem Granted.removeRange {s : Heap} (hG : Granted d.ranges s) {r : Range} (hr : r ∈ d.ranges) :
    d.removeRange r.lo = { d with ranges := d.ranges.erase r } := by
  have hfound : d.ranges.eraseP (fun p => p.lo = r.lo) = d.ranges.erase r := by
    obtain ⟨l₁, l₂, hnot, hl, herase⟩ := List.exists_erase_eq hr
    refine List.eraseP_eq_iff.2 (.inr ⟨r, l₁, l₂, fun t ht hlo => ?_, decide_eq_true rfl, hl, herase⟩)
    have htm : t ∈ d.ranges := by
      rw [hl]
      exact List.mem_append_left _ ht
    exact hnot (hG.lo_inj htm hr (of_decide_eq_true hlo) ▸ ht)
  unfold Driver.removeRange
  rw [hfound]

/-- The pointer and the size are stored. -/
theorem Driver.record {β : Type} (hidx : 0 ≤ index ∧ index < d.trace.numIds) (p : Nat) (size : Int)
    (k : Driver → Except Stop β) :
    (do
      let d ← d.setBlock index p
      let d ← d.setBlockSize index size
      k d) = k { d with trace := d.trace.store index p (toSizeT size) } := by
  obtain ⟨d₁, hset, hd₁⟩ : ∃ d₁, d.setBlock index p = .ok d₁ ∧ d₁ = { d with trace := { d.trace with
      blocks := Function.update d.trace.blocks index.toNat p } } :=
    ⟨_, Driver.setBlock_eq hidx p, rfl⟩
  have hidx' : 0 ≤ index ∧ index < d₁.trace.numIds := by
    rw [hd₁]
    exact hidx
  rw [hset]
  show (d₁.setBlockSize index size >>= k) = _
  rw [Driver.setBlockSize_eq hidx', hd₁]
  rfl

namespace Measured

variable {r : Range}

theorem store (hS : Measured Rel x rs d) (hC : Meets mm A reallocs Ready Rel)
    (hidx : 0 ≤ index ∧ index < d.trace.numIds) {a : σ} {rs₁ : List Range} {p n : Nat} {d' : Driver}
    (hn : 1 ≤ n) (hkeep : ∀ i t, i ≠ index → x.held i = some t → t ∈ rs₁)
    (hrel : Rel a (payload p n :: rs₁) d'.heap) (htrace : d'.trace = d.trace.store index p n) :
    Measured Rel ⟨a, Function.update x.held index (some (payload p n))⟩ (payload p n :: rs₁) d' := by
  refine ⟨Tracks.store hS.toTracks hC hidx hkeep hrel (by rw [htrace]; rfl) (by rw [htrace]; rfl),
    fun i r hr => ?_⟩
  rw [htrace]
  show Function.update d.trace.blockSizes _ _ i.toNat = _
  dsimp only at hr
  by_cases hi : i = index
  · rw [hi, Function.update_self, Option.some.injEq] at hr
    rw [hi, Function.update_self, ← hr, payload_size hn]
  · rw [Function.update_of_ne hi] at hr
    have hin := (hS.held i r hr).1
    rw [Function.update_of_ne (by omega), hS.sizes i r hr]

theorem drop (hS : Measured Rel x rs d) (hr : x.held index = some r) {a : σ} {d' : Driver}
    (hrel : Rel a (rs.erase r) d'.heap) (htrace : d'.trace = d.trace) :
    Measured Rel ⟨a, Function.update x.held index none⟩ (rs.erase r) d' := by
  refine ⟨Tracks.drop hS.toTracks hr hrel htrace, fun i t ht => ?_⟩
  rw [htrace]
  exact hS.sizes i t (Tracks.held_of_drop ht).2

/-- The size of the block, as an `int`. -/
theorem blockSize (hS : Measured Rel x rs d) (hC : Meets mm A reallocs Ready Rel)
    (hr : x.held index = some r) : 1 ≤ r.size ∧ d.blockSize index = .ok r.size := by
  obtain ⟨hidx, hmem, -⟩ := hS.held index r hr
  have hG := hC.live _ _ _ hS.rel
  obtain ⟨hlo, hle, hhi⟩ := hG.inside r hmem
  have hsmall : r.size ≤ maxHeap := by
    have htop := hG.bounded.top
    unfold Extent.size
    omega
  refine ⟨by unfold Extent.size; omega, ?_⟩
  unfold Driver.blockSize sizeToInt
  rw [Driver.slot_eq hidx]
  show Except.ok (if d.trace.blockSizes index.toNat < 2147483648 then _ else _) = _
  unfold maxHeap at hsmall
  rw [hS.sizes index r hr, if_pos (by omega)]

end Measured

/-- The rest of a request, when the new payload is in the list. -/
theorem Agrees.finish (hS : Agrees Rel x rs d) (hC : Meets mm A reallocs Ready Rel)
    (hidx : 0 ≤ index ∧ index < d.trace.numIds) (hsize : 0 < size ∧ size < 2147483648) {a : σ}
    {rs₁ : List Range} {p : Nat} (d₁ : Driver) (htrace : d₁.trace = d.trace)
    (hranges : d₁.ranges = payload p (toSizeT size) :: rs₁)
    (hrel : Rel a (payload p (toSizeT size) :: rs₁) d₁.heap)
    (hkeep : ∀ i t, i ≠ index → x.held i = some t → t ∈ rs₁)
    (hsame : SameBytes rs₁ d.heap.mem d₁.heap.mem) :
    ∃ d₂, (do
        let d ← (d₁.memset p (lowByte index) (toSizeT size)).setBlock index p
        let d ← d.setBlockSize index size
        pure (true, d)) = Except.ok (true, d₂) ∧ Frame d₁ d₂ ∧
      Agrees Rel ⟨a, Function.update x.held index (some (payload p (toSizeT size)))⟩
        (payload p (toSizeT size) :: rs₁) d₂ := by
  obtain ⟨-, hn, -⟩ := toSizeT_eq hsize
  have hmem : ∀ q, p ≤ q → q < p + toSizeT size → q ∈ payload p (toSizeT size) :=
    fun q h1 h2 => (mem_payload hn).2 ⟨h1, h2⟩
  have hids : d₁.trace.numIds = d.trace.numIds := by rw [htrace]
  have hwrite := hC.memset hrel List.mem_cons_self (lowByte index) hmem
  have hap := (List.pairwise_cons.1 (hC.live _ _ _ hrel).apart).1
  refine ⟨_, Driver.record (by rwa [← hids] at hidx) p size _, ⟨rfl, rfl, rfl, rfl⟩,
    hS.toMeasured.store hC hidx hn hkeep hwrite (htrace ▸ rfl), hranges, fun i r hr q hq => ?_⟩
  · show (if p ≤ q ∧ q < p + toSizeT size then _ else d₁.heap.mem q) = _
    dsimp only at hr
    by_cases hi : i = index
    · rw [hi, Function.update_self, Option.some.injEq] at hr
      rw [← hr] at hq
      rw [if_pos ((mem_payload hn).1 hq), hi]
    · rw [Function.update_of_ne hi] at hr
      have hkept := hkeep i r hi hr
      have hout := (hap r hkept).symm.not_mem hq
      rw [if_neg fun h => hout (hmem q h.1 h.2), hsame r hkept q hq, hS.filled i r hr q hq]

theorem Agrees.alloc (hS : Agrees Rel x rs d) (hC : Meets mm A reallocs Ready Rel)
    (hidx : 0 ≤ index ∧ index < d.trace.numIds) (hsize : 0 < size ∧ size < 2147483648)
    (tracenum i : Nat) : Matches Ready Rel tracenum i ⟨.alloc, index, size⟩ d
      (x.op A ⟨.alloc, index, size⟩) (validAlloc mm tracenum i index size d) := by
  obtain ⟨-, hn, hn'⟩ := toSizeT_eq hsize
  have hop : x.op A ⟨.alloc, index, size⟩ =
      (A.malloc x.heap (toSizeT size)).map (x.answer index (toSizeT size)) := rfl
  unfold validAlloc
  rw [hop]
  obtain ⟨f, hA, hcode⟩ | ⟨p, a, s, hA, hcode, -, hsame, hrel⟩ := hC.malloc _ _ _ _ hS.rel hn hn'
  · rw [hA, hcode]
    exact .fault f
  · rw [hA, hcode]
    show Matches _ _ _ _ _ _ (.ok (x.answer index (toSizeT size) (p, a)))
      (if p = 0 then pure (false, Driver.mallocError { d with heap := s } tracenum i _) else _)
    by_cases hp : p = 0
    · rw [if_pos hp] at hrel ⊢
      rw [Replay.answer, if_pos hp]
      exact .refused ⟨rfl, rfl, rfl, rfl⟩ (hC.ready _ _ _ hrel)
    · rw [if_neg hp] at hrel ⊢
      rw [Replay.answer, if_neg hp]
      have hG := hC.live _ _ _ hrel
      rw [← hS.ranges] at hG
      have hadd := hG.addRange (d := { d with heap := s }) hsize tracenum i
      rw [hadd]
      obtain ⟨d₂, hset, hF, hS'⟩ := hS.finish hC hidx hsize
        { d with heap := s, ranges := payload p (toSizeT size) :: d.ranges } rfl
        (by rw [hS.ranges]) hrel (fun j t _ ht => (hS.held j t ht).2.1) hsame
      show Matches _ _ _ _ _ _ _ (do
        let d ← Driver.setBlock (Driver.memset _ p (lowByte index) (toSizeT size)) index p
        let d ← d.setBlockSize index size
        pure (true, d))
      rw [hset]
      exact .done (fun h => nomatch h.1) ⟨hF.ops, hF.numIds, hF.errors, hF.stdout⟩ hS'

theorem Agrees.free (hS : Agrees Rel x rs d) (hC : Meets mm A reallocs Ready Rel) {r : Range}
    (hr : x.held index = some r) (tracenum i : Nat) :
    Matches Ready Rel tracenum i ⟨.free, index, size⟩ d (x.op A ⟨.free, index, size⟩)
      (validFree mm index d) := by
  have hop : x.op A ⟨.free, index, size⟩ =
      .ok (some ⟨A.free x.heap r.lo, Function.update x.held index none⟩) := by
    unfold Replay.op
    dsimp only
    rw [hr]
  have hmem := (hS.held index r hr).2.1
  have hG := hC.live _ _ _ hS.rel
  obtain ⟨s, hcode, -, hsame, hrel⟩ := hC.free _ _ _ _ hS.rel hmem
  rw [← hS.ranges] at hG hmem
  unfold validFree
  rw [hop, hS.block hr]
  show Matches _ _ _ _ _ _ _ (do
    let s ← call (mm.mmFree d.heap r.lo)
    pure (true, { d.removeRange r.lo with heap := s }))
  rw [hcode, hG.removeRange hmem, hS.ranges]
  refine .done (fun h => nomatch h.1) ⟨rfl, rfl, rfl, rfl⟩
    ⟨hS.toMeasured.drop hr hrel rfl, rfl, fun j t ht q hq => ?_⟩
  obtain ⟨hj, ht⟩ := Tracks.held_of_drop ht
  exact (hsame t (hS.erase_of_ne hr hj ht) q hq).trans (hS.filled j t ht q hq)

/-- The comparison succeeds unless the bytes are negative as `char`s. -/
theorem Agrees.preserved (hS : Agrees Rel x rs d) {r : Range} (hr : x.held index = some r)
    {m : Mem} {p n : Nat} (hpos : 1 ≤ n) (hn : n ≤ r.size)
    (hcopy : ∀ j < n, m (p + j) = d.heap.mem (r.lo + j)) :
    preserved m p index n 0 = true ↔ lowByte index < 128 := by
  have hbyte : ∀ j < n, m (p + j) = UInt8.ofNat (lowByte index) := by
    intro j hj
    rw [hcopy j hj]
    unfold Extent.size at hn
    exact hS.filled index r hr _ ⟨Nat.le_add_right _ _, by omega⟩
  rw [preserved_iff, ← charValue_lowByte]
  constructor
  · intro h
    rw [← hbyte 0 hpos]
    exact h 0 (le_refl _) (by omega)
  · intro h k _ hk
    rw [hbyte k (by omega), h]

theorem Agrees.realloc (hS : Agrees Rel x rs d) (hC : Meets mm A true Ready Rel) {r : Range}
    (hr : x.held index = some r) (hsize : 0 < size ∧ size < 2147483648) (tracenum i : Nat) :
    Matches Ready Rel tracenum i ⟨.realloc, index, size⟩ d (x.op A ⟨.realloc, index, size⟩)
      (validRealloc mm tracenum i index size d) := by
  obtain ⟨-, hn, hn'⟩ := toSizeT_eq hsize
  have hop : x.op A ⟨.realloc, index, size⟩ = (A.realloc x.heap r.lo (toSizeT size)).map
      (x.answer index (toSizeT size)) := by
    unfold Replay.op
    dsimp only
    rw [hr]
  have hidx := (hS.held index r hr).1
  have hmem := (hS.held index r hr).2.1
  have hG := hC.live _ _ _ hS.rel
  unfold validRealloc
  rw [hop, hS.block hr]
  show Matches _ _ _ _ _ _ _ (call (mm.mmRealloc d.heap r.lo (toSizeT size)) >>= _)
  obtain ⟨f, hA, hcode⟩ | ⟨p, a, s, hA, hcode, -, hsame, hrel, hcopy⟩ :=
    hC.realloc rfl _ _ _ _ _ hS.rel hmem hn hn'
  · rw [hA, hcode]
    exact .fault f
  · rw [hA, hcode]
    show Matches _ _ _ _ _ _ (.ok (x.answer index (toSizeT size) (p, a)))
      (if p = 0 then pure (false, Driver.mallocError { d with heap := s } tracenum i _)
      else (Driver.removeRange { d with heap := s } r.lo).addRange p size tracenum i >>= _)
    by_cases hp : p = 0
    · rw [if_pos hp] at hrel ⊢
      rw [Replay.answer, if_pos hp]
      exact .refused ⟨rfl, rfl, rfl, rfl⟩ (hC.ready _ _ _ hrel)
    · rw [if_neg hp] at hrel ⊢
      rw [Replay.answer, if_neg hp]
      have hG := hC.live _ _ _ hS.rel
      have hG' := hC.live _ _ _ hrel
      rw [← hS.ranges] at hG hmem hG'
      rw [hG.removeRange (d := { d with heap := s }) hmem,
        hG'.addRange (d := { d with heap := s, ranges := d.ranges.erase r }) hsize tracenum i]
      obtain ⟨hpos, hold⟩ := hS.blockSize hC hr
      show Matches _ _ _ _ _ _ _ (do
        let oldsize ← d.blockSize index
        _)
      rw [hold]
      show Matches _ _ _ _ _ _ _
        (if ¬ Malloc.preserved s.mem p index (if size < r.size then size else r.size).toNat 0 then _
        else _)
      have hmin : (if size < r.size then size else r.size).toNat = min (toSizeT size) r.size := by
        have hcast := (toSizeT_eq hsize).1
        split <;> omega
      rw [hmin]
      have hsaved := hS.preserved hr (by omega) (Nat.min_le_right _ _) (hcopy hp)
      by_cases hlow : lowByte index < 128
      · rw [if_neg (not_not.2 (hsaved.2 hlow))]
        obtain ⟨d₂, hset, hF, hS'⟩ := hS.finish hC hidx hsize
          { d with heap := s, ranges := payload p (toSizeT size) :: d.ranges.erase r } rfl
          (by rw [hS.ranges]) hrel (fun j t hj ht => hS.erase_of_ne hr hj ht) hsame
        show Matches _ _ _ _ _ _ _ (do
          let d ← Driver.setBlock (Driver.memset _ p (lowByte index) (toSizeT size)) index p
          let d ← d.setBlockSize index size
          pure (true, d))
        rw [hset]
        exact .done (fun h => absurd h.2 (not_le.2 hlow))
          ⟨hF.ops, hF.numIds, hF.errors, hF.stdout⟩ hS'
      · rw [if_pos (mt hsaved.1 hlow)]
        exact .misread ⟨rfl, not_lt.1 hlow⟩ ⟨rfl, rfl, rfl, rfl⟩ (hC.ready _ _ _ hrel)

/-! ## A run -/

/-- The outcome of the loop for the verdict. -/
inductive Final (Ready : Heap → Prop) (tracenum : Nat) (d : Driver) :
    Except Fault (Option (Nat × String)) → Except Stop (Bool × Driver) → Prop
  | fault (f : Fault) : Final Ready tracenum d (.error f) (.error (.fault f))
  | failed {i : Nat} {msg : String} {d' : Driver} : Frame d d' → Ready d'.heap →
      Final Ready tracenum d (.ok (some (i, msg))) (.ok (false, d'.mallocError tracenum i msg))
  | passed {d' : Driver} : Frame d d' → Ready d'.heap →
      Final Ready tracenum d (.ok none) (.ok (true, d'))

theorem Final.of_frame {d d₁ : Driver} (hF : Frame d d₁) {v : Except Fault (Option (Nat × String))}
    {out : Except Stop (Bool × Driver)} (h : Final Ready tracenum d₁ v out) :
    Final Ready tracenum d v out := by
  cases h with
  | fault f => exact .fault f
  | failed hF' hready => exact .failed (hF.trans hF') hready
  | passed hF' hready => exact .passed (hF.trans hF') hready

/-- A round, for a request that keeps to the protocol. -/
theorem Agrees.round (hS : Agrees Rel x rs d) (hC : Meets mm A reallocs Ready Rel) {live : List Int}
    (hlive : ∀ j ∈ live, ∃ r, x.held j = some r) {op : TraceOp} {ops : List TraceOp}
    (hl : Legal d.trace.numIds reallocs live (op :: ops)) (tracenum i : Nat) :
    Matches Ready Rel tracenum i op d (x.op A op) (validOp mm tracenum i op d) := by
  obtain ⟨type, index, size⟩ := op
  obtain ⟨hidx, hl⟩ := hl
  cases type with
  | alloc => exact hS.alloc hC hidx hl.1 tracenum i
  | realloc =>
    obtain ⟨rfl, hmem, hsize, -⟩ := hl
    obtain ⟨r, hr⟩ := hlive index hmem
    exact hS.realloc hC hr hsize tracenum i
  | free =>
    obtain ⟨r, hr⟩ := hlive index hl.1
    exact hS.free hC hr tracenum i

/-- What an operation does to the pointers: a request stores one, a free takes one away. -/
theorem Replay.held_cases {op : TraceOp} {x' : Replay σ} (hop : x.op A op = .ok (some x')) :
    op.type ≠ .free ∧ (∃ p, x'.held =
      Function.update x.held op.index (some (payload p (toSizeT op.size)))) ∨
    (op.type = .free ∨ op.type = .realloc ∧ x.held op.index = none) ∧
      x'.held = Function.update x.held op.index none := by
  obtain ⟨type, index, size⟩ := op
  have hanswer : ∀ {out : Nat × σ}, x.answer index (toSizeT size) out = some x' →
      ∃ p, x'.held = Function.update x.held index (some (payload p (toSizeT size))) := by
    intro out hout
    unfold Replay.answer at hout
    split at hout
    · cases hout
    · exact ⟨out.1, by rw [← Option.some.inj hout]⟩
  have hsame : x.held index = none → Function.update x.held index none = x.held := fun hr =>
    hr ▸ Function.update_eq_self index x.held
  unfold Replay.op at hop
  cases type with
  | alloc =>
    obtain ⟨out, -, hout⟩ := map_ok hop
    exact .inl ⟨nofun, hanswer hout⟩
  | realloc =>
    rcases hr : x.held index with _ | r
    · rw [hr] at hop
      rw [← Option.some.inj (Except.ok.inj hop)]
      exact .inr ⟨.inr ⟨rfl, rfl⟩, (hsame hr).symm⟩
    · rw [hr] at hop
      obtain ⟨out, -, hout⟩ := map_ok hop
      exact .inl ⟨nofun, hanswer hout⟩
  | free =>
    rcases hr : x.held index with _ | r
    · rw [hr] at hop
      rw [← Option.some.inj (Except.ok.inj hop)]
      exact .inr ⟨.inl rfl, (hsame hr).symm⟩
    · rw [hr] at hop
      rw [← Option.some.inj (Except.ok.inj hop)]
      exact .inr ⟨.inl rfl, rfl⟩

/-- The indices in use are held. -/
theorem Replay.held_op {op : TraceOp} {x' : Replay σ} {live : List Int}
    (hlive : ∀ j ∈ live, ∃ r, x.held j = some r) (hop : x.op A op = .ok (some x')) :
    ∀ j ∈ liveAfter live [op], ∃ r, x'.held j = some r := by
  obtain ⟨type, index, size⟩ := op
  intro j hj
  obtain ⟨hne, p, hheld⟩ | ⟨htype, hheld⟩ := Replay.held_cases hop
  · rw [hheld]
    by_cases hji : j = index
    · rw [hji, Function.update_self]
      exact ⟨_, rfl⟩
    · rw [Function.update_of_ne hji]
      cases type with
      | alloc => exact hlive j ((List.mem_cons.1 hj).resolve_left hji)
      | realloc => exact hlive j hj
      | free => exact absurd rfl hne
  · rw [hheld]
    cases type with
    | alloc => simp at htype
    | realloc =>
      have hji : j ≠ index := by
        rintro rfl
        obtain ⟨r, hr⟩ := hlive j hj
        simp [hr] at htype
      rw [Function.update_of_ne hji]
      exact hlive j hj
    | free =>
      obtain ⟨hj, hne⟩ := List.mem_filter.1 hj
      rw [Function.update_of_ne (of_decide_eq_true hne)]
      exact hlive j hj

/-- The loop, from any of its rounds on. -/
theorem validLoop_final (hC : Meets mm A reallocs Ready Rel) {live : List Int} {ops : List TraceOp}
    (hS : Agrees Rel x rs d) (hlive : ∀ j ∈ live, ∃ r, x.held j = some r)
    (hl : Legal d.trace.numIds reallocs live ops) (tracenum i : Nat) :
    Final Ready tracenum d (judge A i ops x) (validLoop mm tracenum i ops d) := by
  induction ops generalizing x rs d live i with
  | nil => exact .passed ⟨rfl, rfl, rfl, rfl⟩ (hC.ready _ _ _ hS.rel)
  | cons op ops ih =>
    have hround := hS.round hC hlive hl tracenum i
    unfold judge validLoop
    generalize hop : x.op A op = a at hround ⊢
    generalize validOp mm tracenum i op d = out at hround ⊢
    cases hround with
    | fault f => exact .fault f
    | refused hF hready => exact .failed hF hready
    | misread hmis hF hready =>
      dsimp only
      rw [if_pos hmis]
      exact .failed hF hready
    | done hmis hF hS' =>
      dsimp only
      rw [if_neg hmis]
      refine .of_frame hF (ih hS' (Replay.held_op hlive hop) ?_ (i + 1))
      rw [hF.numIds]
      exact hl.rest

/-- The driver with nothing held. -/
theorem Meets.start (hC : Meets mm A reallocs Ready Rel) (hready : Ready d.heap) :
    ∃ s, mm.mmInit (memResetBrk d.heap) = .ok (0, s) ∧ Rel A.start [] s ∧
      ∀ d' : Driver, d'.heap = s → Tracks Rel (Replay.start A) [] d' := by
  obtain ⟨s, hcode, hrel⟩ := hC.init _ hready
  refine ⟨s, hcode, hrel, fun d' hd' => ⟨by rwa [hd'], fun i r hr => ?_, fun i j r hr => ?_⟩⟩
  · cases hr
  · cases hr

theorem evalMmValid_final (hC : Meets mm A reallocs Ready Rel) (hready : Ready d.heap)
    (hl : Legal d.trace.numIds reallocs [] d.trace.ops) (tracenum : Nat) :
    Final Ready tracenum d (judge A 0 d.trace.ops (Replay.start A)) (evalMmValid mm tracenum d) := by
  obtain ⟨s, hcode, hrel, htracks⟩ := hC.start hready
  unfold evalMmValid
  show Final _ _ _ _ (call (mm.mmInit (memResetBrk d.heap)) >>= _)
  rw [hcode]
  show Final _ _ _ _ (validLoop mm tracenum 0 d.trace.ops { d with heap := s, ranges := [] })
  have hS : Agrees Rel (Replay.start A) [] { d with heap := s, ranges := [] } :=
    ⟨⟨htracks _ rfl, fun i r hr => (nomatch hr)⟩, rfl, fun i r hr => (nomatch hr)⟩
  have hF : Frame d { d with heap := s, ranges := [] } := ⟨rfl, rfl, rfl, rfl⟩
  exact .of_frame hF (validLoop_final hC hS (fun j hj => absurd hj List.not_mem_nil) hl tracenum 0)

/-- The line of an error. -/
def errorLine (tracenum i : Nat) (msg : String) : String :=
  s!"ERROR [trace {tracenum}, line {i + 5}]: {msg}\n"

/-- When a trace that keeps to the protocol passes. -/
theorem evalMmValid_passes (hC : Meets mm A reallocs Ready Rel) (hready : Ready d.heap)
    (hl : Legal d.trace.numIds reallocs [] d.trace.ops) (tracenum : Nat) :
    (∃ d', evalMmValid mm tracenum d = .ok (true, d')) ↔
      Served A d.trace.ops (Replay.start A) ∧ ∀ op ∈ d.trace.ops, ¬ Misread op := by
  have hfinal := evalMmValid_final hC hready hl tracenum
  rw [← judge_none_iff (i := 0)]
  generalize judge A 0 d.trace.ops (Replay.start A) = verdict at hfinal ⊢
  generalize evalMmValid mm tracenum d = out at hfinal ⊢
  cases hfinal with
  | fault f => exact iff_of_false nofun nofun
  | failed _ _ => exact iff_of_false nofun nofun
  | passed hF _ => exact iff_of_true ⟨_, rfl⟩ rfl

/-- The verdict on a trace that keeps to the protocol: it passes or has one error, which is not about a
    payload. -/
theorem evalMmValid_verdict (hC : Meets mm A reallocs Ready Rel) (hready : Ready d.heap)
    (hl : Legal d.trace.numIds reallocs [] d.trace.ops) (tracenum : Nat) :
    ((∃ d', evalMmValid mm tracenum d = .ok (true, d')) ↔
      Served A d.trace.ops (Replay.start A) ∧ ∀ op ∈ d.trace.ops, ¬ Misread op) ∧
    (∀ d', evalMmValid mm tracenum d = .ok (true, d') →
      d'.errors = d.errors ∧ d'.stdout = d.stdout) ∧
    ∀ d', evalMmValid mm tracenum d = .ok (false, d') → d'.errors = d.errors + 1 ∧
      ∃ i op msg, d.trace.ops[i]? = some op ∧ d'.stdout = d.stdout ++ [errorLine tracenum i msg] ∧
        (op.type ≠ .free ∧ msg = refusal op.type ∨ Misread op ∧ msg = notPreserved) := by
  have hfinal := evalMmValid_final hC hready hl tracenum
  refine ⟨evalMmValid_passes hC hready hl tracenum, fun d' hok => ?_, fun d' hok => ?_⟩
  · rw [hok] at hfinal
    generalize judge A 0 d.trace.ops (Replay.start A) = verdict at hfinal
    cases hfinal with
    | passed hF _ => exact ⟨hF.errors, hF.stdout⟩
  · rw [hok] at hfinal
    generalize hv : judge A 0 d.trace.ops (Replay.start A) = verdict at hfinal
    cases hfinal with
    | failed hF _ =>
      obtain ⟨j, op, rfl, hj, hmsg⟩ := judge_some hv
      rw [Nat.zero_add]
      exact ⟨congrArg (· + 1) hF.errors, j, op, _, hj, congrArg (· ++ _) hF.stdout, hmsg⟩

end OsBasics.Malloc
