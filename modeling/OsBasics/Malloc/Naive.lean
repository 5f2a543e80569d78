/-
  The allocator the driver comes with, `mm-original.c`.

  It moves the break up and never gives anything back, with the size of a block in
  the eight bytes before it. `Bump` is what a heap of it keeps. It meets what the driver asks,
  reallocations included (`meets`), so its traces pass exactly when the blocks they
  ask for fit into MAX_HEAP one after the other and no block is misread (`evalMmValid_naive`).
-/
import OsBasics.Malloc.Refine
import OsBasics.Malloc.Verdict

namespace OsBasics.Malloc.Naive

open OsBasics.Lib

/-! ## mm-original.c -/

/-- `SIZE_T_SIZE`. -/
def sizeTSize : Nat := align 4

/-- `mm_init`. -/
def mmInit (s : Heap) : Except Fault (Int × Heap) := pure (0, s)

/-- `mm_malloc(size)`. -/
def mmMalloc (s : Heap) (size : Nat) : Except Fault (Nat × Heap) := do
  let newsize := sizeToInt (align (addU size sizeTSize))
  let (p, s) ← memSbrk s newsize
  if p = minusOne then pure (0, s)
  else
    let s := put s p size
    pure (addU p sizeTSize, s)

/-- `mm_free(ptr)`. -/
def mmFree (s : Heap) (_ptr : Nat) : Heap := s

/-- `mm_realloc(ptr, size)`. -/
def mmRealloc (s : Heap) (ptr size : Nat) : Except Fault (Nat × Heap) := do
  let oldptr := ptr
  let (newptr, s) ← mmMalloc s size
  if newptr = 0 then pure (0, s)
  else
    let copySize := get s.mem (subU oldptr sizeTSize)
    let copySize := if size < copySize then size else copySize
    let s := memcpy s newptr oldptr copySize
    let s := mmFree s oldptr
    pure (newptr, s)

/-- It, as the driver calls it. -/
def mm : Mm where
  mmInit := mmInit
  mmMalloc := mmMalloc
  mmFree s p := pure (mmFree s p)
  mmRealloc := mmRealloc

/-! ## What it does -/

/-- What a request of `n` bytes takes. -/
def taken (n : Nat) : Nat := (n + 15) / 8 * 8

theorem newsize_eq {n : Nat} (h : n < 2147483648) : align (addU n sizeTSize) = taken n := by
  have h8 : sizeTSize = 8 := rfl
  rw [h8, addU_eq (by unfold addrSpace; omega), align_eq (by unfold addrSpace; omega)]
  rfl

/-- The allocator on the break alone, in a heap that may grow up to `top`. -/
def bump (top brk n : Nat) : Except Fault (Nat × Nat) :=
  if 2147483648 ≤ taken n then .ok (0, brk)
  else if addrSpace ≤ brk + taken n then .error .wrap
  else if top < brk + taken n then .ok (0, brk)
  else .ok (brk + 8, brk + taken n)

/-- The allocator at base `h`. -/
def abs (h : Nat) : AbsMm Nat where
  start := h
  malloc := bump (h + maxHeap)
  free brk _ := brk
  realloc brk _ n := bump (h + maxHeap) brk n

/-- A heap at `h` in which it can be started. -/
structure Ready (h : Nat) (s : Heap) : Prop where
  base : s.memStartBrk = h
  max : s.memMaxAddr = h + maxHeap
  pos : 0 < h
  dword : h % 8 = 0
  space : h + maxHeap < addrSpace

/-- There is room for a size between the two. -/
def Spaced (r t : Range) : Prop := r.hi + 8 < t.lo ∨ t.hi + 8 < r.lo

instance : Std.Symm Spaced := ⟨fun _ _ h => Or.symm h⟩

/-- The break is at `brk`, and before every payload of `rs` stands its size. -/
structure Bump (h brk : Nat) (rs : List Range) (s : Heap) : Prop extends Ready h s where
  brk_eq : s.memBrk = brk
  lo : h ≤ brk
  hi : brk ≤ h + maxHeap
  brkDword : brk % 8 = 0
  apart : rs.Pairwise Spaced
  size : ∀ r ∈ rs, get s.mem (r.lo - 8) = r.size
  inside : ∀ r ∈ rs, r.lo % 8 = 0 ∧ h + 8 ≤ r.lo ∧ r.lo ≤ r.hi ∧ r.hi < brk

variable {h brk n : Nat} {rs : List Range} {s : Heap}

theorem le_taken (n : Nat) : n + 8 ≤ taken n := by
  unfold taken
  omega

/-- `mm_malloc`, in terms of `bump`. -/
theorem Bump.mmMalloc_eq (hB : Bump h brk rs s) (hn : n < 2147483648) :
    mmMalloc s n = (bump (h + maxHeap) brk n).map fun out =>
      (out.1, if out.1 = 0 then s else put { s with memBrk := out.2 } brk n) := by
  have htaken := le_taken n
  have hlt : taken n < addrSpace := by
    unfold taken addrSpace
    omega
  have h8 : sizeTSize = 8 := rfl
  unfold mmMalloc bump
  dsimp only
  rw [newsize_eq hn]
  by_cases hbig : 2147483648 ≤ taken n
  · rw [Rep.memSbrk_refuses hlt (.inl hbig), if_pos hbig]
    rfl
  · rw [if_neg hbig]
    by_cases hwrap : addrSpace ≤ brk + taken n
    · have hsbrk : memSbrk s (sizeToInt (taken n)) = .error .wrap := by
        unfold memSbrk sizeToInt
        rw [if_pos (not_le.1 hbig), if_neg (by omega), Int.toNat_natCast, hB.brk_eq]
        exact if_pos hwrap
      rw [hsbrk, if_pos hwrap]
      rfl
    · rw [if_neg hwrap]
      by_cases htop : h + maxHeap < brk + taken n
      · rw [Rep.memSbrk_refuses hlt (.inr (by rw [hB.brk_eq, hB.max]; omega)), if_pos htop]
        rfl
      · rw [Rep.memSbrk_grows (not_le.1 hbig) (by rw [hB.brk_eq, hB.max]; omega)
          (by rw [hB.brk_eq]; omega), if_neg htop, hB.brk_eq]
        show (if brk = minusOne then _ else _) = Except.ok (_, if brk + 8 = 0 then _ else _)
        have hne : brk ≠ minusOne := by
          unfold minusOne
          unfold addrSpace at hwrap
          omega
        rw [if_neg hne, if_neg (by omega), h8]
        show Except.ok (addU brk 8, _) = _
        rw [addU_eq (by omega)]

/-- What `bump` answers: it has room, or not. -/
theorem bump_cases (n : Nat) (hlo : h ≤ brk) (hspace : h + maxHeap < addrSpace) :
    brk + taken n ≤ h + maxHeap ∧ bump (h + maxHeap) brk n = .ok (brk + 8, brk + taken n) ∨
    ¬ brk + taken n ≤ h + maxHeap ∧
      (bump (h + maxHeap) brk n = .error .wrap ∨ bump (h + maxHeap) brk n = .ok (0, brk)) := by
  unfold bump
  split
  · refine .inr ⟨?_, .inr rfl⟩
    unfold maxHeap
    omega
  · split
    · exact .inr ⟨by omega, .inl rfl⟩
    · split
      · exact .inr ⟨by omega, .inr rfl⟩
      · next htop => exact .inl ⟨not_lt.1 htop, rfl⟩

/-- A request answered. -/
theorem Bump.push (hB : Bump h brk rs s) (hn : 1 ≤ n) (htop : brk + taken n ≤ h + maxHeap) :
    Bump h (brk + taken n) (payload (brk + 8) n :: rs)
      (put { s with memBrk := brk + taken n } brk n) := by
  have htaken := le_taken n
  have hspace := hB.space
  have hlo := hB.lo
  have hsize := payload_size (p := brk + 8) hn
  have hplo : (payload (brk + 8) n).lo = brk + 8 := rfl
  have hphi : (payload (brk + 8) n).hi = brk + 8 + n - 1 := rfl
  refine ⟨⟨hB.base, hB.max, hB.pos, hB.dword, hB.space⟩, rfl, by omega, htop, ?_, ?_, ?_, ?_⟩
  · have hd := hB.brkDword
    unfold taken
    omega
  · refine List.pairwise_cons.2 ⟨fun r hr => .inr ?_, hB.apart⟩
    have hin := hB.inside r hr
    omega
  · refine List.forall_mem_cons.2 ⟨?_, fun r hr => ?_⟩
    · rw [hplo, hsize]
      exact get_putWord_same _ _ (by omega)
    · have hin := hB.inside r hr
      exact (get_putWord_ne _ _ (by omega)).trans (hB.size r hr)
  · refine List.forall_mem_cons.2 ⟨?_, fun r hr => ?_⟩
    · have hd := hB.brkDword
      omega
    · have hin := hB.inside r hr
      omega

/-- What the driver sees of it. -/
theorem Bump.granted (hB : Bump h brk rs s) : Granted rs s := by
  have hbrk := hB.brk_eq
  have hbase := hB.base
  refine ⟨⟨by rw [hbase]; exact hB.pos, ?_, ?_, by rw [hbase]; exact hB.space⟩, ?_, ?_, ?_⟩
  · rw [hbase, hbrk]
    exact hB.lo
  · rw [hbase, hbrk]
    exact hB.hi
  · exact hB.apart.imp fun {r t} hap => hap.imp (by omega) (by omega)
  · exact fun r hr => (hB.inside r hr).1
  · intro r hr
    have hin := hB.inside r hr
    omega

/-- Bytes of payloads are written. -/
theorem Bump.write (hB : Bump h brk rs s) {m : Mem} (hm : ∀ q, (∀ r ∈ rs, q ∉ r) → m q = s.mem q) :
    Bump h brk rs { s with mem := m } := by
  refine ⟨⟨hB.base, hB.max, hB.pos, hB.dword, hB.space⟩, hB.brk_eq, hB.lo, hB.hi, hB.brkDword,
    hB.apart, fun t ht => ?_, hB.inside⟩
  refine (get_congr fun q h1 h2 => hm q fun r hr hq => ?_).trans (hB.size t ht)
  have hin := hB.inside t ht
  have hq1 := hq.1
  have hq2 := hq.2
  by_cases hrt : r = t
  · subst hrt
    omega
  · have hap : Spaced r t := hB.apart.forall hr ht hrt
    rcases hap with h | h <;> omega

/-- A payload is forgotten. -/
theorem Bump.sublist (hB : Bump h brk rs s) {rs' : List Range} (hsub : rs'.Sublist rs) :
    Bump h brk rs' s :=
  ⟨hB.toReady, hB.brk_eq, hB.lo, hB.hi, hB.brkDword, hB.apart.sublist hsub,
    fun r hr => hB.size r (hsub.subset hr), fun r hr => hB.inside r (hsub.subset hr)⟩

/-- Nothing below the break changes. -/
theorem Bump.sameBytes (hB : Bump h brk rs s) (n : Nat) : SameBytes rs s.mem
    (put { s with memBrk := brk + taken n } brk n).mem := by
  intro r hr q hq
  have hin := hB.inside r hr
  have hq2 := hq.2
  exact putWord_byte _ _ (by omega)

theorem Bump.malloc (hB : Bump h brk rs s) (hn : 1 ≤ n) (hn' : n < 2147483648) :
    (∃ f, bump (h + maxHeap) brk n = .error f ∧ mmMalloc s n = .error f) ∨
    ∃ p brk' s', bump (h + maxHeap) brk n = .ok (p, brk') ∧ mmMalloc s n = .ok (p, s') ∧
      Grows s s' ∧ SameBytes rs s.mem s'.mem ∧
      Bump h brk' (if p = 0 then rs else payload p n :: rs) s' := by
  rw [hB.mmMalloc_eq hn']
  obtain ⟨htop, hbump⟩ | ⟨-, hbump | hbump⟩ := bump_cases n hB.lo hB.space
  · rw [hbump]
    refine .inr ⟨brk + 8, brk + taken n, _, rfl, rfl, ⟨rfl, ?_⟩, hB.sameBytes n, hB.push hn htop⟩
    rw [hB.brk_eq]
    exact Nat.le_add_right _ _
  · rw [hbump]
    exact .inl ⟨.wrap, rfl, rfl⟩
  · rw [hbump]
    exact .inr ⟨0, brk, s, rfl, rfl, ⟨rfl, le_refl _⟩, fun _ _ _ _ => rfl, hB⟩

theorem Bump.realloc (hB : Bump h brk rs s) {r : Range} (hr : r ∈ rs) (hn : 1 ≤ n)
    (hn' : n < 2147483648) :
    (∃ f, bump (h + maxHeap) brk n = .error f ∧ mmRealloc s r.lo n = .error f) ∨
    ∃ p brk' s', bump (h + maxHeap) brk n = .ok (p, brk') ∧ mmRealloc s r.lo n = .ok (p, s') ∧
      Grows s s' ∧ SameBytes (rs.erase r) s.mem s'.mem ∧
      Bump h brk' (if p = 0 then rs else payload p n :: rs.erase r) s' ∧
      (p ≠ 0 → ∀ j < min n r.size, s'.mem (p + j) = s.mem (r.lo + j)) := by
  unfold mmRealloc
  rw [hB.mmMalloc_eq hn']
  obtain ⟨htop, hbump⟩ | ⟨-, hbump | hbump⟩ := bump_cases n hB.lo hB.space
  · rw [hbump]
    have hpush := hB.push hn htop
    have hin := hB.inside r hr
    have hsame := hB.sameBytes n
    have hsize : get (put { s with memBrk := brk + taken n } brk n).mem (subU r.lo sizeTSize) =
        r.size := by
      have h8 : sizeTSize = 8 := rfl
      rw [h8, subU_eq (by omega)]
      exact hpush.size r (List.mem_cons_of_mem _ hr)
    refine .inr ⟨brk + 8, brk + taken n, memcpy (put { s with memBrk := brk + taken n } brk n)
      (brk + 8) r.lo (min n r.size), rfl, ?_, ⟨rfl, ?_⟩, fun t ht q hq => ?_, ?_,
      fun _ j hj => ?_⟩
    · show Except.ok (brk + 8, memcpy (put { s with memBrk := brk + taken n } brk n) (brk + 8) r.lo
        (if n < get (put { s with memBrk := brk + taken n } brk n).mem (subU r.lo sizeTSize) then n
        else get (put { s with memBrk := brk + taken n } brk n).mem (subU r.lo sizeTSize))) = _
      have hmin : (if n < r.size then n else r.size) = min n r.size := by
        split <;> omega
      rw [hsize, hmin]
    · show s.memBrk ≤ brk + taken n
      rw [hB.brk_eq]
      exact Nat.le_add_right _ _
    · have ht := List.mem_of_mem_erase ht
      have htin := hB.inside t ht
      have hq2 := hq.2
      refine (if_neg (by omega)).trans (hsame t ht q hq)
    · refine (hpush.write fun q hq => if_neg fun h => ?_).sublist (.cons_cons _ List.erase_sublist)
      refine hq _ List.mem_cons_self ((mem_payload hn).2 ⟨h.1, ?_⟩)
      exact h.2.trans_le (Nat.add_le_add_left (Nat.min_le_left _ _) _)
    · refine (if_pos (by omega)).trans ?_
      rw [Nat.add_sub_cancel_left]
      refine hsame r hr _ ⟨Nat.le_add_right _ _, ?_⟩
      have hj := lt_min_iff.1 hj
      unfold Extent.size at hj
      omega
  · rw [hbump]
    exact .inl ⟨.wrap, rfl, rfl⟩
  · rw [hbump]
    exact .inr ⟨0, brk, s, rfl, rfl, ⟨rfl, le_refl _⟩, fun _ _ _ _ => rfl, hB,
      fun hne => absurd rfl hne⟩

/-- It does what the driver asks. -/
theorem meets (h : Nat) : Meets mm (abs h) true (Ready h) fun brk rs s => Bump h brk rs s where
  init s hs := by
    refine ⟨memResetBrk s, rfl, ⟨hs.base, hs.max, hs.pos, hs.dword, hs.space⟩, hs.base,
      le_refl _, Nat.le_add_right _ _, hs.dword, .nil, ?_, ?_⟩
    · exact fun r hr => absurd hr List.not_mem_nil
    · exact fun r hr => absurd hr List.not_mem_nil
  ready _ _ _ hB := hB.toReady
  live _ _ _ hB := hB.granted
  write _ _ _ _ q v hB hr hq := hB.write fun q' hq' => putByte_ne _ _ fun e => hq' _ hr (e ▸ hq)
  malloc _ _ _ _ hB hn hn' := hB.malloc hn hn'
  free _ _ s r hB hr :=
    ⟨s, rfl, ⟨rfl, le_refl _⟩, fun _ _ _ _ => rfl, hB.sublist List.erase_sublist⟩
  realloc _ _ _ _ _ _ hB hr hn hn' := hB.realloc hr hn hn'

/-! ## Its traces -/

/-- What the blocks of a trace take, one after the other. -/
def need (ops : List TraceOp) : Nat :=
  ((ops.filter (·.type ≠ .free)).map fun op => taken (toSizeT op.size)).sum

theorem need_request {op : TraceOp} (hop : op.type ≠ .free) (ops : List TraceOp) :
    need (op :: ops) = taken (toSizeT op.size) + need ops := by
  unfold need
  rw [List.filter_cons_of_pos (by simpa using hop), List.map_cons, List.sum_cons]

theorem need_free {op : TraceOp} (hop : op.type = .free) (ops : List TraceOp) :
    need (op :: ops) = need ops := by
  unfold need
  rw [List.filter_cons_of_neg (by simp [hop])]

/-- A request of the trace. -/
theorem answers {x : Replay Nat} {op : TraceOp} (hspace : h + maxHeap < addrSpace)
    (hlo : h ≤ x.heap) (hop : op.type = .alloc ∨ op.type = .realloc ∧ ∃ r, x.held op.index = some r) :
    x.heap + taken (toSizeT op.size) ≤ h + maxHeap ∧
      (∃ x', x.op (abs h) op = .ok (some x') ∧ x'.heap = x.heap + taken (toSizeT op.size)) ∨
    ¬ x.heap + taken (toSizeT op.size) ≤ h + maxHeap ∧
      ((∃ f, x.op (abs h) op = .error f) ∨ x.op (abs h) op = .ok none) := by
  have hbump : x.op (abs h) op = (bump (h + maxHeap) x.heap (toSizeT op.size)).map
      (x.answer op.index (toSizeT op.size)) := by
    unfold Replay.op
    obtain hop | ⟨hop, r, hr⟩ := hop
    · rw [hop]
      rfl
    · rw [hop, hr]
      rfl
  rw [hbump]
  obtain ⟨htop, hok⟩ | ⟨htop, hno | hno⟩ := bump_cases (toSizeT op.size) hlo hspace
  · rw [hok]
    exact .inl ⟨htop, _, rfl, rfl⟩
  · rw [hno]
    exact .inr ⟨htop, .inl ⟨_, rfl⟩⟩
  · rw [hno]
    exact .inr ⟨htop, .inr rfl⟩

/-- Every request is answered when there is room for all. -/
theorem served_iff {numIds : Int} {reallocs : Bool} {live : List Int} {ops : List TraceOp}
    {x : Replay Nat} (hl : Legal numIds reallocs live ops)
    (hlive : ∀ j ∈ live, ∃ r, x.held j = some r) (hspace : h + maxHeap < addrSpace)
    (hlo : h ≤ x.heap) (hhi : x.heap ≤ h + maxHeap) :
    Served (abs h) ops x ↔ x.heap + need ops ≤ h + maxHeap := by
  induction ops generalizing x live with
  | nil => exact iff_of_true ⟨x, rfl⟩ hhi
  | cons op ops ih =>
    have hrest := hl.rest
    have hrequest : (op.type = .alloc ∨ op.type = .realloc ∧ ∃ r, x.held op.index = some r) →
        (Served (abs h) (op :: ops) x ↔ x.heap + need (op :: ops) ≤ h + maxHeap) := by
      intro hop
      have hfree : op.type ≠ .free := by
        obtain h | h := hop.imp_right And.left <;> rw [h] <;> decide
      rw [need_request hfree]
      obtain ⟨htop, x', hok, hx'⟩ | ⟨htop, hno⟩ := answers hspace hlo hop
      · rw [served_cons hok, ih hrest (Replay.held_op hlive hok) (by omega) (by omega), hx',
          Nat.add_assoc]
      · exact iff_of_false (not_served hno) (by omega)
    cases htype : op.type with
    | alloc => exact hrequest (.inl htype)
    | realloc => exact hrequest (.inr ⟨htype, hlive _ (hl.mem (by rw [htype]; decide))⟩)
    | free =>
      obtain ⟨r, hr⟩ := hlive _ (hl.mem (by rw [htype]; decide))
      have hok : x.op (abs h) op = .ok (some ⟨x.heap, Function.update x.held op.index none⟩) := by
        unfold Replay.op
        rw [htype, hr]
        rfl
      rw [served_cons hok, need_free htype]
      exact ih hrest (Replay.held_op hlive hok) hlo hhi

/-- A trace passes exactly when its blocks fit into MAX_HEAP one after the other and no index is misread. -/
theorem evalMmValid_naive {d : Driver} (hready : Ready h d.heap)
    (hl : Legal d.trace.numIds true [] d.trace.ops) (tracenum : Nat) :
    (∃ d', evalMmValid mm tracenum d = .ok (true, d')) ↔
      need d.trace.ops ≤ maxHeap ∧ ∀ op ∈ d.trace.ops, ¬ Misread op := by
  rw [evalMmValid_passes (meets h) hready hl tracenum,
    served_iff hl (fun j hj => absurd hj List.not_mem_nil) hready.space (le_refl _)
      (Nat.le_add_right _ _)]
  exact and_congr_left' (Nat.add_le_add_iff_left)

theorem ready_boot (m : Mem) (t : Trace) : Ready 8 (Driver.boot m 8 t).heap :=
  ⟨rfl, rfl, by decide, by decide, by decide⟩

/-- A block that is enlarged, under an index whose low byte is negative as a `char`. -/
def enlarged : Trace := .read 129 [⟨.alloc, 128, 16⟩, ⟨.realloc, 128, 24⟩]

theorem evalMmValid_naive_enlarged :
    ¬ ∃ d', evalMmValid mm 0 (.boot (fun _ => 0) 8 enlarged) = .ok (true, d') := by
  rw [evalMmValid_naive (d := .boot (fun _ => 0) 8 enlarged) (ready_boot _ _)
    (show Legal 129 true [] enlarged.ops by decide)]
  decide

/-- The allocator keeps the bytes, and the driver reports that it does not. -/
theorem evalMmValid_verdict_enlarged : ∃ d',
    evalMmValid mm 0 (.boot (fun _ => 0) 8 enlarged) = .ok (false, d') ∧ d'.errors = 0 + 1 ∧
    ∃ i op msg, enlarged.ops[i]? = some op ∧ d'.stdout = [] ++ [errorLine 0 i msg] ∧
      (op.type ≠ .free ∧ msg = refusal op.type ∨ Misread op ∧ msg = notPreserved) := by
  obtain ⟨d', hok⟩ : ∃ d', evalMmValid mm 0 (.boot (fun _ => 0) 8 enlarged) = .ok (false, d') :=
    ⟨_, rfl⟩
  exact ⟨d', hok, (evalMmValid_verdict (d := .boot (fun _ => 0) 8 enlarged) (meets 8)
    (ready_boot _ _) (show Legal 129 true [] enlarged.ops by decide) 0).2.2 d' hok⟩

end OsBasics.Malloc.Naive
