/-
  Programs that use the allocator.

  A client calls `mm_malloc` and `mm_free` and writes bytes into the blocks it
  holds. It names a block by the call of `mm_malloc` that returned it. `Model` is
  the same machine over the abstract layout, without memory: it ignores writes.
  `step_sim` is the simulation for one step, with the bytes it keeps, and
  `run_sim` is it for a run.
-/
import OsBasics.Malloc.WellFormed

namespace OsBasics.Malloc

open OsBasics.Lib

/-! ## Clients -/

/-- A step of a client; `k` names the `k`-th answer of `mm_malloc`. -/
inductive Op where
  | malloc (size : Nat)
  | free (k : Nat)
  | write (k off : Nat) (v : UInt8)
  deriving DecidableEq, Repr

/-- An answer of `mm_malloc`: the pointer, the size asked for, and whether the client
    still holds the block. -/
structure Grant where
  ptr : Nat
  size : Nat
  live : Bool
  deriving DecidableEq, Repr

/-- The grant once its block is freed. -/
def Grant.drop (g : Grant) : Grant := { g with live := false }

/-- The heap and the answers so far. -/
structure Client where
  heap : Heap
  grants : List Grant

theorem toOption_eq_some {x : Except Fault α} {a : α} : x.toOption = some a ↔ x = .ok a := by
  cases x <;> simp [Except.toOption]

namespace Client

/-- One call, or one byte written. -/
def step (c : Client) : Op → Except Fault Client
  | .malloc size => do
    let (p, s) ← mmMalloc c.heap size
    pure ⟨s, c.grants ++ [⟨p, size, p ≠ 0⟩]⟩
  | .free k =>
    match c.grants[k]? with
    | some g => pure ⟨mmFree c.heap g.ptr, c.grants.set k g.drop⟩
    | none => pure c
  | .write k off v =>
    match c.grants[k]? with
    | some g => pure { c with heap := { c.heap with mem := putByte c.heap.mem (g.ptr + off) v } }
    | none => pure c

/-- The `k`-th answer is the block `g`, and the client holds it. -/
def Holds (c : Client) (k : Nat) (g : Grant) : Prop := c.grants[k]? = some g ∧ g.live = true

/-- A call with a size in range, a free of a block held, a write inside one. -/
def Allowed (c : Client) : Op → Prop
  | .malloc size => 1 ≤ size ∧ size < 2147483648
  | .free k => ∃ g, c.Holds k g
  | .write k off _ => ∃ g, c.Holds k g ∧ off < g.size

/-- The state after the steps `ops`. -/
def run (c : Client) (ops : List Op) : Except Fault Client := ops.foldlM step c

/-- Every step is allowed in the state it is taken in. -/
def Legal (c : Client) : List Op → Prop
  | [] => True
  | op :: ops => c.Allowed op ∧ ∀ c', c.step op = .ok c' → c'.Legal ops

theorem step_malloc {c : Client} {size p : Nat} {s' : Heap}
    (hcode : mmMalloc c.heap size = .ok (p, s')) (hp : p ≠ 0) :
    c.step (.malloc size) = .ok ⟨s', c.grants ++ [⟨p, size, true⟩]⟩ := by
  unfold Client.step
  dsimp only
  rw [hcode]
  simp only [bind, Except.bind, pure, Except.pure, decide_eq_true hp]

/-- `c'` comes after some allowed steps from `c`. -/
def Leads (c c' : Client) : Prop := ∃ ops, c.Legal ops ∧ c.run ops = .ok c'

instance (c : Client) (k : Nat) (g : Grant) : Decidable (c.Holds k g) := inferInstanceAs (Decidable (_ ∧ _))

instance (c : Client) : ∀ op, Decidable (c.Allowed op)
  | .malloc size => inferInstanceAs (Decidable (1 ≤ size ∧ size < 2147483648))
  | .free k => decidable_of_iff (∃ g ∈ c.grants[k]?, c.Holds k g)
      ⟨fun ⟨g, _, h⟩ => ⟨g, h⟩, fun ⟨g, h⟩ => ⟨g, h.1, h⟩⟩
  | .write k off _ => decidable_of_iff (∃ g ∈ c.grants[k]?, c.Holds k g ∧ off < g.size)
      ⟨fun ⟨g, _, h⟩ => ⟨g, h⟩, fun ⟨g, h⟩ => ⟨g, h.1.1, h⟩⟩

/-- Whether steps are allowed is found by taking them. -/
instance decLegal : ∀ (ops : List Op) (c : Client), Decidable (c.Legal ops)
  | [], _ => .isTrue trivial
  | op :: ops, c =>
    have := fun c' => decLegal ops c'
    decidable_of_iff (c.Allowed op ∧ ∀ c' ∈ (c.step op).toOption, c'.Legal ops)
      (and_congr_right' (forall_congr' fun _ => by rw [Option.mem_def, toOption_eq_some]))

end Client

/-! ## The abstract machine -/

/-- The layout, the break and the answers so far. -/
structure Model where
  layout : Layout
  brk : Nat
  grants : List Grant

namespace Model

/-- The step of a client on the layout, in a heap that may grow up to `top`. -/
def step (top : Nat) (M : Model) : Op → Except Fault Model
  | .malloc size =>
    if M.layout.MallocWraps M.brk size then .error .wrap
    else
      let (p, A) := M.layout.malloc M.brk top size
      .ok ⟨A, M.layout.mallocBrk M.brk top size, M.grants ++ [⟨p, size, p ≠ 0⟩]⟩
  | .free k =>
    match M.grants[k]? with
    | some g => .ok ⟨M.layout.release g.ptr, M.brk, M.grants.set k g.drop⟩
    | none => .ok M
  | .write _ _ _ => .ok M

end Model

/-- Every block held lies in a block in use, with room for the footer; two of them
    are not at one address. -/
structure Backed (used : List Block) (grants : List Grant) : Prop where
  block : ∀ (k : Nat) (g : Grant), grants[k]? = some g → g.live = true →
    ∃ b ∈ used, b.addr = g.ptr ∧ g.size + 8 ≤ b.size
  inj : ∀ (i j : Nat) (g g' : Grant), grants[i]? = some g → grants[j]? = some g' → g.live = true →
    g'.live = true → g.ptr = g'.ptr → i = j

/-- The state of a client and its abstraction. -/
structure Sim (h : Nat) (m₀ : Mem) (c : Client) (M : Model) : Prop where
  rep : Rep h m₀ c.heap M.layout
  sealed : Sealed h m₀
  brk : c.heap.memBrk = M.brk
  grants : c.grants = M.grants
  backed : Backed M.layout.used M.grants

/-! ## Writes -/

/-- A byte written inside the payload of a block in use changes no tag and no link. -/
theorem Rep.write {h : Nat} {s : Heap} {A : Layout} (hR : Rep h m₀ s A) {b : Block} (hb : b ∈ A.used)
    {p : Nat} (h1 : b.addr ≤ p) (h2 : p + 8 < b.addr + b.size) (v : UInt8) :
    Rep h m₀ { s with mem := putByte s.mem p v } A := by
  obtain ⟨hbm, hba⟩ := Layout.mem_used.1 hb
  have hin := hR.core.inHeap b hbm
  have hlo := hin.lo
  have hhi := hin.hi
  have keep : ∀ q, q + 4 ≤ b.addr ∨ b.addr + b.size ≤ q + 8 →
      get (putByte s.mem p v) q = get s.mem q :=
    fun q hq => wordAt_putByte_ne _ _ (by omega)
  have hc := hR.core
  refine ⟨⟨⟨hc.arena.lo, hc.arena.hi, hc.arena.pos, hc.arena.dword, hc.arena.space, hc.arena.brkLo,
    hc.arena.brkHi, hc.arena.brkDword⟩, ?_, hc.still.trans fun q hq => ?_, ?_,
    hc.inHeap, ?_, hc.cells, hc.clear, ?_⟩, hR.valid⟩
  · exact (keep _ (by omega)).trans hc.prologue
  · have := hc.arena.brkHi
    exact putByte_ne _ _ (by omega)
  · exact (keep _ (.inr (by dsimp only; omega))).trans hc.epilogue
  · intro c hcm
    have ht := hc.tagged c hcm
    have hcin := hc.inHeap c hcm
    have hclo := hcin.lo
    have hcmin := hcin.min
    rcases tiles_disjoint hR.valid.tiles hcm hbm with rfl | hd | hd
    · exact ⟨(keep _ (by omega)).trans ht.header, (keep _ (by omega)).trans ht.footer⟩
    · exact ⟨(keep _ (by omega)).trans ht.header, (keep _ (by omega)).trans ht.footer⟩
    · exact ⟨(keep _ (by omega)).trans ht.header, (keep _ (by omega)).trans ht.footer⟩
  · refine hc.ring.congr fun x hx q hq1 hq2 => putByte_ne _ _ ?_
    rcases List.mem_append.1 hx with hx | hx
    · obtain ⟨d, hd, hda, rfl⟩ := hR.valid.mem_free.1 hx
      have hdmin := (hc.inHeap d hd).min
      rcases tiles_disjoint hR.valid.tiles hd hbm with rfl | hd | hd
      · simp [hba] at hda
      · omega
      · omega
    · rw [List.mem_singleton.1 hx] at hq2
      omega

/-! ## Grants -/

namespace Backed

variable {used used' : List Block} {grants : List Grant}

/-- A fresh block is granted. -/
theorem grant (hB : Backed used grants) {p n size : Nat} (hsize : size + 8 ≤ n)
    (hfresh : ∀ c ∈ used, c.addr ≠ p) (hu : ∀ c, c ∈ used' ↔ c ∈ used ∨ c = ⟨p, n, true⟩) :
    Backed used' (grants ++ [⟨p, size, true⟩]) := by
  have hold : ∀ (k : Nat) (g : Grant), (grants ++ [⟨p, size, true⟩])[k]? = some g →
      grants[k]? = some g ∨ k = grants.length ∧ g = ⟨p, size, true⟩ := by
    intro k g hk
    by_cases hlt : k < grants.length
    · rw [List.getElem?_append_left hlt] at hk
      exact .inl hk
    · obtain ⟨hk', -⟩ := List.getElem?_eq_some_iff.1 hk
      rw [List.length_append, List.length_singleton] at hk'
      have : k = grants.length := by omega
      subst this
      simp only [List.getElem?_concat_length, Option.some.injEq] at hk
      exact .inr ⟨rfl, hk.symm⟩
  have hne : ∀ (k : Nat) (g : Grant), grants[k]? = some g → g.live = true → g.ptr ≠ p := by
    intro k g hk hg
    obtain ⟨b, hb, hbp, -⟩ := hB.block k g hk hg
    exact hbp ▸ hfresh b hb
  refine ⟨fun k g hk hg => ?_, fun i j g g' hi hj hg hg' hp => ?_⟩
  · obtain hk | ⟨-, rfl⟩ := hold k g hk
    · obtain ⟨b, hb, h⟩ := hB.block k g hk hg
      exact ⟨b, (hu b).2 (.inl hb), h⟩
    · exact ⟨⟨p, n, true⟩, (hu _).2 (.inr rfl), rfl, hsize⟩
  · obtain hi | ⟨hi, rfl⟩ := hold i g hi <;> obtain hj | ⟨hj, rfl⟩ := hold j g' hj
    · exact hB.inj i j g g' hi hj hg hg' hp
    · exact absurd hp (hne i g hi hg)
    · exact absurd hp.symm (hne j g' hj hg')
    · omega

/-- A failed request grants nothing. -/
theorem refuse (hB : Backed used grants) (size : Nat) :
    Backed used (grants ++ [⟨0, size, false⟩]) := by
  have hold : ∀ (k : Nat) (g : Grant), (grants ++ [⟨0, size, false⟩])[k]? = some g →
      g.live = true → grants[k]? = some g := by
    intro k g hk hg
    by_cases hlt : k < grants.length
    · rwa [List.getElem?_append_left hlt] at hk
    · rw [List.getElem?_append_right (by omega)] at hk
      have := List.mem_of_getElem? hk
      rw [List.mem_singleton] at this
      rw [this] at hg
      exact Bool.noConfusion hg
  exact ⟨fun k g hk hg => hB.block k g (hold k g hk hg) hg, fun i j g g' hi hj hg hg' hp =>
    hB.inj i j g g' (hold i g hi hg) (hold j g' hj hg') hg hg' hp⟩

/-- A block is given back. -/
theorem drop (hB : Backed used grants) {k : Nat} {g : Grant} (hk : grants[k]? = some g)
    (hg : g.live = true) (hu : ∀ c, c ∈ used' ↔ c ∈ used ∧ c.addr ≠ g.ptr) :
    Backed used' (grants.set k g.drop) := by
  have hold : ∀ (j : Nat) (g' : Grant), (grants.set k g.drop)[j]? = some g' → g'.live = true →
      j ≠ k ∧ grants[j]? = some g' := by
    intro j g' hj hg'
    by_cases hjk : k = j
    · subst hjk
      obtain ⟨hlt, -⟩ := List.getElem?_eq_some_iff.1 hk
      rw [List.getElem?_set_self hlt, Option.some.injEq] at hj
      rw [← hj] at hg'
      exact Bool.noConfusion hg'
    · rw [List.getElem?_set_ne hjk] at hj
      exact ⟨Ne.symm hjk, hj⟩
  refine ⟨fun j g' hj hg' => ?_, fun i j g₁ g₂ hi hj h₁ h₂ hp => ?_⟩
  · obtain ⟨hjk, hj⟩ := hold j g' hj hg'
    obtain ⟨b, hb, hbp, hle⟩ := hB.block j g' hj hg'
    exact ⟨b, (hu b).2 ⟨hb, fun h => hjk (hB.inj j k g' g hj hk hg' hg (hbp.symm.trans h))⟩, hbp, hle⟩
  · exact hB.inj i j g₁ g₂ (hold i g₁ hi h₁).2 (hold j g₂ hj h₂).2 h₁ h₂ hp

end Backed

/-! ## The simulation -/

/-- `op` neither frees the block `k` nor writes its byte `off`. -/
def Op.Spares (op : Op) (k off : Nat) : Prop := op ≠ .free k ∧ ∀ v, op ≠ .write k off v

/-- The blocks held in `c`, and their bytes that `op` spares, are held unchanged in `c'`. -/
def Client.Kept (c : Client) (op : Op) (c' : Client) : Prop :=
  ∀ k g off, c.Holds k g → off < g.size → op.Spares k off →
    c'.Holds k g ∧ c'.heap.mem (g.ptr + off) = c.heap.mem (g.ptr + off)

namespace Sim

variable {h : Nat} {c : Client} {M : Model}

/-- The block in use behind a grant. -/
theorem holds (hS : Sim h m₀ c M) {k : Nat} {g : Grant} (hk : c.Holds k g) :
    ∃ b ∈ M.layout.used, b.addr = g.ptr ∧ g.size + 8 ≤ b.size := by
  refine hS.backed.block k g ?_ hk.2
  rw [← hS.grants]
  exact hk.1

theorem held_byte (hS : Sim h m₀ c M) {used : List Block} {m : Mem} (hkeep : Keeps used c.heap.mem m)
    {k off : Nat} {g : Grant} (hk : c.Holds k g) (hoff : off < g.size)
    (hu : ∀ b ∈ M.layout.used, b.addr = g.ptr → b ∈ used) :
    m (g.ptr + off) = c.heap.mem (g.ptr + off) := by
  obtain ⟨b, hb, hbp, hle⟩ := hS.holds hk
  exact hkeep b (hu b hb hbp) _ (by omega) (by omega)

theorem malloc (hS : Sim h m₀ c M) {size : Nat} (hpos : 1 ≤ size) (hsize : size < 2147483648) :
    (c.step (.malloc size) = .error .wrap ∧
      M.step (h + maxHeap) (.malloc size) = .error .wrap) ∨
    ∃ c' M', c.step (.malloc size) = .ok c' ∧ M.step (h + maxHeap) (.malloc size) = .ok M' ∧
      Sim h m₀ c' M' ∧ c.Kept (.malloc size) c' := by
  have hn := newsize_room (show size ≤ maxRequest by unfold maxRequest; omega)
  have hsize : size < addrSpace := by unfold addrSpace; omega
  unfold Client.step Model.step
  dsimp only
  rw [← hS.brk]
  by_cases hw : M.layout.MallocWraps c.heap.memBrk size
  · rw [hS.rep.mmMalloc_wraps hpos hsize hw, if_pos hw]
    exact .inl ⟨rfl, rfl⟩
  · obtain ⟨s', hcode, hR, hbrk, hkeep⟩ := hS.rep.mmMalloc_refines hpos hsize (fun _ => hS.sealed) hw
    obtain ⟨hvalid, hused⟩ := hS.rep.valid.malloc_used (by omega) (h + maxHeap) hsize
    rw [hcode, if_neg hw]
    refine .inr ⟨_, _, rfl, rfl, ⟨hR, hS.sealed, hbrk, by rw [hS.grants], ?_⟩, ?_⟩
    · obtain ⟨hp, hA⟩ | ⟨hp, hfresh, n, hle, -, hu⟩ := hused
      · dsimp only
        rw [hp, hA]
        exact hS.backed.refuse size
      · dsimp only
        rw [decide_eq_true hp]
        exact hS.backed.grant (by omega) hfresh hu
    · intro k g off hk hoff _
      refine ⟨⟨?_, hk.2⟩, hS.held_byte hkeep hk hoff fun b hb _ => hb⟩
      obtain ⟨hlt, -⟩ := List.getElem?_eq_some_iff.1 hk.1
      exact (List.getElem?_append_left hlt).trans hk.1

theorem free (hS : Sim h m₀ c M) {k : Nat} {g : Grant} (hk : c.Holds k g) :
    ∃ c' M', c.step (.free k) = .ok c' ∧ M.step (h + maxHeap) (.free k) = .ok M' ∧
      Sim h m₀ c' M' ∧ c.Kept (.free k) c' := by
  obtain ⟨b, hb, hbp, hle⟩ := hS.holds hk
  obtain ⟨hR, hbrk, hkeep⟩ := hS.rep.mmFree_refines (fun _ => hS.sealed) hb
  have hused := hS.rep.valid.mem_used_release hb
  rw [hbp] at hR hbrk hkeep hused
  have hMk : M.grants[k]? = some g := by rw [← hS.grants]; exact hk.1
  unfold Client.step Model.step
  simp only [hk.1, hMk]
  refine ⟨_, _, rfl, rfl, ⟨hR, hS.sealed, ?_, by rw [hS.grants], hS.backed.drop hMk hk.2 hused⟩, ?_⟩
  · rw [hbrk, hS.brk]
  · intro j g' off hj hoff hsp
    have hjk : k ≠ j := fun e => hsp.1 (by rw [e])
    refine ⟨⟨(List.getElem?_set_ne hjk).trans hj.1, hj.2⟩, hS.held_byte hkeep hj hoff ?_⟩
    intro d hd hdp
    refine (hused d).2 ⟨hd, fun e => hjk ?_⟩
    have hMj : M.grants[j]? = some g' := by rw [← hS.grants]; exact hj.1
    exact hS.backed.inj k j g g' hMk hMj hk.2 hj.2 (e.symm.trans hdp)

theorem write (hS : Sim h m₀ c M) {k off : Nat} {g : Grant} (hk : c.Holds k g) (hoff : off < g.size)
    (v : UInt8) : ∃ c', c.step (.write k off v) = .ok c' ∧ Sim h m₀ c' M ∧
      c.Kept (.write k off v) c' ∧ c'.heap.mem (g.ptr + off) = v := by
  obtain ⟨b, hb, hbp, hle⟩ := hS.holds hk
  have hR := hS.rep.write hb (p := g.ptr + off) (by omega) (by omega) v
  unfold Client.step
  simp only [hk.1]
  refine ⟨_, rfl, ⟨hR, hS.sealed, hS.brk, hS.grants, hS.backed⟩, ?_, putByte_same _ _ _⟩
  intro j g' off' hj hoff' hsp
  refine ⟨hj, putByte_ne _ _ ?_⟩
  obtain ⟨b', hb', hbp', hle'⟩ := hS.holds hj
  have hbm := (Layout.mem_used.1 hb).1
  have hbm' := (Layout.mem_used.1 hb').1
  by_cases hjk : j = k
  · subst hjk
    have hg : g' = g := Option.some.inj (hj.1.symm.trans hk.1)
    subst hg
    have : off' ≠ off := fun e => hsp.2 v (by rw [e])
    omega
  · have hne : b' ≠ b := by
      intro e
      refine hjk (hS.backed.inj j k g' g ?_ ?_ hj.2 hk.2 (by rw [← hbp', e, hbp]))
      · rw [← hS.grants]; exact hj.1
      · rw [← hS.grants]; exact hk.1
    have := (tiles_disjoint hS.rep.valid.tiles hbm' hbm).resolve_left hne
    omega

/-- One step of the client is one step of the model, and keeps what it spares. -/
theorem step (hS : Sim h m₀ c M) {op : Op} (ha : c.Allowed op) :
    (c.step op = .error .wrap ∧ M.step (h + maxHeap) op = .error .wrap) ∨
    ∃ c' M', c.step op = .ok c' ∧ M.step (h + maxHeap) op = .ok M' ∧ Sim h m₀ c' M' ∧
      c.Kept op c' := by
  cases op with
  | malloc size => exact hS.malloc ha.1 ha.2
  | free k =>
    obtain ⟨g, hk⟩ := ha
    exact .inr (hS.free hk)
  | write k off v =>
    obtain ⟨g, hk, hoff⟩ := ha
    obtain ⟨c', hcode, hS', hkept, -⟩ := hS.write hk hoff v
    exact .inr ⟨c', M, hcode, rfl, hS', hkept⟩

/-- A run of the client ends in a simulated state, or at a heap that cannot grow
    within the address space. -/
theorem run (hS : Sim h m₀ c M) {ops : List Op} (hl : c.Legal ops) :
    c.run ops = .error .wrap ∨ ∃ c' M', c.run ops = .ok c' ∧ Sim h m₀ c' M' := by
  induction ops generalizing c M with
  | nil => exact .inr ⟨c, M, rfl, hS⟩
  | cons op ops ih =>
    have hrun : c.run (op :: ops) = (c.step op).bind fun c' => c'.run ops := rfl
    rw [hrun]
    obtain ⟨he, -⟩ | ⟨c', M', hcode, -, hS', -⟩ := hS.step hl.1
    · exact .inl (by rw [he]; rfl)
    · rw [hcode]
      exact ih hS' (hl.2 c' hcode)

end Sim

/-- `mm_init` starts a client without blocks. -/
theorem sim_init {h : Nat} {s : Heap} (h0 : s.memStartBrk = h) (h1 : s.memBrk = h)
    (h2 : s.memMaxAddr = h + maxHeap) (hpos : 0 < h) (hdw : h % 8 = 0)
    (hspace : h + maxHeap < addrSpace) (hseal : Sealed h (Rep.prologueMem s.mem h)) :
    ∃ s', mmInit s = .ok (0, s') ∧
      Sim h (Rep.prologueMem s.mem h) ⟨s', []⟩ ⟨Layout.initial h, h + 80, []⟩ := by
  obtain ⟨s', hcode, hR, hbrk⟩ := Rep.mmInit_refines h0 h1 h2 hpos hdw hspace
    (hseal _ (Rep.initMem_still _ _))
  exact ⟨s', hcode, hR, hseal, hbrk, rfl, by simp, by simp⟩

end OsBasics.Malloc
