/-
  The answers of the allocator do not depend on what clients write.

  `Client.trace` is what a run shows after each call: the pointer returned, the
  break and `start`. It is the trace of the abstract machine on the calls alone
  (`Sim.trace_eq`), so runs with the same calls have the same trace whatever the
  clients write and whatever the memory held before (`run_blind`). A run after
  `mem_reset_brk` and `mm_init` is one of them, since the gap word stays zero.
-/
import OsBasics.Malloc.Safety

namespace OsBasics.Malloc

open OsBasics.Lib

/-- What is seen after a call: the answer of `mm_malloc`, the break, and `start`. -/
structure Obs where
  ptr : Option Nat
  brk : Nat
  start : Nat
  deriving DecidableEq, Repr

/-- The step is a call of the allocator. -/
def Op.isCall : Op → Bool
  | .write _ _ _ => false
  | _ => true

/-- The pointer of the last answer, after a call of `mm_malloc`. -/
def answer (grants : List Grant) : Op → Option Nat
  | .malloc _ => grants.getLast?.map Grant.ptr
  | _ => none

/-- What a client sees after `op`. -/
def Client.obs (c : Client) (op : Op) : Obs := ⟨answer c.grants op, c.heap.memBrk, c.heap.start⟩

/-- What a run shows, call by call, up to its end or to the call that stops it. -/
def Client.trace (c : Client) : List Op → List (Except Fault Obs)
  | [] => []
  | op :: ops =>
    match c.step op with
    | .error f => [.error f]
    | .ok c' => if op.isCall then .ok (c'.obs op) :: c'.trace ops else c'.trace ops

/-- What the abstract machine at base `h` shows. -/
def Model.obs (h : Nat) (M : Model) (op : Op) : Obs :=
  ⟨answer M.grants op, M.brk, M.layout.free.headD (h + 8)⟩

/-- The trace of the abstract machine at base `h`. -/
def Model.trace (h : Nat) (M : Model) : List Op → List (Except Fault Obs)
  | [] => []
  | op :: ops =>
    match M.step (h + maxHeap) op with
    | .error f => [.error f]
    | .ok M' => .ok (M'.obs h op) :: M'.trace h ops

namespace Sim

variable {h : Nat} {c : Client} {M : Model}

theorem obs_eq (hS : Sim h m₀ c M) (op : Op) : c.obs op = M.obs h op := by
  unfold Client.obs Model.obs
  rw [hS.grants, hS.brk, hS.rep.core.ring.first]

/-- A run shows what the abstract machine shows on its calls. -/
theorem trace_eq (hS : Sim h m₀ c M) {ops : List Op} (hl : c.Legal ops) :
    c.trace ops = M.trace h (ops.filter Op.isCall) := by
  induction ops generalizing c M with
  | nil => rfl
  | cons op ops ih =>
    by_cases hcall : op.isCall = true
    · rw [List.filter_cons_of_pos hcall]
      unfold Client.trace Model.trace
      obtain ⟨he, hM⟩ | ⟨c', M', hcode, hM, hS', -⟩ := hS.step hl.1
      · rw [he, hM]
      · rw [hcode, hM]
        dsimp only
        rw [if_pos hcall, hS'.obs_eq op, ih hS' (hl.2 c' hcode)]
    · rw [List.filter_cons_of_neg hcall]
      unfold Client.trace
      cases op with
      | malloc size => exact absurd rfl hcall
      | free k => exact absurd rfl hcall
      | write k off v =>
        obtain ⟨g, hk, hoff⟩ := hl.1
        obtain ⟨c', hcode, hS', -, -⟩ := hS.write hk hoff v
        rw [hcode]
        exact ih hS' (hl.2 c' hcode)

/-- The gap word is never written. -/
theorem gap (hS : Sim h (Rep.prologueMem m h) c M) : get c.heap.mem (h + 40) = get m (h + 40) := by
  rw [← Rep.prologueMem_get m (show h + 32 ≤ h + 40 by omega)]
  exact get_congr fun q h1 h2 => hS.rep.core.still q (by omega)

/-- Reset the break and start again: the gap word is still zero. -/
theorem reset (hS : Sim h (Rep.prologueMem m h) c M) (hs : Start m h) :
    ∃ s, mmInit (memResetBrk c.heap) = .ok (0, s) ∧
      Sim h (Rep.prologueMem c.heap.mem h) ⟨s, []⟩ ⟨Layout.initial h, h + 80, []⟩ := by
  have ha := hS.rep.core.arena
  have hs' : Start c.heap.mem h := ⟨hs.pos, hs.dword, hs.space, hS.gap.trans hs.gap⟩
  exact sim_init ha.lo ha.lo ha.hi ha.pos ha.dword ha.space hs'.sealed

end Sim

/-- Two runs with the same calls show the same, over any two memories with a zero gap
    word and whatever the clients write; a replay after a reset shows it again. -/
theorem run_blind {m₁ m₂ : Mem} {h : Nat} (h₁ : Start m₁ h) (h₂ : Start m₂ h) :
    ∃ s₁ s₂, mmInit (memInit m₁ h) = .ok (0, s₁) ∧ mmInit (memInit m₂ h) = .ok (0, s₂) ∧
      s₁.memBrk = s₂.memBrk ∧ s₁.start = s₂.start ∧
      (∀ ops₁ ops₂, ops₁.filter Op.isCall = ops₂.filter Op.isCall → Client.Legal ⟨s₁, []⟩ ops₁ →
        Client.Legal ⟨s₂, []⟩ ops₂ → Client.trace ⟨s₁, []⟩ ops₁ = Client.trace ⟨s₂, []⟩ ops₂) ∧
      ∀ ops c, Client.Legal ⟨s₁, []⟩ ops → Client.run ⟨s₁, []⟩ ops = .ok c →
        get c.heap.mem (h + 40) = 0 ∧ ∃ s₃, mmInit (memResetBrk c.heap) = .ok (0, s₃) ∧
          ∀ ops₃, ops₃.filter Op.isCall = ops.filter Op.isCall → Client.Legal ⟨s₃, []⟩ ops₃ →
            Client.trace ⟨s₃, []⟩ ops₃ = Client.trace ⟨s₁, []⟩ ops := by
  obtain ⟨s₁, hinit₁, hS₁⟩ := h₁.sim
  obtain ⟨s₂, hinit₂, hS₂⟩ := h₂.sim
  refine ⟨s₁, s₂, hinit₁, hinit₂, hS₁.brk.trans hS₂.brk.symm, ?_, ?_, ?_⟩
  · rw [show s₁.start = _ from hS₁.rep.core.ring.first,
      show s₂.start = _ from hS₂.rep.core.ring.first]
  · intro ops₁ ops₂ hcalls hl₁ hl₂
    rw [hS₁.trace_eq hl₁, hS₂.trace_eq hl₂, hcalls]
  · intro ops c hl hrun
    obtain ⟨M, hS⟩ := Reached.sim h₁ ⟨s₁, ops, hinit₁, hl, hrun⟩
    obtain ⟨s₃, hinit₃, hS₃⟩ := hS.reset h₁
    refine ⟨hS.gap.trans h₁.gap, s₃, hinit₃, fun ops₃ hcalls hl₃ => ?_⟩
    rw [hS₃.trace_eq hl₃, hS₁.trace_eq hl, hcalls]

/-- Memory that held zeroes and memory that held ones outside the gap word; the first
    client writes a byte, the second and the replay do not. -/
theorem run_blind_ones : ∃ s₁ s₂ c s₃, mmInit (memInit (fun _ => 0) 8) = .ok (0, s₁) ∧
    mmInit (memInit (fun q => if 48 ≤ q ∧ q < 52 then 0 else 255) 8) = .ok (0, s₂) ∧
    s₁.start = s₂.start ∧
    Client.trace ⟨s₁, []⟩ [.malloc 5, .write 0 3 7, .malloc 9] =
      Client.trace ⟨s₂, []⟩ [.malloc 5, .malloc 9] ∧
    Client.trace ⟨s₂, []⟩ [.malloc 5, .malloc 9] = [.ok ⟨some 56, 88, 16⟩, .ok ⟨some 88, 4184, 112⟩] ∧
    Client.run ⟨s₁, []⟩ [.malloc 5, .write 0 3 7, .malloc 9] = .ok c ∧
    mmInit (memResetBrk c.heap) = .ok (0, s₃) ∧
    Client.trace ⟨s₃, []⟩ [.malloc 5, .malloc 9] =
      Client.trace ⟨s₁, []⟩ [.malloc 5, .write 0 3 7, .malloc 9] := by
  have hlegal : ∀ s, Client.Legal ⟨s, []⟩ [.malloc 5, .malloc 9] := fun s =>
    ⟨⟨by decide, by decide⟩, fun _ _ => ⟨⟨by decide, by decide⟩, fun _ _ => trivial⟩⟩
  obtain ⟨s₁, s₂, h₁, h₂, -, hstart, htrace, hreplay⟩ := run_blind
    (show Start (fun _ => 0) 8 from ⟨by decide, by decide, by decide, by decide⟩)
    (show Start (fun q => if 48 ≤ q ∧ q < 52 then 0 else 255) 8 from
      ⟨by decide, by decide, by decide, by decide⟩)
  have heval₁ : ((mmInit (memInit (fun _ => 0) 8)).toOption.any fun out =>
      Client.Legal ⟨out.2, []⟩ [.malloc 5, .write 0 3 7, .malloc 9] ∧
        (Client.run ⟨out.2, []⟩ [.malloc 5, .write 0 3 7, .malloc 9]).toOption.isSome) = true := by
    decide +kernel
  have heval₂ : ((mmInit (memInit (fun q => if 48 ≤ q ∧ q < 52 then 0 else 255) 8)).toOption.any
      fun out => Client.trace ⟨out.2, []⟩ [.malloc 5, .malloc 9] =
        [.ok ⟨some 56, 88, 16⟩, .ok ⟨some 88, 4184, 112⟩]) = true := by decide +kernel
  rw [h₁] at heval₁
  rw [h₂] at heval₂
  obtain ⟨hl, hsome⟩ := of_decide_eq_true heval₁
  obtain ⟨c, hrun⟩ := Option.isSome_iff_exists.1 hsome
  rw [toOption_eq_some] at hrun
  obtain ⟨-, s₃, h₃, hsame⟩ := hreplay _ c hl hrun
  exact ⟨s₁, s₂, c, s₃, h₁, h₂, hstart, htrace _ _ rfl hl (hlegal s₂), of_decide_eq_true heval₂,
    hrun, h₃, hsame _ rfl (hlegal s₃)⟩

end OsBasics.Malloc
