/-
  What a program that uses the allocator can rely on.

  `heap_wellFormed`: the heap invariant holds after every call of every run, and no
  call runs forever. `blocks_safe`: what `mm_malloc` returns is aligned, lies in the
  heap and overlaps no block the program holds, and a byte written stays until its
  block is freed or the byte is written again.
-/
import OsBasics.Malloc.Client

namespace OsBasics.Malloc

open OsBasics.Lib

/-- The heap may be started at `h`: a block of `MAX_HEAP` bytes from libc, at a
    multiple of 8, whose word at offset 40 is zero. -/
structure Start (m : Mem) (h : Nat) : Prop where
  pos : 0 < h
  dword : h % 8 = 0
  space : h + maxHeap < addrSpace
  gap : get m (h + 40) = 0

/-- A zero gap word seals the heap. -/
theorem Start.sealed {m : Mem} {h : Nat} (hs : Start m h) : Sealed h (Rep.prologueMem m h) := by
  refine Rep.sealed_of_size ?_
  unfold getSize
  rw [Rep.prologueMem_get _ (by omega), hs.gap]
  rfl

theorem Start.sim {m : Mem} {h : Nat} (hs : Start m h) :
    ∃ s₀, mmInit (memInit m h) = .ok (0, s₀) ∧
      Sim h (Rep.prologueMem m h) ⟨s₀, []⟩ ⟨Layout.initial h, h + 80, []⟩ :=
  sim_init rfl rfl rfl hs.pos hs.dword hs.space hs.sealed

/-- `c` is the state after some allowed steps from `mm_init` on. -/
def Reached (m : Mem) (h : Nat) (c : Client) : Prop :=
  ∃ s₀ ops, mmInit (memInit m h) = .ok (0, s₀) ∧ Client.Legal ⟨s₀, []⟩ ops ∧
    Client.run ⟨s₀, []⟩ ops = .ok c

theorem Reached.sim {m : Mem} {h : Nat} {c : Client} (hs : Start m h) (hc : Reached m h c) :
    ∃ M, Sim h (Rep.prologueMem m h) c M := by
  obtain ⟨s₀, ops, hinit, hl, hrun⟩ := hc
  obtain ⟨s₁, hinit₁, hS⟩ := hs.sim
  obtain rfl : s₁ = s₀ := by
    rw [hinit, Except.ok.injEq, Prod.mk.injEq] at hinit₁
    exact hinit₁.2.symm
  obtain he | ⟨c', M', hcode, hS'⟩ := hS.run hl
  · rw [hrun] at he
    cases he
  · rw [hrun, Except.ok.injEq] at hcode
    exact ⟨M', hcode ▸ hS'⟩

/-- A client that takes the steps `ops` from `mm_init` on and then passes a test. -/
theorem Reached.of_eval {m : Mem} {h : Nat} (ops : List Op) {P : Client → Bool}
    (heval : ((mmInit (memInit m h)).toOption.any fun out => out.1 = 0 ∧
      Client.Legal ⟨out.2, []⟩ ops ∧ (Client.run ⟨out.2, []⟩ ops).toOption.any P) = true) :
    ∃ c, Reached m h c ∧ P c = true := by
  obtain ⟨⟨_, s₀⟩, hinit, hout⟩ := (Option.any_eq_true _ _).1 heval
  obtain ⟨rfl, hl, hany⟩ := of_decide_eq_true hout
  obtain ⟨c, hrun, hP⟩ := (Option.any_eq_true _ _).1 hany
  exact ⟨c, ⟨s₀, ops, toOption_eq_some.1 hinit, hl, toOption_eq_some.1 hrun⟩, hP⟩

/-- The heap is well formed after every call of every run. The only way a run can
    stop is a pointer sum past the end of the address space. -/
theorem heap_wellFormed {m : Mem} {h : Nat} (hs : Start m h) :
    ∃ s₀, mmInit (memInit m h) = .ok (0, s₀) ∧ ∀ ops, Client.Legal ⟨s₀, []⟩ ops →
      Client.run ⟨s₀, []⟩ ops = .error .wrap ∨
        ∃ c, Client.run ⟨s₀, []⟩ ops = .ok c ∧ WellFormed h c.heap := by
  obtain ⟨s₀, hinit, hS⟩ := hs.sim
  refine ⟨s₀, hinit, fun ops hl => ?_⟩
  obtain he | ⟨c, M, hcode, hS'⟩ := hS.run hl
  · exact .inl he
  · exact .inr ⟨c, hcode, hS'.rep.wellFormed⟩

theorem heap_wellFormed_zero : ∃ s₀, mmInit (memInit (fun _ => 0) 8) = .ok (0, s₀) ∧
    ∀ ops, Client.Legal ⟨s₀, []⟩ ops → Client.run ⟨s₀, []⟩ ops = .error .wrap ∨
      ∃ c, Client.run ⟨s₀, []⟩ ops = .ok c ∧ WellFormed 8 c.heap :=
  heap_wellFormed ⟨by decide, by decide, by decide, by decide⟩

/-! ## Blocks -/

namespace Sim

variable {h : Nat} {c : Client} {M : Model}

/-- Blocks start at multiples of 8. -/
theorem addr_dword (hS : Sim h m₀ c M) {b : Block} (hb : b ∈ M.layout.blocks) : b.addr % 8 = 0 := by
  have ht := hS.rep.valid.tiles
  have hdw := hS.rep.core.arena.dword
  obtain ⟨l, r, hbs⟩ := List.append_of_mem hb
  rw [hbs, tiles_split] at ht
  have hle := tiles_le ht.1
  have hmod := tiles_dvd ht.1 fun d hd => by
    exact (hS.rep.valid.sized d (by rw [hbs]; exact List.mem_append_left _ hd)).2
  omega

/-- What `mm_malloc` returned is a block of its own. -/
theorem malloc_block (hS : Sim h m₀ c M) {size p : Nat} {s' : Heap} (hpos : 1 ≤ size)
    (hsize : size < 2147483648) (hcode : mmMalloc c.heap size = .ok (p, s')) (hp : p ≠ 0) :
    p % 8 = 0 ∧ memHeapLo s' ≤ p ∧ p + size - 1 ≤ memHeapHi s' ∧
      ∀ k g, c.Holds k g → p + size ≤ g.ptr ∨ g.ptr + g.size ≤ p := by
  have hstep := Client.step_malloc hcode hp
  obtain ⟨he, -⟩ | ⟨c', M', hc', -, hS', hkept⟩ := hS.malloc hpos hsize
  · rw [hstep] at he
    cases he
  · obtain rfl : _ = c' := Except.ok.inj (hstep.symm.trans hc')
    -- the new grant and the block behind it
    have hnew : Client.Holds ⟨s', c.grants ++ [⟨p, size, true⟩]⟩ c.grants.length ⟨p, size, true⟩ :=
      ⟨List.getElem?_concat_length, rfl⟩
    obtain ⟨b, hb, hbp, hle⟩ := hS'.holds hnew
    dsimp only at hbp hle
    have hbm := (Layout.mem_used.1 hb).1
    have hin := tiles_mem hS'.rep.valid.tiles hbm
    have hdw := hS'.addr_dword hbm
    have hlo := hS'.rep.core.arena.lo
    unfold memHeapLo memHeapHi
    dsimp only at hin hlo
    refine ⟨by rw [← hbp]; exact hdw, by omega, by omega, fun k g hk => ?_⟩
    have hlt : k < c.grants.length := (List.getElem?_eq_some_iff.1 hk.1).1
    have hk' : Client.Holds ⟨s', c.grants ++ [⟨p, size, true⟩]⟩ k g :=
      ⟨(List.getElem?_append_left hlt).trans hk.1, hk.2⟩
    obtain ⟨d, hd, hdp, hdle⟩ := hS'.holds hk'
    have hne : d ≠ b := by
      intro e
      have hinj := hS'.backed.inj k c.grants.length g ⟨p, size, true⟩
        (hS'.grants ▸ hk'.1) (hS'.grants ▸ hnew.1) hk'.2 hnew.2 (by rw [← hdp, e, hbp])
      omega
    have := (tiles_disjoint hS'.rep.valid.tiles (Layout.mem_used.1 hd).1 hbm).resolve_left hne
    omega

/-- A byte of a block held is kept by every run that spares it. -/
theorem run_kept (hS : Sim h m₀ c M) {k off : Nat} {g : Grant} (hk : c.Holds k g) (hoff : off < g.size)
    {ops : List Op} (hl : c.Legal ops) (hsp : ∀ op ∈ ops, op.Spares k off) {c' : Client}
    (hrun : c.run ops = .ok c') : c'.heap.mem (g.ptr + off) = c.heap.mem (g.ptr + off) := by
  induction ops generalizing c M with
  | nil =>
    obtain rfl : c = c' := Except.ok.inj hrun
    rfl
  | cons op ops ih =>
    have hcons : c.run (op :: ops) = (c.step op).bind fun c' => c'.run ops := rfl
    rw [hcons] at hrun
    obtain ⟨he, -⟩ | ⟨c₁, M₁, hcode, -, hS₁, hkept⟩ := hS.step hl.1
    · rw [he] at hrun
      cases hrun
    · rw [hcode] at hrun
      obtain ⟨hk₁, hbyte⟩ := hkept k g off hk hoff (hsp op List.mem_cons_self)
      rw [ih hS₁ hk₁ (hl.2 c₁ hcode) (fun o ho => hsp o (List.mem_cons_of_mem _ ho)) hrun, hbyte]

end Sim

/-- Blocks are aligned, inside the heap and disjoint from those held, and a byte
    written into a block stays until the block is freed or the byte written again. -/
theorem blocks_safe {m : Mem} {h : Nat} {c : Client} (hs : Start m h) (hc : Reached m h c) :
    (∀ size p s', 1 ≤ size → size < 2147483648 → mmMalloc c.heap size = .ok (p, s') → p ≠ 0 →
      p % 8 = 0 ∧ memHeapLo s' ≤ p ∧ p + size - 1 ≤ memHeapHi s' ∧
        ∀ k g, c.Holds k g → p + size ≤ g.ptr ∨ g.ptr + g.size ≤ p) ∧
    ∀ k g off v c₁ ops c₂, c.Holds k g → off < g.size → c.step (.write k off v) = .ok c₁ →
      c₁.Legal ops → (∀ op ∈ ops, op.Spares k off) → c₁.run ops = .ok c₂ →
        c₂.heap.mem (g.ptr + off) = v := by
  obtain ⟨M, hS⟩ := hc.sim hs
  refine ⟨fun size p s' hpos hsize hcode hp => hS.malloc_block hpos hsize hcode hp, ?_⟩
  intro k g off v c₁ ops c₂ hk hoff hw hl hsp hrun
  obtain ⟨c', hcode, hS', -, hv⟩ := hS.write hk hoff v
  obtain rfl : c' = c₁ := Except.ok.inj (hcode.symm.trans hw)
  have hk' : c'.Holds k g := by
    rw [Client.Holds, hS'.grants, ← hS.grants]
    exact hk
  rw [hS'.run_kept hk' hoff hl hsp hrun, hv]

/-- A client with two blocks, in a heap of zeroes at 8. -/
theorem two_blocks : ∃ c, Reached (fun _ => 0) 8 c ∧ c.grants = [⟨56, 5, true⟩, ⟨88, 5, true⟩] := by
  obtain ⟨c, hc, hgrants⟩ := Reached.of_eval (m := fun _ => 0) (h := 8) [.malloc 5, .malloc 5]
    (P := fun c => c.grants = [⟨56, 5, true⟩, ⟨88, 5, true⟩]) (by decide +kernel)
  exact ⟨c, hc, of_decide_eq_true hgrants⟩

/-- A third block starts at 112, behind the first two, and a byte written into the
    first survives that the second is freed and another block handed out. -/
theorem blocks_safe_byte : ∃ c c₁ c₂ s', Reached (fun _ => 0) 8 c ∧ c.Holds 0 ⟨56, 5, true⟩ ∧
    mmMalloc c.heap 9 = .ok (112, s') ∧ 120 ≤ memHeapHi s' ∧
    c.step (.write 0 3 7) = .ok c₁ ∧ c₁.run [.free 1, .malloc 9] = .ok c₂ ∧
    c₂.grants = [⟨56, 5, true⟩, ⟨88, 5, false⟩, ⟨88, 9, true⟩] ∧ c₂.heap.mem 59 = 7 := by
  obtain ⟨c, hc, heval⟩ := Reached.of_eval (m := fun _ => 0) (h := 8) [.malloc 5, .malloc 5]
    (P := fun c => c.Holds 0 ⟨56, 5, true⟩ ∧
      ((mmMalloc c.heap 9).toOption.any fun out => out.1 = 112) ∧
      ((c.step (.write 0 3 7)).toOption.any fun c₁ => c₁.Legal [.free 1, .malloc 9] ∧
        (c₁.run [.free 1, .malloc 9]).toOption.any fun c₂ =>
          c₂.grants = [⟨56, 5, true⟩, ⟨88, 5, false⟩, ⟨88, 9, true⟩])) (by decide +kernel)
  obtain ⟨hk, hmalloc, hwrite⟩ := of_decide_eq_true heval
  obtain ⟨⟨p, s'⟩, hcode, hp⟩ := (Option.any_eq_true _ _).1 hmalloc
  obtain rfl : p = 112 := of_decide_eq_true hp
  rw [toOption_eq_some] at hcode
  obtain ⟨c₁, hw, hrest⟩ := (Option.any_eq_true _ _).1 hwrite
  obtain ⟨hl, hrun⟩ := of_decide_eq_true hrest
  obtain ⟨c₂, hrun, hgrants⟩ := (Option.any_eq_true _ _).1 hrun
  rw [toOption_eq_some] at hw hrun
  obtain ⟨hblock, hbyte⟩ := blocks_safe ⟨by decide, by decide, by decide, by decide⟩ hc
  refine ⟨c, c₁, c₂, s', hc, hk, hcode, (hblock 9 112 s' (by decide) (by decide) hcode
    (by decide)).2.2.1, hw, hrun, of_decide_eq_true hgrants, ?_⟩
  refine hbyte 0 ⟨56, 5, true⟩ 3 7 c₁ _ c₂ hk (by decide) hw hl (fun op hop => ?_) hrun
  obtain rfl | rfl : op = .free 1 ∨ op = .malloc 9 := by simpa using hop
  · exact ⟨by decide, fun v => Op.noConfusion⟩
  · exact ⟨by decide, fun v => Op.noConfusion⟩

end OsBasics.Malloc
