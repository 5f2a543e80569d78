/-
  The order in which blocks are freed does not matter.

  Freeing the blocks `ks` of a client leaves the normal form of its blocks with
  those released (`Sim.free_all`). Release and normal form may be exchanged
  (`normalize_map_normalize`), so this depends on the set `ks` only.
-/
import OsBasics.Malloc.Safety

namespace OsBasics.Malloc

open OsBasics.Lib

/-- The pointer of the `k`-th answer. -/
def ptrOf (grants : List Grant) (k : Nat) : Nat := ((grants[k]?).map Grant.ptr).getD 0

/-- Release the block when it is at one of the addresses `ps`. -/
def releaseAt (ps : List Nat) (b : Block) : Block := if b.addr ∈ ps then b.release else b

theorem releaseAt_free (ps : List Nat) {b : Block} (hb : b.alloc = false) :
    releaseAt ps b = b := by
  unfold releaseAt Block.release
  split
  · rw [← hb]
  · rfl

/-- Releasing at `p` and then at `ps` is releasing at `p :: ps`. -/
theorem releaseAt_cons (p : Nat) (ps : List Nat) (b : Block) :
    releaseAt ps (if b.addr = p then b.release else b) = releaseAt (p :: ps) b := by
  by_cases hp : b.addr = p
  · rw [if_pos hp, releaseAt_free ps (Block.release_alloc b)]
    unfold releaseAt
    rw [if_pos (by simp [hp])]
  · rw [if_neg hp]
    unfold releaseAt
    simp [hp]

namespace Sim

variable {h : Nat} {c : Client} {M : Model}

/-- Free blocks held, in any order. -/
theorem free_all (hS : Sim h m₀ c M) {ks : List Nat} (hnd : ks.Nodup)
    (hlive : ∀ k ∈ ks, ∃ g, c.Holds k g) :
    ∃ c' M', c.run (ks.map Op.free) = .ok c' ∧ Sim h m₀ c' M' ∧ M'.brk = M.brk ∧
      M'.layout.blocks =
        normalize (M.layout.blocks.map (releaseAt (ks.map (ptrOf M.grants)))) := by
  induction ks generalizing c M with
  | nil =>
    refine ⟨c, M, rfl, hS, rfl, ?_⟩
    rw [List.map_nil, List.map_congr_left fun b _ => show releaseAt [] b = b from if_neg (by simp),
      List.map_id', normalize_of_noAdjFree hS.rep.valid.sep]
  | cons k ks ih =>
    obtain ⟨hk, hnd⟩ := List.nodup_cons.1 hnd
    obtain ⟨g, hg⟩ := hlive k List.mem_cons_self
    obtain ⟨b, hb, hbp, -⟩ := hS.holds hg
    have hMk : M.grants[k]? = some g := by rw [← hS.grants]; exact hg.1
    obtain ⟨c₁, M₁, hcode, hM, hS₁, -⟩ := hS.free hg
    obtain rfl : (⟨M.layout.release g.ptr, M.brk, M.grants.set k g.drop⟩ : Model) = M₁ := by
      unfold Model.step at hM
      simp only [hMk] at hM
      exact Except.ok.inj hM
    have hlive₁ : ∀ j ∈ ks, ∃ g', c₁.Holds j g' := by
      intro j hj
      obtain ⟨g', hg'⟩ := hlive j (List.mem_cons_of_mem _ hj)
      have hkj : k ≠ j := fun e => hk (e ▸ hj)
      refine ⟨g', ?_, hg'.2⟩
      rw [hS₁.grants, List.getElem?_set_ne hkj, ← hS.grants]
      exact hg'.1
    obtain ⟨c', M', hrun, hS', hbrk, hblocks⟩ := ih hS₁ hnd hlive₁
    refine ⟨c', M', ?_, hS', hbrk, ?_⟩
    · have hcons : c.run ((k :: ks).map Op.free) =
          (c.step (.free k)).bind fun c' => c'.run (ks.map Op.free) := rfl
      rw [hcons, hcode]
      exact hrun
    · have hptrs : ks.map (ptrOf (M.grants.set k g.drop)) = ks.map (ptrOf M.grants) := by
        refine List.map_congr_left fun j hj => ?_
        have hkj : k ≠ j := fun e => hk (e ▸ hj)
        unfold ptrOf
        rw [List.getElem?_set_ne hkj]
      have hptr : ptrOf M.grants k = g.ptr := by
        unfold ptrOf
        rw [hMk]
        rfl
      have hrel := hS.rep.valid.release_blocks hb
      rw [hbp] at hrel
      rw [hblocks, hptrs, hrel, normalize_map_normalize fun b hb => releaseAt_free _ hb, List.map_map,
        List.map_cons, hptr]
      congr 1
      exact List.map_congr_left fun d _ => releaseAt_cons _ _ d

end Sim

/-- From any state reached, two orders of freeing the same blocks give the same blocks,
    the same free list up to order, and the same break. -/
theorem free_order {m : Mem} {h : Nat} {c : Client} (hs : Start m h) (hc : Reached m h c)
    {ks ks' : List Nat} (hnd : ks.Nodup) (hperm : ks.Perm ks')
    (hlive : ∀ k ∈ ks, ∃ g, c.Holds k g) :
    ∃ c₁ c₂, c.run (ks.map Op.free) = .ok c₁ ∧ c.run (ks'.map Op.free) = .ok c₂ ∧
      heapBlocks h c₁.heap = heapBlocks h c₂.heap ∧
      (freeWalk c₁.heap).Perm (freeWalk c₂.heap) ∧ c₁.heap.memBrk = c₂.heap.memBrk := by
  obtain ⟨M, hS⟩ := hc.sim hs
  obtain ⟨c₁, M₁, hrun₁, hS₁, hbrk₁, hblocks₁⟩ := hS.free_all hnd hlive
  obtain ⟨c₂, M₂, hrun₂, hS₂, hbrk₂, hblocks₂⟩ :=
    hS.free_all (hperm.nodup_iff.1 hnd) fun k hk => hlive k (hperm.mem_iff.2 hk)
  have hmem : ∀ b, releaseAt (ks.map (ptrOf M.grants)) b = releaseAt (ks'.map (ptrOf M.grants)) b := by
    intro b
    unfold releaseAt
    rw [if_congr (hperm.map _).mem_iff rfl rfl]
  have hblocks : M₁.layout.blocks = M₂.layout.blocks := by
    rw [hblocks₁, hblocks₂, List.map_congr_left fun b _ => hmem b]
  refine ⟨c₁, c₂, hrun₁, hrun₂, ?_, ?_, ?_⟩
  · rw [hS₁.rep.heapBlocks_eq, hS₂.rep.heapBlocks_eq, hblocks]
  · rw [hS₁.rep.freeWalk_eq, hS₂.rep.freeWalk_eq]
    refine hS₁.rep.valid.perm.trans ?_
    rw [hblocks]
    exact hS₂.rep.valid.perm.symm
  · rw [hS₁.brk, hS₂.brk, hbrk₁, hbrk₂]

theorem free_order_two : ∃ c c₁ c₂ : Client, c.run [.free 0, .free 1] = .ok c₁ ∧
    c.run [.free 1, .free 0] = .ok c₂ ∧ heapBlocks 8 c₁.heap = heapBlocks 8 c₂.heap := by
  obtain ⟨c, hc, hgrants⟩ := two_blocks
  have hlive : ∀ k ∈ [0, 1], ∃ g, c.Holds k g := by
    intro k hk
    obtain rfl | rfl : k = 0 ∨ k = 1 := by simpa using hk
    · exact ⟨⟨56, 5, true⟩, by rw [hgrants]; rfl, rfl⟩
    · exact ⟨⟨88, 5, true⟩, by rw [hgrants]; rfl, rfl⟩
  obtain ⟨c₁, c₂, h₁, h₂, h, -⟩ := free_order
    ⟨by decide, by decide, by decide, by decide⟩ hc (by decide) (.swap 1 0 []) hlive
  exact ⟨c, c₁, c₂, h₁, h₂, h⟩

end OsBasics.Malloc
