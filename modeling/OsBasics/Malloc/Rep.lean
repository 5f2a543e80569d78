/-
  The heap in memory.

  `Core h m₀ s tg fl` is what holds of the heap at base `h` at every moment of a
  call: the fixed words (prologue header and epilogue), header and footer of the
  blocks `tg`, and the free list `fl`; outside the heap the memory is still `m₀`.
  When `m₀` is `Sealed`, no block is found before the first one. It does not ask
  that the blocks tile the heap or that the free list holds every free block;
  these fail in the middle of a call. The three ways the code writes keep it:
  tagging a block (`Core.retag`), `Core.insert` and `Core.remove`.

  `Within h S m m'` is the frame: `m'` differs from `m` only in NEXT_BLKP of the
  prologue and inside the blocks `S` with their headers.
-/
import OsBasics.Malloc.Links
import OsBasics.Malloc.Layout

namespace OsBasics.Malloc

open OsBasics.Lib

/-- Where the heap lies: base, break and limit. -/
structure Arena (h : Nat) (s : Heap) : Prop where
  lo : s.memStartBrk = h
  hi : s.memMaxAddr = h + maxHeap
  pos : 0 < h
  dword : h % 8 = 0
  space : h + maxHeap < addrSpace
  brkLo : h + 48 ≤ s.memBrk
  brkHi : s.memBrk ≤ h + maxHeap
  brkDword : s.memBrk % 8 = 0

/-- The block lies between the first block and the break. -/
structure InHeap (h brk : Nat) (b : Block) : Prop where
  lo : h + 48 ≤ b.addr
  hi : b.addr + b.size ≤ brk
  min : 24 ≤ b.size
  dword : b.size % 8 = 0

/-- The cell at `x` holds no byte of the tags of `b`. -/
def Clear (b : Block) (x : Nat) : Prop :=
  x + 12 ≤ b.addr - 4 ∨ b.addr ≤ x ∧ x + 12 ≤ b.addr + b.size - 8 ∨ b.addr + b.size ≤ x

/-- `left_alloc` of `coalesce`. -/
def leftAlloc (m : Mem) (bp : Nat) : Prop :=
  getAlloc m (ftrp m (leftBlkp m bp)) ≠ 0 ∨ leftBlkp m bp = bp

/-- `right_alloc` of `coalesce`. -/
def rightAlloc (m : Mem) (bp : Nat) : Prop := getAlloc m (hdrp (rightBlkp m bp)) ≠ 0

/-- `m'` is `m` outside NEXT_BLKP of the prologue and the heap from the first header on. -/
def Still (h : Nat) (m m' : Mem) : Prop :=
  ∀ q, q < h + 8 ∨ h + 12 ≤ q ∧ q < h + 44 ∨ h + maxHeap ≤ q → m' q = m q

/-- The words outside the heap close it on the left: `coalesce` takes the first block
    to have no free neighbour before it, whatever the heap holds. -/
def Sealed (h : Nat) (m : Mem) : Prop := ∀ m', Still h m m' → leftAlloc m' (h + 48)

theorem Still.refl (h : Nat) (m : Mem) : Still h m m := fun _ _ => rfl

theorem Still.trans {h : Nat} {m m' m'' : Mem} (h1 : Still h m m') (h2 : Still h m' m'') :
    Still h m m'' := fun q hq => (h2 q hq).trans (h1 q hq)

/-- The words of the heap: fixed words, the tags of `tg`, the free list `fl`. -/
structure Core (h : Nat) (m₀ : Mem) (s : Heap) (tg : List Block) (fl : List Nat) : Prop where
  arena : Arena h s
  prologue : get s.mem (h + 4) = 25
  still : Still h m₀ s.mem
  epilogue : get s.mem (s.memBrk - 4) = 1
  inHeap : ∀ b ∈ tg, InHeap h s.memBrk b
  tagged : ∀ b ∈ tg, Tagged s.mem b
  cells : ∀ x ∈ fl, h + 48 ≤ x ∧ x + 16 ≤ s.memBrk
  clear : ∀ b ∈ tg, ∀ x ∈ fl, Clear b x
  ring : FreeRing s.mem s.start (h + 8) fl

/-- `m'` is `m` outside NEXT_BLKP of the prologue and the blocks `S` with their headers. -/
def Within (h : Nat) (S : List Block) (m m' : Mem) : Prop :=
  ∀ q, (q < h + 8 ∨ h + 12 ≤ q) →
    (∀ b ∈ S, q < b.addr - 4 ∨ b.addr + b.size - 4 ≤ q) → m' q = m q

theorem Within.trans {h : Nat} {S : List Block} {m m' m'' : Mem} (h1 : Within h S m m')
    (h2 : Within h S m' m'') : Within h S m m'' := fun q hp hq => (h2 q hp hq).trans (h1 q hp hq)

theorem InHeap.fits {h brk : Nat} {b : Block} (hb : InHeap h brk b) (hbrk : brk < addrSpace) :
    Fits b where
  low := by have := hb.lo; omega
  high := by have := hb.hi; omega
  min := hb.min
  dword := hb.dword

theorem InHeap.release {h brk : Nat} {b : Block} (hb : InHeap h brk b) : InHeap h brk b.release where
  lo := hb.lo
  hi := by simpa using hb.hi
  min := hb.min
  dword := hb.dword

theorem Arena.brk_lt {h : Nat} {s : Heap} (ha : Arena h s) : s.memBrk < addrSpace := by
  have := ha.space
  have := ha.brkHi
  omega

/-- Write header and footer of `c`. -/
def setTags (s : Heap) (c : Block) : Heap :=
  put (put s (c.addr - 4) (tag c)) (c.addr + c.size - 8) (tag c)

@[simp] theorem setTags_mem (s : Heap) (c : Block) : (setTags s c).mem =
    putWord (putWord s.mem (c.addr - 4) (tag c)) (c.addr + c.size - 8) (tag c) := rfl
@[simp] theorem setTags_memBrk (s : Heap) (c : Block) : (setTags s c).memBrk = s.memBrk := rfl
@[simp] theorem setTags_start (s : Heap) (c : Block) : (setTags s c).start = s.start := rfl

/-- The code writes the header first and finds the footer through it. -/
theorem setTags_eq (s : Heap) {c : Block} (hf : Fits c) {v : Nat} (hv : v = tag c) :
    put (put s (hdrp c.addr) v) (ftrp (put s (hdrp c.addr) v).mem c.addr) v = setTags s c := by
  subst hv
  have hlow := hf.low
  have hhigh := hf.high
  have hmin := hf.min
  have hget : getSize (putWord s.mem (c.addr - 4) (tag c)) (c.addr - 4) = c.size :=
    getSize_of_tag hf.dword (get_putWord_same _ _ (tag_lt hf))
  have hftr : ftrp (put s (c.addr - 4) (tag c)).mem c.addr = c.addr + c.size - 8 := by
    unfold ftrp
    rw [hdrp_addr hf, put_mem, hget, addU_eq hhigh]
    exact subU_eq (by unfold dsize; omega)
  rw [hdrp_addr hf, hftr]
  rfl

namespace Core

variable {h : Nat} {s : Heap} {tg : List Block} {fl : List Nat}

theorem fits (hc : Core h m₀ s tg fl) {b : Block} (hb : b ∈ tg) : Fits b :=
  (hc.inHeap b hb).fits hc.arena.brk_lt

/-- The blocks of `tg` may be forgotten or listed in another order. -/
theorem subset (hc : Core h m₀ s tg fl) {tg' : List Block} (hsub : ∀ b ∈ tg', b ∈ tg) :
    Core h m₀ s tg' fl where
  arena := hc.arena
  prologue := hc.prologue
  still := hc.still
  epilogue := hc.epilogue
  inHeap b hb := hc.inHeap b (hsub b hb)
  tagged b hb := hc.tagged b (hsub b hb)
  cells := hc.cells
  clear b hb := hc.clear b (hsub b hb)
  ring := hc.ring

/-- Tag a block that overlaps none of the blocks kept. -/
theorem retag (hc : Core h m₀ s tg fl) {c : Block} {tg' : List Block} (hin : InHeap h s.memBrk c)
    (hsub : ∀ b ∈ tg', b ∈ tg)
    (hdis : ∀ b ∈ tg', b.addr + b.size ≤ c.addr ∨ c.addr + c.size ≤ b.addr)
    (hcl : ∀ x ∈ fl, Clear c x) :
    Core h m₀ (setTags s c) (c :: tg') fl := by
  have hlo := hin.lo
  have hhi := hin.hi
  have hmin := hin.min
  have hpos := hc.arena.pos
  -- a word off both tag words keeps its value
  have keep : ∀ p, (p + 4 ≤ c.addr - 4 ∨ c.addr ≤ p) →
      (p + 4 ≤ c.addr + c.size - 8 ∨ c.addr + c.size - 4 ≤ p) →
      get (putWord (putWord s.mem (c.addr - 4) (tag c)) (c.addr + c.size - 8) (tag c)) p =
        get s.mem p := by
    intro p h1 h2
    rw [get_putWord_ne _ _ (by omega), get_putWord_ne _ _ (by omega)]
  refine ⟨?_, ?_, hc.still.trans fun q hq => ?_, ?_, ?_, ?_, ?_, ?_, ?_⟩
  · exact ⟨hc.arena.lo, hc.arena.hi, hc.arena.pos, hc.arena.dword, hc.arena.space,
      hc.arena.brkLo, hc.arena.brkHi, hc.arena.brkDword⟩
  · exact (keep _ (by omega) (by omega)).trans hc.prologue
  · have := hc.arena.brkHi
    rw [setTags_mem, putWord_byte _ _ (by omega), putWord_byte _ _ (by omega)]
  · exact (keep (s.memBrk - 4) (by omega) (by omega)).trans hc.epilogue
  · intro b hb
    rcases List.mem_cons.1 hb with rfl | hb
    · exact hin
    · exact hc.inHeap b (hsub b hb)
  · intro b hb
    rcases List.mem_cons.1 hb with rfl | hb
    · exact tagged_put (hin.fits hc.arena.brk_lt)
    · have := hdis b hb
      have hb' := hc.inHeap b (hsub b hb)
      have := hb'.lo
      have := hb'.min
      have ht := hc.tagged b (hsub b hb)
      exact ⟨(keep _ (by omega) (by omega)).trans ht.header,
        (keep _ (by omega) (by omega)).trans ht.footer⟩
  · exact hc.cells
  · intro b hb
    rcases List.mem_cons.1 hb with rfl | hb
    · exact hcl
    · exact hc.clear b (hsub b hb)
  · refine hc.ring.congr fun x hx q h1 h2 => ?_
    have hx' : x + 12 ≤ c.addr - 4 ∨ c.addr ≤ x ∧ x + 12 ≤ c.addr + c.size - 8 ∨
        c.addr + c.size ≤ x := by
      rcases List.mem_append.1 hx with hx | hx
      · exact hcl x hx
      · rw [List.mem_singleton.1 hx]
        omega
    rw [setTags_mem, putWord_byte _ _ (by omega), putWord_byte _ _ (by omega)]

/-- The fixed words and the tags survive a change inside cells. -/
theorem of_sameOff (hc : Core h m₀ s tg fl) {s' : Heap} {fl' xs : List Nat}
    (harena : s'.memStartBrk = s.memStartBrk ∧ s'.memBrk = s.memBrk ∧
      s'.memMaxAddr = s.memMaxAddr)
    (hoff : SameOff xs (h + 8) s.mem s'.mem)
    (hcells : ∀ x ∈ xs, h + 48 ≤ x ∧ x + 16 ≤ s.memBrk) (hclear : ∀ b ∈ tg, ∀ x ∈ xs, Clear b x)
    (hsub : ∀ x ∈ fl', x ∈ xs) (hring : FreeRing s'.mem s'.start (h + 8) fl') :
    Core h m₀ s' tg fl' := by
  obtain ⟨h1, h2, h3⟩ := harena
  have ha := hc.arena
  have hlo := ha.brkLo
  have keep : ∀ p, (∀ x ∈ xs, p + 4 ≤ x ∨ x + 12 ≤ p) → (p + 4 ≤ h + 8 ∨ h + 12 ≤ p) →
      get s'.mem p = get s.mem p := by
    intro p hp hP
    refine get_congr fun q hq1 hq2 => hoff q (fun x hx => ?_) (by omega)
    have := hp x hx
    omega
  refine ⟨⟨?_, ?_, ha.pos, ha.dword, ha.space, ?_, ?_, ?_⟩, ?_, hc.still.trans fun q hq => ?_,
    ?_, ?_, ?_, ?_, ?_, hring⟩
  · rw [h1, ha.lo]
  · rw [h3, ha.hi]
  · rw [h2]; exact ha.brkLo
  · rw [h2]; exact ha.brkHi
  · rw [h2]; exact ha.brkDword
  · exact (keep _ (fun x hx => by have := hcells x hx; omega) (by omega)).trans hc.prologue
  · have := ha.brkHi
    refine hoff q (fun x hx => ?_) (by omega)
    have := hcells x hx
    omega
  · rw [h2]
    exact (keep _ (fun x hx => by have := hcells x hx; omega) (by omega)).trans hc.epilogue
  · rw [h2]; exact hc.inHeap
  · intro b hb
    have hb' := hc.inHeap b hb
    have hb1 := hb'.lo
    have hb2 := hb'.min
    have ht := hc.tagged b hb
    refine ⟨(keep _ (fun x hx => ?_) (by omega)).trans ht.header,
      (keep _ (fun x hx => ?_) (by omega)).trans ht.footer⟩
    · have := hclear b hb x hx
      unfold Clear at this
      omega
    · have := hclear b hb x hx
      unfold Clear at this
      omega
  · rw [h2]; exact fun x hx => hcells x (hsub x hx)
  · exact fun b hb x hx => hclear b hb x (hsub x hx)

/-- `removeBlock` on a member. -/
theorem remove (hc : Core h m₀ s tg fl) {x : Nat} (hx : x ∈ fl) :
    Core h m₀ (removeBlock s x) tg (fl.erase x) := by
  obtain ⟨hring, hoff⟩ := freeRing_removeBlock hc.ring hx
  exact hc.of_sameOff (by simp) hoff hc.cells hc.clear (fun y hy => List.mem_of_mem_erase hy) hring

/-- `insertBlock` on a block with a cell of its own. -/
theorem insert (hc : Core h m₀ s tg fl) {x : Nat} (h1 : h + 48 ≤ x) (h2 : x + 16 ≤ s.memBrk)
    (hcl : ∀ b ∈ tg, Clear b x) (hap : ∀ y ∈ fl, Apart x y) :
    Core h m₀ (insertBlock s x) tg (x :: fl) := by
  have hbrk := hc.arena.brk_lt
  have hpos := hc.arena.pos
  have hap' : ∀ y ∈ fl ++ [h + 8], Apart x y := by
    intro y hy
    rcases List.mem_append.1 hy with hy | hy
    · exact hap y hy
    · rw [List.mem_singleton.1 hy]
      exact .inr (by omega)
  have hring := freeRing_insertBlock hc.ring (by omega) (by omega) hap'
  have hoff : SameOff (x :: fl) (h + 8) s.mem (insertBlock s x).mem :=
    insertBlock_frame hc.ring (by omega)
  refine hc.of_sameOff (by simp) hoff ?_ ?_ (fun y hy => hy) hring
  · intro y hy
    rcases List.mem_cons.1 hy with rfl | hy
    · exact ⟨h1, h2⟩
    · exact hc.cells y hy
  · intro b hb y hy
    rcases List.mem_cons.1 hy with rfl | hy
    · exact hcl b hb
    · exact hc.clear b hb y hy

/-- `s'` is `s` with a break `e` bytes further; the epilogue word may hold anything. -/
structure Raised (s s' : Heap) (e : Nat) : Prop where
  memStartBrk : s'.memStartBrk = s.memStartBrk
  memBrk : s'.memBrk = s.memBrk + e
  memMaxAddr : s'.memMaxAddr = s.memMaxAddr
  start : s'.start = s.start
  mem : ∀ q, q < s.memBrk - 4 ∨ s.memBrk ≤ q → s'.mem q = s.mem q

/-- Nothing below the old epilogue changes when the new end is tagged. -/
theorem grow_byte {s' : Heap} {e : Nat} (hs : Raised s s' e) (h24 : 24 ≤ e) {q : Nat}
    (hq : q < s.memBrk - 4) :
    (put (setTags s' ⟨s.memBrk, e, false⟩) (s.memBrk + e - 4) 1).mem q = s.mem q := by
  simp only [put_mem, setTags_mem]
  rw [putWord_byte _ _ (by omega), putWord_byte _ _ (by omega), putWord_byte _ _ (by omega),
    hs.mem q (.inl hq)]

theorem grow_still {s' : Heap} {e : Nat} (hs : Raised s s' e) (h24 : 24 ≤ e)
    (hlo : h + 48 ≤ s.memBrk) (hmax : s.memBrk + e ≤ h + maxHeap) :
    Still h s.mem (put (setTags s' ⟨s.memBrk, e, false⟩) (s.memBrk + e - 4) 1).mem := by
  intro q hq
  simp only [put_mem, setTags_mem]
  rw [putWord_byte _ _ (by omega), putWord_byte _ _ (by omega), putWord_byte _ _ (by omega),
    hs.mem q (by omega)]

/-- Tag the new end of the heap and write the epilogue behind it. -/
theorem grow (hc : Core h m₀ s tg fl) {s' : Heap} {e : Nat} (hs : Raised s s' e) (h24 : 24 ≤ e)
    (h8 : e % 8 = 0) (hmax : s.memBrk + e ≤ h + maxHeap) :
    Core h m₀ (put (setTags s' ⟨s.memBrk, e, false⟩) (s.memBrk + e - 4) 1)
      (⟨s.memBrk, e, false⟩ :: tg) fl := by
  have ha := hc.arena
  have hlo := ha.brkLo
  have hdw := ha.brkDword
  have hspace := ha.space
  have hpos := ha.pos
  have keep : ∀ p, p + 4 ≤ s.memBrk - 4 →
      get (put (setTags s' ⟨s.memBrk, e, false⟩) (s.memBrk + e - 4) 1).mem p = get s.mem p :=
    fun p hp => get_congr fun q h1 h2 => grow_byte hs h24 (by omega)
  refine ⟨⟨?_, ?_, hpos, ha.dword, hspace, ?_, ?_, ?_⟩, ?_,
    hc.still.trans (grow_still hs h24 hlo hmax), ?_, ?_, ?_, ?_, ?_, ?_⟩
  · exact hs.memStartBrk.trans ha.lo
  · exact hs.memMaxAddr.trans ha.hi
  · rw [put_memBrk, setTags_memBrk, hs.memBrk]; omega
  · rw [put_memBrk, setTags_memBrk, hs.memBrk]; omega
  · rw [put_memBrk, setTags_memBrk, hs.memBrk]; omega
  · exact (keep _ (by omega)).trans hc.prologue
  · rw [put_memBrk, setTags_memBrk, hs.memBrk]
    exact get_putWord_same _ _ (by decide)
  · intro b hb
    rw [put_memBrk, setTags_memBrk, hs.memBrk]
    rcases List.mem_cons.1 hb with rfl | hb
    · exact ⟨hlo, Nat.le_refl _, h24, h8⟩
    · have hb' := hc.inHeap b hb
      exact ⟨hb'.lo, by have := hb'.hi; omega, hb'.min, hb'.dword⟩
  · intro b hb
    rcases List.mem_cons.1 hb with rfl | hb
    · have hf : Fits ⟨s.memBrk, e, false⟩ := ⟨by dsimp only; omega, by dsimp only; omega, h24, h8⟩
      have ht := tagged_put (m := s'.mem) hf
      refine ht.congr (fun q h1 h2 => putWord_byte _ _ ?_) fun q h1 h2 => putWord_byte _ _ ?_
      · dsimp only at h1 h2
        omega
      · dsimp only at h1 h2
        omega
    · have hb' := hc.inHeap b hb
      have hb1 := hb'.lo
      have hb2 := hb'.hi
      have hb3 := hb'.min
      have ht := hc.tagged b hb
      exact ⟨(keep _ (by omega)).trans ht.header, (keep _ (by omega)).trans ht.footer⟩
  · intro x hx
    have := hc.cells x hx
    rw [put_memBrk, setTags_memBrk, hs.memBrk]
    omega
  · intro b hb x hx
    rcases List.mem_cons.1 hb with rfl | hb
    · have := hc.cells x hx
      unfold Clear
      dsimp only
      omega
    · exact hc.clear b hb x hx
  · rw [put_start, setTags_start, hs.start]
    refine hc.ring.congr fun x hx q h1 h2 => grow_byte hs h24 ?_
    rcases List.mem_append.1 hx with hx | hx
    · have := hc.cells x hx
      omega
    · rw [List.mem_singleton.1 hx] at h2
      omega

end Core

end OsBasics.Malloc
