/-
  Blocks that tile an interval, and merging of free neighbours.

  `Tiles a bs e` says that the blocks `bs` lie side by side from `a` to `e`.
  `push` puts a block in front of a tiling and merges it with the first block
  when both are free, and `normalize` does this for a whole tiling. It is a
  canonical form: it has no two free neighbours (`noAdjFree_normalize`), it is the
  identity on a tiling without them (`normalize_of_noAdjFree`), and blocks may be
  released before or after it (`normalize_map_normalize`).
-/
import Mathlib.Data.List.Chain

namespace OsBasics.Lib

/-- A block of memory: where it starts, its size, and whether it is in use. -/
structure Block where
  addr : Nat
  size : Nat
  alloc : Bool
  deriving DecidableEq, Repr

namespace Block

/-- The block, no longer in use. -/
def release (b : Block) : Block := { b with alloc := false }

/-- The free block that covers `b` and the block `c` behind it. -/
def join (b c : Block) : Block := ⟨b.addr, b.size + c.size, false⟩

@[simp] theorem release_addr (b : Block) : b.release.addr = b.addr := rfl
@[simp] theorem release_size (b : Block) : b.release.size = b.size := rfl
@[simp] theorem release_alloc (b : Block) : b.release.alloc = false := rfl

end Block

/-! ## Tilings -/

/-- The blocks lie side by side from `a` to `e`. -/
def Tiles : Nat → List Block → Nat → Prop
  | a, [], e => a = e
  | a, b :: bs, e => b.addr = a ∧ Tiles (a + b.size) bs e

theorem tiles_append {a e : Nat} {l r : List Block} :
    Tiles a (l ++ r) e ↔ ∃ c, Tiles a l c ∧ Tiles c r e := by
  induction l generalizing a with
  | nil => simp [Tiles]
  | cons b l ih =>
    simp only [List.cons_append, Tiles, ih]
    constructor
    · rintro ⟨hb, c, h1, h2⟩
      exact ⟨c, ⟨hb, h1⟩, h2⟩
    · rintro ⟨c, ⟨hb, h1⟩, h2⟩
      exact ⟨hb, c, h1, h2⟩

/-- A tiling is cut at any of its blocks. -/
theorem tiles_split {a e : Nat} {l r : List Block} {b : Block} :
    Tiles a (l ++ b :: r) e ↔ Tiles a l b.addr ∧ Tiles (b.addr + b.size) r e := by
  rw [tiles_append]
  constructor
  · rintro ⟨c, h1, rfl, h2⟩
    exact ⟨h1, h2⟩
  · rintro ⟨h1, h2⟩
    exact ⟨b.addr, h1, rfl, h2⟩

theorem tiles_le {a e : Nat} {bs : List Block} (h : Tiles a bs e) : a ≤ e := by
  induction bs generalizing a with
  | nil => exact Nat.le_of_eq h
  | cons b bs ih =>
    have := ih h.2
    omega

theorem tiles_mem {a e : Nat} {bs : List Block} (h : Tiles a bs e) {b : Block} (hb : b ∈ bs) :
    a ≤ b.addr ∧ b.addr + b.size ≤ e := by
  obtain ⟨l, r, rfl⟩ := List.append_of_mem hb
  rw [tiles_split] at h
  exact ⟨tiles_le h.1, tiles_le h.2⟩

/-- Blocks of a tiling do not overlap, and stand in address order. -/
theorem tiles_pairwise {a e : Nat} {bs : List Block} (h : Tiles a bs e) :
    bs.Pairwise fun b c => b.addr + b.size ≤ c.addr := by
  induction bs generalizing a with
  | nil => exact .nil
  | cons b bs ih =>
    refine List.pairwise_cons.2 ⟨fun c hc => ?_, ih h.2⟩
    have := (tiles_mem h.2 hc).1
    have := h.1
    omega

/-- Two blocks of a tiling are the same block or do not overlap. -/
theorem tiles_disjoint {a e : Nat} {bs : List Block} (h : Tiles a bs e) {b c : Block}
    (hb : b ∈ bs) (hc : c ∈ bs) :
    b = c ∨ b.addr + b.size ≤ c.addr ∨ c.addr + c.size ≤ b.addr := by
  obtain ⟨l, r, rfl⟩ := List.append_of_mem hb
  have hp := tiles_pairwise h
  rw [List.pairwise_append] at hp
  obtain ⟨-, hr, hl⟩ := hp
  rcases List.mem_append.1 hc with hc | hc
  · exact .inr (.inr (hl c hc b List.mem_cons_self))
  · rcases List.mem_cons.1 hc with rfl | hc
    · exact .inl rfl
    · exact .inr (.inl ((List.pairwise_cons.1 hr).1 c hc))

/-- A block without size zero is known by its address. -/
theorem tiles_addr_inj {a e : Nat} {bs : List Block} (h : Tiles a bs e)
    (hpos : ∀ b ∈ bs, 0 < b.size) {b c : Block} (hb : b ∈ bs) (hc : c ∈ bs)
    (hbc : b.addr = c.addr) : b = c := by
  have h1 := hpos b hb
  have h2 := hpos c hc
  rcases tiles_disjoint h hb hc with h | h | h
  · exact h
  · omega
  · omega

/-- The blocks before `b` end before it, and those behind it start behind it. -/
theorem tiles_around {a e : Nat} {l r : List Block} {b : Block} (h : Tiles a (l ++ b :: r) e) :
    (∀ c ∈ l, c.addr + c.size ≤ b.addr) ∧ ∀ c ∈ r, b.addr + b.size ≤ c.addr := by
  have hp := tiles_pairwise h
  rw [List.pairwise_append] at hp
  obtain ⟨-, hr, hl⟩ := hp
  exact ⟨fun c hc => hl c hc b List.mem_cons_self, (List.pairwise_cons.1 hr).1⟩

/-- The blocks of a tiling that a cut at `b` leaves have other addresses. -/
theorem tiles_split_ne {a e : Nat} {l r : List Block} {b : Block}
    (h : Tiles a (l ++ b :: r) e) (hpos : ∀ c ∈ l ++ b :: r, 0 < c.size) :
    (∀ c ∈ l, c.addr ≠ b.addr) ∧ ∀ c ∈ r, c.addr ≠ b.addr := by
  obtain ⟨hl, hr⟩ := tiles_around h
  refine ⟨fun c hc => ?_, fun c hc => ?_⟩
  · have := hl c hc
    have := hpos c (List.mem_append_left _ hc)
    omega
  · have := hr c hc
    have := hpos b (by simp)
    omega

/-- Block sizes that are multiples of 8 add up to one. -/
theorem tiles_dvd {a e : Nat} {bs : List Block} (h : Tiles a bs e)
    (hs : ∀ b ∈ bs, b.size % 8 = 0) : (e - a) % 8 = 0 := by
  induction bs generalizing a with
  | nil =>
    have : a = e := h
    omega
  | cons b bs ih =>
    have := ih h.2 fun c hc => hs c (List.mem_cons_of_mem _ hc)
    have := hs b List.mem_cons_self
    have := tiles_le h.2
    omega

/-- What lies outside every block of a tiling, each taken with the four bytes
    before it for the last four, lies outside the interval shifted so. -/
theorem tiles_outside {a e q : Nat} {bs : List Block} (h : Tiles a bs e) (ha : 4 ≤ a)
    (hq : ∀ b ∈ bs, q < b.addr - 4 ∨ b.addr + b.size - 4 ≤ q) : q < a - 4 ∨ e - 4 ≤ q := by
  induction bs generalizing a with
  | nil =>
    have : a = e := h
    omega
  | cons b bs ih =>
    have h1 := ih h.2 (by omega) fun c hc => hq c (List.mem_cons_of_mem _ hc)
    have h2 := hq b List.mem_cons_self
    have h3 := h.1
    omega

/-- The sizes of two neighbours stay below the end of the tiling. -/
theorem tiles_pair_le {a e : Nat} {l r : List Block} {b c : Block}
    (h : Tiles a (l ++ b :: c :: r) e) : b.size + c.size ≤ e := by
  rw [tiles_split] at h
  have := tiles_le h.2.2
  omega

/-! ## Free neighbours -/

/-- No two neighbours are both free. -/
def NoAdjFree (bs : List Block) : Prop :=
  bs.IsChain fun b c => b.alloc = true ∨ c.alloc = true

/-- `b` in front of a tiling, merged with the first block when both are free. -/
def push (b : Block) : List Block → List Block
  | [] => [b]
  | c :: cs => if b.alloc = false ∧ c.alloc = false then b.join c :: cs else b :: c :: cs

/-- Merge free neighbours throughout. -/
def normalize (bs : List Block) : List Block := bs.foldr push []

@[simp] theorem push_nil (b : Block) : push b [] = [b] := rfl

theorem push_free {b c : Block} (cs : List Block) (hb : b.alloc = false) (hc : c.alloc = false) :
    push b (c :: cs) = b.join c :: cs := if_pos ⟨hb, hc⟩

theorem push_alloc {b : Block} (bs : List Block) (hb : b.alloc = true) : push b bs = b :: bs := by
  cases bs with
  | nil => rfl
  | cons c cs => exact if_neg (by simp [hb])

theorem push_alloc_head {b c : Block} (cs : List Block) (hc : c.alloc = true) :
    push b (c :: cs) = b :: c :: cs := if_neg (by simp [hc])

/-- A free block in front of a tiling gives a free block at its address. -/
theorem push_head {b : Block} (bs : List Block) (hb : b.alloc = false) :
    ∃ c cs, push b bs = c :: cs ∧ c.addr = b.addr ∧ c.alloc = false := by
  cases bs with
  | nil => exact ⟨b, [], rfl, rfl, hb⟩
  | cons d ds =>
    cases hd : d.alloc with
    | true => exact ⟨b, d :: ds, push_alloc_head ds hd, rfl, hb⟩
    | false => exact ⟨b.join d, ds, push_free ds hb hd, rfl, rfl⟩

theorem normalize_cons (b : Block) (bs : List Block) :
    normalize (b :: bs) = push b (normalize bs) := rfl

theorem normalize_append (l r : List Block) :
    normalize (l ++ r) = l.foldr push (normalize r) := List.foldr_append

/-- Merging two free blocks first makes no difference. -/
theorem push_join {b c : Block} (bs : List Block) (hb : b.alloc = false) (hc : c.alloc = false) :
    push (b.join c) bs = push b (push c bs) := by
  cases bs with
  | nil => rw [push_nil, push_nil, push_free _ hb hc]
  | cons d ds =>
    cases hd : d.alloc with
    | false =>
      rw [push_free ds rfl hd, push_free ds hc hd, push_free ds hb rfl]
      simp [Block.join, Nat.add_assoc]
    | true =>
      rw [push_alloc_head ds hd, push_alloc_head ds hd, push_free _ hb hc]

theorem noAdjFree_push {b : Block} {bs : List Block} (h : NoAdjFree bs) :
    NoAdjFree (push b bs) := by
  cases bs with
  | nil => exact .singleton b
  | cons c cs =>
    cases hb : b.alloc with
    | true => rw [push_alloc _ hb]; exact h.cons_cons (.inl hb)
    | false =>
      cases hc : c.alloc with
      | true => rw [push_alloc_head cs hc]; exact h.cons_cons (.inr hc)
      | false =>
        rw [push_free cs hb hc]
        cases cs with
        | nil => exact .singleton _
        | cons d ds =>
          have hd : d.alloc = true := by simpa [hc] using (List.isChain_cons_cons.1 h).1
          exact (List.isChain_cons_cons.1 h).2.cons_cons (.inr hd)

theorem noAdjFree_normalize (bs : List Block) : NoAdjFree (normalize bs) := by
  induction bs with
  | nil => exact .nil
  | cons b bs ih => exact noAdjFree_push ih

theorem push_of_noAdjFree {b : Block} {bs : List Block} (h : NoAdjFree (b :: bs)) :
    push b bs = b :: bs := by
  cases bs with
  | nil => rfl
  | cons c cs =>
    rcases (List.isChain_cons_cons.1 h).1 with hb | hc
    · exact push_alloc _ hb
    · exact push_alloc_head cs hc

theorem normalize_of_noAdjFree {bs : List Block} (h : NoAdjFree bs) : normalize bs = bs := by
  induction bs with
  | nil => rfl
  | cons b bs ih => rw [normalize_cons, ih h.tail, push_of_noAdjFree h]

/-- Pushing a prefix onto blocks it has no free neighbour with is appending it. -/
theorem foldr_push_of_noAdjFree {l r : List Block} (h : NoAdjFree (l ++ r)) :
    l.foldr push r = l ++ r := by
  induction l with
  | nil => rfl
  | cons b l ih =>
    rw [List.foldr_cons, ih h.tail]
    exact push_of_noAdjFree h

/-- A map that keeps free blocks as they are may be applied before or after
    `normalize`. -/
theorem normalize_map_normalize {f : Block → Block} (hf : ∀ b, b.alloc = false → f b = b)
    (bs : List Block) : normalize ((normalize bs).map f) = normalize (bs.map f) := by
  have key : ∀ b cs, normalize ((push b cs).map f) = push (f b) (normalize (cs.map f)) := by
    intro b cs
    cases cs with
    | nil => rfl
    | cons c cs =>
      cases hb : b.alloc with
      | true => rw [push_alloc _ hb]; rfl
      | false =>
        cases hc : c.alloc with
        | true => rw [push_alloc_head cs hc]; rfl
        | false =>
          rw [push_free cs hb hc, List.map_cons, List.map_cons, normalize_cons, normalize_cons,
            hf (b.join c) rfl, hf b hb, hf c hc, push_join _ hb hc]
  induction bs with
  | nil => rfl
  | cons b bs ih => rw [normalize_cons, key, ih, List.map_cons, normalize_cons]

/-! ## Normal tilings are tilings -/

theorem tiles_push {a e : Nat} {b : Block} {bs : List Block}
    (h : Tiles a (b :: bs) e) : Tiles a (push b bs) e := by
  cases bs with
  | nil => exact h
  | cons c cs =>
    obtain ⟨hb, hc, h⟩ := h
    by_cases hbc : b.alloc = false ∧ c.alloc = false
    · rw [push_free cs hbc.1 hbc.2]
      exact ⟨hb, by rwa [Nat.add_assoc] at h⟩
    · rw [show push b (c :: cs) = b :: c :: cs from if_neg hbc]
      exact ⟨hb, hc, h⟩

end OsBasics.Lib
