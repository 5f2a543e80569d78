/-
  Links that keep the list calls away from the tags.

  SET stores to the address that a link word holds. When the links of a block
  hold addresses of a set of words that only name one another (`Linked`,
  `Sink`), `removeBlock` returns and stores into this set alone
  (`removeBlock_sink`), and so does `insertBlock` into an empty class
  (`insertBlock_sink`).
-/
import OsBasics.Lib.Runs
import OsBasics.Malloc.SegLists
import OsBasics.Malloc.Tags

namespace OsBasics.Malloc.Seg

open OsBasics.Lib

/-- The words at `p` and `d` have no byte in common. -/
def WordsApart (p d : Nat) : Prop := p + 4 ≤ d ∨ d + 4 ≤ p

instance (p d : Nat) : Decidable (WordsApart p d) := inferInstanceAs (Decidable (_ ∨ _))

/-- The words at `ws` do not overlap, and each holds the address of one of them. -/
structure Sink (ws : List Nat) (m : Mem) : Prop where
  pos : ∀ d ∈ ws, d ≠ 0
  apart : ∀ d ∈ ws, ∀ e ∈ ws, d ≠ e → WordsApart d e
  closed : ∀ d ∈ ws, get m d ∈ ws

/-- Both links of the block `b` hold addresses of `ws`. PREV_BLKP may be one of these words itself. -/
structure Linked (ws : List Nat) (m : Mem) (b : Nat) : Prop where
  prev : prevBlkp m b ∈ ws
  prevOff : b ∈ ws ∨ ∀ d ∈ ws, WordsApart b d
  next : nextBlkp m b ∈ ws
  nextOff : ∀ d ∈ ws, WordsApart (addU b dsize) d

/-- From `m` to `m'` only words at `ws` have changed, and what was linked to them still is. -/
structure Spares (ws : List Nat) (m m' : Mem) : Prop where
  sink : Sink ws m'
  linked : ∀ b, Linked ws m b → Linked ws m' b
  frame : ∀ q, (∀ d ∈ ws, ¬ (d ≤ q ∧ q < d + 4)) → m' q = m q

section Links

variable {ws : List Nat} {m m₁ m₂ : Mem} {s : SegHeap} {d v b size : Nat}

theorem Spares.trans (h₁ : Spares ws m m₁) (h₂ : Spares ws m₁ m₂) : Spares ws m m₂ :=
  ⟨h₂.sink, fun b hb => h₂.linked b (h₁.linked b hb), fun q hq => (h₂.frame q hq).trans (h₁.frame q hq)⟩

/-- A store of one of the addresses to another. -/
theorem Sink.put (hs : Sink ws m) (hd : d ∈ ws) (hv : v ∈ ws) (hlt : v < addrSpace) :
    Spares ws m (putWord m d v) := by
  have hclosed (e : Nat) (he : e ∈ ws) : get (putWord m d v) e ∈ ws := by
    by_cases heq : e = d
    · rw [heq, get_putWord_same _ _ hlt]
      exact hv
    · rw [get_putWord_ne _ _ (hs.apart e he d hd heq)]
      exact hs.closed e he
  refine ⟨⟨hs.pos, hs.apart, hclosed⟩, fun b hb => ⟨?_, hb.prevOff, ?_, hb.nextOff⟩, fun q hq => ?_⟩
  · rcases hb.prevOff with hmem | hoff
    · exact hclosed b hmem
    · rw [prevBlkp, get_putWord_ne m v (hoff d hd)]
      exact hb.prev
  · rw [nextBlkp, get_putWord_ne m v (hb.nextOff d hd)]
    exact hb.next
  · have hout := hq d hd
    exact putWord_byte _ _ (by omega)

theorem set_eq (h : d ≠ 0) : set s d v = .ok (put s d v) := if_neg h

theorem Sink.listNext_eq (hs : Sink ws m) (hb : Linked ws m b) :
    listNext m b = .ok (get m (nextBlkp m b)) := if_neg (hs.pos _ hb.next)

/-- `removeBlock` sees a block with a neighbour on both sides, and stores twice. -/
theorem removeBlock_sink (hs : Sink ws s.heap.mem) (hb : Linked ws s.heap.mem b) :
    ∃ s', removeBlock s b = .ok s' ∧ s'.seglist = s.seglist ∧ Spares ws s.heap.mem s'.heap.mem := by
  have hlt (m : Mem) (p : Nat) : get m p < addrSpace := wordAt_lt m p
  have hnext := hs.closed _ hb.next
  have hdest := hs.closed _ hb.prev
  have h₁ := hs.put hdest hnext (hlt _ _)
  generalize hs₁ : put s (prevBlkp s.heap.mem (prevBlkp s.heap.mem b))
    (get s.heap.mem (nextBlkp s.heap.mem b)) = s₁
  have hmem₁ : putWord s.heap.mem (get s.heap.mem (prevBlkp s.heap.mem b))
      (get s.heap.mem (nextBlkp s.heap.mem b)) = s₁.heap.mem := by
    rw [← hs₁]
    rfl
  rw [hmem₁] at h₁
  have hb₁ := h₁.linked b hb
  have hnext₁ := h₁.sink.closed _ hb₁.next
  have hdest₁ := h₁.sink.closed _ hnext₁
  refine ⟨put s₁ (get s₁.heap.mem (get s₁.heap.mem (nextBlkp s₁.heap.mem b))) (prevBlkp s₁.heap.mem b),
    ?_, by rw [← hs₁]; rfl, h₁.trans (h₁.sink.put hdest₁ hb₁.prev (hlt _ _))⟩
  have hset₁ : set s (prevBlkp s.heap.mem (prevBlkp s.heap.mem b))
      (get s.heap.mem (nextBlkp s.heap.mem b)) = .ok s₁ := by
    rw [← hs₁]
    exact set_eq (hs.pos _ hdest)
  have hderef : deref s₁.heap.mem (get s₁.heap.mem (nextBlkp s₁.heap.mem b)) =
      .ok (get s₁.heap.mem (get s₁.heap.mem (nextBlkp s₁.heap.mem b))) :=
    if_neg (h₁.sink.pos _ hnext₁)
  unfold removeBlock
  simp only [bind, Except.bind, hs.listNext_eq hb, if_pos (hs.pos _ hb.prev), if_pos (hs.pos _ hnext), hset₁,
    h₁.sink.listNext_eq hb₁, hderef]
  exact set_eq (h₁.sink.pos _ hdest₁)

/-- `insertBlock` stores NULL twice, through the two links. -/
theorem insertBlock_sink (hempty : s.seglist (sizeClass size) = 0) (hpos : ∀ d ∈ ws, d ≠ 0)
    (hb : Linked ws s.heap.mem b) : ∃ s', insertBlock s b size = .ok s' ∧
      ∀ q, (∀ d ∈ ws, ¬ (d ≤ q ∧ q < d + 4)) → s'.heap.mem q = s.heap.mem q := by
  have hnext : nextBlkp (put s (prevBlkp s.heap.mem b) 0).heap.mem b = nextBlkp s.heap.mem b :=
    get_putWord_ne _ _ (hb.nextOff _ hb.prev)
  refine ⟨put (put s (prevBlkp s.heap.mem b) 0) (nextBlkp s.heap.mem b) 0, ?_, fun q hq => ?_⟩
  · rw [insertBlock_unlisted hempty, set_eq (hpos _ hb.prev)]
    simp only [bind, Except.bind, hnext]
    exact set_eq (hpos _ hb.next)
  · have h1 := hq _ hb.prev
    have h2 := hq _ hb.next
    rw [put_mem, put_mem, putWord_byte _ _ (by omega), putWord_byte _ _ (by omega)]

end Links

end OsBasics.Malloc.Seg
