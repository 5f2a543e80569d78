/-
  The bucket chains of the variable table.

  `Filled s n bk D` says that the buckets `bk`, `n` of them, hold the entries `D`:
  each bucket heads a doubly linked chain of exactly the entries whose hash value
  leads to it, and counts them. Putting an entry first in its chain keeps this
  (`Filled.push`), and so does taking one out (`Filled.drop`). A bucket expansion moves the
  entries, one chain after the other, into twice as many buckets (`moveAll_spec`,
  `expandBuckets_spec`). None of this touches an entry's place in the order of
  insertion, its key or its value (`SameApp`).
-/
import OsBasics.Lib.NullList
import OsBasics.Lib.Runs
import OsBasics.Shell.UtHash
import Mathlib.Data.Nat.Bitwise

namespace OsBasics.Shell

open OsBasics.Lib

/-- The buckets `bk` hold the entries `D`, spread over `n` buckets. -/
def Filled (s : Env) (n : Nat) (bk : Nat → Bucket) (D : Nat → Prop) : Prop :=
  ∀ i, ∃ c t, DList 0 s.hhNext s.hhPrev (bk i).hhHead t c ∧ (bk i).count = c.length ∧
    ∀ p, p ∈ c ↔ D p ∧ hashToBkt (s.hashv p) n = i

/-- What an operation on buckets leaves alone. -/
structure SameApp (s s' : Env) : Prop where
  alloc : s'.alloc = s.alloc
  key : s'.key = s.key
  value : s'.value = s.value
  prev : s'.prev = s.prev
  next : s'.next = s.next
  keylen : s'.keylen = s.keylen
  hashv : s'.hashv = s.hashv
  envHashTable : s'.envHashTable = s.envHashTable
  tail : s'.tbl.tail = s.tbl.tail
  numItems : s'.tbl.numItems = s.tbl.numItems

namespace SameApp

variable {s s' s'' : Env}

theorem refl (s : Env) : SameApp s s := ⟨rfl, rfl, rfl, rfl, rfl, rfl, rfl, rfl, rfl, rfl⟩

theorem trans (h : SameApp s s') (h' : SameApp s' s'') : SameApp s s'' where
  alloc := h'.alloc.trans h.alloc
  key := h'.key.trans h.key
  value := h'.value.trans h.value
  prev := h'.prev.trans h.prev
  next := h'.next.trans h.next
  keylen := h'.keylen.trans h.keylen
  hashv := h'.hashv.trans h.hashv
  envHashTable := h'.envHashTable.trans h.envHashTable
  tail := h'.tail.trans h.tail
  numItems := h'.numItems.trans h.numItems

end SameApp

theorem hashToBkt_lt (v : UInt32) {n : Nat} (hn : 0 < n) : hashToBkt v n < n := by
  have hle : v.toNat &&& (n - 1) ≤ n - 1 := Nat.and_le_right
  unfold hashToBkt
  omega

theorem incU_eq {x : Nat} (h : x + 1 < uintSize) : incU x = x + 1 := Nat.mod_eq_of_lt h

theorem decU_eq {x : Nat} (h : x < uintSize) (hpos : 0 < x) : decU x = x - 1 := by
  unfold decU
  rw [show x + (uintSize - 1) = x - 1 + uintSize by unfold uintSize at h ⊢; omega,
    Nat.add_mod_right]
  exact Nat.mod_eq_of_lt (by omega)

namespace Filled

variable {s s' : Env} {n : Nat} {bk bk' : Nat → Bucket} {D D' : Nat → Prop}

/-- Empty buckets hold no entry. -/
theorem empty (s : Env) (n : Nat) : Filled s n (fun _ => ⟨0, 0, 0⟩) fun _ => False := by
  intro i
  exact ⟨[], 0, DList.nil, rfl, by simp⟩

theorem mono (h : Filled s n bk D) (hD : ∀ p, D p ↔ D' p) : Filled s n bk D' := by
  intro i
  obtain ⟨c, t, hc, hcount, hmem⟩ := h i
  exact ⟨c, t, hc, hcount, fun p => by rw [hmem, hD]⟩

/-- The buckets of entries whose links and hash values stay. -/
theorem congr (h : Filled s n bk D) (hnext : ∀ p, D p → s'.hhNext p = s.hhNext p)
    (hprev : ∀ p, D p → s'.hhPrev p = s.hhPrev p) (hhash : ∀ p, D p → s'.hashv p = s.hashv p) :
    Filled s' n bk D := by
  intro i
  obtain ⟨c, t, hc, hcount, hmem⟩ := h i
  refine ⟨c, t, hc.congr (fun p hp => hnext p ((hmem p).1 hp).1)
    (fun p hp => hprev p ((hmem p).1 hp).1), hcount, fun p => ?_⟩
  rw [hmem]
  exact and_congr_right fun hp => by rw [hhash p hp]

/-- A bucket is empty or its first entry is one of those it is to hold. -/
theorem head (h : Filled s n bk D) (i : Nat) :
    (bk i).hhHead = 0 ∨ D (bk i).hhHead ∧ hashToBkt (s.hashv (bk i).hhHead) n = i := by
  obtain ⟨c, t, hc, -, hmem⟩ := h i
  cases c with
  | nil => exact .inl hc.fwd
  | cons p c =>
    rw [hc.fwd.1]
    exact .inr ((hmem p).1 List.mem_cons_self)

end Filled

/-! ## One entry more -/

namespace Env

/-- What `linkFirst` does when its pointers are good. -/
def linked (s : Env) (hhHead p : Nat) : Env :=
  { s with
    hhNext := Function.update s.hhNext p hhHead
    hhPrev := if hhHead ≠ 0 then Function.update (Function.update s.hhPrev p 0) hhHead p
      else Function.update s.hhPrev p 0 }

variable {s : Env}

theorem touch_eq {p : Nat} (h : p ∈ s.alloc) : s.touch p = .ok () := if_pos h

theorem linkFirst_eq {hhHead p : Nat} (hp : p ∈ s.alloc) (hh : hhHead ≠ 0 → hhHead ∈ s.alloc) :
    s.linkFirst hhHead p = .ok (s.linked hhHead p) := by
  unfold linkFirst linked
  rw [touch_eq hp]
  dsimp only [bind, Except.bind]
  by_cases h0 : hhHead = 0
  · rw [if_neg (fun hne => hne h0), if_neg (fun hne => hne h0)]
    rfl
  · have htouch : ((s.setHhNext p hhHead).setHhPrev p 0).touch hhHead = .ok () := touch_eq (hh h0)
    rw [if_pos h0, if_pos h0, htouch]
    rfl

/-- What `delInBkt` does when its pointers are good. -/
def unlinked (s : Env) (i p : Nat) : Env :=
  let b := s.tbl.buckets i
  let s' := s.setBucket i { b with
    count := decU b.count
    hhHead := if b.hhHead = p then s.hhNext p else b.hhHead }
  { s' with
    hhNext := if s.hhPrev p ≠ 0 then Function.update s.hhNext (s.hhPrev p) (s.hhNext p) else s.hhNext
    hhPrev := if s.hhNext p ≠ 0 then Function.update s.hhPrev (s.hhNext p) (s.hhPrev p) else s.hhPrev }

theorem delInBkt_eq {i p : Nat} (hp : s.hhPrev p ≠ 0 → s.hhPrev p ∈ s.alloc ∧ s.hhPrev p ≠ p)
    (hn : s.hhNext p ≠ 0 → s.hhNext p ∈ s.alloc) : s.delInBkt i p = .ok (s.unlinked i p) := by
  unfold delInBkt unlinked
  dsimp only
  generalize hb : ({ hhHead := _, count := _, expandMult := _ } : Bucket) = b
  have htouch (q : Nat) (hq : q ∈ s.alloc) : (s.setBucket i b).touch q = .ok () := touch_eq hq
  have hprev : (s.setBucket i b).hhPrev p = s.hhPrev p := rfl
  have hnext : (s.setBucket i b).hhNext p = s.hhNext p := rfl
  rw [hprev]
  by_cases h1 : s.hhPrev p ≠ 0
  · -- the link of the node before `p` changes, not that of `p`
    have hlink : ((s.setBucket i b).setHhNext (s.hhPrev p) ((s.setBucket i b).hhNext p)).hhNext p =
        s.hhNext p := Function.update_of_ne (hp h1).2.symm _ _
    rw [if_pos h1, if_pos h1, htouch _ (hp h1).1]
    dsimp only [bind, Except.bind, pure, Except.pure]
    rw [hlink]
    by_cases h2 : s.hhNext p ≠ 0
    · have htouch' : ((s.setBucket i b).setHhNext (s.hhPrev p) ((s.setBucket i b).hhNext p)).touch
          (s.hhNext p) = .ok () := touch_eq (hn h2)
      rw [if_pos h2, if_pos h2, htouch']
      rfl
    · rw [if_neg h2, if_neg h2]
      rfl
  · rw [if_neg h1, if_neg h1]
    dsimp only [bind, Except.bind, pure, Except.pure]
    rw [hnext]
    by_cases h2 : s.hhNext p ≠ 0
    · rw [if_pos h2, if_pos h2, htouch _ (hn h2)]
      rfl
    · rw [if_neg h2, if_neg h2]
      rfl

theorem unlinked_hhNext_ne {i p q : Nat} (h : s.hhPrev p ≠ 0 → q ≠ s.hhPrev p) :
    (s.unlinked i p).hhNext q = s.hhNext q := by
  unfold unlinked
  dsimp only
  by_cases h1 : s.hhPrev p ≠ 0
  · rw [if_pos h1, Function.update_of_ne (h h1)]
  · rw [if_neg h1]

theorem unlinked_hhPrev_ne {i p q : Nat} (h : s.hhNext p ≠ 0 → q ≠ s.hhNext p) :
    (s.unlinked i p).hhPrev q = s.hhPrev q := by
  unfold unlinked
  dsimp only
  by_cases h1 : s.hhNext p ≠ 0
  · rw [if_pos h1, Function.update_of_ne (h h1)]
  · rw [if_neg h1]

theorem linked_sameApp (s : Env) (hhHead p : Nat) : SameApp s (s.linked hhHead p) :=
  ⟨rfl, rfl, rfl, rfl, rfl, rfl, rfl, rfl, rfl, rfl⟩

theorem linked_hhNext_ne {hhHead p q : Nat} (h : q ≠ p) :
    (s.linked hhHead p).hhNext q = s.hhNext q := Function.update_of_ne h _ _

theorem linked_hhPrev_ne {hhHead p q : Nat} (h : q ≠ p) (hh : hhHead ≠ 0 → q ≠ hhHead) :
    (s.linked hhHead p).hhPrev q = s.hhPrev q := by
  unfold linked
  dsimp only
  split
  · next h0 => rw [Function.update_of_ne (hh h0), Function.update_of_ne h]
  · exact Function.update_of_ne h _ _

end Env

/-- An entry is put first in the chain of its bucket. -/
theorem Filled.push {s : Env} {n : Nat} {bk : Nat → Bucket} {D : Nat → Prop} (h : Filled s n bk D)
    {p : Nat} (hp : ¬ D p) (h0 : p ≠ 0) {b : Bucket}
    (hhead : b.hhHead = p) (hcount : b.count = (bk (hashToBkt (s.hashv p) n)).count + 1) :
    Filled (s.linked (bk (hashToBkt (s.hashv p) n)).hhHead p) n
      (Function.update bk (hashToBkt (s.hashv p) n) b) fun q => q = p ∨ D q := by
  generalize hi : hashToBkt (s.hashv p) n = i at *
  intro j
  obtain ⟨c, t, hc, hlen, hmem⟩ := h j
  have hpc : p ∉ c := fun hin => hp ((hmem p).1 hin).1
  by_cases hj : j = i
  · subst hj
    rw [Function.update_self]
    refine ⟨p :: c, _, by rw [hhead]; exact hc.pushFront hpc h0, ?_, fun q => ?_⟩
    · rw [hcount, hlen, List.length_cons]
    · rw [List.mem_cons, hmem]
      constructor
      · rintro (rfl | hq)
        · exact ⟨.inl rfl, hi⟩
        · exact ⟨.inr hq.1, hq.2⟩
      · rintro ⟨rfl | hq, hb⟩
        · exact .inl rfl
        · exact .inr ⟨hq, hb⟩
  · rw [Function.update_of_ne hj]
    -- the other chains have neither the entry nor the old head
    have hne (q : Nat) (hq : q ∈ c) : q ≠ p ∧ ((bk i).hhHead ≠ 0 → q ≠ (bk i).hhHead) := by
      refine ⟨fun heq => hpc (heq ▸ hq), fun hnz heq => ?_⟩
      obtain hz | ⟨-, hb⟩ := h.head i
      · exact hnz hz
      · rw [← heq] at hb
        exact hj (((hmem q).1 hq).2.symm.trans hb)
    refine ⟨c, t, hc.congr (fun q hq => Env.linked_hhNext_ne (hne q hq).1)
      (fun q hq => Env.linked_hhPrev_ne (hne q hq).1 (hne q hq).2), hlen, fun q => ?_⟩
    rw [hmem]
    constructor
    · rintro ⟨hq, hb⟩
      exact ⟨.inr hq, hb⟩
    · rintro ⟨rfl | hq, hb⟩
      · exact absurd (hb.symm.trans hi) hj
      · exact ⟨hq, hb⟩

/-- A chain of allocated entries, with one more beside it, can be counted. -/
theorem Filled.count_lt {s : Env} {n : Nat} {bk : Nat → Bucket} {D : Nat → Prop}
    (h : Filled s n bk D) (hD : ∀ p, D p → p ∈ s.alloc) (hroom : s.alloc.length < uintSize) {p : Nat}
    (hp : ¬ D p) (hpa : p ∈ s.alloc) (i : Nat) : (bk i).count + 1 < uintSize := by
  obtain ⟨c, t, hc, hcount, hmem⟩ := h i
  have hnodup : (p :: c).Nodup :=
    List.nodup_cons.2 ⟨fun hin => hp ((hmem p).1 hin).1, hc.fwd.nodup⟩
  have hsub : p :: c ⊆ s.alloc := by
    intro q hq
    rcases List.mem_cons.1 hq with rfl | hq
    · exact hpa
    · exact hD q ((hmem q).1 hq).1
  have hle := (hnodup.subperm hsub).length_le
  rw [List.length_cons] at hle
  omega

/-! ## Moving the entries into new buckets -/

/-- What the move of the entries leaves alone. -/
structure Moving (s s' : Env) : Prop extends SameApp s s' where
  numBuckets : s'.tbl.numBuckets = s.tbl.numBuckets
  log2NumBuckets : s'.tbl.log2NumBuckets = s.tbl.log2NumBuckets
  buckets : s'.tbl.buckets = s.tbl.buckets

theorem Moving.refl (s : Env) : Moving s s := ⟨SameApp.refl s, rfl, rfl, rfl⟩

theorem Moving.trans {s s' s'' : Env} (h : Moving s s') (h' : Moving s' s'') : Moving s s'' where
  toSameApp := h.toSameApp.trans h'.toSameApp
  numBuckets := h'.numBuckets.trans h.numBuckets
  log2NumBuckets := h'.log2NumBuckets.trans h.log2NumBuckets
  buckets := h'.buckets.trans h.buckets

namespace Env

variable {s : Env} {n : Nat} {new : Nat → Bucket} {thh : Nat}

theorem countIn_spec (s : Env) (b : Bucket) :
    Moving s (s.countIn b).1 ∧ (s.countIn b).1.hhNext = s.hhNext ∧
      (s.countIn b).1.hhPrev = s.hhPrev ∧ (s.countIn b).2.hhHead = b.hhHead ∧
      (s.countIn b).2.count = incU b.count := by
  unfold countIn
  dsimp only
  split
  · exact ⟨⟨⟨rfl, rfl, rfl, rfl, rfl, rfl, rfl, rfl, rfl, rfl⟩, rfl, rfl, rfl⟩, rfl, rfl, rfl, rfl⟩
  · exact ⟨Moving.refl s, rfl, rfl, rfl, rfl⟩

/-- One round of the inner loop. -/
theorem moveChain_step {i : Nat} (h0 : thh ≠ 0) (hthh : thh ∈ s.alloc)
    (hi : hashToBkt (s.hashv thh) (2 * s.tbl.numBuckets) = i)
    (hhead : (new i).hhHead ≠ 0 → (new i).hhHead ∈ s.alloc) :
    ∃ s₁ b, moveChain (n + 1) s new thh =
        moveChain n (s₁.linked (new i).hhHead thh) (Function.update new i b) (s.hhNext thh) ∧
      Moving s s₁ ∧ s₁.hhNext = s.hhNext ∧ s₁.hhPrev = s.hhPrev ∧ b.hhHead = thh ∧
      b.count = incU (new i).count := by
  obtain ⟨hm, hn, hp, hh, hc⟩ := countIn_spec s (new i)
  refine ⟨(s.countIn (new i)).1, { (s.countIn (new i)).2 with hhHead := thh }, ?_, hm, hn, hp, rfl, hc⟩
  rw [moveChain, if_neg h0, touch_eq hthh]
  dsimp only [bind, Except.bind]
  rw [hi, hh, linkFirst_eq (by rw [hm.alloc]; exact hthh) (by rw [hm.alloc]; exact hhead)]

/-- The chain from `thh` on is moved: the new buckets hold its entries as well. -/
theorem moveChain_spec {rest : List Nat} {D : Nat → Prop} (hl : NullList 0 s.hhNext thh rest)
    (hn : rest.length < n) (hrest : ∀ p ∈ rest, p ∈ s.alloc ∧ ¬ D p)
    (hD : ∀ p, D p → p ∈ s.alloc) (hroom : s.alloc.length < uintSize)
    (hf : Filled s (2 * s.tbl.numBuckets) new D) :
    ∃ s' new', moveChain n s new thh = .ok (s', new') ∧ Moving s s' ∧
      Filled s' (2 * s.tbl.numBuckets) new' (fun p => D p ∨ p ∈ rest) ∧
      ∀ q, q ∉ rest → s'.hhNext q = s.hhNext q := by
  induction rest generalizing n s new thh D with
  | nil =>
    obtain ⟨n, rfl⟩ : ∃ k, n = k + 1 := ⟨n - 1, by rw [List.length_nil] at hn; omega⟩
    rw [NullList.nil_iff] at hl
    subst hl
    exact ⟨s, new, if_pos rfl, Moving.refl s, hf.mono (by simp), fun _ _ => rfl⟩
  | cons p rest ih =>
    obtain ⟨n, rfl⟩ : ∃ k, n = k + 1 := ⟨n - 1, by omega⟩
    obtain ⟨rfl, h0, hl⟩ := hl
    obtain ⟨hpa, hpD⟩ := hrest thh List.mem_cons_self
    have hnodup : thh ∉ rest := by
      have hcons : NullList 0 s.hhNext thh (thh :: rest) := ⟨rfl, h0, hl⟩
      exact (List.nodup_cons.1 hcons.nodup).1
    obtain ⟨i, hi⟩ : ∃ i, hashToBkt (s.hashv thh) (2 * s.tbl.numBuckets) = i := ⟨_, rfl⟩
    have hhead : (new i).hhHead ≠ 0 → (new i).hhHead ∈ s.alloc := by
      intro hne
      rcases hf.head i with hz | ⟨hin, -⟩
      · exact absurd hz hne
      · exact hD _ hin
    obtain ⟨s₁, b, hstep, hm, hn₁, hp₁, hbh, hbc⟩ := moveChain_step (n := n) h0 hpa hi hhead
    rw [incU_eq (hf.count_lt hD hroom hpD hpa _)] at hbc
    rw [hstep]
    -- the entry is first in its new chain
    have hf₁ : Filled s₁ (2 * s.tbl.numBuckets) new D :=
      hf.congr (fun _ _ => by rw [hn₁]) (fun _ _ => by rw [hp₁]) fun _ _ => by rw [hm.hashv]
    have hpush := hf₁.push hpD h0 (b := b) hbh (by rw [hm.hashv, hi]; exact hbc)
    rw [hm.hashv, hi] at hpush
    have hl₁ : NullList 0 (s₁.linked (new i).hhHead thh).hhNext (s.hhNext thh) rest := by
      refine hl.congr fun q hq => ?_
      rw [linked_hhNext_ne (by rintro rfl; exact hnodup hq), hn₁]
    have hn₂ (q : Nat) (hq : q ≠ thh) :
        (s₁.linked (new i).hhHead thh).hhNext q = s.hhNext q := by
      rw [linked_hhNext_ne hq, hn₁]
    have hm₂ : Moving s (s₁.linked (new i).hhHead thh) :=
      hm.trans ⟨linked_sameApp _ _ _, rfl, rfl, rfl⟩
    generalize s₁.linked _ thh = s₂ at *
    obtain ⟨s', new', hrun, hm', hf', hframe⟩ := ih (n := n) (D := fun q => q = thh ∨ D q) hl₁
      (by rw [List.length_cons] at hn; omega)
      (fun q hq => by
        rw [hm₂.alloc]
        refine ⟨(hrest q (List.mem_cons_of_mem _ hq)).1, ?_⟩
        rintro (rfl | hqD)
        · exact hnodup hq
        · exact (hrest q (List.mem_cons_of_mem _ hq)).2 hqD)
      (fun q hq => by
        rw [hm₂.alloc]
        rcases hq with rfl | hq
        · exact hpa
        · exact hD q hq)
      (by rw [hm₂.alloc]; exact hroom) (by rw [hm₂.numBuckets]; exact hpush)
    rw [hm₂.numBuckets] at hf'
    refine ⟨s', new', hrun, hm₂.trans hm', hf'.mono fun q => ?_, fun q hq => ?_⟩
    · rw [List.mem_cons, or_comm (a := q = thh), or_assoc]
    · rw [List.mem_cons, not_or] at hq
      rw [hframe q hq.2, hn₂ q hq.1]

/-- The chains of buckets `i` to `i + k` are moved. -/
theorem moveAll_spec {l : List Nat} {k i : Nat} (hl : ∀ p ∈ l, p ∈ s.alloc) (hn : l.length < n)
    (hroom : s.alloc.length < uintSize)
    (hold : ∀ j, i ≤ j → ∃ c, NullList 0 s.hhNext (s.tbl.buckets j).hhHead c ∧
      ∀ p, p ∈ c ↔ p ∈ l ∧ hashToBkt (s.hashv p) s.tbl.numBuckets = j)
    (hf : Filled s (2 * s.tbl.numBuckets) new
      fun p => p ∈ l ∧ hashToBkt (s.hashv p) s.tbl.numBuckets < i) :
    ∃ s' new', moveAll n k i s new = .ok (s', new') ∧ Moving s s' ∧
      Filled s' (2 * s.tbl.numBuckets) new'
        fun p => p ∈ l ∧ hashToBkt (s.hashv p) s.tbl.numBuckets < i + k := by
  induction k generalizing i s new with
  | zero => exact ⟨s, new, rfl, Moving.refl s, hf⟩
  | succ k ih =>
    obtain ⟨c, hc, hmem⟩ := hold i (Nat.le_refl i)
    have hlen : c.length ≤ l.length :=
      (hc.nodup.subperm fun p hp => ((hmem p).1 hp).1).length_le
    obtain ⟨s₁, new₁, hrun, hm, hf₁, hframe⟩ := moveChain_spec (n := n) hc (by omega)
      (fun p hp => ⟨hl p ((hmem p).1 hp).1, fun h => by have := (hmem p).1 hp; omega⟩)
      (fun p hp => hl p hp.1) hroom hf
    obtain ⟨s', new', hrun', hm', hf'⟩ := ih (i := i + 1) (s := s₁)
      (by rw [hm.alloc]; exact hl) (by rw [hm.alloc]; exact hroom)
      (by
        intro j hj
        obtain ⟨d, hd, hdmem⟩ := hold j (by omega)
        rw [hm.buckets, hm.hashv, hm.numBuckets]
        refine ⟨d, hd.congr fun q hq => hframe q fun hqc => ?_, hdmem⟩
        have hqi := ((hmem q).1 hqc).2
        have hqj := ((hdmem q).1 hq).2
        omega)
      (by
        rw [hm.numBuckets, hm.hashv]
        refine hf₁.mono fun q => ?_
        rw [hmem, Nat.lt_succ_iff_lt_or_eq]
        exact and_or_left.symm)
    rw [hm.numBuckets, hm.hashv] at hf'
    refine ⟨s', new', ?_, hm.trans hm', hf'.mono fun q => ?_⟩
    · rw [moveAll, hrun]
      exact hrun'
    · rw [show i + 1 + k = i + (k + 1) by omega]

end Env

/-- An entry more in bucket `i` makes the table expand. -/
def Env.expands (s : Env) (i : Nat) : Bool :=
  Env.crowded s.tbl { s.tbl.buckets i with count := incU (s.tbl.buckets i).count }

/-- The buckets of the table hold the entries `l`. -/
structure Spread (s : Env) (l : List Nat) : Prop where
  pow : s.tbl.numBuckets = 2 ^ s.tbl.log2NumBuckets
  small : s.tbl.numBuckets < uintSize
  live : ∀ p ∈ l, p ∈ s.alloc
  room : s.alloc.length < uintSize
  filled : Filled s s.tbl.numBuckets s.tbl.buckets (· ∈ l)

theorem takeBuckets_fields (t : HashTable) (new : Nat → Bucket) :
    (Env.takeBuckets t new).numBuckets = t.numBuckets * 2 ∧
      (Env.takeBuckets t new).log2NumBuckets = t.log2NumBuckets + 1 ∧
      (Env.takeBuckets t new).buckets = new ∧ (Env.takeBuckets t new).tail = t.tail ∧
      (Env.takeBuckets t new).numItems = t.numItems := by
  unfold Env.takeBuckets
  dsimp only
  split_ifs <;> exact ⟨rfl, rfl, rfl, rfl, rfl⟩

namespace Spread

variable {s : Env} {l : List Nat} {n p : Nat}

theorem pos (h : Spread s l) : 0 < s.tbl.numBuckets := by
  rw [h.pow]
  exact Nat.two_pow_pos _

theorem mono (h : Spread s l) {l' : List Nat} (hl : ∀ q, q ∈ l ↔ q ∈ l') : Spread s l' :=
  ⟨h.pow, h.small, fun q hq => h.live q ((hl q).2 hq), h.room, h.filled.mono hl⟩

/-- HASH_EXPAND_BUCKETS spreads the same entries over twice as many buckets. -/
theorem expand (h : Spread s l) (hn : l.length < n) (hwrap : 2 * s.tbl.numBuckets < uintSize) :
    ∃ s', s.expandBuckets n = .ok s' ∧ SameApp s s' ∧ Spread s' l := by
  have hold (j : Nat) : ∃ c, NullList 0 s.hhNext (s.tbl.buckets j).hhHead c ∧
      ∀ p, p ∈ c ↔ p ∈ l ∧ hashToBkt (s.hashv p) s.tbl.numBuckets = j := by
    obtain ⟨c, t, hc, -, hmem⟩ := h.filled j
    exact ⟨c, hc.fwd, hmem⟩
  have hempty : Filled s (2 * s.tbl.numBuckets) (fun _ => ⟨0, 0, 0⟩)
      fun p => p ∈ l ∧ hashToBkt (s.hashv p) s.tbl.numBuckets < 0 :=
    (Filled.empty _ _).mono fun p => by simp
  obtain ⟨s₁, new, hrun, hm, hf⟩ := Env.moveAll_spec (n := n) (k := s.tbl.numBuckets) (i := 0)
    (s := { s with tbl := { s.tbl with idealChainMaxlen := Env.ideal s.tbl, nonidealItems := 0 } })
    h.live hn h.room (fun j _ => hold j) hempty
  have hf₁ : Filled s₁ (2 * s.tbl.numBuckets) new (· ∈ l) := by
    refine hf.mono fun p => and_iff_left ?_
    rw [Nat.zero_add]
    exact hashToBkt_lt _ h.pos
  have hb := hm.numBuckets
  have hlog := hm.log2NumBuckets
  dsimp only at hb hlog hrun
  have hsame : SameApp s s₁ := (⟨rfl, rfl, rfl, rfl, rfl, rfl, rfl, rfl, rfl, rfl⟩ : SameApp s
    { s with tbl := { s.tbl with idealChainMaxlen := _, nonidealItems := 0 } }).trans hm.toSameApp
  obtain ⟨hnb, hlg, hbk, htail, hitems⟩ := takeBuckets_fields s₁.tbl new
  refine ⟨{ s₁ with tbl := Env.takeBuckets s₁.tbl new }, ?_, ⟨hsame.alloc, hsame.key, hsame.value,
    hsame.prev, hsame.next, hsame.keylen, hsame.hashv, hsame.envHashTable, htail.trans hsame.tail,
    hitems.trans hsame.numItems⟩, ?_, ?_, ?_, ?_, ?_⟩
  · unfold Env.expandBuckets
    rw [if_neg (by omega)]
    dsimp only
    rw [hrun]
    rfl
  · dsimp only
    rw [hnb, hlg, hb, hlog, h.pow, Nat.pow_succ]
  · dsimp only
    omega
  · dsimp only
    rw [hsame.alloc]
    exact h.live
  · dsimp only
    rw [hsame.alloc]
    exact h.room
  · dsimp only
    rw [hnb, hb, hbk, Nat.mul_comm]
    exact hf₁.congr (fun _ _ => rfl) (fun _ _ => rfl) fun _ _ => rfl

/-- The entry at `p` joins the others; then the table expands if its bucket is crowded. -/
theorem joined (h : Spread s l) (hp : p ∉ l) (h0 : p ≠ 0) (ha : p ∈ s.alloc) :
    ∃ s', SameApp s s' ∧ Spread s' (p :: l) ∧ s'.tbl.numBuckets = s.tbl.numBuckets ∧
      ∀ n, s.addToBkt n (s.bktOf p) p =
        if s.expands (s.bktOf p) then s'.expandBuckets n else .ok s' := by
  have hhead : (s.tbl.buckets (s.bktOf p)).hhHead ≠ 0 →
      (s.tbl.buckets (s.bktOf p)).hhHead ∈ s.alloc := by
    intro hne
    rcases h.filled.head (s.bktOf p) with hz | ⟨hin, -⟩
    · exact absurd hz hne
    · exact h.live _ hin
  refine ⟨(s.linked (s.tbl.buckets (s.bktOf p)).hhHead p).setBucket (s.bktOf p)
    { s.tbl.buckets (s.bktOf p) with count := incU (s.tbl.buckets (s.bktOf p)).count, hhHead := p },
    ⟨rfl, rfl, rfl, rfl, rfl, rfl, rfl, rfl, rfl, rfl⟩, ⟨h.pow, h.small, ?_, h.room, ?_⟩, rfl,
    fun n => ?_⟩
  · intro q hq
    rcases List.mem_cons.1 hq with rfl | hq
    · exact ha
    · exact h.live q hq
  · have hcount := incU_eq (h.filled.count_lt h.live h.room hp ha (s.bktOf p))
    exact ((h.filled.push hp h0 (b := { s.tbl.buckets (s.bktOf p) with
      count := incU (s.tbl.buckets (s.bktOf p)).count, hhHead := p }) rfl hcount).mono
      fun q => List.mem_cons.symm).congr (fun _ _ => rfl) (fun _ _ => rfl) fun _ _ => rfl
  · unfold Env.addToBkt
    dsimp only
    rw [Env.linkFirst_eq ha hhead]
    rfl

/-- HASH_ADD_TO_BKT adds an entry that was in no bucket. -/
theorem addToBkt (h : Spread s l) (hn : l.length + 1 < n) (hp : p ∉ l) (h0 : p ≠ 0)
    (ha : p ∈ s.alloc) (hwrap : s.expands (s.bktOf p) = true → 2 * s.tbl.numBuckets < uintSize) :
    ∃ s', s.addToBkt n (s.bktOf p) p = .ok s' ∧ SameApp s s' ∧ Spread s' (p :: l) := by
  obtain ⟨s₁, hsame, hspread, hnb, hcode⟩ := h.joined hp h0 ha
  rw [hcode]
  by_cases hexp : s.expands (s.bktOf p) = true
  · obtain ⟨s', hrun, hsame', hspread'⟩ := hspread.expand (n := n) hn (by rw [hnb]; exact hwrap hexp)
    rw [if_pos hexp]
    exact ⟨s', hrun, hsame.trans hsame', hspread'⟩
  · rw [if_neg hexp]
    exact ⟨s₁, rfl, hsame, hspread⟩

/-- An expansion past the largest number of buckets has no result. -/
theorem addToBkt_wrap (h : Spread s l) (hp : p ∉ l) (h0 : p ≠ 0) (ha : p ∈ s.alloc)
    (hexp : s.expands (s.bktOf p) = true) (hwrap : ¬ 2 * s.tbl.numBuckets < uintSize) :
    s.addToBkt n (s.bktOf p) p = .error .wrap := by
  obtain ⟨s₁, -, -, hnb, hcode⟩ := h.joined hp h0 ha
  rw [hcode, if_pos hexp]
  unfold Env.expandBuckets
  rw [if_pos (by rw [hnb]; omega)]

/-- HASH_DEL_IN_BKT takes the entry at `p` out of its chain. -/
theorem delInBkt (h : Spread s l) (hl : l.Nodup) (hp : p ∈ l) :
    ∃ s', s.delInBkt (s.bktOf p) p = .ok s' ∧ SameApp s s' ∧ Spread s' (l.erase p) := by
  obtain ⟨c, t, hc, hcount, hmem⟩ := h.filled (s.bktOf p)
  have hlive (q : Nat) (hq : q ∈ c) : q ∈ s.alloc := h.live q ((hmem q).1 hq).1
  have hlt : c.length < uintSize :=
    Nat.lt_of_le_of_lt (hc.fwd.nodup.subperm hlive).length_le h.room
  obtain ⟨c₁, c₂, rfl⟩ := List.append_of_mem ((hmem p).2 ⟨hp, rfl⟩)
  have hnodup := List.nodup_middle.1 hc.fwd.nodup
  have hpc := (List.nodup_cons.1 hnodup).1
  have hprev : s.hhPrev p ≠ 0 → s.hhPrev p ∈ c₁ := fun hne => hc.prev_mem.resolve_left hne
  have hnext : s.hhNext p ≠ 0 → s.hhNext p ∈ c₂ := fun hne => hc.next_mem.resolve_left hne
  have hprev' (hne : s.hhPrev p ≠ 0) : s.hhPrev p ∈ s.alloc ∧ s.hhPrev p ≠ p := by
    have hin := hprev hne
    refine ⟨hlive _ (List.mem_append_left _ hin), fun heq => hpc (List.mem_append_left _ ?_)⟩
    rw [heq] at hin
    exact hin
  have hcode := Env.delInBkt_eq (i := s.bktOf p) hprev' fun hne => hlive _ (by simp [hnext hne])
  refine ⟨_, hcode, ⟨rfl, rfl, rfl, rfl, rfl, rfl, rfl, rfl, rfl, rfl⟩, h.pow, h.small,
    fun q hq => h.live q (List.mem_of_mem_erase hq), h.room, fun j => ?_⟩
  by_cases hj : j = s.bktOf p
  · subst hj
    refine ⟨c₁ ++ c₂, if s.hhNext p ≠ 0 then t else s.hhPrev p, ?_, ?_, fun q => ?_⟩
    · have hhead : ((s.unlinked (s.bktOf p) p).tbl.buckets (s.bktOf p)).hhHead =
          if s.hhPrev p ≠ 0 then (s.tbl.buckets (s.bktOf p)).hhHead else s.hhNext p := by
        unfold Env.unlinked Env.setBucket
        dsimp only
        rw [Function.update_self]
        by_cases hne : s.hhPrev p ≠ 0
        · rw [if_pos hne, if_neg (fun heq => hne (hc.first_iff.1 heq))]
        · rw [if_neg hne, if_pos (hc.first_iff.2 (not_not.1 hne))]
      rw [hhead]
      exact hc.remove
    · unfold Env.unlinked Env.setBucket
      dsimp only
      rw [Function.update_self]
      rw [List.length_append, List.length_cons] at hlt hcount
      rw [hcount, decU_eq (by omega) (by omega), List.length_append]
      rfl
    · have hq := hmem q
      show q ∈ c₁ ++ c₂ ↔ q ∈ l.erase p ∧ hashToBkt (s.hashv q) s.tbl.numBuckets = s.bktOf p
      rw [List.mem_append, List.mem_cons] at hq
      rw [hl.mem_erase_iff, List.mem_append]
      constructor
      · intro hin
        have hqp : q ≠ p := fun heq => hpc (List.mem_append.2 (heq ▸ hin))
        obtain ⟨hql, hb⟩ := hq.1 (hin.imp_right .inr)
        exact ⟨⟨hqp, hql⟩, hb⟩
      · rintro ⟨⟨hqp, hql⟩, hb⟩
        exact (hq.2 ⟨hql, hb⟩).imp_right fun h => h.resolve_left hqp
  · -- the neighbours of `p` are in no other chain
    obtain ⟨d, u, hd, hdcount, hdmem⟩ := h.filled j
    have hother (q : Nat) (hq : q ∈ d) (hqc : q ∈ c₁ ++ p :: c₂) : False :=
      hj (((hdmem q).1 hq).2.symm.trans ((hmem q).1 hqc).2)
    refine ⟨d, u, ?_, ?_, fun q => ?_⟩
    · have hb : (s.unlinked (s.bktOf p) p).tbl.buckets j = s.tbl.buckets j :=
        Function.update_of_ne hj _ _
      rw [hb]
      exact hd.congr
        (fun q hq => Env.unlinked_hhNext_ne fun hne heq => hother q hq (by simp [heq, hprev hne]))
        fun q hq => Env.unlinked_hhPrev_ne fun hne heq => hother q hq (by simp [heq, hnext hne])
    · unfold Env.unlinked Env.setBucket
      dsimp only
      rw [Function.update_of_ne hj]
      exact hdcount
    · have hq := hdmem q
      show q ∈ d ↔ q ∈ l.erase p ∧ hashToBkt (s.hashv q) s.tbl.numBuckets = j
      rw [hl.mem_erase_iff]
      constructor
      · intro hin
        exact ⟨⟨fun heq => hother q hin (by simp [heq]), (hq.1 hin).1⟩, (hq.1 hin).2⟩
      · rintro ⟨⟨-, hql⟩, hb⟩
        exact hq.2 ⟨hql, hb⟩

end Spread

/-! ## Any buckets

Whatever the buckets hold, an operation on them leaves the order of insertion alone. -/

namespace Env

variable {s s' : Env} {n p : Nat} {new new' : Nat → Bucket}

theorem linkFirst_sameApp {hhHead : Nat} (h : s.linkFirst hhHead p = .ok s') : SameApp s s' := by
  obtain ⟨-, -, h⟩ := bind_ok h
  dsimp only at h
  split at h
  · obtain ⟨-, -, h⟩ := bind_ok h
    cases h
    exact ⟨rfl, rfl, rfl, rfl, rfl, rfl, rfl, rfl, rfl, rfl⟩
  · cases h
    exact ⟨rfl, rfl, rfl, rfl, rfl, rfl, rfl, rfl, rfl, rfl⟩

theorem moveChain_sameApp {thh : Nat} (h : moveChain n s new thh = .ok (s', new')) :
    SameApp s s' := by
  induction n generalizing s new thh with
  | zero => cases h
  | succ n ih =>
    unfold moveChain at h
    split at h
    · cases h
      exact SameApp.refl _
    · obtain ⟨-, -, h⟩ := bind_ok h
      obtain ⟨s₂, hlink, h⟩ := bind_ok h
      exact ((countIn_spec s _).1.toSameApp.trans (linkFirst_sameApp hlink)).trans (ih h)

theorem moveAll_sameApp {k i : Nat} (h : moveAll n k i s new = .ok (s', new')) : SameApp s s' := by
  induction k generalizing i s new with
  | zero =>
    cases h
    exact SameApp.refl _
  | succ k ih =>
    obtain ⟨⟨s₁, new₁⟩, hchain, h⟩ := bind_ok h
    exact (moveChain_sameApp hchain).trans (ih h)

theorem expandBuckets_sameApp (h : s.expandBuckets n = .ok s') : SameApp s s' := by
  unfold expandBuckets at h
  split at h
  · cases h
  · obtain ⟨⟨s₁, new⟩, hmove, h⟩ := bind_ok h
    cases h
    have hsame := moveAll_sameApp hmove
    obtain ⟨-, -, -, htail, hitems⟩ := takeBuckets_fields s₁.tbl new
    exact ⟨hsame.alloc, hsame.key, hsame.value, hsame.prev, hsame.next, hsame.keylen, hsame.hashv,
      hsame.envHashTable, htail.trans hsame.tail, hitems.trans hsame.numItems⟩

theorem addToBkt_sameApp {i : Nat} (h : s.addToBkt n i p = .ok s') : SameApp s s' := by
  obtain ⟨s₁, hlink, h⟩ := bind_ok h
  have hset (b : Bucket) : SameApp s (s₁.setBucket i b) :=
    (linkFirst_sameApp hlink).trans ⟨rfl, rfl, rfl, rfl, rfl, rfl, rfl, rfl, rfl, rfl⟩
  dsimp only at h
  split at h
  · exact (hset _).trans (expandBuckets_sameApp h)
  · cases h
    exact hset _

end Env

end OsBasics.Shell
