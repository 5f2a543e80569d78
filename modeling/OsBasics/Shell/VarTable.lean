/-
  `find`, `add` and `removeKey` on a sound variable table.

  `Inv s l` says that the allocated entries are `l`, in the order of insertion:
  `prev` and `next` link them in this order, their keys differ, and the buckets hold
  them (`Spread`). `find` then finds the entry of a key (`find_spec`); adding a key
  that is not there (`add_new`) and removing one (`removeKey_spec`) keep this.
  Adding a key that is there puts its entry on the list a second time, and what is
  left is no list of all entries (`add_old`).
-/
import OsBasics.Shell.Buckets

namespace OsBasics.Shell

open OsBasics.Lib

/-- The entries of the table are `l`, and it is sound. -/
structure Inv (s : Env) (l : List Nat) : Prop where
  live : l.Perm s.alloc
  app : DList 0 s.next s.prev s.envHashTable (if l = [] then 0 else s.tbl.tail) l
  keys : (l.map s.key).Nodup
  entry : ∀ p ∈ l, s.keylen p = (s.key p).length ∧ s.hashv p = hashJen (s.key p) ∧
    (s.key p).length < commandSize
  spread : l ≠ [] → Spread s l
  items : l ≠ [] → s.tbl.numItems = l.length

namespace Inv

variable {s s' : Env} {l : List Nat} {n p : Nat} {k v : List UInt8}

theorem nodup (h : Inv s l) : l.Nodup := h.app.fwd.nodup

theorem ne_zero (h : Inv s l) (hp : p ∈ l) : p ≠ 0 := h.app.fwd.ne_null hp

theorem mem_alloc (h : Inv s l) : p ∈ s.alloc ↔ p ∈ l := h.live.mem_iff.symm

theorem head_eq_zero (h : Inv s l) : s.envHashTable = 0 ↔ l = [] := by
  constructor
  · intro h0
    have hnull := h.app.fwd
    rw [h0] at hnull
    exact hnull.nil_of_null
  · rintro rfl
    exact h.app.fwd

theorem head_mem (h : Inv s l) (hl : l ≠ []) : s.envHashTable ∈ l := by
  obtain ⟨q, l, rfl⟩ := List.exists_cons_of_ne_nil hl
  rw [h.app.fwd.1]
  exact List.mem_cons_self

theorem tail_mem (h : Inv s l) (hl : l ≠ []) : s.tbl.tail ∈ l := by
  have hlast := h.app.bwd.head_eq
  rw [if_neg hl, List.head?_reverse, List.getLast?_eq_some_getLast hl, Option.getD_some] at hlast
  rw [hlast]
  exact List.getLast_mem hl

/-- Entries with one key are one entry. -/
theorem eq_of_key (h : Inv s l) {q : Nat} (hp : p ∈ l) (hq : q ∈ l) (heq : s.key p = s.key q) :
    p = q := List.inj_on_of_nodup_map h.keys hp hq heq

end Inv

/-- Before the first entry is added the table is sound. -/
theorem Inv.empty {s : Env} (halloc : s.alloc = []) (hhead : s.envHashTable = 0) : Inv s [] where
  live := by rw [halloc]
  app := by
    rw [hhead]
    exact DList.nil
  keys := List.nodup_nil
  entry := by simp
  spread := fun h => absurd rfl h
  items := fun h => absurd rfl h

/-! ## find -/

/-- What a search for the key `k` among the entries `c` is to give. -/
def Found (s : Env) (c : List Nat) (k : List UInt8) (p : Nat) : Prop :=
  p = 0 ∧ (∀ q ∈ c, s.key q ≠ k) ∨ p ∈ c ∧ s.key p = k

namespace Inv

variable {s s' : Env} {l c : List Nat} {n p out : Nat} {k v : List UInt8}

/-- The comparison HASH_FIND_IN_BKT makes is that of the keys. -/
theorem match_iff (h : Inv s l) (hp : p ∈ l) (hk : k.length < uintSize) :
    s.keylen p = k.length % uintSize ∧
      (s.key p).take (k.length % uintSize) = k.take (k.length % uintSize) ↔ s.key p = k := by
  obtain ⟨hlen, -, -⟩ := h.entry p hp
  rw [Nat.mod_eq_of_lt hk, hlen, List.take_length]
  constructor
  · rintro ⟨heq, htake⟩
    rw [← heq, List.take_length] at htake
    exact htake
  · rintro rfl
    exact ⟨rfl, List.take_length⟩

theorem findInBkt_spec (h : Inv s l) (hk : k.length < uintSize) (hc : NullList 0 s.hhNext out c)
    (hsub : ∀ q ∈ c, q ∈ l) (hn : c.length < n) :
    ∃ p, s.findInBkt k n out = .ok p ∧ Found s c k p := by
  induction c generalizing n out with
  | nil =>
    obtain ⟨n, rfl⟩ : ∃ m, n = m + 1 := ⟨n - 1, by rw [List.length_nil] at hn; omega⟩
    exact ⟨0, if_pos hc, .inl ⟨rfl, by simp⟩⟩
  | cons q c ih =>
    obtain ⟨n, rfl⟩ : ∃ m, n = m + 1 := ⟨n - 1, by omega⟩
    obtain ⟨rfl, h0, hc⟩ := hc
    have hout : out ∈ l := hsub out List.mem_cons_self
    rw [Env.findInBkt, if_neg h0, Env.touch_eq (h.mem_alloc.2 hout)]
    dsimp only [bind, Except.bind]
    by_cases hkey : s.key out = k
    · rw [if_pos ((h.match_iff hout hk).2 hkey)]
      exact ⟨out, rfl, .inr ⟨List.mem_cons_self, hkey⟩⟩
    · rw [if_neg fun hm => hkey ((h.match_iff hout hk).1 hm)]
      obtain ⟨p, hrun, hp⟩ := ih (n := n) hc (fun q hq => hsub q (List.mem_cons_of_mem _ hq))
        (by rw [List.length_cons] at hn; omega)
      refine ⟨p, hrun, ?_⟩
      rcases hp with ⟨rfl, hnone⟩ | ⟨hin, heq⟩
      · refine .inl ⟨rfl, fun q hq => ?_⟩
        rcases List.mem_cons.1 hq with rfl | hq
        · exact hkey
        · exact hnone q hq
      · exact .inr ⟨List.mem_cons_of_mem _ hin, heq⟩

/-- `find` ends, with the entry of the key or NULL. -/
theorem find_spec (h : Inv s l) (hk : k.length < uintSize) (hn : l.length < n) :
    ∃ p, s.find n k = .ok p ∧ Found s l k p := by
  unfold Env.find Env.hashFindStr
  by_cases hl : l = []
  · rw [if_pos (h.head_eq_zero.2 hl)]
    exact ⟨0, rfl, .inl ⟨rfl, by simp [hl]⟩⟩
  · rw [if_neg (mt h.head_eq_zero.1 hl), Env.touch_eq (h.mem_alloc.2 (h.head_mem hl))]
    dsimp only [bind, Except.bind]
    obtain ⟨c, t, hc, -, hmem⟩ := (h.spread hl).filled (hashToBkt (hashJen k) s.tbl.numBuckets)
    have hsub : ∀ q ∈ c, q ∈ l := fun q hq => ((hmem q).1 hq).1
    have hlen := (hc.fwd.nodup.subperm hsub).length_le
    obtain ⟨p, hrun, hp⟩ := h.findInBkt_spec hk hc.fwd hsub (n := n) (by omega)
    refine ⟨p, hrun, ?_⟩
    rcases hp with ⟨rfl, hnone⟩ | ⟨hin, heq⟩
    · refine .inl ⟨rfl, fun q hq heq => hnone q ((hmem q).2 ⟨hq, ?_⟩) heq⟩
      rw [(h.entry q hq).2.1, heq]
    · exact .inr ⟨hsub p hin, heq⟩

theorem find_none (h : Inv s l) (hk : k.length < uintSize) (hn : l.length < n)
    (hnone : ∀ q ∈ l, s.key q ≠ k) : s.find n k = .ok 0 := by
  obtain ⟨p, hrun, ⟨rfl, -⟩ | ⟨hp, heq⟩⟩ := h.find_spec hk hn
  · exact hrun
  · exact absurd heq (hnone p hp)

theorem find_some (h : Inv s l) (hn : l.length < n) (hp : p ∈ l) : s.find n (s.key p) = .ok p := by
  have hk : (s.key p).length < uintSize :=
    (h.entry p hp).2.2.trans (by decide)
  obtain ⟨q, hrun, ⟨rfl, hnone⟩ | ⟨hq, heq⟩⟩ := h.find_spec hk hn
  · exact absurd rfl (hnone p hp)
  · rw [hrun, h.eq_of_key hq hp heq]

end Inv

/-! ## add -/

namespace Env

/-- What `hookLast` does when its pointers are good. -/
def hooked (s : Env) (p : Nat) : Env :=
  if s.envHashTable = 0 then
    { s with prev := Function.update s.prev p 0, envHashTable := p, tbl := makeTable p }
  else
    { s with
      next := Function.update s.next s.tbl.tail p
      prev := Function.update s.prev p s.tbl.tail
      tbl := { s.tbl with tail := p } }

theorem hookLast_eq {s : Env} {p : Nat}
    (hh : s.envHashTable ≠ 0 → s.envHashTable ∈ s.alloc ∧ s.tbl.tail ∈ s.alloc) :
    s.hookLast p = .ok (s.hooked p) := by
  unfold hookLast hooked
  by_cases h0 : s.envHashTable = 0
  · rw [if_pos h0, if_pos h0]
  · rw [if_neg h0, if_neg h0, touch_eq (hh h0).1, touch_eq (hh h0).2]
    rfl

theorem appendApp_eq {s : Env} {p : Nat} (hp : p ∈ s.alloc)
    (hh : s.envHashTable ≠ 0 → s.envHashTable ∈ s.alloc ∧ s.tbl.tail ∈ s.alloc) :
    s.appendApp p = ((s.openEntry p).hooked p).enrol p := by
  unfold appendApp
  rw [touch_eq hp, hookLast_eq (s := s.openEntry p) hh]
  rfl

/-- The state in which HASH_ADD_STR finds a new entry at `p`. -/
def newEntry (s : Env) (p : Nat) (k v : List UInt8) : Env :=
  { s with
    alloc := p :: s.alloc
    key := Function.update s.key p k
    value := Function.update s.value p v }

/-- What `enrol` does when `num_items` does not wrap. -/
def enrolled (s : Env) (p : Nat) : Env :=
  { s with
    tbl := { s.tbl with numItems := s.tbl.numItems + 1 }
    hashv := Function.update s.hashv p (hashJen (s.key p)) }

/-- The entry of a new key fits: the counters of the table do not wrap. -/
def Fits (s : Env) (key : List UInt8) : Prop :=
  s.envHashTable ≠ 0 → s.tbl.numItems + 1 < uintSize ∧
    (s.expands (hashToBkt (hashJen key) s.tbl.numBuckets) = true → 2 * s.tbl.numBuckets < uintSize)

end Env

namespace Inv

variable {s s' : Env} {l : List Nat} {n p : Nat} {k v : List UInt8}

/-- The new entry, before it is in a bucket. -/
def pending (s : Env) (p : Nat) (k v : List UInt8) : Env :=
  (((s.newEntry p k v).openEntry p).hooked p).enrolled p

/-- The order of insertion with a new entry. -/
theorem pending_app (h : Inv s l) (hp : p ∉ l) (h0 : p ≠ 0) :
    DList 0 (pending s p k v).next (pending s p k v).prev (pending s p k v).envHashTable
      (pending s p k v).tbl.tail (l ++ [p]) := by
  by_cases hl : l = []
  · have hhead := h.head_eq_zero.2 hl
    subst hl
    unfold pending Env.enrolled Env.hooked
    rw [if_pos (show ((s.newEntry p k v).openEntry p).envHashTable = 0 from hhead)]
    exact ⟨⟨rfl, h0, Function.update_self ..⟩, ⟨rfl, h0, Function.update_self ..⟩⟩
  · have hhead := mt h.head_eq_zero.1 hl
    have happ := h.app
    rw [if_neg hl] at happ
    unfold pending Env.enrolled Env.hooked
    rw [if_neg (show ((s.newEntry p k v).openEntry p).envHashTable ≠ 0 from hhead)]
    exact happ.pushBack hl hp h0

theorem pending_tbl (h : Inv s l) (hl : l ≠ []) :
    (pending s p k v).tbl = { s.tbl with tail := p, numItems := s.tbl.numItems + 1 } := by
  unfold pending Env.enrolled Env.hooked
  rw [if_neg (show ((s.newEntry p k v).openEntry p).envHashTable ≠ 0 from mt h.head_eq_zero.1 hl)]
  rfl

theorem pending_tbl_first (h : Inv s []) :
    (pending s p k v).tbl = { Env.makeTable p with numItems := 1 } := by
  unfold pending Env.enrolled Env.hooked
  rw [if_pos (show ((s.newEntry p k v).openEntry p).envHashTable = 0 from h.head_eq_zero.2 rfl)]
  rfl

theorem pending_key (s : Env) (p : Nat) (k v : List UInt8) :
    (pending s p k v).alloc = p :: s.alloc ∧ (pending s p k v).key = Function.update s.key p k ∧
      (pending s p k v).value = Function.update s.value p v := by
  unfold pending Env.enrolled Env.hooked
  split <;> exact ⟨rfl, rfl, rfl⟩

theorem pending_hash (s : Env) (p : Nat) (k v : List UInt8) :
    (pending s p k v).keylen = Function.update s.keylen p k.length ∧
      (pending s p k v).hashv = Function.update s.hashv p (hashJen k) ∧
      (pending s p k v).hhNext = s.hhNext ∧ (pending s p k v).hhPrev = s.hhPrev := by
  have hkey : (s.newEntry p k v).key p = k := Function.update_self ..
  unfold pending Env.enrolled Env.hooked Env.openEntry
  rw [hkey]
  split <;> exact ⟨rfl, congrArg (fun b => Function.update s.hashv p (hashJen b)) hkey, rfl, rfl⟩

theorem pending_bktOf (s : Env) (p : Nat) (k v : List UInt8) : (pending s p k v).bktOf p =
    hashToBkt (hashJen k) (pending s p k v).tbl.numBuckets := by
  obtain ⟨-, hhash, -, -⟩ := pending_hash s p k v
  unfold Env.bktOf
  rw [hhash, Function.update_self]

/-- The buckets hold the old entries. -/
theorem pending_spread (h : Inv s l) (hp : p ∉ l)
    (hitems : s.envHashTable ≠ 0 → s.tbl.numItems + 1 < uintSize) :
    Spread (pending s p k v) l := by
  obtain ⟨halloc, -, -⟩ := pending_key s p k v
  obtain ⟨-, hhash, hnext, hprev⟩ := pending_hash s p k v
  have hlen := h.live.length_eq
  by_cases hl : l = []
  · subst hl
    have htbl := h.pending_tbl_first (p := p) (k := k) (v := v)
    rw [List.length_nil] at hlen
    refine ⟨?_, ?_, by simp, ?_, ?_⟩
    · rw [htbl]
      rfl
    · rw [htbl]
      exact (by decide : 32 < uintSize)
    · rw [halloc, List.length_cons, ← hlen]
      decide
    · rw [htbl]
      exact (Filled.empty _ _).mono (by simp)
  · have htbl := h.pending_tbl (p := p) (k := k) (v := v) hl
    have hspread := h.spread hl
    have hroom := hitems (mt h.head_eq_zero.1 hl)
    rw [h.items hl] at hroom
    refine ⟨?_, ?_, fun q hq => ?_, ?_, ?_⟩
    · rw [htbl]
      exact hspread.pow
    · rw [htbl]
      exact hspread.small
    · rw [halloc]
      exact List.mem_cons_of_mem _ (hspread.live q hq)
    · rw [halloc, List.length_cons, ← hlen]
      exact hroom
    · rw [htbl]
      refine hspread.filled.congr (fun q _ => by rw [hnext]) (fun q _ => by rw [hprev]) fun q hq => ?_
      rw [hhash]
      exact Function.update_of_ne (by rintro rfl; exact hp hq) _ _

/-- The table with the pending entry is to expand when the one before it was; a new one is
    not. -/
theorem pending_expands (h : Inv s l) :
    ((pending s p k v).expands ((pending s p k v).bktOf p) = true →
      2 * (pending s p k v).tbl.numBuckets < uintSize) ↔ (s.envHashTable ≠ 0 →
        s.expands (hashToBkt (hashJen k) s.tbl.numBuckets) = true →
          2 * s.tbl.numBuckets < uintSize) := by
  rw [pending_bktOf]
  by_cases hl : l = []
  · have hhead := h.head_eq_zero.2 hl
    subst hl
    refine iff_of_true (fun _ => ?_) fun hne => absurd hhead hne
    rw [h.pending_tbl_first]
    exact (by decide : 2 * 32 < uintSize)
  · rw [h.pending_tbl hl, imp_iff_right (mt h.head_eq_zero.1 hl)]
    unfold Env.expands
    rw [h.pending_tbl hl]
    rfl

/-- `add` of a new key: the pending entry is put in a bucket, if it can be counted. -/
theorem add_pending (h : Inv s l) (hn : l.length < n) (hk : k.length < commandSize)
    (hv : v.length < commandSize) (hnone : ∀ q ∈ l, s.key q ≠ k) :
    s.add n k v p = if s.envHashTable ≠ 0 ∧ s.tbl.numItems + 1 ≥ uintSize then .error .wrap
      else (pending s p k v).addToBkt n ((pending s p k v).bktOf p) p := by
  have hfind := h.find_none (hk.trans (by decide)) hn hnone
  have hhead : s.envHashTable ≠ 0 → s.envHashTable ∈ p :: s.alloc ∧ s.tbl.tail ∈ p :: s.alloc := by
    intro hne
    have hl := mt h.head_eq_zero.2 hne
    exact ⟨List.mem_cons_of_mem _ (h.mem_alloc.2 (h.head_mem hl)),
      List.mem_cons_of_mem _ (h.mem_alloc.2 (h.tail_mem hl))⟩
  have happend : (s.newEntry p k v).appendApp p =
      if s.envHashTable ≠ 0 ∧ s.tbl.numItems + 1 ≥ uintSize then .error .wrap
      else .ok (pending s p k v) := by
    have hcount : (((s.newEntry p k v).openEntry p).hooked p).tbl.numItems + 1 ≥ uintSize ↔
        s.envHashTable ≠ 0 ∧ s.tbl.numItems + 1 ≥ uintSize := by
      unfold Env.hooked
      split
      · next h0 => exact iff_of_false (by decide : ¬ 0 + 1 ≥ uintSize) fun hand => hand.1 h0
      · next hne => exact (and_iff_right hne).symm
    rw [Env.appendApp_eq (s := s.newEntry p k v) List.mem_cons_self hhead]
    unfold Env.enrol
    simp only [hcount]
    rfl
  unfold Env.add
  rw [hfind]
  dsimp only [bind, Except.bind]
  rw [if_pos rfl]
  unfold Env.copyKey
  rw [if_pos hk]
  dsimp only
  unfold Env.copyValue
  rw [if_pos hv]
  dsimp only
  change ((s.newEntry p k v).appendApp p).bind (fun s => s.addToBkt n (s.bktOf p) p) = _
  rw [happend]
  split <;> rfl

/-- `add` of a key that is not there makes it the last entry. -/
theorem add_new (h : Inv s l) (hn : l.length + 1 < n) (hk : k.length < commandSize)
    (hv : v.length < commandSize) (hnone : ∀ q ∈ l, s.key q ≠ k) (h0 : p ≠ 0) (hp : p ∉ s.alloc)
    (hfit : s.Fits k) :
    ∃ s', s.add n k v p = .ok s' ∧ Inv s' (l ++ [p]) ∧ s'.key = Function.update s.key p k ∧
      s'.value = Function.update s.value p v := by
  have hpl : p ∉ l := mt h.mem_alloc.2 hp
  obtain ⟨halloc, hkey, hvalue⟩ := pending_key s p k v
  obtain ⟨hkeylen, hhash, -, -⟩ := pending_hash s p k v
  have hspread := h.pending_spread (k := k) (v := v) hpl fun hne => (hfit hne).1
  have hold (q : Nat) (hq : q ∈ l) : q ≠ p := by
    rintro rfl
    exact hpl hq
  obtain ⟨s', hrun, hsame, hspread'⟩ := hspread.addToBkt (n := n) hn hpl h0
    (by rw [halloc]; exact List.mem_cons_self) (h.pending_expands.2 fun hne => (hfit hne).2)
  have hne : l ++ [p] ≠ [] := by simp
  have hcode := h.add_pending (p := p) (n := n) (by omega) hk hv hnone
  rw [if_neg fun hand => absurd (hfit hand.1).1 (by omega), hrun] at hcode
  refine ⟨s', hcode,
    ⟨?_, ?_, ?_, ?_, fun _ => ?_, fun _ => ?_⟩, hsame.key.trans hkey, hsame.value.trans hvalue⟩
  · rw [hsame.alloc, halloc]
    exact (List.perm_append_singleton p l).trans (h.live.cons p)
  · rw [if_neg hne, hsame.next, hsame.prev, hsame.envHashTable, hsame.tail]
    exact h.pending_app hpl h0
  · have hmap : l.map (Function.update s.key p k) = l.map s.key :=
      List.map_congr_left fun q hq => Function.update_of_ne (hold q hq) _ _
    rw [hsame.key, hkey, List.map_append, hmap, List.map_singleton, Function.update_self]
    refine List.nodup_append.2 ⟨h.keys, List.nodup_singleton _, fun a ha b hb => ?_⟩
    obtain ⟨q, hq, rfl⟩ := List.mem_map.1 ha
    rw [List.mem_singleton.1 hb]
    exact hnone q hq
  · intro q hq
    rw [hsame.keylen, hsame.hashv, hsame.key, hkeylen, hhash, hkey]
    rcases List.mem_append.1 hq with hq | hq
    · rw [Function.update_of_ne (hold q hq), Function.update_of_ne (hold q hq),
        Function.update_of_ne (hold q hq)]
      exact h.entry q hq
    · rw [List.mem_singleton.1 hq, Function.update_self, Function.update_self, Function.update_self]
      exact ⟨rfl, rfl, hk⟩
  · exact hspread'.mono fun q => by rw [List.mem_cons, List.mem_append, List.mem_singleton, or_comm]
  · rw [hsame.numItems, List.length_append, List.length_singleton]
    by_cases hl : l = []
    · subst hl
      rw [h.pending_tbl_first]
      rfl
    · rw [h.pending_tbl hl]
      exact congrArg (· + 1) (h.items hl)

/-- `add` of a key that is not there and does not fit has no result. -/
theorem add_unfit (h : Inv s l) (hn : l.length < n) (hk : k.length < commandSize)
    (hv : v.length < commandSize) (hnone : ∀ q ∈ l, s.key q ≠ k) (h0 : p ≠ 0) (hp : p ∉ s.alloc)
    (hfit : ¬ s.Fits k) : s.add n k v p = .error .wrap := by
  have hpl : p ∉ l := mt h.mem_alloc.2 hp
  obtain ⟨hne, hfull⟩ := Classical.not_imp.1 hfit
  rw [h.add_pending hn hk hv hnone]
  by_cases hitems : s.tbl.numItems + 1 < uintSize
  · rw [if_neg fun hand => absurd hitems (by omega)]
    have hexp := mt (h.pending_expands (p := p) (v := v)).1 fun himp => hfull ⟨hitems, himp hne⟩
    obtain ⟨hexp, hwrap⟩ := Classical.not_imp.1 hexp
    obtain ⟨halloc, -, -⟩ := pending_key s p k v
    exact (h.pending_spread hpl fun _ => hitems).addToBkt_wrap hpl h0
      (by rw [halloc]; exact List.mem_cons_self) hexp hwrap
  · rw [if_pos ⟨hne, by omega⟩]

end Inv

namespace Inv

variable {s s' : Env} {l : List Nat} {n p new : Nat} {v : List UInt8}

/-- `add` of a key that is there puts its entry after the last one once more: the links from
    the head no longer lead through all entries. -/
theorem add_old (h : Inv s l) (hn : l.length < n) (hp : p ∈ l)
    (hadd : s.add n (s.key p) v new = .ok s') :
    ¬ ∃ l', NullList 0 s'.next s'.envHashTable l' ∧ ∀ q, q ∈ l' ↔ q ∈ s'.alloc := by
  rintro ⟨l', hl', hmem⟩
  have hne : l ≠ [] := List.ne_nil_of_mem hp
  have hhead := mt h.head_eq_zero.1 hne
  unfold Env.add at hadd
  rw [h.find_some hn hp] at hadd
  dsimp only [bind, Except.bind] at hadd
  rw [if_neg (h.ne_zero hp)] at hadd
  obtain ⟨s₁, hcopy, hadd⟩ := bind_ok hadd
  obtain ⟨s₂, happend, hadd⟩ := bind_ok hadd
  have hsame := Env.addToBkt_sameApp hadd
  -- the links after HASH_ADD_KEYPTR
  have hs₁ : s₁.alloc = s.alloc ∧ s₁.next = s.next ∧ s₁.envHashTable = s.envHashTable ∧
      s₁.tbl = s.tbl := by
    unfold Env.copyValue at hcopy
    split at hcopy
    · rw [← Except.ok.inj hcopy]
      exact ⟨rfl, rfl, rfl, rfl⟩
    · cases hcopy
  obtain ⟨halloc₁, hnext₁, hhead₁, htbl₁⟩ := hs₁
  rw [Env.appendApp_eq (by rw [halloc₁]; exact h.mem_alloc.2 hp) fun _ => by
    rw [halloc₁, hhead₁, htbl₁]
    exact ⟨h.mem_alloc.2 (h.head_mem hne), h.mem_alloc.2 (h.tail_mem hne)⟩] at happend
  have hlinks : s₂.next = Function.update (Function.update s.next p 0) s.tbl.tail p ∧
      s₂.envHashTable = s.envHashTable ∧ s₂.alloc = s.alloc := by
    unfold Env.enrol at happend
    split at happend
    · cases happend
    · rw [← Except.ok.inj happend, ← hnext₁, ← hhead₁, ← halloc₁, ← htbl₁]
      unfold Env.hooked
      rw [if_neg (show (s₁.openEntry p).envHashTable ≠ 0 by rw [← hhead₁] at hhead; exact hhead)]
      exact ⟨rfl, rfl, rfl⟩
  obtain ⟨hnext, hhead₂, halloc⟩ := hlinks
  rw [hsame.next, hsame.envHashTable, hnext, hhead₂] at hl'
  have hall (q : Nat) : q ∈ l' ↔ q ∈ l := by
    rw [hmem, hsame.alloc, halloc, h.mem_alloc]
  -- the tail leads to `p`, and so does the link or the head that led there before
  have htail := (hall _).2 (h.tail_mem hne)
  have hto : Function.update (Function.update s.next p 0) s.tbl.tail p s.tbl.tail = p :=
    Function.update_self ..
  obtain ⟨l₁, l₂, rfl⟩ := List.append_of_mem hp
  have happ := h.app
  rw [if_neg hne] at happ
  obtain rfl | ⟨l₁, y, rfl⟩ := List.eq_nil_or_concat l₁
  · have hfirst : s.envHashTable = p := happ.fwd.1
    rw [hfirst] at hl'
    exact hl'.next_ne_head htail hto
  · rw [List.concat_eq_append, List.append_assoc, List.singleton_append] at *
    have hlead : s.next y = p := happ.next_eq
    have hyp : y ≠ p := by
      rintro rfl
      exact (List.nodup_cons.1 happ.fwd.suffix.nodup).1 List.mem_cons_self
    have hytail : y ≠ s.tbl.tail := by
      intro heq
      exact h.ne_zero hp (hlead.symm.trans (happ.last_iff.1 heq.symm))
    have hyto : Function.update (Function.update s.next p 0) s.tbl.tail p y = p := by
      rw [Function.update_of_ne hytail, Function.update_of_ne hyp]
      exact hlead
    exact hytail (hl'.next_inj ((hall y).2 (by simp)) htail (hyto.trans hto.symm))

end Inv

/-! ## removeKey -/

/-- What `unhook` does when its pointers are good. -/
def Env.unhooked (s : Env) (p : Nat) : Env :=
  { s with
    next := if s.prev p ≠ 0 then Function.update s.next (s.prev p) (s.next p) else s.next
    prev := if s.next p ≠ 0 then Function.update s.prev (s.next p) (s.prev p) else s.prev
    envHashTable := if s.prev p ≠ 0 then s.envHashTable else s.next p
    tbl := if p = s.tbl.tail then { s.tbl with tail := s.prev p } else s.tbl }

theorem Env.unhooked_tbl (s : Env) (p : Nat) :
    (s.unhooked p).tbl.buckets = s.tbl.buckets ∧ (s.unhooked p).tbl.numBuckets = s.tbl.numBuckets ∧
      (s.unhooked p).tbl.log2NumBuckets = s.tbl.log2NumBuckets ∧
      (s.unhooked p).tbl.numItems = s.tbl.numItems := by
  unfold unhooked
  dsimp only
  split <;> exact ⟨rfl, rfl, rfl, rfl⟩

theorem Env.unhook_eq {s : Env} {p : Nat} (hp : s.prev p ≠ 0 → s.prev p ∈ s.alloc ∧ s.prev p ≠ p)
    (hn : s.next p ≠ 0 → s.next p ∈ s.alloc) (hh : (s.unhooked p).envHashTable ∈ s.alloc) :
    s.unhook p = .ok (s.unhooked p) := by
  have htail : (if p = s.tbl.tail then { s with tbl := { s.tbl with tail := s.prev p } } else s) =
      { s with tbl := if p = s.tbl.tail then { s.tbl with tail := s.prev p } else s.tbl } := by
    split <;> rfl
  unfold unhook
  rw [htail]
  unfold unhooked at hh ⊢
  dsimp only at hh ⊢
  generalize (if p = s.tbl.tail then { s.tbl with tail := s.prev p } else s.tbl) = t
  by_cases h1 : s.prev p ≠ 0
  · rw [if_pos h1] at hh
    have hlink : Function.update s.next (s.prev p) (s.next p) p = s.next p :=
      Function.update_of_ne (hp h1).2.symm _ _
    rw [if_pos h1, if_pos h1, if_pos h1, touch_eq (s := { s with tbl := t }) (hp h1).1]
    dsimp only [bind, Except.bind, pure, Except.pure]
    rw [touch_eq (s := { s with tbl := t, next := _ }) hh]
    simp only [hlink]
    by_cases h2 : s.next p ≠ 0
    · rw [if_pos h2, if_pos h2, touch_eq (s := { s with tbl := t, next := _ }) (hn h2)]
    · rw [if_neg h2, if_neg h2]
  · rw [if_neg h1] at hh
    rw [if_neg h1, if_neg h1, if_neg h1]
    dsimp only [bind, Except.bind, pure, Except.pure]
    rw [touch_eq (s := { s with tbl := t, envHashTable := s.next p }) hh]
    dsimp only
    by_cases h2 : s.next p ≠ 0
    · rw [if_pos h2, if_pos h2]
    · rw [if_neg h2, if_neg h2]

namespace Inv

variable {s s' : Env} {l l₁ l₂ : List Nat} {n p : Nat} {k v : List UInt8}

/-- The order of insertion without the entry at `p`. -/
theorem unhooked_app (h : Inv s (l₁ ++ p :: l₂)) :
    DList 0 (s.unhooked p).next (s.unhooked p).prev (s.unhooked p).envHashTable
      (s.unhooked p).tbl.tail (l₁ ++ l₂) := by
  have happ := h.app
  rw [if_neg (by simp)] at happ
  have htail : (s.unhooked p).tbl.tail = if s.next p ≠ 0 then s.tbl.tail else s.prev p := by
    unfold Env.unhooked
    dsimp only
    by_cases h0 : s.next p ≠ 0
    · rw [if_pos h0, if_neg fun heq => h0 (happ.last_iff.1 heq.symm)]
    · rw [if_neg h0, if_pos (happ.last_iff.2 (not_not.1 h0)).symm]
  rw [htail]
  exact happ.remove

theorem unhook_eq (h : Inv s (l₁ ++ p :: l₂)) (hl : l₁ ++ l₂ ≠ []) :
    s.unhook p = .ok (s.unhooked p) := by
  have happ := h.app
  rw [if_neg (by simp)] at happ
  have hlive (q : Nat) (hq : q ∈ l₁ ++ l₂) : q ∈ s.alloc ∧ q ≠ p := by
    have hpl := (List.nodup_cons.1 (List.nodup_middle.1 h.nodup)).1
    refine ⟨h.mem_alloc.2 ?_, by rintro rfl; exact hpl hq⟩
    rw [List.mem_append, List.mem_cons]
    exact (List.mem_append.1 hq).imp_right .inr
  refine Env.unhook_eq (fun hne => hlive _ ?_) (fun hne => (hlive _ ?_).1) (hlive _ ?_).1
  · exact List.mem_append_left _ (happ.prev_mem.resolve_left hne)
  · exact List.mem_append_right _ (happ.next_mem.resolve_left hne)
  · obtain ⟨q, l, hql⟩ := List.exists_cons_of_ne_nil hl
    have hhead := h.unhooked_app.fwd
    rw [hql] at hhead ⊢
    rw [hhead.1]
    exact List.mem_cons_self

/-- HASH_DEL takes the entry at `p` out of both lists. -/
theorem hashDel_spec (h : Inv s l) (hp : p ∈ l) :
    ∃ s', s.hashDel p = .ok s' ∧ Inv { s' with alloc := s'.alloc.erase p } (l.erase p) ∧
      s'.key = s.key ∧ s'.value = s.value := by
  have hne : l ≠ [] := List.ne_nil_of_mem hp
  have htouch : s.touch p = .ok () := Env.touch_eq (h.mem_alloc.2 hp)
  have htouch' : s.touch s.envHashTable = .ok () := Env.touch_eq (h.mem_alloc.2 (h.head_mem hne))
  have hspread := h.spread hne
  have hitems := h.items hne
  have hnodup := h.nodup
  have hlive := h.live.erase p
  have hkeys : ((l.erase p).map s.key).Nodup := h.keys.sublist (List.erase_sublist.map _)
  have hentry : ∀ q ∈ l.erase p, s.keylen q = (s.key q).length ∧ s.hashv q = hashJen (s.key q) ∧
      (s.key q).length < commandSize := fun q hq => h.entry q (List.mem_of_mem_erase hq)
  have hroom : l.length < uintSize := by
    rw [h.live.length_eq]
    exact hspread.room
  obtain ⟨l₁, l₂, rfl⟩ := List.append_of_mem hp
  have hpl := (List.nodup_cons.1 (List.nodup_middle.1 hnodup)).1
  have herase : (l₁ ++ p :: l₂).erase p = l₁ ++ l₂ := by
    rw [List.erase_append_right _ fun hin => hpl (List.mem_append_left _ hin), List.erase_cons_head]
  have happ := h.app
  rw [if_neg (by simp)] at happ
  unfold Env.hashDel
  rw [htouch, htouch']
  dsimp only [bind, Except.bind]
  by_cases hl : l₁ ++ l₂ = []
  · -- the table goes with its last entry
    obtain ⟨rfl, rfl⟩ := List.append_eq_nil_iff.1 hl
    rw [if_pos ⟨happ.prev_eq_null_iff.2 rfl, happ.next_eq_null_iff.2 rfl⟩]
    rw [herase] at hlive ⊢
    refine ⟨_, rfl, .empty ?_ rfl, rfl, rfl⟩
    exact hlive.symm.eq_nil
  · have hboth : ¬ (s.prev p = 0 ∧ s.next p = 0) := by
      rintro ⟨h1, h2⟩
      rw [happ.prev_eq_null_iff] at h1
      rw [happ.next_eq_null_iff] at h2
      exact hl (List.append_eq_nil_iff.2 ⟨h1, h2⟩)
    obtain ⟨hbk, hnb, hlog, hnum⟩ := Env.unhooked_tbl s p
    have hspread₁ : Spread (s.unhooked p) (l₁ ++ p :: l₂) := by
      refine ⟨?_, ?_, hspread.live, hspread.room, ?_⟩
      · rw [hnb, hlog]
        exact hspread.pow
      · rw [hnb]
        exact hspread.small
      · rw [hnb, hbk]
        exact hspread.filled.congr (fun _ _ => rfl) (fun _ _ => rfl) fun _ _ => rfl
    obtain ⟨s₂, hrun, hsame, hspread₂⟩ := hspread₁.delInBkt hnodup hp
    rw [if_neg hboth, h.unhook_eq hl]
    dsimp only
    rw [hrun]
    have hcount : decU s₂.tbl.numItems = (l₁ ++ p :: l₂).length - 1 := by
      rw [hsame.numItems, hnum, hitems, decU_eq hroom (List.length_pos_of_mem hp)]
    dsimp only [pure, Except.pure]
    rw [hcount]
    refine ⟨_, rfl, ⟨?_, ?_, ?_, fun q hq => ?_, fun _ => ?_, fun _ => ?_⟩, hsame.key, hsame.value⟩
    · show List.Perm _ (s₂.alloc.erase p)
      rw [hsame.alloc]
      exact hlive
    · rw [herase, if_neg hl]
      dsimp only
      rw [hsame.next, hsame.prev, hsame.envHashTable, hsame.tail]
      exact h.unhooked_app
    · show (List.map s₂.key _).Nodup
      rw [hsame.key]
      exact hkeys
    · show s₂.keylen q = (s₂.key q).length ∧ s₂.hashv q = hashJen (s₂.key q) ∧
        (s₂.key q).length < commandSize
      rw [hsame.keylen, hsame.hashv, hsame.key]
      exact hentry q hq
    · have halloc : s₂.alloc.erase p = s.alloc.erase p := by
        rw [hsame.alloc]
        rfl
      refine ⟨hspread₂.pow, hspread₂.small, fun q hq => ?_, ?_,
        hspread₂.filled.congr (fun _ _ => rfl) (fun _ _ => rfl) fun _ _ => rfl⟩
      · show q ∈ s₂.alloc.erase p
        rw [halloc]
        exact hlive.mem_iff.1 hq
      · show (s₂.alloc.erase p).length < uintSize
        rw [halloc]
        exact Nat.lt_of_le_of_lt (List.erase_sublist.length_le) hspread.room
    · exact (List.length_erase_of_mem hp).symm

/-- `removeKey` of a key that is there. -/
theorem removeKey_some (h : Inv s l) (hn : l.length < n) (hp : p ∈ l) :
    ∃ s', s.removeKey n (s.key p) = .ok (0, s') ∧ Inv s' (l.erase p) ∧ s'.key = s.key ∧
      s'.value = s.value := by
  obtain ⟨s₁, hrun, hinv, hkey, hvalue⟩ := h.hashDel_spec hp
  refine ⟨_, ?_, hinv, hkey, hvalue⟩
  unfold Env.removeKey
  rw [h.find_some hn hp]
  dsimp only [bind, Except.bind]
  rw [if_neg (h.ne_zero hp), hrun]
  rfl

/-- `removeKey` of a key that is not there changes nothing. -/
theorem removeKey_none (h : Inv s l) (hn : l.length < n) (hk : k.length < uintSize)
    (hnone : ∀ q ∈ l, s.key q ≠ k) : s.removeKey n k = .ok (1, s) := by
  unfold Env.removeKey
  rw [h.find_none hk hn hnone]
  rfl

end Inv

end OsBasics.Shell
