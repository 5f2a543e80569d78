/-
  The variable table over any sequence of `add` and `removeKey`.

  `Good` is what a table is to be: the allocated entries are exactly those on the
  insertion-order list and on their bucket's chain, once each, no pointer leads to a
  freed one, and `find` ends and gives every key its last value. `vars_good_iff`
  says that every state of a run is good exactly when no `add` is of a key that is
  there (and no counter of the table wraps): `add` puts the entry it found on both
  lists once more.
-/
import OsBasics.Shell.VarTable

namespace OsBasics.Shell

open OsBasics.Lib

/-! ## Calls and values -/

/-- A call; `new` is the address `malloc` gives, should `add` call it. -/
inductive Op where
  | add (key value : List UInt8) (new : Nat)
  | removeKey (key : List UInt8)
  deriving DecidableEq, Repr

/-- The values the keys are to have. -/
abbrev Vals := List UInt8 → Option (List UInt8)

/-- The value of a key is that of the last `add` since it was last removed. -/
def Op.apply (vals : Vals) : Op → Vals
  | .add key value _ => Function.update vals key (some value)
  | .removeKey key => Function.update vals key none

/-- A call, in a table that is to hold `vals`. -/
def callOp (n : Nat) (s : Env × Vals) (op : Op) : Except Fault (Env × Vals) :=
  match op with
  | .add key value new => (s.1.add n key value new).map fun t => (t, op.apply s.2)
  | .removeKey key => (s.1.removeKey n key).map fun out => (out.2, op.apply s.2)

/-- The strings fit the fields of an entry, and `malloc` gives memory that is not in use. -/
def Called (s : Env × Vals) : Op → Prop
  | .add key value new => key.length < commandSize ∧ value.length < commandSize ∧
      (s.2 key = none → new ≠ 0 ∧ new ∉ s.1.alloc)
  | .removeKey key => key.length < commandSize

/-- `add` is of a key that is not there, and the counters of the table have room for it. -/
def NewKey (s : Env × Vals) : Op → Prop
  | .add key _ _ => s.2 key = none ∧ s.1.Fits key
  | .removeKey _ => True

instance (s : Env) (key : List UInt8) : Decidable (s.Fits key) :=
  inferInstanceAs (Decidable (_ → _ ∧ (_ → _)))

instance (s : Env × Vals) : (op : Op) → Decidable (Called s op)
  | .add key value new => inferInstanceAs (Decidable (key.length < commandSize ∧
      value.length < commandSize ∧ (s.2 key = none → new ≠ 0 ∧ new ∉ s.1.alloc)))
  | .removeKey key => inferInstanceAs (Decidable (key.length < commandSize))

instance (s : Env × Vals) : (op : Op) → Decidable (NewKey s op)
  | .add key _ _ => inferInstanceAs (Decidable (s.2 key = none ∧ s.1.Fits key))
  | .removeKey _ => .isTrue trivial

/-! ## What a table is to be -/

/-- A pointer to an allocated entry, or NULL. -/
def Env.Live (s : Env) (p : Nat) : Prop := p = 0 ∨ p ∈ s.alloc

/-- The table holds `vals`, and its lists hold every entry once. -/
structure Good (n : Nat) (s : Env × Vals) : Prop where
  entries : ∃ l, NullList 0 s.1.next s.1.envHashTable l ∧ l.Nodup ∧ ∀ p, p ∈ l ↔ p ∈ s.1.alloc
  chains : s.1.envHashTable ≠ 0 → ∀ i, i < s.1.tbl.numBuckets →
    ∃ c, NullList 0 s.1.hhNext (s.1.tbl.buckets i).hhHead c ∧ c.Nodup ∧
      ∀ p, p ∈ c ↔ p ∈ s.1.alloc ∧ s.1.bktOf p = i
  pointers : ∀ p ∈ s.1.alloc, s.1.Live (s.1.next p) ∧ s.1.Live (s.1.prev p) ∧
    s.1.Live (s.1.hhNext p) ∧ s.1.Live (s.1.hhPrev p)
  tail : s.1.envHashTable ≠ 0 → s.1.tbl.tail ∈ s.1.alloc
  found : ∀ key, key.length < uintSize → ∃ p, s.1.find n key = .ok p ∧
    (s.2 key = none → p = 0) ∧ ∀ value, s.2 key = some value →
      p ≠ 0 ∧ p ∈ s.1.alloc ∧ s.1.key p = key ∧ s.1.value p = value

/-- The entries `l` have the keys and values `vals`. -/
def Holds (s : Env) (l : List Nat) (vals : Vals) : Prop :=
  (∀ p ∈ l, vals (s.key p) = some (s.value p)) ∧
    ∀ key value, vals key = some value → ∃ p ∈ l, s.key p = key

/-- A sound table with at most `n - k` entries, so that `k` more leave its walks in bounds. -/
def Sound (n k : Nat) (s : Env × Vals) : Prop :=
  ∃ l, Inv s.1 l ∧ Holds s.1 l s.2 ∧ l.length + k < n

/-! ## Sound tables are good -/

section Steps

variable {s s' : Env} {l : List Nat} {vals : Vals} {n k p new : Nat} {key value : List UInt8}

theorem Holds.none_iff (h : Holds s l vals) : vals key = none ↔ ∀ p ∈ l, s.key p ≠ key := by
  constructor
  · intro hnone p hp heq
    have hsome := h.1 p hp
    rw [heq, hnone] at hsome
    cases hsome
  · intro hall
    cases hv : vals key with
    | none => rfl
    | some value =>
      obtain ⟨p, hp, heq⟩ := h.2 key value hv
      exact absurd heq (hall p hp)

theorem Inv.live_of_or (h : Inv s l) (hq : p = 0 ∨ p ∈ l) : s.Live p :=
  hq.imp_right h.mem_alloc.2

theorem Inv.pointers (h : Inv s l) (hp : p ∈ l) :
    s.Live (s.next p) ∧ s.Live (s.prev p) ∧ s.Live (s.hhNext p) ∧ s.Live (s.hhPrev p) := by
  obtain ⟨c, t, hc, -, hmem⟩ := (h.spread (List.ne_nil_of_mem hp)).filled (s.bktOf p)
  have hpc : p ∈ c := (hmem p).2 ⟨hp, rfl⟩
  have hsub (q : Nat) (hq : q ∈ c) : q ∈ l := ((hmem q).1 hq).1
  refine ⟨h.live_of_or (h.app.fwd.next_mem hp), h.live_of_or ?_,
    h.live_of_or ((hc.fwd.next_mem hpc).imp_right (hsub _)), h.live_of_or ?_⟩
  · exact (h.app.bwd.next_mem (List.mem_reverse.2 hp)).imp_right List.mem_reverse.1
  · exact (hc.bwd.next_mem (List.mem_reverse.2 hpc)).imp_right
      fun hq => hsub _ (List.mem_reverse.1 hq)

theorem Sound.good (h : Sound n k (s, vals)) : Good n (s, vals) := by
  obtain ⟨l, hinv, hholds, hn⟩ := h
  dsimp only at hinv hholds
  refine ⟨⟨l, hinv.app.fwd, hinv.nodup, fun p => hinv.mem_alloc.symm⟩, fun hne i _ => ?_,
    fun p hp => hinv.pointers (hinv.mem_alloc.1 hp),
    fun hne => hinv.mem_alloc.2 (hinv.tail_mem (mt hinv.head_eq_zero.2 hne)), fun key hkey => ?_⟩
  · obtain ⟨c, t, hc, -, hmem⟩ := (hinv.spread (mt hinv.head_eq_zero.2 hne)).filled i
    refine ⟨c, hc.fwd, hc.fwd.nodup, fun p => ?_⟩
    rw [hmem, hinv.mem_alloc]
    rfl
  · obtain ⟨p, hfind, hp⟩ := hinv.find_spec hkey (n := n) (by omega)
    refine ⟨p, hfind, fun hnone => ?_, fun value hsome => ?_⟩
    · rcases hp with ⟨hp, -⟩ | ⟨hp, heq⟩
      · exact hp
      · exact absurd heq (hholds.none_iff.1 hnone p hp)
    · change vals key = some value at hsome
      rcases hp with ⟨-, hnone⟩ | ⟨hp, heq⟩
      · rw [hholds.none_iff.2 hnone] at hsome
        cases hsome
      · have hval := hholds.1 p hp
        rw [heq, hsome] at hval
        exact ⟨hinv.ne_zero hp, hinv.mem_alloc.2 hp, heq, (Option.some.inj hval).symm⟩

/-! ## One call -/

theorem Holds.add (h : Holds s l vals) (hfresh : new ∉ l) (hnone : vals key = none)
    (hk : s'.key = Function.update s.key new key)
    (hv : s'.value = Function.update s.value new value) :
    Holds s' (l ++ [new]) (Function.update vals key (some value)) := by
  have hkeys := h.none_iff.1 hnone
  have hold (p : Nat) (hp : p ∈ l) : p ≠ new := by
    rintro rfl
    exact hfresh hp
  constructor
  · intro p hp
    rw [hk, hv]
    rcases List.mem_append.1 hp with hp | hp
    · rw [Function.update_of_ne (hold p hp), Function.update_of_ne (hold p hp),
        Function.update_of_ne (hkeys p hp)]
      exact h.1 p hp
    · rw [List.mem_singleton.1 hp, Function.update_self, Function.update_self,
        Function.update_self]
  · intro key' value' hval
    rw [hk]
    by_cases heq : key' = key
    · exact ⟨new, by simp, by rw [Function.update_self, heq]⟩
    · rw [Function.update_of_ne heq] at hval
      obtain ⟨p, hp, hpk⟩ := h.2 key' value' hval
      exact ⟨p, List.mem_append_left _ hp, by rw [Function.update_of_ne (hold p hp), hpk]⟩

theorem Holds.removeKey (h : Holds s l vals) (hinv : Inv s l) (hp : p ∈ l) (hk : s'.key = s.key)
    (hv : s'.value = s.value) :
    Holds s' (l.erase p) (Function.update vals (s.key p) none) := by
  constructor
  · intro q hq
    obtain ⟨hqp, hql⟩ := hinv.nodup.mem_erase_iff.1 hq
    rw [hk, hv, Function.update_of_ne fun heq => hqp (hinv.eq_of_key hql hp heq)]
    exact h.1 q hql
  · intro key' value' hval
    by_cases heq : key' = s.key p
    · rw [heq, Function.update_self] at hval
      cases hval
    · rw [Function.update_of_ne heq] at hval
      obtain ⟨q, hq, hqk⟩ := h.2 key' value' hval
      refine ⟨q, hinv.nodup.mem_erase_iff.2 ⟨?_, hq⟩, by rw [hk, hqk]⟩
      rintro rfl
      exact heq hqk.symm

/-- A call with a new key, or a removal, keeps the table sound. -/
theorem Sound.step {s : Env × Vals} {op : Op} (h : Sound n (k + 1) s) (hcall : Called s op)
    (hnew : NewKey s op) : ∃ s', callOp n s op = .ok s' ∧ Sound n k s' := by
  obtain ⟨s, vals⟩ := s
  obtain ⟨l, hinv, hholds, hn⟩ := h
  dsimp only at hinv hholds
  cases op with
  | add key value new =>
    obtain ⟨hkey, hvalue, hmalloc⟩ := hcall
    obtain ⟨hnone, hfit⟩ := hnew
    obtain ⟨h0, hfresh⟩ := hmalloc hnone
    have hkeys := hholds.none_iff.1 hnone
    obtain ⟨s', hadd, hinv', hk', hv'⟩ :=
      hinv.add_new (n := n) (by omega) hkey hvalue hkeys h0 hfresh hfit
    have hnl := mt hinv.mem_alloc.2 hfresh
    refine ⟨(s', _), ?_, l ++ [new], hinv', hholds.add hnl hnone hk' hv', ?_⟩
    · unfold callOp
      dsimp only
      rw [hadd]
      rfl
    · rw [List.length_append, List.length_singleton]
      omega
  | removeKey key =>
    cases hv : vals key with
    | none =>
      have hrun := hinv.removeKey_none (n := n) (by omega) (Nat.lt_trans hcall (by decide))
        (hholds.none_iff.1 hv)
      refine ⟨(s, vals), ?_, l, hinv, hholds, by omega⟩
      have hsame : Function.update vals key none = vals := by
        rw [← hv]
        exact Function.update_eq_self key vals
      unfold callOp Op.apply
      dsimp only
      rw [hrun, hsame]
      rfl
    | some value =>
      obtain ⟨p, hp, rfl⟩ := hholds.2 key value hv
      obtain ⟨s', hrun, hinv', hk', hv'⟩ := hinv.removeKey_some (n := n) (by omega) hp
      refine ⟨(s', _), ?_, l.erase p, hinv', hholds.removeKey hinv hp hk' hv', ?_⟩
      · unfold callOp
        dsimp only
        rw [hrun]
        rfl
      · rw [List.length_erase_of_mem hp]
        omega

/-- A call of `add` with an old key, or one that does not fit, leaves no good table. -/
theorem Sound.not_good {s s' : Env × Vals} {op : Op} (h : Sound n (k + 1) s) (hcall : Called s op)
    (hnew : ¬ NewKey s op) (hstep : callOp n s op = .ok s') : ¬ Good n s' := by
  obtain ⟨s, vals⟩ := s
  obtain ⟨l, hinv, hholds, hn⟩ := h
  dsimp only at hinv hholds
  cases op with
  | removeKey key => exact absurd trivial hnew
  | add key value new =>
    obtain ⟨hkey, hvalue, hmalloc⟩ := hcall
    unfold callOp at hstep
    dsimp only at hstep
    cases hrun : s.add n key value new with
    | error e =>
      rw [hrun] at hstep
      cases hstep
    | ok t =>
      rw [hrun] at hstep
      cases hstep
      intro hgood
      cases hv : vals key with
      | none =>
        obtain ⟨h0, hfresh⟩ := hmalloc hv
        have hunfit : ¬ s.Fits key := fun hfit => hnew ⟨hv, hfit⟩
        rw [hinv.add_unfit (by omega) hkey hvalue (hholds.none_iff.1 hv) h0 hfresh hunfit] at hrun
        cases hrun
      | some old =>
        obtain ⟨p, hp, rfl⟩ := hholds.2 key old hv
        obtain ⟨l', hl', -, hmem⟩ := hgood.entries
        exact hinv.add_old (by omega) hp hrun ⟨l', hl', hmem⟩

end Steps

/-! ## Runs -/

/-- Every state of a run from the empty table is good exactly when every `add` of the run is of a
    key that is not there then, and fits. -/
theorem vars_good_iff {n : Nat} {s : Env} {ops : List Op} (halloc : s.alloc = [])
    (hhead : s.envHashTable = 0) (hn : ops.length < n)
    (hcalls : Each (callOp n) Called (s, fun _ => none) ops) :
    Always (callOp n) (Good n) (s, fun _ => none) ops ↔
      Each (callOp n) NewKey (s, fun _ => none) ops := by
  refine always_iff_each (I := Sound n) (fun k s h => h.good) (fun k s op h hd hc => h.step hd hc)
    (fun k s op h hd hc s' hstep => h.not_good hd hc hstep) ?_ hcalls
  exact ⟨[], Inv.empty halloc hhead, ⟨by simp, fun _ _ h => by cases h⟩, by simpa using hn⟩

/-- Memory before the first call. -/
def Env.start : Env where
  alloc := []
  key := fun _ => []
  value := fun _ => []
  prev := fun _ => 0
  next := fun _ => 0
  hhPrev := fun _ => 0
  hhNext := fun _ => 0
  keylen := fun _ => 0
  hashv := fun _ => 0
  envHashTable := 0
  tbl := Env.makeTable 0

/-- Two variables; one is unset and set again, in the memory that was freed. -/
theorem vars_good_two : Always (callOp 5) (Good 5) (Env.start, fun _ => none)
    [.add [97] [49] 1, .add [98] [50] 2, .removeKey [97], .add [97] [51] 1] :=
  (vars_good_iff rfl rfl (by decide) (by decide +kernel)).2 (by decide +kernel)

/-- A variable is set twice: its entry comes after itself. -/
theorem vars_set_twice : Each (callOp 3) Called (Env.start, fun _ => none)
      [.add [97] [49] 1, .add [97] [50] 2] ∧
    ¬ Always (callOp 3) (Good 3) (Env.start, fun _ => none)
      [.add [97] [49] 1, .add [97] [50] 2] := by
  refine ⟨by decide +kernel, ?_⟩
  rintro ⟨-, s₁, hadd₁, -, s₂, hadd₂, hgood⟩
  have hrun : (callOp 3 (Env.start, fun _ => none) (.add [97] [49] 1) >>= fun s =>
      callOp 3 s (.add [97] [50] 2)).map (fun s => (s.1.envHashTable, s.1.next 1, s.1.alloc)) =
        .ok (1, 1, [1]) := by
    decide +kernel
  rw [hadd₁] at hrun
  have hlinks := (congrArg (Except.map _) hadd₂).symm.trans hrun
  obtain ⟨hhead, hnext, halloc⟩ : s₂.1.envHashTable = 1 ∧ s₂.1.next 1 = 1 ∧ s₂.1.alloc = [1] := by
    simpa [Except.map] using hlinks
  obtain ⟨l, hl, -, hmem⟩ := hgood.entries
  rw [hhead] at hl
  exact hl.next_ne_head ((hmem 1).2 (by rw [halloc]; exact List.mem_cons_self)) hnext

end OsBasics.Shell
