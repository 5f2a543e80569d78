/-
  Threads over one store, each with its own part of it.

  A thread is `Confined` when it writes only in its set `writes`, and what it does
  depends on the store only in its set `reads`. When no thread writes what another one
  reads (`Apart`), a thread does in every interleaving what it does alone from the
  first store (`interleave_solo`), so an interleaving that runs all the threads to
  their ends leaves the store that calling them one after another leaves
  (`calls_iff_of_interleave`), and a thread that would end alone can take a step at
  any moment of any interleaving until it has ended (`interleave_progress`).
-/
import Mathlib.Data.Set.BooleanAlgebra
import Mathlib.Data.Set.Function
import Mathlib.Order.CompletePartialOrder
import OsBasics.Lib.Runs

namespace OsBasics.Lib

universe u v

variable {ι σ κ ν : Type u} {ε : Type v}

/-! ## Runs -/

section Defs

variable (step : ι → σ × (κ → ν) → Except ε (σ × (κ → ν)))

/-- `n` steps of the thread `i` alone. -/
def solo (i : ι) : Nat → σ × (κ → ν) → Except ε (σ × (κ → ν))
  | 0, c => .ok c
  | n + 1, c => step i c >>= solo i n

/-- The threads take steps in the order of the list. -/
def interleave [DecidableEq ι] :
    (ι → σ) × (κ → ν) → List ι → Except ε ((ι → σ) × (κ → ν))
  | c, [] => .ok c
  | c, i :: is => do
    let (s, m) ← step i (c.1 i, c.2)
    interleave (Function.update c.1 i s, m) is

variable (Done : σ → Prop)

/-- The thread `i`, run alone from `s`, ends and leaves the store `m'`. -/
def Call (i : ι) (s : σ) (m m' : κ → ν) : Prop :=
  ∃ n s', solo step i n (s, m) = .ok (s', m') ∧ Done s'

/-- The threads of the list are run to their ends one after another. -/
def Calls (start : ι → σ) : List ι → (κ → ν) → (κ → ν) → Prop
  | [], m, m' => m' = m
  | i :: is, m, m' => ∃ m₁, Call step Done i (start i) m m₁ ∧ Calls start is m₁ m'

/-- The steps of `i` change the store only in `writes i`, and see it only in `reads i`. -/
structure Confined (reads writes : ι → Set κ) : Prop where
  frame : ∀ {i s m s' m'}, step i (s, m) = .ok (s', m') → Set.EqOn m' m (writes i)ᶜ
  agree : ∀ {i s m s' m' m₁}, step i (s, m) = .ok (s', m') → Set.EqOn m₁ m (reads i) →
    ∃ m₁', step i (s, m₁) = .ok (s', m₁') ∧ Set.EqOn m₁' m' (reads i)
  subset : ∀ i, writes i ⊆ reads i

end Defs

/-- No thread of the list writes what another one reads. -/
def Apart (reads writes : ι → Set κ) (is : List ι) : Prop :=
  ∀ i ∈ is, ∀ j ∈ is, i ≠ j → Disjoint (writes i) (reads j)

theorem Apart.eqOn {reads writes : ι → Set κ} {is : List ι} (hapart : Apart reads writes is)
    {i j : ι} (hi : i ∈ is) (hj : j ∈ is) (hne : i ≠ j) {m m' : κ → ν}
    (h : Set.EqOn m' m (writes i)ᶜ) : Set.EqOn m' m (reads j) :=
  h.mono fun _ hx hw => Set.disjoint_left.1 (hapart i hi j hj hne) hw hx

section Runs

variable {step : ι → σ × (κ → ν) → Except ε (σ × (κ → ν))} {Done : σ → Prop}
  {reads writes : ι → Set κ} {i : ι} {s s' : σ} {m m' m₁ : κ → ν}

theorem solo_succ {n : Nat} {c c' : σ × (κ → ν)} :
    solo step i (n + 1) c = .ok c' ↔ ∃ c₁, step i c = .ok c₁ ∧ solo step i n c₁ = .ok c' := by
  constructor
  · exact fun h => bind_ok h
  · rintro ⟨c₁, h₁, h⟩
    unfold solo
    rw [h₁]
    exact h

theorem solo_add {n k : Nat} {c c₁ c' : σ × (κ → ν)} (h₁ : solo step i n c = .ok c₁)
    (h : solo step i k c₁ = .ok c') : solo step i (n + k) c = .ok c' := by
  induction n generalizing c with
  | zero =>
    cases h₁
    rw [Nat.zero_add]
    exact h
  | succ n ih =>
    obtain ⟨c₂, h₂, h₁⟩ := solo_succ.1 h₁
    rw [Nat.succ_add]
    exact solo_succ.2 ⟨c₂, h₂, ih h₁⟩

/-! ## One thread -/

theorem Confined.solo_frame (hc : Confined step reads writes) {n : Nat}
    (h : solo step i n (s, m) = .ok (s', m')) : Set.EqOn m' m (writes i)ᶜ := by
  induction n generalizing s m with
  | zero =>
    cases h
    exact Set.eqOn_refl _ _
  | succ n ih =>
    obtain ⟨⟨s₁, m₁⟩, h₁, h⟩ := solo_succ.1 h
    exact (ih h).trans (hc.frame h₁)

theorem Confined.solo_agree (hc : Confined step reads writes) {n : Nat}
    (h : solo step i n (s, m) = .ok (s', m')) (heq : Set.EqOn m₁ m (reads i)) :
    ∃ m₁', solo step i n (s, m₁) = .ok (s', m₁') ∧ Set.EqOn m₁' m' (reads i) := by
  induction n generalizing s m m₁ with
  | zero =>
    cases h
    exact ⟨m₁, rfl, heq⟩
  | succ n ih =>
    obtain ⟨⟨s₂, m₂⟩, h₂, h⟩ := solo_succ.1 h
    obtain ⟨m₃, h₃, heq₃⟩ := hc.agree h₂ heq
    obtain ⟨m₁', h', heq'⟩ := ih h heq₃
    exact ⟨m₁', solo_succ.2 ⟨_, h₃, h'⟩, heq'⟩

/-- A thread that has ended takes no step, so it ends in one way. -/
theorem solo_unique (hdone : ∀ i s m c, Done s → step i (s, m) ≠ .ok c) {n k : Nat}
    {c c₁ c₂ : σ × (κ → ν)} (h₁ : solo step i n c = .ok c₁) (hd₁ : Done c₁.1)
    (h₂ : solo step i k c = .ok c₂) (hd₂ : Done c₂.1) : c₁ = c₂ := by
  induction n generalizing c k with
  | zero =>
    cases h₁
    cases k with
    | zero => exact Except.ok.inj h₂
    | succ k =>
      obtain ⟨c₃, h₃, -⟩ := solo_succ.1 h₂
      exact absurd h₃ (hdone i _ _ c₃ hd₁)
  | succ n ih =>
    obtain ⟨c₃, h₃, h₁⟩ := solo_succ.1 h₁
    cases k with
    | zero =>
      cases h₂
      exact absurd h₃ (hdone i _ _ c₃ hd₂)
    | succ k =>
      obtain ⟨c₄, h₄, h₂⟩ := solo_succ.1 h₂
      rw [h₃, Except.ok.injEq] at h₄
      subst h₄
      exact ih h₁ h₂

/-- A thread that ends later takes a step now. -/
theorem solo_next (hdone : ∀ i s m c, Done s → step i (s, m) ≠ .ok c) {n k : Nat}
    {c c₁ c₂ : σ × (κ → ν)} (h₁ : solo step i n c = .ok c₁) (hd₁ : Done c₁.1)
    (h₂ : solo step i k c = .ok c₂) (hlive : ¬ Done c₂.1) : ∃ c₃, step i c₂ = .ok c₃ := by
  induction k generalizing c n with
  | zero =>
    cases h₂
    cases n with
    | zero =>
      cases h₁
      exact absurd hd₁ hlive
    | succ n =>
      obtain ⟨c₃, h₃, -⟩ := solo_succ.1 h₁
      exact ⟨c₃, h₃⟩
  | succ k ih =>
    obtain ⟨c₃, h₃, h₂⟩ := solo_succ.1 h₂
    cases n with
    | zero =>
      cases h₁
      exact absurd h₃ (hdone i _ _ c₃ hd₁)
    | succ n =>
      obtain ⟨c₄, h₄, h₁⟩ := solo_succ.1 h₁
      rw [h₃, Except.ok.injEq] at h₄
      subst h₄
      exact ih h₁ h₂

theorem Call.unique (hdone : ∀ i s m c, Done s → step i (s, m) ≠ .ok c)
    (h₁ : Call step Done i s m m₁) (h₂ : Call step Done i s m m') : m₁ = m' := by
  obtain ⟨n, s₁, h₁, hd₁⟩ := h₁
  obtain ⟨k, s₂, h₂, hd₂⟩ := h₂
  exact congrArg Prod.snd (solo_unique hdone h₁ hd₁ h₂ hd₂)

theorem Calls.unique (hdone : ∀ i s m c, Done s → step i (s, m) ≠ .ok c) {start : ι → σ}
    {is : List ι} (h₁ : Calls step Done start is m m₁) (h₂ : Calls step Done start is m m') :
    m₁ = m' := by
  induction is generalizing m with
  | nil => exact h₁.trans h₂.symm
  | cons i is ih =>
    obtain ⟨m₂, hcall₂, h₁⟩ := h₁
    obtain ⟨m₃, hcall₃, h₂⟩ := h₂
    rw [hcall₂.unique hdone hcall₃] at h₁
    exact ih h₁ h₂

/-- Threads that end alone, each from the store `m`, end one after another as well. -/
theorem calls_of_solo (hc : Confined step reads writes) {start finish : ι → σ} {n : ι → Nat}
    {after : ι → κ → ν} {is : List ι} (hapart : Apart reads writes is)
    (hnodup : is.Nodup)
    (hsolo : ∀ i ∈ is, solo step i (n i) (start i, m) = .ok (finish i, after i))
    (hdone : ∀ i ∈ is, Done (finish i)) :
    ∃ m', Calls step Done start is m m' ∧ (∀ i ∈ is, Set.EqOn m' (after i) (reads i)) ∧
      ∀ x, (∀ i ∈ is, x ∉ writes i) → m' x = m x := by
  induction is generalizing m after with
  | nil => exact ⟨m, rfl, fun i hi => absurd hi List.not_mem_nil, fun _ _ => rfl⟩
  | cons i is ih =>
    obtain ⟨hnotin, hnodup⟩ := List.nodup_cons.1 hnodup
    have hi : i ∈ i :: is := List.mem_cons_self
    have hmem : ∀ j ∈ is, j ∈ i :: is := fun j hj => List.mem_cons_of_mem i hj
    have hne : ∀ j ∈ is, i ≠ j := fun j hj heq => hnotin (heq ▸ hj)
    have hframe := hc.solo_frame (hsolo i hi)
    -- the others find what they read as it was
    have hothers : ∀ j ∈ is, ∃ m₁, solo step j (n j) (start j, after i) = .ok (finish j, m₁) ∧
        Set.EqOn m₁ (after j) (reads j) := fun j hj =>
      hc.solo_agree (hsolo j (hmem j hj)) (hapart.eqOn hi (hmem j hj) (hne j hj) hframe)
    have : Nonempty (κ → ν) := ⟨m⟩
    choose! after' hsolo' heq' using hothers
    obtain ⟨m', hcalls, hreads, hrest⟩ :=
      ih (fun j hj k hk => hapart j (hmem j hj) k (hmem k hk)) hnodup hsolo'
        fun j hj => hdone j (hmem j hj)
    refine ⟨m', ⟨after i, ⟨n i, finish i, hsolo i hi, hdone i hi⟩, hcalls⟩, fun j hj => ?_, ?_⟩
    · rcases List.mem_cons.1 hj with rfl | hj
      · intro x hx
        refine hrest x fun k hk hw => ?_
        exact Set.disjoint_left.1 (hapart k (hmem k hk) j hi (hne k hk).symm) hw hx
      · exact (hreads j hj).trans (heq' j hj)
    · intro x hx
      rw [hrest x fun j hj => hx j (hmem j hj)]
      exact hframe (hx i hi)

end Runs

/-! ## All threads -/

section Threads

variable [DecidableEq ι] {step : ι → σ × (κ → ν) → Except ε (σ × (κ → ν))} {Done : σ → Prop}
  {reads writes : ι → Set κ} {is sched : List ι} {c c' : (ι → σ) × (κ → ν)}

theorem interleave_cons {i : ι} : interleave step c (i :: sched) = .ok c' ↔
    ∃ s m, step i (c.1 i, c.2) = .ok (s, m) ∧
      interleave step (Function.update c.1 i s, m) sched = .ok c' := by
  constructor
  · intro h
    obtain ⟨⟨s, m⟩, h₁, h⟩ := bind_ok h
    exact ⟨s, m, h₁, h⟩
  · rintro ⟨s, m, h₁, h⟩
    unfold interleave
    rw [h₁]
    exact h

/-- What no thread of the schedule writes stays. -/
theorem interleave_frame (hc : Confined step reads writes) (h : interleave step c sched = .ok c')
    {x : κ} (hx : ∀ i ∈ sched, x ∉ writes i) : c'.2 x = c.2 x := by
  induction sched generalizing c with
  | nil =>
    cases h
    rfl
  | cons i sched ih =>
    obtain ⟨s, m, h₁, h⟩ := interleave_cons.1 h
    rw [ih h fun j hj => hx j (List.mem_cons_of_mem i hj)]
    exact hc.frame h₁ (hx i List.mem_cons_self)

/-- A thread does in an interleaving what it does alone from the first store, when no other one
    writes what it reads. -/
theorem interleave_solo (hc : Confined step reads writes) (h : interleave step c sched = .ok c')
    {i : ι} (hi : ∀ j ∈ sched, j ≠ i → Disjoint (writes j) (reads i)) :
    ∃ m, solo step i (sched.count i) (c.1 i, c.2) = .ok (c'.1 i, m) ∧
      Set.EqOn m c'.2 (reads i) := by
  induction sched generalizing c with
  | nil =>
    cases h
    exact ⟨c'.2, rfl, Set.eqOn_refl _ _⟩
  | cons j sched ih =>
    obtain ⟨s, m, hstep, h⟩ := interleave_cons.1 h
    obtain ⟨m₁, hsolo, heq⟩ := ih h fun k hk => hi k (List.mem_cons_of_mem j hk)
    by_cases hji : j = i
    · subst hji
      dsimp only at hsolo
      rw [Function.update_self] at hsolo
      rw [List.count_cons_self]
      exact ⟨m₁, solo_succ.2 ⟨_, hstep, hsolo⟩, heq⟩
    · dsimp only at hsolo
      rw [Function.update_of_ne fun h => hji h.symm] at hsolo
      have hsame : Set.EqOn m c.2 (reads i) := (hc.frame hstep).mono fun _ hx hw =>
        Set.disjoint_left.1 (hi j List.mem_cons_self hji) hw hx
      obtain ⟨m₂, hsolo₂, heq₂⟩ := hc.solo_agree hsolo hsame.symm
      rw [List.count_cons_of_ne hji]
      exact ⟨m₂, hsolo₂, heq₂.trans heq⟩

/-- A thread that ends alone can take a step until it has ended. -/
theorem interleave_progress (hc : Confined step reads writes) (hapart : Apart reads writes is)
    (hdone : ∀ i s m c, Done s → step i (s, m) ≠ .ok c)
    (h : interleave step c sched = .ok c') (hsched : ∀ i ∈ sched, i ∈ is) {i : ι} (hi : i ∈ is)
    {m' : κ → ν} (hcall : Call step Done i (c.1 i) c.2 m') (hlive : ¬ Done (c'.1 i)) :
    ∃ c₁, step i (c'.1 i, c'.2) = .ok c₁ := by
  obtain ⟨m, hsolo, heq⟩ := interleave_solo hc h fun j hj => hapart j (hsched j hj) i hi
  obtain ⟨n, s', hend, hd⟩ := hcall
  obtain ⟨⟨s₁, m₁⟩, hstep⟩ := solo_next hdone hend hd hsolo hlive
  obtain ⟨m₂, hstep₂, -⟩ := hc.agree hstep heq.symm
  exact ⟨_, hstep₂⟩

/-- Any interleaving that runs every thread to its end leaves the store that the calls one after
    another leave. -/
theorem calls_iff_of_interleave (hc : Confined step reads writes) (hapart : Apart reads writes is)
    (hnodup : is.Nodup) (hdone : ∀ i s m c, Done s → step i (s, m) ≠ .ok c)
    (h : interleave step c sched = .ok c') (hsched : ∀ i ∈ sched, i ∈ is)
    (hend : ∀ i ∈ is, Done (c'.1 i)) {m : κ → ν} :
    Calls step Done c.1 is c.2 m ↔ m = c'.2 := by
  have hsolo : ∀ i ∈ is, ∃ m, solo step i (sched.count i) (c.1 i, c.2) = .ok (c'.1 i, m) ∧
      Set.EqOn m c'.2 (reads i) := fun i hi =>
    interleave_solo hc h fun j hj => hapart j (hsched j hj) i hi
  have : Nonempty (κ → ν) := ⟨c.2⟩
  choose! after hsolo heq using hsolo
  obtain ⟨m', hcalls, hreads, hrest⟩ := calls_of_solo hc hapart hnodup hsolo hend
  have hsame : m' = c'.2 := by
    funext x
    by_cases hx : ∃ i ∈ is, x ∈ writes i
    · obtain ⟨i, hi, hx⟩ := hx
      exact ((hreads i hi).trans (heq i hi)) (hc.subset i hx)
    · have hx : ∀ i ∈ is, x ∉ writes i := fun i hi hw => hx ⟨i, hi, hw⟩
      rw [hrest x hx, interleave_frame hc h fun i hi => hx i (hsched i hi)]
  subst hsame
  exact ⟨fun h => h.unique hdone hcalls, fun h => h ▸ hcalls⟩

/-- A thread that takes several steps in a row. -/
theorem interleave_replicate {threads : ι → σ} {m m' : κ → ν} {i : ι} {s' : σ} {n : Nat}
    (h : solo step i n (threads i, m) = .ok (s', m')) (sched : List ι) :
    interleave step (threads, m) (List.replicate n i ++ sched) =
      interleave step (Function.update threads i s', m') sched := by
  induction n generalizing threads m with
  | zero =>
    cases h
    rw [Function.update_eq_self]
    rfl
  | succ n ih =>
    obtain ⟨⟨s₁, m₁⟩, hstep, h⟩ := solo_succ.1 h
    have hself : solo step i n (Function.update threads i s₁ i, m₁) = .ok (s', m') := by
      rw [Function.update_self]
      exact h
    rw [List.replicate_succ, List.cons_append, interleave]
    dsimp only
    rw [hstep]
    dsimp only [bind, Except.bind]
    rw [ih hself, Function.update_idem]

/-- The calls one after another are an interleaving. -/
theorem interleave_of_calls {m m' : κ → ν} {threads start : ι → σ} (hnodup : is.Nodup)
    (hstart : ∀ i ∈ is, threads i = start i) (h : Calls step Done start is m m') :
    ∃ sched threads', (∀ i ∈ sched, i ∈ is) ∧
      interleave step (threads, m) sched = .ok (threads', m') ∧ (∀ i ∈ is, Done (threads' i)) ∧
      ∀ i ∉ is, threads' i = threads i := by
  induction is generalizing m threads with
  | nil =>
    cases h
    exact ⟨[], threads, fun i hi => hi, rfl, fun i hi => absurd hi List.not_mem_nil, fun _ _ => rfl⟩
  | cons i is ih =>
    obtain ⟨hnotin, hnodup⟩ := List.nodup_cons.1 hnodup
    obtain ⟨m₁, ⟨n, s', hsolo, hdone⟩, h⟩ := h
    rw [← hstart i List.mem_cons_self] at hsolo
    have hstart' : ∀ j ∈ is, Function.update threads i s' j = start j := by
      intro j hj
      have hne : j ≠ i := fun heq => hnotin (heq ▸ hj)
      rw [Function.update_of_ne hne]
      exact hstart j (List.mem_cons_of_mem i hj)
    obtain ⟨sched, threads', hsched, hrun, hend, hrest⟩ := ih hnodup hstart' h
    refine ⟨List.replicate n i ++ sched, threads', fun j hj => ?_, ?_, fun j hj => ?_, fun j hj => ?_⟩
    · rcases List.mem_append.1 hj with hj | hj
      · exact List.eq_of_mem_replicate hj ▸ List.mem_cons_self
      · exact List.mem_cons_of_mem i (hsched j hj)
    · rw [interleave_replicate hsolo, hrun]
    · rcases List.mem_cons.1 hj with rfl | hj
      · rw [hrest j hnotin, Function.update_self]
        exact hdone
      · exact hend j hj
    · rw [List.mem_cons, not_or] at hj
      rw [hrest j hj.2, Function.update_of_ne hj.1]

end Threads

end OsBasics.Lib
