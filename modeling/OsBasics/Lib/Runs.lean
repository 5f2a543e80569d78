/-
  Runs of a step that can fail.

  `Always step P s os` says that the run of the operations `os` from `s` meets no
  failure and `P` holds in every state of it, the first one included;
  `Each step C s os` that every operation meets the condition `C` in the state it is
  called in. A weaker condition is met as well (`Each.mono`).
  `always_iff_each` reduces the one to the other: it is enough that an
  invariant gives `P`, that a call which meets `C` keeps the invariant, and that
  one which does not either fails or leaves a state without `P`.
-/
import Mathlib.Init

namespace OsBasics.Lib

universe u v w

variable {σ : Type u} {o : Type v} {ε : Type w}

/-- A result of a sequence comes from results of its parts. -/
theorem bind_ok {α β : Type u} {x : Except ε α} {f : α → Except ε β} {b : β} (h : x >>= f = .ok b) :
    ∃ a, x = .ok a ∧ f a = .ok b := by
  cases x with
  | error e => cases h
  | ok a => exact ⟨a, rfl, h⟩

theorem map_ok {α β : Type u} {x : Except ε α} {f : α → β} {b : β} (h : x.map f = .ok b) :
    ∃ a, x = .ok a ∧ f a = b := by
  cases x with
  | error e => cases h
  | ok a => exact ⟨a, rfl, Except.ok.inj h⟩

variable (step : σ → o → Except ε σ)

/-- The run meets no failure, and `P` holds in all its states. -/
def Always (P : σ → Prop) : σ → List o → Prop
  | s, [] => P s
  | s, op :: os => P s ∧ ∃ s', step s op = .ok s' ∧ Always P s' os

/-- Every operation of the run is called in a state in which it meets `C`. -/
def Each (C : σ → o → Prop) : σ → List o → Prop
  | _, [] => True
  | s, op :: os => C s op ∧ ∀ s', step s op = .ok s' → Each C s' os

instance Each.decidable (C : σ → o → Prop) [∀ s op, Decidable (C s op)] :
    (s : σ) → (os : List o) → Decidable (Each step C s os)
  | _, [] => .isTrue trivial
  | s, op :: os =>
    match hstep : step s op with
    | .error e => decidable_of_iff (C s op)
        ⟨fun h => ⟨h, fun s' hs' => by rw [hstep] at hs'; cases hs'⟩, fun h => h.1⟩
    | .ok s₁ =>
      have := Each.decidable C s₁ os
      decidable_of_iff (C s op ∧ Each step C s₁ os)
        ⟨fun h => ⟨h.1, fun s' hs' => by
          rw [hstep, Except.ok.injEq] at hs'
          rw [← hs']
          exact h.2⟩, fun h => ⟨h.1, h.2 s₁ hstep⟩⟩

variable {step}

theorem Each.mono {C D : σ → o → Prop} (hcd : ∀ s op, C s op → D s op) {s : σ} {os : List o}
    (h : Each step C s os) : Each step D s os := by
  induction os generalizing s with
  | nil => trivial
  | cons op os ih => exact ⟨hcd s op h.1, fun s' hstep => ih (h.2 s' hstep)⟩

/-- `I k` is the invariant when `k` more operations are to come. -/
theorem always_iff_each {I : Nat → σ → Prop} {P : σ → Prop} {C D : σ → o → Prop}
    (hinv : ∀ k s, I k s → P s)
    (hgood : ∀ k s op, I (k + 1) s → D s op → C s op → ∃ s', step s op = .ok s' ∧ I k s')
    (hbad : ∀ k s op, I (k + 1) s → D s op → ¬ C s op → ∀ s', step s op = .ok s' → ¬ P s')
    {s : σ} {os : List o} (hs : I os.length s) (hd : Each step D s os) :
    Always step P s os ↔ Each step C s os := by
  induction os generalizing s with
  | nil => exact iff_of_true (hinv _ s hs) trivial
  | cons op os ih =>
    obtain ⟨hop, hrest⟩ := hd
    have hp := hinv _ s hs
    by_cases hc : C s op
    · obtain ⟨s', hstep, hs'⟩ := hgood _ s op hs hop hc
      have hih := ih hs' (hrest s' hstep)
      constructor
      · rintro ⟨-, s₁, hstep₁, hrun⟩
        rw [hstep, Except.ok.injEq] at hstep₁
        subst hstep₁
        refine ⟨hc, fun s₂ hstep₂ => ?_⟩
        rw [hstep, Except.ok.injEq] at hstep₂
        subst hstep₂
        exact hih.1 hrun
      · rintro ⟨-, hall⟩
        exact ⟨hp, s', hstep, hih.2 (hall s' hstep)⟩
    · refine iff_of_false ?_ fun h => hc h.1
      rintro ⟨-, s', hstep, hrun⟩
      refine hbad _ s op hs hop hc s' hstep ?_
      cases os with
      | nil => exact hrun
      | cons op' os => exact hrun.1

end OsBasics.Lib
