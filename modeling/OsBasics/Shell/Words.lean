/-
  The words of a line.

  A word that is not left out goes through `getVal`, whose test assigns and so never
  fails: a word that does not begin with `$` is looked up without its first character
  (`getVal_eq`). Words are left out at the positions an earlier `<` or `>` was followed
  by, and there are too few then (`scan_short`). `expands_iff` says when every word of a
  line stands for itself or for its value.
-/
import OsBasics.Shell.Lines

namespace OsBasics.Shell

open OsBasics.Lib

/-! ## What the words are to stand for -/

/-- A `$name` for its value, and any other word for itself. -/
def expand (vals : Vals) (w : List UInt8) : Arg := if w.head? = some 36 then vals (w.drop 1) else some w

/-- The arguments of the words in order, and NULL. -/
structure Expanded (vals : Vals) (ws : List (List UInt8)) (args : Nat → Arg) : Prop where
  words : ∀ k < ws.length, args k = ws[k]?.bind (expand vals)
  null : args ws.length = none

/-- The word is none of those `main` tests for. -/
def Plain (w : List UInt8) : Prop := w ≠ bytes "&" ∧ w ≠ bytes "<" ∧ w ≠ bytes ">"

instance : DecidablePred Plain := fun w =>
  inferInstanceAs (Decidable (w ≠ bytes "&" ∧ w ≠ bytes "<" ∧ w ≠ bytes ">"))

/-- No word from index `i` on is at a position that is kept for a redirection. -/
def Missed (g : Globals) (i : Nat) (ws : List (List UInt8)) : Prop :=
  ∀ k < ws.length, g.inPOS ≠ (i + k : Nat) ∧ g.outPOS ≠ (i + k : Nat)

instance (g : Globals) (i : Nat) (ws : List (List UInt8)) : Decidable (Missed g i ws) :=
  inferInstanceAs (Decidable (∀ k < ws.length, g.inPOS ≠ (i + k : Nat) ∧ g.outPOS ≠ (i + k : Nat)))

/-! ## getVal -/

section Words

variable {n i j : Nat} {env : Env} {l : List Nat} {vals : Vals} {g : Globals} {args : Nat → Arg}
  {opened : List Arg} {st : Scan} {w : List UInt8} {ws : List (List UInt8)}

theorem getVal_eq (hinv : Inv env l) (hholds : Holds env l vals) (hn : l.length < n) : getVal n env w =
    if (w.drop 1).length < commandSize then .ok (vals (w.drop 1)) else .error .overflow := by
  unfold getVal
  dsimp only
  split
  · next hshort =>
    obtain ⟨p, hfind, ⟨rfl, hnone⟩ | ⟨hp, hkey⟩⟩ := hinv.find_spec (hshort.trans (by decide)) hn
    · rw [hfind, hholds.none_iff.2 hnone]
      rfl
    · rw [hfind, ← hkey, hholds.1 p hp]
      exact if_pos (hinv.ne_zero hp)
  · rfl

/-- Names of variables fit into `command`. -/
theorem Holds.short (hinv : Inv env l) (hholds : Holds env l vals) {key value : List UInt8}
    (h : vals key = some value) : key.length < commandSize := by
  obtain ⟨p, hp, rfl⟩ := hholds.2 key value h
  exact (hinv.entry p hp).2.2

/-- A word with a value of its own to stand for does so when it is a `$name`, or is itself the value of
    the variable it is looked up as. -/
theorem getVal_expand (hinv : Inv env l) (hholds : Holds env l vals) (hn : l.length < n)
    (hbound : w.head? = some 36 → vals (w.drop 1) ≠ none) : getVal n env w = .ok (expand vals w) ↔
      (w.head? ≠ some 36 → vals (w.drop 1) = some w) := by
  rw [getVal_eq hinv hholds hn]
  unfold expand
  by_cases hdollar : w.head? = some 36
  · obtain ⟨value, hvalue⟩ := Option.ne_none_iff_exists'.1 (hbound hdollar)
    rw [if_pos (hholds.short hinv hvalue), if_pos hdollar]
    exact iff_of_true rfl fun h => absurd hdollar h
  · rw [if_neg hdollar]
    constructor
    · intro h _
      split at h
      · exact Except.ok.inj h
      · cases h
    · intro h
      rw [if_pos (hholds.short hinv (h hdollar)), h hdollar]

/-! ## The loop over the words -/

/-- The arguments after `vs` are stored from index `j` on. -/
def place (args : Nat → Arg) : Nat → List Arg → Nat → Arg
  | _, [] => args
  | j, v :: vs => place (Function.update args j v) (j + 1) vs

theorem place_of_lt {vs : List Arg} {k : Nat} (hk : k < j) : place args j vs k = args k := by
  induction vs generalizing args j with
  | nil => rfl
  | cons v vs ih => rw [place, ih (by omega), Function.update_of_ne (by omega)]

theorem place_at {vs : List Arg} {k : Nat} {v : Arg} (hk : vs[k]? = some v) :
    place args j vs (j + k) = v := by
  induction vs generalizing args j k with
  | nil => cases hk
  | cons u vs ih =>
    rw [place]
    cases k with
    | zero =>
      rw [List.getElem?_cons_zero, Option.some.injEq] at hk
      change place (Function.update args j u) (j + 1) vs j = v
      rw [place_of_lt (Nat.lt_succ_self j), Function.update_self, hk]
    | succ k =>
      rw [List.getElem?_cons_succ] at hk
      rw [← Nat.add_assoc, Nat.add_right_comm]
      exact ih hk

theorem forall₂_getElem? {α β : Type} {R : α → β → Prop} {l : List α} {m : List β} {k : Nat} {a : α}
    (h : List.Forall₂ R l m) (ha : l[k]? = some a) : ∃ b, m[k]? = some b ∧ R a b := by
  induction h generalizing k with
  | nil => cases ha
  | cons hab _ ih =>
    cases k with
    | zero =>
      rw [List.getElem?_cons_zero, Option.some.injEq] at ha
      exact ⟨_, rfl, ha ▸ hab⟩
    | succ k => exact ih ha

theorem scanToken_plain (hw : Plain w) (hin : g.inPOS ≠ i) (hout : g.outPOS ≠ i) :
    scanToken n env ⟨g, i, j, args, opened⟩ w = (getVal n env w).map fun arg =>
      ⟨g, i + 1, j + 1, Function.update args j arg, opened⟩ := by
  unfold scanToken
  dsimp only
  rw [classify_word g i hw.1 hw.2.1 hw.2.2]
  dsimp only
  rw [if_neg hin.symm, if_neg hout.symm, argOf]
  rcases getVal n env w with e | arg <;> rfl

/-- A word at a position that is kept for a redirection is no argument. -/
theorem scanToken_kept (hw : Plain w) (hkept : g.inPOS = i ∨ g.outPOS = i)
    (h : scanToken n env ⟨g, i, j, args, opened⟩ w = .ok st) :
    ∃ opened', st = ⟨g, i + 1, j, args, opened'⟩ := by
  unfold scanToken at h
  dsimp only at h
  rw [classify_word g i hw.1 hw.2.1 hw.2.2] at h
  dsimp only at h
  split at h
  · cases h
    exact ⟨_, rfl⟩
  split at h
  · cases h
    exact ⟨_, rfl⟩
  · next hin hout => exact absurd hkept (not_or.2 ⟨fun h => hin h.symm, fun h => hout h.symm⟩)

/-- The loop stores what `getVal` makes of each word. -/
theorem scan_plain (hplain : ∀ w ∈ ws, Plain w) (hmiss : Missed g i ws) :
    scan n env ⟨g, i, j, args, opened⟩ ws = .ok st ↔
      ∃ vs, List.Forall₂ (fun w v => getVal n env w = .ok v) ws vs ∧
        st = ⟨g, i + ws.length, j + ws.length, place args j vs, opened⟩ := by
  induction ws generalizing i j args with
  | nil =>
    constructor
    · intro h
      cases h
      exact ⟨[], .nil, rfl⟩
    · rintro ⟨vs, hvs, rfl⟩
      cases hvs
      rfl
  | cons w ws ih =>
    obtain ⟨hin, hout⟩ := hmiss 0 (Nat.succ_pos _)
    have hrest : Missed g (i + 1) ws := fun k hk => by
      have h := hmiss (k + 1) (Nat.succ_lt_succ hk)
      rwa [← Nat.add_assoc, Nat.add_right_comm] at h
    have hlen : ∀ m, m + 1 + ws.length = m + (w :: ws).length := fun m => by
      rw [List.length_cons]
      omega
    have htoken : scanToken n env ⟨g, i, j, args, opened⟩ w = _ :=
      scanToken_plain (hplain w List.mem_cons_self) hin hout
    rw [scan, htoken]
    cases hval : getVal n env w with
    | error e =>
      refine iff_of_false (fun h => by cases h) ?_
      rintro ⟨vs, hvs, -⟩
      cases hvs with
      | cons hv _ =>
        rw [hval] at hv
        cases hv
    | ok v =>
      have hnext : scan n env ⟨g, i + 1, j + 1, Function.update args j v, opened⟩ ws = .ok st ↔ _ :=
        ih (fun w hw => hplain w (List.mem_cons_of_mem _ hw)) hrest
      refine hnext.trans ?_
      rw [hlen, hlen]
      constructor
      · rintro ⟨vs, hvs, rfl⟩
        exact ⟨v :: vs, .cons hval hvs, rfl⟩
      · rintro ⟨vs, hvs, rfl⟩
        cases hvs with
        | cons hv hvs =>
          rw [hval, Except.ok.injEq] at hv
          subst hv
          exact ⟨_, hvs, rfl⟩

/-- With a word at a kept position there are fewer arguments than words, and what is behind them is
    left. -/
theorem scan_short (hplain : ∀ w ∈ ws, Plain w) (h : scan n env ⟨g, i, j, args, opened⟩ ws = .ok st) :
    st.i = i + ws.length ∧ (j ≤ st.j ∧ st.j ≤ j + ws.length) ∧ (∀ k, st.j ≤ k → st.args k = args k) ∧
      (st.j = j + ws.length → Missed g i ws) := by
  induction ws generalizing i j args opened with
  | nil =>
    cases h
    exact ⟨rfl, ⟨le_rfl, le_rfl⟩, fun _ _ => rfl, fun _ k hk => absurd hk (Nat.not_lt_zero k)⟩
  | cons w ws ih =>
    have hw : Plain w := hplain w List.mem_cons_self
    have hws : ∀ w ∈ ws, Plain w := fun w hw => hplain w (List.mem_cons_of_mem _ hw)
    obtain ⟨st₁, htoken, h⟩ := bind_ok h
    rw [List.length_cons]
    by_cases hkept : g.inPOS = i ∨ g.outPOS = i
    · obtain ⟨opened', rfl⟩ := scanToken_kept hw hkept htoken
      obtain ⟨hi, hj, hargs, -⟩ := ih hws h
      exact ⟨by omega, ⟨hj.1, by omega⟩, hargs, fun heq => by omega⟩
    · rw [not_or] at hkept
      rw [scanToken_plain hw hkept.1 hkept.2] at htoken
      obtain ⟨v, -, rfl⟩ := map_ok htoken
      obtain ⟨hi, hj, hargs, hmiss⟩ := ih hws h
      refine ⟨by omega, by omega, fun k hk => ?_, fun heq => ?_⟩
      · rw [hargs k hk, Function.update_of_ne (by omega)]
      · have hmiss := hmiss (by omega)
        intro k hk
        cases k with
        | zero => exact hkept
        | succ k =>
          have h := hmiss k (Nat.lt_of_succ_lt_succ hk)
          rwa [Nat.add_right_comm, Nat.add_assoc] at h

/-! ## A line -/

/-- The line gives every word the argument it is to stand for exactly when none is at a kept position
    and each that is no `$name` is itself the value of the variable it is looked up as. -/
theorem expands_iff {input : List UInt8} (hinv : Inv env l) (hholds : Holds env l vals)
    (hn : l.length < n) (hplain : ∀ w ∈ words input, Plain w)
    (hbound : ∀ w ∈ words input, w.head? = some 36 → vals (w.drop 1) ≠ none) :
    (∀ stack, ∃ st, readLine n env g stack input = .ok st ∧ Expanded vals (words input) st.args) ↔
      Missed g 0 (words input) ∧
        ∀ w ∈ words input, w.head? ≠ some 36 → vals (w.drop 1) = some w := by
  have hvalue : ∀ k < (words input).length, ∃ w, (words input)[k]? = some w ∧ w ∈ words input :=
    fun k hk => ⟨_, List.getElem?_eq_getElem hk, List.getElem_mem hk⟩
  constructor
  · intro hall
    obtain ⟨st', hrun, hst⟩ := hall fun _ => none
    obtain ⟨st, hscan, h⟩ := bind_ok hrun
    cases h
    obtain ⟨hi, hj, hargs, hmiss⟩ := scan_short hplain hscan
    rw [Nat.zero_add] at hi hj hmiss
    have hargs' : ∀ k < (words input).length, st.args k = (words input)[k]?.bind (expand vals) := fun k hk => by
      have h := hst.words k hk
      dsimp only at h
      rwa [hi, Function.update_of_ne hk.ne] at h
    -- a last argument that was never written is NULL
    have hmissed : Missed g 0 (words input) := by
      refine hmiss (Nat.le_antisymm hj.2 (not_lt.1 fun hlt => ?_))
      obtain ⟨w, hw, hmem⟩ := hvalue ((words input).length - 1) (by omega)
      have hlast := hargs' ((words input).length - 1) (by omega)
      rw [hargs _ (by omega), hw, Option.bind_some] at hlast
      unfold expand at hlast
      split at hlast
      · next hdollar => exact hbound w hmem hdollar hlast.symm
      · cases hlast
    refine ⟨hmissed, fun w hw => ?_⟩
    obtain ⟨vs, hvs, rfl⟩ := (scan_plain hplain hmissed).1 hscan
    obtain ⟨k, hk, rfl⟩ := List.mem_iff_getElem.1 hw
    obtain ⟨v, hv, hval⟩ := forall₂_getElem? hvs (List.getElem?_eq_getElem hk)
    have harg := hargs' k hk
    dsimp only at harg
    rw [← Nat.zero_add k, place_at hv, Nat.zero_add, List.getElem?_eq_getElem hk, Option.bind_some] at harg
    rw [harg] at hval
    exact (getVal_expand hinv hholds hn (hbound _ hw)).1 hval
  · rintro ⟨hmissed, hself⟩ stack
    have hvals : List.Forall₂ (fun w v => getVal n env w = .ok v) (words input)
        ((words input).map (expand vals)) :=
      List.forall₂_map_right_iff.2 (List.forall₂_same.2 fun w hw =>
        (getVal_expand hinv hholds hn (hbound w hw)).2 (hself w hw))
    have hscan : scan n env ⟨g, 0, 0, stack, []⟩ (words input) = _ :=
      (scan_plain hplain hmissed).2 ⟨_, hvals, rfl⟩
    rw [Nat.zero_add] at hscan
    refine ⟨_, congrArg (· >>= _) hscan, ⟨fun k hk => ?_, Function.update_self ..⟩⟩
    obtain ⟨w, hw, -⟩ := hvalue k hk
    have hv : ((words input).map (expand vals))[k]? = some (expand vals w) := by
      rw [List.getElem?_map, hw]
      rfl
    have hplace : place stack 0 ((words input).map (expand vals)) (0 + k) = expand vals w := place_at hv
    rw [Nat.zero_add] at hplace
    dsimp only
    rw [Function.update_of_ne hk.ne, hplace, hw, Option.bind_some]

end Words

/-- Where `s` is set to `ls`, the word `ls` is looked up as `s` and stands for itself; the
    word `cat` is looked up as `at`, which is not set. -/
theorem expands_iff_set : ∃ env, Env.start.add 3 (bytes "s") (bytes "ls") 1 = .ok env ∧
    (∀ stack, ∃ st, readLine 3 env Globals.start stack (bytes "ls $s\n") = .ok st ∧
      st.args 0 = some (bytes "ls") ∧ st.args 1 = some (bytes "ls") ∧ st.args 2 = none) ∧
    ¬ ∀ stack, ∃ st, readLine 3 env Globals.start stack (bytes "cat $s\n") = .ok st ∧
      Expanded (Function.update (fun _ => none) (bytes "s") (some (bytes "ls")))
        (words (bytes "cat $s\n")) st.args := by
  obtain ⟨env, hadd, hinv, hkey, hvalue⟩ := (Inv.empty (s := Env.start) rfl rfl).add_new (n := 3)
    (p := 1) (k := bytes "s") (v := bytes "ls") (by decide) (by decide) (by decide) (by simp) (by decide)
    (by simp [Env.start]) (fun h => absurd rfl h)
  have hempty : Holds Env.start [] fun _ => none := ⟨by simp, fun _ _ h => by cases h⟩
  have hholds := hempty.add (by simp) rfl hkey hvalue
  refine ⟨env, hadd, fun stack => ?_, fun hall => ?_⟩
  · have hiff := expands_iff (g := Globals.start) (n := 3) hinv hholds (by decide)
      (show ∀ w ∈ words (bytes "ls $s\n"), Plain w by decide) (by decide)
    obtain ⟨st, hrun, hst⟩ := hiff.2 ⟨by decide, by decide⟩ stack
    exact ⟨st, hrun, hst.words 0 (by decide), hst.words 1 (by decide), hst.null⟩
  · obtain ⟨-, hself⟩ := (expands_iff hinv hholds (by decide) (by decide) (by decide)).1 hall
    exact absurd (hself (bytes "cat") (by decide) (by decide)) (by decide)

/-- With no variables the word `ls` stands for NULL. -/
theorem expands_not : ¬ ∀ stack, ∃ st, readLine 1 Env.start Globals.start stack (bytes "ls\n") = .ok st ∧
    Expanded (fun _ => none) (words (bytes "ls\n")) st.args := by
  intro hall
  obtain ⟨st, hrun, hst⟩ := hall fun _ => none
  have hnull : (readLine 1 Env.start Globals.start (fun _ => none) (bytes "ls\n")).map
      (fun st => st.args 0) = .ok none := by
    rfl
  rw [hrun] at hnull
  have hword := (hst.words 0 (by decide)).symm.trans (Except.ok.inj hnull)
  exact absurd hword (by decide)

end OsBasics.Shell
