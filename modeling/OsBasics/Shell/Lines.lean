/-
  One line of the shell and the lines before it.

  `inPOS`, `outPOS` and `backgroundflag` outlive a line. They do no harm to a line that
  is `Clean`: the position an earlier `<` or `>` left is past its end, or comes
  after a `<` or `>` of its own, and a flag an earlier `&` left is set by it as well.
  The loop over the tokens then does the same as from the initial values
  (`Related.step`), whatever is on the stack, so the line is `Independent` of those
  before it (`lines_independent`).
-/
import OsBasics.Shell.Main
import OsBasics.Shell.VarRuns

namespace OsBasics.Shell

open OsBasics.Lib

/-! ## What a line computes -/

/-- The argument vector, the names `open` is called with for standard input, and whether the
    command is to run in the background. -/
structure Observed where
  argv : List (List UInt8)
  opened : List Arg
  background : Bool
  deriving DecidableEq, Repr

def observe (n : Nat) (env : Env) (g : Globals) (stack : Nat → Arg) (input : List UInt8) :
    Except Fault Observed :=
  (readLine n env g stack input).map fun st => ⟨st.argv, st.opened, st.glob.backgroundflag ≠ 0⟩

/-- The line computes what it would if it were the first one, with the same variable table,
    whatever is on the stack then. -/
def Independent (n : Nat) (s : Globals × Env) (line : Line) : Prop :=
  ∀ stack, observe n s.2 s.1 line.sys.stack line.input =
    observe n s.2 Globals.start stack line.input

/-- No word of the line is taken for what an earlier line was about. -/
structure Clean (s : Globals × Env) (line : Line) : Prop where
  background : s.1.backgroundflag = 0 ∨ bytes "&" ∈ words line.input
  input : ∀ k < (words line.input).length, s.1.inPOS = k →
    bytes "<" ∈ (words line.input).take (k + 1)
  output : ∀ k < (words line.input).length, s.1.outPOS = k →
    bytes ">" ∈ (words line.input).take (k + 1) ∨ 0 < k ∧
      (words line.input)[k - 1]? = some (bytes "<") ∧ (words line.input)[k]? ≠ some (bytes "<")

/-! ## Positions of earlier lines -/

/-- The position `pos` is not met by the words `rest`, from index `i` on, before a `<`. -/
def InOk (pos : Int) (i : Nat) (rest : List (List UInt8)) : Prop :=
  ∀ k < rest.length, pos = i + k → bytes "<" ∈ rest.take (k + 1)

/-- The position `pos` is not met before a `>`, or a `<` is before it, so that `inPOS` is tested
    first. -/
def OutOk (inPOS pos : Int) (i : Nat) (rest : List (List UInt8)) : Prop :=
  ∀ k < rest.length, pos = i + k → bytes ">" ∈ rest.take (k + 1) ∨
    rest[k]? ≠ some (bytes "<") ∧ if k = 0 then inPOS = i else rest[k - 1]? = some (bytes "<")

section Positions

variable {pos inPOS inPOS' : Int} {i : Nat} {t : List UInt8} {rest : List (List UInt8)}

theorem InOk.head (h : InOk pos i (t :: rest)) (ht : t ≠ bytes "<") : pos ≠ i := by
  intro heq
  have hin := h 0 (by simp) (by omega)
  rw [List.take_succ_cons, List.take_zero, List.mem_singleton] at hin
  exact ht hin.symm

theorem InOk.tail (h : InOk pos i (t :: rest)) (ht : t ≠ bytes "<") : InOk pos (i + 1) rest := by
  intro k hk heq
  have hin := h (k + 1) (by rw [List.length_cons]; omega) (by omega)
  rw [List.take_succ_cons, List.mem_cons] at hin
  exact hin.resolve_left fun h => ht h.symm

theorem OutOk.head (h : OutOk inPOS pos i (t :: rest)) (ht : t ≠ bytes ">") (heq : pos = i) :
    t ≠ bytes "<" ∧ inPOS = i := by
  rcases h 0 (by simp) (by omega) with hin | ⟨hlt, hpos⟩
  · rw [List.take_succ_cons, List.take_zero, List.mem_singleton] at hin
    exact absurd hin.symm ht
  · rw [if_pos rfl] at hpos
    exact ⟨fun h => hlt (by rw [h]; rfl), hpos⟩

theorem OutOk.tail (h : OutOk inPOS pos i (t :: rest)) (ht : t ≠ bytes ">")
    (hlt : t = bytes "<" → inPOS' = i + 1) : OutOk inPOS' pos (i + 1) rest := by
  intro k hk heq
  rcases h (k + 1) (by rw [List.length_cons]; omega) (by omega) with hin | ⟨hne, hprev⟩
  · rw [List.take_succ_cons, List.mem_cons] at hin
    exact .inl (hin.resolve_left fun h => ht h.symm)
  · rw [if_neg (by omega), Nat.add_sub_cancel] at hprev
    rw [List.getElem?_cons_succ] at hne
    refine .inr ⟨hne, ?_⟩
    split
    · next h0 =>
      subst h0
      rw [List.getElem?_cons_zero, Option.some.injEq] at hprev
      rw [hlt hprev]
      omega
    · next h0 =>
      obtain ⟨m, rfl⟩ := Nat.exists_eq_succ_of_ne_zero h0
      rw [List.getElem?_cons_succ] at hprev
      exact hprev

end Positions

/-! ## Two runs of the loop over the tokens -/

/-- The loop that goes on from an earlier line and the one that does not, before the words
    `rest`. -/
structure Related (st st' : Scan) (rest : List (List UInt8)) : Prop where
  i : st.i = st'.i
  j : st.j = st'.j
  args : ∀ k < st.j, st.args k = st'.args k
  opened : st.opened = st'.opened
  flag : st.glob.backgroundflag = st'.glob.backgroundflag ∨ bytes "&" ∈ rest
  inPOS : st.glob.inPOS = st'.glob.inPOS ∨
    InOk st.glob.inPOS st'.i rest ∧ InOk st'.glob.inPOS st'.i rest
  outPOS : st.glob.outPOS = st'.glob.outPOS ∨
    OutOk st'.glob.inPOS st.glob.outPOS st'.i rest ∧
      OutOk st'.glob.inPOS st'.glob.outPOS st'.i rest
  -- a word is left out of `args` only after a NULL was put there
  ended : st.j = st.i ∧ st'.glob.inPOS < 0 ∧ st'.glob.outPOS < 0 ∨ ∃ k < st.j, st.args k = none

/-- What `classify` makes of a token in the two runs. -/
structure Classified (g g' : Globals) (i : Nat) (t : List UInt8) (rest : List (List UInt8)) :
    Prop where
  tok : (classify g i t).1 = (classify g' i t).1
  inHit : (i : Int) = (classify g i t).2.inPOS ↔ (i : Int) = (classify g' i t).2.inPOS
  outHit : ¬ (i : Int) = (classify g' i t).2.inPOS →
    ((i : Int) = (classify g i t).2.outPOS ↔ (i : Int) = (classify g' i t).2.outPOS)
  flag : (classify g i t).2.backgroundflag = (classify g' i t).2.backgroundflag ∨ bytes "&" ∈ rest
  inPOS : (classify g i t).2.inPOS = (classify g' i t).2.inPOS ∨
    InOk (classify g i t).2.inPOS (i + 1) rest ∧ InOk (classify g' i t).2.inPOS (i + 1) rest
  outPOS : (classify g i t).2.outPOS = (classify g' i t).2.outPOS ∨
    OutOk (classify g' i t).2.inPOS (classify g i t).2.outPOS (i + 1) rest ∧
      OutOk (classify g' i t).2.inPOS (classify g' i t).2.outPOS (i + 1) rest
  ended : g'.inPOS < 0 → g'.outPOS < 0 →
    (classify g' i t).2.inPOS < 0 ∧ (classify g' i t).2.outPOS < 0 ∨
      (classify g' i t).1 = none ∧ ¬ (i : Int) = (classify g' i t).2.inPOS ∧
        ¬ (i : Int) = (classify g' i t).2.outPOS

theorem classify_amp (g : Globals) (i : Nat) :
    classify g i (bytes "&") = (none, { g with backgroundflag := 1 }) := if_pos rfl

theorem classify_lt (g : Globals) (i : Nat) :
    classify g i (bytes "<") = (none, { g with stdIN := 0, inPOS := i + 1 }) := by
  unfold classify
  rw [if_neg (by decide), if_pos rfl]

theorem classify_gt (g : Globals) (i : Nat) :
    classify g i (bytes ">") = (none, { g with stdOUT := 0, outPOS := i + 1 }) := by
  unfold classify
  rw [if_neg (by decide), if_neg (by decide), if_pos rfl]

theorem classify_word (g : Globals) (i : Nat) {t : List UInt8} (h1 : t ≠ bytes "&")
    (h2 : t ≠ bytes "<") (h3 : t ≠ bytes ">") : classify g i t = (some t, g) := by
  unfold classify
  rw [if_neg h1, if_neg h2, if_neg h3]

section Step

variable {st st' : Scan} {t : List UInt8} {rest : List (List UInt8)}

/-- A word that is neither `<` nor `>` leaves the positions. -/
theorem Related.same_positions (h : Related st st' (t :: rest)) (h2 : t ≠ bytes "<")
    (h3 : t ≠ bytes ">") :
    ((st'.i : Int) = st.glob.inPOS ↔ (st'.i : Int) = st'.glob.inPOS) ∧
    (¬ (st'.i : Int) = st'.glob.inPOS →
      ((st'.i : Int) = st.glob.outPOS ↔ (st'.i : Int) = st'.glob.outPOS)) ∧
    (st.glob.inPOS = st'.glob.inPOS ∨
      InOk st.glob.inPOS (st'.i + 1) rest ∧ InOk st'.glob.inPOS (st'.i + 1) rest) ∧
    (st.glob.outPOS = st'.glob.outPOS ∨
      OutOk st'.glob.inPOS st.glob.outPOS (st'.i + 1) rest ∧
        OutOk st'.glob.inPOS st'.glob.outPOS (st'.i + 1) rest) := by
  refine ⟨?_, fun hin => ?_, ?_, ?_⟩
  · rcases h.inPOS with heq | ⟨h₁, h₂⟩
    · rw [heq]
    · exact iff_of_false (h₁.head h2).symm (h₂.head h2).symm
  · rcases h.outPOS with heq | ⟨h₁, h₂⟩
    · rw [heq]
    · exact iff_of_false (fun heq => hin (h₁.head h3 heq.symm).2.symm)
        fun heq => hin (h₂.head h3 heq.symm).2.symm
  · exact h.inPOS.imp_right fun ⟨h₁, h₂⟩ => ⟨h₁.tail h2, h₂.tail h2⟩
  · exact h.outPOS.imp_right fun ⟨h₁, h₂⟩ =>
      ⟨h₁.tail h3 fun heq => absurd heq h2, h₂.tail h3 fun heq => absurd heq h2⟩

/-- A word other than `&` leaves the flag. -/
theorem Related.same_flag (h : Related st st' (t :: rest)) (h1 : t ≠ bytes "&") :
    st.glob.backgroundflag = st'.glob.backgroundflag ∨ bytes "&" ∈ rest :=
  h.flag.imp_right fun hmem => (List.mem_cons.1 hmem).resolve_left fun heq => h1 heq.symm

theorem Related.classified (h : Related st st' (t :: rest)) :
    Classified st.glob st'.glob st'.i t rest := by
  by_cases hamp : t = bytes "&"
  · subst hamp
    obtain ⟨hin, hout, hin', hout'⟩ := h.same_positions (by decide) (by decide)
    constructor <;> simp only [classify_amp]
    · exact hin
    · exact hout
    · exact .inl trivial
    · exact hin'
    · exact hout'
    · exact fun h1 h2 => .inl ⟨h1, h2⟩
  by_cases hlt : t = bytes "<"
  · subst hlt
    constructor <;> simp only [classify_lt]
    · intro _
      rcases h.outPOS with heq | ⟨h₁, h₂⟩
      · rw [heq]
      · exact iff_of_false (fun heq => (h₁.head (by decide) heq.symm).1 rfl)
          fun heq => (h₂.head (by decide) heq.symm).1 rfl
    · exact h.same_flag (by decide)
    · exact .inl trivial
    · exact h.outPOS.imp_right fun ⟨h₁, h₂⟩ =>
        ⟨h₁.tail (by decide) fun _ => rfl, h₂.tail (by decide) fun _ => rfl⟩
    · exact fun _ h2 => .inr ⟨trivial, by omega, by omega⟩
  by_cases hgt : t = bytes ">"
  · subst hgt
    constructor <;> simp only [classify_gt]
    · rcases h.inPOS with heq | ⟨h₁, h₂⟩
      · rw [heq]
      · exact iff_of_false (h₁.head (by decide)).symm (h₂.head (by decide)).symm
    · exact fun _ => trivial
    · exact h.same_flag (by decide)
    · exact h.inPOS.imp_right fun ⟨h₁, h₂⟩ => ⟨h₁.tail (by decide), h₂.tail (by decide)⟩
    · exact .inl trivial
    · exact fun h1 _ => .inr ⟨trivial, by omega, by omega⟩
  obtain ⟨hin, hout, hin', hout'⟩ := h.same_positions hlt hgt
  constructor <;> simp only [classify_word _ _ hamp hlt hgt]
  · exact hin
  · exact hout
  · exact h.same_flag hamp
  · exact hin'
  · exact hout'
  · exact fun h1 h2 => .inl ⟨h1, h2⟩

variable {n : Nat} {env : Env}

/-- The two runs stop with one fault or go on `Related`. -/
def Agree (rest : List (List UInt8)) : Except Fault Scan → Except Fault Scan → Prop
  | .ok u, .ok u' => Related u u' rest
  | .error f, .error f' => f = f'
  | _, _ => False

theorem scanToken_inHit (h : (st.i : Int) = (classify st.glob st.i t).2.inPOS) :
    scanToken n env st t = .ok { st with
      glob := (classify st.glob st.i t).2
      i := st.i + 1
      opened := st.opened ++ [(classify st.glob st.i t).1] } := if_pos h

theorem scanToken_outHit (h : ¬ (st.i : Int) = (classify st.glob st.i t).2.inPOS)
    (h' : (st.i : Int) = (classify st.glob st.i t).2.outPOS) :
    scanToken n env st t = .ok { st with
      glob := (classify st.glob st.i t).2
      i := st.i + 1 } := by
  unfold scanToken
  dsimp only
  rw [if_neg h, if_pos h']

theorem scanToken_store (h : ¬ (st.i : Int) = (classify st.glob st.i t).2.inPOS)
    (h' : ¬ (st.i : Int) = (classify st.glob st.i t).2.outPOS) :
    scanToken n env st t = (argOf n env (classify st.glob st.i t).1).map fun arg => { st with
      glob := (classify st.glob st.i t).2
      i := st.i + 1
      j := st.j + 1
      args := Function.update st.args st.j arg } := by
  unfold scanToken
  dsimp only
  rw [if_neg h, if_neg h']
  rfl

/-- A token whose word is a target, or that is left out, is no sign of an end before the NULL. -/
theorem Related.ended_of_hit (h : Related st st' (t :: rest))
    (hit : (st'.i : Int) = (classify st'.glob st'.i t).2.inPOS ∨
      (st'.i : Int) = (classify st'.glob st'.i t).2.outPOS) :
    ∃ k < st.j, st.args k = none := by
  refine h.ended.resolve_left fun ⟨_, hin, hout⟩ => ?_
  rcases h.classified.ended hin hout with ⟨h1, h2⟩ | ⟨_, h1, h2⟩
  · omega
  · exact hit.elim h1 h2

theorem Related.step (h : Related st st' (t :: rest)) (n : Nat) (env : Env) :
    Agree rest (scanToken n env st t) (scanToken n env st' t) := by
  have hc := h.classified
  have hended := h.ended_of_hit
  obtain ⟨g, i, j, args, opened⟩ := st
  obtain ⟨g', i', j', args', opened'⟩ := st'
  obtain ⟨rfl, rfl, hargs, rfl, -, -, -, hend⟩ := h
  dsimp only at hc hargs hend hended
  by_cases hin' : (i : Int) = (classify g' i t).2.inPOS
  · have hin := hc.inHit.2 hin'
    rw [scanToken_inHit hin, scanToken_inHit hin']
    exact ⟨rfl, rfl, hargs, by rw [hc.tok], hc.flag, hc.inPOS, hc.outPOS, .inr (hended (.inl hin'))⟩
  have hin : ¬ (i : Int) = (classify g i t).2.inPOS := fun h => hin' (hc.inHit.1 h)
  by_cases hout' : (i : Int) = (classify g' i t).2.outPOS
  · have hout := (hc.outHit hin').2 hout'
    rw [scanToken_outHit hin hout, scanToken_outHit hin' hout']
    exact ⟨rfl, rfl, hargs, rfl, hc.flag, hc.inPOS, hc.outPOS, .inr (hended (.inr hout'))⟩
  have hout : ¬ (i : Int) = (classify g i t).2.outPOS := fun h => hout' ((hc.outHit hin').1 h)
  rw [scanToken_store hin hout, scanToken_store hin' hout']
  dsimp only
  rw [hc.tok]
  rcases harg : argOf n env (classify g' i t).1 with f | arg
  · exact rfl
  refine ⟨rfl, rfl, fun k hk => ?_, rfl, hc.flag, hc.inPOS, hc.outPOS, ?_⟩
  · dsimp only at hk ⊢
    rcases Nat.lt_succ_iff_lt_or_eq.1 hk with hk | rfl
    · rw [Function.update_of_ne (Nat.ne_of_lt hk), Function.update_of_ne (Nat.ne_of_lt hk), hargs k hk]
    · rw [Function.update_self, Function.update_self]
  · dsimp only
    rcases hend with ⟨hij, h1, h2⟩ | ⟨k, hk, hnone⟩
    · rcases hc.ended h1 h2 with ⟨h1, h2⟩ | ⟨hnone, _, _⟩
      · exact .inl ⟨congrArg (· + 1) hij, h1, h2⟩
      · rw [hnone] at harg
        cases harg
        exact .inr ⟨j, Nat.lt_succ_self j, Function.update_self ..⟩
    · exact .inr ⟨k, Nat.lt_succ_of_lt hk, by rw [Function.update_of_ne (Nat.ne_of_lt hk), hnone]⟩

end Step

/-- A loop over all the words. -/
theorem Related.scan {st st' : Scan} {rest : List (List UInt8)} (h : Related st st' rest) (n : Nat)
    (env : Env) : Agree [] (scan n env st rest) (scan n env st' rest) := by
  induction rest generalizing st st' with
  | nil => exact h
  | cons t rest ih =>
    have hstep := h.step n env
    unfold Shell.scan
    rcases hst : scanToken n env st t with f | u <;> rcases hst' : scanToken n env st' t with f' | u'
      <;> rw [hst, hst'] at hstep
    · exact hstep
    · exact hstep.elim
    · exact hstep.elim
    · exact ih hstep

/-! ## Lines -/

/-- Nothing after the first element that fails `p` is taken. -/
theorem takeWhile_append_of_mem {α : Type*} {p : α → Bool} {a : α} {l : List α} (ha : a ∈ l)
    (hp : ¬ p a) (l' : List α) : (l ++ l').takeWhile p = l.takeWhile p := by
  induction l with
  | nil => cases ha
  | cons b l ih =>
    rw [List.cons_append, List.takeWhile_cons, List.takeWhile_cons]
    rcases List.mem_cons.1 ha with rfl | ha
    · rw [if_neg hp, if_neg hp]
    · rw [ih ha]

/-- Arguments after a NULL are no part of the vector. -/
theorem argv_congr {st st' : Scan} {m : Nat} (hi : st.i = st'.i)
    (hargs : ∀ k < m, st.args k = st'.args k) (hnone : ∃ k < m, st.args k = none) :
    st.argv = st'.argv := by
  obtain ⟨k, hk, hnone⟩ := hnone
  have hmap : (List.range m).map st.args = (List.range m).map st'.args :=
    List.map_congr_left fun k hk => hargs k (List.mem_range.1 hk)
  unfold Scan.argv
  rw [← hi]
  rcases Nat.le_total (st.i + 1) m with hle | hle
  · rw [List.map_congr_left fun k hk => hargs k (Nat.lt_of_lt_of_le (List.mem_range.1 hk) hle)]
  · obtain ⟨d, hd⟩ := Nat.exists_eq_add_of_le hle
    have hmem : none ∈ (List.range m).map st.args :=
      List.mem_map.2 ⟨k, List.mem_range.2 hk, hnone⟩
    rw [hd, List.range_add, List.map_append, List.map_append,
      takeWhile_append_of_mem hmem (by decide), takeWhile_append_of_mem (hmap ▸ hmem) (by decide), hmap]

/-- After the last word the two runs have one argument vector. -/
theorem Related.argv {st st' : Scan} (h : Related st st' []) :
    Scan.argv { st with args := Function.update st.args st.i none } =
      Scan.argv { st' with args := Function.update st'.args st'.i none } := by
  have hagree : ∀ k < st.j, Function.update st.args st.i none k =
      Function.update st'.args st'.i none k := by
    intro k hk
    rw [← h.i, Function.update_apply, Function.update_apply, h.args k hk]
  rcases h.ended with ⟨hij, -, -⟩ | ⟨k, hk, hnone⟩
  · refine argv_congr (m := st.j + 1) h.i (fun k hk => ?_) ⟨st.i, by omega, Function.update_self ..⟩
    rcases Nat.lt_succ_iff_lt_or_eq.1 hk with hk | rfl
    · exact hagree k hk
    · dsimp only
      rw [← h.i, hij, Function.update_self, Function.update_self]
  · refine argv_congr h.i hagree ⟨k, hk, ?_⟩
    dsimp only
    rw [Function.update_apply, hnone, ite_self]

/-- The first word of a clean line. -/
theorem Clean.related {s : Globals × Env} {line : Line} (h : Clean s line) (stack stack' : Nat → Arg) :
    Related ⟨s.1, 0, 0, stack, []⟩ ⟨Globals.start, 0, 0, stack', []⟩ (words line.input) where
  i := rfl
  j := rfl
  args := fun k hk => absurd hk (Nat.not_lt_zero k)
  opened := rfl
  flag := h.background
  inPOS := by
    refine .inr ⟨fun k hk heq => h.input k hk ?_, fun k _ heq => ?_⟩
    · exact heq.trans (Int.zero_add _)
    · have hneg : (-1 : Int) = (0 : Nat) + k := heq
      omega
  outPOS := by
    refine .inr ⟨fun k hk heq => ?_, fun k _ heq => ?_⟩
    · refine (h.output k hk (heq.trans (Int.zero_add _))).imp_right fun ⟨hpos, hprev, hne⟩ => ⟨hne, ?_⟩
      rw [if_neg (by omega)]
      exact hprev
    · have hneg : (-1 : Int) = (0 : Nat) + k := heq
      omega
  ended := .inl ⟨rfl, Int.negSucc_lt_zero 0, Int.negSucc_lt_zero 0⟩

theorem Clean.independent {n : Nat} {s : Globals × Env} {line : Line} (h : Clean s line) :
    Independent n s line := by
  intro stack
  have hscan := (h.related line.sys.stack stack).scan n s.2
  unfold observe readLine
  rcases hst : Shell.scan n s.2 ⟨s.1, 0, 0, line.sys.stack, []⟩ (words line.input) with f | st <;>
    rcases hst' : Shell.scan n s.2 ⟨Globals.start, 0, 0, stack, []⟩ (words line.input) with f' | st'
    <;> rw [hst, hst'] at hscan
  · exact congrArg Except.error hscan
  · exact hscan.elim
  · exact hscan.elim
  · have hflag := hscan.flag.resolve_right List.not_mem_nil
    refine congrArg Except.ok ?_
    dsimp only
    rw [hscan.argv, hscan.opened, hflag]

/-- In a run whose lines are all clean every line computes what it would on its own. -/
theorem lines_independent {n : Nat} {s : Globals × Env} {lines : List Line}
    (h : Each (mainLine n) Clean s lines) : Each (mainLine n) (Independent n) s lines :=
  h.mono fun _ _ hclean => hclean.independent

instance (s : Globals × Env) (line : Line) : Decidable (Clean s line) :=
  decidable_of_iff ((s.1.backgroundflag = 0 ∨ bytes "&" ∈ words line.input) ∧
      (∀ k < (words line.input).length, s.1.inPOS = k →
        bytes "<" ∈ (words line.input).take (k + 1)) ∧
      ∀ k < (words line.input).length, s.1.outPOS = k →
        bytes ">" ∈ (words line.input).take (k + 1) ∨ 0 < k ∧
          (words line.input)[k - 1]? = some (bytes "<") ∧
            (words line.input)[k]? ≠ some (bytes "<"))
    ⟨fun h => ⟨h.1, h.2.1, h.2.2⟩, fun h => ⟨h.1, h.2, h.3⟩⟩

/-- Nothing on the stack, and every system call succeeds. -/
def Answers.plain : Answers where
  stack := fun _ => none
  getpid := 2
  forked := .parent 3 3 0
  envOk := true
  new := 1
  new' := 2

/-- The `<` of the second line comes after as many words as that of the first. -/
theorem lines_independent_two : Each (mainLine 2) (Independent 2) (Globals.start, Env.start)
    [⟨bytes "a < f\n", .plain⟩, ⟨bytes "b < g\n", .plain⟩] :=
  lines_independent (by decide +kernel)

/-- The second line has no `<`, and its third word is opened. -/
theorem lines_dependent : ¬ Each (mainLine 2) (Independent 2) (Globals.start, Env.start)
    [⟨bytes "x < f\n", .plain⟩, ⟨bytes "x y z\n", .plain⟩] := by
  intro h
  have hrun : (mainLine 2 (Globals.start, Env.start) ⟨bytes "x < f\n", .plain⟩).map
      (fun s => (observe 2 s.2 s.1 (fun _ => none) (bytes "x y z\n"),
        observe 2 s.2 Globals.start (fun _ => none) (bytes "x y z\n"))) =
      .ok (.ok ⟨[], [some (bytes "z")], false⟩, .ok ⟨[], [], false⟩) := by
    decide +kernel
  rcases hfirst : mainLine 2 (Globals.start, Env.start) ⟨bytes "x < f\n", .plain⟩ with stop | s
  · rw [hfirst] at hrun
    cases hrun
  · rw [hfirst] at hrun
    have hpair := Except.ok.inj hrun
    have hsame := (h.2 s hfirst).1 fun _ => none
    have hleft := (Prod.ext_iff.1 hpair).1
    have hright := (Prod.ext_iff.1 hpair).2
    dsimp only at hleft hright
    rw [show Answers.plain.stack = fun _ => none from rfl, hleft, hright] at hsame
    cases hsame

end OsBasics.Shell
