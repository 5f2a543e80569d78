/-
  The threads of `main`, in any order of their steps.

  `grep(k)` writes only `k.out` and reads only `k.tmp` and `k.out`
  (`confined_step`). Up to 99999 the names are whole and differ (`apart_threads`), so
  each thread does what it does alone: any interleaving that runs all of them to
  their ends leaves what the calls one after another leave, and the chunks as they
  were (`interleaved_eq_sequential`).
-/
import OsBasics.MCGrep.Chunk

namespace OsBasics.MCGrep

open OsBasics.Lib

/-! ## What a thread touches -/

/-- The files `grep(k)` reads or writes. -/
def readSet (k : Nat) : Set Name := {tmpName k, outName k}

def writeSet (k : Nat) : Set Name := {outName k}

theorem eqOn_readSet {k : Nat} {files files' : Files} :
    Set.EqOn files' files (readSet k) ↔
      files' (tmpName k) = files (tmpName k) ∧ files' (outName k) = files (outName k) := by
  constructor
  · exact fun h => ⟨h (Or.inl rfl), h (Or.inr rfl)⟩
  · rintro ⟨htmp, hout⟩ x (rfl | rfl)
    · exact htmp
    · exact hout

/-- A step writes `k.out`, or writes it as it is, and goes by `k.tmp` and `k.out` alone. -/
theorem step_spec {o : Options} {k : Nat} {t t' : Thread} {files files' : Files}
    (h : step o k (t, files) = .ok (t', files')) :
    ∃ v, files' = Function.update files (outName k) v ∧
      ∀ files₁, Set.EqOn files₁ files (readSet k) →
        step o k (t, files₁) = .ok (t', Function.update files₁ (outName k) v) := by
  have hkeep : ∀ files₁, Set.EqOn files₁ files (readSet k) →
      Function.update files₁ (outName k) (files (outName k)) = files₁ := by
    intro files₁ heq
    rw [← (eqOn_readSet.1 heq).2, Function.update_eq_self]
  obtain ⟨pc, fp, fp2, line, found⟩ := t
  cases pc with
  | openTmp =>
    cases h
    refine ⟨_, (hkeep _ (Set.eqOn_refl _ _)).symm, fun files₁ heq => ?_⟩
    rw [hkeep files₁ heq]
    unfold step
    dsimp only
    rw [(eqOn_readSet.1 heq).1]
  | openOut =>
    cases h
    exact ⟨_, rfl, fun _ _ => rfl⟩
  | read =>
    unfold step at h ⊢
    dsimp only at h ⊢
    cases fp with
    | none => cases h
    | some pos =>
      dsimp only at h ⊢
      refine ⟨files (outName k), ?_, fun files₁ heq => ?_⟩
      · rw [Function.update_eq_self]
        split at h <;> cases h <;> rfl
      · rw [hkeep files₁ heq, (eqOn_readSet.1 heq).1]
        split at h <;> cases h <;> rfl
  | scan =>
    cases h
    exact ⟨_, (hkeep _ (Set.eqOn_refl _ _)).symm, fun files₁ heq => by rw [hkeep files₁ heq]; rfl⟩
  | print =>
    obtain ⟨bs, hbs, h⟩ := bind_ok h
    cases h
    refine ⟨_, rfl, fun files₁ heq => ?_⟩
    unfold step
    dsimp only at hbs ⊢
    rw [hbs, (eqOn_readSet.1 heq).2]
    rfl
  | closeTmp =>
    cases h
    exact ⟨_, (hkeep _ (Set.eqOn_refl _ _)).symm, fun files₁ heq => by rw [hkeep files₁ heq]; rfl⟩
  | closeOut =>
    cases h
    exact ⟨_, (hkeep _ (Set.eqOn_refl _ _)).symm, fun files₁ heq => by rw [hkeep files₁ heq]; rfl⟩
  | done => cases h

theorem confined_step (o : Options) : Confined (step o) readSet writeSet where
  frame := by
    intro k t files t' files' h x hx
    obtain ⟨v, rfl, -⟩ := step_spec h
    exact Function.update_of_ne hx _ _
  agree := by
    intro k t files t' files' files₁ h heq
    obtain ⟨v, rfl, hstep⟩ := step_spec h
    refine ⟨_, hstep files₁ heq, fun x hx => ?_⟩
    rw [Function.update_apply, Function.update_apply, heq hx]
  subset := fun _ _ h => Or.inr h

theorem apart_threads {n : Nat} (hn : n ≤ 99999) :
    Apart readSet writeSet (List.range' 1 n) := by
  intro k hk j hj hne
  rw [List.mem_range'_1] at hk hj
  rw [Set.disjoint_left]
  rintro x rfl (htmp | hout)
  · exact tmpName_ne_outName (by omega) _ htmp.symm
  · exact hne (fileName_inj (by omega) hout).1

/-! ## Interleavings -/

section Interleavings

variable {o : Options} {n : Nat} {files files' : Files} {sched : List Nat} {threads : Nat → Thread}

/-- Where each thread would return alone, none is stuck in an interleaving: until it has returned it can
    take its next step, whatever steps the others have taken. -/
theorem threads_progress (hn : n ≤ 99999)
    (hchunks : ∀ k, 1 ≤ k → k ≤ n →
      ∃ contents out, files (tmpName k) = some contents ∧ grepped o contents = .ok out)
    (hsched : ∀ k ∈ sched, 1 ≤ k ∧ k ≤ n)
    (hrun : interleave (step o) (fun _ => Thread.start, files) sched = .ok (threads, files'))
    {k : Nat} (h1 : 1 ≤ k) (hk : k ≤ n) (hlive : ¬ Returned (threads k)) :
    ∃ c, step o k (threads k, files') = .ok c := by
  obtain ⟨contents, out, htmp, hgrepped⟩ := hchunks k h1 hk
  have hcall := call_grep htmp (tmpName_ne_outName (by omega) _) hgrepped
  refine interleave_progress (confined_step o) (apart_threads hn) (step_returned o) hrun
    (fun k hk => ?_) ?_ hcall hlive
  · have hmem := hsched k hk
    rw [List.mem_range'_1]
    omega
  · rw [List.mem_range'_1]
    omega

/-- An interleaving that runs every thread to its end leaves the files that the calls of `grep` one
    after another leave, and the chunks as they were. -/
theorem interleaved_eq_sequential (hn : n ≤ 99999) (hsched : ∀ k ∈ sched, 1 ≤ k ∧ k ≤ n)
    (hrun : interleave (step o) (fun _ => Thread.start, files) sched = .ok (threads, files'))
    (hend : ∀ k, 1 ≤ k → k ≤ n → Returned (threads k)) :
    (∀ files₁, Calls (step o) Returned (fun _ => Thread.start) (List.range' 1 n) files files₁ ↔
      files₁ = files') ∧
    ∀ k, 1 ≤ k → k ≤ n → files' (tmpName k) = files (tmpName k) := by
  refine ⟨fun files₁ => ?_, fun k h1 hk => ?_⟩
  · refine calls_iff_of_interleave (confined_step o) (apart_threads hn) List.nodup_range'
      (step_returned o) hrun (fun k hk => ?_) fun k hk => ?_
    · have hmem := hsched k hk
      rw [List.mem_range'_1]
      omega
    · rw [List.mem_range'_1] at hk
      exact hend k hk.1 (by omega)
  · refine interleave_frame (confined_step o) hrun fun j hj heq => ?_
    have hmem := hsched j hj
    exact tmpName_ne_outName (by omega) _ heq

end Interleavings

/-- Two threads, the first of them behind. -/
theorem threads_progress_two : ∃ threads files', interleave (step ⟨97, 122, true⟩)
      (fun _ => Thread.start, fun name => if name = tmpName 1 then some [97, 98, 10, 99, 10] else
        if name = tmpName 2 then some [98, 97] else none) [2, 1, 2, 2] = .ok (threads, files') ∧
    ∃ c, step ⟨97, 122, true⟩ 1 (threads 1, files') = .ok c := by
  have hrun : (interleave (step ⟨97, 122, true⟩) (fun _ => Thread.start, fun name =>
        if name = tmpName 1 then some [97, 98, 10, 99, 10] else
          if name = tmpName 2 then some [98, 97] else none) [2, 1, 2, 2]).map
      (fun c => (c.1 1).pc) = .ok .openOut := by decide +kernel
  rcases h : interleave (step ⟨97, 122, true⟩) (fun _ => Thread.start, fun name =>
        if name = tmpName 1 then some [97, 98, 10, 99, 10] else
          if name = tmpName 2 then some [98, 97] else none) [2, 1, 2, 2] with e | ⟨threads, files'⟩
  · rw [h] at hrun
    cases hrun
  · rw [h] at hrun
    have hpc : (threads 1).pc = .openOut := Except.ok.inj hrun
    refine ⟨threads, files', rfl, threads_progress (n := 2) (by decide) (fun k h1 hk => ?_) (by decide) h
      (by decide) (by decide) fun hend => ?_⟩
    · rcases (by omega : k = 1 ∨ k = 2) with rfl | rfl
      · exact ⟨[97, 98, 10, 99, 10], [122, 98, 10], rfl, rfl⟩
      · exact ⟨[98, 97], [98, 122], rfl, rfl⟩
    · rw [Returned, hpc] at hend
      cases hend

/-- Two threads that take turns; `a` is replaced by `z`. -/
theorem interleaved_two : ∃ files',
    (∀ files₁, Calls (step ⟨97, 122, true⟩) Returned (fun _ => Thread.start) (List.range' 1 2)
      (fun name => if name = tmpName 1 then some [97, 98, 10, 99, 10] else
        if name = tmpName 2 then some [98, 97] else none) files₁ ↔ files₁ = files') ∧
    files' (outName 1) = some [122, 98, 10] ∧ files' (outName 2) = some [98, 122] := by
  have hrun : (interleave (step ⟨97, 122, true⟩) (fun _ => Thread.start, fun name =>
        if name = tmpName 1 then some [97, 98, 10, 99, 10] else
          if name = tmpName 2 then some [98, 97] else none)
        [1, 2, 2, 1, 1, 2, 1, 2, 1, 2, 2, 1, 1, 2, 2, 1, 1, 1]).map
      (fun c => ((c.1 1).pc, (c.1 2).pc, c.2 (outName 1), c.2 (outName 2))) =
      .ok (.done, .done, some [122, 98, 10], some [98, 122]) := by
    decide +kernel
  rcases h : interleave (step ⟨97, 122, true⟩) (fun _ => Thread.start, fun name =>
        if name = tmpName 1 then some [97, 98, 10, 99, 10] else
          if name = tmpName 2 then some [98, 97] else none)
        [1, 2, 2, 1, 1, 2, 1, 2, 1, 2, 2, 1, 1, 2, 2, 1, 1, 1] with e | ⟨threads, files'⟩
  · rw [h] at hrun
    cases hrun
  · rw [h] at hrun
    obtain ⟨hend₁, hend₂, hout₁, hout₂⟩ : (threads 1).pc = .done ∧ (threads 2).pc = .done ∧
        files' (outName 1) = some [122, 98, 10] ∧ files' (outName 2) = some [98, 122] := by
      simpa [Except.map] using hrun
    refine ⟨files', (interleaved_eq_sequential (by decide) (by decide) h fun k h1 hk => ?_).1,
      hout₁, hout₂⟩
    rcases (by omega : k = 1 ∨ k = 2) with rfl | rfl
    · exact hend₁
    · exact hend₂

/-! ## Any number of threads -/

/-- The threads `1` to `n` have run to their ends in some order of their steps. -/
def Joined (o : Options) (n : Nat) (files files' : Files) : Prop :=
  ∃ sched threads, (∀ k ∈ sched, 1 ≤ k ∧ k ≤ n) ∧
    interleave (step o) (fun _ => Thread.start, files) sched = .ok (threads, files') ∧
    ∀ k, 1 ≤ k → k ≤ n → Returned (threads k)

/-- A thread whose names are one finds an empty file once it has opened `k.out`. -/
def Emptied (k : Nat) (t : Thread) (files : Files) : Prop :=
  t.pc = .openTmp ∨ t.pc = .openOut ∨
    (t.pc = .read ∨ t.pc = .closeTmp ∨ t.pc = .closeOut ∨ t.pc = .done) ∧
      files (outName k) = some []

section Joined

variable {o : Options} {n k : Nat} {files files' : Files}

theorem Emptied.step {t t' : Thread} (hnames : tmpName k = outName k) (h : Emptied k t files)
    (hstep : step o k (t, files) = .ok (t', files')) :
    Emptied k t' files' ∧
      (files' = files ∨ files' = Function.update files (outName k) (some [])) := by
  obtain ⟨pc, fp, fp2, line, found⟩ := t
  rcases h with h | h | ⟨h | h | h | h, hempty⟩ <;> dsimp only at h <;> subst h
  · cases hstep
    exact ⟨.inr (.inl rfl), .inl rfl⟩
  · cases hstep
    exact ⟨.inr (.inr ⟨.inl rfl, Function.update_self ..⟩), .inr rfl⟩
  · unfold MCGrep.step at hstep
    dsimp only at hstep
    rw [hnames, hempty, Option.getD_some] at hstep
    cases fp with
    | none => cases hstep
    | some pos =>
      dsimp only at hstep
      rw [List.drop_nil] at hstep
      cases hstep
      exact ⟨.inr (.inr ⟨.inr (.inl rfl), hempty⟩), .inl rfl⟩
  · cases hstep
    exact ⟨.inr (.inr ⟨.inr (.inr (.inl rfl)), hempty⟩), .inl rfl⟩
  · cases hstep
    exact ⟨.inr (.inr ⟨.inr (.inr (.inr rfl)), hempty⟩), .inl rfl⟩
  · cases hstep

theorem Emptied.congr {t : Thread} (h : Emptied k t files)
    (hsame : files' (outName k) = files (outName k) ∨ files' (outName k) = some []) :
    Emptied k t files' := by
  refine h.imp_right fun h => h.imp_right fun ⟨hpc, hempty⟩ => ⟨hpc, ?_⟩
  exact hsame.elim (fun heq => heq.trans hempty) id

/-- The threads with one name for both files write nothing. -/
theorem interleave_emptied {sched : List Nat} {threads threads' : Nat → Thread}
    (hrun : interleave (step o) (threads, files) sched = .ok (threads', files'))
    (hinv : ∀ k, 10000000 ≤ k → Emptied k (threads k) files) (hk : 10000000 ≤ k) :
    Emptied k (threads' k) files' := by
  induction sched generalizing threads files with
  | nil =>
    cases hrun
    exact hinv k hk
  | cons j sched ih =>
    obtain ⟨t, files₁, hstep, hrun⟩ := interleave_cons.1 hrun
    refine ih hrun fun k hk => ?_
    by_cases hkj : k = j
    · subst hkj
      rw [Function.update_self]
      exact ((hinv k hk).step (tmpName_eq_outName hk) hstep).1
    · rw [Function.update_of_ne hkj]
      refine (hinv k hk).congr ?_
      by_cases hname : outName k = outName j
      · have hj : 10000000 ≤ j := by
          by_contra hj
          exact hkj (fileName_inj (by omega) hname.symm).1.symm
        rcases ((hinv j hj).step (tmpName_eq_outName hj) hstep).2 with rfl | rfl
        · exact .inl rfl
        · rw [hname]
          exact .inr (Function.update_self ..)
      · obtain ⟨v, rfl, -⟩ := step_spec hstep
        exact .inl (Function.update_of_ne hname ..)

/-- A thread of at most seven digits leaves what its chunk is printed as. -/
theorem Joined.out (h : Joined o n files files') (h1 : 1 ≤ k) (hk : k ≤ n) (hshort : k ≤ 9999999)
    {contents : List UInt8} (htmp : files (tmpName k) = some contents) :
    ∃ out, grepped o contents = .ok out ∧ files' (outName k) = some out := by
  obtain ⟨sched, threads, -, hrun, hend⟩ := h
  have halone : ∀ j ∈ sched, j ≠ k → Disjoint (writeSet j) (readSet k) := by
    intro j _ hne
    rw [Set.disjoint_left]
    rintro x rfl (htmp | hout)
    · exact tmpName_ne_outName hshort j htmp.symm
    · exact hne (fileName_inj hshort hout.symm).1.symm
  obtain ⟨m, hsolo, heq⟩ := interleave_solo (confined_step o) hrun halone
  obtain ⟨out, hgrepped, rfl⟩ := (call_grep_iff htmp (tmpName_ne_outName hshort k)).1
    ⟨_, threads k, hsolo, hend k h1 hk⟩
  exact ⟨out, hgrepped, (eqOn_readSet.1 heq).2.symm.trans (Function.update_self ..)⟩

/-- A thread of more digits leaves an empty file. -/
theorem Joined.out_emptied (h : Joined o n files files') (h1 : 1 ≤ k) (hk : k ≤ n)
    (hlong : 10000000 ≤ k) : files' (outName k) = some [] := by
  obtain ⟨sched, threads, -, hrun, hend⟩ := h
  have hpc : (threads k).pc = .done := hend k h1 hk
  have hinv := interleave_emptied hrun (fun _ _ => .inl rfl) hlong
  rcases hinv with h | h | ⟨-, h⟩
  · rw [hpc] at h
    cases h
  · rw [hpc] at h
    cases h
  · exact h

theorem exists_calls {is : List Nat} (hshort : ∀ k ∈ is, k ≤ 9999999 →
      ∃ contents out, files (tmpName k) = some contents ∧ grepped o contents = .ok out)
    (hlong : ∀ k ∈ is, files (tmpName k) ≠ none) :
    ∃ files', Calls (step o) Returned (fun _ => Thread.start) is files files' := by
  induction is generalizing files with
  | nil => exact ⟨files, rfl⟩
  | cons k is ih =>
    -- a call leaves the chunks that are still to be read
    have hrest : ∀ out, ∃ files', Calls (step o) Returned (fun _ => Thread.start) is
        (Function.update files (outName k) (some out)) files' := by
      refine fun out => ih (fun j hj hjs => ?_) fun j hj => ?_
      · rw [Function.update_of_ne (tmpName_ne_outName hjs k)]
        exact hshort j (List.mem_cons_of_mem k hj) hjs
      · rw [Function.update_apply]
        split
        · exact Option.some_ne_none _
        · exact hlong j (List.mem_cons_of_mem k hj)
    by_cases hk : k ≤ 9999999
    · obtain ⟨contents, out, htmp, hgrepped⟩ := hshort k List.mem_cons_self hk
      obtain ⟨files', hcalls⟩ := hrest out
      exact ⟨files', _, call_grep htmp (tmpName_ne_outName hk k) hgrepped, hcalls⟩
    · obtain ⟨files', hcalls⟩ := hrest []
      exact ⟨files', _, call_grep_same (hlong k List.mem_cons_self)
        (tmpName_eq_outName (by omega)), hcalls⟩

/-- Threads that each end alone can be run to their ends, one after another. -/
theorem exists_joined (hshort : ∀ k, 1 ≤ k → k ≤ n → k ≤ 9999999 →
      ∃ contents out, files (tmpName k) = some contents ∧ grepped o contents = .ok out)
    (hlong : ∀ k, 1 ≤ k → k ≤ n → files (tmpName k) ≠ none) : ∃ files', Joined o n files files' := by
  have hrange : ∀ k, k ∈ List.range' 1 n ↔ 1 ≤ k ∧ k ≤ n := by
    intro k
    rw [List.mem_range'_1]
    omega
  obtain ⟨files', hcalls⟩ := exists_calls (o := o)
    (fun k (hk : k ∈ List.range' 1 n) => hshort k ((hrange k).1 hk).1 ((hrange k).1 hk).2)
    fun k hk => hlong k ((hrange k).1 hk).1 ((hrange k).1 hk).2
  obtain ⟨sched, threads, hsched, hrun, hend, -⟩ :=
    interleave_of_calls List.nodup_range' (fun _ _ => rfl) hcalls
  exact ⟨files', sched, threads, fun k hk => (hrange k).1 (hsched k hk), hrun,
    fun k h1 hk => hend k ((hrange k).2 ⟨h1, hk⟩)⟩

end Joined

end OsBasics.MCGrep
