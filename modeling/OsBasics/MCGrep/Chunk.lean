/-
  One chunk, searched by one thread.

  `fgets` cuts a chunk into pieces, which together are the chunk (`flatten_pieces`);
  what a piece is printed as depends on the piece alone (`printed`). A call of `grep`
  that meets no `%` ends, and `k.out` is then what the pieces are printed as, one after
  the other (`call_grep`).
-/
import OsBasics.MCGrep.Grep

namespace OsBasics.MCGrep

open OsBasics.Lib

/-! ## Pieces -/

/-- What `fgets` returns, call after call; at most `n` calls. -/
def piecesUpTo : Nat → List UInt8 → List (List UInt8)
  | 0, _ => []
  | n + 1, contents =>
    match fgets (bufferSize - 1) contents with
    | [] => []
    | b :: bs => (b :: bs) :: piecesUpTo n (contents.drop (b :: bs).length)

/-- The pieces of a chunk. -/
def pieces (contents : List UInt8) : List (List UInt8) := piecesUpTo contents.length contents

theorem fgets_append_drop (n : Nat) (contents : List UInt8) :
    fgets n contents ++ contents.drop (fgets n contents).length = contents := by
  induction n generalizing contents with
  | zero => rfl
  | succ n ih =>
    cases contents with
    | nil => rfl
    | cons b rest =>
      unfold fgets
      split
      · rfl
      · rw [List.length_cons, List.drop_succ_cons, List.cons_append, ih]

theorem fgets_eq_nil {n : Nat} {contents : List UInt8} (h : fgets (n + 1) contents = []) :
    contents = [] := by
  cases contents with
  | nil => rfl
  | cons b rest =>
    unfold fgets at h
    split at h <;> cases h

theorem flatten_piecesUpTo {n : Nat} {contents : List UInt8} (h : contents.length ≤ n) :
    (piecesUpTo n contents).flatten = contents := by
  induction n generalizing contents with
  | zero => rw [List.length_eq_zero_iff.1 (Nat.le_zero.1 h), piecesUpTo, List.flatten_nil]
  | succ n ih =>
    unfold piecesUpTo
    have happend := fgets_append_drop (bufferSize - 1) contents
    split
    · next hnil => rw [fgets_eq_nil hnil, List.flatten_nil]
    · next b bs hpiece =>
      rw [hpiece] at happend
      rw [List.flatten_cons, ih, happend]
      rw [List.length_drop, List.length_cons]
      omega

/-- The pieces together are the chunk. -/
theorem flatten_pieces (contents : List UInt8) : (pieces contents).flatten = contents :=
  flatten_piecesUpTo le_rfl

/-! ## What is printed -/

/-- What a piece is printed as. -/
def printed (o : Options) (piece : List UInt8) : Except Stuck (List UInt8) :=
  if (scanLine o piece).1 then formatted (cstring (scanLine o piece).2) else .ok []

/-- One output after the other. -/
def printAll {α : Type} (f : α → Except Stuck (List UInt8)) :
    List α → Except Stuck (List UInt8)
  | [] => .ok []
  | a :: l => do
    let bs ← f a
    let bss ← printAll f l
    pure (bs ++ bss)

/-- The bytes of `k.out` for a chunk. -/
def grepped (o : Options) (contents : List UInt8) : Except Stuck (List UInt8) :=
  printAll (printed o) (pieces contents)

/-! ## Without directives -/

theorem formatted_of_not_mem {line : List UInt8} (h : 37 ∉ line) : formatted line = .ok line := by
  induction line with
  | nil => rfl
  | cons b rest ih =>
    rw [List.mem_cons, not_or] at h
    unfold formatted
    rw [if_neg fun heq => h.1 heq.symm, ih h.2]
    rfl

/-! ## The call -/

section Call

variable {o : Options} {k pos : Nat} {files : Files} {contents before out : List UInt8}
  {line : List UInt8} {found : Bool}

theorem writeAt_length (before bs : List UInt8) : writeAt before before.length bs = before ++ bs := by
  unfold writeAt
  rw [List.take_length, List.drop_eq_nil_of_le (Nat.le_add_right _ _), List.append_nil]

theorem step_read {b : UInt8} {bs : List UInt8} (htmp : files (tmpName k) = some contents)
    (hpiece : fgets (bufferSize - 1) (contents.drop pos) = b :: bs) {fp2 : Nat} :
    step o k (⟨.read, some pos, fp2, line, found⟩, files) =
      .ok (⟨.scan, some (pos + (b :: bs).length), fp2, b :: bs, found⟩, files) := by
  unfold step
  dsimp only
  rw [htmp, Option.getD_some, hpiece]

theorem step_scan {fp : Option Nat} {fp2 : Nat} : step o k (⟨.scan, fp, fp2, line, found⟩, files) =
    .ok (⟨if (scanLine o line).1 then .print else .read, fp, fp2, (scanLine o line).2,
      (scanLine o line).1⟩, files) := rfl

theorem step_print (hout : files (outName k) = some before)
    (hformat : formatted (cstring line) = .ok out) {fp : Option Nat} :
    step o k (⟨.print, fp, before.length, line, found⟩, files) =
      .ok (⟨.read, fp, (before ++ out).length, line, found⟩,
        Function.update files (outName k) (some (before ++ out))) := by
  unfold step
  dsimp only
  rw [hformat, hout, Option.getD_some, List.length_append]
  exact congrArg (fun bs => Except.ok (_, Function.update files (outName k) (some bs)))
    (writeAt_length before out)

/-- From a `fgets` to the next. -/
theorem solo_piece (line : List UInt8) (found : Bool) {b : UInt8} {bs : List UInt8} (htmp : files (tmpName k) = some contents)
    (hout : files (outName k) = some before)
    (hpiece : fgets (bufferSize - 1) (contents.drop pos) = b :: bs)
    (hprinted : printed o (b :: bs) = .ok out) :
    ∃ n line' found', solo (step o) k n (⟨.read, some pos, before.length, line, found⟩, files) =
      .ok (⟨.read, some (pos + (b :: bs).length), (before ++ out).length, line', found'⟩,
        Function.update files (outName k) (some (before ++ out))) := by
  have hread : step o k (⟨.read, some pos, before.length, line, found⟩, files) = _ :=
    step_read htmp hpiece
  unfold printed at hprinted
  split at hprinted
  · next hfound =>
    refine ⟨3, (scanLine o (b :: bs)).2, true, solo_succ.2 ⟨_, hread, solo_succ.2 ⟨_, step_scan, ?_⟩⟩⟩
    rw [if_pos hfound, hfound]
    exact solo_succ.2 ⟨_, step_print hout hprinted, rfl⟩
  · next hfound =>
    cases hprinted
    refine ⟨2, (scanLine o (b :: bs)).2, false, solo_succ.2 ⟨_, hread, solo_succ.2 ⟨_, step_scan, ?_⟩⟩⟩
    rw [if_neg hfound, eq_false_of_ne_true hfound, List.append_nil, ← hout, Function.update_eq_self]
    rfl

/-- A piece that is no format stops the thread. -/
theorem solo_piece_stuck (line : List UInt8) (found : Bool) {b : UInt8} {bs : List UInt8}
    {e : Stuck} (htmp : files (tmpName k) = some contents)
    (hpiece : fgets (bufferSize - 1) (contents.drop pos) = b :: bs) (fp2 : Nat)
    (hprinted : printed o (b :: bs) = .error e) :
    ∃ n c, solo (step o) k n (⟨.read, some pos, fp2, line, found⟩, files) = .ok c ∧
      ¬ Returned c.1 ∧ ∀ c', step o k c ≠ .ok c' := by
  have hread : step o k (⟨.read, some pos, fp2, line, found⟩, files) = _ := step_read htmp hpiece
  unfold printed at hprinted
  split at hprinted
  · next hfound =>
    refine ⟨2, _, solo_succ.2 ⟨_, hread, solo_succ.2 ⟨_, step_scan, rfl⟩⟩, ?_, fun c' hstep => ?_⟩
    · rw [if_pos hfound]
      exact fun h => by cases h
    · rw [if_pos hfound] at hstep
      obtain ⟨bs', hformat, -⟩ := bind_ok hstep
      dsimp only at hformat
      rw [hprinted] at hformat
      cases hformat
  · cases hprinted

/-- The last `fgets`, and the two `fclose`. -/
theorem solo_end (htmp : files (tmpName k) = some contents) (hend : contents.drop pos = [])
    {fp2 : Nat} : solo (step o) k 3 (⟨.read, some pos, fp2, line, found⟩, files) =
      .ok (⟨.done, some pos, fp2, line, found⟩, files) := by
  have hread : step o k (⟨.read, some pos, fp2, line, found⟩, files) =
      .ok (⟨.closeTmp, some pos, fp2, line, found⟩, files) := by
    unfold step
    dsimp only
    rw [htmp, Option.getD_some, hend]
    rfl
  exact solo_succ.2 ⟨_, hread, rfl⟩

/-- Writing `k.out` leaves the chunk as it is. -/
theorem update_out_tmp (hnames : tmpName k ≠ outName k) (htmp : files (tmpName k) = some contents)
    (w : Option (List UInt8)) :
    Function.update files (outName k) w (tmpName k) = some contents := by
  rw [Function.update_of_ne hnames, htmp]

/-- The loop over the pieces, and the two `fclose`. -/
theorem solo_pieces (line : List UInt8) (found : Bool)
    (htmp : files (tmpName k) = some contents) (hnames : tmpName k ≠ outName k)
    {m : Nat} (hm : contents.length ≤ pos + m) (hout : files (outName k) = some before)
    (hprinted : printAll (printed o) (piecesUpTo m (contents.drop pos)) = .ok out) :
    ∃ n t, solo (step o) k n (⟨.read, some pos, before.length, line, found⟩, files) =
      .ok (t, Function.update files (outName k) (some (before ++ out))) ∧ Returned t := by
  induction m generalizing pos files before out line found with
  | zero =>
    cases hprinted
    rw [List.append_nil, ← hout, Function.update_eq_self]
    exact ⟨3, _, solo_end htmp (List.drop_eq_nil_of_le hm), rfl⟩
  | succ m ih =>
    unfold piecesUpTo at hprinted
    split at hprinted
    · next hnil =>
      cases hprinted
      rw [List.append_nil, ← hout, Function.update_eq_self]
      exact ⟨3, _, solo_end htmp (fgets_eq_nil hnil), rfl⟩
    · next b bs hpiece =>
      obtain ⟨out₁, hprinted₁, h⟩ := bind_ok hprinted
      obtain ⟨out₂, hprinted₂, h⟩ := bind_ok h
      cases h
      obtain ⟨n₁, line₁, found₁, hsolo₁⟩ := solo_piece line found htmp hout hpiece hprinted₁
      rw [List.drop_drop] at hprinted₂
      have htmp₁ := update_out_tmp hnames htmp (some (before ++ out₁))
      have hm₁ : contents.length ≤ (pos + (b :: bs).length) + m := by
        rw [List.length_cons]
        omega
      obtain ⟨n₂, t, hsolo₂, hend⟩ := ih line₁ found₁ htmp₁ hm₁ (Function.update_self ..) hprinted₂
      refine ⟨n₁ + n₂, t, ?_, hend⟩
      rw [Function.update_idem, List.append_assoc] at hsolo₂
      exact solo_add hsolo₁ hsolo₂

/-- A loop that meets a piece that is no format does not end. -/
theorem solo_pieces_stuck (line : List UInt8) (found : Bool) {e : Stuck}
    (htmp : files (tmpName k) = some contents) (hnames : tmpName k ≠ outName k) {m : Nat}
    (hout : files (outName k) = some before)
    (hprinted : printAll (printed o) (piecesUpTo m (contents.drop pos)) = .error e) :
    ∃ n c, solo (step o) k n (⟨.read, some pos, before.length, line, found⟩, files) = .ok c ∧
      ¬ Returned c.1 ∧ ∀ c', step o k c ≠ .ok c' := by
  induction m generalizing pos files before line found with
  | zero => cases hprinted
  | succ m ih =>
    unfold piecesUpTo at hprinted
    split at hprinted
    · cases hprinted
    · next b bs hpiece =>
      rcases hfirst : printed o (b :: bs) with e₁ | out₁
      · exact solo_piece_stuck line found htmp hpiece _ hfirst
      · obtain ⟨n₁, line₁, found₁, hsolo₁⟩ := solo_piece line found htmp hout hpiece hfirst
        have htmp₁ := update_out_tmp hnames htmp (some (before ++ out₁))
        have hprinted₁ : printAll (printed o) (piecesUpTo m (contents.drop (pos + (b :: bs).length))) =
            .error e := by
          unfold printAll at hprinted
          rw [hfirst, List.drop_drop] at hprinted
          rcases hrest : printAll (printed o) (piecesUpTo m (contents.drop (pos + (b :: bs).length)))
            with e₂ | out₂
          · rw [hrest] at hprinted
            exact hprinted
          · rw [hrest] at hprinted
            cases hprinted
        obtain ⟨n₂, c, hsolo₂, hc⟩ := ih line₁ found₁ htmp₁ (Function.update_self ..) hprinted₁
        exact ⟨n₁ + n₂, c, solo_add hsolo₁ hsolo₂, hc⟩

/-- The two `fopen`. -/
theorem solo_open (htmp : files (tmpName k) ≠ none) :
    solo (step o) k 2 (Thread.start, files) =
      .ok (⟨.read, some 0, ([] : List UInt8).length, [], false⟩,
        Function.update files (outName k) (some [])) := by
  have hfp : step o k (Thread.start, files) = .ok (⟨.openOut, some 0, 0, [], false⟩, files) := by
    obtain ⟨contents, htmp⟩ := Option.ne_none_iff_exists'.1 htmp
    unfold step
    dsimp only [Thread.start]
    rw [htmp]
    rfl
  exact solo_succ.2 ⟨_, hfp, rfl⟩

/-- A call that meets no `%` ends, and `k.out` is what the pieces of `k.tmp` are printed as. -/
theorem call_grep (htmp : files (tmpName k) = some contents) (hnames : tmpName k ≠ outName k)
    (hgrepped : grepped o contents = .ok out) :
    Call (step o) Returned k Thread.start files (Function.update files (outName k) (some out)) := by
  have hopen := solo_open (o := o) (k := k) (htmp ▸ Option.some_ne_none contents)
  have htmp₁ := update_out_tmp hnames htmp (some [])
  obtain ⟨n, t, hsolo, hend⟩ := solo_pieces [] false htmp₁ hnames
    (show contents.length ≤ 0 + contents.length by omega) (Function.update_self ..) hgrepped
  rw [Function.update_idem, List.nil_append] at hsolo
  exact ⟨2 + n, t, solo_add hopen hsolo, hend⟩

/-- A call ends only so. -/
theorem call_grep_iff (htmp : files (tmpName k) = some contents) (hnames : tmpName k ≠ outName k)
    {files' : Files} : Call (step o) Returned k Thread.start files files' ↔
      ∃ out, grepped o contents = .ok out ∧ files' = Function.update files (outName k) (some out) := by
  constructor
  · intro hcall
    rcases hgrepped : grepped o contents with e | out
    · have hopen := solo_open (o := o) (k := k) (htmp ▸ Option.some_ne_none contents)
      have htmp₁ := update_out_tmp hnames htmp (some [])
      obtain ⟨n, c, hsolo, hlive, hstuck⟩ :=
        solo_pieces_stuck [] false htmp₁ hnames (Function.update_self ..)
          (show printAll (printed o) (piecesUpTo contents.length (contents.drop 0)) = .error e from hgrepped)
      obtain ⟨m, t, hend, hdone⟩ := hcall
      obtain ⟨c', hstep⟩ := solo_next (step_returned o) hend hdone (solo_add hopen hsolo) hlive
      exact absurd hstep (hstuck c')
    · exact ⟨out, rfl, hcall.unique (step_returned o) (call_grep htmp hnames hgrepped)⟩
  · rintro ⟨out, hgrepped, rfl⟩
    exact call_grep htmp hnames hgrepped

/-- When the names are one, `fopen` of `k.out` empties the chunk. -/
theorem call_grep_same (htmp : files (tmpName k) ≠ none) (hnames : tmpName k = outName k) :
    Call (step o) Returned k Thread.start files (Function.update files (outName k) (some [])) := by
  have htmp₁ : Function.update files (outName k) (some []) (tmpName k) = some [] := by
    rw [hnames, Function.update_self]
  exact ⟨2 + 3, _, solo_add (solo_open htmp) (solo_end htmp₁ List.drop_nil), rfl⟩

end Call

end OsBasics.MCGrep
