/-
  One chunk, line by line.

  `fgets` cuts no piece across a line end (`pieces_lines`), and a piece is printed as
  less than itself unless it has the search character, and neither a `%` nor a NUL after
  the replacement (`printed_verbatim`, `Verbatim.of_length`). So `k.out` is the matching
  lines exactly when each piece of a matching line is such a piece, and the thread finds
  its chunk (`grep_lines_iff`).
-/
import OsBasics.MCGrep.Sequential

namespace OsBasics.MCGrep

open OsBasics.Lib

/-! ## Pieces of lines -/

section Pieces

variable {n m : Nat} {l rest contents : List UInt8}

theorem fgets_length_le (n : Nat) (contents : List UInt8) : (fgets n contents).length ≤ contents.length := by
  have h := congrArg List.length (fgets_append_drop n contents)
  rw [List.length_append] at h
  omega

/-- The number of calls does not matter once it is large enough. -/
theorem piecesUpTo_eq (hn : contents.length ≤ n) (hm : contents.length ≤ m) :
    piecesUpTo n contents = piecesUpTo m contents := by
  induction n generalizing m contents with
  | zero =>
    rw [List.length_eq_zero_iff.1 (Nat.le_zero.1 hn)]
    cases m <;> rfl
  | succ n ih =>
    cases m with
    | zero =>
      rw [List.length_eq_zero_iff.1 (Nat.le_zero.1 hm)]
      rfl
    | succ m =>
      unfold piecesUpTo
      split
      · rfl
      · next b bs _ =>
        have hshort : (contents.drop (b :: bs).length).length + 1 ≤ contents.length ∨ contents = [] := by
          rw [List.length_drop, List.length_cons, ← List.length_eq_zero_iff]
          omega
        rcases hshort with hshort | rfl
        · rw [ih (m := m) (by omega) (by omega)]
        · rw [List.drop_nil, ih (m := m) (Nat.zero_le _) (Nat.zero_le _)]

theorem nil_notMem_piecesUpTo (n : Nat) (contents : List UInt8) : [] ∉ piecesUpTo n contents := by
  induction n generalizing contents with
  | zero => exact List.not_mem_nil
  | succ n ih =>
    unfold piecesUpTo
    split
    · exact List.not_mem_nil
    · exact fun h => ih _ ((List.mem_cons.1 h).resolve_left (List.cons_ne_nil _ _).symm)

theorem pieces_cons (h : contents ≠ []) : pieces contents =
    fgets (bufferSize - 1) contents :: pieces (contents.drop (fgets (bufferSize - 1) contents).length) := by
  obtain ⟨m, hm⟩ := Nat.exists_eq_succ_of_ne_zero fun h0 => h (List.length_eq_zero_iff.1 h0)
  conv_lhs => rw [pieces, hm, piecesUpTo]
  split
  · next hnil => exact absurd (fgets_eq_nil hnil) h
  · next b bs hpiece =>
    rw [hpiece, pieces, piecesUpTo_eq _ le_rfl]
    rw [List.length_drop, List.length_cons]
    omega

/-- `fgets` does not look behind a line end. -/
theorem fgets_append (h : 10 ∈ l) : fgets n (l ++ rest) = fgets n l := by
  induction l generalizing n with
  | nil => cases h
  | cons b l ih =>
    cases n with
    | zero => rfl
    | succ n =>
      rw [List.cons_append]
      unfold fgets
      by_cases hb : b = 10
      · rw [if_pos hb, if_pos hb]
      · rw [if_neg hb, if_neg hb, ih ((List.mem_cons.1 h).resolve_left fun h => hb h.symm)]

theorem pieces_append (h : ∀ b ∈ l.getLast?, b = 10) : pieces (l ++ rest) = pieces l ++ pieces rest := by
  induction hlen : l.length using Nat.strong_induction_on generalizing l with
  | _ len ih =>
    by_cases hnil : l = []
    · subst hnil
      rfl
    · have hlast : 10 ∈ l := by
        have hsome := List.getLast?_eq_some_getLast hnil
        exact h _ hsome ▸ List.getLast_mem hnil
      have hle := fgets_length_le (bufferSize - 1) l
      have hpos : 0 < (fgets (bufferSize - 1) l).length :=
        List.length_pos_of_ne_nil fun h0 => hnil (fgets_eq_nil h0)
      have hdrop := ih (l.drop (fgets (bufferSize - 1) l).length).length
        (by rw [List.length_drop]; omega) (l := l.drop (fgets (bufferSize - 1) l).length)
        (fun b hb => by
          rw [List.getLast?_drop] at hb
          split at hb
          · cases hb
          · exact h b hb) rfl
      rw [pieces_cons fun h => hnil (List.append_eq_nil_iff.1 h).1, pieces_cons hnil, fgets_append hlast,
        List.drop_append_of_le_length hle, hdrop, List.cons_append]

/-- The pieces of the lines. -/
theorem pieces_lines (contents : List UInt8) : pieces contents = (splitLines contents).flatMap pieces := by
  have hall : ∀ ls : List (List UInt8), (ls.IsChain fun a b =>
        ∃ ha hb, (fun b _ => decide (b ≠ 10)) (a.getLast ha) (b.head hb) = false) →
      pieces ls.flatten = ls.flatMap pieces := by
    intro ls hcut
    induction ls with
    | nil => rfl
    | cons line ls ih =>
      rw [List.flatten_cons, List.flatMap_cons]
      cases ls with
      | nil => rw [List.flatten_nil, List.flatMap_nil, List.append_nil, List.append_nil]
      | cons next ls =>
        obtain ⟨⟨hline, hnext, hend⟩, htail⟩ := List.isChain_cons_cons.1 hcut
        rw [pieces_append fun b hb => ?_, ih htail]
        rw [List.getLast?_eq_some_getLast hline, Option.mem_some] at hb
        rw [← hb]
        exact not_not.1 (of_decide_eq_false hend)
  have h := hall (splitLines contents) (List.isChain_getLast_head_splitBy (fun b _ => decide (b ≠ 10)) contents)
  unfold splitLines at h ⊢
  rwa [List.flatten_splitBy] at h

end Pieces

/-! ## What is printed whole -/

/-- The piece has the search character, and after the replacement neither a `%` nor a NUL. -/
def Verbatim (o : Options) (piece : List UInt8) : Prop :=
  o.findChar ∈ piece ∧ 37 ∉ piece.map (replaced o) ∧ 0 ∉ piece.map (replaced o)

instance (o : Options) : DecidablePred (Verbatim o) := fun piece =>
  inferInstanceAs (Decidable (o.findChar ∈ piece ∧ 37 ∉ piece.map (replaced o) ∧
    0 ∉ piece.map (replaced o)))

/-- What a line is to be printed as. -/
def matchedLine (o : Options) (line : List UInt8) : List UInt8 :=
  if o.findChar ∈ line then line.map (replaced o) else []

/-- The lines with the search character, each whole, with the replacement. -/
def matched (o : Options) (contents : List UInt8) : List UInt8 :=
  ((splitLines contents).filter fun line => o.findChar ∈ line).flatMap fun line => line.map (replaced o)

section Lines

variable {o : Options} {piece line contents out x : List UInt8}

theorem sum_weight_lt {l : List UInt8} (h : 37 ∈ l) : (l.map weight).sum < 2 * l.length := by
  induction l with
  | nil => cases h
  | cons b l ih =>
    have hle := sum_weight_le l
    rw [List.map_cons, List.sum_cons, List.length_cons]
    rcases List.mem_cons.1 h with rfl | h
    · rw [weight, if_pos rfl]
      omega
    · have hrest := ih h
      rw [weight]
      split <;> omega

theorem printed_verbatim (h0 : 0 ∉ piece) (h : Verbatim o piece) :
    printed o piece = .ok (piece.map (replaced o)) := by
  rw [printed_cstring h0, if_pos h.1, takeWhile_of_not_mem h.2.2, formatted_of_not_mem h.2.1]

/-- A piece that is printed as something as long as itself. -/
theorem Verbatim.of_length (h0 : 0 ∉ piece) (hne : piece ≠ []) (h : printed o piece = .ok out)
    (hlen : out.length = piece.length) : Verbatim o piece := by
  rw [printed_cstring h0] at h
  split at h
  · next hfind =>
    have hout := formatted_length h
    have hweight := sum_weight_le (cstring (piece.map (replaced o)))
    have hmap : (piece.map (replaced o)).length = piece.length := List.length_map _
    have hprefix : (cstring (piece.map (replaced o))).Sublist (piece.map (replaced o)) :=
      List.takeWhile_sublist _
    have hwhole : cstring (piece.map (replaced o)) = piece.map (replaced o) :=
      hprefix.eq_of_length_le (by omega)
    refine ⟨hfind, fun hpercent => ?_, fun hnul => ?_⟩
    · rw [← hwhole] at hpercent
      have := sum_weight_lt hpercent
      have := hprefix.length_le
      omega
    · have := List.takeWhile_eq_self_iff.1 hwhole 0 hnul
      exact absurd this (by decide)
  · cases h
    exact absurd (List.length_eq_zero_iff.1 hlen.symm) hne

theorem printAll_pure {α : Type} (g : α → List UInt8) (l : List α) :
    printAll (fun a => .ok (g a)) l = .ok (l.flatMap g) := by
  induction l with
  | nil => rfl
  | cons a l ih => exact printAll_cons.2 ⟨_, _, rfl, ih, List.flatMap_cons⟩

theorem matched_eq (o : Options) (contents : List UInt8) :
    matched o contents = (splitLines contents).flatMap (matchedLine o) := by
  unfold matched
  induction splitLines contents with
  | nil => rfl
  | cons line ls ih =>
    rw [List.flatMap_cons, ← ih, matchedLine, List.filter_cons]
    by_cases hfind : o.findChar ∈ line
    · rw [if_pos (decide_eq_true hfind), if_pos hfind, List.flatMap_cons]
    · rw [if_neg (fun h => hfind (of_decide_eq_true h)), if_neg hfind, List.nil_append]

theorem mem_pieces (hpiece : piece ∈ pieces line) : ∀ b ∈ piece, b ∈ line := fun b hb => by
  rw [← flatten_pieces line]
  exact List.mem_flatten_of_mem hpiece hb

theorem flatMap_pieces (g : UInt8 → UInt8) (line : List UInt8) :
    (pieces line).flatMap (List.map g) = line.map g := by
  rw [List.flatMap_def, ← List.map_flatten, flatten_pieces]

/-- The pieces of a line are printed as no more than the line, and as much only when each of them is
    printed whole. -/
theorem printAll_pieces_length (h0 : 0 ∉ line) (h : printAll (printed o) (pieces line) = .ok x) :
    x.length ≤ (matchedLine o line).length ∧ (x.length = (matchedLine o line).length →
      o.findChar ∈ line → ∀ piece ∈ pieces line, Verbatim o piece) := by
  have h0 : ∀ piece ∈ pieces line, 0 ∉ piece := fun piece hpiece h => h0 (mem_pieces hpiece 0 h)
  by_cases hfind : o.findChar ∈ line
  · have hwhole : printAll (fun piece => .ok (piece.map (replaced o))) (pieces line) =
        .ok (matchedLine o line) := by
      rw [printAll_pure, flatMap_pieces, matchedLine, if_pos hfind]
    obtain ⟨hle, heq⟩ := printAll_length (P := Verbatim o) (fun piece hpiece y z hy hz => by
      cases hz
      rw [List.length_map]
      exact ⟨printed_length_le hy, fun hlen =>
        Verbatim.of_length (h0 piece hpiece) (fun hnil => nil_notMem_piecesUpTo _ line (hnil ▸ hpiece)) hy hlen⟩)
      h hwhole
    exact ⟨hle, fun hlen _ => heq hlen⟩
  · have hnone : ∀ piece ∈ pieces line, printed o piece = .ok [] := fun piece hpiece => by
      rw [printed_cstring (h0 piece hpiece), if_neg fun h => hfind (mem_pieces hpiece _ h)]
    rw [printAll_congr hnone, printAll_nil] at h
    cases h
    exact ⟨Nat.zero_le _, fun _ h => absurd h hfind⟩

theorem printAll_pieces_verbatim (h0 : 0 ∉ line)
    (h : o.findChar ∈ line → ∀ piece ∈ pieces line, Verbatim o piece) :
    printAll (printed o) (pieces line) = .ok (matchedLine o line) := by
  have h0 : ∀ piece ∈ pieces line, 0 ∉ piece := fun piece hpiece h => h0 (mem_pieces hpiece 0 h)
  unfold matchedLine
  split
  · next hfind =>
    rw [printAll_congr fun piece hpiece => printed_verbatim (h0 piece hpiece) (h hfind piece hpiece),
      printAll_pure, flatMap_pieces]
  · next hfind =>
    have hnone : ∀ piece ∈ pieces line, printed o piece = .ok [] := fun piece hpiece => by
      rw [printed_cstring (h0 piece hpiece), if_neg fun h => hfind (mem_pieces hpiece _ h)]
    rw [printAll_congr hnone, printAll_nil]

/-- A chunk is printed as its matching lines exactly when the pieces of these are printed whole. -/
theorem grepped_iff (h0 : 0 ∉ contents) : grepped o contents = .ok (matched o contents) ↔
    ∀ line ∈ splitLines contents, o.findChar ∈ line → ∀ piece ∈ pieces line, Verbatim o piece := by
  have h0 : ∀ line ∈ splitLines contents, 0 ∉ line := fun line hline h => by
    refine h0 ?_
    rw [← List.flatten_splitBy (fun b _ => decide (b ≠ 10)) contents]
    exact List.mem_flatten_of_mem hline h
  rw [grepped, pieces_lines, printAll_flatMap, matched_eq, ← printAll_pure]
  constructor
  · intro h
    have hwhole := printAll_pure (matchedLine o) (splitLines contents)
    exact (printAll_length (P := fun line => o.findChar ∈ line → ∀ piece ∈ pieces line, Verbatim o piece)
      (fun line hline y z hy hz => by
        cases hz
        exact printAll_pieces_length (h0 line hline) hy) (h.trans hwhole) hwhole).2 rfl
  · exact fun h => printAll_congr fun line hline => printAll_pieces_verbatim (h0 line hline) (h line hline)

end Lines

/-! ## grep -/

/-- After `grep(k)` the file `k.out` is the matching lines of the chunk exactly when, if there is one,
    `k.out` is not `k.tmp` itself, and each piece of such a line is printed whole. -/
theorem grep_lines_iff {o : Options} {k : Nat} {files : Files} {contents : List UInt8} (h0 : 0 ∉ contents)
    (htmp : files (tmpName k) = some contents) :
    (∃ files', Call (step o) Returned k Thread.start files files' ∧
      files' (outName k) = some (matched o contents)) ↔
      ∀ line ∈ splitLines contents, o.findChar ∈ line →
        k ≤ 9999999 ∧ ∀ piece ∈ pieces line, Verbatim o piece := by
  by_cases hk : k ≤ 9999999
  · simp only [hk, true_and]
    rw [← grepped_iff h0]
    constructor
    · rintro ⟨files', hcall, hout⟩
      obtain ⟨out, hgrepped, rfl⟩ := (call_grep_iff htmp (tmpName_ne_outName hk k)).1 hcall
      rw [Function.update_self, Option.some.injEq] at hout
      rw [hgrepped, hout]
    · intro hgrepped
      exact ⟨_, call_grep htmp (tmpName_ne_outName hk k) hgrepped, Function.update_self ..⟩
  · simp only [hk, false_and]
    have hnames : tmpName k = outName k := tmpName_eq_outName (by omega)
    have hend := call_grep_same (o := o) (htmp ▸ Option.some_ne_none contents) hnames
    constructor
    · rintro ⟨files', hcall, hout⟩ line hline hfind
      rw [hcall.unique (step_returned o) hend, Function.update_self, Option.some.injEq, matched_eq] at hout
      have hempty := List.flatMap_eq_nil_iff.1 hout.symm line hline
      rw [matchedLine, if_pos hfind, List.map_eq_nil_iff] at hempty
      rw [hempty] at hfind
      cases hfind
    · intro hnone
      refine ⟨_, hend, ?_⟩
      have hempty : (splitLines contents).flatMap (matchedLine o) = [] :=
        List.flatMap_eq_nil_iff.2 fun line hline => if_neg (hnone line hline)
      rw [Function.update_self, matched_eq, hempty]

theorem grep_lines_two : (∃ files', Call (step ⟨97, 122, true⟩) Returned 1 Thread.start
      (fun name => if name = tmpName 1 then some [97, 10, 98, 10] else none) files' ∧
      files' (outName 1) = some (matched ⟨97, 122, true⟩ [97, 10, 98, 10])) ↔
    ∀ line ∈ splitLines [97, 10, 98, 10], 97 ∈ line →
      1 ≤ 9999999 ∧ ∀ piece ∈ pieces line, Verbatim ⟨97, 122, true⟩ piece :=
  grep_lines_iff (by decide) (by decide)

/-- `fprintf` prints the line `50%% off` as `50% off`. -/
theorem grep_loses_line : ¬ ∃ files', Call (step ⟨53, 0, false⟩) Returned 1 Thread.start
      (fun name => if name = tmpName 1 then some [53, 48, 37, 37, 32, 111, 102, 102, 10] else none) files' ∧
      files' (outName 1) = some (matched ⟨53, 0, false⟩ [53, 48, 37, 37, 32, 111, 102, 102, 10]) := by
  rintro ⟨files', hcall, hout⟩
  have htmp : (fun name => if name = tmpName 1 then some [53, 48, 37, 37, 32, 111, 102, 102, 10] else none)
      (tmpName 1) = some [53, 48, 37, 37, 32, 111, 102, 102, (10 : UInt8)] := if_pos rfl
  obtain ⟨out, hgrepped, rfl⟩ := (call_grep_iff htmp (by decide)).1 hcall
  have hprinted : grepped ⟨53, 0, false⟩ [53, 48, 37, 37, 32, 111, 102, 102, 10] =
      .ok [53, 48, 37, 32, 111, 102, 102, 10] := by decide
  rw [hprinted, Except.ok.injEq] at hgrepped
  rw [Function.update_self, ← hgrepped] at hout
  exact absurd hout (by decide)

end OsBasics.MCGrep
