/-
  What a line is printed as, whole and in parts.

  Without NUL bytes the loop over a line replaces the search character in all of it
  (`printed_eq`), and `fprintf` takes one byte for every two `%` (`formatted_length`).
  Parts of a line that are printed by themselves are never more than the line, and
  as much only when every part has the search character (`printAll_parts`); then they
  are the line (`printAll_parts_eq`).
-/
import Mathlib.Data.List.TakeWhile
import OsBasics.MCGrep.Chunk

namespace OsBasics.MCGrep

open OsBasics.Lib

/-! ## One piece -/

/-- What the loop makes of a character. -/
def replaced (o : Options) (b : UInt8) : UInt8 :=
  if o.replaceFlag ∧ b = o.findChar then o.replaceWith else b

theorem scanChars_found (o : Options) (line : List UInt8) :
    (scanChars o line).1 = true ↔ o.findChar ∈ line := by
  induction line with
  | nil => exact iff_of_false Bool.false_ne_true List.not_mem_nil
  | cons b rest ih =>
    unfold scanChars
    by_cases hb : b = o.findChar
    · refine iff_of_true ?_ (hb ▸ List.mem_cons_self)
      split
      · rfl
      · next hflag =>
        rw [if_pos ⟨hb, by simpa [hb] using hflag⟩]
    · rw [if_neg fun h => hb h.1, if_neg fun h => hb h.1, List.mem_cons]
      exact ih.trans (or_iff_right fun h => hb h.symm).symm

theorem scanChars_line (o : Options) (line : List UInt8) :
    (scanChars o line).2 = line.map (replaced o) := by
  induction line with
  | nil => rfl
  | cons b rest ih =>
    unfold scanChars
    split
    · next h =>
      have hid : replaced o = id := by
        funext c
        exact if_neg fun hc => h.2 hc.1
      rw [hid, List.map_id]
    · split
      · next h =>
        rw [List.map_cons, ih, replaced, if_pos ⟨h.2, h.1⟩]
      · next h =>
        rw [List.map_cons, ih, replaced, if_neg fun hc => h ⟨hc.2, hc.1⟩]

theorem takeWhile_of_not_mem {line : List UInt8} (h : 0 ∉ line) : cstring line = line :=
  List.takeWhile_eq_self_iff.2 fun b hb => decide_eq_true fun h0 : b = 0 => h (h0 ▸ hb)

theorem printed_cstring {o : Options} {piece : List UInt8} (hpiece : 0 ∉ piece) : printed o piece =
    if o.findChar ∈ piece then formatted (cstring (piece.map (replaced o))) else .ok [] := by
  have hdrop : piece.dropWhile (· ≠ 0) = [] :=
    List.dropWhile_eq_nil_iff.2 fun b hb => decide_eq_true fun h0 : b = 0 => hpiece (h0 ▸ hb)
  unfold printed scanLine
  dsimp only
  rw [takeWhile_of_not_mem hpiece, hdrop, List.append_nil, scanChars_line]
  simp only [scanChars_found]

theorem printed_eq {o : Options} {piece : List UInt8} (hpiece : 0 ∉ piece)
    (ho : o.replaceFlag → o.replaceWith ≠ 0) : printed o piece =
      if o.findChar ∈ piece then formatted (piece.map (replaced o)) else .ok [] := by
  have hmap : 0 ∉ piece.map (replaced o) := by
    intro h
    obtain ⟨b, hb, h0⟩ := List.mem_map.1 h
    unfold replaced at h0
    split at h0
    · next hflag => exact ho hflag.1 h0
    · exact hpiece (h0 ▸ hb)
  rw [printed_cstring hpiece, takeWhile_of_not_mem hmap]

/-! ## fprintf -/

/-- `fprintf` takes the bytes for a format that asks for no argument. -/
def IsFormat (l : List UInt8) : Prop := ∃ out, formatted l = .ok out

instance (l : List UInt8) : Decidable (IsFormat l) :=
  match h : formatted l with
  | .ok out => .isTrue ⟨out, h⟩
  | .error _ => .isFalse fun ⟨_, h'⟩ => by
    rw [h] at h'
    cases h'

/-- Two of `%` are printed as one. -/
def weight (b : UInt8) : Nat := if b = 37 then 1 else 2

theorem formatted_length {l out : List UInt8} (h : formatted l = .ok out) :
    2 * out.length = (l.map weight).sum := by
  induction l using formatted.induct generalizing out with
  | case1 =>
    cases h
    rfl
  | case2 => cases h
  | case3 rest ih =>
    rw [formatted, if_pos rfl, if_pos rfl] at h
    obtain ⟨out', hout, rfl⟩ := map_ok h
    rw [List.length_cons, Nat.mul_succ, ih hout, List.map_cons, List.map_cons, List.sum_cons,
      List.sum_cons, weight, if_pos rfl]
    omega
  | case4 c rest hc =>
    unfold formatted at h
    rw [if_pos rfl] at h
    dsimp only at h
    rw [if_neg hc] at h
    cases h
  | case5 b rest hb ih =>
    unfold formatted at h
    rw [if_neg hb] at h
    obtain ⟨out', hout, rfl⟩ := map_ok h
    rw [List.length_cons, Nat.mul_succ, ih hout, List.map_cons, List.sum_cons, weight, if_neg hb,
      Nat.add_comm]

theorem sum_weight_le (l : List UInt8) : (l.map weight).sum ≤ 2 * l.length := by
  induction l with
  | nil => exact le_rfl
  | cons b l ih =>
    rw [List.map_cons, List.sum_cons, List.length_cons, weight]
    split <;> omega

/-- A piece is printed as no more than itself. -/
theorem printed_length_le {o : Options} {piece out : List UInt8} (h : printed o piece = .ok out) :
    out.length ≤ piece.length := by
  unfold printed at h
  split at h
  · have hlen := formatted_length h
    have hweight := sum_weight_le (cstring (scanLine o piece).2)
    have hcut : (cstring (scanLine o piece).2).length ≤ (scanLine o piece).2.length :=
      (List.takeWhile_sublist _).length_le
    have hscan : (scanLine o piece).2.length = piece.length := by
      unfold scanLine
      rw [List.length_append, scanChars_line, List.length_map, ← List.length_append]
      exact congrArg List.length (List.takeWhile_append_dropWhile ..)
    omega
  · cases h
    exact Nat.zero_le _

theorem formatted_append {l l' out out' : List UInt8} (h : formatted l = .ok out)
    (h' : formatted l' = .ok out') : formatted (l ++ l') = .ok (out ++ out') := by
  induction l using formatted.induct generalizing out with
  | case1 =>
    cases h
    exact h'
  | case2 => cases h
  | case3 rest ih =>
    rw [formatted, if_pos rfl, if_pos rfl] at h
    obtain ⟨out₁, hout, rfl⟩ := map_ok h
    rw [List.cons_append, List.cons_append, formatted, if_pos rfl, if_pos rfl, ih hout]
    rfl
  | case4 c rest hc =>
    unfold formatted at h
    rw [if_pos rfl] at h
    dsimp only at h
    rw [if_neg hc] at h
    cases h
  | case5 b rest hb ih =>
    unfold formatted at h
    rw [if_neg hb] at h
    obtain ⟨out₁, hout, rfl⟩ := map_ok h
    rw [List.cons_append]
    unfold formatted
    rw [if_neg hb, ih hout]
    rfl

/-! ## Outputs side by side -/

section Compare

variable {α β : Type} {f g : α → Except Stuck (List UInt8)} {l l' : List α} {out out' : List UInt8}

theorem printAll_append (l l' : List α) : printAll f (l ++ l') = (do
    let x ← printAll f l
    let y ← printAll f l'
    pure (x ++ y)) := by
  induction l with
  | nil =>
    rcases h : printAll f l' with e | y
    · exact h
    · exact h
  | cons a l ih =>
    rw [List.cons_append, printAll, printAll, ih]
    rcases f a with e | x
    · rfl
    rcases printAll f l with e | y
    · rfl
    rcases printAll f l' with e | z
    · rfl
    · exact congrArg Except.ok (List.append_assoc x y z).symm

theorem printAll_flatMap (h : β → List α) (l : List β) :
    printAll f (l.flatMap h) = printAll (fun b => printAll f (h b)) l := by
  induction l with
  | nil => rfl
  | cons b l ih =>
    rw [List.flatMap_cons, printAll_append, ih]
    rfl

theorem printAll_map (h : β → α) (l : List β) :
    printAll f (l.map h) = printAll (fun b => f (h b)) l := by
  induction l with
  | nil => rfl
  | cons b l ih =>
    rw [List.map_cons]
    unfold printAll
    rw [ih]

theorem printAll_nil (l : List α) : printAll (fun _ => .ok []) l = .ok [] := by
  induction l with
  | nil => rfl
  | cons a l ih =>
    unfold printAll
    rw [ih]
    rfl

theorem printAll_congr (h : ∀ a ∈ l, f a = g a) : printAll f l = printAll g l := by
  induction l with
  | nil => rfl
  | cons a l ih =>
    unfold printAll
    rw [h a List.mem_cons_self, ih fun a ha => h a (List.mem_cons_of_mem _ ha)]

theorem printAll_cons {a : α} : printAll f (a :: l) = .ok out ↔
    ∃ x y, f a = .ok x ∧ printAll f l = .ok y ∧ out = x ++ y := by
  constructor
  · intro h
    obtain ⟨x, hx, h⟩ := bind_ok h
    obtain ⟨y, hy, h⟩ := bind_ok h
    exact ⟨x, y, hx, hy, (Except.ok.inj h).symm⟩
  · rintro ⟨x, y, hx, hy, rfl⟩
    unfold printAll
    rw [hx, hy]
    rfl

theorem printAll_length_le {w : α → Nat} (hw : ∀ a ∈ l, ∀ x, f a = .ok x → x.length ≤ w a)
    (h : printAll f l = .ok out) : out.length ≤ (l.map w).sum := by
  induction l generalizing out with
  | nil =>
    cases h
    exact Nat.zero_le _
  | cons a l ih =>
    obtain ⟨x, y, hx, hy, rfl⟩ := printAll_cons.1 h
    have hfirst := hw a List.mem_cons_self x hx
    have hrest := ih (fun a ha => hw a (List.mem_cons_of_mem _ ha)) hy
    rw [List.length_append, List.map_cons, List.sum_cons]
    omega

theorem printAll_mem (h : printAll f l = .ok out) {a : α} (ha : a ∈ l) : ∃ x, f a = .ok x := by
  induction l generalizing out with
  | nil => cases ha
  | cons b l ih =>
    obtain ⟨x, y, hx, hy, -⟩ := printAll_cons.1 h
    rcases List.mem_cons.1 ha with rfl | ha
    · exact ⟨x, hx⟩
    · exact ih hy ha

/-- Where one output is never longer than the other, both are the same only when each of their
    parts is. -/
theorem printAll_length {P : α → Prop}
    (hle : ∀ a ∈ l, ∀ x y, f a = .ok x → g a = .ok y →
      x.length ≤ y.length ∧ (x.length = y.length → P a))
    (hf : printAll f l = .ok out) (hg : printAll g l = .ok out') :
    out.length ≤ out'.length ∧ (out.length = out'.length → ∀ a ∈ l, P a) := by
  induction l generalizing out out' with
  | nil =>
    cases hf
    cases hg
    exact ⟨le_rfl, fun _ a ha => absurd ha List.not_mem_nil⟩
  | cons a l ih =>
    obtain ⟨x, y, hx, hy, rfl⟩ := printAll_cons.1 hf
    obtain ⟨x', y', hx', hy', rfl⟩ := printAll_cons.1 hg
    obtain ⟨hle₁, heq₁⟩ := hle a List.mem_cons_self x x' hx hx'
    obtain ⟨hle₂, heq₂⟩ := ih (fun a ha => hle a (List.mem_cons_of_mem _ ha)) hy hy'
    rw [List.length_append, List.length_append]
    refine ⟨by omega, fun heq b hb => ?_⟩
    rcases List.mem_cons.1 hb with rfl | hb
    · exact heq₁ (by omega)
    · exact heq₂ (by omega) b hb

theorem printAll_same (h : ∀ a ∈ l, ∃ x, f a = .ok x ∧ g a = .ok x) :
    ∃ out, printAll f l = .ok out ∧ printAll g l = .ok out := by
  induction l with
  | nil => exact ⟨[], rfl, rfl⟩
  | cons a l ih =>
    obtain ⟨x, hf, hg⟩ := h a List.mem_cons_self
    obtain ⟨y, hf', hg'⟩ := ih fun a ha => h a (List.mem_cons_of_mem _ ha)
    exact ⟨x ++ y, printAll_cons.2 ⟨x, y, hf, hf', rfl⟩, printAll_cons.2 ⟨x, y, hg, hg', rfl⟩⟩

end Compare

/-- A chunk is printed as no more than itself. -/
theorem grepped_length_le {o : Options} {contents out : List UInt8} (h : grepped o contents = .ok out) :
    out.length ≤ contents.length := by
  have hle := printAll_length_le (w := List.length) (fun _ _ _ => printed_length_le) h
  rwa [← List.length_flatten, flatten_pieces] at hle

/-! ## A line and its parts -/

/-- The bytes of a part, without their positions. -/
def text (part : List (UInt8 × Nat)) : List UInt8 := part.map Prod.fst

/-- What a part is printed as, when a thread reads it. -/
def printedIf (o : Options) (read : List (UInt8 × Nat) → Prop) [DecidablePred read]
    (part : List (UInt8 × Nat)) : Except Stuck (List UInt8) :=
  if read part then printed o (text part) else .ok []

/-- The part is read, has the search character, and is a format after the replacement. -/
def Printed (o : Options) (read : List (UInt8 × Nat) → Prop) (part : List (UInt8 × Nat)) : Prop :=
  read part ∧ o.findChar ∈ text part ∧ IsFormat ((text part).map (replaced o))

section Parts

variable {o : Options} {read : List (UInt8 × Nat) → Prop} [DecidablePred read]
  {ps : List (List (UInt8 × Nat))} {out : List UInt8}

theorem weight_pos {l : List UInt8} (h : l ≠ []) : 0 < (l.map weight).sum := by
  cases l with
  | nil => exact absurd rfl h
  | cons b l =>
    rw [List.map_cons, List.sum_cons, weight]
    split <;> omega

theorem text_cons (p : List (UInt8 × Nat)) (ps : List (List (UInt8 × Nat))) :
    text (p :: ps).flatten = text p ++ text ps.flatten := by
  unfold text
  rw [List.flatten_cons, List.map_append]

/-- The parts are never printed as more than the line. -/
theorem printAll_parts (ho : o.replaceFlag → o.replaceWith ≠ 0) (h0 : ∀ p ∈ ps, 0 ∉ text p)
    (hnil : [] ∉ ps) (h : printAll (printedIf o read) ps = .ok out) :
    2 * out.length ≤ (((text ps.flatten).map (replaced o)).map weight).sum ∧
      (2 * out.length = (((text ps.flatten).map (replaced o)).map weight).sum →
        ∀ p ∈ ps, Printed o read p) := by
  induction ps generalizing out with
  | nil =>
    cases h
    exact ⟨Nat.zero_le _, fun _ p hp => absurd hp List.not_mem_nil⟩
  | cons p ps ih =>
    obtain ⟨x, y, hx, hy, rfl⟩ := printAll_cons.1 h
    rw [List.mem_cons, not_or] at hnil
    obtain ⟨hle, heq⟩ := ih (fun q hq => h0 q (List.mem_cons_of_mem p hq)) hnil.2 hy
    have hpos : 0 < (((text p).map (replaced o)).map weight).sum := by
      refine weight_pos fun h => hnil.1 ?_
      exact (List.map_eq_nil_iff.1 (List.map_eq_nil_iff.1 h)).symm
    rw [text_cons, List.map_append, List.map_append, List.sum_append, List.length_append]
    unfold printedIf at hx
    split at hx
    · next hread =>
      rw [printed_eq (h0 p List.mem_cons_self) ho] at hx
      split at hx
      · next hfound =>
        have hlen := formatted_length hx
        refine ⟨by omega, fun hall q hq => ?_⟩
        rcases List.mem_cons.1 hq with rfl | hq
        · exact ⟨hread, hfound, x, hx⟩
        · exact heq (by omega) q hq
      · cases hx
        rw [List.length_nil]
        exact ⟨by omega, fun hall => by omega⟩
    · cases hx
      rw [List.length_nil]
      exact ⟨by omega, fun hall => by omega⟩

/-- Parts that are all printed are printed as the line. -/
theorem printAll_parts_eq (ho : o.replaceFlag → o.replaceWith ≠ 0) (h0 : ∀ p ∈ ps, 0 ∉ text p)
    (h : ∀ p ∈ ps, Printed o read p) :
    ∃ out, printAll (printedIf o read) ps = .ok out ∧
      formatted ((text ps.flatten).map (replaced o)) = .ok out := by
  induction ps with
  | nil => exact ⟨[], rfl, rfl⟩
  | cons p ps ih =>
    obtain ⟨hread, hfound, x, hx⟩ := h p List.mem_cons_self
    obtain ⟨y, hy, hformat⟩ := ih (fun q hq => h0 q (List.mem_cons_of_mem p hq))
      fun q hq => h q (List.mem_cons_of_mem p hq)
    refine ⟨x ++ y, printAll_cons.2 ⟨x, y, ?_, hy, rfl⟩, ?_⟩
    · unfold printedIf
      rw [if_pos hread, printed_eq (h0 p List.mem_cons_self) ho, if_pos hfound, hx]
    · rw [text_cons, List.map_append]
      exact formatted_append hx hformat

/-- Parts without the search character are not printed. -/
theorem printAll_parts_nil (ho : o.replaceFlag → o.replaceWith ≠ 0) (h0 : ∀ p ∈ ps, 0 ∉ text p)
    (h : o.findChar ∉ text ps.flatten) : printAll (printedIf o read) ps = .ok [] := by
  induction ps with
  | nil => rfl
  | cons p ps ih =>
    rw [text_cons, List.mem_append, not_or] at h
    refine printAll_cons.2 ⟨[], [], ?_, ih (fun q hq => h0 q (List.mem_cons_of_mem p hq)) h.2, rfl⟩
    unfold printedIf
    rw [printed_eq (h0 p List.mem_cons_self) ho, if_neg h.1, ite_self]

end Parts

end OsBasics.MCGrep
