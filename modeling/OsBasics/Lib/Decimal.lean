/-
  Decimal notation, character by character.

  `toString` writes an integer as its digits, with a sign in front when it is negative
  (`toList_toString`). The digits have the value of the number (`value_digits`), and what is
  written is no longer than the number is large (`length_toString_le`).
-/
import Mathlib.Algebra.Order.Ring.Int

namespace OsBasics.Lib

variable {n : Int} {k : Nat} {c : Char}

/-- The sign of a number that is written out. -/
def sign (n : Int) : List Char := if n < 0 then ['-'] else []

theorem toList_toString (n : Int) : (toString n).toList = sign n ++ Nat.toDigits 10 n.natAbs := by
  rw [Int.toString_eq_repr, Int.repr_eq_if, sign]
  by_cases h : n < 0
  · rw [if_neg (by omega), if_pos h, String.toList_append, Nat.toList_repr,
      show (-n).toNat = n.natAbs by omega]
    rfl
  · rw [if_pos (by omega), if_neg h, Nat.toList_repr, show n.toNat = n.natAbs by omega, List.nil_append]

/-- The value of digits, from left to right. -/
theorem value_digits (k : Nat) :
    (Nat.toDigits 10 k).foldl (fun n c => 10 * n + (c.toNat - '0'.toNat : Int)) 0 = k := by
  have hfold : ∀ (l : List Char) (m : Nat), (∀ c ∈ l, c.isDigit) →
      l.foldl (fun n c => 10 * n + (c.toNat - '0'.toNat : Int)) (m : Int) = Nat.ofDigitChars 10 l m := by
    intro l
    induction l with
    | nil => exact fun m _ => rfl
    | cons c l ih =>
      intro m h
      have hc : '0'.toNat ≤ c.toNat := by
        have hd := h c List.mem_cons_self
        rw [Char.isDigit, Bool.and_eq_true, decide_eq_true_eq, decide_eq_true_eq] at hd
        exact hd.1
      have hstep : 10 * (m : Int) + (c.toNat - '0'.toNat : Int) =
          (10 * m + (c.toNat - '0'.toNat) : Nat) := by omega
      rw [List.foldl_cons, Nat.ofDigitChars_cons, hstep]
      exact ih _ fun x hx => h x (List.mem_cons_of_mem c hx)
  have h := hfold (Nat.toDigits 10 k) 0 fun c hc =>
    Nat.isDigit_of_mem_toDigits (by decide) (by decide) hc
  rwa [Nat.ofDigitChars_ten_toDigits] at h

theorem mem_toString (h : c ∈ (toString n).toList) : c = '-' ∨ c.isDigit := by
  rw [toList_toString, List.mem_append, sign] at h
  obtain h | h := h
  · split at h
    · exact .inl (List.mem_singleton.1 h)
    · cases h
  · exact .inr (Nat.isDigit_of_mem_toDigits (by decide) (by decide) h)

theorem toString_ne_nil (n : Int) : (toString n).toList ≠ [] := by
  rw [toList_toString]
  exact List.append_ne_nil_of_right_ne_nil _ Nat.toDigits_ne_nil

theorem length_toString_le (hk : 0 < k) (h : n.natAbs < 10 ^ k) : (toString n).toList.length ≤ k + 1 := by
  have hdigits := (Nat.length_toDigits_le_iff (by decide) hk).2 h
  have hsign : (sign n).length ≤ 1 := by
    unfold sign
    split
    · exact Nat.le_refl 1
    · exact Nat.zero_le 1
  rw [toList_toString, List.length_append]
  omega

end OsBasics.Lib
