/-
  `grep` of `mcgrep.c`, as a thread among others.

  A file is its bytes, under its name; `k.tmp` is there when the chunk `k` has been
  written, and `fopen` of `k.out` is taken to succeed. A step of a thread is one
  call of the C library or one pass of the loop over a line, which touches nothing
  but the thread's own buffer. The options are global and nothing writes them once the
  threads run. `fprintf` is given the line as its format: a `%` that is not doubled
  is no directive or asks for an argument that is not there, which C leaves undefined,
  and here the thread goes no further.
-/
import Mathlib.Algebra.Group.Int.Defs
import Mathlib.Algebra.Group.Nat.Defs
import Mathlib.Algebra.GroupWithZero.Nat
import OsBasics.Lib.Interleave

namespace OsBasics.MCGrep

open OsBasics.Lib

/-! ## Files -/

abbrev Name := List Char

abbrev Files := Name → Option (List UInt8)

/-- `snprintf(str, 10, "%d" ext, k)`. -/
def fileName (k : Nat) (ext : List Char) : Name := (Nat.toDigits 10 k ++ ext).take 9

def tmpName (k : Nat) : Name := fileName k ['.', 't', 'm', 'p']

def outName (k : Nat) : Name := fileName k ['.', 'o', 'u', 't']

theorem toDigits_injective {k j : Nat} (h : Nat.toDigits 10 k = Nat.toDigits 10 j) : k = j := by
  have hdigits := congrArg (fun l => Nat.ofDigitChars 10 l 0) h
  rw [Nat.ofDigitChars_ten_toDigits, Nat.ofDigitChars_ten_toDigits] at hdigits
  exact hdigits

theorem takeWhile_fileName (k : Nat) (ext : List Char) :
    (fileName k ('.' :: ext)).takeWhile Char.isDigit = (Nat.toDigits 10 k).take 9 := by
  have hdigits : ∀ c ∈ Nat.toDigits 10 k, c.isDigit := fun c hc =>
    Nat.isDigit_of_mem_toDigits (by decide) (by decide) hc
  have hwhole : (Nat.toDigits 10 k ++ '.' :: ext).takeWhile Char.isDigit = Nat.toDigits 10 k := by
    rw [List.takeWhile_append_of_pos hdigits, List.takeWhile_cons_of_neg (by decide),
      List.append_nil]
  unfold fileName
  rw [← List.take_takeWhile, hwhole]

/-- Up to seven digits the number and two more characters are in the name. -/
theorem fileName_inj {k j : Nat} {a b : Char} {ext ext' : List Char} (hk : k ≤ 9999999)
    (h : fileName k ('.' :: a :: ext) = fileName j ('.' :: b :: ext')) : k = j ∧ a = b := by
  have hlen : (Nat.toDigits 10 k).length ≤ 7 :=
    (Nat.length_toDigits_le_iff (by decide) (by decide)).2 (by omega)
  have hdigits := congrArg (List.takeWhile Char.isDigit) h
  rw [takeWhile_fileName, takeWhile_fileName, List.take_of_length_le (by omega)] at hdigits
  have hlen' : (Nat.toDigits 10 j).length ≤ 9 := by
    have := congrArg List.length hdigits
    rw [List.length_take] at this
    omega
  rw [List.take_of_length_le hlen'] at hdigits
  obtain rfl := toDigits_injective hdigits
  unfold fileName at h
  rw [List.take_append, List.take_append, List.append_cancel_left_eq] at h
  obtain ⟨d, hd⟩ : ∃ d, 9 - (Nat.toDigits 10 k).length = d + 2 := ⟨7 - (Nat.toDigits 10 k).length, by omega⟩
  rw [hd, List.take_succ_cons, List.take_succ_cons, List.take_succ_cons, List.take_succ_cons,
    List.cons.injEq, List.cons.injEq] at h
  exact ⟨rfl, h.2.1⟩

theorem tmpName_ne_outName {k : Nat} (hk : k ≤ 9999999) (j : Nat) : tmpName k ≠ outName j :=
  fun h => absurd (fileName_inj hk h).2 (by decide)

/-- From eight digits on the two names of a thread are one. -/
theorem tmpName_eq_outName {k : Nat} (hk : 10000000 ≤ k) : tmpName k = outName k := by
  have hlen : ¬ (Nat.toDigits 10 k).length ≤ 7 := fun h => by
    have := (Nat.length_toDigits_le_iff (by decide) (by decide)).1 h
    omega
  unfold tmpName outName fileName
  rw [List.take_append, List.take_append]
  obtain hd | hd : 9 - (Nat.toDigits 10 k).length = 0 ∨ 9 - (Nat.toDigits 10 k).length = 1 := by omega
  · rw [hd, List.take_zero, List.take_zero]
  · rw [hd, List.take_succ_cons, List.take_succ_cons, List.take_zero, List.take_zero]

/-- What is in a file after bytes are written at a position. -/
def writeAt (contents : List UInt8) (pos : Nat) (bs : List UInt8) : List UInt8 :=
  contents.take pos ++ bs ++ contents.drop (pos + bs.length)

/-! ## A line -/

/-- `BUFFERSIZE`. -/
def bufferSize : Nat := 100

/-- The bytes `fgets` takes, at most `n`, from what is left of a file. -/
def fgets : Nat → List UInt8 → List UInt8
  | 0, _ => []
  | _ + 1, [] => []
  | n + 1, b :: rest => if b = 10 then [b] else b :: fgets n rest

/-- The string in a buffer. -/
def cstring (line : List UInt8) : List UInt8 := line.takeWhile (· ≠ 0)

/-- `findChar`, `replaceWith` and `replaceFlag`; of the two strings the first character. -/
structure Options where
  findChar : UInt8
  replaceWith : UInt8
  replaceFlag : Bool
  deriving DecidableEq, Repr

/-- The loop over the characters of a line: `found`, and the line after it. -/
def scanChars (o : Options) : List UInt8 → Bool × List UInt8
  | [] => (false, [])
  | b :: rest =>
    if b = o.findChar ∧ ¬ o.replaceFlag then (true, b :: rest)
    else if b = o.findChar ∧ o.replaceFlag then (true, o.replaceWith :: (scanChars o rest).2)
    else ((scanChars o rest).1, b :: (scanChars o rest).2)

/-- The pass over the buffer, up to `strlen(line)`. -/
def scanLine (o : Options) (line : List UInt8) : Bool × List UInt8 :=
  ((scanChars o (cstring line)).1, (scanChars o (cstring line)).2 ++ line.dropWhile (· ≠ 0))

/-- Why a thread takes no step. -/
inductive Stuck where
  | nullStream
  | format
  | returned
  deriving DecidableEq, Repr

/-- What `fprintf` writes for a format and no arguments. -/
def formatted : List UInt8 → Except Stuck (List UInt8)
  | [] => .ok []
  | b :: rest =>
    if b = 37 then
      match rest with
      | [] => .error .format
      | c :: rest => if c = 37 then (formatted rest).map (37 :: ·) else .error .format
    else (formatted rest).map (b :: ·)

/-! ## grep -/

/-- What a thread does next. -/
inductive Pc where
  | openTmp
  | openOut
  | read
  | scan
  | print
  | closeTmp
  | closeOut
  | done
  deriving DecidableEq, Repr

/-- The locals of `grep`; of an open stream its position. -/
structure Thread where
  pc : Pc
  fp : Option Nat
  fp2 : Nat
  line : List UInt8
  found : Bool
  deriving DecidableEq, Repr

def Thread.start : Thread where
  pc := .openTmp
  fp := none
  fp2 := 0
  line := []
  found := false

/-- One step of `grep(filenum)`. -/
def step (o : Options) (filenum : Nat) : Thread × Files → Except Stuck (Thread × Files)
  | (t, files) =>
    match t.pc with
    | .openTmp =>
      .ok ({ t with pc := .openOut, fp := (files (tmpName filenum)).map fun _ => 0 }, files)
    | .openOut =>
      .ok ({ t with pc := .read, fp2 := 0 }, Function.update files (outName filenum) (some []))
    | .read =>
      match t.fp with
      | none => .error .nullStream
      | some pos =>
        match fgets (bufferSize - 1) (((files (tmpName filenum)).getD []).drop pos) with
        | [] => .ok ({ t with pc := .closeTmp }, files)
        | b :: bs =>
          .ok ({ t with pc := .scan, fp := some (pos + (b :: bs).length), line := b :: bs }, files)
    | .scan =>
      let (found, line) := scanLine o t.line
      .ok ({ t with pc := if found then .print else .read, line := line, found := found }, files)
    | .print => do
      let bs ← formatted (cstring t.line)
      let contents := (files (outName filenum)).getD []
      pure ({ t with pc := .read, fp2 := t.fp2 + bs.length },
        Function.update files (outName filenum) (some (writeAt contents t.fp2 bs)))
    | .closeTmp => .ok ({ t with pc := .closeOut }, files)
    | .closeOut => .ok ({ t with pc := .done }, files)
    | .done => .error .returned

/-- `grep` has returned. -/
def Returned (t : Thread) : Prop := t.pc = .done

instance (t : Thread) : Decidable (Returned t) := inferInstanceAs (Decidable (t.pc = .done))

/-- A thread that has returned takes no step. -/
theorem step_returned (o : Options) (k : Nat) (t : Thread) (files : Files) (c : Thread × Files)
    (h : Returned t) : step o k (t, files) ≠ .ok c := by
  unfold step
  dsimp only
  rw [show t.pc = .done from h]
  exact fun h => by cases h

end OsBasics.MCGrep
