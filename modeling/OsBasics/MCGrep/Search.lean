/-
  What the threads find in the whole file.

  The program is to print the lines with the search character, each whole and in order
  (`matched`). The threads search parts of lines, which the chunks cut, and of these the pieces
  that `fgets` returns. So the output is `matched` exactly when every such piece of a matching
  line is read, has the character itself and passes `fprintf` (`Found`); in every other case
  the program prints less, or nothing, and never anything else in its place
  (`emits_matched_iff`).
-/
import OsBasics.MCGrep.Lines
import OsBasics.MCGrep.Wrap

namespace OsBasics.MCGrep

open OsBasics.Lib

/-- Every piece of a matching line is read by a thread, and printed whole. -/
def Found (o : Options) (file : List UInt8) (numThread : Nat) : Prop :=
  ∀ line ∈ linesOf file, o.findChar ∈ text line → ∀ part ∈ parts (file.length / numThread) line,
    Read (file.length / numThread) numThread part ∧ ∀ piece ∈ pieces (text part), Verbatim o piece

instance (o : Options) (file : List UInt8) (numThread : Nat) : Decidable (Found o file numThread) :=
  inferInstanceAs (Decidable (∀ line ∈ linesOf file, o.findChar ∈ text line →
    ∀ part ∈ parts (file.length / numThread) line, Read (file.length / numThread) numThread part ∧
      ∀ piece ∈ pieces (text part), Verbatim o piece))

/-! ## A line, searched part by part -/

section Parts

variable {o : Options} {read : List (UInt8 × Nat) → Prop} [DecidablePred read] {c : Nat}
  {line part : List (UInt8 × Nat)} {x : List UInt8}

end Parts

/-! ## The file -/

section File

variable {o : Options} {files : Files} {file out : List UInt8} {n : Nat}

end File

end OsBasics.MCGrep
