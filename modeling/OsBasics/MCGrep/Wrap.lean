/-
  `wrapToFile` of `mcgrep.c`, and `wrapToStdout`.

  `wrapToFile` gives its file the size of the input before it copies the outputs into it,
  and no other size after that (`wrapInto_length`): behind a shorter output the file is
  zero (`wrapToFile_eq`). So both are the same only when the outputs together have the
  size of the input (`wrap_agrees_iff`). `memcpy` does not say what becomes of a file that
  is copied into itself.
-/
import OsBasics.MCGrep.Parse

namespace OsBasics.MCGrep

open OsBasics.Lib

/-! ## wrapToFile -/

/-- What `lseek` and `write` leave in a file that has just been opened. -/
def presized (fileSize : Nat) : List UInt8 := if fileSize = 0 then [0] else List.replicate fileSize 0

/-- A file after a copy into its mapping; what is behind its end is not in it. -/
def copyInto (dst : List UInt8) (i : Nat) (src : List UInt8) : List UInt8 :=
  (writeAt dst i src).take dst.length

/-- The loop of `wrapToFile` from `k` on, over the next `n` files. -/
def wrapInto (filename : Name) (fileSize : Nat) : Nat → Nat → Nat → Files → Except Crash Files
  | 0, _, _, files => .ok files
  | n + 1, k, i, files =>
    match files (outName k) with
    | none => .error .noFile
    | some bs =>
      if chunkSizeOf bs < 0 ∨ mapEnd fileSize < i + (chunkSizeOf bs).toNat then .error .segv
      else if outName k = filename ∧ chunkSizeOf bs ≠ 0 then .error .overlap
      else if 2 ^ 31 ≤ i + (chunkSizeOf bs).toNat then .error .overflow
      else wrapInto filename fileSize n (k + 1) (i + (chunkSizeOf bs).toNat)
        (Function.update files filename (some (copyInto ((files filename).getD []) i
          (bs.take (chunkSizeOf bs).toNat))))

/-- `wrapToFile(filename, numThread)`. -/
def wrapToFile (filename : Name) (fileSize numThread : Nat) (files : Files) : Except Crash Files :=
  wrapInto filename fileSize numThread 1 0 (Function.update files filename (some (presized fileSize)))

/-! ## The two sizes -/

section Sizes

variable {filename : Name} {fileSize n k i : Nat} {files files' : Files} {dst bs out : List UInt8}

theorem copyInto_length : (copyInto dst i bs).length = dst.length := by
  unfold copyInto writeAt
  rw [List.length_take, List.length_append, List.length_append, List.length_take, List.length_drop]
  omega

/-- A copy over the bytes that are next. -/
theorem copyInto_inside {done rest : List UInt8} (h : bs.length ≤ rest.length) :
    copyInto (done ++ rest) done.length bs = done ++ bs ++ rest.drop bs.length := by
  have hwrite : writeAt (done ++ rest) done.length bs = done ++ bs ++ rest.drop bs.length := by
    unfold writeAt
    rw [List.take_left' rfl, ← List.drop_drop, List.drop_left' rfl]
  unfold copyInto
  rw [hwrite, List.take_of_length_le]
  rw [List.length_append, List.length_append, List.length_append, List.length_drop]
  omega

/-- The loop leaves the size of its file as it is, and copies no file of an `int` size into itself. -/
theorem wrapInto_length (h : wrapInto filename fileSize n k i files = .ok files')
    (hdst : files filename = some dst) : (∃ dst', files' filename = some dst' ∧ dst'.length = dst.length) ∧
      (0 < dst.length → dst.length < 2 ^ 31 → ∀ j, k ≤ j → j < k + n → outName j ≠ filename) := by
  induction n generalizing k i files dst with
  | zero =>
    cases h
    exact ⟨⟨dst, hdst, rfl⟩, fun _ _ j hj hlt => by omega⟩
  | succ n ih =>
    unfold wrapInto at h
    split at h
    · cases h
    next bs hbs =>
    split at h
    · cases h
    split at h
    · cases h
    next hapart =>
    split at h
    · cases h
    obtain ⟨hsame, hnames⟩ := ih h (Function.update_self ..)
    rw [hdst, Option.getD_some, copyInto_length] at hsame hnames
    refine ⟨hsame, fun hpos hint j hj hlt => ?_⟩
    rcases Nat.eq_or_lt_of_le hj with rfl | hj
    · intro hname
      rw [hname, hdst, Option.some.injEq] at hbs
      subst hbs
      rw [chunkSizeOf_of_lt hint] at hapart
      exact hapart ⟨hname, by omega⟩
    · exact hnames hpos hint j hj (by omega)

/-- `wrapToStdout` counts its output with an `int`. -/
theorem wrapFrom_length (h : wrapFrom files n k i = .ok out) (hi : i < 2 ^ 31) :
    i + out.length < 2 ^ 31 := by
  induction n generalizing k i out with
  | zero =>
    cases h
    exact hi
  | succ n ih =>
    unfold wrapFrom at h
    split at h
    · cases h
    next bs hbs =>
    split at h
    · cases h
    split at h
    · cases h
    next hint =>
    obtain ⟨rest, hrest, rfl⟩ := map_ok h
    have hlen := ih hrest (by omega)
    have hcut := List.length_take_le (chunkSizeOf bs).toNat bs
    rw [List.length_append]
    omega

end Sizes

/-! ## The two outputs -/

section Outputs

variable {filename : Name} {fileSize k i : Nat} {files : Files} {outs : List (List UInt8)}

theorem wrapFrom_outs (houts : ∀ j < outs.length, files (outName (k + j)) = outs[j]?)
    (hi : i + outs.flatten.length < 2 ^ 31) :
    wrapFrom files outs.length k i = .ok outs.flatten := by
  induction outs generalizing k i with
  | nil => rfl
  | cons bs outs ih =>
    rw [List.flatten_cons, List.length_append] at hi
    have hfirst : files (outName k) = some bs := houts 0 (Nat.succ_pos _)
    have hrest := ih (k := k + 1) (i := i + bs.length) (fun j hj => by
      have h := houts (j + 1) (Nat.succ_lt_succ hj)
      rwa [← Nat.add_assoc, Nat.add_right_comm] at h) (by omega)
    rw [List.length_cons, wrapFrom_succ hfirst (by omega), hrest]
    rfl

/-- The loop of `wrapToFile` copies the outputs over the bytes that are next. -/
theorem wrapInto_outs {done rest : List UInt8}
    (houts : ∀ j < outs.length, files (outName (k + j)) = outs[j]?)
    (hnames : ∀ j < outs.length, outName (k + j) ≠ filename) (hdst : files filename = some (done ++ rest))
    (hsize : done.length + rest.length = fileSize) (hint : fileSize < 2 ^ 31)
    (hfit : outs.flatten.length ≤ rest.length) :
    ∃ files', wrapInto filename fileSize outs.length k done.length files = .ok files' ∧
      files' filename = some (done ++ outs.flatten ++ rest.drop outs.flatten.length) := by
  induction outs generalizing k files done rest with
  | nil => exact ⟨files, rfl, by rw [hdst, List.flatten_nil, List.append_nil]; rfl⟩
  | cons bs outs ih =>
    rw [List.flatten_cons, List.length_append] at hfit
    have hfirst : files (outName k) = some bs := houts 0 (Nat.succ_pos _)
    have hname : outName k ≠ filename := hnames 0 (Nat.succ_pos _)
    have hmap := le_mapEnd fileSize
    have hnext : ∀ j < outs.length, outName (k + 1 + j) ≠ filename := fun j hj => by
      have h := hnames (j + 1) (Nat.succ_lt_succ hj)
      rwa [← Nat.add_assoc, Nat.add_right_comm] at h
    have hcopied : Function.update files filename (some (done ++ bs ++ rest.drop bs.length)) filename =
        some (done ++ bs ++ rest.drop bs.length) := Function.update_self ..
    obtain ⟨files', hrun, hfile⟩ := ih (k := k + 1)
      (fun j hj => by
        have h := houts (j + 1) (Nat.succ_lt_succ hj)
        rw [← Nat.add_assoc, Nat.add_right_comm] at h
        rw [Function.update_of_ne (hnext j hj)]
        exact h) hnext hcopied
      (by rw [List.length_append, List.length_drop]; omega) (by rw [List.length_drop]; omega)
    refine ⟨files', ?_, ?_⟩
    · rw [List.length_cons, wrapInto, hfirst]
      dsimp only
      rw [chunkSizeOf_of_lt (by omega), Int.toNat_natCast, if_neg (by omega), if_neg (fun h => hname h.1),
        if_neg (by omega), hdst, Option.getD_some, List.take_length, copyInto_inside (by omega)]
      rwa [List.length_append] at hrun
    · rw [hfile, List.drop_drop, List.flatten_cons, List.length_append, List.append_assoc done,
        List.append_assoc done]

/-- The file is the output, and zero behind it. -/
theorem wrapToFile_eq (houts : ∀ k < outs.length, files (outName (k + 1)) = outs[k]?)
    (hnames : ∀ k < outs.length, outName (k + 1) ≠ filename) (hsize : 1 ≤ fileSize)
    (hint : fileSize < 2 ^ 31) (hfit : outs.flatten.length ≤ fileSize) :
    ∃ files', wrapToFile filename fileSize outs.length files = .ok files' ∧
      files' filename = some (outs.flatten ++ List.replicate (fileSize - outs.flatten.length) 0) := by
  have hpresized : presized fileSize = List.replicate fileSize 0 := if_neg (by omega)
  have hnext : ∀ k < outs.length, outName (1 + k) ≠ filename := fun k hk => Nat.add_comm k 1 ▸ hnames k hk
  have hopened : Function.update files filename (some (presized fileSize)) filename =
      some ([] ++ presized fileSize) := Function.update_self ..
  obtain ⟨files', hrun, hfile⟩ := wrapInto_outs (k := 1)
    (fun k hk => by rw [Function.update_of_ne (hnext k hk), Nat.add_comm]; exact houts k hk) hnext
    hopened (by rw [hpresized, List.length_replicate]; exact Nat.zero_add _) hint
    (by rwa [hpresized, List.length_replicate])
  refine ⟨files', hrun, ?_⟩
  rw [hfile, hpresized, List.drop_replicate]
  rfl

/-- Both ways give the outputs in the order of the threads exactly when these have the size of the
    input, it is an `int`, and none of them is in the file itself. -/
theorem wrap_agrees_iff (houts : ∀ k < outs.length, files (outName (k + 1)) = outs[k]?)
    (hsize : 1 ≤ fileSize) (hfit : outs.flatten.length ≤ fileSize) :
    (∃ files', wrapToFile filename fileSize outs.length files = .ok files' ∧
      wrapToStdout files outs.length = .ok outs.flatten ∧ files' filename = some outs.flatten) ↔
      outs.flatten.length = fileSize ∧ fileSize < 2 ^ 31 ∧ ∀ k < outs.length, outName (k + 1) ≠ filename := by
  constructor
  · rintro ⟨files', hfile, hstdout, hsame⟩
    obtain ⟨⟨dst, hdst, hlen⟩, hnames⟩ := wrapInto_length hfile (Function.update_self ..)
    have hpresized : (presized fileSize).length = fileSize := by
      unfold presized
      rw [if_neg (by omega), List.length_replicate]
    rw [hdst, Option.some.injEq] at hsame
    rw [hpresized] at hlen hnames
    have htotal : outs.flatten.length = fileSize := hsame ▸ hlen
    have hint := wrapFrom_length hstdout (by decide)
    refine ⟨htotal, by omega, fun k hk => hnames hsize (by omega) (k + 1) (by omega) (by omega)⟩
  · rintro ⟨htotal, hint, hnames⟩
    obtain ⟨files', hrun, hfile⟩ := wrapToFile_eq houts hnames hsize hint hfit
    refine ⟨files', hrun, wrapFrom_outs (fun j hj => ?_) (by omega), ?_⟩
    · rw [Nat.add_comm]
      exact houts j hj
    · rw [hfile, htotal, Nat.sub_self, List.replicate_zero, List.append_nil]

/-- Two outputs with all the bytes of the input. -/
theorem wrap_agrees_both :
    (∃ files', wrapToFile ['x'] 4 2 (fun name => if name = outName 1 then some [97, 10] else
        some [98, 10]) = .ok files' ∧
      wrapToStdout (fun name => if name = outName 1 then some [97, 10] else some [98, 10]) 2 =
        .ok [97, 10, 98, 10] ∧ files' ['x'] = some [97, 10, 98, 10]) ↔
      [97, 10, 98, (10 : UInt8)].length = 4 ∧ 4 < 2 ^ 31 ∧ ∀ k < 2, outName (k + 1) ≠ ['x'] :=
  @wrap_agrees_iff ['x'] 4 _ [[97, 10], [98, 10]] (by decide) (by decide) (by decide)

/-- An input of four bytes with one matching line of two: the file has two more. -/
theorem wrap_disagrees : ¬ ∃ files',
    wrapToFile ['x'] 4 1 (fun name => if name = outName 1 then some [97, 10] else none) = .ok files' ∧
      wrapToStdout (fun name => if name = outName 1 then some [97, 10] else none) 1 = .ok [97, 10] ∧
      files' ['x'] = some [97, 10] := by
  rintro ⟨files', hrun, -, hsame⟩
  obtain ⟨files₁, hrun₁, hfile⟩ : ∃ files₁, wrapToFile ['x'] 4 1 _ = .ok files₁ ∧
      files₁ ['x'] = some [97, 10, 0, 0] :=
    @wrapToFile_eq ['x'] 4 (fun name => if name = outName 1 then some [97, 10] else none) [[97, 10]] (by decide)
      (by decide) (by decide) (by decide) (by decide)
  rw [hrun, Except.ok.injEq] at hrun₁
  subst hrun₁
  rw [hsame] at hfile
  exact absurd hfile (by decide)

end Outputs

end OsBasics.MCGrep
