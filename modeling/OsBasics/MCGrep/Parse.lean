/-
  `parse` and `wrapToStdout` of `mcgrep.c`.

  `parse` copies a chunk from each multiple of `chunk` below the size of the file, which
  is none of the chunk files, the last one past its end: the mapping is zero up to the
  end of its last page, and the copy faults behind that. `parse_ok_iff` says when it
  comes to an end, and `parse_tmp` what the chunks are then.
-/
import OsBasics.MCGrep.Grep

namespace OsBasics.MCGrep

/-- Why the program gives no answer. -/
inductive Crash where
  | segv
  | overflow
  | loops
  | noFile
  | overlap
  deriving DecidableEq, Repr

/-! ## parse -/

def pageSize : Nat := 4096

/-- Where the last page of the mapping of a file ends. -/
def mapEnd (fileSize : Nat) : Nat := (fileSize + pageSize - 1) / pageSize * pageSize

theorem le_mapEnd (fileSize : Nat) : fileSize ≤ mapEnd fileSize := by
  unfold mapEnd pageSize
  omega

/-- The bytes of the mapping of a file from `i` on. -/
def mapped (file : List UInt8) (i len : Nat) : List UInt8 :=
  ((file ++ List.replicate (mapEnd file.length - file.length) 0).drop i).take len

/-- `int chunk = fileSize/numThread`. -/
def chunkOf (fileSize numThread : Nat) : Int := Int.bmod (fileSize / numThread : Nat) (2 ^ 32)

/-- What `lseek`, `write` and `memcpy` leave in a chunk file. `lseek` refuses a negative offset. -/
def chunkFile (file : List UInt8) (i chunk : Nat) : List UInt8 :=
  if chunk = 0 then [0] else mapped file i chunk

/-- The chunk of the thread `k + 1`. -/
def slice (file : List UInt8) (chunk k : Nat) : List UInt8 := (file.drop (k * chunk)).take chunk

/-- The loop of `parse`, at most as many rounds as the first argument says. -/
def parseLoop (file : List UInt8) (chunk : Int) : Nat → Nat → Nat → Files → Except Crash Files
  | 0, _, _, _ => .error .loops
  | n + 1, i, k, files =>
    if i < file.length then
      if chunk < 0 ∨ mapEnd file.length < i + chunk.toNat then .error .segv
      else if 2 ^ 31 ≤ i + chunk.toNat then .error .overflow
      else parseLoop file chunk n (i + chunk.toNat) (k + 1)
        (Function.update files (tmpName k) (some (chunkFile file i chunk.toNat)))
    else .ok files

/-- `parse(filename, numThread)`. -/
def parse (file : List UInt8) (numThread : Nat) (files : Files) : Except Crash Files :=
  parseLoop file (chunkOf file.length numThread) (file.length + 1) 0 1 files

/-! ## wrapToStdout -/

/-- `chunkSize = s.st_size`, for a file of these bytes. -/
def chunkSizeOf (bs : List UInt8) : Int := Int.bmod bs.length (2 ^ 32)

/-- The loop of `wrapToStdout` from `k` on, over the next `n` files. A length below zero is one that
    `fwrite` reads past any mapping. -/
def wrapFrom (files : Files) : Nat → Nat → Nat → Except Crash (List UInt8)
  | 0, _, _ => .ok []
  | n + 1, k, i =>
    match files (outName k) with
    | none => .error .noFile
    | some bs =>
      if chunkSizeOf bs < 0 then .error .segv
      else if 2 ^ 31 ≤ i + (chunkSizeOf bs).toNat then .error .overflow
      else (wrapFrom files n (k + 1) (i + (chunkSizeOf bs).toNat)).map
        (bs.take (chunkSizeOf bs).toNat ++ ·)

/-- `wrapToStdout(numThread)`. -/
def wrapToStdout (files : Files) (numThread : Nat) : Except Crash (List UInt8) :=
  wrapFrom files numThread 1 0

theorem chunkSizeOf_of_lt {bs : List UInt8} (h : bs.length < 2 ^ 31) : chunkSizeOf bs = bs.length := by
  unfold chunkSizeOf
  refine Int.bmod_eq_of_le ?_ ?_ <;> omega

/-- One file of `wrapToStdout`. -/
theorem wrapFrom_succ {files : Files} {n k i : Nat} {bs : List UInt8} (hfile : files (outName k) = some bs)
    (hi : i + bs.length < 2 ^ 31) :
    wrapFrom files (n + 1) k i = (wrapFrom files n (k + 1) (i + bs.length)).map (bs ++ ·) := by
  rw [wrapFrom, hfile]
  dsimp only
  rw [chunkSizeOf_of_lt (by omega), Int.toNat_natCast, if_neg (by omega), if_neg (by omega),
    List.take_length]

/-! ## The end of the loop -/

/-- Every copy stays in the pages of the mapping, and the next offset is an `int`. -/
def Copies (fileSize chunk : Nat) : Prop :=
  ∀ j < fileSize, j * chunk < fileSize →
    (j + 1) * chunk ≤ mapEnd fileSize ∧ (j + 1) * chunk < 2 ^ 31

instance (fileSize chunk : Nat) : Decidable (Copies fileSize chunk) :=
  inferInstanceAs (Decidable (∀ j < fileSize, j * chunk < fileSize →
    (j + 1) * chunk ≤ mapEnd fileSize ∧ (j + 1) * chunk < 2 ^ 31))

section Loop

variable {file : List UInt8} {files files' : Files} {c : Nat}

/-- A loop that does not move never ends. -/
theorem parseLoop_zero (hfile : 0 < file.length) (n k : Nat) :
    parseLoop file 0 n 0 k files = .error .loops := by
  induction n generalizing k files with
  | zero => rfl
  | succ n ih =>
    unfold parseLoop
    rw [if_pos hfile, if_neg (by simp), if_neg (by decide)]
    exact ih (k + 1)

/-- One round. -/
theorem parseLoop_succ {n j k : Nat} (hj : j * c < file.length) :
    parseLoop file c (n + 1) (j * c) k files = .ok files' ↔
      ((j + 1) * c ≤ mapEnd file.length ∧ (j + 1) * c < 2 ^ 31) ∧
        parseLoop file c n ((j + 1) * c) (k + 1)
          (Function.update files (tmpName k) (some (chunkFile file (j * c) c))) = .ok files' := by
  have hnext : j * c + c = (j + 1) * c := (Nat.succ_mul j c).symm
  rw [parseLoop, if_pos hj, Int.toNat_natCast, hnext]
  by_cases hend : (j + 1) * c ≤ mapEnd file.length
  · rw [if_neg (by omega)]
    by_cases hint : (j + 1) * c < 2 ^ 31
    · rw [if_neg (by omega), and_iff_right ⟨hend, hint⟩]
    · rw [if_pos (by omega)]
      exact ⟨fun h => (by cases h), fun h => absurd h.1.2 hint⟩
  · rw [if_pos (by omega)]
    exact ⟨fun h => (by cases h), fun h => absurd h.1.1 hend⟩

/-- The test fails. -/
theorem parseLoop_stop {n j k : Nat} (hj : ¬ j * c < file.length) :
    parseLoop file c (n + 1) (j * c) k files = .ok files := if_neg hj

/-- The loop ends when all the copies that are left are good. -/
theorem parseLoop_ok_iff (hc : 0 < c) {n j k : Nat} (hn : file.length ≤ j * c + n) :
    (∃ files', parseLoop file c (n + 1) (j * c) k files = .ok files') ↔
      ∀ d, j ≤ d → d * c < file.length →
        (d + 1) * c ≤ mapEnd file.length ∧ (d + 1) * c < 2 ^ 31 := by
  induction n generalizing j k files with
  | zero =>
    refine iff_of_true ⟨files, parseLoop_stop (by omega)⟩ fun d hd hlt => ?_
    have := Nat.mul_le_mul_right c hd
    omega
  | succ n ih =>
    by_cases hj : j * c < file.length
    · have hnext : j * c + c = (j + 1) * c := (Nat.succ_mul j c).symm
      simp only [parseLoop_succ hj, exists_and_left]
      rw [ih (by omega)]
      constructor
      · rintro ⟨hfirst, hrest⟩ d hd hlt
        rcases Nat.eq_or_lt_of_le hd with rfl | hd
        · exact hfirst
        · exact hrest d hd hlt
      · exact fun h => ⟨h j le_rfl hj, fun d hd hlt => h d (Nat.le_of_succ_le hd) hlt⟩
    · refine iff_of_true ⟨files, parseLoop_stop hj⟩ fun d hd hlt => ?_
      have := Nat.mul_le_mul_right c hd
      omega

/-- The chunk files after the loop. -/
theorem parseLoop_tmp {n j : Nat} (h : parseLoop file c n (j * c) (j + 1) files = .ok files') :
    (∀ k ≤ j, k ≤ 9999999 → files' (tmpName k) = files (tmpName k)) ∧
    (∀ name, files name ≠ none → files' name ≠ none) ∧
    ∀ d, j ≤ d → d * c < file.length → files' (tmpName (d + 1)) ≠ none ∧
      (d + 1 ≤ 9999999 → files' (tmpName (d + 1)) = some (chunkFile file (d * c) c)) := by
  induction n generalizing j files with
  | zero => cases h
  | succ n ih =>
    by_cases hj : j * c < file.length
    · obtain ⟨-, h⟩ := (parseLoop_succ hj).1 h
      obtain ⟨hold, hsome, hnew⟩ := ih h
      have hkeep : ∀ name, files name ≠ none → files' name ≠ none := by
        intro name hname
        refine hsome name ?_
        rw [Function.update_apply]
        split
        · exact Option.some_ne_none _
        · exact hname
      refine ⟨fun k hk hshort => ?_, hkeep, fun d hd hlt => ?_⟩
      · rw [hold k (by omega) hshort, Function.update_of_ne]
        exact fun heq => absurd (fileName_inj hshort heq).1 (by omega)
      · rcases Nat.eq_or_lt_of_le hd with rfl | hd
        · refine ⟨hsome _ ?_, fun hshort => ?_⟩
          · rw [Function.update_self]
            exact Option.some_ne_none _
          · rw [hold (j + 1) le_rfl hshort, Function.update_self]
        · exact hnew d hd hlt
    · rw [parseLoop_stop hj, Except.ok.injEq] at h
      subst h
      refine ⟨fun _ _ _ => rfl, fun _ h => h, fun d hd hlt => ?_⟩
      have := Nat.mul_le_mul_right c hd
      omega

end Loop

/-! ## parse -/

section Parse

variable {file : List UInt8} {files files' : Files} {numThread : Nat}

theorem chunkOf_of_lt {fileSize : Nat} (h : fileSize < 2 ^ 31) :
    chunkOf fileSize numThread = (fileSize / numThread : Nat) := by
  have hle := Nat.div_le_self fileSize numThread
  unfold chunkOf
  generalize fileSize / numThread = chunk at *
  refine Int.bmod_eq_of_le ?_ ?_ <;> omega

/-- A file of `2^31` bytes or more is not walked over with an `int`. -/
theorem parse_size (hfile : 0 < file.length) (h : parse file numThread files = .ok files') :
    file.length < 2 ^ 31 := by
  by_contra hsize
  unfold parse at h
  generalize chunkOf file.length numThread = chunk at h
  rcases lt_trichotomy chunk 0 with hneg | rfl | hpos
  · unfold parseLoop at h
    rw [if_pos hfile, if_pos (.inl hneg)] at h
    cases h
  · rw [parseLoop_zero hfile] at h
    cases h
  · obtain ⟨c, rfl⟩ := Int.eq_ofNat_of_zero_le hpos.le
    have hc : 0 < c := by omega
    have hall := (parseLoop_ok_iff hc (show file.length ≤ 0 * c + file.length by omega)).1
      ⟨files', by rw [Nat.zero_mul]; exact h⟩
    -- the copy that takes the offset past the last `int`
    have hdiv := Nat.div_mul_le_self (2 ^ 31 - 1) c
    have hmod := Nat.lt_div_mul_add (a := 2 ^ 31 - 1) hc
    have hlast := (hall ((2 ^ 31 - 1) / c) (Nat.zero_le _) (by omega)).2
    rw [Nat.succ_mul] at hlast
    omega

theorem parse_eq (h : file.length < 2 ^ 31) : parse file numThread files =
    parseLoop file (file.length / numThread : Nat) (file.length + 1)
      (0 * (file.length / numThread)) (0 + 1) files := by
  rw [Nat.zero_mul, Nat.zero_add]
  unfold parse
  rw [chunkOf_of_lt h]

theorem parse_ok_iff (hn : 1 ≤ numThread) (hle : numThread ≤ file.length) :
    (∃ files', parse file numThread files = .ok files') ↔
      file.length < 2 ^ 31 ∧ Copies file.length (file.length / numThread) := by
  have hc : 0 < file.length / numThread := Nat.div_pos hle hn
  constructor
  · rintro ⟨files', h⟩
    have hsize := parse_size (by omega) h
    rw [parse_eq hsize] at h
    have hall := (parseLoop_ok_iff hc (by omega)).1 ⟨files', h⟩
    exact ⟨hsize, fun j _ => hall j (Nat.zero_le j)⟩
  · rintro ⟨hsize, hcopies⟩
    simp only [parse_eq hsize]
    refine (parseLoop_ok_iff hc (by omega)).2 fun d _ hlt => hcopies d ?_ hlt
    have := Nat.le_mul_of_pos_right d hc
    omega

/-- What `parse` leaves for the thread `k`. -/
theorem parse_tmp (hn : 1 ≤ numThread) (hle : numThread ≤ file.length)
    (h : parse file numThread files = .ok files') {k : Nat} (h1 : 1 ≤ k) (hk : k ≤ numThread) :
    files' (tmpName k) ≠ none ∧ (k ≤ 9999999 → files' (tmpName k) =
      some ((file.drop ((k - 1) * (file.length / numThread))).take (file.length / numThread))) := by
  have hc : 0 < file.length / numThread := Nat.div_pos hle hn
  rw [parse_eq (parse_size (by omega) h)] at h
  obtain ⟨d, rfl⟩ := Nat.exists_eq_add_of_le' h1
  rw [Nat.add_sub_cancel]
  -- the chunks of the threads are inside the file
  have hend : d * (file.length / numThread) + file.length / numThread ≤ file.length := by
    rw [← Nat.succ_mul]
    exact (Nat.mul_le_mul_right _ hk).trans (Nat.mul_div_le _ _)
  obtain ⟨hsome, hfile⟩ := (parseLoop_tmp h).2.2 d (Nat.zero_le d) (by omega)
  refine ⟨hsome, fun hshort => ?_⟩
  rw [hfile hshort]
  unfold chunkFile mapped
  rw [if_neg hc.ne', List.drop_append_of_le_length (by omega), List.take_append_of_le_length]
  rw [List.length_drop]
  omega

end Parse

end OsBasics.MCGrep
