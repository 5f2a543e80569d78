/-
  Several threads and one.

  With one thread the chunk is the file, and each line is printed as a whole. With more
  the file is cut at the multiples of the chunk length, wherever its lines end, and what
  is behind the chunks of the threads is read by none. The output is the same exactly
  when no line with the search character loses a part: each part it is cut into has
  the character itself and is in a chunk that is read (`parallel_eq_sequential_iff`).
-/
import OsBasics.Lib.SplitBy
import OsBasics.MCGrep.Parse
import OsBasics.MCGrep.Print
import OsBasics.MCGrep.Threads

namespace OsBasics.MCGrep

open OsBasics.Lib

/-! ## Lines and parts -/

/-- The line of a byte, at its position, goes on with the next. -/
def sameLine (x _y : UInt8 × Nat) : Bool := x.1 ≠ 10

def sameChunk (chunk : Nat) (x y : UInt8 × Nat) : Bool := x.2 / chunk = y.2 / chunk

/-- The lines of a file, each byte with its position in the file. -/
def linesOf (file : List UInt8) : List (List (UInt8 × Nat)) := file.zipIdx.splitBy sameLine

/-- The parts of a line in the chunks. -/
def parts (chunk : Nat) (line : List (UInt8 × Nat)) : List (List (UInt8 × Nat)) :=
  line.splitBy (sameChunk chunk)

/-- The part is in a chunk that a thread reads before it empties it. -/
def Read (chunk numThread : Nat) (part : List (UInt8 × Nat)) : Prop :=
  ∀ x ∈ part, x.2 / chunk < min numThread 9999999

instance (chunk numThread : Nat) : DecidablePred (Read chunk numThread) := fun part =>
  inferInstanceAs (Decidable (∀ x ∈ part, x.2 / chunk < min numThread 9999999))

/-- Every part of a line with the search character is printed. -/
def Whole (o : Options) (file : List UInt8) (numThread : Nat) : Prop :=
  ∀ line ∈ linesOf file, o.findChar ∈ text line → ∀ part ∈ parts (file.length / numThread) line,
    Printed o (Read (file.length / numThread) numThread) part

/-- The bytes `wrapToStdout` can emit after `parse`, the threads and the joins; `files` is what is in
    the directory before. -/
def Emits (o : Options) (files : Files) (file : List UInt8) (numThread : Nat) (out : List UInt8) :
    Prop :=
  ∃ files₀ files₁, parse file numThread files = .ok files₀ ∧ Joined o numThread files₀ files₁ ∧
    wrapToStdout files₁ numThread = .ok out

/-! ## Pieces -/

/-- Lines without positions. -/
def splitLines (l : List UInt8) : List (List UInt8) := l.splitBy fun b _ => b ≠ 10

theorem fgets_line {n : Nat} {l s : List UInt8} {ss : List (List UInt8)}
    (h : splitLines l = s :: ss) (hs : s.length ≤ n) :
    fgets n l = s ∧ splitLines (l.drop s.length) = ss := by
  unfold splitLines at h ⊢
  induction l generalizing n s ss with
  | nil => cases h
  | cons b rest ih =>
    have hne : s ≠ [] := List.ne_nil_of_mem_splitBy (h ▸ List.mem_cons_self)
    obtain ⟨n, rfl⟩ := Nat.exists_eq_succ_of_ne_zero (n := n) fun h0 =>
      hne (List.length_eq_zero_iff.1 (by omega))
    unfold fgets
    by_cases hb : b = 10
    · rw [splitBy_cons_of_cut fun c _ => decide_eq_false fun h => h hb] at h
      obtain ⟨rfl, rfl⟩ := List.cons.inj h
      rw [if_pos hb]
      exact ⟨rfl, rfl⟩
    · rw [if_neg hb]
      cases rest with
      | nil =>
        obtain ⟨rfl, rfl⟩ := List.cons.inj h
        cases n <;> exact ⟨rfl, rfl⟩
      | cons c rest =>
        obtain ⟨m, ms, hms⟩ := List.exists_cons_of_ne_nil
          (List.splitBy_ne_nil.2 (List.cons_ne_nil c rest) : (c :: rest).splitBy (fun b _ => b ≠ 10) ≠ [])
        rw [splitBy_cons_of_join (decide_eq_true hb) hms] at h
        obtain ⟨rfl, rfl⟩ := List.cons.inj h
        obtain ⟨hget, hdrop⟩ := ih (n := n) hms (by rw [List.length_cons] at hs; omega)
        rw [hget]
        exact ⟨rfl, hdrop⟩

/-- `fgets` returns the lines when they fit into the buffer. -/
theorem pieces_eq {l : List UInt8} (h : ∀ s ∈ splitLines l, s.length ≤ 99) :
    pieces l = splitLines l := by
  have hall : ∀ n l, l.length ≤ n → (∀ s ∈ splitLines l, s.length ≤ 99) →
      piecesUpTo n l = splitLines l := by
    intro n
    induction n with
    | zero =>
      intro l hl _
      rw [List.length_eq_zero_iff.1 (Nat.le_zero.1 hl)]
      rfl
    | succ n ih =>
      intro l hl h
      unfold piecesUpTo
      rcases hlines : splitLines l with _ | ⟨s, ss⟩
      · rw [List.splitBy_eq_nil.1 hlines]
        rfl
      · have hne : s ≠ [] := List.ne_nil_of_mem_splitBy (l := l) (hlines ▸ List.mem_cons_self)
        obtain ⟨b, bs, rfl⟩ := List.exists_cons_of_ne_nil hne
        obtain ⟨hget, hdrop⟩ := fgets_line hlines (h (b :: bs) (hlines ▸ List.mem_cons_self))
        have hlen : (l.drop (b :: bs).length).length ≤ n := by
          rw [List.length_drop, List.length_cons]
          omega
        have hget' : fgets (bufferSize - 1) l = b :: bs := hget
        rw [hget']
        dsimp only
        rw [ih _ hlen, hdrop]
        rw [hdrop]
        exact fun s hs => h s (hlines ▸ List.mem_cons_of_mem _ hs)
  exact hall l.length l le_rfl h

/-! ## Chunks -/

section Chunks

variable {c : Nat}

/-- The bytes of a file cut at line ends and at chunk ends. -/
def cutBoth (c : Nat) (l : List (UInt8 × Nat)) : List (List (UInt8 × Nat)) :=
  l.splitBy fun x y => sameLine x y && sameChunk c x y

theorem cutBoth_lines (file : List UInt8) :
    cutBoth c file.zipIdx = (linesOf file).flatMap (parts c) :=
  (flatMap_splitBy sameLine (sameChunk c) file.zipIdx).symm

theorem div_of_mem_zipIdx {l : List UInt8} {d : Nat} {x : UInt8 × Nat} (hl : l.length ≤ c)
    (hx : x ∈ l.zipIdx (d * c)) : x.2 / c = d := by
  have h1 := List.le_snd_of_mem_zipIdx hx
  have h2 := List.snd_lt_of_mem_zipIdx hx
  refine Nat.div_eq_of_lt_le h1 ?_
  rw [Nat.succ_mul]
  omega

/-- The bytes of one chunk are cut at line ends only. -/
theorem cutBoth_one {l : List UInt8} (d : Nat) (hl : l.length ≤ c) :
    cutBoth c (l.zipIdx (d * c)) = (l.zipIdx (d * c)).splitBy sameLine := by
  have hchain : (l.zipIdx (d * c)).IsChain fun x y => sameChunk c x y := by
    refine List.Pairwise.isChain (List.pairwise_of_forall_mem_list fun x hx y hy => ?_)
    exact decide_eq_true ((div_of_mem_zipIdx hl hx).trans (div_of_mem_zipIdx hl hy).symm)
  have hcomm : (fun x y => sameLine x y && sameChunk c x y) =
      fun x y => sameChunk c x y && sameLine x y := by
    funext x y
    exact Bool.and_comm _ _
  unfold cutBoth
  rw [hcomm]
  exact splitBy_and_of_isChain hchain

/-- The first chunk, and those behind it. -/
theorem cutBoth_chunk (hc : 0 < c) (l : List UInt8) (d : Nat) :
    cutBoth c (l.zipIdx (d * c)) = ((l.take c).zipIdx (d * c)).splitBy sameLine ++
      cutBoth c ((l.drop c).zipIdx ((d + 1) * c)) := by
  have hlen : (l.take c).length ≤ c := by
    rw [List.length_take]
    exact Nat.min_le_left _ _
  by_cases hl : l.length ≤ c
  · rw [List.take_of_length_le hl, List.drop_eq_nil_of_le hl, cutBoth_one d hl]
    exact (List.append_nil _).symm
  · have hzip : l.zipIdx (d * c) = (l.take c).zipIdx (d * c) ++ (l.drop c).zipIdx ((d + 1) * c) := by
      conv_lhs => rw [← List.take_append_drop c l, List.zipIdx_append, List.length_take_of_le (by omega)]
      rw [Nat.succ_mul]
    rw [← cutBoth_one d hlen, hzip]
    refine List.splitBy_append fun x hx y hy => ?_
    have hx := div_of_mem_zipIdx hlen (List.mem_of_getLast? hx)
    have hy := List.le_snd_of_mem_zipIdx (List.mem_of_head? hy)
    have hdiv := Nat.div_le_div_right (c := c) hy
    rw [Nat.mul_div_cancel _ hc] at hdiv
    rw [Bool.and_eq_false_iff]
    exact .inr (decide_eq_false (by omega))

theorem splitLines_zipIdx (l : List UInt8) (k : Nat) :
    ((l.zipIdx k).splitBy sameLine).map text = splitLines l := by
  have h := splitBy_map (r := fun b _ => b ≠ 10) Prod.fst (l.zipIdx k)
  rw [List.zipIdx_map_fst] at h
  exact h.symm

/-- A line of a chunk is a part of a line. -/
theorem part_of_splitLines (hc : 0 < c) {l : List UInt8} {d e : Nat} {s : List UInt8}
    (hs : s ∈ splitLines ((l.drop (e * c)).take c)) :
    ∃ part ∈ cutBoth c (l.zipIdx (d * c)), text part = s := by
  induction e generalizing l d with
  | zero =>
    rw [Nat.zero_mul, List.drop_zero, ← splitLines_zipIdx _ (d * c)] at hs
    obtain ⟨part, hpart, rfl⟩ := List.mem_map.1 hs
    refine ⟨part, ?_, rfl⟩
    rw [cutBoth_chunk hc]
    exact List.mem_append_left _ hpart
  | succ e ih =>
    rw [Nat.succ_mul, Nat.add_comm, ← List.drop_drop] at hs
    obtain ⟨part, hpart, htext⟩ := ih (d := d + 1) hs
    refine ⟨part, ?_, htext⟩
    rw [cutBoth_chunk hc]
    exact List.mem_append_right _ hpart

/-- What the first `m` chunks from `d` on give, when a line gives `g`. -/
theorem printAll_cutBoth {g : List UInt8 → Except Stuck (List UInt8)} (hc : 0 < c) (m : Nat)
    (l : List UInt8) (d : Nat) {read : List (UInt8 × Nat) → Prop} [DecidablePred read]
    (hread : ∀ part, read part ↔ ∀ x ∈ part, x.2 / c < d + m) :
    printAll (fun part => if read part then g (text part) else .ok []) (cutBoth c (l.zipIdx (d * c))) =
      printAll (fun e => printAll g (splitLines ((l.drop (e * c)).take c))) (List.range m) := by
  induction m generalizing l d with
  | zero =>
    have hnone : ∀ part ∈ cutBoth c (l.zipIdx (d * c)),
        (if read part then g (text part) else .ok []) = .ok [] := by
      intro part hpart
      refine if_neg fun h => ?_
      obtain ⟨x, xs, rfl⟩ := List.exists_cons_of_ne_nil (List.ne_nil_of_mem_splitBy hpart)
      have hx : x ∈ l.zipIdx (d * c) := by
        rw [← List.flatten_splitBy (fun x y => sameLine x y && sameChunk c x y) (l.zipIdx (d * c))]
        exact List.mem_flatten_of_mem hpart List.mem_cons_self
      have hle := Nat.div_le_div_right (c := c) (List.le_snd_of_mem_zipIdx hx)
      rw [Nat.mul_div_cancel _ hc] at hle
      have hlt := (hread _).1 h x List.mem_cons_self
      omega
    rw [printAll_congr hnone]
    exact printAll_nil _
  | succ m ih =>
    have hfirst : ∀ part ∈ ((l.take c).zipIdx (d * c)).splitBy sameLine,
        (if read part then g (text part) else .ok []) = g (text part) := by
      intro part hpart
      refine if_pos ((hread part).2 fun x hx => ?_)
      have hmem : x ∈ (l.take c).zipIdx (d * c) := by
        rw [← List.flatten_splitBy sameLine ((l.take c).zipIdx (d * c))]
        exact List.mem_flatten_of_mem hpart hx
      have hlen : (l.take c).length ≤ c := by
        rw [List.length_take]
        exact Nat.min_le_left _ _
      rw [div_of_mem_zipIdx hlen hmem]
      omega
    have hrest := ih (l.drop c) (d + 1) fun part => by
      rw [hread part, show d + (m + 1) = d + 1 + m by omega]
    rw [cutBoth_chunk hc, printAll_append, printAll_congr hfirst, ← printAll_map text,
      splitLines_zipIdx, hrest, List.range_succ_eq_map, printAll, printAll_map, Nat.zero_mul,
      List.drop_zero]
    simp only [List.drop_drop, Nat.succ_mul, Nat.add_comm]

end Chunks

/-! ## The output -/

section Output

variable {o : Options} {files : Files} {file : List UInt8} {n : Nat} {out : List UInt8}

/-- What is in the file of the thread `k + 1` at the end. -/
def chunkOut (o : Options) (file : List UInt8) (chunk k : Nat) : Except Stuck (List UInt8) :=
  if k < 9999999 then grepped o (slice file chunk k) else .ok []

/-- Files of at most `c` bytes, as many as are less than `2^31` bytes. -/
theorem wrapFrom_eq {f : Nat → Except Stuck (List UInt8)} {c m k i : Nat} (hi : i + m * c < 2 ^ 31)
    (h : ∀ j, k ≤ j → j < k + m → ∃ bs, f j = .ok bs ∧ bs.length ≤ c ∧ files (outName (j + 1)) = some bs) :
    ∃ out, wrapFrom files m (k + 1) i = .ok out ∧ printAll f (List.range' k m) = .ok out := by
  induction m generalizing k i with
  | zero => exact ⟨[], rfl, rfl⟩
  | succ m ih =>
    rw [Nat.succ_mul] at hi
    obtain ⟨bs, hf, hlen, hout⟩ := h k le_rfl (by omega)
    obtain ⟨bss, hwrap, hprint⟩ := ih (k := k + 1) (i := i + bs.length) (by omega)
      fun j hj hlt => h j (by omega) (by omega)
    refine ⟨bs ++ bss, ?_, ?_⟩
    · rw [wrapFrom_succ hout (by omega), hwrap]
      rfl
    · exact printAll_cons.2 ⟨bs, bss, hf, hprint, rfl⟩

theorem chunkOut_length_le {c k : Nat} {bs : List UInt8} (h : chunkOut o file c k = .ok bs) :
    bs.length ≤ c := by
  unfold chunkOut at h
  split at h
  · exact (grepped_length_le h).trans (List.length_take_le ..)
  · cases h
    exact Nat.zero_le _

theorem printAll_chunkOut (c : Nat) : printAll (chunkOut o file c) (List.range' 0 n) =
    printAll (fun k => grepped o (slice file c k)) (List.range (min n 9999999)) := by
  have hsplit : List.range' 0 n = List.range (min n 9999999) ++
      (List.range (n - min n 9999999)).map (min n 9999999 + ·) := by
    rw [← List.range_add, ← List.range_eq_range']
    congr 1
    omega
  have hshort : ∀ k ∈ List.range (min n 9999999), chunkOut o file c k = grepped o (slice file c k) :=
    fun k hk => if_pos (by have := List.mem_range.1 hk; omega)
  have hlong : ∀ k ∈ List.range (n - min n 9999999),
      chunkOut o file c (min n 9999999 + k) = .ok [] :=
    fun k hk => if_neg (by have := List.mem_range.1 hk; omega)
  rw [hsplit, printAll_append, printAll_congr hshort, printAll_map, printAll_congr hlong,
    printAll_nil]
  rcases printAll (fun k => grepped o (slice file c k)) (List.range (min n 9999999)) with e | x
  · rfl
  · exact congrArg Except.ok (List.append_nil x)

/-- The lines of a chunk fit into the buffer when those of the file do. -/
theorem pieces_slice (hlines : ∀ line ∈ linesOf file, line.length ≤ 99) {c : Nat} (hc : 0 < c)
    (k : Nat) : pieces (slice file c k) = splitLines (slice file c k) := by
  refine pieces_eq fun s hs => ?_
  obtain ⟨part, hpart, rfl⟩ := part_of_splitLines (d := 0) hc hs
  rw [Nat.zero_mul, cutBoth_lines] at hpart
  obtain ⟨line, hline, hpart⟩ := List.mem_flatMap.1 hpart
  have hinfix := (List.infix_of_mem_flatten hpart).length_le
  unfold parts at hinfix
  rw [List.flatten_splitBy] at hinfix
  unfold text
  rw [List.length_map]
  exact hinfix.trans (hlines line hline)

theorem printAll_slices (hlines : ∀ line ∈ linesOf file, line.length ≤ 99) {c : Nat} (hc : 0 < c) :
    printAll (printedIf o (Read c n)) (cutBoth c file.zipIdx) =
      printAll (chunkOut o file c) (List.range' 0 n) := by
  have h : printAll (printedIf o (Read c n)) _ = _ :=
    printAll_cutBoth hc (min n 9999999) file 0 fun part => by
      rw [Nat.zero_add]
      rfl
  rw [Nat.zero_mul] at h
  rw [printAll_chunkOut, h]
  refine printAll_congr fun k _ => ?_
  unfold grepped
  rw [pieces_slice hlines hc k]
  rfl

/-- The files of the threads at the end. -/
theorem Joined.chunkOut {files₀ files₁ : Files} (hn : 1 ≤ n) (hle : n ≤ file.length)
    (hparse : parse file n files = .ok files₀) (h : Joined o n files₀ files₁) {k : Nat}
    (hk : k < n) : ∃ bs, chunkOut o file (file.length / n) k = .ok bs ∧
      files₁ (outName (k + 1)) = some bs := by
  unfold MCGrep.chunkOut
  by_cases hshort : k < 9999999
  · rw [if_pos hshort]
    exact h.out (by omega) hk hshort ((parse_tmp hn hle hparse (by omega) hk).2 hshort)
  · rw [if_neg hshort]
    exact ⟨[], rfl, h.out_emptied (by omega) hk (by omega)⟩

/-- The output is that of the chunks, one after the other. -/
theorem emits_chunks_iff (hn : 1 ≤ n) (hle : n ≤ file.length) : Emits o files file n out ↔
    (file.length < 2 ^ 31 ∧ Copies file.length (file.length / n)) ∧
      printAll (chunkOut o file (file.length / n)) (List.range' 0 n) = .ok out := by
  rw [← parse_ok_iff hn hle]
  -- once the threads have ended, the output is that of the chunks
  have hwrap : ∀ files₀ files₁, parse file n files = .ok files₀ → Joined o n files₀ files₁ →
      ∃ x, wrapToStdout files₁ n = .ok x ∧
        printAll (chunkOut o file (file.length / n)) (List.range' 0 n) = .ok x := by
    intro files₀ files₁ hparse hjoined
    have hsize := parse_size (by omega) hparse
    have hdiv := Nat.mul_div_le file.length n
    refine wrapFrom_eq (c := file.length / n) (by omega) fun k _ hk => ?_
    obtain ⟨bs, hbs, hfile⟩ := hjoined.chunkOut hn hle hparse (k := k) (by omega)
    exact ⟨bs, hbs, chunkOut_length_le hbs, hfile⟩
  constructor
  · rintro ⟨files₀, files₁, hparse, hjoined, hout⟩
    obtain ⟨x, hx, hprint⟩ := hwrap files₀ files₁ hparse hjoined
    rw [hx, Except.ok.injEq] at hout
    exact ⟨⟨files₀, hparse⟩, hout ▸ hprint⟩
  · rintro ⟨⟨files₀, hparse⟩, hprint⟩
    have hshort : ∀ k, 1 ≤ k → k ≤ n → k ≤ 9999999 →
        ∃ contents out, files₀ (tmpName k) = some contents ∧ grepped o contents = .ok out := by
      intro k h1 hk hshort
      obtain ⟨y, hy⟩ := printAll_mem hprint (a := k - 1) (by rw [List.mem_range'_1]; omega)
      rw [chunkOut, if_pos (by omega)] at hy
      exact ⟨_, y, (parse_tmp hn hle hparse h1 hk).2 hshort, hy⟩
    obtain ⟨files₁, hjoined⟩ := exists_joined hshort
      fun k h1 hk => (parse_tmp hn hle hparse h1 hk).1
    obtain ⟨x, hx, hprint'⟩ := hwrap files₀ files₁ hparse hjoined
    rw [hprint, Except.ok.injEq] at hprint'
    exact ⟨files₀, files₁, hparse, hjoined, hprint' ▸ hx⟩

/-- When the lines fit into the buffer, the output is what the parts are printed as. -/
theorem emits_iff (hlines : ∀ line ∈ linesOf file, line.length ≤ 99) (hn : 1 ≤ n)
    (hle : n ≤ file.length) : Emits o files file n out ↔
      (file.length < 2 ^ 31 ∧ Copies file.length (file.length / n)) ∧
        printAll (printedIf o (Read (file.length / n) n)) (cutBoth (file.length / n) file.zipIdx) =
          .ok out := by
  rw [printAll_slices hlines (Nat.div_pos hle hn), emits_chunks_iff hn hle]

/-- With one thread the lines are printed whole. -/
theorem emits_one_iff (hlines : ∀ line ∈ linesOf file, line.length ≤ 99) (hfile : 0 < file.length) :
    Emits o files file 1 out ↔ file.length < 2 ^ 31 ∧
      printAll (fun line => printed o (text line)) (linesOf file) = .ok out := by
  have hcopies : file.length < 2 ^ 31 → Copies file.length file.length := by
    intro hsize j _ hj
    obtain rfl : j = 0 := by
      by_contra h0
      have := Nat.le_mul_of_pos_left file.length (Nat.pos_of_ne_zero h0)
      omega
    rw [Nat.zero_add, Nat.one_mul]
    refine ⟨?_, hsize⟩
    unfold mapEnd pageSize
    omega
  have hone := cutBoth_one (l := file) 0 le_rfl
  rw [Nat.zero_mul] at hone
  rw [emits_iff hlines le_rfl hfile, Nat.div_one, hone, and_iff_left_of_imp hcopies]
  have hread : ∀ line ∈ linesOf file,
      printedIf o (Read file.length 1) line = printed o (text line) := by
    intro line hline
    refine if_pos fun x hx => ?_
    have hmem : x ∈ file.zipIdx := by
      rw [← List.flatten_splitBy sameLine file.zipIdx]
      exact List.mem_flatten_of_mem hline hx
    rw [← Nat.zero_mul file.length] at hmem
    rw [div_of_mem_zipIdx le_rfl hmem]
    decide
  rw [← printAll_congr hread]
  rfl

end Output

/-! ## Parallel and sequential -/

section Lines

variable {o : Options} {file : List UInt8} {c : Nat} {read : List (UInt8 × Nat) → Prop}
  [DecidablePred read] {line : List (UInt8 × Nat)}

theorem text_parts (hline : 0 ∉ text line) : ∀ p ∈ parts c line, 0 ∉ text p := by
  intro p hp h
  refine hline ?_
  have hmem := (List.infix_of_mem_flatten hp).subset
  unfold parts at hmem
  rw [List.flatten_splitBy] at hmem
  exact List.map_subset Prod.fst hmem h

/-- A line in parts is no longer than whole, and as long only when every part is printed. -/
theorem parts_le_line (hline : 0 ∉ text line) (ho : o.replaceFlag → o.replaceWith ≠ 0)
    {x y : List UInt8} (hx : printAll (printedIf o read) (parts c line) = .ok x)
    (hy : printed o (text line) = .ok y) : x.length ≤ y.length ∧ (x.length = y.length →
      o.findChar ∈ text line → ∀ part ∈ parts c line, Printed o read part) := by
  have h0 : ∀ p ∈ parts c line, 0 ∉ text p := text_parts hline
  have hflat : (parts c line).flatten = line := List.flatten_splitBy _ line
  rw [printed_eq hline ho] at hy
  split at hy
  · have hle := printAll_parts ho h0 (List.nil_notMem_splitBy _ line) hx
    rw [hflat, ← formatted_length hy] at hle
    exact ⟨by omega, fun heq _ => hle.2 (by omega)⟩
  · next hfind =>
    rw [printAll_parts_nil ho h0 (by rw [hflat]; exact hfind)] at hx
    cases hx
    exact ⟨Nat.zero_le _, fun _ h => absurd h hfind⟩

theorem parts_eq_line (hline : 0 ∉ text line) (ho : o.replaceFlag → o.replaceWith ≠ 0)
    (h : o.findChar ∈ text line → ∀ part ∈ parts c line, Printed o read part) :
    ∃ x, printAll (printedIf o read) (parts c line) = .ok x ∧ printed o (text line) = .ok x := by
  have h0 : ∀ p ∈ parts c line, 0 ∉ text p := text_parts hline
  have hflat : (parts c line).flatten = line := List.flatten_splitBy _ line
  rw [printed_eq hline ho]
  by_cases hfind : o.findChar ∈ text line
  · obtain ⟨x, hx, hformat⟩ := printAll_parts_eq ho h0 (h hfind)
    rw [hflat] at hformat
    exact ⟨x, hx, by rw [if_pos hfind, hformat]⟩
  · exact ⟨[], printAll_parts_nil ho h0 (by rw [hflat]; exact hfind), if_neg hfind⟩

end Lines

/-- Several threads emit what one thread does exactly when `parse` ends and every line with the search
    character is printed whole. -/
theorem parallel_eq_sequential_iff {o : Options} {files : Files} {file : List UInt8} {n : Nat}
    (h0 : 0 ∉ file) (hlines : ∀ line ∈ linesOf file, line.length ≤ 99)
    (ho : o.replaceFlag → o.replaceWith ≠ 0) (hn : 1 ≤ n) (hle : n ≤ file.length) :
    (∃ out, (∀ x, Emits o files file n x ↔ x = out) ∧ ∀ x, Emits o files file 1 x ↔ x = out) ↔
      (file.length < 2 ^ 31 ∧ Copies file.length (file.length / n)) ∧ Whole o file n := by
  have htext : ∀ line ∈ linesOf file, 0 ∉ text line := by
    intro line hline h
    refine h0 ?_
    have hmem := (List.infix_of_mem_flatten hline).subset
    unfold linesOf at hmem
    rw [List.flatten_splitBy] at hmem
    have := List.map_subset Prod.fst hmem h
    rwa [List.zipIdx_map_fst] at this
  simp only [emits_iff hlines hn hle, emits_one_iff hlines (hn.trans hle), cutBoth_lines,
    printAll_flatMap]
  constructor
  · rintro ⟨out, hpar, hseq⟩
    obtain ⟨hparse, hpar⟩ := (hpar out).2 rfl
    obtain ⟨-, hseq⟩ := (hseq out).2 rfl
    exact ⟨hparse, (printAll_length (fun line hline x y hx hy =>
      parts_le_line (htext line hline) ho hx hy) hpar hseq).2 rfl⟩
  · rintro ⟨hparse, hwhole⟩
    obtain ⟨out, hpar, hseq⟩ := printAll_same fun line hline =>
      parts_eq_line (htext line hline) ho (hwhole line hline)
    refine ⟨out, fun x => ?_, fun x => ?_⟩
    · rw [hpar, Except.ok.injEq, and_iff_right hparse, eq_comm]
    · rw [hseq, Except.ok.injEq, and_iff_right hparse.1, eq_comm]

instance (o : Options) (read : List (UInt8 × Nat) → Prop) [DecidablePred read] :
    DecidablePred (Printed o read) := fun part =>
  inferInstanceAs (Decidable (read part ∧ o.findChar ∈ text part ∧
    IsFormat ((text part).map (replaced o))))

instance (o : Options) (file : List UInt8) (numThread : Nat) : Decidable (Whole o file numThread) :=
  inferInstanceAs (Decidable (∀ line ∈ linesOf file, o.findChar ∈ text line →
    ∀ part ∈ parts (file.length / numThread) line,
      Printed o (Read (file.length / numThread) numThread) part))

/-- Two lines in two chunks. -/
theorem parallel_eq_sequential_two : ∃ out,
    (∀ x, Emits ⟨97, 122, true⟩ (fun _ => none) [97, 10, 97, 10] 2 x ↔ x = out) ∧
      ∀ x, Emits ⟨97, 122, true⟩ (fun _ => none) [97, 10, 97, 10] 1 x ↔ x = out :=
  (parallel_eq_sequential_iff (by decide) (by decide) (by decide) (by decide) (by decide)).2
    (by decide +kernel)

/-- A line in two chunks loses the part without the search character. -/
theorem parallel_ne_sequential : ¬ ∃ out,
    (∀ x, Emits ⟨98, 0, false⟩ (fun _ => none) [97, 98, 10] 2 x ↔ x = out) ∧
      ∀ x, Emits ⟨98, 0, false⟩ (fun _ => none) [97, 98, 10] 1 x ↔ x = out := by
  rintro ⟨out, hpar, hseq⟩
  have hlines : ∀ line ∈ linesOf [97, 98, 10], line.length ≤ 99 := by decide
  have hpar := ((emits_iff hlines (by decide) (by decide)).1 ((hpar out).2 rfl)).2
  have hseq := ((emits_one_iff hlines (by decide)).1 ((hseq out).2 rfl)).2
  have hshort : printAll (printedIf ⟨98, 0, false⟩ (Read (3 / 2) 2))
      (cutBoth (3 / 2) [97, 98, 10].zipIdx) = .ok [98] := by
    decide +kernel
  have hlong : printAll (fun line => printed ⟨98, 0, false⟩ (text line)) (linesOf [97, 98, 10]) =
      .ok [97, 98, 10] := by
    decide +kernel
  rw [show [97, 98, (10 : UInt8)].length = 3 from rfl, hshort] at hpar
  rw [hlong] at hseq
  cases hpar
  cases hseq

end OsBasics.MCGrep
