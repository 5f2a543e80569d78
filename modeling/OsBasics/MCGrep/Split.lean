/-
  The chunks of `parse`.

  Every chunk file holds the bytes of a chunk with its name (`parseLoop_source`), as many
  as `chunk` says. So the files of the threads hold `numThread * chunk` bytes, which is
  the whole file only when the division leaves nothing (`parse_partition_iff`). The loop
  moves by `chunk`, and goes on for ever when that is zero (`parse_ends_iff`).
-/
import OsBasics.MCGrep.Parse

namespace OsBasics.MCGrep

/-! ## Blocks -/

/-- Lists of one length are a list in a row when they are its blocks. -/
theorem flatten_eq_iff {α : Type} {c : Nat} {bss : List (List α)} {l : List α}
    (hlen : ∀ bs ∈ bss, bs.length = c) :
    bss.flatten = l ↔ l.length = bss.length * c ∧
      ∀ k < bss.length, bss[k]? = some ((l.drop (k * c)).take c) := by
  induction bss generalizing l with
  | nil =>
    rw [List.flatten_nil, List.length_nil, Nat.zero_mul, List.length_eq_zero_iff]
    exact ⟨fun h => ⟨h.symm, fun k hk => absurd hk (Nat.not_lt_zero k)⟩, fun h => h.1.symm⟩
  | cons bs bss ih =>
    have hbs : bs.length = c := hlen bs List.mem_cons_self
    have ih := ih (l := l.drop c) fun bs h => hlen bs (List.mem_cons_of_mem _ h)
    rw [List.flatten_cons, List.length_cons, Nat.succ_mul]
    constructor
    · rintro rfl
      rw [List.drop_left' hbs] at ih
      obtain ⟨hsum, hall⟩ := ih.1 rfl
      refine ⟨by rw [List.length_append]; omega, fun k hk => ?_⟩
      cases k with
      | zero => rw [Nat.zero_mul, List.drop_zero, List.take_left' hbs, List.getElem?_cons_zero]
      | succ k =>
        rw [List.getElem?_cons_succ, hall k (by omega), Nat.succ_mul, Nat.add_comm, ← List.drop_drop,
          List.drop_left' hbs]
    · rintro ⟨hsum, hall⟩
      have hfirst : bs = l.take c := by simpa using hall 0 (Nat.succ_pos _)
      have hrest : bss.flatten = l.drop c := by
        refine ih.2 ⟨by rw [List.length_drop]; omega, fun k hk => ?_⟩
        have h := hall (k + 1) (Nat.succ_lt_succ hk)
        rw [List.getElem?_cons_succ, Nat.succ_mul, Nat.add_comm] at h
        rw [h, List.drop_drop]
      rw [hfirst, hrest, List.take_append_drop]

/-! ## What the loop writes -/

section Loop

variable {file : List UInt8} {files files' : Files} {c n j : Nat}

theorem chunkFile_length {i : Nat} (hc : 0 < c) (hi : i + c ≤ mapEnd file.length) :
    (chunkFile file i c).length = c := by
  have hle := le_mapEnd file.length
  unfold chunkFile mapped
  rw [if_neg hc.ne', List.length_take, List.length_drop, List.length_append, List.length_replicate]
  omega

/-- A chunk inside the file. -/
theorem chunkFile_slice {k : Nat} (hc : 0 < c) (hk : (k + 1) * c ≤ file.length) :
    chunkFile file (k * c) c = slice file c k := by
  rw [Nat.succ_mul] at hk
  unfold chunkFile mapped slice
  rw [if_neg hc.ne', List.drop_append_of_le_length (by omega), List.take_append_of_le_length]
  rw [List.length_drop]
  omega

/-- What is in a file after the loop was there before, or is a chunk with its name. -/
theorem parseLoop_source (h : parseLoop file c n (j * c) (j + 1) files = .ok files') :
    (∀ name, files' name = files name ∨ ∃ e, e * c < file.length ∧ tmpName (e + 1) = name ∧
      files' name = some (chunkFile file (e * c) c)) ∧
    ∀ d, j ≤ d → d * c < file.length → ∃ e, e * c < file.length ∧ tmpName (e + 1) = tmpName (d + 1) ∧
      files' (tmpName (d + 1)) = some (chunkFile file (e * c) c) := by
  induction n generalizing j files with
  | zero => cases h
  | succ n ih =>
    by_cases hj : j * c < file.length
    · obtain ⟨-, h⟩ := (parseLoop_succ hj).1 h
      obtain ⟨hany, hnew⟩ := ih h
      have hfirst : ∃ e, e * c < file.length ∧ tmpName (e + 1) = tmpName (j + 1) ∧
          files' (tmpName (j + 1)) = some (chunkFile file (e * c) c) := by
        rcases hany (tmpName (j + 1)) with hkept | hlater
        · exact ⟨j, hj, rfl, by rw [hkept, Function.update_self]⟩
        · exact hlater
      refine ⟨fun name => ?_, fun d hd hlt => ?_⟩
      · by_cases hname : name = tmpName (j + 1)
        · exact hname ▸ .inr hfirst
        · rw [← Function.update_of_ne hname (some (chunkFile file (j * c) c)) files]
          exact hany name
      · rcases Nat.eq_or_lt_of_le hd with rfl | hd
        · exact hfirst
        · exact hnew d hd hlt
    · rw [parseLoop_stop hj, Except.ok.injEq] at h
      subst h
      refine ⟨fun _ => .inl rfl, fun d hd hlt => ?_⟩
      have := Nat.mul_le_mul_right c hd
      omega

end Loop

/-! ## What the loop reads -/

/-- The `memcpy` calls of the loop, as source offset and length, up to the one that faults. -/
def memcpys (file : List UInt8) (chunk : Int) : Nat → Nat → List (Nat × Nat)
  | 0, _ => []
  | n + 1, i =>
    if i < file.length then
      (i, (chunk % 2 ^ 64).toNat) ::
        if chunk < 0 ∨ mapEnd file.length < i + chunk.toNat then []
        else if 2 ^ 31 ≤ i + chunk.toNat then []
        else memcpys file chunk n (i + chunk.toNat)
    else []

theorem mem_memcpys {file : List UInt8} {c n j : Nat} (hc : c < 2 ^ 64) {copy : Nat × Nat}
    (h : copy ∈ memcpys file c n (j * c)) : ∃ d, copy = (d * c, c) ∧ d * c < file.length := by
  induction n generalizing j with
  | zero => cases h
  | succ n ih =>
    have hnext : j * c + c = (j + 1) * c := (Nat.succ_mul j c).symm
    unfold memcpys at h
    split at h
    · next hj =>
      rcases List.mem_cons.1 h with rfl | h
      · refine ⟨j, ?_, hj⟩
        rw [Int.emod_eq_of_lt (by omega) (by omega), Int.toNat_natCast]
      · split at h
        · cases h
        split at h
        · cases h
        rw [Int.toNat_natCast, hnext] at h
        exact ih h
    · cases h

/-! ## A partition -/

/-- The files of the threads are the file in a row, and nothing behind its end is copied. -/
structure Partition (file : List UInt8) (numThread : Nat) (files : Files) : Prop where
  chunks : ∃ chunks : List (List UInt8),
    (List.range numThread).map (fun k => files (tmpName (k + 1))) = chunks.map some ∧
      chunks.flatten = file
  copies : ∀ copy ∈ memcpys file (chunkOf file.length numThread) (file.length + 1) 0,
    copy.1 + copy.2 ≤ file.length

section Parse

variable {file : List UInt8} {files files' : Files} {numThread : Nat}

/-- What a thread finds is a chunk with the name of its own, and as long. -/
theorem parse_source (hn : 1 ≤ numThread) (hle : numThread ≤ file.length)
    (h : parse file numThread files = .ok files') {k : Nat} (hk : k < numThread) :
    ∃ e bs, e * (file.length / numThread) < file.length ∧ tmpName (e + 1) = tmpName (k + 1) ∧
      files' (tmpName (k + 1)) = some bs ∧ bs.length = file.length / numThread ∧
      ((e + 1) * (file.length / numThread) ≤ file.length → bs = slice file (file.length / numThread) e) := by
  obtain ⟨hsize, hcopies⟩ := (parse_ok_iff hn hle).1 ⟨files', h⟩
  rw [parse_eq hsize] at h
  have hc : 0 < file.length / numThread := Nat.div_pos hle hn
  have hend := (Nat.mul_le_mul_right (file.length / numThread) hk).trans (Nat.mul_div_le _ _)
  rw [Nat.succ_mul] at hend
  obtain ⟨e, he, hname, hfile⟩ := (parseLoop_source h).2 k (Nat.zero_le k) (by omega)
  have hin := (hcopies e ((Nat.le_mul_of_pos_right e hc).trans_lt he) he).1
  rw [Nat.succ_mul] at hin
  exact ⟨e, _, he, hname, hfile, chunkFile_length hc hin, chunkFile_slice hc⟩

/-- `parse` leaves a partition exactly when the number of threads divides the size of the file, an
    `int` holds that size, and chunks with one name are equal. -/
theorem parse_partition_iff (hn : 1 ≤ numThread) (hle : numThread ≤ file.length) :
    (∃ files', parse file numThread files = .ok files' ∧ Partition file numThread files') ↔
      file.length < 2 ^ 31 ∧ numThread ∣ file.length ∧
        ∀ j < numThread, ∀ k < numThread, tmpName (j + 1) = tmpName (k + 1) →
          slice file (file.length / numThread) j = slice file (file.length / numThread) k := by
  have hc : 0 < file.length / numThread := Nat.div_pos hle hn
  constructor
  · rintro ⟨files', hparse, ⟨chunks, hchunks, hflat⟩, -⟩
    have hcount : chunks.length = numThread := by
      simpa using (congrArg List.length hchunks).symm
    have hget : ∀ k < numThread, chunks[k]? = files' (tmpName (k + 1)) := by
      intro k hk
      have h := congrArg (fun l : List (Option (List UInt8)) => l[k]?) hchunks
      have hk' : k < chunks.length := by omega
      rw [List.getElem?_map, List.getElem?_map, List.getElem?_range hk, List.getElem?_eq_getElem hk'] at h
      rw [List.getElem?_eq_getElem hk']
      exact (Option.some.inj h).symm
    have hlen : ∀ bs ∈ chunks, bs.length = file.length / numThread := by
      intro bs hbs
      obtain ⟨k, hk, rfl⟩ := List.mem_iff_getElem.1 hbs
      obtain ⟨e, bs, -, -, hfile, hlen, -⟩ := parse_source hn hle hparse (k := k) (by omega)
      rw [← hget k (by omega), List.getElem?_eq_getElem hk, Option.some.injEq] at hfile
      rw [hfile, hlen]
    obtain ⟨hsum, hall⟩ := (flatten_eq_iff hlen).1 hflat
    rw [hcount] at hsum hall
    refine ⟨parse_size (by omega) hparse, ⟨_, hsum⟩, fun j hj k hk hname => ?_⟩
    have hj' := (hget j hj).symm.trans (hall j hj)
    have hk' := (hget k hk).symm.trans (hall k hk)
    rw [hname, hk', Option.some.injEq] at hj'
    exact hj'.symm
  · rintro ⟨hsize, hdvd, hsame⟩
    have hwhole : numThread * (file.length / numThread) = file.length := Nat.mul_div_cancel' hdvd
    -- no chunk is cut off
    have hin : ∀ d, d * (file.length / numThread) < file.length →
        d < numThread ∧ (d + 1) * (file.length / numThread) ≤ file.length := by
      intro d hd
      have hlt : d < numThread := Nat.lt_of_mul_lt_mul_right (hd.trans_eq hwhole.symm)
      refine ⟨hlt, ?_⟩
      conv_rhs => rw [← hwhole]
      exact Nat.mul_le_mul_right _ hlt
    have hcopies : Copies file.length (file.length / numThread) := fun d _ hd =>
      ⟨(hin d hd).2.trans (le_mapEnd _), (hin d hd).2.trans_lt hsize⟩
    obtain ⟨files', hparse⟩ : ∃ files', parse file numThread files = .ok files' :=
      (parse_ok_iff hn hle).2 ⟨hsize, hcopies⟩
    refine ⟨files', hparse, ⟨(List.range numThread).map (slice file (file.length / numThread)), ?_, ?_⟩, ?_⟩
    · rw [List.map_map]
      refine List.map_congr_left fun k hk => ?_
      obtain ⟨e, bs, he, hname, hfile, -, hslice⟩ := parse_source hn hle hparse (List.mem_range.1 hk)
      obtain ⟨hlt, hend⟩ := hin e he
      rw [hfile, hslice hend, hsame e hlt k (List.mem_range.1 hk) hname]
      rfl
    · refine (flatten_eq_iff (c := file.length / numThread) fun bs hbs => ?_).2 ⟨?_, fun k hk => ?_⟩
      · obtain ⟨k, hk, rfl⟩ := List.mem_map.1 hbs
        have hend := Nat.mul_le_mul_right (file.length / numThread) (List.mem_range.1 hk)
        rw [hwhole, Nat.succ_mul] at hend
        unfold slice
        rw [List.length_take, List.length_drop]
        omega
      · rw [List.length_map, List.length_range, hwhole]
      · rw [List.length_map, List.length_range] at hk
        rw [List.getElem?_map, List.getElem?_range hk]
        rfl
    · intro copy hcopy
      have hint : file.length / numThread < 2 ^ 64 := by
        have := Nat.div_le_self file.length numThread
        omega
      rw [chunkOf_of_lt hsize, ← Nat.zero_mul (file.length / numThread)] at hcopy
      obtain ⟨d, rfl, hd⟩ := mem_memcpys hint hcopy
      have hend := (hin d hd).2
      rw [Nat.succ_mul] at hend
      exact hend

theorem parse_partition_halves :
    (∃ files', parse [97, 10, 98, 10] 2 (fun _ => none) = .ok files' ∧ Partition [97, 10, 98, 10] 2 files') ↔
      [97, 10, 98, (10 : UInt8)].length < 2 ^ 31 ∧ 2 ∣ [97, 10, 98, (10 : UInt8)].length ∧
        ∀ j < 2, ∀ k < 2, tmpName (j + 1) = tmpName (k + 1) →
          slice [97, 10, 98, 10] ([97, 10, 98, (10 : UInt8)].length / 2) j =
            slice [97, 10, 98, 10] ([97, 10, 98, (10 : UInt8)].length / 2) k :=
  parse_partition_iff (by decide) (by decide)

/-- Two threads for five bytes: the third chunk has the last byte, and the byte behind it. -/
theorem parse_no_partition : ¬ ∃ files', parse [97, 10, 98, 98, 10] 2 (fun _ => none) = .ok files' ∧
    Partition [97, 10, 98, 98, 10] 2 files' := by
  rintro ⟨files', -, hpart⟩
  exact absurd (hpart.copies (4, 2) (by decide)) (by decide)

end Parse

/-! ## The end of the loop -/

section Ends

variable {file : List UInt8} {files : Files} {numThread : Nat}

/-- A loop that moves makes no more rounds than the file has bytes. -/
theorem parseLoop_moves {c n i k : Nat} (hc : 0 < c) (hn : file.length ≤ i + n) :
    parseLoop file c (n + 1) i k files ≠ .error .loops := by
  induction n generalizing i k files with
  | zero =>
    unfold parseLoop
    rw [if_neg (by omega)]
    exact fun h => by cases h
  | succ n ih =>
    unfold parseLoop
    split
    · split
      · exact fun h => by cases h
      split
      · exact fun h => by cases h
      · rw [Int.toNat_natCast]
        exact ih (by omega)
    · exact fun h => by cases h

/-- The loop comes to an end exactly when the chunk length is not zero as an `int`, and through its
    test exactly when its copies stay in the mapping and its offset is an `int`. -/
theorem parse_ends_iff (hfile : 1 ≤ file.length) (hn : 1 ≤ numThread) :
    ((∃ rounds, parseLoop file (chunkOf file.length numThread) rounds 0 1 files ≠ .error .loops) ↔
      ¬ 2 ^ 32 ∣ file.length / numThread) ∧
    ((∃ files', parse file numThread files = .ok files') ↔
      numThread ≤ file.length ∧ file.length < 2 ^ 31 ∧ Copies file.length (file.length / numThread)) := by
  refine ⟨?_, ?_⟩
  · have hzero : chunkOf file.length numThread = 0 ↔ 2 ^ 32 ∣ file.length / numThread :=
      Int.dvd_iff_bmod_eq_zero.symm.trans Int.natCast_dvd_natCast
    rw [← hzero]
    constructor
    · rintro ⟨rounds, hends⟩ h0
      rw [h0] at hends
      exact hends (parseLoop_zero hfile rounds 1)
    · intro hne
      refine ⟨file.length + 1, ?_⟩
      rcases lt_or_gt_of_ne hne with hneg | hpos
      · unfold parseLoop
        rw [if_pos (Nat.lt_of_succ_le hfile), if_pos (.inl hneg)]
        exact fun h => by cases h
      · obtain ⟨c, hc⟩ := Int.eq_ofNat_of_zero_le hpos.le
        rw [hc]
        exact parseLoop_moves (by omega) (by omega)
  · by_cases hle : numThread ≤ file.length
    · rw [parse_ok_iff hn hle, and_iff_right hle]
    · refine iff_of_false (fun hends => ?_) fun h => hle h.1
      obtain ⟨files', hparse⟩ := hends
      have h0 : chunkOf file.length numThread = 0 := by
        unfold chunkOf
        rw [Nat.div_eq_of_lt (by omega)]
        rfl
      unfold parse at hparse
      rw [h0, parseLoop_zero hfile] at hparse
      cases hparse

theorem parse_ends_three :
    ((∃ rounds, parseLoop [97, 98, 10] (chunkOf [97, 98, (10 : UInt8)].length 2) rounds 0 1
        (fun _ => none) ≠ .error .loops) ↔ ¬ 2 ^ 32 ∣ [97, 98, (10 : UInt8)].length / 2) ∧
    ((∃ files', parse [97, 98, 10] 2 (fun _ => none) = .ok files') ↔
      2 ≤ [97, 98, (10 : UInt8)].length ∧ [97, 98, (10 : UInt8)].length < 2 ^ 31 ∧
        Copies [97, 98, (10 : UInt8)].length ([97, 98, (10 : UInt8)].length / 2)) :=
  parse_ends_iff (by decide) (by decide)

/-- Two threads for one byte. -/
theorem parse_never_ends : ¬ ∃ rounds,
    parseLoop [97] (chunkOf [(97 : UInt8)].length 2) rounds 0 1 (fun _ => none) ≠ .error .loops := by
  rintro ⟨rounds, hends⟩
  exact hends (parseLoop_zero (by decide) rounds 1)

end Ends

end OsBasics.MCGrep
