/-
  Numbers through the disk simulator.

  `config` writes a start and requests as an input file, `readBack` reads the numbers of an
  output file. `main_readBack`: what comes out of `main` for small numbers are the distances and
  the orders of `services`, whatever is printed and parsed on the way.
-/
import Mathlib.Data.List.TakeWhile
import OsBasics.Disk.Ints

namespace OsBasics.Disk

open OsBasics.Lib OsBasics.Lists

variable {reqs cs : List Int} {start n : Int} {l rest body : List Char} {k : Nat}

/-! ## Numbers -/

theorem isBlank_of_mem_toString {c : Char} (hc : c ∈ (toString n).toList) :
    ¬ (c = ' ' ∨ ('\t' ≤ c ∧ c ≤ '\r')) := by
  obtain rfl | hd := mem_toString hc
  · decide
  · rw [Char.isDigit, Bool.and_eq_true, decide_eq_true_eq, decide_eq_true_eq] at hd
    rintro (rfl | ⟨-, hr⟩)
    · exact absurd hd.1 (by decide)
    · exact absurd (UInt32.le_trans hd.1 hr) (by decide)

theorem takeWhile_digits (hrest : ∀ c ∈ rest.head?, ¬ c.isDigit) :
    (Nat.toDigits 10 k ++ rest).takeWhile Char.isDigit = Nat.toDigits 10 k := by
  rw [List.takeWhile_append_of_pos fun c hc => Nat.isDigit_of_mem_toDigits (by decide) (by decide) hc]
  cases rest with
  | nil => rw [List.takeWhile_nil, List.append_nil]
  | cons c rest =>
    rw [List.takeWhile_cons_of_neg (hrest c rfl), List.append_nil]

theorem isDigit_of_digits_eq {c : Char} (h : Nat.toDigits 10 k ++ rest = c :: l) : c.isDigit := by
  obtain ⟨d, ds, hds⟩ := List.exists_cons_of_ne_nil (Nat.toDigits_ne_nil (n := k) (b := 10))
  rw [hds, List.cons_append, List.cons.injEq] at h
  rw [← h.1]
  exact Nat.isDigit_of_mem_toDigits (by decide) (by decide) (hds ▸ List.mem_cons_self)

theorem number_toString (n : Int) (hrest : ∀ c ∈ rest.head?, ¬ c.isDigit) :
    number ((toString n).toList ++ rest) = n := by
  obtain ⟨c, cs, hcs⟩ := List.exists_cons_of_ne_nil (toString_ne_nil n)
  have hdrop : ((toString n).toList ++ rest).dropWhile
      (fun c => c = ' ' ∨ ('\t' ≤ c ∧ c ≤ '\r')) = (toString n).toList ++ rest := by
    have hc : c ∈ (toString n).toList := hcs ▸ List.mem_cons_self
    rw [hcs, List.cons_append, List.dropWhile_cons_of_neg]
    simpa using isBlank_of_mem_toString hc
  unfold number
  dsimp only
  rw [hdrop, toList_toString, sign]
  by_cases hneg : n < 0
  · rw [if_pos hneg]
    change -((Nat.toDigits 10 n.natAbs ++ rest).takeWhile Char.isDigit).foldl _ _ = n
    rw [takeWhile_digits hrest, value_digits]
    omega
  · rw [if_neg hneg, List.nil_append]
    have hdigits := value_digits n.natAbs
    rw [← takeWhile_digits hrest] at hdigits
    -- what is no sign is the first digit
    split
    · next s hs => exact absurd (isDigit_of_digits_eq hs) (by decide)
    · next s hs => exact absurd (isDigit_of_digits_eq hs) (by decide)
    · rw [hdigits]
      omega

/-- `atoi` reads what `%d` writes, up to the first character that is no digit. -/
theorem atoi_toString (hn : IsInt n) (hrest : ∀ c ∈ rest.head?, ¬ c.isDigit) :
    atoi ((toString n).toList ++ rest) = n := by
  obtain ⟨hlo, hhi⟩ := hn
  unfold atoi strtol
  rw [number_toString n hrest, min_eq_left (by omega), max_eq_right (by omega)]
  exact Int.bmod_eq_of_le (by omega) (by omega)

/-! ## Lines -/

/-- A line that fits into the buffer. -/
structure IsLine (l : List Char) : Prop where
  ends : ∃ body, l = body ++ ['\n'] ∧ '\n' ∉ body
  nonzero : Char.ofNat 0 ∉ l
  fits : l.length < maxBuffer

theorem fgets_line (hbody : '\n' ∉ body) (hk : body.length < k) :
    fgets k (body ++ '\n' :: rest) = body ++ ['\n'] := by
  induction body generalizing k with
  | nil =>
    cases k with
    | zero => exact absurd hk (Nat.not_lt_zero 0)
    | succ k => exact if_pos rfl
  | cons c body ih =>
    cases k with
    | zero => exact absurd hk (Nat.not_lt_zero _)
    | succ k =>
      rw [List.mem_cons, not_or] at hbody
      rw [List.cons_append, fgets, if_neg (Ne.symm hbody.1), ih hbody.2 (Nat.lt_of_succ_lt_succ hk)]
      rfl

theorem readLine_line (h : IsLine l) : readLine (l ++ rest) = some (l, rest) := by
  obtain ⟨body, rfl, hbody⟩ := h.ends
  have hlen := h.fits
  rw [List.length_append, List.length_singleton] at hlen
  have hget : fgets (maxBuffer - 1) (body ++ ['\n'] ++ rest) = body ++ ['\n'] := by
    rw [List.append_assoc]
    exact fgets_line hbody (by omega)
  obtain ⟨c, cs, hcs⟩ := List.exists_cons_of_ne_nil (List.concat_ne_nil '\n' body)
  have hzero : (body ++ ['\n']).takeWhile (· ≠ Char.ofNat 0) = body ++ ['\n'] := by
    refine List.takeWhile_eq_self_iff.2 fun x hx => decide_eq_true fun h0 => ?_
    exact h.nonzero (h0 ▸ hx)
  unfold readLine
  rw [hget, hcs]
  dsimp only
  rw [← hcs, hzero, List.drop_left]

/-- The lines of a file are read one by one. -/
theorem readLines_flatten {ls : List (List Char)} (h : ∀ l ∈ ls, IsLine l) (hk : ls.flatten.length ≤ k) :
    readLines k ls.flatten = ls := by
  induction ls generalizing k with
  | nil =>
    cases k with
    | zero => rfl
    | succ k => rfl
  | cons l ls ih =>
    have hl := h l List.mem_cons_self
    have hpos : 0 < l.length := by
      obtain ⟨body, rfl, -⟩ := hl.ends
      rw [List.length_append, List.length_singleton]
      exact Nat.succ_pos _
    rw [List.flatten_cons, List.length_append] at hk
    cases k with
    | zero => omega
    | succ k =>
      unfold readLines
      rw [List.flatten_cons, readLine_line hl]
      dsimp only
      rw [ih (fun m hm => h m (List.mem_cons_of_mem l hm)) (by omega)]

/-! ## Fields -/

/-- `strtok` finds the fields that are written with delimiters between them. -/
theorem tokens_intercalate {d : Char} {ls : List (List Char)} (hne : ls ≠ [])
    (h : ∀ l ∈ ls, d ∉ l ∧ l ≠ []) : tokens d ([d].intercalate ls) = ls := by
  unfold tokens
  rw [← List.splitOn_eq_splitOnP, List.splitOn_intercalate d (fun l hl => (h l hl).1) hne]
  exact List.filter_eq_self.2 fun l hl => decide_eq_true (h l hl).2

/-! ## An input file -/

/-- `n` on a line of its own. -/
def line (n : Int) : List Char := (toString n).toList ++ ['\n']

def header (start : Int) : List Char := "START:".toList ++ line start

/-- The input file. -/
def config (start : Int) (reqs : List Int) : List Char := (header start :: reqs.map line).flatten

theorem notMem_toString {c : Char} (hc : c ≠ '-') (hd : c.isDigit = false) :
    c ∉ (toString n).toList := by
  intro h
  obtain h | h := mem_toString h
  · exact hc h
  · rw [hd] at h
    cases h

/-- A few characters and a number make a line. -/
theorem isLine_of_number {pre : List Char} (hn : IsInt n) (hpre : pre.length ≤ 400)
    (hnl : '\n' ∉ pre) (h0 : Char.ofNat 0 ∉ pre) : IsLine (pre ++ line n) := by
  have hlen : (toString n).toList.length ≤ 10 + 1 := by
    obtain ⟨h1, h2⟩ := hn
    exact length_toString_le (by decide) (by omega)
  refine ⟨⟨pre ++ (toString n).toList, by rw [line, List.append_assoc], ?_⟩, ?_, ?_⟩
  · rw [List.mem_append, not_or]
    exact ⟨hnl, notMem_toString (by decide) (by decide)⟩
  · unfold line
    rw [List.mem_append, List.mem_append, List.mem_singleton, not_or, not_or]
    exact ⟨h0, notMem_toString (by decide) (by decide), by decide⟩
  · rw [line, List.length_append, List.length_append, List.length_singleton]
    unfold maxBuffer
    omega

theorem atoi_line (hn : IsInt n) : atoi (line n) = n := by
  refine atoi_toString hn fun c hc => ?_
  obtain rfl : '\n' = c := Option.some.inj hc
  decide

/-- What is written is read. -/
theorem config_input (hint : ∀ n ∈ start :: reqs, IsInt n) (stack : List Char) :
    Input stack (config start reqs) start reqs := by
  have hlines : readLines (config start reqs).length (config start reqs) =
      header start :: reqs.map line := by
    refine readLines_flatten (fun l hl => ?_) le_rfl
    obtain rfl | hl := List.mem_cons.1 hl
    · exact isLine_of_number (hint start List.mem_cons_self) (by decide) (by decide) (by decide)
    · obtain ⟨r, hr, rfl⟩ := List.mem_map.1 hl
      have hline : IsLine ([] ++ line r) := isLine_of_number (hint r (List.mem_cons_of_mem _ hr))
        (by decide) (by decide) (by decide)
      exact hline
  have hlong : ∀ n, 1 < (line n).length := by
    intro n
    have hpos := List.length_pos_of_ne_nil (toString_ne_nil n)
    rw [line, List.length_append, List.length_singleton]
    omega
  have hheader : header start = [':'].intercalate ["START".toList, line start] := by
    rw [List.intercalate_cons_cons, List.intercalate_singleton]
    rfl
  constructor
  · have hline := hlong start
    rw [hlines, List.headD_cons, hheader, List.intercalate_cons_cons, List.intercalate_singleton,
      List.length_append]
    omega
  · have hcolon : ':' ∉ line start := by
      rw [line, List.mem_append, List.mem_singleton, not_or]
      exact ⟨notMem_toString (by decide) (by decide), by decide⟩
    refine ⟨"START".toList, line start, [], ?_, (atoi_line (hint start List.mem_cons_self)).symm⟩
    rw [hlines, List.headD_cons, hheader]
    refine tokens_intercalate (List.cons_ne_nil _ _) fun l hl => ?_
    obtain rfl | hl := List.mem_cons.1 hl
    · exact ⟨by decide, by decide⟩
    · obtain rfl := List.mem_singleton.1 hl
      exact ⟨hcolon, List.concat_ne_nil _ _⟩
  · rw [hlines, List.tail_cons, requestLines, List.filter_eq_self.2, List.map_map]
    · have hread : reqs.map (atoi ∘ line) = reqs.map id :=
        List.map_congr_left fun r hr => atoi_line (hint r (List.mem_cons_of_mem _ hr))
      rw [hread, List.map_id]
    · intro l hl
      obtain ⟨r, -, rfl⟩ := List.mem_map.1 hl
      exact decide_eq_true (hlong r)

/-! ## The output file -/

/-- The numbers of an output file: of every line, those behind the first comma. -/
def readBack (out : String) : List (List Int) :=
  (out.toList.splitOn '\n').dropLast.map fun l => (tokens ',' l).tail.map atoi

/-- The fields of a row. -/
def Service.fields (v : Service) : List (List Char) :=
  v.name.toList :: (toString v.totalDist).toList :: v.order.map fun c => (toString c).toList

theorem Service.toList_row (v : Service) (hne : v.order ≠ []) :
    v.row.toList = [','].intercalate v.fields ++ ['\n'] := by
  have hcs : v.order.map (fun c => (toString c).toList) ≠ [] := by simpa using hne
  unfold Service.row OsBasics.Disk.row
  rw [fields, List.intercalate_cons_cons, List.intercalate_cons_of_ne_nil hcs,
    String.toList_append, String.toList_append, String.toList_append, String.toList_append,
    String.toList_append, String.toList_intercalate, List.map_map]
  simp only [List.append_assoc]
  rfl

/-- A name that can be told from the rest of its row. -/
def IsName (name : String) : Prop := name.toList ≠ [] ∧ ',' ∉ name.toList ∧ '\n' ∉ name.toList

instance (name : String) : Decidable (IsName name) := inferInstanceAs (Decidable (_ ∧ _))

theorem Service.mem_fields {v : Service} (h : IsName v.name) (hl : l ∈ v.fields) :
    l ≠ [] ∧ ',' ∉ l ∧ '\n' ∉ l := by
  have hnumber : ∀ n : Int, (toString n).toList ≠ [] ∧ ',' ∉ (toString n).toList ∧
      '\n' ∉ (toString n).toList := fun n =>
    ⟨toString_ne_nil n, notMem_toString (by decide) (by decide), notMem_toString (by decide) (by decide)⟩
  obtain rfl | hl := List.mem_cons.1 hl
  · exact h
  · obtain rfl | hl := List.mem_cons.1 hl
    · exact hnumber v.totalDist
    · obtain ⟨c, -, rfl⟩ := List.mem_map.1 hl
      exact hnumber c

theorem Service.tokens_fields {v : Service} (h : IsName v.name) (hv : v.InRange) :
    (tokens ',' ([','].intercalate v.fields)).tail.map atoi = v.totalDist :: v.order := by
  have hatoi : ∀ n : Int, IsInt n → atoi (toString n).toList = n := fun n hint => by
    have hn : atoi ((toString n).toList ++ []) = n := atoi_toString hint fun c hc => (nomatch hc)
    rwa [List.append_nil] at hn
  have htokens : tokens ',' ([','].intercalate v.fields) = v.fields :=
    tokens_intercalate (List.cons_ne_nil _ _) fun l hl => ⟨(mem_fields h hl).2.1, (mem_fields h hl).1⟩
  have horder : v.order.map (atoi ∘ fun c => (toString c).toList) = v.order.map id :=
    List.map_congr_left fun c hc => hatoi c (hv.isInt_order c hc)
  rw [htokens, fields, List.tail_cons, List.map_cons, List.map_map, hatoi _ hv.isInt_totalDist, horder,
    List.map_id]

theorem notMem_intercalate {c d : Char} {ls : List (List Char)} (hcd : c ≠ d) (h : ∀ l ∈ ls, c ∉ l) :
    c ∉ [d].intercalate ls := by
  induction ls with
  | nil => exact List.not_mem_nil
  | cons l ls ih =>
    have hl := h l List.mem_cons_self
    have hrest := ih fun m hm => h m (List.mem_cons_of_mem l hm)
    by_cases hls : ls = []
    · rwa [hls, List.intercalate_singleton]
    · rw [List.intercalate_cons_of_ne_nil hls, List.mem_append, List.mem_append, List.mem_singleton,
        not_or, not_or]
      exact ⟨⟨hl, hcd⟩, hrest⟩

/-- Lines are found again between the newlines. -/
theorem splitOn_lines {ls : List (List Char)} (h : ∀ l ∈ ls, '\n' ∉ l) :
    (ls.flatMap fun l => l ++ ['\n']).splitOn '\n' = ls ++ [[]] := by
  induction ls with
  | nil => rfl
  | cons l ls ih =>
    rw [List.flatMap_cons, List.append_assoc, List.singleton_append, List.splitOn_append_cons_self,
      List.splitOn_eq_singleton (h l List.mem_cons_self), ih fun m hm => h m (List.mem_cons_of_mem l hm)]
    rfl

theorem readBack_rows {vs : List Service} (h : ∀ v ∈ vs, IsName v.name ∧ v.order ≠ [])
    (hv : ∀ v ∈ vs, v.InRange) : readBack (String.join (vs.map Service.row)) = vs.map fun v => v.totalDist :: v.order := by
  have hrows : (String.join (vs.map Service.row)).toList =
      (vs.map fun v => [','].intercalate v.fields).flatMap fun l => l ++ ['\n'] := by
    rw [String.toList_join, List.flatMap_map, List.flatMap_map]
    exact List.flatMap_congr fun v hv => v.toList_row (h v hv).2
  have hlines : ∀ l ∈ vs.map fun v => [','].intercalate v.fields, '\n' ∉ l := by
    intro l hl
    obtain ⟨v, hv, rfl⟩ := List.mem_map.1 hl
    exact notMem_intercalate (by decide) fun m hm => (Service.mem_fields (h v hv).1 hm).2.2
  unfold readBack
  rw [hrows, splitOn_lines hlines, List.dropLast_concat, List.map_map]
  exact List.map_congr_left fun v hmem => Service.tokens_fields (h v hmem).1 (hv v hmem)

theorem served_ne_nil {le : Task → Task → Bool} {tasks : List Task} (h : tasks ≠ []) :
    served le tasks ≠ [] := by
  refine List.ne_nil_of_length_pos ?_
  rw [served, List.length_map, List.length_insertionSort]
  exact List.length_pos_of_ne_nil h

/-- Every row has its name and an order. -/
theorem services_fields (hne : reqs ≠ []) (scan cscan look clook : Bool) :
    ∀ v ∈ services scan cscan look clook start reqs, IsName v.name ∧ v.order ≠ [] := by
  have hreqs : requests start reqs ≠ [] := mt List.map_eq_nil_iff.1 hne
  have hbounded : bounded start reqs ≠ [] := List.cons_ne_nil _ _
  have hnearest : nearest start reqs ≠ [] := by
    refine List.ne_nil_of_length_pos ?_
    rw [nearest, List.length_insertionSort]
    exact List.length_pos_of_ne_nil hne
  unfold services
  simp only [List.forall_mem_cons]
  have hname : ∀ name ∈ ["FCFS", "SSTF", "SCAN", "CSCAN", "LOOK", "CLOOK"], IsName name := by decide
  exact ⟨⟨hname "FCFS" (by decide), hne⟩, ⟨hname "SSTF" (by decide), hnearest⟩,
    ⟨hname "SCAN" (by decide), served_ne_nil hbounded⟩,
    ⟨hname "CSCAN" (by decide), served_ne_nil hbounded⟩,
    ⟨hname "LOOK" (by decide), served_ne_nil hreqs⟩, ⟨hname "CLOOK" (by decide), served_ne_nil hreqs⟩,
    fun v hv => absurd hv List.not_mem_nil⟩

/-- Written to a file, run through `main` and read from its output, small numbers are the distances and
    the orders of the six services. -/
theorem main_readBack (hsmall : Small start reqs) (hne : reqs ≠ []) (bits : Fin 4 → Bool)
    (data : Nat → Task) (stack : List Char) :
    ∃ out, main bits stack (config start reqs) (.boot data) = .ok out ∧
      readBack out = (services (bits 0) (bits 1) (bits 2) (bits 3) start reqs).map
        fun v => v.totalDist :: v.order :=
  ⟨_, (config_input hsmall.isInt stack).main_eq hne bits data,
    readBack_rows (services_fields hne _ _ _ _) (services_inRange hsmall _ _ _ _)⟩

/-- Two requests, on both sides of the start. -/
theorem main_readBack_two : ∃ out,
    main (fun _ => true) [] (config 53 [98, 37]) (.boot fun _ => ⟨0, 0, 0⟩) = .ok out ∧
    readBack out = [[106, 98, 37], [77, 37, 98], [347, 98, 200, 37, 0], [784, 98, 200, 0, 37],
      [106, 98, 37], [106, 98, 37]] := by
  have hsmall : Small 53 [98, 37] := ⟨200, by decide, by decide, by decide⟩
  obtain ⟨out, hrun, hback⟩ :=
    main_readBack hsmall (List.cons_ne_nil _ _) (fun _ => true) (fun _ => ⟨0, 0, 0⟩) []
  exact ⟨out, hrun, hback.trans (by decide)⟩

end OsBasics.Disk
