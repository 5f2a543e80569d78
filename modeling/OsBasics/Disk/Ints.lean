/-
  Numbers that stay within `int`.

  `atoi` gives an `int` whatever it reads, but the distances are added up without a check.
  `Small` bounds the numbers of an input so that nothing overflows: `services_inRange`
  says that every sum and difference of the six policies is an `int` then. So for these
  inputs `main_eq_iff` is about the program as it runs.
-/
import OsBasics.Disk.Text

namespace OsBasics.Disk

open OsBasics.Lib OsBasics.Lists

variable {reqs cs : List Int} {start b c : Int} {st : Seek} {step : Seek → Int → Seek} {k : Nat}

/-- A number that is an `int`. -/
def IsInt (n : Int) : Prop := -2 ^ 31 ≤ n ∧ n < 2 ^ 31

/-- The numbers are so small that no sum of distances overflows. -/
def Small (start : Int) (reqs : List Int) : Prop :=
  ∃ b, 200 ≤ b ∧ (∀ n ∈ start :: reqs, |n| ≤ b) ∧ 4 * b * (reqs.length + 2) < 2 ^ 31

theorem Small.isInt (h : Small start reqs) : ∀ n ∈ start :: reqs, IsInt n := by
  obtain ⟨b, hb, hall, hn⟩ := h
  intro n hmem
  have hle := le_abs_self n
  have hge := neg_le_abs n
  have hb' := hall n hmem
  have hmul : 4 * b * 2 ≤ 4 * b * (reqs.length + 2) := mul_le_mul_of_nonneg_left (by omega) (by omega)
  unfold IsInt
  omega

/-- What the loop over `order` computes are `int`s: sums and differences of the head and the next
    cylinder, their absolute values, and the distance so far. -/
structure Service.InRange (v : Service) : Prop where
  arms : ∀ l c r, v.order = l ++ c :: r →
    IsInt (|(l.foldl v.step (Seek.init v.start)).prevDist| + |c|) ∧ IsInt (|c| + |c|)
  total : ∀ l r, v.order = l ++ r → IsInt (l.foldl v.step (Seek.init v.start)).totalDist

theorem Service.InRange.isInt_totalDist {v : Service} (h : v.InRange) : IsInt v.totalDist :=
  h.total v.order [] (List.append_nil _).symm

theorem Service.InRange.isInt_order {v : Service} (h : v.InRange) : ∀ c ∈ v.order, IsInt c := by
  intro c hc
  obtain ⟨l, r, hl⟩ := List.append_of_mem hc
  have hdouble := (h.arms l c r hl).2
  have hle := le_abs_self c
  have hge := neg_le_abs c
  have hpos := abs_nonneg c
  unfold IsInt at *
  omega

/-! ## One step -/

/-- After `k` steps between `-b` and `b`. -/
structure Seek.Within (b : Int) (k : Nat) (st : Seek) : Prop where
  head : |st.prevDist| ≤ b
  nonneg : 0 ≤ st.totalDist
  total : st.totalDist ≤ 4 * b * k

theorem Seek.Within.move (h : st.Within b k) (hc : |c| ≤ b) : (st.move c).Within b (k + 1) := by
  have htri := abs_sub st.prevDist c
  have hhead := h.head
  have hpos := abs_nonneg (st.prevDist - c)
  have hb := (abs_nonneg c).trans hc
  have hnonneg := h.nonneg
  have htotal := h.total
  refine ⟨hc, ?_, ?_⟩
  · show 0 ≤ st.totalDist + |st.prevDist - c|
    omega
  · show st.totalDist + |st.prevDist - c| ≤ 4 * b * ((k + 1 : Nat) : Int)
    rw [Nat.cast_add, Nat.cast_one, mul_add, mul_one]
    omega

theorem Seek.Within.circle (turn : Int → Bool) (h : st.Within b k) (hc : |c| ≤ b) :
    (st.circle turn c).Within b (k + 1) := by
  have hb := (abs_nonneg c).trans hc
  have hhead := h.head
  have hnonneg := h.nonneg
  have htotal := h.total
  have hmul : 4 * b * ((k + 1 : Nat) : Int) = 4 * b * k + 4 * b := by
    rw [Nat.cast_add, Nat.cast_one, mul_add, mul_one]
  -- the first half: the head moves, or not
  have hfirst : ∀ s : Seek, s = (if c ≠ 0 ∧ st.directionChange = 0 then st.move c else st) →
      |s.prevDist| ≤ b ∧ 0 ≤ s.totalDist ∧ s.totalDist ≤ 4 * b * k + 2 * b := by
    rintro s rfl
    split
    · have htri := abs_sub st.prevDist c
      have hpos := abs_nonneg (st.prevDist - c)
      refine ⟨hc, ?_, ?_⟩
      · show 0 ≤ st.totalDist + |st.prevDist - c|
        omega
      · show st.totalDist + |st.prevDist - c| ≤ 4 * b * k + 2 * b
        omega
    · exact ⟨hhead, hnonneg, by omega⟩
  unfold Seek.circle
  generalize (if c ≠ 0 ∧ st.directionChange = 0 then st.move c else st) = s at hfirst
  obtain ⟨hs, hs0, hsb⟩ := hfirst s rfl
  have hturn : ∀ s' : Seek, s' = (if turn c then { s with directionChange := 1 } else s) →
      s'.prevDist = s.prevDist ∧ s'.totalDist = s.totalDist := by
    rintro s' rfl
    split <;> exact ⟨rfl, rfl⟩
  dsimp only
  generalize (if turn c then { s with directionChange := 1 } else s) = s' at hturn
  obtain ⟨hprev, hdist⟩ := hturn s' rfl
  split
  · have htri := abs_add_le s'.prevDist c
    have hpos := abs_nonneg (s'.prevDist + c)
    rw [← hprev] at hs
    refine ⟨hc, ?_, ?_⟩
    · show 0 ≤ s'.totalDist + |s'.prevDist + c|
      omega
    · show s'.totalDist + |s'.prevDist + c| ≤ _
      omega
  · exact ⟨hprev ▸ hs, by omega, by omega⟩

/-- A step that keeps within the bounds does so over a whole order. -/
theorem Seek.Within.foldl (hstep : ∀ st c k, Seek.Within b k st → |c| ≤ b → (step st c).Within b (k + 1))
    (h : st.Within b k) (hcs : ∀ c ∈ cs, |c| ≤ b) : (cs.foldl step st).Within b (k + cs.length) := by
  induction cs generalizing st k with
  | nil => exact h
  | cons c cs ih =>
    obtain ⟨hc, hcs⟩ := List.forall_mem_cons.1 hcs
    have hrest := ih (hstep st c k h hc) hcs
    rwa [List.length_cons, Nat.add_comm cs.length 1, ← Nat.add_assoc]

/-! ## The six policies -/

/-- A policy that goes over few cylinders between `-b` and `b`. -/
theorem Service.InRange.of_within {v : Service} {n : Nat}
    (hstep : ∀ st c k, Seek.Within b k st → |c| ≤ b → (v.step st c).Within b (k + 1))
    (hstart : |v.start| ≤ b) (horder : ∀ c ∈ v.order, |c| ≤ b) (hlen : v.order.length ≤ n)
    (hn : 4 * b * n < 2 ^ 31) (hb : 2 * b < 2 ^ 31) : v.InRange := by
  have hb0 := (abs_nonneg v.start).trans hstart
  have hinit : Seek.Within b 0 (Seek.init v.start) := ⟨hstart, le_rfl, by simp [Seek.init]⟩
  have hfront : ∀ l r, v.order = l ++ r →
      (l.foldl v.step (Seek.init v.start)).Within b (0 + l.length) ∧ l.length ≤ n := by
    intro l r hl
    refine ⟨hinit.foldl hstep fun c hc => horder c (by rw [hl]; exact List.mem_append_left _ hc), ?_⟩
    rw [hl, List.length_append] at hlen
    omega
  refine ⟨fun l c r hl => ?_, fun l r hl => ?_⟩
  · have hhead := (hfront l _ hl).1.head
    have hc := horder c (by simp [hl])
    have hpos := abs_nonneg (l.foldl v.step (Seek.init v.start)).prevDist
    have hcpos := abs_nonneg c
    unfold IsInt
    omega
  · obtain ⟨hw, hle⟩ := hfront l r hl
    have hnonneg := hw.nonneg
    have htotal := hw.total
    rw [Nat.zero_add] at htotal
    have hmul : 4 * b * (l.length : Int) ≤ 4 * b * n :=
      mul_le_mul_of_nonneg_left (by omega) (by omega)
    unfold IsInt
    omega

theorem mem_served {le : Task → Task → Bool} {tasks : List Task} :
    c ∈ served le tasks ↔ c ∈ tasks.map Task.cylinder :=
  ((List.perm_insertionSort _ tasks).map Task.cylinder).mem_iff

theorem length_served (le : Task → Task → Bool) (tasks : List Task) :
    (served le tasks).length = tasks.length := by
  rw [served, List.length_map, List.length_insertionSort]

/-- On small numbers no policy overflows. -/
theorem services_inRange (h : Small start reqs) (scan cscan look clook : Bool) :
    ∀ v ∈ services scan cscan look clook start reqs, v.InRange := by
  obtain ⟨b, hb, hall, hn⟩ := h
  obtain ⟨hstart, hreqs⟩ := List.forall_mem_cons.1 hall
  have hcast : ((reqs.length + 2 : Nat) : Int) = reqs.length + 2 := by
    rw [Nat.cast_add, Nat.cast_ofNat]
  have hn' : 4 * b * ((reqs.length + 2 : Nat) : Int) < 2 ^ 31 := by rw [hcast]; exact hn
  have hb2 : 2 * b < 2 ^ 31 := by
    have hmul : 4 * b * 2 ≤ 4 * b * (reqs.length + 2) :=
      mul_le_mul_of_nonneg_left (by omega) (by omega)
    omega
  have hmove : ∀ st c k, Seek.Within b k st → |c| ≤ b → (st.move c).Within b (k + 1) :=
    fun _ _ _ h hc => h.move hc
  have hcircle : ∀ turn, ∀ st c k, Seek.Within b k st → |c| ≤ b →
      (st.circle turn c).Within b (k + 1) := fun turn _ _ _ h hc => h.circle turn hc
  have hnearest : ∀ c ∈ nearest start reqs, |c| ≤ b := fun c hc =>
    hreqs c ((List.perm_insertionSort _ reqs).subset hc)
  have hrequests : ∀ le, ∀ c ∈ served le (requests start reqs), |c| ≤ b := fun le c hc => by
    rw [mem_served, requests_cylinders] at hc
    exact hreqs c hc
  have hbounded : ∀ le, ∀ c ∈ served le (bounded start reqs), |c| ≤ b := fun le c hc => by
    rw [mem_served] at hc
    obtain rfl | rfl | hc := by
      simpa using (bounded_cylinders start reqs).subset hc
    · rw [abs_zero]
      omega
    · exact hb
    · exact hreqs c hc
  have hlen : ∀ le, (served le (requests start reqs)).length ≤ reqs.length + 2 := fun le => by
    rw [length_served, length_requests]
    omega
  have hlen' : ∀ le, (served le (bounded start reqs)).length ≤ reqs.length + 2 := fun le => by
    rw [length_served, length_bounded]
  unfold services
  simp only [List.forall_mem_cons]
  refine ⟨.of_within hmove hstart hreqs (by dsimp only; omega) hn' hb2,
    .of_within hmove hstart hnearest ?_ hn' hb2,
    .of_within hmove hstart (hbounded _) (hlen' _) hn' hb2,
    .of_within (hcircle _) hstart (hbounded _) (hlen' _) hn' hb2,
    .of_within hmove hstart (hrequests _) (hlen _) hn' hb2,
    .of_within (hcircle _) hstart (hrequests _) (hlen _) hn' hb2, fun v hv => absurd hv List.not_mem_nil⟩
  rw [nearest, List.length_insertionSort]
  omega

/-- All that is computed for the requests are `int`s: the distances from the start, and what the policies
    `vs` add up. -/
structure InRange (vs : List Service) (start : Int) (reqs : List Int) : Prop where
  dist : ∀ c ∈ 200 :: reqs, IsInt |c - start|
  policies : ∀ v ∈ vs, v.InRange

theorem Small.inRange (h : Small start reqs) (scan cscan look clook : Bool) :
    InRange (services scan cscan look clook start reqs) start reqs := by
  refine ⟨fun c hc => ?_, services_inRange h _ _ _ _⟩
  obtain ⟨b, hb, hall, hn⟩ := h
  obtain ⟨hstart, hreqs⟩ := List.forall_mem_cons.1 hall
  have hc : |c| ≤ b := by
    obtain rfl | hc := List.mem_cons.1 hc
    · exact hb
    · exact hreqs c hc
  have htri := abs_sub c start
  have hpos := abs_nonneg (c - start)
  have hmul : 4 * b * 2 ≤ 4 * b * (reqs.length + 2) := mul_le_mul_of_nonneg_left (by omega) (by omega)
  unfold IsInt
  omega

/-! ## main -/

/-- The numbers of an input are determined by the text. -/
theorem Input.unique {stack infp : List Char} {start' : Int} {reqs' : List Int}
    (h : Input stack infp start reqs) (h' : Input stack infp start' reqs') :
    start' = start ∧ reqs' = reqs := by
  obtain ⟨name, val, more, htok, rfl⟩ := h.start
  obtain ⟨name', val', more', htok', rfl⟩ := h'.start
  rw [htok', List.cons.injEq, List.cons.injEq] at htok
  exact ⟨by rw [htok.2.1], h'.requests.trans h.requests.symm⟩

/-- On texts with small numbers, `main` ends exactly when there are a start and at least one request.
    What it prints is the report of these numbers, and all it computes are `int`s. -/
theorem main_eq_iff (bits : Fin 4 → Bool) (data : Nat → Task) (stack infp : List Char) (out : String)
    (hsmall : ∀ start reqs, Input stack infp start reqs → Small start reqs) :
    main bits stack infp (.boot data) = .ok out ↔
      ∃ start reqs, Input stack infp start reqs ∧ reqs ≠ [] ∧
        out = report (bits 0) (bits 1) (bits 2) (bits 3) start reqs ∧
        InRange (services (bits 0) (bits 1) (bits 2) (bits 3) start reqs) start reqs := by
  constructor
  · intro h
    obtain ⟨start, reqs, hinput, hne⟩ := input_of_main h
    rw [hinput.main_eq hne] at h
    exact ⟨start, reqs, hinput, hne, (Except.ok.inj h).symm, (hsmall _ _ hinput).inRange _ _ _ _⟩
  · rintro ⟨start, reqs, hinput, hne, rfl, -⟩
    exact hinput.main_eq hne bits data

/-- Two requests, on both sides of the start. -/
theorem main_eq_iff_two : main (fun _ => true) [] "START:53\n98\n37\n".toList (.boot fun _ => ⟨0, 0, 0⟩) =
    .ok (report true true true true 53 [98, 37]) := by
  have hinput : Input [] "START:53\n98\n37\n".toList 53 [98, 37] :=
    ⟨by decide, ⟨"START".toList, "53\n".toList, [], by decide, by decide⟩, by decide⟩
  have hsmall : Small 53 [98, 37] := ⟨200, by decide, by decide, by decide⟩
  refine (main_eq_iff _ _ _ _ _ fun start reqs h => ?_).2
    ⟨53, [98, 37], hinput, List.cons_ne_nil _ _, rfl, hsmall.inRange _ _ _ _⟩
  obtain ⟨rfl, rfl⟩ := hinput.unique h
  exact hsmall

end OsBasics.Disk
