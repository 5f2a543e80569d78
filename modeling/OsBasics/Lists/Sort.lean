/-
  `list_sort` is bottom-up merge sort.

  `listSort_ring`: on a list with entries `l`, not empty, `list_sort` ends, follows
  pointers of the list's own nodes only, and leaves the list `bottomUp le … l`,
  where `le x y` is `cmp(x, y) <= 0` on the data. It writes no other node.

  A pass takes the ring apart into a list built so far (`Out`), a run that `p`
  walks, and the rest from `q` on (`Merging`). The ring is read through `next`
  only, and a node's `next` is written only once it is in the list built.
-/
import OsBasics.Lists.Ring
import OsBasics.Lib.StableSort

namespace OsBasics.Lists

open OsBasics.Lib

variable {α : Type} {m m' m₀ : ListMem α} {st : SortState α} {out ps rem c : List Nat} {o : Nat}

/-- The pointer to the first of `l`, or NULL. -/
def ptrHead : List Nat → Ptr
  | [] => .null
  | x :: _ => .node x

/-- The pointer to the last of `l`, or NULL. -/
def ptrLast (l : List Nat) : Ptr := (l.getLast?.map Ptr.node).getD .null

/-- `next` of `x` is `y`. -/
def Next (m : ListMem α) (x y : Nat) : Prop := m.next x = .node y

theorem ptrLast_concat (l : List Nat) (x : Nat) : ptrLast (l ++ [x]) = .node x := by
  simp [ptrLast]

theorem isChain_next_congr {c : List Nat} (h : c.IsChain (Next m))
    (hn : ∀ x ∈ c.dropLast, m'.next x = m.next x) : c.IsChain (Next m') := by
  rw [List.isChain_iff_forall_rel_of_append_cons_cons] at h ⊢
  intro x y l₁ l₂ hl
  have hx : x ∈ c.dropLast := by simp [hl, List.dropLast_append_of_ne_nil]
  exact (hn x hx).trans (h hl)

/-! ## The list built so far -/

/-- The nodes `out` are linked, from `list` to `tail`. -/
structure Out (st : SortState α) (out : List Nat) : Prop where
  chain : out.IsChain (Link st.mem)
  list : st.list = ptrHead out
  tail : st.tail = ptrLast out

/-- `SameOff`, with the data untouched and no node made. -/
structure Relinked (xs : List Nat) (m m' : ListMem α) : Prop where
  off : SameOff xs m m'
  data : m'.data = m.data
  fresh : m'.fresh = m.fresh

theorem Relinked.refl (xs : List Nat) (m : ListMem α) : Relinked xs m m := ⟨.refl xs m, rfl, rfl⟩

theorem Relinked.trans {xs : List Nat} {m₁ m₂ m₃ : ListMem α} (h : Relinked xs m₁ m₂)
    (h' : Relinked xs m₂ m₃) : Relinked xs m₁ m₃ :=
  ⟨h.off.trans h'.off, h'.data.trans h.data, h'.fresh.trans h.fresh⟩

theorem Relinked.mono {xs ys : List Nat} (h : Relinked xs m m') (hxy : xs ⊆ ys) :
    Relinked ys m m' := ⟨h.off.mono hxy, h.data, h.fresh⟩

theorem relinked_withNext {xs : List Nat} {a : Nat} (ha : a ∈ xs) (v : Ptr) :
    Relinked xs m (m.withNext a v) :=
  ⟨⟨fun _ hx => Function.update_of_ne (ne_of_mem_of_not_mem ha hx).symm _ _, fun _ _ => rfl, rfl,
    fun _ h => h⟩, rfl, rfl⟩

theorem relinked_withPrev {xs : List Nat} {a : Nat} (ha : a ∈ xs) (v : Ptr) :
    Relinked xs m (m.withPrev a v) :=
  ⟨⟨fun _ _ => rfl, fun _ hx => Function.update_of_ne (ne_of_mem_of_not_mem ha hx).symm _ _, rfl,
    fun _ h => h⟩, rfl, rfl⟩

/-- `emit` puts a node that is not there yet at the end. -/
theorem emit_out {e : Nat} (ho : Out st out) (hout : ∀ x ∈ out, st.mem.Valid x)
    (hev : st.mem.Valid e) (hnd : (out ++ [e]).Nodup) :
    ∃ st', emit st (.node e) = .ok st' ∧ Out st' (out ++ [e]) ∧ st'.p = st.p ∧ st'.q = st.q ∧
      st'.psize = st.psize ∧ st'.qsize = st.qsize ∧ Relinked (out ++ [e]) st.mem st'.mem := by
  obtain rfl | ⟨l, t, rfl⟩ := List.eq_nil_or_concat out
  · have htail : st.tail = .null := ho.tail
    refine ⟨{ st with list := .node e, mem := st.mem.withPrev e .null, tail := .node e }, ?_,
      ⟨by simp, rfl, rfl⟩, rfl, rfl, rfl, rfl, relinked_withPrev (by simp) _⟩
    unfold emit
    rw [if_neg (by simp [htail])]
    simp only [pure, Except.pure, bind, Except.bind]
    rw [setPrev_node hev, htail]
  · rw [List.concat_eq_append] at *
    have htail : st.tail = .node t := ho.tail.trans (ptrLast_concat l t)
    have htv : st.mem.Valid t := hout t (by simp)
    have het : t ≠ e := (List.nodup_append.1 hnd).2.2 t (by simp) e (by simp)
    refine ⟨{ st with mem := (st.mem.withNext t (.node e)).withPrev e (.node t), tail := .node e }, ?_,
      ⟨?_, ?_, (ptrLast_concat _ _).symm⟩, rfl, rfl, rfl, rfl, ?_⟩
    · unfold emit
      rw [if_pos (by simp [htail]), htail, setNext_node htv]
      simp only [pure, Except.pure, bind, Except.bind]
      rw [setPrev_node (by exact hev)]
    · rw [List.append_assoc, List.singleton_append, List.isChain_append_cons_cons]
      rw [List.nodup_append, List.nodup_append] at hnd
      refine ⟨isChain_congr ho.chain (fun x hx => ?_) (fun x hx => ?_), ⟨?_, ?_⟩, by simp⟩
      · rw [List.dropLast_concat] at hx
        exact Function.update_of_ne (hnd.1.2.2 x hx t (by simp)) _ _
      · exact Function.update_of_ne (hnd.2.2 x (List.mem_of_mem_tail hx) e (by simp)) _ _
      · exact Function.update_self _ _ _
      · exact Function.update_self _ _ _
    · rw [ho.list]
      cases l <;> rfl
    · exact (relinked_withNext (by simp) _).trans (relinked_withPrev (by simp) _)

/-! ## Merging two runs -/

/-- The middle of a merge in a pass over the ring `c`: the list built, what is left of
    the run at `p`, and the nodes from `q` on. -/
structure Merging (m₀ : ListMem α) (c : List Nat) (o : Nat) (st : SortState α)
    (out ps rem : List Nat) : Prop where
  perm : (out ++ (ps ++ rem)).Perm c
  built : Out st out
  relinked : Relinked c m₀ st.mem
  run : ps.IsChain (Next st.mem)
  p : ps ≠ [] → st.p = ptrHead ps
  psize : st.psize = ps.length
  rest : (rem ++ [o]).IsChain (Next st.mem)
  q : st.q = ptrHead rem
  old : o ∉ ps.tail ∧ o ∉ rem

/-- `advance` inside the ring: the next node, or NULL behind the last. -/
theorem advance_rest {x : Nat} (hx : m.Valid x) (hc : (x :: rem ++ [o]).IsChain (Next m))
    (ho : o ∉ rem) : advance (.node o) m (.node x) = .ok (ptrHead rem) := by
  unfold advance
  rw [getNext_node hx, ok_bind]
  cases rem with
  | nil =>
    have hnext : m.next x = .node o := (List.isChain_cons_cons.1 hc).1
    rw [hnext, if_pos rfl]
    rfl
  | cons y rem =>
    have hnext : m.next x = .node y := (List.isChain_cons_cons.1 hc).1
    have hyo : y ≠ o := fun e => ho (by simp [e])
    rw [hnext, if_neg (by simpa using hyo)]
    rfl

section Merge

variable {x y : Nat}

theorem Merging.mem (h : Merging m₀ c o st out ps rem) (hx : x ∈ out ++ (ps ++ rem)) : x ∈ c :=
  h.perm.subset hx

/-- The node `e` of the run or of the rest goes to the end of the list built. -/
theorem Merging.emit (h : Merging m₀ c o st out ps rem) (hnd : c.Nodup)
    (hv : ∀ x ∈ c, m₀.Valid x) {e : Nat} {ps' rem' : List Nat} {st₁ : SortState α}
    (hmem : st₁.mem = st.mem) (hlist : st₁.list = st.list) (htail : st₁.tail = st.tail)
    (hperm : (ps ++ rem).Perm (e :: (ps' ++ rem'))) (hps : ps' <:+ ps) (hrem : rem' <:+ rem)
    (hp : ps' ≠ [] → st₁.p = ptrHead ps') (hpsize : st₁.psize = ps'.length)
    (hq : st₁.q = ptrHead rem') :
    ∃ st', Lists.emit st₁ (.node e) = .ok st' ∧ Merging m₀ c o st' (out ++ [e]) ps' rem' ∧
      st'.qsize = st₁.qsize := by
  have hperm' : (out ++ [e] ++ (ps' ++ rem')).Perm c := by
    rw [List.append_assoc, List.singleton_append]
    exact (hperm.symm.append_left out).trans h.perm
  have hnd' := (hperm'.nodup_iff).2 hnd
  have hvalid : ∀ z ∈ c, st₁.mem.Valid z := fun z hz => hmem ▸ h.relinked.off.valid z (hv z hz)
  have hsub : out ++ [e] ⊆ c := fun z hz => hperm'.subset (List.mem_append_left _ hz)
  have hbuilt : Out st₁ out := ⟨hmem ▸ h.built.chain, hlist.trans h.built.list, htail.trans h.built.tail⟩
  obtain ⟨st', hemit, hout, hp', hq', hps', hqs', hrel⟩ := emit_out hbuilt
    (fun z hz => hvalid z (hsub (List.mem_append_left _ hz)))
    (hvalid e (hsub (by simp))) (List.nodup_append.1 hnd').1
  -- the nodes that are left keep their `next`
  have hnext : ∀ z ∈ ps' ++ rem', st'.mem.next z = st₁.mem.next z := fun z hz =>
    hrel.off.next z fun hz' => (List.nodup_append.1 hnd').2.2 z hz' z hz rfl
  rw [hmem] at hrel hnext
  refine ⟨st', hemit, ⟨hperm', hout, h.relinked.trans (hrel.mono hsub), ?_, ?_, ?_, ?_, ?_, ?_⟩, hqs'⟩
  · exact isChain_next_congr (h.run.suffix hps)
      fun z hz => hnext z (List.mem_append_left _ (List.dropLast_subset _ hz))
  · exact fun hne => hp'.trans (hp hne)
  · exact hps'.trans hpsize
  · refine isChain_next_congr (h.rest.suffix (by
      obtain ⟨t, rfl⟩ := hrem
      exact ⟨t, by rw [List.append_assoc]⟩)) fun z hz => ?_
    rw [List.dropLast_concat] at hz
    exact hnext z (List.mem_append_right _ hz)
  · exact hq'.trans hq
  · refine ⟨fun ho => h.old.1 ?_, fun ho => h.old.2 (hrem.subset ho)⟩
    obtain ⟨t, rfl⟩ := hps
    cases t with
    | nil => exact ho
    | cons z t => exact List.mem_append_right t (List.mem_of_mem_tail ho)

/-- `p` moves on in its run. -/
theorem takeP_spec (h : Merging m₀ c o st out (x :: ps) rem) (hnd : c.Nodup)
    (hv : ∀ x ∈ c, m₀.Valid x) :
    ∃ st', takeP (.node o) st = .ok st' ∧ Merging m₀ c o st' (out ++ [x]) ps rem ∧
      st'.qsize = st.qsize := by
  have hp : st.p = .node x := h.p (by simp)
  have hx : st.mem.Valid x := h.relinked.off.valid x (hv x (h.mem (by simp)))
  obtain ⟨p', hadv, hp'⟩ : ∃ p', advance (.node o) st.mem (.node x) = .ok p' ∧
      (ps ≠ [] → p' = ptrHead ps) := by
    unfold advance
    rw [getNext_node hx]
    refine ⟨_, rfl, fun hne => ?_⟩
    obtain ⟨y, ps, rfl⟩ := List.exists_cons_of_ne_nil hne
    have hnext : st.mem.next x = .node y := (List.isChain_cons_cons.1 h.run).1
    have hyo : y ≠ o := fun e => h.old.1 (by simp [e])
    rw [hnext, if_neg (by simpa using hyo)]
    rfl
  unfold takeP
  rw [hp, hadv, ok_bind]
  exact h.emit hnd hv rfl rfl rfl (.refl _) (List.suffix_cons x ps) (List.suffix_refl rem) hp'
    (by simp [h.psize]) h.q

/-- `q` moves on in the rest. -/
theorem takeQ_spec (h : Merging m₀ c o st out ps (y :: rem)) (hnd : c.Nodup)
    (hv : ∀ x ∈ c, m₀.Valid x) :
    ∃ st', takeQ (.node o) st = .ok st' ∧ Merging m₀ c o st' (out ++ [y]) ps rem ∧
      st'.qsize = st.qsize - 1 := by
  have hy : st.mem.Valid y := h.relinked.off.valid y (hv y (h.mem (by simp)))
  have hadv := advance_rest hy h.rest fun ho => h.old.2 (List.mem_cons_of_mem y ho)
  have hq : st.q = .node y := h.q
  unfold takeQ
  rw [hq, hadv, ok_bind]
  exact h.emit hnd hv rfl rfl rfl List.perm_middle (List.suffix_refl ps) (List.suffix_cons y rem)
    h.p h.psize rfl

end Merge

/-- `cmp(x, y) <= 0` on the data of two nodes. -/
def cmpLe (cmp : α → α → Int) (m : ListMem α) (x y : Nat) : Bool :=
  decide (cmp (m.data x) (m.data y) ≤ 0)

section Run

variable {cmp : α → α → Int} {x y n : Nat}

/-- A round of the inner loop with both runs left takes the smaller head, the left one
    on a tie. -/
theorem mergeStep_both (cmp : α → α → Int) (h : Merging m₀ c o st out (x :: ps) (y :: rem)) (hv : ∀ z ∈ c, m₀.Valid z)
    (he : ∀ z ∈ c, m₀.heads ≤ z) (hq : st.qsize ≠ 0) :
    mergeStep cmp (.node o) st =
      if cmpLe cmp m₀ x y then takeP (.node o) st else takeQ (.node o) st := by
  have hentry : ∀ z ∈ c, st.mem.listEntry (.node z) = .ok (m₀.data z) := by
    intro z hz
    rw [listEntry_node (h.relinked.off.valid z (hv z hz)) (h.relinked.off.heads ▸ he z hz),
      h.relinked.data]
  have hp : st.p = .node x := h.p (by simp)
  have hqy : st.q = .node y := h.q
  unfold mergeStep
  rw [if_neg (by rw [h.psize]; simp), if_neg (by rw [hqy]; simpa using hq), hp, hqy,
    hentry x (h.mem (by simp)), ok_bind, hentry y (h.mem (by simp)), ok_bind]
  simp only [cmpLe, decide_eq_true_eq]

theorem mergeRuns_step {st₁ : SortState α} (hstep : mergeStep cmp (.node o) st = .ok st₁)
    (hcond : st.psize > 0 ∨ st.qsize > 0 ∧ st.q ≠ .null) :
    mergeRuns cmp (.node o) (n + 1) st = mergeRuns cmp (.node o) n st₁ := by
  rw [mergeRuns, if_pos hcond, hstep, ok_bind]

theorem mergeRuns_done (hp : st.psize = 0) (hq : st.qsize = 0 ∨ st.q = .null) :
    mergeRuns cmp (.node o) n st = .ok st := by
  have hcond : ¬(st.psize > 0 ∨ st.qsize > 0 ∧ st.q ≠ .null) := by
    rintro (h0 | ⟨h0, h0'⟩)
    · omega
    · exact hq.elim (by omega) h0'
  cases n with
  | zero => rfl
  | succ n => rw [mergeRuns, if_neg hcond]; rfl

/-- The inner loop when nothing is left on the right. -/
theorem mergeRuns_left (hnd : c.Nodup) (hv : ∀ z ∈ c, m₀.Valid z)
    (h : Merging m₀ c o st out ps rem) (hq : st.qsize = 0 ∨ rem = []) (hn : ps.length ≤ n) :
    ∃ st', mergeRuns cmp (.node o) n st = .ok st' ∧ Merging m₀ c o st' (out ++ ps) [] rem := by
  have hdone : st.qsize = 0 ∨ st.q = .null := hq.imp_right fun e => by rw [h.q, e]; rfl
  induction ps generalizing n st out with
  | nil => exact ⟨st, mergeRuns_done h.psize hdone, by rwa [List.append_nil]⟩
  | cons x ps ih =>
    obtain ⟨n, rfl⟩ : ∃ k, n = k + 1 := Nat.exists_eq_succ_of_ne_zero (by simp at hn; omega)
    obtain ⟨st₁, htake, h₁, hqs⟩ := takeP_spec h hnd hv
    have hstep : mergeStep cmp (.node o) st = .ok st₁ := by
      unfold mergeStep
      rw [if_neg (by rw [h.psize]; simp), if_pos hdone, htake]
    have hq₁ : st₁.qsize = 0 ∨ rem = [] := hq.imp_left fun e => hqs.trans e
    obtain ⟨st', hrun, h'⟩ := ih (n := n) h₁ hq₁ (by simpa using hn)
      (hq₁.imp_right fun e => by rw [h₁.q, e]; rfl)
    rw [List.append_assoc] at h'
    exact ⟨st', (mergeRuns_step hstep (.inl (by rw [h.psize]; simp))).trans hrun, h'⟩

/-- The inner loop when nothing is left on the left. -/
theorem mergeRuns_right (hnd : c.Nodup) (hv : ∀ z ∈ c, m₀.Valid z)
    (h : Merging m₀ c o st out [] rem) (hn : (rem.take st.qsize).length ≤ n) :
    ∃ st', mergeRuns cmp (.node o) n st = .ok st' ∧
      Merging m₀ c o st' (out ++ rem.take st.qsize) [] (rem.drop st.qsize) := by
  induction rem generalizing n st out with
  | nil =>
    refine ⟨st, mergeRuns_done h.psize (.inr h.q), ?_⟩
    rwa [List.take_nil, List.drop_nil, List.append_nil]
  | cons y rem ih =>
    cases hk : st.qsize with
    | zero =>
      refine ⟨st, mergeRuns_done h.psize (.inl hk), ?_⟩
      rwa [List.take_zero, List.drop_zero, List.append_nil]
    | succ k =>
      rw [hk, List.take_succ_cons, List.length_cons] at hn
      obtain ⟨n, rfl⟩ : ∃ j, n = j + 1 := Nat.exists_eq_succ_of_ne_zero (by omega)
      obtain ⟨st₁, htake, h₁, hqs⟩ := takeQ_spec h hnd hv
      have hstep : mergeStep cmp (.node o) st = .ok st₁ := by
        unfold mergeStep
        rw [if_pos (show st.psize = 0 from h.psize), htake]
      rw [hk, Nat.add_sub_cancel] at hqs
      obtain ⟨st', hrun, h'⟩ := ih (n := n) h₁ (by rw [hqs]; omega)
      rw [hqs, List.append_assoc] at h'
      exact ⟨st', (mergeRuns_step hstep (.inr ⟨by omega, by rw [h.q]; simp [ptrHead]⟩)).trans hrun, h'⟩

/-- The inner loop merges the run at `p` with the first `qsize` nodes from `q` on. -/
theorem mergeRuns_spec (cmp : α → α → Int) (hnd : c.Nodup) (hv : ∀ z ∈ c, m₀.Valid z) (he : ∀ z ∈ c, m₀.heads ≤ z)
    (h : Merging m₀ c o st out ps rem) (hn : ps.length + (rem.take st.qsize).length ≤ n) :
    ∃ st', mergeRuns cmp (.node o) n st = .ok st' ∧
      Merging m₀ c o st' (out ++ ps.merge (rem.take st.qsize) (cmpLe cmp m₀)) []
        (rem.drop st.qsize) := by
  induction n generalizing st out ps rem with
  | zero =>
    obtain rfl : ps = [] := List.eq_nil_of_length_eq_zero (by omega)
    rw [List.nil_merge]
    exact mergeRuns_right hnd hv h (by simpa using hn)
  | succ n ih =>
    match ps, rem, hk : st.qsize with
    | [], rem, k =>
      rw [List.nil_merge, ← hk]
      exact mergeRuns_right hnd hv h (by simpa using hn)
    | ps, [], k =>
      rw [List.take_nil, List.drop_nil, List.merge_right]
      exact mergeRuns_left hnd hv h (.inr rfl) (by simpa using hn)
    | ps, rem, 0 =>
      rw [List.take_zero, List.drop_zero, List.merge_right]
      exact mergeRuns_left hnd hv h (.inl hk) (by omega)
    | x :: ps, y :: rem, k + 1 =>
      have hstep := mergeStep_both cmp h hv he (by omega)
      have hloop : ∀ st₁, mergeStep cmp (.node o) st = .ok st₁ →
          mergeRuns cmp (.node o) (n + 1) st = mergeRuns cmp (.node o) n st₁ :=
        fun st₁ hs => mergeRuns_step hs (.inl (by rw [h.psize]; simp))
      rw [hk] at hn
      simp only [List.take_succ_cons, List.length_cons] at hn
      rw [List.take_succ_cons, List.drop_succ_cons]
      by_cases hxy : cmpLe cmp m₀ x y = true
      · obtain ⟨st₁, htake, h₁, hqs⟩ := takeP_spec h hnd hv
        rw [if_pos hxy, htake] at hstep
        rw [hk] at hqs
        obtain ⟨st', hrun, h'⟩ := ih h₁ (by rw [hqs, List.take_succ_cons, List.length_cons]; omega)
        rw [hqs, List.take_succ_cons, List.drop_succ_cons, List.append_assoc] at h'
        rw [List.cons_merge_cons_pos _ _ _ hxy]
        exact ⟨st', (hloop st₁ hstep).trans hrun, h'⟩
      · obtain ⟨st₁, htake, h₁, hqs⟩ := takeQ_spec h hnd hv
        rw [if_neg hxy, htake] at hstep
        have hqs : st₁.qsize = k := by omega
        obtain ⟨st', hrun, h'⟩ := ih h₁ (by rw [hqs, List.length_cons]; omega)
        rw [hqs, List.append_assoc] at h'
        rw [List.cons_merge_cons_neg _ _ _ hxy]
        exact ⟨st', (hloop st₁ hstep).trans hrun, h'⟩

end Run

/-! ## A pass -/

/-- Between two merges of a pass: the list built, and the nodes from `p` on. -/
structure Passing (m₀ : ListMem α) (c : List Nat) (o : Nat) (st : SortState α)
    (out rem : List Nat) : Prop where
  perm : (out ++ rem).Perm c
  built : Out st out
  relinked : Relinked c m₀ st.mem
  rest : (rem ++ [o]).IsChain (Next st.mem)
  p : st.p = ptrHead rem
  old : o ∉ rem.tail

section Pass

variable {cmp : α → α → Int} {x k n nm : Nat}

/-- The loop over `i` finds the end of a run of `k`, or of the ring. -/
theorem runEnd_spec (hv : ∀ z ∈ rem, m.Valid z) (hc : (rem ++ [o]).IsChain (Next m))
    (ho : o ∉ rem.tail) (hne : rem ≠ []) :
    runEnd (.node o) m k (ptrHead rem) n = .ok (ptrHead (rem.drop k), n + (rem.take k).length) := by
  induction k generalizing rem n with
  | zero => rw [List.drop_zero, List.take_zero]; rfl
  | succ k ih =>
    obtain ⟨x, rem, rfl⟩ := List.exists_cons_of_ne_nil hne
    have hadv : advance (.node o) m (ptrHead (x :: rem)) = .ok (ptrHead rem) :=
      advance_rest (hv x List.mem_cons_self) hc ho
    rw [runEnd, hadv, ok_bind, List.drop_succ_cons, List.take_succ_cons, List.length_cons]
    cases rem with
    | nil => rw [List.drop_nil, List.take_nil]; rfl
    | cons y rem =>
      rw [if_neg (by simp [ptrHead]), ih (fun z hz => hv z (List.mem_cons_of_mem x hz))
        (List.isChain_cons_cons.1 hc).2 (fun h => ho (List.mem_of_mem_tail h)) (by simp)]
      rw [Nat.add_assoc, Nat.add_comm 1]

/-- The body of `while (p)` merges the next two runs of `k`. -/
theorem Passing.step (cmp : α → α → Int) (n nm : Nat) (h : Passing m₀ c o st out rem) (hnd : c.Nodup) (hv : ∀ z ∈ c, m₀.Valid z)
    (he : ∀ z ∈ c, m₀.heads ≤ z) (hk : 0 < k) (hne : rem ≠ []) :
    ∃ st', mergeAll cmp (.node o) k (n + 1) st nm =
        mergeAll cmp (.node o) k n st' (nm + 1) ∧
      Passing m₀ c o st'
        (out ++ (rem.take k).merge ((rem.drop k).take k) (cmpLe cmp m₀)) (rem.drop (2 * k)) := by
  have hsplit := List.take_append_drop k rem
  have hrun := runEnd_spec (k := k) (n := 0)
    (fun z hz => h.relinked.off.valid z (hv z (h.perm.subset (List.mem_append_right out hz))))
    h.rest h.old hne
  rw [Nat.zero_add] at hrun
  have hM : Merging m₀ c o
      { st with q := ptrHead (rem.drop k), psize := (rem.take k).length, qsize := k }
      out (rem.take k) (rem.drop k) := by
    refine ⟨by rw [hsplit]; exact h.perm, ⟨h.built.chain, h.built.list, h.built.tail⟩, h.relinked,
      ?_, ?_, rfl, ?_, rfl, ?_, ?_⟩
    · have hrest := h.rest
      rw [← hsplit, List.append_assoc] at hrest
      exact hrest.left_of_append
    · intro _
      obtain ⟨x, rem, rfl⟩ := List.exists_cons_of_ne_nil hne
      obtain ⟨k, rfl⟩ := Nat.exists_eq_succ_of_ne_zero (by omega : k ≠ 0)
      exact h.p
    · have hrest := h.rest
      rw [← hsplit, List.append_assoc] at hrest
      exact hrest.right_of_append
    · intro hm
      obtain ⟨x, rem, rfl⟩ := List.exists_cons_of_ne_nil hne
      obtain ⟨k, rfl⟩ := Nat.exists_eq_succ_of_ne_zero (by omega : k ≠ 0)
      exact h.old (List.mem_of_mem_take hm)
    · intro hm
      obtain ⟨x, rem, rfl⟩ := List.exists_cons_of_ne_nil hne
      obtain ⟨k, rfl⟩ := Nat.exists_eq_succ_of_ne_zero (by omega : k ≠ 0)
      exact h.old (List.mem_of_mem_drop hm)
  obtain ⟨st', hmerge, hM'⟩ := mergeRuns_spec cmp (n := (rem.take k).length + k) hnd hv he hM
    (Nat.add_le_add_left (List.length_take_le _ _) _)
  refine ⟨{ st' with p := st'.q }, ?_, ⟨?_, ⟨hM'.built.chain, hM'.built.list, hM'.built.tail⟩,
    hM'.relinked, ?_, ?_, ?_⟩⟩
  · rw [mergeAll, if_neg, h.p, hrun, ok_bind]
    · simp only [← h.p]
      rw [hmerge, ok_bind]
    · obtain ⟨x, rem, rfl⟩ := List.exists_cons_of_ne_nil hne
      rw [h.p]
      simp [ptrHead]
  · have hperm := hM'.perm
    rwa [List.nil_append, List.drop_drop, ← Nat.two_mul] at hperm
  · have hrest := hM'.rest
    rwa [List.drop_drop, ← Nat.two_mul] at hrest
  · rw [Nat.two_mul, ← List.drop_drop]
    exact hM'.q
  · intro hm
    refine hM'.old.2 ?_
    rw [List.drop_drop, ← Nat.two_mul]
    exact List.mem_of_mem_tail hm

/-- The loop `while (p)` is a pass of merge sort. It counts one merge when there are at
    most two runs. -/
theorem mergeAll_spec (cmp : α → α → Int) (nm : Nat) (h : Passing m₀ c o st out rem) (hnd : c.Nodup) (hv : ∀ z ∈ c, m₀.Valid z)
    (he : ∀ z ∈ c, m₀.heads ≤ z) (hk : 0 < k) (hn : rem.length < n) :
    ∃ st' nm', mergeAll cmp (.node o) k n st nm = .ok (st', nm') ∧
      Passing m₀ c o st' (out ++ mergePass (cmpLe cmp m₀) k rem) [] ∧
      nm ≤ nm' ∧ (nm' ≤ nm ↔ rem = []) ∧ (nm' ≤ nm + 1 ↔ rem.length ≤ 2 * k) := by
  induction n generalizing st out rem nm with
  | zero => omega
  | succ n ih =>
    by_cases hrem : rem = []
    · subst hrem
      refine ⟨st, nm, ?_, by rwa [mergePass_nil, List.append_nil], Nat.le_refl _, by simp, by simp⟩
      rw [mergeAll, if_pos (show st.p = .null from h.p)]
      rfl
    · obtain ⟨st₁, hbody, h₁⟩ := h.step cmp n nm hnd hv he hk hrem
      have hlen : 0 < rem.length := List.length_pos_of_ne_nil hrem
      obtain ⟨st', nm', hrun, h', hle, hzero, -⟩ := ih (nm + 1) h₁ (by
        rw [List.length_drop]
        omega)
      refine ⟨st', nm', hbody.trans hrun, ?_, by omega, ?_, ?_⟩
      · rw [mergePass_step _ hrem hk, ← List.append_assoc]
        exact h'
      · exact ⟨fun hcon => by omega, fun hcon => absurd hcon hrem⟩
      · rw [hzero, List.drop_eq_nil_iff]

end Pass

/-! ## The whole sort -/

section Whole

variable {cmp : α → α → Int} {hd k n t : Nat} {r : List Nat}

/-- The list built, closed to a ring at its two ends. -/
theorem close_ring {x : Nat} (ho : Out st (x :: r)) (hnd : (x :: r).Nodup)
    (hv : ∀ z ∈ x :: r, st.mem.Valid z) :
    ∃ m₁ m₂, st.mem.setNext st.tail st.list = .ok m₁ ∧ m₁.setPrev st.list st.tail = .ok m₂ ∧
      (x :: r ++ [x]).IsChain (Link m₂) ∧ Relinked (x :: r) st.mem m₂ := by
  obtain ⟨A, t, hA⟩ : ∃ A t, x :: r = A ++ [t] :=
    ⟨(x :: r).dropLast, (x :: r).getLast (by simp), (List.dropLast_append_getLast _).symm⟩
  have htail : st.tail = .node t := by rw [ho.tail, hA, ptrLast_concat]
  have hlist : st.list = .node x := ho.list
  have ht : t ∈ x :: r := by simp [hA]
  refine ⟨st.mem.withNext t (.node x), (st.mem.withNext t (.node x)).withPrev x (.node t), ?_, ?_,
    ?_, (relinked_withNext ht _).trans (relinked_withPrev (by simp) _)⟩
  · rw [htail, hlist, setNext_node (hv t ht)]
  · rw [hlist, htail, setPrev_node (by exact hv x (by simp))]
  · have hnd' : (A ++ [t]).Nodup := hA ▸ hnd
    rw [hA, List.append_assoc, List.singleton_append, List.isChain_append_cons_cons]
    refine ⟨?_, ⟨Function.update_self _ _ _, Function.update_self _ _ _⟩, by simp⟩
    rw [← hA]
    refine isChain_congr ho.chain (fun z hz => ?_) (fun z hz => ?_)
    · rw [hA, List.dropLast_concat] at hz
      exact Function.update_of_ne ((List.nodup_append.1 hnd').2.2 z hz t (by simp)) _ _
    · have hzx : z ≠ x := ne_of_mem_of_not_mem (show z ∈ r from hz) (List.nodup_cons.1 hnd).1
      exact Function.update_of_ne hzx _ _

/-- `next` along a chain of links. -/
theorem isChain_next (h : c.IsChain (Link m)) : c.IsChain (Next m) :=
  h.imp fun _ _ hl => hl.1

/-- The `for (;;)` loop sorts a ring without a head. -/
theorem sortPasses_spec (cmp : α → α → Int) (hring : (o :: r ++ [o]).IsChain (Next m)) (hnd : (o :: r).Nodup)
    (hv : ∀ z ∈ o :: r, m.Valid z) (he : ∀ z ∈ o :: r, m.heads ≤ z) (hk : 0 < k) (hpos : 0 < n)
    (hn : (o :: r).length ≤ 2 ^ n * k) (hlen : (o :: r).length ≤ m.fresh) :
    ∃ m' o' r', bottomUp (cmpLe cmp m) n k (o :: r) = o' :: r' ∧
      sortPasses cmp n m (.node o) k = .ok (m', .node o') ∧
      (o' :: r' ++ [o']).IsChain (Link m') ∧ Relinked (o :: r) m m' := by
  induction n generalizing m o r k with
  | zero => omega
  | succ n ih =>
    have hstart : Passing m (o :: r) o ⟨m, .node o, .null, .null, .null, 0, 0⟩ [] (o :: r) :=
      ⟨.refl _, ⟨by simp, rfl, rfl⟩, .refl _ _, hring, rfl, (List.nodup_cons.1 hnd).1⟩
    obtain ⟨st, nm, hpass, hP, -, -, hcount⟩ := mergeAll_spec cmp 0
      (n := m.fresh + 1) hstart hnd hv he hk (by omega)
    have hperm := mergePass_perm (cmpLe cmp m) k (o :: r)
    obtain ⟨x, s, hxs⟩ : ∃ x s, mergePass (cmpLe cmp m) k (o :: r) = x :: s :=
      List.exists_cons_of_ne_nil fun e => by simp [e] at hperm
    rw [hxs] at hperm
    have hbuilt : Out st (x :: s) := by
      have := hP.built
      rwa [hxs, List.nil_append] at this
    have hnd' := (hperm.nodup_iff).2 hnd
    obtain ⟨m₁, m₂, hclose₁, hclose₂, hchain, hrel⟩ := close_ring hbuilt hnd'
      fun z hz => hP.relinked.off.valid z (hv z (hperm.subset hz))
    have hrel' : Relinked (o :: r) m m₂ := hP.relinked.trans (hrel.mono hperm.subset)
    have hlist : st.list = .node x := hbuilt.list
    unfold sortPasses bottomUp
    rw [hpass, ok_bind]
    simp only [hclose₁, hclose₂, ok_bind]
    rw [hxs]
    by_cases hone : nm ≤ 1
    · rw [if_pos hone, if_pos (hcount.1 hone)]
      exact ⟨m₂, x, s, rfl, by rw [hlist]; rfl, hchain, hrel'⟩
    · have hlong : ¬ (o :: r).length ≤ 2 * k := fun h => hone (hcount.2 h)
      rw [if_neg hone, if_neg hlong]
      have hle : cmpLe cmp m = cmpLe cmp m₂ := by unfold cmpLe; rw [hrel'.data]
      have hpow : (o :: r).length ≤ 2 ^ n * (2 * k) := by
        rw [Nat.pow_succ] at hn
        rw [← Nat.mul_assoc]
        exact hn
      obtain ⟨m', o', r', hsort, hcode, hfin, hrel₂⟩ := ih (isChain_next hchain) hnd'
        (fun z hz => hrel'.off.valid z (hv z (hperm.subset hz)))
        (fun z hz => hrel'.off.heads ▸ he z (hperm.subset hz)) (by omega : 0 < 2 * k)
        (by
          by_contra h0
          obtain rfl : n = 0 := by omega
          rw [Nat.pow_zero, Nat.one_mul] at hpow
          exact hlong hpow)
        (by rw [hperm.length_eq]; exact hpow) (by rw [hperm.length_eq, hrel'.fresh]; exact hlen)
      refine ⟨m', o', r', hle ▸ hsort, ?_, hfin, hrel'.trans (hrel₂.mono hperm.subset)⟩
      rw [hlist, Nat.mul_comm]
      exact hcode

/-- `list_del(head)` leaves the entries in a ring of their own. -/
theorem listDel_head (h : IsRing m hd (o :: r)) :
    ∃ m', m.listDel (.node hd) = .ok m' ∧ (o :: r ++ [o]).IsChain (Next m') ∧
      Relinked (hd :: o :: r) m m' := by
  obtain ⟨A, t, hA⟩ : ∃ A t, o :: r = A ++ [t] :=
    ⟨(o :: r).dropLast, (o :: r).getLast (by simp), (List.dropLast_append_getLast _).symm⟩
  have ht : t ∈ o :: r := by simp [hA]
  have hnd := h.nodup
  have hvalid := h.valid
  have hdr : ∀ z ∈ o :: r, z ≠ hd := fun z hz e => (List.nodup_cons.1 hnd).1 (e ▸ hz)
  have hprev : m.prev hd = .node t := h.prev_head (A := hd :: A) (by rw [hA]; rfl)
  have hnext : m.next hd = .node o := h.next_head
  refine ⟨((((m.withPrev o (.node t)).withNext t (.node o)).withNext hd .poison1).withPrev hd
    .poison2), ?_, ?_, ?_⟩
  · unfold ListMem.listDel ListMem.listDelBetween
    rw [getPrev_node (hvalid hd (by simp)), ok_bind, getNext_node (hvalid hd (by simp)), ok_bind,
      hprev, hnext, setPrev_node (hvalid o (by simp)), ok_bind,
      setNext_node (by exact hvalid t (by simp [ht])), ok_bind,
      setNext_node (by exact hvalid hd (by simp)), ok_bind,
      setPrev_node (by exact hvalid hd (by simp))]
  · have hch := isChain_next h.chain
    rw [hA] at hch hnd
    rw [List.cons_append, List.append_assoc, List.singleton_append] at hch
    have hAt := (List.isChain_append_cons_cons.1 (hch.suffix (List.suffix_cons hd _))).1
    have hAnd := (List.nodup_append.1 (List.nodup_cons.1 hnd).2).2.2
    rw [hA, List.append_assoc, List.singleton_append, List.isChain_append_cons_cons]
    refine ⟨isChain_next_congr hAt fun z hz => ?_, ?_, by simp⟩
    · rw [List.dropLast_concat] at hz
      have hzd : z ≠ hd := hdr z (by simp [hA, hz])
      have hzt : z ≠ t := hAnd z hz t (by simp)
      exact (Function.update_of_ne hzd _ _).trans (Function.update_of_ne hzt _ _)
    · exact (Function.update_of_ne (hdr t ht) _ _).trans (Function.update_self _ _ _)
  · exact ((relinked_withPrev (by simp) _).trans (relinked_withNext (by simp [ht]) _)).trans
      ((relinked_withNext (by simp) _).trans (relinked_withPrev (by simp) _))

/-- The head goes back in between the last and the first entry. -/
theorem link_head (hd : Nat) (hch : (o :: r ++ [o]).IsChain (Link m)) (hnd : (hd :: o :: r).Nodup)
    (hv : ∀ z ∈ hd :: o :: r, m.Valid z) (he : ∀ z ∈ o :: r, m.heads ≤ z) :
    ∃ m', (do
        let m ← m.setNext (.node hd) (.node o)
        let m ← m.setPrev (.node hd) (← m.getPrev (.node o))
        let m ← m.setNext (← m.getPrev (.node o)) (.node hd)
        m.setPrev (.node o) (.node hd)) = Except.ok m' ∧
      IsRing m' hd (o :: r) ∧ Relinked (hd :: o :: r) m m' := by
  obtain ⟨A, t, hA⟩ : ∃ A t, o :: r = A ++ [t] :=
    ⟨(o :: r).dropLast, (o :: r).getLast (by simp), (List.dropLast_append_getLast _).symm⟩
  have ht : t ∈ o :: r := by simp [hA]
  have hdr : ∀ z ∈ o :: r, z ≠ hd := fun z hz e => (List.nodup_cons.1 hnd).1 (e ▸ hz)
  obtain ⟨hin, hlast⟩ : (o :: r).IsChain (Link m) ∧ Link m t o := by
    have hch' := hch
    rw [hA, List.append_assoc, List.singleton_append, List.isChain_append_cons_cons] at hch'
    exact ⟨hA ▸ hch'.1, hch'.2.1⟩
  have hprev : ((m.withNext hd (.node o)).withPrev hd (.node t)).prev o = .node t :=
    (Function.update_of_ne (hdr o (by simp)) _ _).trans hlast.2
  refine ⟨((((m.withNext hd (.node o)).withPrev hd (.node t)).withNext t (.node hd)).withPrev o
    (.node hd)), ?_, ⟨?_, hnd, hv, he⟩, ?_⟩
  · rw [setNext_node (hv hd (by simp)), ok_bind, getPrev_node (by exact hv o (by simp)), ok_bind,
      show (m.withNext hd (.node o)).prev o = .node t from hlast.2,
      setPrev_node (by exact hv hd (by simp)), ok_bind, getPrev_node (by exact hv o (by simp)),
      ok_bind, hprev, setNext_node (by exact hv t (by simp [ht])), ok_bind,
      setPrev_node (by exact hv o (by simp))]
  · have hnd' : (A ++ [t]).Nodup := hA ▸ (List.nodup_cons.1 hnd).2
    have hmid : (o :: r).IsChain (Link ((((m.withNext hd (.node o)).withPrev hd
        (.node t)).withNext t (.node hd)).withPrev o (.node hd))) := by
      refine isChain_congr hin (fun z hz => ?_) (fun z hz => ?_)
      · have hzd : z ≠ hd := hdr z (List.dropLast_subset _ hz)
        rw [hA, List.dropLast_concat] at hz
        have hzt : z ≠ t := (List.nodup_append.1 hnd').2.2 z hz t (by simp)
        exact (Function.update_of_ne hzt _ _).trans (Function.update_of_ne hzd _ _)
      · have hzd : z ≠ hd := hdr z (List.mem_of_mem_tail hz)
        have hzo : z ≠ o :=
          ne_of_mem_of_not_mem (show z ∈ r from hz) (List.nodup_cons.1 (List.nodup_cons.1 hnd).2).1
        exact (Function.update_of_ne hzo _ _).trans (Function.update_of_ne hzd _ _)
    rw [List.cons_append, List.cons_append, List.isChain_cons_cons]
    refine ⟨⟨?_, Function.update_self _ _ _⟩, ?_⟩
    · exact (Function.update_of_ne (hdr t ht).symm _ _).trans (Function.update_self _ _ _)
    · rw [← List.cons_append, hA, List.append_assoc, List.singleton_append,
        List.isChain_append_cons_cons]
      refine ⟨hA ▸ hmid, ⟨Function.update_self _ _ _, ?_⟩, by simp⟩
      exact (Function.update_of_ne (hdr o (by simp)).symm _ _).trans (Function.update_self _ _ _)
  · exact ((relinked_withNext (by simp) _).trans (relinked_withPrev (by simp) _)).trans
      ((relinked_withNext (by simp [ht]) _).trans (relinked_withPrev (by simp) _))

/-- `list_sort` on a list with entries sorts it by bottom-up merge sort. -/
theorem listSort_ring (cmp : α → α → Int) {l : List Nat} (h : IsRing m hd l) (hne : l ≠ []) :
    ∃ m', listSort cmp m (.node hd) = .ok m' ∧
      IsRing m' hd (bottomUp (cmpLe cmp m) (m.fresh + 1) 1 l) ∧ Relinked (hd :: l) m m' := by
  obtain ⟨o, r, rfl⟩ := List.exists_cons_of_ne_nil hne
  obtain ⟨m₁, hdel, hring, hrel₁⟩ := listDel_head h
  have hsub : o :: r ⊆ hd :: o :: r := List.subset_cons_self _ _
  have hv : ∀ z ∈ o :: r, m₁.Valid z := fun z hz => hrel₁.off.valid z (h.valid z (hsub hz))
  have hlen : (o :: r).length ≤ m₁.fresh := by
    have hrange : o :: r ⊆ List.range m₁.fresh := fun z hz => List.mem_range.2 (hv z hz).lt
    have := ((List.nodup_cons.1 h.nodup).2.subperm hrange).length_le
    rwa [List.length_range] at this
  have hfuel : (o :: r).length ≤ 2 ^ (m₁.fresh + 1) * 1 := by
    have := Nat.lt_two_pow_self (n := m₁.fresh + 1)
    omega
  obtain ⟨m₂, o', r', hsort, hpasses, hch, hrel₂⟩ := sortPasses_spec cmp hring
    (List.nodup_cons.1 h.nodup).2 hv (fun z hz => hrel₁.off.heads ▸ h.entries z hz)
    Nat.one_pos (Nat.succ_pos _) hfuel hlen
  have hperm := bottomUp_perm (cmpLe cmp m₁) (m₁.fresh + 1) 1 (o :: r)
  rw [hsort] at hperm
  have hrel : Relinked (hd :: o :: r) m m₂ := hrel₁.trans (hrel₂.mono hsub)
  obtain ⟨m₃, hlink, hring₃, hrel₃⟩ := link_head hd hch
    (((hperm.cons hd).nodup_iff).2 h.nodup)
    (fun z hz => hrel.off.valid z (h.valid z ((hperm.cons hd).subset hz)))
    (fun z hz => hrel.off.heads ▸ h.entries z (hperm.subset hz))
  have hle : cmpLe cmp m₁ = cmpLe cmp m := by unfold cmpLe; rw [hrel₁.data]
  refine ⟨m₃, ?_, ?_, hrel.trans (hrel₃.mono (hperm.cons hd).subset)⟩
  · unfold listSort
    rw [getNext_node (h.valid hd (by simp)), ok_bind, hdel, ok_bind, h.next_head]
    simp only [List.headD_cons]
    rw [hpasses, ok_bind]
    exact hlink
  · rw [← hrel₁.fresh, ← hle, hsort]
    exact hring₃

/-- On a list without entries `list_sort` takes the head for one. -/
theorem listSort_empty (cmp : α → α → Int) (h : IsRing m hd []) (hhd : hd < m.heads) :
    listSort cmp m (.node hd) = .error .badPtr := by
  have hv := h.valid hd List.mem_cons_self
  have hnext : m.next hd = .node hd := h.next_head
  have hprev : m.prev hd = .node hd := h.prev_head (A := []) rfl
  have hdel : ∃ m', m.listDel (.node hd) = .ok m' ∧ m'.next hd = .poison1 ∧ m'.Valid hd ∧
      m'.heads = m.heads := by
    refine ⟨((((m.withPrev hd (.node hd)).withNext hd (.node hd)).withNext hd .poison1).withPrev hd
      .poison2), ?_, Function.update_self _ _ _, hv, rfl⟩
    unfold ListMem.listDel ListMem.listDelBetween
    rw [getPrev_node hv, ok_bind, getNext_node hv, ok_bind, hprev, hnext, setPrev_node hv, ok_bind,
      setNext_node (by exact hv), ok_bind, setNext_node (by exact hv), ok_bind,
      setPrev_node (by exact hv)]
  obtain ⟨m', hdel, hpoison, hv', hheads⟩ := hdel
  have hrun : runEnd (.node hd) m' 1 (.node hd) 0 = .ok (.poison1, 1) := by
    unfold runEnd advance
    rw [getNext_node hv', hpoison]
    rfl
  have hentry : m'.listEntry (.node hd) = .error .badPtr := by
    unfold ListMem.listEntry
    rw [deref_node hv', ok_bind, if_neg (by omega)]
  unfold listSort
  rw [getNext_node hv, ok_bind, hnext, hdel, ok_bind, sortPasses, mergeAll]
  dsimp only
  rw [if_neg (by simp), hrun, ok_bind]
  dsimp only
  rw [mergeRuns, if_pos (by simp), mergeStep, if_neg (by simp), if_neg (by simp)]
  dsimp only
  rw [hentry]
  rfl

end Whole

end OsBasics.Lists
