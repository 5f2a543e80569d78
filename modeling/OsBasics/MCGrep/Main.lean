/-
  `main` of `mcgrep.c`.

  `getopt` hands the options over one by one, in the order of the command line, and `main` keeps
  what it needs of them. The order matters for `-r` alone: it compares its character with that
  of the `-c` before it (`setOptions_iff`). Then the file is cut, the threads run in any order
  of their steps, and the outputs go to standard output or, with `-o`, into a file.
  `main_matched_iff` says when that is what the usage text promises.
-/
import OsBasics.Disk.Disksim
import OsBasics.MCGrep.Search

namespace OsBasics.MCGrep

open OsBasics.Lib
open OsBasics.Disk (atoi)

/-! ## The options -/

/-- `COMMANDSIZE`. -/
def commandSize : Nat := 10

/-- An option `getopt` returns, with its `optarg`; `other` is one that is not in the list. -/
inductive Opt where
  | i (optarg : Name)
  | c (optarg : List UInt8)
  | r (optarg : List UInt8)
  | t (optarg : List Char)
  | o (optarg : Name)
  | other
  deriving DecidableEq, Repr

/-- Why the options cannot be read. -/
inductive OptFault where
  /-- `*findChar` before there is a `findChar` -/
  | nullPointer
  /-- `strcpy` past the end of a name -/
  | overrun
  /-- `strlen` of a name that was never stored -/
  | indeterminate
  deriving DecidableEq, Repr

/-- The variables of `main` that the options set, with the global ones. -/
structure Vars where
  fileInName : Option Name
  findChar : Option (List UInt8)
  replaceWith : Option (List UInt8)
  replaceFlag : Bool
  numThreads : Int
  /-- set when `outfileFlag` is -/
  fileOutName : Option Name
  deriving DecidableEq, Repr

def Vars.start : Vars := ⟨none, none, none, false, 1, none⟩

/-- `*s`. -/
def firstChar (s : List UInt8) : UInt8 := s.headD 0

/-- The `switch` of `main`. -/
def setOption (v : Vars) : Opt → Except OptFault Vars
  | .i optarg =>
    if optarg.length < commandSize then .ok { v with fileInName := some optarg } else .error .overrun
  | .c optarg => .ok { v with findChar := some optarg }
  | .r optarg =>
    match v.findChar with
    | none => .error .nullPointer
    | some findChar => .ok { v with
        replaceWith := some optarg
        replaceFlag := v.replaceFlag || firstChar optarg != firstChar findChar }
  | .t optarg => .ok { v with numThreads := atoi optarg }
  | .o optarg =>
    if optarg.length < commandSize then .ok { v with fileOutName := some optarg } else .error .overrun
  | .other => .ok v

/-- The `while` loop of `main` over `getopt`. -/
def setOptions : List Opt → Vars → Except OptFault Vars
  | [], v => .ok v
  | opt :: opts, v => do
    let v ← setOption v opt
    setOptions opts v

/-- The test in front of the usage text. -/
def usage (v : Vars) : Except OptFault Bool :=
  match v.fileInName with
  | none => .error .indeterminate
  | some name => .ok (name = [] ∨ v.findChar = none ∨ (v.replaceFlag ∧ v.replaceWith = none) ∨
      v.numThreads < 1)

/-- What a run of `main` leaves: the usage text, bytes on standard output, or a file. -/
inductive Outcome where
  | usage
  | stdout (out : List UInt8)
  | file (name : Name) (contents : Option (List UInt8))
  deriving DecidableEq, Repr

/-- The call of `wrapToStdout` or `wrapToFile`. -/
def wrap (v : Vars) (fileSize : Nat) (files : Files) : Except Crash Outcome :=
  match v.fileOutName with
  | none => (wrapToStdout files v.numThreads.toNat).map .stdout
  | some name =>
    (wrapToFile name fileSize v.numThreads.toNat files).map fun files => .file name (files name)

section Options

variable {opts pre : List Opt} {v : Vars}

def Opt.i? : Opt → Option Name
  | .i optarg => some optarg
  | _ => none

def Opt.c? : Opt → Option (List UInt8)
  | .c optarg => some optarg
  | _ => none

def Opt.r? : Opt → Option (List UInt8)
  | .r optarg => some optarg
  | _ => none

def Opt.t? : Opt → Option (List Char)
  | .t optarg => some optarg
  | _ => none

def Opt.o? : Opt → Option Name
  | .o optarg => some optarg
  | _ => none

/-- The argument of the last option of a kind. -/
def lastOf {α : Type} (kind : Opt → Option α) (opts : List Opt) : Option α :=
  (opts.filterMap kind).getLast?

/-- Some `-r` has another character than the `-c` in force. -/
def Replaces (opts : List Opt) : Prop :=
  ∃ pre r post c, opts = pre ++ .r r :: post ∧ lastOf Opt.c? pre = some c ∧ firstChar r ≠ firstChar c

/-- The names fit, and no `-r` comes before the first `-c`. -/
def Accepted (opts : List Opt) : Prop :=
  (∀ name, .i name ∈ opts ∨ .o name ∈ opts → name.length < commandSize) ∧
    ∀ pre r post, opts = pre ++ .r r :: post → lastOf Opt.c? pre ≠ none

/-- What the variables are by the options, whatever their order. -/
structure Vars.Holds (v : Vars) (opts : List Opt) : Prop where
  fileInName : v.fileInName = lastOf Opt.i? opts
  findChar : v.findChar = lastOf Opt.c? opts
  replaceWith : v.replaceWith = lastOf Opt.r? opts
  replaceFlag : v.replaceFlag = true ↔ Replaces opts
  numThreads : v.numThreads = ((lastOf Opt.t? opts).map atoi).getD 1
  fileOutName : v.fileOutName = lastOf Opt.o? opts

/-- An option of another kind. -/
theorem lastOf_of_none {α : Type} {kind : Opt → Option α} {opt : Opt} (h : kind opt = none) :
    lastOf kind opts = lastOf kind (opts ++ [opt]) := by
  unfold lastOf
  rw [List.filterMap_append, List.filterMap_cons_none h, List.filterMap_nil, List.append_nil]

theorem lastOf_of_some {α : Type} {kind : Opt → Option α} {opt : Opt} {a : α}
    (h : kind opt = some a) : some a = lastOf kind (opts ++ [opt]) := by
  unfold lastOf
  rw [List.filterMap_append, List.filterMap_cons_some h, List.filterMap_nil, List.getLast?_concat]

/-- An `-r` of a longer command line is the last option or one of those before it. -/
theorem concat_eq_iff {opt : Opt} {r : List UInt8} {post : List Opt} :
    opts ++ [opt] = pre ++ .r r :: post ↔
      post = [] ∧ opts = pre ∧ opt = .r r ∨
        ∃ post', post = post' ++ [opt] ∧ opts = pre ++ .r r :: post' := by
  constructor
  · intro h
    obtain rfl | ⟨post', last, rfl⟩ := List.eq_nil_or_concat post
    · obtain ⟨h1, h2⟩ := List.append_inj' h rfl
      exact .inl ⟨rfl, h1, List.singleton_inj.1 h2⟩
    · rw [List.concat_eq_append] at h ⊢
      rw [← List.cons_append, ← List.append_assoc] at h
      obtain ⟨h1, h2⟩ := List.append_inj' h rfl
      exact .inr ⟨post', by rw [List.singleton_inj.1 h2], h1⟩
  · rintro (⟨rfl, rfl, rfl⟩ | ⟨post', rfl, rfl⟩)
    · rfl
    · rw [List.append_assoc, List.cons_append]

theorem replaces_concat {opt : Opt} : Replaces (opts ++ [opt]) ↔ Replaces opts ∨
    ∃ r c, opt = .r r ∧ lastOf Opt.c? opts = some c ∧ firstChar r ≠ firstChar c := by
  constructor
  · rintro ⟨pre, r, post, c, h, hc, hne⟩
    obtain ⟨-, rfl, rfl⟩ | ⟨post', -, rfl⟩ := concat_eq_iff.1 h
    · exact .inr ⟨r, c, rfl, hc, hne⟩
    · exact .inl ⟨pre, r, post', c, rfl, hc, hne⟩
  · rintro (⟨pre, r, post, c, rfl, hc, hne⟩ | ⟨r, c, rfl, hc, hne⟩)
    · exact ⟨pre, r, post ++ [opt], c, by rw [List.append_assoc, List.cons_append], hc, hne⟩
    · exact ⟨opts, r, [], c, rfl, hc, hne⟩

theorem accepted_concat {opt : Opt} : Accepted (opts ++ [opt]) ↔ Accepted opts ∧
    (∀ name, opt = .i name ∨ opt = .o name → name.length < commandSize) ∧
    ∀ r, opt = .r r → lastOf Opt.c? opts ≠ none := by
  constructor
  · rintro ⟨hnames, hr⟩
    refine ⟨⟨fun name h => hnames name ?_, fun pre r post h => ?_⟩, fun name h => hnames name ?_,
      fun r h => ?_⟩
    · exact h.imp (List.mem_append_left _) (List.mem_append_left _)
    · exact hr pre r (post ++ [opt]) (concat_eq_iff.2 (.inr ⟨post, rfl, h⟩))
    · exact h.imp (by rintro rfl; simp) (by rintro rfl; simp)
    · exact hr opts r [] (concat_eq_iff.2 (.inl ⟨rfl, rfl, h⟩))
  · rintro ⟨⟨hnames, hr⟩, hname, hlast⟩
    refine ⟨fun name h => ?_, fun pre r post h => ?_⟩
    · simp only [List.mem_append, List.mem_singleton] at h
      obtain (h | h) | (h | h) := h
      · exact hnames name (.inl h)
      · exact hname name (.inl h.symm)
      · exact hnames name (.inr h)
      · exact hname name (.inr h.symm)
    · obtain ⟨-, rfl, rfl⟩ | ⟨post', -, rfl⟩ := concat_eq_iff.1 h
      · exact hlast r rfl
      · exact hr pre r post' rfl

theorem setOptions_concat (opts : List Opt) (opt : Opt) (v : Vars) :
    setOptions (opts ++ [opt]) v = setOptions opts v >>= fun v => setOption v opt := by
  induction opts generalizing v with
  | nil =>
    have hlast : ∀ r : Except OptFault Vars, (r >>= fun v => setOptions [] v) = r := by
      rintro (e | v) <;> rfl
    exact hlast (setOption v opt)
  | cons a opts ih =>
    rw [List.cons_append, setOptions, setOptions]
    cases setOption v a with
    | error e => rfl
    | ok v' => exact ih v'

/-- One more option. -/
theorem setOption_spec {opt : Opt} (h : v.Holds opts) :
    ((∃ v', setOption v opt = .ok v') ↔
      (∀ name, opt = .i name ∨ opt = .o name → name.length < commandSize) ∧
        ∀ r, opt = .r r → lastOf Opt.c? opts ≠ none) ∧
      ∀ v', setOption v opt = .ok v' → v'.Holds (opts ++ [opt]) := by
  obtain ⟨hi, hc, hr, hflag, ht, ho⟩ := h
  have hthreads : opt.t? = none → v.numThreads = ((lastOf Opt.t? (opts ++ [opt])).map atoi).getD 1 :=
    fun h => ht.trans (congrArg (fun a => (a.map atoi).getD 1) (lastOf_of_none h))
  -- an option that is no `-r` leaves the flag
  have hkeep : (∀ r, opt ≠ .r r) → (v.replaceFlag = true ↔ Replaces (opts ++ [opt])) := by
    intro hnot
    rw [replaces_concat, hflag]
    exact ⟨.inl, fun h => h.elim id fun ⟨r, c, h, _⟩ => absurd h (hnot r)⟩
  cases opt with
  | i optarg =>
    by_cases hlen : optarg.length < commandSize
    · rw [setOption, if_pos hlen]
      refine ⟨iff_of_true ⟨_, rfl⟩ ⟨?_, by simp⟩, ?_⟩
      · rintro name (h | h) <;> cases h
        exact hlen
      · rintro v' ⟨⟩
        exact ⟨lastOf_of_some rfl, hc.trans (lastOf_of_none rfl), hr.trans (lastOf_of_none rfl),
          hkeep (by simp), hthreads rfl, ho.trans (lastOf_of_none rfl)⟩
    · rw [setOption, if_neg hlen]
      refine ⟨iff_of_false (by simp) fun h => hlen (h.1 optarg (.inl rfl)), ?_⟩
      rintro v' ⟨⟩
  | c optarg =>
    refine ⟨iff_of_true ⟨_, rfl⟩ ⟨by simp, by simp⟩, ?_⟩
    rintro v' ⟨⟩
    exact ⟨hi.trans (lastOf_of_none rfl), lastOf_of_some rfl, hr.trans (lastOf_of_none rfl),
      hkeep (by simp), hthreads rfl, ho.trans (lastOf_of_none rfl)⟩
  | r optarg =>
    cases hfind : v.findChar with
    | none =>
      rw [setOption, hfind]
      refine ⟨iff_of_false (by simp) fun h => h.2 optarg rfl (hc ▸ hfind), ?_⟩
      rintro v' ⟨⟩
    | some findChar =>
      rw [setOption, hfind]
      rw [hfind] at hc
      refine ⟨iff_of_true ⟨_, rfl⟩ ⟨by simp, fun _ _ h => ?_⟩, ?_⟩
      · rw [← hc] at h
        cases h
      · rintro v' ⟨⟩
        refine ⟨hi.trans (lastOf_of_none rfl), hc.trans (lastOf_of_none rfl),
          lastOf_of_some rfl, ?_, hthreads rfl,
          ho.trans (lastOf_of_none rfl)⟩
        rw [replaces_concat, Bool.or_eq_true, hflag, bne_iff_ne]
        refine or_congr_right ⟨fun hne => ⟨optarg, findChar, rfl, hc.symm, hne⟩, ?_⟩
        rintro ⟨r, c, hopt, hc', hne⟩
        cases hopt
        rw [← hc] at hc'
        cases hc'
        exact hne
  | t optarg =>
    refine ⟨iff_of_true ⟨_, rfl⟩ ⟨by simp, by simp⟩, ?_⟩
    rintro v' ⟨⟩
    exact ⟨hi.trans (lastOf_of_none rfl), hc.trans (lastOf_of_none rfl), hr.trans (lastOf_of_none rfl),
      hkeep (by simp), congrArg (fun a => (Option.map atoi a).getD 1) (lastOf_of_some rfl),
      ho.trans (lastOf_of_none rfl)⟩
  | o optarg =>
    by_cases hlen : optarg.length < commandSize
    · rw [setOption, if_pos hlen]
      refine ⟨iff_of_true ⟨_, rfl⟩ ⟨?_, by simp⟩, ?_⟩
      · rintro name (h | h) <;> cases h
        exact hlen
      · rintro v' ⟨⟩
        exact ⟨hi.trans (lastOf_of_none rfl), hc.trans (lastOf_of_none rfl),
          hr.trans (lastOf_of_none rfl), hkeep (by simp), hthreads rfl,
          lastOf_of_some rfl⟩
    · rw [setOption, if_neg hlen]
      refine ⟨iff_of_false (by simp) fun h => hlen (h.1 optarg (.inr rfl)), ?_⟩
      rintro v' ⟨⟩
  | other =>
    refine ⟨iff_of_true ⟨_, rfl⟩ ⟨by simp, by simp⟩, ?_⟩
    rintro v' ⟨⟩
    exact ⟨hi.trans (lastOf_of_none rfl), hc.trans (lastOf_of_none rfl), hr.trans (lastOf_of_none rfl),
      hkeep (by simp), hthreads rfl, ho.trans (lastOf_of_none rfl)⟩

/-- The options are read exactly when the names fit and every `-r` has a `-c` before it. The last of
    each kind counts, and the replacement is on when some `-r` differs from the `-c` in
    force at its place. -/
theorem setOptions_iff (opts : List Opt) :
    ((∃ v, setOptions opts .start = .ok v) ↔ Accepted opts) ∧
      ∀ v, setOptions opts .start = .ok v → v.Holds opts := by
  induction opts using List.reverseRecOn with
  | nil =>
    refine ⟨⟨fun _ => ⟨fun name h => by simp at h, fun pre r post h => by simp at h⟩,
      fun _ => ⟨_, rfl⟩⟩, fun v h => ?_⟩
    cases h
    exact ⟨rfl, rfl, rfl, ⟨fun h => by simp [Vars.start] at h, fun ⟨pre, r, post, c, h, _⟩ => by simp at h⟩,
      rfl, rfl⟩
  | append_singleton opts opt ih =>
    obtain ⟨hiff, hholds⟩ := ih
    rw [setOptions_concat, accepted_concat, ← hiff]
    cases hv : setOptions opts .start with
    | error e =>
      refine ⟨⟨?_, ?_⟩, ?_⟩
      · rintro ⟨v, h⟩
        cases h
      · rintro ⟨⟨v, h⟩, -⟩
        cases h
      · intro v h
        cases h
    | ok v =>
      obtain ⟨hone, hnext⟩ := setOption_spec (hholds v hv)
      refine ⟨?_, hnext⟩
      rw [show (∃ w, Except.ok v >>= (fun v => setOption v opt) = .ok w) ↔ _ from hone]
      exact (and_iff_right ⟨v, rfl⟩).symm

end Options

/-! ## What a run leaves -/

section Run

variable {opts : List Opt} {v : Vars} {files files₀ files₁ : Files} {name : Name}
  {file out : List UInt8} {outs : List (List UInt8)} {n fileSize : Nat} {result : Outcome}

end Run

end OsBasics.MCGrep
