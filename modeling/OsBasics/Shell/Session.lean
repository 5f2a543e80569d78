/-
  Whole sessions of the shell, and where the words of its commands come from.

  `getVal` replaces every word by the value of a variable. So what a session runs is made
  of the values its table starts with and of the numbers the shell stores itself
  (`session_values`), whatever is typed, and also after the lists of the table have
  become unsound; with an empty table no line has a first argument (`session_idle`).
  `noteLine` is `mainLine` with a list of the numbers stored so far.
-/
import Mathlib.Data.List.ReduceOption
import Mathlib.Data.Set.Insert
import OsBasics.Shell.Main
import OsBasics.Shell.VarRuns

namespace OsBasics.Shell

open OsBasics.Lib

/-- The loop of `main` over the lines of a session. -/
def mainLoop (n : Nat) (s : Globals × Env) (lines : List Line) : Except Stop (Globals × Env) :=
  lines.foldlM (mainLine n) s

theorem mainLoop_cons (n : Nat) (s : Globals × Env) (line : Line) (lines : List Line) :
    mainLoop n s (line :: lines) = mainLine n s line >>= fun s => mainLoop n s lines := rfl

/-- The numbers `runExternal` stores: its process id, and the exit status of the child or the id of a
    child in the background. -/
def numbers (backgroundflag : Int) (sys : Answers) : List (List UInt8) :=
  decimal sys.getpid :: match sys.forked with
    | .parent pid child status =>
      if child = -1 then []
      else if backgroundflag = 0 then [decimal status]
      else [decimal pid]
    | _ => []

/-- The numbers a line stores. -/
def stores (n : Nat) (s : Globals × Env) (line : Line) : List (List UInt8) :=
  match readLine n s.2 s.1 line.sys.stack line.input with
  | .ok st => if (st.args 0).any checkExternal then numbers st.glob.backgroundflag line.sys else []
  | .error _ => []

/-- A line, and the numbers stored so far. -/
def noteLine (n : Nat) (s : (Globals × Env) × List (List UInt8)) (line : Line) :
    Except Stop ((Globals × Env) × List (List UInt8)) :=
  (mainLine n s.1 line).map fun s' => (s', s.2 ++ stores n s.1 line)

/-! ## Values -/

/-- The same entries with the same values. -/
structure Env.Keeps (s s' : Env) : Prop where
  alloc : s'.alloc = s.alloc
  value : s'.value = s.value

namespace Env

variable {s s' s'' : Env} {n p i : Nat} {key v : List UInt8}

theorem Keeps.refl (s : Env) : s.Keeps s := ⟨rfl, rfl⟩

theorem Keeps.trans (h : s.Keeps s') (h' : s'.Keeps s'') : s.Keeps s'' :=
  ⟨h'.alloc.trans h.alloc, h'.value.trans h.value⟩

theorem linkFirst_keeps {hhHead : Nat} (h : s.linkFirst hhHead p = .ok s') : s.Keeps s' := by
  obtain ⟨-, -, h⟩ := bind_ok h
  dsimp only at h
  split at h
  · obtain ⟨-, -, h⟩ := bind_ok h
    rw [← Except.ok.inj h]
    exact ⟨rfl, rfl⟩
  · rw [← Except.ok.inj h]
    exact ⟨rfl, rfl⟩

theorem countIn_keeps (s : Env) (b : Bucket) : s.Keeps (s.countIn b).1 := by
  unfold countIn
  dsimp only
  split <;> exact ⟨rfl, rfl⟩

theorem moveChain_keeps {new new' : Nat → Bucket} {thh : Nat}
    (h : moveChain n s new thh = .ok (s', new')) : s.Keeps s' := by
  induction n generalizing s new thh with
  | zero => cases h
  | succ n ih =>
    unfold moveChain at h
    split at h
    · cases h
      exact .refl _
    · obtain ⟨-, -, h⟩ := bind_ok h
      obtain ⟨s₁, hlink, h⟩ := bind_ok h
      exact (countIn_keeps s _).trans ((linkFirst_keeps hlink).trans (ih h))

theorem moveAll_keeps {k : Nat} {new new' : Nat → Bucket} (h : moveAll n k i s new = .ok (s', new')) :
    s.Keeps s' := by
  induction k generalizing s new i with
  | zero =>
    cases h
    exact .refl _
  | succ k ih =>
    obtain ⟨⟨s₁, new₁⟩, hchain, h⟩ := bind_ok h
    exact (moveChain_keeps hchain).trans (ih h)

theorem expandBuckets_keeps (h : s.expandBuckets n = .ok s') : s.Keeps s' := by
  unfold expandBuckets at h
  split at h
  · cases h
  · obtain ⟨⟨s₁, new⟩, hall, h⟩ := bind_ok h
    have hkeep := moveAll_keeps hall
    rw [← Except.ok.inj h]
    exact ⟨hkeep.alloc, hkeep.value⟩

theorem addToBkt_keeps (h : s.addToBkt n i p = .ok s') : s.Keeps s' := by
  obtain ⟨s₁, hlink, h⟩ := bind_ok h
  have hkeep := linkFirst_keeps hlink
  dsimp only at h
  split at h
  · have hexpand := expandBuckets_keeps h
    exact hkeep.trans ⟨hexpand.alloc, hexpand.value⟩
  · rw [← Except.ok.inj h]
    exact hkeep.trans ⟨rfl, rfl⟩

theorem hashAddStr_keeps (h : s.hashAddStr n p = .ok s') : s.Keeps s' := by
  obtain ⟨s₁, happ, h⟩ := bind_ok h
  refine Keeps.trans ?_ (addToBkt_keeps h)
  obtain ⟨-, -, happ⟩ := bind_ok happ
  obtain ⟨s₂, hhook, henrol⟩ := bind_ok happ
  have hhooked : s.Keeps s₂ := by
    unfold hookLast at hhook
    split at hhook
    · rw [← Except.ok.inj hhook]
      exact ⟨rfl, rfl⟩
    · obtain ⟨-, -, hhook⟩ := bind_ok hhook
      obtain ⟨-, -, hhook⟩ := bind_ok hhook
      rw [← Except.ok.inj hhook]
      exact ⟨rfl, rfl⟩
  unfold enrol at henrol
  split at henrol
  · cases henrol
  · rw [← Except.ok.inj henrol]
    exact hhooked.trans ⟨rfl, rfl⟩

theorem delInBkt_keeps (h : s.delInBkt i p = .ok s') : s.Keeps s' := by
  -- the second half, on the successor
  have hrest : ∀ s₁ : Env, s.Keeps s₁ → (if s₁.hhNext p ≠ 0 then
      s₁.touch (s₁.hhNext p) >>= fun _ => pure (s₁.setHhPrev (s₁.hhNext p) (s₁.hhPrev p))
      else pure s₁ : Except Fault Env) = .ok s' → s.Keeps s' := by
    intro s₁ hkeep h
    split at h
    · obtain ⟨-, -, h⟩ := bind_ok h
      rw [← Except.ok.inj h]
      exact hkeep.trans ⟨rfl, rfl⟩
    · rw [← Except.ok.inj h]
      exact hkeep
  unfold delInBkt at h
  dsimp only at h
  generalize hset : s.setBucket i _ = s₀ at h
  have hkeep : s.Keeps s₀ := hset ▸ ⟨rfl, rfl⟩
  split at h
  · obtain ⟨-, -, h⟩ := bind_ok h
    obtain ⟨s₁, hprev, h⟩ := bind_ok h
    exact hrest s₁ (hkeep.trans (Except.ok.inj hprev ▸ ⟨rfl, rfl⟩)) h
  · exact hrest s₀ hkeep h

theorem unhook_keeps (h : s.unhook p = .ok s') : s.Keeps s' := by
  -- the second half, on the successor
  have hrest : ∀ s₁ : Env, s.Keeps s₁ → (s₁.touch s₁.envHashTable >>= fun _ =>
      if s₁.next p ≠ 0 then s₁.touch (s₁.next p) >>= fun _ =>
        pure { s₁ with prev := Function.update s₁.prev (s₁.next p) (s₁.prev p) }
      else pure s₁ : Except Fault Env) = .ok s' → s.Keeps s' := by
    intro s₁ hkeep h
    obtain ⟨-, -, h⟩ := bind_ok h
    split at h
    · obtain ⟨-, -, h⟩ := bind_ok h
      rw [← Except.ok.inj h]
      exact hkeep.trans ⟨rfl, rfl⟩
    · rw [← Except.ok.inj h]
      exact hkeep
  unfold unhook at h
  dsimp only at h
  have htail : s.Keeps (if p = s.tbl.tail then { s with tbl := { s.tbl with tail := s.prev p } } else s) := by
    split <;> exact ⟨rfl, rfl⟩
  generalize (if p = s.tbl.tail then { s with tbl := { s.tbl with tail := s.prev p } } else s) = s₁
    at h htail
  split at h
  · obtain ⟨-, -, h⟩ := bind_ok h
    obtain ⟨s₂, hprev, h⟩ := bind_ok h
    exact hrest s₂ (htail.trans (Except.ok.inj hprev ▸ ⟨rfl, rfl⟩)) h
  · obtain ⟨s₂, hprev, h⟩ := bind_ok h
    exact hrest s₂ (htail.trans (Except.ok.inj hprev ▸ ⟨rfl, rfl⟩)) h

theorem hashDel_keeps (h : s.hashDel p = .ok s') : s.Keeps s' := by
  obtain ⟨-, -, h⟩ := bind_ok h
  obtain ⟨-, -, h⟩ := bind_ok h
  split at h
  · rw [← Except.ok.inj h]
    exact ⟨rfl, rfl⟩
  · obtain ⟨s₁, hunhook, h⟩ := bind_ok h
    obtain ⟨s₂, hdel, h⟩ := bind_ok h
    rw [← Except.ok.inj h]
    exact (unhook_keeps hunhook).trans ((delInBkt_keeps hdel).trans ⟨rfl, rfl⟩)

theorem touch_ok {u : Unit} (h : s.touch p = .ok u) : p ∈ s.alloc := by
  unfold touch at h
  split at h
  · assumption
  · cases h

theorem findInBkt_mem {out : Nat} (h : s.findInBkt key n out = .ok p) (hp : p ≠ 0) : p ∈ s.alloc := by
  induction n generalizing out with
  | zero => cases h
  | succ n ih =>
    unfold findInBkt at h
    split at h
    · cases h
      exact absurd rfl hp
    · obtain ⟨u, htouch, h⟩ := bind_ok h
      dsimp only at h
      split at h
      · rw [← Except.ok.inj h]
        exact touch_ok htouch
      · exact ih h

/-- What `find` gives is NULL or an entry in memory. -/
theorem find_mem (h : s.find n key = .ok p) (hp : p ≠ 0) : p ∈ s.alloc := by
  unfold find hashFindStr at h
  split at h
  · cases h
    exact absurd rfl hp
  · obtain ⟨-, -, h⟩ := bind_ok h
    exact findInBkt_mem h hp

/-- The values of all entries are among `T`. -/
def Within (T : Set (List UInt8)) (s : Env) : Prop := ∀ p ∈ s.alloc, s.value p ∈ T

variable {T : Set (List UInt8)}

theorem Within.keeps (h : s.Within T) (hk : s.Keeps s') : s'.Within T := by
  intro p hp
  rw [hk.alloc] at hp
  rw [hk.value]
  exact h p hp

/-- `strcpy` of a value to an entry. -/
theorem Within.copyValue (h : ∀ q ∈ s.alloc, q ≠ p → s.value q ∈ T) (hv : v ∈ T)
    (hcode : s.copyValue p v = .ok s') : s'.Within T := by
  unfold Env.copyValue at hcode
  split at hcode
  · rw [← Except.ok.inj hcode]
    intro q hq
    dsimp only at hq ⊢
    by_cases hqp : q = p
    · rw [hqp, Function.update_self]
      exact hv
    · rw [Function.update_of_ne hqp]
      exact h q hq hqp
  · cases hcode

theorem Within.add {new : Nat} (h : s.Within T) (hv : v ∈ T) (hcode : s.add n key v new = .ok s') :
    s'.Within T := by
  obtain ⟨var, -, hcode⟩ := bind_ok hcode
  split at hcode
  · obtain ⟨s₁, hkey, hcode⟩ := bind_ok hcode
    obtain ⟨s₂, hvalue, hcode⟩ := bind_ok hcode
    unfold copyKey at hkey
    split at hkey
    · have hs₁ := Except.ok.inj hkey
      refine (Within.copyValue (fun q hq hne => ?_) hv hvalue).keeps (hashAddStr_keeps hcode)
      rw [← hs₁] at hq ⊢
      exact h q ((List.mem_cons.1 hq).resolve_left hne)
    · cases hkey
  · obtain ⟨s₁, hvalue, hcode⟩ := bind_ok hcode
    exact (Within.copyValue (fun q hq _ => h q hq) hv hvalue).keeps (hashAddStr_keeps hcode)

theorem Within.removeKey {r : Nat} (h : s.Within T) (hcode : s.removeKey n key = .ok (r, s')) :
    s'.Within T := by
  obtain ⟨var, -, hcode⟩ := bind_ok hcode
  split at hcode
  · rw [← (Prod.mk.inj (Except.ok.inj hcode)).2]
    exact h
  · obtain ⟨s₁, hdel, hcode⟩ := bind_ok hcode
    rw [← (Prod.mk.inj (Except.ok.inj hcode)).2]
    intro q hq
    exact (h.keeps (hashDel_keeps hdel)) q (List.mem_of_mem_erase hq)

end Env

/-! ## The words of a command -/

section Values

variable {n : Nat} {env : Env} {g : Globals} {T : Set (List UInt8)} {line : Line}

theorem getVal_mem {w v : List UInt8} (h : env.Within T) (hcode : getVal n env w = .ok (some v)) : v ∈ T := by
  unfold getVal at hcode
  dsimp only at hcode
  split at hcode
  · obtain ⟨ev, hfind, hcode⟩ := bind_ok hcode
    split at hcode
    · next hev =>
      rw [← Option.some.inj (Except.ok.inj hcode)]
      exact h ev (Env.find_mem hfind hev)
    · cases hcode
  · cases hcode

/-- The arguments stored are among `T`. -/
def Scan.Within (T : Set (List UInt8)) (st : Scan) : Prop := ∀ k v, st.args k = some v → v ∈ T

theorem scanToken_within {st st' : Scan} {token : List UInt8} (h : env.Within T) (hst : st.Within T)
    (hcode : scanToken n env st token = .ok st') : st'.Within T := by
  unfold scanToken at hcode
  dsimp only at hcode
  split at hcode
  · rw [← Except.ok.inj hcode]
    exact hst
  · split at hcode
    · rw [← Except.ok.inj hcode]
      exact hst
    · obtain ⟨arg, harg, hcode⟩ := bind_ok hcode
      rw [← Except.ok.inj hcode]
      intro k v hv
      dsimp only at hv
      by_cases hk : k = st.j
      · rw [hk, Function.update_self] at hv
        rw [hv] at harg
        generalize (classify st.glob st.i token).1 = tok at harg
        cases tok with
        | none => cases harg
        | some w => exact getVal_mem h harg
      · rw [Function.update_of_ne hk] at hv
        exact hst k v hv

theorem scan_within {st st' : Scan} {tokens : List (List UInt8)} (h : env.Within T) (hst : st.Within T)
    (hcode : scan n env st tokens = .ok st') : st'.Within T := by
  induction tokens generalizing st with
  | nil => exact Except.ok.inj hcode ▸ hst
  | cons token tokens ih =>
    obtain ⟨st₁, htoken, hcode⟩ := bind_ok hcode
    exact ih (scanToken_within h hst htoken) hcode

/-- What is left on the stack is among `T` too. -/
def StackWithin (T : Set (List UInt8)) (line : Line) : Prop := ∀ k v, line.sys.stack k = some v → v ∈ T

theorem readLine_within {st : Scan} {input : List UInt8} {stack : Nat → Arg} (h : env.Within T)
    (hstack : ∀ k v, stack k = some v → v ∈ T) (hcode : readLine n env g stack input = .ok st) :
    st.Within T := by
  obtain ⟨st₁, hscan, hcode⟩ := bind_ok hcode
  have hst₁ : st₁.Within T := scan_within h (fun k v hv => hstack k v hv) hscan
  rw [← Except.ok.inj hcode]
  intro k v hv
  dsimp only at hv
  by_cases hk : k = st₁.i
  · rw [hk, Function.update_self] at hv
    cases hv
  · rw [Function.update_of_ne hk] at hv
    exact hst₁ k v hv

theorem mapError_ok {ε ε' β : Type} {x : Except ε β} {f : ε → ε'} {b : β} (h : x.mapError f = .ok b) :
    x = .ok b := by
  cases x with
  | error e => cases h
  | ok a => exact congrArg Except.ok (Except.ok.inj h)

theorem runInternal_within {env' : Env} {args : Nat → Arg} {sys : Answers} (h : env.Within T)
    (hargs : ∀ k v, args k = some v → v ∈ T) (hcode : runInternal n env args sys = .ok env') :
    env'.Within T := by
  have hadd : ∀ key value, args 2 = some value →
      (env.add n key value sys.new).mapError Stop.fault = .ok env' → env'.Within T :=
    fun key value hvalue hadd => h.add (hargs 2 value hvalue) (mapError_ok hadd)
  have hremove : ∀ key, ((env.removeKey n key).map Prod.snd).mapError Stop.fault = .ok env' →
      env'.Within T := by
    intro key hdel
    obtain ⟨⟨r, env₁⟩, hdel, hout⟩ := map_ok (mapError_ok hdel)
    exact hout ▸ h.removeKey hdel
  unfold runInternal at hcode
  dsimp only at hcode
  split at hcode
  · split at hcode
    · next hvalue => exact hadd _ _ hvalue hcode
    · exact Except.ok.inj hcode ▸ h
  · split at hcode
    · split at hcode
      · exact hremove _ hcode
      · exact Except.ok.inj hcode ▸ h
    · split at hcode
      · split at hcode
        · next hvalue =>
          split at hcode
          · exact hadd _ _ hvalue hcode
          · exact Except.ok.inj hcode ▸ h
        · exact Except.ok.inj hcode ▸ h
      · split at hcode
        · split at hcode
          · split at hcode
            · exact hremove _ hcode
            · exact Except.ok.inj hcode ▸ h
          · exact Except.ok.inj hcode ▸ h
        · split at hcode
          · cases hcode
          · exact Except.ok.inj hcode ▸ h

theorem runExternal_within {env' : Env} {g' : Globals} {sys : Answers} (h : env.Within T)
    (hnum : ∀ v ∈ numbers g.backgroundflag sys, v ∈ T)
    (hcode : runExternal n env g sys = .ok (g', env')) : env'.Within T := by
  obtain ⟨env₁, hpid, hcode⟩ := bind_ok hcode
  obtain ⟨hgetpid, hnum⟩ := List.forall_mem_cons.1 hnum
  have h₁ := h.add hgetpid (mapError_ok hpid)
  cases hfork : sys.forked with
  | exec =>
    rw [hfork] at hcode
    cases hcode
  | execFails =>
    rw [hfork] at hcode
    exact (Prod.mk.inj (Except.ok.inj hcode)).2 ▸ h₁
  | parent pid child status =>
    rw [hfork] at hcode hnum
    dsimp only at hcode hnum
    by_cases hchild : child = -1
    · rw [if_pos hchild] at hcode
      exact (Prod.mk.inj (Except.ok.inj hcode)).2 ▸ h₁
    · rw [if_neg hchild] at hcode hnum
      by_cases hflag : g.backgroundflag = 0
      · rw [if_pos hflag] at hcode hnum
        obtain ⟨env₂, hstatus, hcode⟩ := bind_ok hcode
        exact (Prod.mk.inj (Except.ok.inj hcode)).2 ▸
          h₁.add (hnum _ List.mem_cons_self) (mapError_ok hstatus)
      · rw [if_neg hflag] at hcode hnum
        obtain ⟨env₂, hchildId, hcode⟩ := bind_ok hcode
        exact (Prod.mk.inj (Except.ok.inj hcode)).2 ▸
          h₁.add (hnum _ List.mem_cons_self) (mapError_ok hchildId)

/-- One line. -/
theorem mainLine_within {s' : Globals × Env} (h : env.Within T)
    (hnum : ∀ v ∈ stores n (g, env) line, v ∈ T) (hstack : StackWithin T line)
    (hcode : mainLine n (g, env) line = .ok s') : s'.2.Within T := by
  obtain ⟨st, hread, hcode⟩ := bind_ok hcode
  replace hread := mapError_ok hread
  have hst := readLine_within h hstack hread
  unfold stores at hnum
  dsimp only at hnum hread
  rw [hread] at hnum
  dsimp only at hnum
  split at hcode
  · exact Except.ok.inj hcode ▸ h
  · next arg harg =>
    rw [harg] at hnum
    split at hcode
    · next hext =>
      rw [Option.any_some, if_pos hext] at hnum
      exact runExternal_within h hnum hcode
    · obtain ⟨env₁, hrun, hcode⟩ := bind_ok hcode
      exact Except.ok.inj hcode ▸ runInternal_within h hst hrun

/-- `T` and the numbers of a list. -/
def Among (T : Set (List UInt8)) (stored : List (List UInt8)) : Set (List UInt8) :=
  {v | v ∈ T ∨ v ∈ stored}

theorem mem_among_append {stored more : List (List UInt8)} {v : List UInt8} (h : v ∈ Among T stored) :
    v ∈ Among T (stored ++ more) :=
  h.imp_right fun hv => List.mem_append_left _ hv

/-- Every argument of every command of a session is among the values the table starts with and the
    numbers stored so far. -/
theorem session_values {stored : List (List UInt8)} {lines : List Line} (h : env.Within (Among T stored))
    (hstack : Each (noteLine n) (fun s line => StackWithin (Among T s.2) line) ((g, env), stored) lines) :
    Each (noteLine n) (fun s line => ∀ st,
      readLine n s.1.2 s.1.1 line.sys.stack line.input = .ok st → ∀ v ∈ st.argv, v ∈ Among T s.2)
      ((g, env), stored) lines := by
  induction lines generalizing g env stored with
  | nil => trivial
  | cons line lines ih =>
    obtain ⟨hline, hrest⟩ := hstack
    refine ⟨fun st hread v hv => ?_, fun s' hstep => ?_⟩
    · have hst := readLine_within h hline hread
      unfold Scan.argv at hv
      have hmem := List.takeWhile_subset _ (List.reduceOption_mem_iff.1 hv)
      obtain ⟨k, -, hk⟩ := List.mem_map.1 hmem
      exact hst k v hk
    · have hlater := hrest s' hstep
      obtain ⟨⟨g', env'⟩, hcode, rfl⟩ := map_ok hstep
      refine ih (mainLine_within (fun p hp => mem_among_append (h p hp)) (fun v hv => ?_)
        (fun k v hv => mem_among_append (hline k v hv)) hcode) hlater
      exact .inr (List.mem_append_right _ hv)

/-- `if (arg) add(key, arg);` -/
def addArg (n : Nat) (env : Env) (key : List UInt8) (new : Nat) : Arg → Except Fault Env
  | some value => env.add n key value new
  | none => pure env

/-- The variables `main` sets before it reads a script, from `argv[pos+1]` and `argv[pos+2]`. -/
def addArgs (n : Nat) (env : Env) (arg1 arg2 : Arg) (new new' : Nat) : Except Fault Env := do
  let env ← addArg n env (bytes "1") new arg1
  addArg n env (bytes "2") new' arg2

theorem addArg_within {env' : Env} {key : List UInt8} {new : Nat} {arg : Arg} (h : env.Within T)
    (harg : ∀ v, arg = some v → v ∈ T) (hcode : addArg n env key new arg = .ok env') : env'.Within T := by
  cases arg with
  | none => exact Except.ok.inj hcode ▸ h
  | some value => exact h.add (harg value rfl) hcode

/-- Each argument of each command of a script is one of its two parameters or a number the shell has
    stored; none of its own words gets into a command. -/
theorem session_params {arg1 arg2 : Arg} {new new' : Nat} {lines : List Line} (halloc : env.alloc = [])
    {env' : Env} (hargs : addArgs n env arg1 arg2 new new' = .ok env')
    (hstack : Each (noteLine n) (fun s line => ∀ k v, line.sys.stack k = some v →
      (arg1 = some v ∨ arg2 = some v) ∨ v ∈ s.2) ((g, env'), []) lines) :
    Each (noteLine n) (fun s line => ∀ st,
      readLine n s.1.2 s.1.1 line.sys.stack line.input = .ok st →
        ∀ v ∈ st.argv, (arg1 = some v ∨ arg2 = some v) ∨ v ∈ s.2) ((g, env'), []) lines := by
  refine session_values (T := {v | arg1 = some v ∨ arg2 = some v}) ?_ hstack
  obtain ⟨env₁, h1, h2⟩ := bind_ok hargs
  have h₁ := addArg_within (T := Among {v | arg1 = some v ∨ arg2 = some v} [])
    (fun p hp => absurd (halloc ▸ hp) List.not_mem_nil) (fun v hv => .inl (.inl hv)) h1
  exact addArg_within h₁ (fun v hv => .inl (.inr hv)) h2

end Values

/-- A script that runs its first parameter, and then the exit status of that. -/
def script : List Line :=
  [⟨bytes "$1 -l\n", ⟨fun _ => none, 7, .parent 8 8 0, true, 2, 3⟩⟩,
    ⟨bytes "$? 5\n", ⟨fun _ => none, 7, .parent 9 9 1, true, 4, 5⟩⟩]

theorem session_params_script : ∃ env, addArgs 3 Env.start (some (bytes "ls")) none 1 2 = .ok env ∧
    Each (noteLine 3) (fun s line => ∀ st,
      readLine 3 s.1.2 s.1.1 line.sys.stack line.input = .ok st →
        ∀ v ∈ st.argv, (some (bytes "ls") = some v ∨ none = some v) ∨ v ∈ s.2)
      ((Globals.start, env), []) script := by
  obtain ⟨env, hargs⟩ : ∃ env, addArgs 3 Env.start (some (bytes "ls")) none 1 2 = .ok env := ⟨_, rfl⟩
  refine ⟨env, hargs, session_params rfl hargs ⟨fun k v hv => ?_, fun s hs => ⟨fun k v hv => ?_, ?_⟩⟩⟩
  · cases hv
  · cases hv
  · exact fun s' hs' => trivial

/-! ## An empty table -/

section Idle

variable {n : Nat} {env : Env} {g : Globals}

/-- No position is that of the first word. -/
def Globals.Late (g : Globals) : Prop := g.inPOS ≠ 0 ∧ g.outPOS ≠ 0

theorem classify_late {token : List UInt8} (h : g.Late) (i : Nat) : (classify g i token).2.Late := by
  unfold classify
  split
  · exact h
  · split
    · exact ⟨show ((i : Int) + 1) ≠ 0 by omega, h.2⟩
    · split
      · exact ⟨h.1, show ((i : Int) + 1) ≠ 0 by omega⟩
      · exact h

theorem getVal_empty (h0 : env.envHashTable = 0) (w : List UInt8) : getVal n env w =
    if (w.drop 1).length < commandSize then .ok none else .error .overflow := by
  have hfind : env.find n (w.drop 1) = .ok 0 := if_pos h0
  unfold getVal
  dsimp only
  rw [hfind]
  rfl

/-- Before the first word, or with NULL as the first argument. -/
def Scan.Null (st : Scan) : Prop := st.glob.Late ∧ (st.i = 0 ∧ st.j = 0 ∨ 0 < st.i ∧ 0 < st.j ∧ st.args 0 = none)

theorem scanToken_empty {st : Scan} (h0 : env.envHashTable = 0) (hst : st.Null) (token : List UInt8) :
    (∃ st', scanToken n env st token = .ok st' ∧ st'.Null) ∨
      scanToken n env st token = .error .overflow ∧ commandSize < token.length := by
  obtain ⟨hlate, hpos⟩ := hst
  have hlate' : (classify st.glob st.i token).2.Late := classify_late hlate st.i
  have htok : (classify st.glob st.i token).1 = none ∨ (classify st.glob st.i token).1 = some token := by
    unfold classify
    split
    · exact .inl rfl
    · split
      · exact .inl rfl
      · split
        · exact .inl rfl
        · exact .inr rfl
  unfold scanToken
  generalize classify st.glob st.i token = c at hlate' htok
  obtain ⟨tok, g⟩ := c
  dsimp only at hlate' htok ⊢
  by_cases hin : (st.i : Int) = g.inPOS
  · have hi : 0 < st.i := by have := hlate'.1; omega
    obtain ⟨hzero, -⟩ | ⟨-, hj, harg⟩ := hpos
    · omega
    · rw [if_pos hin]
      exact .inl ⟨_, rfl, hlate', .inr ⟨Nat.succ_pos _, hj, harg⟩⟩
  · rw [if_neg hin]
    by_cases hout : (st.i : Int) = g.outPOS
    · have hi : 0 < st.i := by have := hlate'.2; omega
      obtain ⟨hzero, -⟩ | ⟨-, hj, harg⟩ := hpos
      · omega
      · rw [if_pos hout]
        exact .inl ⟨_, rfl, hlate', .inr ⟨Nat.succ_pos _, hj, harg⟩⟩
    · rw [if_neg hout]
      -- NULL is stored, at index 0 or behind it
      have hstore : Scan.Null { st with
          glob := g, i := st.i + 1, j := st.j + 1, args := Function.update st.args st.j none } := by
        refine ⟨hlate', .inr ⟨Nat.succ_pos _, Nat.succ_pos _, ?_⟩⟩
        obtain ⟨-, hj⟩ | ⟨-, hj, harg⟩ := hpos
        · dsimp only
          rw [hj, Function.update_self]
        · dsimp only
          rw [Function.update_of_ne (by omega), harg]
      obtain rfl | rfl := htok
      · exact .inl ⟨_, rfl, hstore⟩
      · unfold argOf
        dsimp only
        rw [getVal_empty h0]
        by_cases hlen : (token.drop 1).length < commandSize
        · rw [if_pos hlen]
          exact .inl ⟨_, rfl, hstore⟩
        · rw [if_neg hlen]
          rw [List.length_drop] at hlen
          exact .inr ⟨rfl, by unfold commandSize at *; omega⟩

theorem scan_empty {st : Scan} {tokens : List (List UInt8)} (h0 : env.envHashTable = 0) (hst : st.Null) :
    (∃ st', scan n env st tokens = .ok st' ∧ st'.Null) ∨
      scan n env st tokens = .error .overflow ∧ ∃ w ∈ tokens, commandSize < w.length := by
  induction tokens generalizing st with
  | nil => exact .inl ⟨st, rfl, hst⟩
  | cons token tokens ih =>
    have hcons : scan n env st (token :: tokens) =
        scanToken n env st token >>= fun st => scan n env st tokens := rfl
    rw [hcons]
    obtain ⟨st₁, htoken, hst₁⟩ | ⟨htoken, hlong⟩ := scanToken_empty (n := n) h0 hst token
    · rw [htoken]
      obtain hok | ⟨hover, w, hw, hlong⟩ := ih hst₁
      · exact .inl hok
      · exact .inr ⟨hover, w, List.mem_cons_of_mem _ hw, hlong⟩
    · rw [htoken]
      exact .inr ⟨rfl, token, List.mem_cons_self, hlong⟩

/-- A line whose first argument is NULL runs nothing. -/
theorem mainLine_null {st : Scan} {line : Line} (hread : readLine n env g line.sys.stack line.input = .ok st)
    (hnull : st.args 0 = none) : mainLine n (g, env) line = .ok (st.glob, env) := by
  unfold mainLine
  rw [hread]
  dsimp only [Except.mapError, bind, Except.bind]
  rw [hnull]
  rfl

/-- The first argument of a line that finds no variables is NULL. -/
theorem mainLine_empty (h0 : env.envHashTable = 0) (hg : g.Late) (line : Line) :
    (∃ st, readLine n env g line.sys.stack line.input = .ok st ∧ st.args 0 = none ∧ st.glob.Late) ∨
      readLine n env g line.sys.stack line.input = .error .overflow ∧
        ∃ w ∈ words line.input, commandSize < w.length := by
  have hst : Scan.Null ⟨g, 0, 0, line.sys.stack, []⟩ := ⟨hg, .inl ⟨rfl, rfl⟩⟩
  obtain ⟨st, hscan, hlate, hpos⟩ | ⟨hscan, hlong⟩ := scan_empty (n := n) h0 hst
  · have hnull : Function.update st.args st.i none 0 = none := by
      obtain ⟨hi, -⟩ | ⟨hi, -, harg⟩ := hpos
      · rw [hi, Function.update_self]
      · rw [Function.update_of_ne (by omega), harg]
    refine .inl ⟨{ st with args := Function.update st.args st.i none }, ?_, hnull, hlate⟩
    unfold readLine
    rw [hscan]
    rfl
  · unfold readLine
    rw [hscan]
    exact .inr ⟨rfl, hlong⟩

/-- A session that starts without variables: no line is a command, not even `set` or `exit`, and none
    stores a variable. All that can stop it is a word that does not fit into `command`. -/
theorem session_idle (h0 : env.envHashTable = 0) (hg : g.Late) (lines : List Line) :
    Each (mainLine n) (fun s line =>
        (∃ st, readLine n s.2 s.1 line.sys.stack line.input = .ok st ∧ st.args 0 = none ∧
          mainLine n s line = .ok (st.glob, env)) ∨
        mainLine n s line = .error (.fault .overflow) ∧ ∃ w ∈ words line.input, commandSize < w.length)
      (g, env) lines ∧
    ((∃ g', mainLoop n (g, env) lines = .ok (g', env)) ∨
      mainLoop n (g, env) lines = .error (.fault .overflow) ∧
        ∃ line ∈ lines, ∃ w ∈ words line.input, commandSize < w.length) := by
  induction lines generalizing g with
  | nil => exact ⟨trivial, .inl ⟨g, rfl⟩⟩
  | cons line lines ih =>
    rw [mainLoop_cons]
    obtain ⟨st, hread, hnull, hlate⟩ | ⟨hread, hlong⟩ := mainLine_empty (n := n) h0 hg line
    · have hline := mainLine_null hread hnull
      obtain ⟨heach, hend⟩ := ih hlate
      rw [hline]
      refine ⟨⟨.inl ⟨st, hread, hnull, hline⟩, fun s' hs' => ?_⟩, ?_⟩
      · rw [hline, Except.ok.injEq] at hs'
        exact hs' ▸ heach
      · exact hend.imp_right fun ⟨hover, l, hl, hlong⟩ => ⟨hover, l, List.mem_cons_of_mem _ hl, hlong⟩
    · have hline : mainLine n (g, env) line = .error (.fault .overflow) := by
        unfold mainLine
        rw [hread]
        rfl
      rw [hline]
      refine ⟨⟨.inr ⟨hline, hlong⟩, fun s' hs' => ?_⟩, .inr ⟨rfl, line, List.mem_cons_self, hlong⟩⟩
      rw [hline] at hs'
      cases hs'

end Idle

/-- An assignment, and the end of the session. -/
def typed : List Line :=
  [⟨bytes "set x 5\n", ⟨fun _ => none, 7, .exec, true, 1, 2⟩⟩,
    ⟨bytes "exit\n", ⟨fun _ => none, 7, .exec, true, 1, 2⟩⟩]

/-- The table stays empty, and the session goes on. -/
theorem session_idle_typed :
    Each (mainLine 1) (fun s line =>
        (∃ st, readLine 1 s.2 s.1 line.sys.stack line.input = .ok st ∧ st.args 0 = none ∧
          mainLine 1 s line = .ok (st.glob, Env.start)) ∨
        mainLine 1 s line = .error (.fault .overflow) ∧ ∃ w ∈ words line.input, commandSize < w.length)
      (Globals.start, Env.start) typed ∧
    ∃ g', mainLoop 1 (Globals.start, Env.start) typed = .ok (g', Env.start) := by
  have hlate : Globals.start.Late := ⟨by decide, by decide⟩
  have hempty : Env.start.envHashTable = 0 := rfl
  obtain ⟨heach, hend⟩ := session_idle (n := 1) hempty hlate typed
  refine ⟨heach, hend.resolve_right fun h => absurd h.2 ?_⟩
  show ¬ ∃ line ∈ typed, ∃ w ∈ words line.input, commandSize < w.length
  decide

end OsBasics.Shell
