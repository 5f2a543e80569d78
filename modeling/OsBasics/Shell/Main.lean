/-
  The shell: the loop of `main`, `getVal`, `runInternal` and `runExternal` of `xssh.c`.

  A line is the bytes one `fgets` gives. `args` keeps what was on the stack until it
  is written, and what the system answers (`Answers`) is chosen from outside: the
  stack, the process ids and exit statuses, the addresses of `malloc`, whether a
  system call succeeds. What the shell prints, the environment of its children and
  its directory are left out, and so is `-x`, which prints.
-/
import OsBasics.Shell.UtHash

namespace OsBasics.Shell

/-- The bytes of a string. -/
def bytes (s : String) : List UInt8 := s.toList.map fun c => UInt8.ofNat c.toNat

/-- A C string in an argument vector, or NULL. -/
abbrev Arg := Option (List UInt8)

/-- The variables of `xssh.h` that outlive a line. -/
structure Globals where
  backgroundflag : Int
  stdIN : Int
  stdOUT : Int
  inPOS : Int
  outPOS : Int
  deriving DecidableEq, Repr

/-- Their initializers. -/
def Globals.start : Globals where
  backgroundflag := 0
  stdIN := 1
  stdOUT := 1
  inPOS := -1
  outPOS := -1

/-! ## Words -/

/-- `delim`. -/
def isDelim (b : UInt8) : Bool := b == 32 || b == 10

/-- The tokens of `strtok`. -/
def words (input : List UInt8) : List (List UInt8) :=
  ((input.takeWhile (· ≠ 0)).splitOnP isDelim).filter (· ≠ [])

/-- `getVal(variable)`, here `var`. Its test assigns `'$'` to the first character, so every word is looked
    up under the rest of it. -/
def getVal (n : Nat) (env : Env) (var : List UInt8) : Except Fault Arg :=
  let command := var.drop 1
  if command.length < commandSize then do
    let ev ← env.find n command
    if ev ≠ 0 then pure (some (env.value ev)) else pure none
  else .error .overflow

/-- The loop over the tokens of a line. `opened` are the names `open` was called with. -/
structure Scan where
  glob : Globals
  i : Nat
  j : Nat
  args : Nat → Arg
  opened : List Arg

/-- What the tests at the head of the loop make of a token, at index `i`. -/
def classify (g : Globals) (i : Nat) (token : List UInt8) : Arg × Globals :=
  if token = bytes "&" then (none, { g with backgroundflag := 1 })
  else if token = bytes "<" then (none, { g with stdIN := 0, inPOS := i + 1 })
  else if token = bytes ">" then (none, { g with stdOUT := 0, outPOS := i + 1 })
  else (some token, g)

/-- The argument a token stands for. -/
def argOf (n : Nat) (env : Env) : Arg → Except Fault Arg
  | none => .ok none
  | some token => getVal n env token

/-- One token. -/
def scanToken (n : Nat) (env : Env) (st : Scan) (token : List UInt8) : Except Fault Scan :=
  let (tok, g) := classify st.glob st.i token
  if (st.i : Int) = g.inPOS then
    .ok { st with glob := g, i := st.i + 1, opened := st.opened ++ [tok] }
  else if (st.i : Int) = g.outPOS then .ok { st with glob := g, i := st.i + 1 }
  else do
    let arg ← argOf n env tok
    pure { st with
      glob := g
      i := st.i + 1
      j := st.j + 1
      args := Function.update st.args st.j arg }

/-- The tokens of a line, one after the other. -/
def scan (n : Nat) (env : Env) : Scan → List (List UInt8) → Except Fault Scan
  | st, [] => .ok st
  | st, token :: tokens => do
    let st ← scanToken n env st token
    scan n env st tokens

/-- A line up to `args[i] = NULL`, when `args` holds `stack` at first. -/
def readLine (n : Nat) (env : Env) (g : Globals) (stack : Nat → Arg) (input : List UInt8) :
    Except Fault Scan := do
  let st ← scan n env ⟨g, 0, 0, stack, []⟩ (words input)
  pure { st with args := Function.update st.args st.i none }

/-- The arguments before the first NULL. -/
def Scan.argv (st : Scan) : List (List UInt8) :=
  (((List.range (st.i + 1)).map st.args).takeWhile Option.isSome).reduceOption

/-! ## Commands -/

/-- Why the loop of `main` ends: a fault, `exit`, or the process became the program it ran. -/
inductive Stop where
  | fault (f : Fault)
  | exit
  | exec
  deriving DecidableEq, Repr

/-- How `runExternal` goes on after `fork`: as a child whose `execvp` succeeds or fails, or as the
    parent, with the child's process id (or -1), what `child` held before it was set, and the
    exit status. -/
inductive Forked where
  | exec
  | execFails
  | parent (pid child status : Int)
  deriving DecidableEq, Repr

/-- What the system answers while a line is run. -/
structure Answers where
  stack : Nat → Arg
  getpid : Int
  forked : Forked
  envOk : Bool
  new : Nat
  new' : Nat

/-- `sprintf(command, "%d", z)`. -/
def decimal (z : Int) : List UInt8 := bytes (toString z)

instance instLawfulBEqBytes : LawfulBEq (List UInt8) := inferInstance

/-- `checkExternal(args)`. -/
def checkExternal (arg : List UInt8) : Bool :=
  arg ∉ ["show", "set", "unset", "export", "unexport", "chdir", "exit", "wait"].map bytes

/-- `runInternal(args)`: what it does to the table. -/
def runInternal (n : Nat) (env : Env) (args : Nat → Arg) (sys : Answers) : Except Stop Env :=
  let lift (r : Except Fault Env) : Except Stop Env := r.mapError .fault
  if args 0 = some (bytes "set") then
    match args 1, args 2 with
    | some key, some value => lift (env.add n key value sys.new)
    | _, _ => .ok env
  else if args 0 = some (bytes "unset") then
    match args 1 with
    | some key => lift ((env.removeKey n key).map Prod.snd)
    | none => .ok env
  else if args 0 = some (bytes "export") then
    match args 1, args 2 with
    | some key, some value => if sys.envOk then lift (env.add n key value sys.new) else .ok env
    | _, _ => .ok env
  else if args 0 = some (bytes "unexport") then
    match args 1 with
    | some key => if sys.envOk then lift ((env.removeKey n key).map Prod.snd) else .ok env
    | none => .ok env
  else if args 0 = some (bytes "exit") then .error .exit
  else .ok env

/-- `runExternal(args)`. A child whose `execvp` fails goes on in the loop of `main`. -/
def runExternal (n : Nat) (env : Env) (g : Globals) (sys : Answers) :
    Except Stop (Globals × Env) := do
  let env ← (env.add n (bytes "$") (decimal sys.getpid) sys.new).mapError .fault
  match sys.forked with
  | .exec => .error .exec
  | .execFails => pure (g, env)
  | .parent pid child status =>
    if child = -1 then pure (g, env)
    else if g.backgroundflag = 0 then do
      let env ← (env.add n (bytes "?") (decimal status) sys.new').mapError .fault
      pure (g, env)
    else do
      let env ← (env.add n (bytes "!") (decimal pid) sys.new').mapError .fault
      pure ({ g with backgroundflag := 0 }, env)

/-! ## main -/

/-- One line of input and what the system answers while it is run. -/
structure Line where
  input : List UInt8
  sys : Answers

/-- One round of the loop of `main`. -/
def mainLine (n : Nat) (s : Globals × Env) (line : Line) : Except Stop (Globals × Env) := do
  let st ← (readLine n s.2 s.1 line.sys.stack line.input).mapError .fault
  match st.args 0 with
  | none => pure (st.glob, s.2)
  | some arg =>
    if checkExternal arg then runExternal n s.2 st.glob line.sys
    else do
      let env ← runInternal n s.2 st.args line.sys
      pure (st.glob, env)

end OsBasics.Shell
