/-
  The shell's variable table: `find`, `add` and `removeKey` of `xssh.h`, with the
  macros of `uthash.h` they expand to (no Bloom filter, HASH_JEN).

  A `struct enVar` in memory is a number, its address, and 0 is NULL. `alloc` lists
  the entries that were allocated and not freed; an access to anything else is a
  `Fault`. The table itself is freed and made again with the last and first entry,
  and read only while `envHashTable` is not NULL, so one record stands for it, and
  for the pointer to it in every handle. Loops over a bucket chain are followed for
  at most `n` entries.

  Strings are their bytes without the NUL. `unsigned` counters are naturals: making
  `num_items` or the number of buckets too large for one is a `Fault`, the lengths
  of chains wrap.
-/
import Mathlib.Logic.Function.Basic

namespace OsBasics.Shell

/-- `COMMANDSIZE`. -/
def commandSize : Nat := 256

/-- The number of values of an `unsigned`. -/
def uintSize : Nat := 4294967296

/-- `x++` and `x--` on an `unsigned`. -/
def incU (x : Nat) : Nat := (x + 1) % uintSize

def decU (x : Nat) : Nat := (x + (uintSize - 1)) % uintSize

/-- Why a call has no result. -/
inductive Fault where
  | badPtr
  | overflow
  | hang
  | wrap
  deriving DecidableEq, Repr

/-! ## HASH_JEN -/

/-- HASH_JEN_MIX. -/
def jenMix (a b c : UInt32) : UInt32 × UInt32 × UInt32 :=
  let a := (a - b - c) ^^^ (c >>> 13)
  let b := (b - c - a) ^^^ (a <<< 8)
  let c := (c - a - b) ^^^ (b >>> 13)
  let a := (a - b - c) ^^^ (c >>> 12)
  let b := (b - c - a) ^^^ (a <<< 16)
  let c := (c - a - b) ^^^ (b >>> 5)
  let a := (a - b - c) ^^^ (c >>> 3)
  let b := (b - c - a) ^^^ (a <<< 10)
  let c := (c - a - b) ^^^ (b >>> 15)
  (a, b, c)

/-- Byte `i` of the key, 0 past its end, where HASH_JEN adds nothing. -/
def jenByte (key : List UInt8) (i : Nat) : UInt32 := (key.getD i 0).toUInt32

/-- Four bytes of the key from `i` on. -/
def jenWord (key : List UInt8) (i : Nat) : UInt32 :=
  jenByte key i + (jenByte key (i + 1) <<< 8) + (jenByte key (i + 2) <<< 16) +
    (jenByte key (i + 3) <<< 24)

/-- The loop of HASH_JEN, for `n` blocks of 12 bytes: what is left of the key, and
    `_hj_i`, `_hj_j`, `hashv`. -/
def jenLoop : Nat → List UInt8 → UInt32 → UInt32 → UInt32 → List UInt8 × UInt32 × UInt32 × UInt32
  | 0, key, i, j, hashv => (key, i, j, hashv)
  | n + 1, key, i, j, hashv =>
    let (i, j, hashv) := jenMix (i + jenWord key 0) (j + jenWord key 4) (hashv + jenWord key 8)
    jenLoop n (key.drop 12) i j hashv

/-- HASH_JEN: `hashv` of a key. -/
def hashJen (key : List UInt8) : UInt32 :=
  let (rest, i, j, hashv) := jenLoop (key.length / 12) key 0x9e3779b9 0x9e3779b9 0xfeedbeef
  let hashv := hashv + UInt32.ofNat key.length
  -- the `switch`, whose cases fall through
  let hashv := hashv + (jenByte rest 10 <<< 24) + (jenByte rest 9 <<< 16) + (jenByte rest 8 <<< 8)
  let (_, _, hashv) := jenMix (i + jenWord rest 0) (j + jenWord rest 4) hashv
  hashv

/-- HASH_TO_BKT. -/
def hashToBkt (hashv : UInt32) (numBkts : Nat) : Nat := hashv.toNat &&& (numBkts - 1)

/-! ## State -/

/-- `UT_hash_bucket`. -/
structure Bucket where
  hhHead : Nat
  count : Nat
  expandMult : Nat
  deriving DecidableEq, Repr

/-- `UT_hash_table`. -/
structure HashTable where
  buckets : Nat → Bucket
  numBuckets : Nat
  log2NumBuckets : Nat
  numItems : Nat
  tail : Nat
  idealChainMaxlen : Nat
  nonidealItems : Nat
  ineffExpands : Nat
  noexpand : Nat

/-- The entries in memory, by field, `envHashTable` and the table. -/
structure Env where
  alloc : List Nat
  key : Nat → List UInt8
  value : Nat → List UInt8
  prev : Nat → Nat
  next : Nat → Nat
  hhPrev : Nat → Nat
  hhNext : Nat → Nat
  keylen : Nat → Nat
  hashv : Nat → UInt32
  envHashTable : Nat
  tbl : HashTable

namespace Env

variable (s : Env)

/-- The access to the entry at `p` that comes next is to an allocated one. -/
def touch (p : Nat) : Except Fault Unit := if p ∈ s.alloc then .ok () else .error .badPtr

def setHhNext (p v : Nat) : Env := { s with hhNext := Function.update s.hhNext p v }
def setHhPrev (p v : Nat) : Env := { s with hhPrev := Function.update s.hhPrev p v }
def setBucket (i : Nat) (b : Bucket) : Env :=
  { s with tbl := { s.tbl with buckets := Function.update s.tbl.buckets i b } }

/-- The bucket of the entry at `p`. -/
def bktOf (p : Nat) : Nat := hashToBkt (s.hashv p) s.tbl.numBuckets

/-! ## Buckets -/

/-- HASH_FIND_IN_BKT from `out` on. -/
def findInBkt (key : List UInt8) : Nat → Nat → Except Fault Nat
  | 0, _ => .error .hang
  | n + 1, out =>
    if out = 0 then .ok 0
    else do
      s.touch out
      let keylen := key.length % uintSize
      if s.keylen out = keylen ∧ (s.key out).take keylen = key.take keylen then pure out
      else findInBkt key n (s.hhNext out)

/-- Put the handle at `p` before `hhHead`, the first of a chain: HASH_ADD_TO_BKT and
    HASH_EXPAND_BUCKETS do it with the same four assignments. -/
def linkFirst (hhHead p : Nat) : Except Fault Env := do
  s.touch p
  let s := (s.setHhNext p hhHead).setHhPrev p 0
  if hhHead ≠ 0 then do
    s.touch hhHead
    pure (s.setHhPrev hhHead p)
  else pure s

/-- Count one more entry in the new bucket `b`. An entry past the ideal length of a chain is
    counted in `nonideal_items` and sets `expand_mult`. -/
def countIn (b : Bucket) : Env × Bucket :=
  let b := { b with count := incU b.count }
  if b.count > s.tbl.idealChainMaxlen then
    ({ s with tbl := { s.tbl with nonidealItems := s.tbl.nonidealItems + 1 } },
      { b with expandMult := b.count / s.tbl.idealChainMaxlen })
  else (s, b)

/-- The inner loop of HASH_EXPAND_BUCKETS: move the chain from `thh` on into the new
    buckets. -/
def moveChain : Nat → Env → (Nat → Bucket) → Nat → Except Fault (Env × (Nat → Bucket))
  | 0, _, _, _ => .error .hang
  | n + 1, s, new, thh =>
    if thh = 0 then .ok (s, new)
    else do
      s.touch thh
      let nxt := s.hhNext thh
      let bkt := hashToBkt (s.hashv thh) (2 * s.tbl.numBuckets)
      let (s, b) := s.countIn (new bkt)
      let s ← s.linkFirst b.hhHead thh
      moveChain n s (Function.update new bkt { b with hhHead := thh }) nxt

/-- The outer loop of HASH_EXPAND_BUCKETS, over `k` old buckets from `i` on. -/
def moveAll (n : Nat) : Nat → Nat → Env → (Nat → Bucket) → Except Fault (Env × (Nat → Bucket))
  | 0, _, s, new => .ok (s, new)
  | k + 1, i, s, new => do
    let (s, new) ← moveChain n s new (s.tbl.buckets i).hhHead
    moveAll n k (i + 1) s new

/-- `ideal_chain_maxlen` for twice as many buckets. -/
def ideal (t : HashTable) : Nat :=
  (t.numItems >>> (t.log2NumBuckets + 1)) +
    if t.numItems &&& (t.numBuckets * 2 - 1) ≠ 0 then 1 else 0

/-- The table takes the new buckets. Expansions stop after two in a row that left more than
    half of the entries past the ideal length. -/
def takeBuckets (t : HashTable) (new : Nat → Bucket) : HashTable :=
  let t := { t with
    numBuckets := t.numBuckets * 2
    log2NumBuckets := t.log2NumBuckets + 1
    buckets := new
    ineffExpands := if t.nonidealItems > t.numItems >>> 1 then t.ineffExpands + 1 else 0 }
  if t.ineffExpands > 1 then { t with noexpand := 1 } else t

/-- HASH_EXPAND_BUCKETS. -/
def expandBuckets (n : Nat) : Except Fault Env := do
  if 2 * s.tbl.numBuckets ≥ uintSize then .error .wrap
  else
    let s := { s with tbl := { s.tbl with idealChainMaxlen := ideal s.tbl, nonidealItems := 0 } }
    let (s, new) ← moveAll n s.tbl.numBuckets 0 s fun _ => ⟨0, 0, 0⟩
    pure { s with tbl := takeBuckets s.tbl new }

/-- The test HASH_ADD_TO_BKT ends with, when the bucket holds `b`. -/
def crowded (t : HashTable) (b : Bucket) : Bool :=
  b.count ≥ (b.expandMult + 1) * 10 % uintSize && t.noexpand != 1

/-- HASH_ADD_TO_BKT: the handle at `p` into bucket `i`. -/
def addToBkt (n i p : Nat) : Except Fault Env := do
  let b := s.tbl.buckets i
  let s ← s.linkFirst b.hhHead p
  let b := { b with count := incU b.count, hhHead := p }
  let s := s.setBucket i b
  if crowded s.tbl b then s.expandBuckets n else pure s

/-- HASH_DEL_IN_BKT: the handle at `p` out of bucket `i`. -/
def delInBkt (i p : Nat) : Except Fault Env := do
  let b := s.tbl.buckets i
  let s := s.setBucket i { b with
    count := decU b.count
    hhHead := if b.hhHead = p then s.hhNext p else b.hhHead }
  let s ← if s.hhPrev p ≠ 0 then do
      s.touch (s.hhPrev p)
      pure (s.setHhNext (s.hhPrev p) (s.hhNext p))
    else pure s
  if s.hhNext p ≠ 0 then do
    s.touch (s.hhNext p)
    pure (s.setHhPrev (s.hhNext p) (s.hhPrev p))
  else pure s

/-! ## Tables -/

/-- HASH_FIND_STR. -/
def hashFindStr (n : Nat) (key : List UInt8) : Except Fault Nat :=
  if s.envHashTable = 0 then .ok 0
  else do
    s.touch s.envHashTable
    s.findInBkt key n (s.tbl.buckets (hashToBkt (hashJen key) s.tbl.numBuckets)).hhHead

/-- HASH_MAKE_TABLE, for the first entry `p`. -/
def makeTable (p : Nat) : HashTable where
  buckets := fun _ => ⟨0, 0, 0⟩
  numBuckets := 32
  log2NumBuckets := 5
  numItems := 0
  tail := p
  idealChainMaxlen := 0
  nonidealItems := 0
  ineffExpands := 0
  noexpand := 0

/-- The entry at `p` becomes the head of a new table, or comes after the tail. -/
def hookLast (p : Nat) : Except Fault Env :=
  if s.envHashTable = 0 then
    .ok { s with prev := Function.update s.prev p 0, envHashTable := p, tbl := makeTable p }
  else do
    s.touch s.envHashTable
    s.touch s.tbl.tail
    pure { s with
      next := Function.update s.next s.tbl.tail p
      prev := Function.update s.prev p s.tbl.tail
      tbl := { s.tbl with tail := p } }

/-- The entry at `p` is counted and its key hashed. -/
def enrol (p : Nat) : Except Fault Env :=
  if s.tbl.numItems + 1 ≥ uintSize then .error .wrap
  else .ok { s with
    tbl := { s.tbl with numItems := s.tbl.numItems + 1 }
    hashv := Function.update s.hashv p (hashJen (s.key p)) }

/-- The `next` and `keylen` of the entry at `p` are set. -/
def openEntry (p : Nat) : Env :=
  { s with
    next := Function.update s.next p 0
    keylen := Function.update s.keylen p (s.key p).length }

/-- HASH_ADD_KEYPTR before HASH_ADD_TO_BKT. -/
def appendApp (p : Nat) : Except Fault Env := do
  s.touch p
  let s ← (s.openEntry p).hookLast p
  s.enrol p

/-- HASH_ADD_STR. -/
def hashAddStr (n p : Nat) : Except Fault Env := do
  let s ← s.appendApp p
  s.addToBkt n (s.bktOf p) p

/-- HASH_DELETE on the order of insertion: the neighbours of the entry at `p` are linked. -/
def unhook (p : Nat) : Except Fault Env := do
  let s := if p = s.tbl.tail then { s with tbl := { s.tbl with tail := s.prev p } } else s
  let s ← if s.prev p ≠ 0 then do
      s.touch (s.prev p)
      pure { s with next := Function.update s.next (s.prev p) (s.next p) }
    else pure { s with envHashTable := s.next p }
  s.touch s.envHashTable
  if s.next p ≠ 0 then do
    s.touch (s.next p)
    pure { s with prev := Function.update s.prev (s.next p) (s.prev p) }
  else pure s

/-- HASH_DEL. The last entry takes the table with it. -/
def hashDel (p : Nat) : Except Fault Env := do
  s.touch p
  s.touch s.envHashTable
  if s.prev p = 0 ∧ s.next p = 0 then pure { s with envHashTable := 0 }
  else
    let s ← s.unhook p
    let s ← s.delInBkt (s.bktOf p) p
    pure { s with tbl := { s.tbl with numItems := decU s.tbl.numItems } }

/-! ## xssh.h -/

/-- `strcpy(var->key, key)`. -/
def copyKey (p : Nat) (key : List UInt8) : Except Fault Env :=
  if key.length < commandSize then .ok { s with key := Function.update s.key p key }
  else .error .overflow

/-- `strcpy(var->value, value)`. -/
def copyValue (p : Nat) (value : List UInt8) : Except Fault Env :=
  if value.length < commandSize then .ok { s with value := Function.update s.value p value }
  else .error .overflow

/-- `find(key)`. -/
def find (n : Nat) (key : List UInt8) : Except Fault Nat := s.hashFindStr n key

/-- `add(key, value)`, when `malloc` gives the address `new` if it is called. -/
def add (n : Nat) (key value : List UInt8) (new : Nat) : Except Fault Env := do
  let var ← s.find n key
  if var = 0 then
    let s := { s with alloc := new :: s.alloc }
    let s ← s.copyKey new key
    let s ← s.copyValue new value
    s.hashAddStr n new
  else
    let s ← s.copyValue var value
    s.hashAddStr n var

/-- `removeKey(key)`: FAIL is 1, SUCCESS 0. -/
def removeKey (n : Nat) (key : List UInt8) : Except Fault (Nat × Env) := do
  let var ← s.find n key
  if var = 0 then pure (1, s)
  else
    let s ← s.hashDel var
    pure (0, { s with alloc := s.alloc.erase var })

end Env

end OsBasics.Shell
