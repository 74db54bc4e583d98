import Mathlib
import Petrachor.Lib.Keyed
import Petrachor.State

/-!
# The account state with its caches

`State` again, with all that it memoises: accounts read from the trie and unchanged since, which may
be dropped at any time, the storage slots and the code read for an account, and the addresses known
to have no account. A trie root stands for the contents of the trie and a code hash for the code it
is the hash of, so two tries or codes with one hash are not told apart here. Every call returns the
state it leaves, also when it throws.
-/

namespace Petrachor.StateCache

/-- The contents of a storage trie, which holds no zero. `EmptyTrie` is `0`. -/
abbrev Storage := Π₀ _ : U256, U256

/-- A code hash, by the code. `EmptySHA3` is `[]`. -/
abbrev CodeHash := Bytes

abbrev EmptySHA3 : CodeHash := []

/-- `Invalid256`. -/
def Invalid256 : U256 := BitVec.allOnes 256

/-- An account as the state trie holds it. -/
structure Record where
  nonce : U256
  balance : U256
  storageRoot : Storage
  codeHash : CodeHash
  deriving DecidableEq

/-- An account of the cache. -/
structure Account where
  m_isAlive : Bool
  m_isUnchanged : Bool
  m_hasNewCode : Bool
  m_nonce : U256
  m_balance : U256
  m_storageRoot : Storage
  m_codeHash : CodeHash
  m_version : U256
  m_storageOverlay : AList (fun _ : U256 => U256)
  m_codeCache : Bytes

namespace Account

/-- `Account()`, dead and counted as changed. -/
def dead : Account := ⟨false, false, false, 0, 0, 0, EmptySHA3, 0, ∅, []⟩

/-- `Account(nonce, balance)`. -/
def new (nonce balance : U256) : Account :=
  ⟨true, false, false, nonce, balance, 0, EmptySHA3, 0, ∅, []⟩

/-- `Account(nonce, balance, root, codeHash, Unchanged)`. -/
def ofRecord (r : Record) : Account :=
  ⟨true, true, false, r.nonce, r.balance, r.storageRoot, r.codeHash, 0, ∅, []⟩

def isDirty (x : Account) : Bool := !x.m_isUnchanged

def isEmpty (x : Account) : Bool :=
  x.m_nonce = 0 ∧ x.m_balance = 0 ∧ x.m_codeHash = EmptySHA3

/-- `m_hasNewCode`, the code cache and the version stay. -/
def kill (x : Account) : Account :=
  { x with m_isAlive := false, m_storageOverlay := ∅, m_codeHash := EmptySHA3, m_storageRoot := 0,
           m_balance := 0, m_nonce := 0, m_isUnchanged := false }

def untouch (x : Account) : Account := { x with m_isUnchanged := true }

def addBalance (x : Account) (v : U256) : Account :=
  { x with m_balance := x.m_balance + v, m_isUnchanged := false }

def setNonce (x : Account) (n : U256) : Account := { x with m_nonce := n, m_isUnchanged := false }

def setStorage (x : Account) (k v : U256) : Account :=
  { x with m_storageOverlay := x.m_storageOverlay.insert k v, m_isUnchanged := false }

/-- `setStorageRoot`; `clearStorage` is the case of the empty trie. -/
def setStorageRoot (x : Account) (r : Storage) : Account :=
  { x with m_storageOverlay := ∅, m_storageRoot := r, m_isUnchanged := false }

def clearStorage (x : Account) : Account := x.setStorageRoot 0

/-- Notes a slot that was read; the account does not count as changed. -/
def setStorageCache (x : Account) (k v : U256) : Account :=
  { x with m_storageOverlay := x.m_storageOverlay.insert k v }

/-- The account does not count as changed. -/
def setCode (x : Account) (code : Bytes) (version : U256) : Account :=
  if code ≠ x.m_codeHash then
    { x with m_codeCache := code, m_hasNewCode := true, m_codeHash := code, m_version := version }
  else { x with m_version := version }

/-- The version stays. -/
def resetCode (x : Account) : Account :=
  { x with m_codeCache := [], m_hasNewCode := false, m_codeHash := EmptySHA3 }

def noteCode (x : Account) (code : Bytes) : Account := { x with m_codeCache := code }

/-- A slot of the storage, from the overlay or from the trie below it. -/
def storage (x : Account) (k : U256) : U256 :=
  (x.m_storageOverlay.lookup k).getD (x.m_storageRoot k)

/-- The code, from the account or from the database. -/
def code (db : CodeHash → Bytes) (x : Account) : Bytes :=
  if x.m_codeHash = EmptySHA3 then []
  else if x.m_codeCache = [] then db x.m_codeHash
  else x.m_codeCache

/-- The storage trie with the overlay written to it: `insert` for a value, `remove` for zero. -/
def flush (x : Account) : Storage :=
  x.m_storageOverlay.foldl (fun r k v => r.update k v) x.m_storageRoot

/-- What `commit` writes to the state trie. -/
def toRecord (x : Account) : Record := ⟨x.m_nonce, x.m_balance, x.flush, x.m_codeHash⟩

end Account

/-- The kind of an entry of the change log, with its value. -/
inductive Change
  | Balance (increase : U256)
  | Storage (key old : U256)
  | StorageRoot (old : Storage)
  | Nonce (old : U256)
  | Create
  | Code
  | Touch
  deriving DecidableEq

structure State where
  /-- The contents of the state trie. -/
  m_state : Address → Option Record
  /-- The code in the database. -/
  m_db : CodeHash → Bytes
  m_cache : AList (fun _ : Address => Account)
  m_nonExistingAccountsCache : Finset Address
  /-- Newest first. -/
  m_changeLog : List (Address × Change)
  m_accountStartNonce : U256

namespace State

/-- A `State` opened at a root. -/
def opened (t : Address → Option Record) (db : CodeHash → Bytes) (startNonce : U256) : State :=
  ⟨t, db, ∅, ∅, [], startNonce⟩

/-- `m_cache[a] = x`. -/
def put (s : State) (a : Address) (x : Account) : State :=
  { s with m_cache := s.m_cache.insert a x }

/-- `m_changeLog.emplace_back`. -/
def note (s : State) (a : Address) (c : Change) : State :=
  { s with m_changeLog := (a, c) :: s.m_changeLog }

/-- What `account(a)` leaves in the caches. Room is made by `clearCacheIfTooLarge`: the accounts it
drops are not `a`, so a drop is a step of its own, `evict`. -/
def load (s : State) (a : Address) : State :=
  match s.m_cache.lookup a with
  | some _ => s
  | none =>
    if a ∈ s.m_nonExistingAccountsCache then s
    else match s.m_state a with
      | none => { s with m_nonExistingAccountsCache := insert a s.m_nonExistingAccountsCache }
      | some r => s.put a (Account.ofRecord r)

/-- `account(a)`. -/
def account (s : State) (a : Address) : Option Account := (s.load a).m_cache.lookup a

/-- One account that `clearCacheIfTooLarge` drops; a changed one it leaves. -/
def evict (s : State) (a : Address) : State :=
  match s.m_cache.lookup a with
  | some x => if x.isDirty then s else { s with m_cache := s.m_cache.erase a }
  | none => s

/-- `m_cache[a]`, an account that is not cached being constructed dead. -/
def cached (s : State) (a : Address) : Account := (s.m_cache.lookup a).getD Account.dead

/-! ## Reading -/

def addressInUse (s : State) (a : Address) : Bool := (s.account a).isSome

def balance (s : State) (a : Address) : U256 := (s.account a).elim 0 Account.m_balance

def getNonce (s : State) (a : Address) : U256 :=
  (s.account a).elim s.m_accountStartNonce Account.m_nonce

def version (s : State) (a : Address) : U256 := (s.account a).elim 0 Account.m_version

def codeHash (s : State) (a : Address) : CodeHash := (s.account a).elim EmptySHA3 Account.m_codeHash

def addressHasCode (s : State) (a : Address) : Bool := s.codeHash a ≠ EmptySHA3

def storage (s : State) (a : Address) (k : U256) : U256 :=
  (s.account a).elim 0 fun x => x.storage k

def code (s : State) (a : Address) : Bytes := (s.account a).elim [] (Account.code s.m_db)

/-- What reading a slot leaves: it goes to the overlay if it was not there. -/
def readStorage (s : State) (a : Address) (k : U256) : State :=
  let s := s.load a
  match s.m_cache.lookup a with
  | none => s
  | some x =>
    match x.m_storageOverlay.lookup k with
    | some _ => s
    | none => s.put a (x.setStorageCache k (x.m_storageRoot k))

/-- What reading the code leaves. -/
def readCode (s : State) (a : Address) : State :=
  let s := s.load a
  match s.m_cache.lookup a with
  | none => s
  | some x =>
    if x.m_codeHash ≠ EmptySHA3 ∧ x.m_codeCache = [] then
      s.put a (x.noteCode (s.m_db x.m_codeHash))
    else s

/-! ## Writing -/

/-- `createAccount`. It asserts that the address is not in use. -/
def createAccount (s : State) (a : Address) (x : Account) : State × Option Exception :=
  let s := s.load a
  if (s.m_cache.lookup a).isSome then (s, some .abort)
  else
    let s := s.put a x
    let s := { s with m_nonExistingAccountsCache := s.m_nonExistingAccountsCache.erase a }
    (s.note a .Create, none)

/-- `createAccount` with an account that starts at `requireAccountStartNonce()`. -/
def createAtStart (s : State) (a : Address) (x : U256 → Account) : State × Option Exception :=
  if s.m_accountStartNonce = Invalid256 then (s, some .InvalidAccountStartNonceInState)
  else s.createAccount a (x s.m_accountStartNonce)

def incNonce (s : State) (a : Address) : State × Option Exception :=
  let s := s.load a
  match s.m_cache.lookup a with
  | some x => ((s.put a (x.setNonce (x.m_nonce + 1))).note a (.Nonce x.m_nonce), none)
  | none => s.createAtStart a fun n => Account.new (n + 1) 0

def setNonce (s : State) (a : Address) (n : U256) : State × Option Exception :=
  let s := s.load a
  match s.m_cache.lookup a with
  | some x => ((s.put a (x.setNonce n)).note a (.Nonce x.m_nonce), none)
  | none => s.createAccount a (Account.new n 0)

/-- The first change of an empty account is logged as a touch, also for the amount zero. -/
def addBalance (s : State) (a : Address) (amount : U256) : State × Option Exception :=
  let s := s.load a
  let r := match s.m_cache.lookup a with
    | some x =>
      let s := if !x.isDirty && x.isEmpty then s.note a .Touch else s
      (s.put a (x.addBalance amount), none)
    | none => s.createAtStart a fun n => Account.new n amount
  if r.2.isNone ∧ amount ≠ 0 then (r.1.note a (.Balance amount), none) else r

def subBalance (s : State) (a : Address) (value : U256) : State × Option Exception :=
  if value = 0 then (s, none)
  else
    let s := s.load a
    match s.m_cache.lookup a with
    | none => (s, some .NotEnoughCash)
    | some x =>
      if x.m_balance < value then (s, some .NotEnoughCash) else s.addBalance a (0 - value)

/-- A transfer whose second half throws leaves the first half done. -/
def transferBalance (s : State) (src dst : Address) (value : U256) : State × Option Exception :=
  let r := s.subBalance src value
  if r.2.isNone then r.1.addBalance dst value else r

def setBalance (s : State) (a : Address) (value : U256) : State × Option Exception :=
  (s.load a).addBalance a (value - s.balance a)

def createContract (s : State) (a : Address) : State × Option Exception :=
  s.createAtStart a fun n => Account.new n 0

/-- The slot is read first, and the account then taken from the cache: an address without one is
given a dead account. -/
def setStorage (s : State) (a : Address) (k v : U256) : State :=
  let old := s.storage a k
  let s := (s.readStorage a k).note a (.Storage k old)
  s.put a ((s.cached a).setStorage k v)

/-- The account is taken from the cache without reading it from the trie first. -/
def clearStorage (s : State) (a : Address) : State :=
  let x := s.cached a
  if x.m_storageRoot = 0 then s.put a x
  else (s.note a (.StorageRoot x.m_storageRoot)).put a x.clearStorage

/-- Asserts that the account has no code yet. -/
def setCode (s : State) (a : Address) (code : Bytes) (version : U256) : State × Option Exception :=
  let hasCode := s.addressHasCode a
  let s := s.load a
  if hasCode then (s, some .abort)
  else
    let s := s.note a .Code
    (s.put a ((s.cached a).setCode code version), none)

def kill (s : State) (a : Address) : State :=
  let s := s.load a
  match s.m_cache.lookup a with
  | some x => s.put a x.kill
  | none => s

/-! ## Rollback and commit -/

def savepoint (s : State) : ℕ := s.m_changeLog.length

/-- Undoes one entry of the log, on the account in the cache. -/
def undo (s : State) (a : Address) (c : Change) : State :=
  let x := s.cached a
  match c with
  | .Storage k v => s.put a (x.setStorage k v)
  | .StorageRoot r => s.put a (x.setStorageRoot r)
  | .Balance v => s.put a (x.addBalance (0 - v))
  | .Nonce n => s.put a (x.setNonce n)
  | .Create => { s with m_cache := s.m_cache.erase a }
  | .Code => s.put a x.resetCode
  | .Touch => s.put a x.untouch

/-- The loop of `rollback(savepoint)` over the log, the newest change first. -/
def rollbackLoop (savepoint : ℕ) (s : State) : List (Address × Change) → State
  | [] => { s with m_changeLog := [] }
  | e :: l =>
    if (e :: l).length = savepoint then { s with m_changeLog := e :: l }
    else rollbackLoop savepoint (s.undo e.1 e.2) l

def rollback (s : State) (savepoint : ℕ) : State := rollbackLoop savepoint s s.m_changeLog

/-- The dirty empty accounts are killed. -/
def removeEmptyAccounts (s : State) : State :=
  { s with m_cache := Keyed.mapValues (fun x => if x.isDirty && x.isEmpty then x.kill else x) s.m_cache }

/-- One account of the cache written to the trie, and its code to the database if it is new. -/
def commitAccount (t : (Address → Option Record) × (CodeHash → Bytes)) (a : Address) (x : Account) :
    (Address → Option Record) × (CodeHash → Bytes) :=
  if x.isDirty then
    if !x.m_isAlive then (Function.update t.1 a none, t.2)
    else
      (Function.update t.1 a (some x.toRecord),
        if x.m_hasNewCode then Function.update t.2 x.m_codeHash x.m_codeCache else t.2)
  else t

/-- The known absences stay. -/
def commit (s : State) (b : CommitBehaviour) : State :=
  let s := if b = .RemoveEmptyAccounts then s.removeEmptyAccounts else s
  let t := s.m_cache.foldl commitAccount (s.m_state, s.m_db)
  { s with m_state := t.1, m_db := t.2, m_changeLog := [], m_cache := ∅ }

/-- A fresh `State` at the root of this one, on the same database. -/
def reopened (s : State) : State := opened s.m_state s.m_db s.m_accountStartNonce

/-- The copy of a state: the change log is not copied. -/
def copy (s : State) : State := { s with m_changeLog := [] }

end State

/-- A call on a `State`. `evict` is what a read may do to any other account. -/
inductive Op
  | read (a : Address)
  | readStorage (a : Address) (k : U256)
  | readCode (a : Address)
  | evict (a : Address)
  | incNonce (a : Address)
  | setNonce (a : Address) (n : U256)
  | addBalance (a : Address) (amount : U256)
  | subBalance (a : Address) (value : U256)
  | transferBalance (src dst : Address) (value : U256)
  | setBalance (a : Address) (value : U256)
  | createContract (a : Address)
  | setCode (a : Address) (code : Bytes) (version : U256)
  | setStorage (a : Address) (k v : U256)
  | clearStorage (a : Address)
  | kill (a : Address)
  | rollback (savepoint : ℕ)
  | commit (b : CommitBehaviour)
  | copy

/-- The state after a call, whether or not it throws. A rollback goes back only to a savepoint that
is still in the log. -/
def State.step (s : State) : Op → State
  | .read a => s.load a
  | .readStorage a k => s.readStorage a k
  | .readCode a => s.readCode a
  | .evict a => s.evict a
  | .incNonce a => (s.incNonce a).1
  | .setNonce a n => (s.setNonce a n).1
  | .addBalance a v => (s.addBalance a v).1
  | .subBalance a v => (s.subBalance a v).1
  | .transferBalance a b v => (s.transferBalance a b v).1
  | .setBalance a v => (s.setBalance a v).1
  | .createContract a => (s.createContract a).1
  | .setCode a c v => (s.setCode a c v).1
  | .setStorage a k v => s.setStorage a k v
  | .clearStorage a => s.clearStorage a
  | .kill a => s.kill a
  | .rollback n => if n ≤ s.savepoint then s.rollback n else s
  | .commit b => s.commit b
  | .copy => s.copy

end Petrachor.StateCache
