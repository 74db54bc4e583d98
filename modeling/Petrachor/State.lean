import Petrachor.Transaction

/-!
# The account state

`State` overlays a cache of accounts on the committed trie, and logs every change of the cache so
that a failed call can be rolled back. The trie is held by its contents: its root, and the storage
tries, are read and written through `TrieDB`. What the program memoises of the trie for reading
(clean cache entries, known absences) is not state here.
-/

namespace Petrachor

/-- An account as the trie holds it; the code stands for its hash. -/
structure AccountData where
  nonce : U256
  balance : U256
  storageRoot : H256
  code : Bytes
  deriving DecidableEq

/-- The contents of a state trie. -/
abbrev AccountTrie := Address → Option AccountData

/-- The trie database: the root of a state trie, and lookup and insertion in a storage trie that is
named by its root. -/
structure TrieDB where
  root : AccountTrie → H256
  storageAt : H256 → U256 → U256
  storageInsert : H256 → List (U256 × U256) → H256

/-- An account in the cache. -/
structure Account where
  m_isAlive : Bool
  m_isUnchanged : Bool
  nonce : U256
  balance : U256
  baseRoot : H256
  storageOverlay : List (U256 × U256)
  code : Bytes
  version : ℕ
  deriving DecidableEq

namespace Account

/-- The default-constructed account, dead. -/
def dead (emptyTrie : H256) : Account := ⟨false, false, 0, 0, emptyTrie, [], [], 0⟩

/-- `Account(nonce, balance)`. -/
def new (emptyTrie : H256) (nonce balance : U256) : Account :=
  ⟨true, false, nonce, balance, emptyTrie, [], [], 0⟩

/-- `Account(nonce, balance, root, codeHash, Unchanged)`. -/
def ofData (d : AccountData) : Account :=
  ⟨true, true, d.nonce, d.balance, d.storageRoot, [], d.code, 0⟩

def isDirty (a : Account) : Bool := !a.m_isUnchanged

def isEmpty (a : Account) : Bool := a.nonce = 0 ∧ a.balance = 0 ∧ a.code = []

def kill (a : Account) (emptyTrie : H256) : Account :=
  { a with m_isAlive := false, storageOverlay := [], code := [], baseRoot := emptyTrie,
           balance := 0, nonce := 0, m_isUnchanged := false }

def addBalance (a : Account) (v : U256) : Account :=
  { a with balance := a.balance + v, m_isUnchanged := false }

def setNonce (a : Account) (n : U256) : Account := { a with nonce := n, m_isUnchanged := false }

def setStorage (a : Account) (k v : U256) : Account :=
  { a with storageOverlay := (k, v) :: a.storageOverlay.filter (fun e => e.1 ≠ k),
           m_isUnchanged := false }

/-- `setStorageRoot`, and `clearStorage` with the empty root. -/
def setStorageRoot (a : Account) (r : H256) : Account :=
  { a with storageOverlay := [], baseRoot := r, m_isUnchanged := false }

def setCode (a : Account) (code : Bytes) (version : ℕ) : Account := { a with code, version }

def resetCode (a : Account) : Account := { a with code := [] }

def untouch (a : Account) : Account := { a with m_isUnchanged := true }

/-- The account `commit` writes out. -/
def toData (t : TrieDB) (a : Account) : AccountData :=
  ⟨a.nonce, a.balance,
    if a.storageOverlay.isEmpty then a.baseRoot else t.storageInsert a.baseRoot a.storageOverlay,
    a.code⟩

end Account

/-- An entry of the change log. -/
inductive Change
  | Balance (a : Address) (increase : U256)
  | Storage (a : Address) (key old : U256)
  | StorageRoot (a : Address) (old : H256)
  | Nonce (a : Address) (old : U256)
  | Create (a : Address)
  | Code (a : Address)
  | Touch (a : Address)

structure State where
  /-- The contents of `m_state`. -/
  m_state : AccountTrie
  m_cache : Address → Option Account
  /-- Newest first. -/
  m_changeLog : List Change
  m_accountStartNonce : U256

inductive CommitBehaviour
  | KeepEmptyAccounts | RemoveEmptyAccounts
  deriving DecidableEq

namespace State

section

variable (emptyTrie : H256)

/-- A clean state over a trie. -/
def ofTrie (t : AccountTrie) (startNonce : U256) : State := ⟨t, fun _ => none, [], startNonce⟩

def account (s : State) (a : Address) : Option Account :=
  (s.m_cache a).orElse fun _ => (s.m_state a).map Account.ofData

def balance (s : State) (a : Address) : U256 := (s.account a).elim 0 Account.balance

def getNonce (s : State) (a : Address) : U256 := (s.account a).elim s.m_accountStartNonce Account.nonce

def code (s : State) (a : Address) : Bytes := (s.account a).elim [] Account.code

def version (s : State) (a : Address) : ℕ := (s.account a).elim 0 Account.version

def addressHasCode (s : State) (a : Address) : Bool := s.code a ≠ []

def storage (t : TrieDB) (s : State) (a : Address) (k : U256) : U256 :=
  match s.account a with
  | none => 0
  | some x => (x.storageOverlay.lookup k).getD (t.storageAt x.baseRoot k)

/-- `m_cache[a] = x`. -/
def setAccount (s : State) (a : Address) (x : Account) : State :=
  { s with m_cache := Function.update s.m_cache a (some x) }

def log (s : State) (c : Change) : State := { s with m_changeLog := c :: s.m_changeLog }

/-- `createAccount`, of an address that has no account. -/
def createAccount (s : State) (a : Address) (x : Account) : State := (s.setAccount a x).log (.Create a)

/-- `m_cache[a]`: the account has been read into the cache wherever this is used, and an address
without one is given a dead account. -/
def cached (s : State) (a : Address) : Account := (s.account a).getD (Account.dead emptyTrie)

def setNonce (s : State) (a : Address) (n : U256) : State :=
  match s.account a with
  | some x => (s.setAccount a (x.setNonce n)).log (.Nonce a x.nonce)
  | none => s.createAccount a (Account.new emptyTrie n 0)

def incNonce (s : State) (a : Address) : State :=
  match s.account a with
  | some x => (s.setAccount a (x.setNonce (x.nonce + 1))).log (.Nonce a x.nonce)
  | none => s.createAccount a (Account.new emptyTrie (s.m_accountStartNonce + 1) 0)

/-- Also for the amount zero the account becomes dirty, and if it is empty that is logged. -/
def addBalance (s : State) (a : Address) (amount : U256) : State :=
  let s' := match s.account a with
    | some x =>
      (if !x.isDirty && x.isEmpty then s.log (.Touch a) else s).setAccount a (x.addBalance amount)
    | none => s.createAccount a (Account.new emptyTrie s.m_accountStartNonce amount)
  if amount = 0 then s' else s'.log (.Balance a amount)

def subBalance (s : State) (a : Address) (value : U256) : Except Exception State :=
  if value = 0 then .ok s
  else if (s.account a).isNone ∨ s.balance a < value then .error .NotEnoughCash
  else .ok (s.addBalance emptyTrie a (0 - value))

def transferBalance (s : State) (src dst : Address) (value : U256) : Except Exception State := do
  return (← s.subBalance emptyTrie src value).addBalance emptyTrie dst value

/-- Does nothing on an account whose base trie is empty, whatever its overlay holds. -/
def clearStorage (s : State) (a : Address) : State :=
  let x := s.cached emptyTrie a
  if x.baseRoot = emptyTrie then s.setAccount a x
  else (s.setAccount a (x.setStorageRoot emptyTrie)).log (.StorageRoot a x.baseRoot)

def setStorage (t : TrieDB) (s : State) (a : Address) (k v : U256) : State :=
  (s.setAccount a ((s.cached emptyTrie a).setStorage k v)).log (.Storage a k (s.storage t a k))

/-- Asserts that the account has no code yet. -/
def setCode (s : State) (a : Address) (code : Bytes) (version : ℕ) : Except Exception State := do
  throwIf (s.addressHasCode a) .abort
  return (s.setAccount a ((s.cached emptyTrie a).setCode code version)).log (.Code a)

/-- Asserts that the account does not exist. -/
def createContract (s : State) (a : Address) : Except Exception State := do
  throwIf (s.account a).isSome .abort
  return s.createAccount a (Account.new emptyTrie s.m_accountStartNonce 0)

def kill (s : State) (a : Address) : State :=
  match s.account a with
  | some x => s.setAccount a (x.kill emptyTrie)
  | none => s

/-! ## Rollback and commit -/

def savepoint (s : State) : ℕ := s.m_changeLog.length

/-- Undoes one entry of the log. -/
def undo (s : State) : Change → State
  | .Balance a v => s.setAccount a ((s.cached emptyTrie a).addBalance (0 - v))
  | .Storage a k v => s.setAccount a ((s.cached emptyTrie a).setStorage k v)
  | .StorageRoot a r => s.setAccount a ((s.cached emptyTrie a).setStorageRoot r)
  | .Nonce a n => s.setAccount a ((s.cached emptyTrie a).setNonce n)
  | .Create a => { s with m_cache := Function.update s.m_cache a none }
  | .Code a => s.setAccount a (s.cached emptyTrie a).resetCode
  | .Touch a => s.setAccount a (s.cached emptyTrie a).untouch

/-- `rollback(savepoint)`, the newest change first. -/
def rollback (s : State) (savepoint : ℕ) : State :=
  go s s.m_changeLog
where
  go (s : State) : List Change → State
    | [] => { s with m_changeLog := [] }
    | c :: l =>
      if (c :: l).length = savepoint then { s with m_changeLog := c :: l } else go (s.undo emptyTrie c) l

/-- The dirty empty accounts are killed. -/
def removeEmptyAccounts (s : State) : State :=
  { s with m_cache := fun a =>
      (s.m_cache a).map fun x => if x.isDirty && x.isEmpty then x.kill emptyTrie else x }

/-- The trie after the dirty accounts of the cache are written to it. -/
def written (t : TrieDB) (s : State) : AccountTrie := fun a =>
  match s.m_cache a with
  | none => s.m_state a
  | some x =>
    if x.isDirty then if x.m_isAlive then some (x.toData t) else none
    else s.m_state a

def commit (t : TrieDB) (s : State) (b : CommitBehaviour) : State :=
  let s := if b = .RemoveEmptyAccounts then s.removeEmptyAccounts emptyTrie else s
  ofTrie (s.written t) s.m_accountStartNonce

end

def rootHash (t : TrieDB) (s : State) : H256 := t.root s.m_state

end State

end Petrachor
