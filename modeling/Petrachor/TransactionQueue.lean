import Petrachor.Transaction
import Petrachor.Lib.Grouped

/-!
# The transaction queue

Current transactions are in a multiset that is ordered by how far their nonces are from the lowest one of their
sender; two maps refer to its elements. Transactions that were set future wait, by sender and nonce, for the
one before them.

An iterator into the multiset is modelled by the element it refers to. An operation gives no result where the
code's behaviour is undefined or where a loop of it would not end.
-/

namespace Petrachor

inductive IfDropped
  | Ignore | Retry
  deriving DecidableEq

structure TransactionQueue where
  m_known : Finset H256
  m_dropped : Finset H256
  /-- In the order of the multiset. -/
  m_current : List Transaction
  m_currentByHash : AList fun _ : H256 => Transaction
  /-- From senders to nonces to transactions. -/
  m_currentByAddressAndNonce : Grouped.Groups Address Transaction
  m_future : Grouped.Groups Address Transaction
  m_limit : ℕ
  m_futureLimit : ℕ
  m_futureSize : ℕ

namespace TransactionQueue

open Grouped

/-- What the standard containers leave open: where an element goes in a multiset, given which elements it is
less than, and with which key an `unordered_map` begins. The search for the place finds the border between
the elements the new one is not less than and those it is less than, if there is one. -/
structure Containers where
  place : (Transaction → Bool) → List Transaction → ℕ
  place_eq : ∀ less a b, (∀ e ∈ a, less e = false) → (∀ e ∈ b, less e = true) → place less (a ++ b) = a.length
  begin : List Address → Address
  begin_mem : ∀ l, l ≠ [] → begin l ∈ l

/-- Containers that search and begin at the front. -/
def Containers.front : Containers where
  place less l := l.findIdx less
  place_eq less a b ha hb := by
    rw [List.findIdx_append, List.findIdx_eq_length.2 ha, if_neg (lt_irrefl _)]
    cases b with
    | nil => exact Nat.zero_add _
    | cons e b =>
      rw [List.findIdx_cons, hb e List.mem_cons_self]
      exact Nat.zero_add _
  begin l := l.headD 0
  begin_mem l hl := by
    cases l with
    | nil => exact absurd rfl hl
    | cons a l => exact List.mem_cons_self

/-- Containers that search from the back. -/
def Containers.back : Containers where
  place less l := l.length - (l.reverse.takeWhile less).length
  place_eq less a b ha hb := by
    have hstop : a.reverse.takeWhile less = [] := by
      cases h : a.reverse with
      | nil => rfl
      | cons e m =>
        have hmem : e ∈ a := List.mem_reverse.1 (h ▸ List.mem_cons_self)
        rw [List.takeWhile_cons, ha e hmem]
        rfl
    rw [List.reverse_append, List.takeWhile_append_of_pos fun e he => hb e (List.mem_reverse.1 he), hstop,
      List.append_nil, List.length_append, List.length_reverse, Nat.add_sub_cancel]
  begin := Containers.front.begin
  begin_mem := Containers.front.begin_mem

/-- A queue that was just made. -/
def empty (limit futureLimit : ℕ) : TransactionQueue := ⟨∅, ∅, [], ∅, ∅, ∅, limit, futureLimit, 0⟩

def clear (q : TransactionQueue) : TransactionQueue :=
  { q with
    m_known := ∅, m_current := [], m_currentByAddressAndNonce := ∅, m_currentByHash := ∅, m_future := ∅,
    m_futureSize := 0 }

section

variable (c : Crypto)

/-- The hash of a transaction that has one. -/
def hash (t : Transaction) : H256 := c.sha3 ((t.streamRLP .WithSignature).toOption.getD [])

/-! ## The order -/

/-- The lowest current nonce of a sender. -/
def lowest (q : TransactionQueue) (a : Address) : Option ℕ := (group q.m_currentByAddressAndNonce a).head?.map Prod.fst

/-- The comparator reads the first entry of the sender's map. -/
def readable (q : TransactionQueue) (t : Transaction) : Bool := (q.lowest (t.sender c)).isSome

def height (q : TransactionQueue) (t : Transaction) : U256 :=
  t.nonce - BitVec.ofNat 256 ((q.lowest (t.sender c)).getD 0)

/-- `PriorityCompare`. -/
def less (q : TransactionQueue) (first second : Transaction) : Bool :=
  q.height c first < q.height c second ||
    (q.height c first = q.height c second && second.gasPrice < first.gasPrice)

/-- `m_current.emplace`. -/
def emplace (k : Containers) (q : TransactionQueue) (t : Transaction) : Option TransactionQueue :=
  if (t :: q.m_current).all (q.readable c) then
    let i := k.place (q.less c t) q.m_current
    some { q with m_current := q.m_current.take i ++ t :: q.m_current.drop i }
  else none

/-! ## Moving transactions -/

/-- A transaction is entered into the three containers of the current ones. -/
def enter (k : Containers) (q : TransactionQueue) (t : Transaction) : Option TransactionQueue := do
  let q := { q with
    m_currentByAddressAndNonce := put q.m_currentByAddressAndNonce (t.sender c) t.nonce.toNat t }
  let q ← q.emplace c k t
  return { q with m_currentByHash := q.m_currentByHash.insert (hash c t) t }

/-- A future transaction is taken out. -/
def takeFuture (q : TransactionQueue) (a : Address) (n : ℕ) : TransactionQueue :=
  { q with m_future := Grouped.remove q.m_future a n, m_futureSize := q.m_futureSize - 1 }

/-- The loop of `makeCurrent_WITH_LOCK` over the entries of a sender from one nonce on. What was moved is
erased at once. -/
def promote (k : Containers) (a : Address) : List (ℕ × Transaction) → ℕ → TransactionQueue → Option TransactionQueue
  | [], _, q => some q
  | ft :: rest, nonce, q =>
    if ft.2.nonce.toNat = nonce then do
      let q ← (q.takeFuture a ft.1).enter c k ft.2
      promote k a rest ((nonce + 1) % 2 ^ 256) q
    else some q

/-- So many rounds of the loop that drops future transactions. -/
def dropFuture (k : Containers) : ℕ → TransactionQueue → Option TransactionQueue
  | 0, q => some q
  | rounds + 1, q =>
    let a := k.begin q.m_future.keys
    match (group q.m_future a).getLast? with
    | none => none
    | some last => dropFuture k rounds (q.takeFuture a last.1)

/-- `makeCurrent_WITH_LOCK`: the transactions that follow, and then those beyond the limit. -/
def makeCurrent (k : Containers) (q : TransactionQueue) (t : Transaction) : Option TransactionQueue := do
  let a := t.sender c
  let nonce := (t.nonce.toNat + 1) % 2 ^ 256
  let fb := (group q.m_future a).dropWhile fun e => e.1 ≠ nonce
  let q ← q.promote c k a fb nonce
  -- a round takes one off the size
  q.dropFuture k (q.m_futureSize - q.m_futureLimit)

/-- `insertCurrent_WITH_LOCK`. -/
def insertCurrent (k : Containers) (q : TransactionQueue) (h : H256) (t : Transaction) : Option TransactionQueue :=
  if (q.m_currentByHash.lookup h).isSome then some q
  else do
    let q ← q.enter c k t
    let q ← q.makeCurrent c k t
    return { q with m_known := insert h q.m_known }

/-- `remove_WITH_LOCK`. -/
def remove (q : TransactionQueue) (h : H256) : Option (Bool × TransactionQueue) :=
  match q.m_currentByHash.lookup h with
  | none => some (false, q)
  | some t =>
    if t ∈ q.m_current ∧ (q.m_currentByAddressAndNonce.lookup (t.sender c)).isSome then
      some (true, { q with
        m_currentByAddressAndNonce := Grouped.remove q.m_currentByAddressAndNonce (t.sender c) t.nonce.toNat
        m_current := q.m_current.erase t
        m_currentByHash := q.m_currentByHash.erase h
        m_known := q.m_known.erase h })
    else none

/-- So many rounds of the loop that removes the last transactions; it would not end where nothing is
removed. -/
def dropCurrent : ℕ → TransactionQueue → Option TransactionQueue
  | 0, q => some q
  | rounds + 1, q =>
    match q.m_current.getLast? with
    | none => none
    | some t =>
      match q.remove c (hash c t) with
      | some (true, q) => dropCurrent rounds q
      | _ => none

/-- The loop of `setFuture` over the entries of the sender from the transaction on. `emplace` leaves an entry
that there is; what was moved is erased at once. -/
def demote (a : Address) : List (ℕ × Transaction) → TransactionQueue → Option TransactionQueue
  | [], q => some q
  | m :: rest, q =>
    if m.2 ∈ q.m_current then
      demote a rest { q with
        m_currentByHash := q.m_currentByHash.erase (hash c m.2)
        m_future := if (find q.m_future a m.2.nonce.toNat).isSome then q.m_future
          else put q.m_future a m.2.nonce.toNat m.2
        m_current := q.m_current.erase m.2
        m_futureSize := q.m_futureSize + 1
        m_currentByAddressAndNonce := Grouped.remove q.m_currentByAddressAndNonce a m.1 }
    else none

/-! ## Operations -/

def check (q : TransactionQueue) (h : H256) (ik : IfDropped) : ImportResult :=
  if h ∈ q.m_known then .AlreadyKnown
  else if h ∈ q.m_dropped ∧ ik = .Ignore then .AlreadyInChain
  else .Success

/-- A transaction at the same place gives way if its price is not higher. -/
def replaceCurrent (q : TransactionQueue) (t : Transaction) : Option (ImportResult × TransactionQueue) :=
  match find q.m_currentByAddressAndNonce (t.sender c) t.nonce.toNat with
  | none => some (.Success, q)
  | some old =>
    if t.gasPrice < old.gasPrice then some (.OverbidGasPrice, q)
    else do return (.Success, (← q.remove c (hash c old)).2)

def replaceFuture (q : TransactionQueue) (t : Transaction) : ImportResult × TransactionQueue :=
  match find q.m_future (t.sender c) t.nonce.toNat with
  | none => (.Success, q)
  | some old =>
    if t.gasPrice < old.gasPrice then (.OverbidGasPrice, q)
    else (.Success, q.takeFuture (t.sender c) t.nonce.toNat)

/-- `manageImport_WITH_LOCK`. -/
def manageImport (k : Containers) (q : TransactionQueue) (h : H256) (t : Transaction) :
    Option (ImportResult × TransactionQueue) := do
  let (current, q) ← q.replaceCurrent c t
  if current ≠ .Success then return (current, q)
  let (future, q) := q.replaceFuture c t
  if future ≠ .Success then return (future, q)
  let q ← q.insertCurrent c k h t
  return (.Success, ← q.dropCurrent c (q.m_current.length - q.m_limit))

/-- `import`: a transaction without signature has no hash, and the call throws. -/
def importTransaction (k : Containers) (q : TransactionQueue) (t : Transaction) (ik : IfDropped) :
    Option (Except Exception ImportResult × TransactionQueue) :=
  if t.hasZeroSignature then some (.ok .ZeroSignature, q)
  else match t.sha3 c .WithSignature with
    | .error e => some (.error e, q)
    | .ok h =>
      if q.check h ik ≠ .Success then some (.ok (q.check h ik), q)
      else do
        let (r, q) ← q.manageImport c k h t
        return (.ok r, q)

def drop (q : TransactionQueue) (h : H256) : Option TransactionQueue :=
  if h ∉ q.m_known then some q
  else do return (← { q with m_dropped := insert h q.m_dropped }.remove c h).2

def dropGood (k : Containers) (q : TransactionQueue) (t : Transaction) : Option TransactionQueue := do
  let q ← q.makeCurrent c k t
  match t.sha3 c .WithSignature with
  -- thrown on
  | .error _ => return q
  | .ok h => if h ∉ q.m_known then return q else return (← q.remove c h).2

def setFuture (q : TransactionQueue) (h : H256) : Option TransactionQueue :=
  match q.m_currentByHash.lookup h with
  | none => some q
  | some st =>
    let a := st.sender c
    let cutoff := (group q.m_currentByAddressAndNonce a).dropWhile fun e => e.1 < st.nonce.toNat
    -- `m_future[from]` makes an entry if there is none
    demote c a cutoff { q with m_future := q.m_future.insert a (group q.m_future a) }

def topTransactions (q : TransactionQueue) (limit : ℕ) (avoid : Finset H256) : List Transaction :=
  (q.m_current.filter fun t => hash c t ∉ avoid).take limit

def waiting (q : TransactionQueue) (a : Address) : ℕ :=
  (group q.m_currentByAddressAndNonce a).length + (group q.m_future a).length

/-! ## Runs -/

inductive Op
  | importTransaction (t : Transaction) (ik : IfDropped)
  | drop (h : H256)
  | dropGood (t : Transaction)
  | setFuture (h : H256)
  | clear

def step (q : TransactionQueue) (k : Containers) : Op → Option TransactionQueue
  | .importTransaction t ik => do return (← q.importTransaction c k t ik).2
  | .drop h => q.drop c h
  | .dropGood t => q.dropGood c k t
  | .setFuture h => q.setFuture c h
  | .clear => some q.clear

/-- The queue after a sequence of operations; in each the containers may do what they leave open in another
way. -/
def run (q : TransactionQueue) : List (Containers × Op) → Option TransactionQueue
  | [] => some q
  | o :: os => do run (← q.step c o.1 o.2) os

end

end TransactionQueue

end Petrachor
