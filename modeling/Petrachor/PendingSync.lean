import Petrachor.Block
import Petrachor.TransactionQueue

/-!
# Filling a block from the transaction queue

`Block::sync(bc, tq, gp, timeout)` takes the first candidates of the queue and executes them in passes, until one
pass has executed as many as there are candidates or the deadline is crossed.

A process that ends in the middle has no result, and neither has a queue whose containers do not agree.
-/

namespace Petrachor

def c_maxSyncTransactions : ℕ := 1024

namespace Block

/-- The hashes of the transactions that are included. -/
def transactionSet (w : World) (b : Block) : Finset H256 :=
  (b.m_transactions.map (TransactionQueue.hash w.crypto)).toFinset

/-- In the middle of the passes. -/
structure Syncing where
  block : Block
  queue : TransactionQueue
  receipts : List TransactionReceipt
  goodTxs : ℕ

section

variable (w : World) (ask : Block → U256) (lastHashes : Except Exception (List H256))

/-- The handlers of the exceptions that execution ends with. -/
def refuse (b : Block) (q : TransactionQueue) (t : Transaction) (x : Exception) : Option TransactionQueue :=
  let h := TransactionQueue.hash w.crypto t
  match x with
  | .abort => none
  | .InvalidNonce required got =>
    if got < required then q.drop w.crypto h
    else if required + q.waiting (t.sender w.crypto) < got then q.drop w.crypto h
    else q.setFuture w.crypto h
  | .BlockGasLimitReached _ got =>
    if b.m_currentBlock.gasLimit.toNat < got then q.drop w.crypto h
    -- left alone
    else some q
  | _ => q.drop w.crypto h

/-- One candidate in a pass. -/
def attempt (s : Syncing) (t : Transaction) : Option Syncing :=
  if TransactionQueue.hash w.crypto t ∈ s.block.transactionSet w then some s
  else if ask s.block ≤ t.gasPrice then
    match s.block.execute w lastHashes t .Committed with
    | .ok b => some { s with
        block := b, receipts := s.receipts ++ b.m_receipts.getLast?.toList, goodTxs := s.goodTxs + 1 }
    | .error (x, b) => do return { s with block := b, queue := ← refuse w b s.queue t x }
  else if t.gasPrice < ask s.block * 9 / 10 then do
    return { s with queue := ← s.queue.drop w.crypto (TransactionQueue.hash w.crypto t) }
  else some s

def pass (ts : List Transaction) (s : Syncing) : Option Syncing :=
  ts.foldlM (attempt w ask lastHashes) { s with goodTxs := 0 }

/-- The loop; the clock tells after each pass whether the deadline is crossed. Where it has told all it is still
running. -/
def passes (ts : List Transaction) (more : Bool) : List Bool → Syncing → Option (Syncing × Bool)
  | clock, s =>
    if s.goodTxs < ts.length then
      match clock with
      | [] => none
      | late :: clock => do
        let s ← pass w ask lastHashes ts s
        if late then return (s, true) else passes ts more clock s
    else some (s, more)

/-- The candidates of the queue. -/
def candidates (b : Block) (q : TransactionQueue) : List Transaction :=
  q.topTransactions w.crypto c_maxSyncTransactions (b.transactionSet w)

/-- Before the first pass. -/
def Syncing.start (b : Block) (q : TransactionQueue) : Syncing :=
  ⟨b, q, [], (b.candidates w q).length - 1⟩

/-- `sync(bc, tq, gp, timeout)`: the receipts of what was executed, and whether there may be more. -/
def syncQueue (b : Block) (q : TransactionQueue) (clock : List Bool) : Except Exception (Option (Syncing × Bool)) := do
  throwIf b.isSealed .InvalidOperationOnSealedBlock
  let ts := b.candidates w q
  return passes w ask lastHashes ts (ts.length = c_maxSyncTransactions) clock (.start w b q)

end

end Block

end Petrachor
