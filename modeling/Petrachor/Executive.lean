import Petrachor.SealEngine
import Petrachor.State

/-!
# Execution of transactions

`Executive` takes a transaction through `initializeWith`, `execute`, `go` and `finalize`. The virtual
machine is a parameter: a function of the message, the gas, the account state and what the host
shows it of the block.
-/

namespace Petrachor

/-- What the virtual machine's host shows of the block. -/
structure BlockEnv where
  number : ℤ
  timestamp : ℤ
  author : Address
  difficulty : U256
  gasLimit : U256
  gasUsed : U256
  chainID : U256
  /-- The hashes of the preceding blocks, or what reading them throws. -/
  lastHashes : Except Exception (List H256)

structure EnvInfo where
  header : BlockHeader
  lastHashes : Except Exception (List H256)
  gasUsed : U256
  chainID : U256

def EnvInfo.number (e : EnvInfo) : U256 := U256.ofInt e.header.number

def EnvInfo.blockEnv (e : EnvInfo) : BlockEnv :=
  ⟨e.header.number, e.header.timestamp, e.header.author, e.header.difficulty, e.header.gasLimit,
    e.gasUsed, e.chainID, e.lastHashes⟩

structure SubState where
  selfdestructs : List Address
  logs : List LogEntry
  refunds : ℤ

def SubState.empty : SubState := ⟨[], [], 0⟩

/-- The message a virtual machine is created for. -/
structure ExtVM where
  env : BlockEnv
  myAddress : Address
  caller : Address
  origin : Address
  value : U256
  gasPrice : U256
  data : Bytes
  code : Bytes
  version : ℕ
  isCreate : Bool

inductive TransactionException
  | Unknown | OutOfGasBase | BadInstruction | BadJumpDestination | OutOfGas | OutOfStack
  | StackUnderflow | RevertInstruction | AddressAlreadyUsed
  deriving DecidableEq

/-- How a run of the virtual machine ends: normally, at a `REVERT`, with a `VMException`, or with an
exception that ends the process. -/
inductive VMResult
  | done (gas : U256) (output : Bytes) (sub : SubState) (s : State)
  | reverted (gas : U256) (output : Bytes) (s : State)
  | failed (e : TransactionException) (s : State)
  | exit

structure PrecompiledContract where
  startingBlock : U256
  cost : Bytes → ℕ
  execute : Bytes → Bool × Bytes

/-- What a node runs with: the libraries, the parameters of its chain, the virtual machine. The
block reward is computed in floating point and is a function of the number here. -/
structure World where
  crypto : Crypto
  params : ChainOperationParams
  tries : TrieDB
  vm : ExtVM → U256 → State → VMResult
  precompiled : Address → Option PrecompiledContract
  blockReward : ℕ → U256
  genesisBlock : BlockRLP

def MaxAddress : Address := BitVec.allOnes 160

def SystemAddress : Address := MaxAddress - 1

structure Executive where
  m_s : State
  m_envInfo : EnvInfo
  /-- None before a transaction is given, and for a system call. -/
  m_t : Option Transaction
  m_ext : Option ExtVM
  sub : SubState
  m_output : Bytes
  m_excepted : Option TransactionException
  m_baseGasRequired : ℕ
  m_gas : U256
  m_gasCost : U256
  m_logs : List LogEntry
  m_isCreation : Bool
  m_newAddress : Address
  m_savepoint : ℕ

namespace Executive

section

variable (w : World)

def new (s : State) (e : EnvInfo) : Executive :=
  { m_s := s, m_envInfo := e, m_t := none, m_ext := none, sub := .empty, m_output := [],
    m_excepted := none, m_baseGasRequired := 0, m_gas := 0, m_gasCost := 0, m_logs := [],
    m_isCreation := false, m_newAddress := 0, m_savepoint := 0 }

def schedule (e : Executive) : EVMSchedule := w.params.scheduleForBlockNumber e.m_envInfo.number

def gasUsed (e : Executive) : U256 := (e.m_t.elim 0 Transaction.gas) - e.m_gas

/-- The checks on nonce and balance; a transaction with the zero signature is not asked. -/
def checkSender (s : State) (t : Transaction) : Except Exception U256 := do
  let a := t.sender w.crypto
  throwIf (t.nonce ≠ s.getNonce a) (.InvalidNonce (s.getNonce a).toNat t.nonce.toNat)
  throwIf ((s.balance a).toNat < t.value.toNat + t.gas.toNat * t.gasPrice.toNat) .NotEnoughCash
  return BitVec.ofNat 256 (t.gas.toNat * t.gasPrice.toNat)

def initializeWith (e : Executive) (t : Transaction) : Except Exception Executive := do
  Ethash.verifyTransaction w.params .Everything t e.m_envInfo.header e.m_envInfo.gasUsed
  let gasCost ← (if t.hasZeroSignature then .ok 0 else checkSender w e.m_s t)
  return { e with m_t := some t, m_baseGasRequired := t.baseGasRequired (e.schedule w),
                  m_gasCost := gasCost }

/-- Sets the result address to the null one and undoes the changes since the savepoint. -/
def revert (e : Executive) : Executive :=
  { e with sub := .empty, m_newAddress := 0, m_s := e.m_s.rollback w.crypto.EmptyTrie e.m_savepoint }

/-- An exception out of the executive, with the state it left. -/
abbrev Result (α : Type) := Except (Exception × State) α

def liftState (s : State) {α : Type} : Except Exception α → Result α
  | .ok a => .ok a
  | .error e => .error (e, s)

/-- The end of `call`: the value is transferred. -/
def callTransfer (e : Executive) (sender receiver : Address) (value : U256) : Result Executive := do
  let s ← liftState e.m_s (e.m_s.transferBalance w.crypto.EmptyTrie sender receiver value)
  return { e with m_s := s }

/-- `call(params, gasPrice, origin)` of a message with code, receiver and value as in a
transaction. The executive that is returned needs `go` iff it has a virtual machine. -/
def call (e : Executive) (receiver sender : Address) (value gasPrice : U256) (data : Bytes)
    (gas : U256) : Result Executive :=
  let tr := w.crypto.EmptyTrie
  let n := e.m_envInfo.number
  let e := if e.m_t.isSome ∧ (sender ≠ MaxAddress ∨ n < w.params.constantinopleForkBlock) then
    { e with m_s := e.m_s.incNonce tr sender } else e
  let e := { e with m_savepoint := e.m_s.savepoint }
  match (w.precompiled receiver).filter fun p => p.startingBlock ≤ n with
  | some p =>
    if gas.toNat < p.cost data then
      -- the account is touched, so that it is removed if it is empty
      .ok { e with
        m_excepted := some .OutOfGasBase
        m_s := if w.params.EIP158ForkBlock ≤ n then e.m_s.addBalance tr receiver 0 else e.m_s }
    else
      let e := { e with m_gas := BitVec.ofNat 256 (gas.toNat - p.cost data),
                        m_output := (p.execute data).2 }
      if (p.execute data).1 then e.callTransfer w sender receiver value
      else .ok { e with m_gas := 0, m_excepted := some .OutOfGas }
  | none =>
    let e := { e with m_gas := gas }
    let ext : ExtVM := ⟨e.m_envInfo.blockEnv, receiver, sender, sender, value, gasPrice, data,
      e.m_s.code receiver, e.m_s.version receiver, false⟩
    let e := if e.m_s.addressHasCode receiver then { e with m_ext := some ext } else e
    e.callTransfer w sender receiver value

def newContractAddress (sender : Address) (nonce : U256) : Address :=
  right160 (w.crypto.sha3 (RLPStream.encodeList
    [RLPStream.encodeBytes (asBytes 20 sender), RLPStream.encodeInt nonce.toNat]))

/-- `executeCreate` behind the check that the address is free. -/
def createAt (e : Executive) (sender : Address) (endowment gasPrice : U256) (init : Bytes)
    (version : ℕ) : Result Executive := do
  let tr := w.crypto.EmptyTrie
  let s ← liftState e.m_s (e.m_s.transferBalance tr sender e.m_newAddress endowment)
  let newNonce := s.m_accountStartNonce +
    if w.params.EIP158ForkBlock ≤ e.m_envInfo.number then 1 else 0
  let s := (s.setNonce tr e.m_newAddress newNonce).clearStorage tr e.m_newAddress
  let ext : ExtVM := ⟨e.m_envInfo.blockEnv, e.m_newAddress, sender, sender, endowment, gasPrice, [],
    init, version, true⟩
  (if init = [] then do
    return { e with m_s := ← liftState s (s.setCode tr e.m_newAddress [] version) }
  else .ok { e with m_s := s, m_ext := some ext })

/-- `create`, of a contract whose address comes from the sender and its nonce. -/
def create (e : Executive) (sender : Address) (endowment gasPrice gas : U256) (init : Bytes) :
    Result Executive :=
  let version := e.m_s.version sender
  let e := { e with m_newAddress := newContractAddress w sender (e.m_s.getNonce sender) }
  let e := if sender ≠ MaxAddress ∨ e.m_envInfo.number < w.params.experimentalForkBlock then
    { e with m_s := e.m_s.incNonce w.crypto.EmptyTrie sender } else e
  let e := { e with m_savepoint := e.m_s.savepoint, m_isCreation := true, m_gas := gas }
  if e.m_s.addressHasCode e.m_newAddress ∨ 0 < e.m_s.getNonce e.m_newAddress then
    .ok { ({ e with m_gas := 0, m_excepted := some .AddressAlreadyUsed } : Executive).revert w with
            m_ext := none }
  else e.createAt w sender endowment gasPrice init version

def execute (e : Executive) (t : Transaction) : Result Executive := do
  let sender := t.sender w.crypto
  let s ← liftState e.m_s (e.m_s.subBalance w.crypto.EmptyTrie sender e.m_gasCost)
  let e := { e with m_s := s }
  let gas := t.gas - BitVec.ofNat 256 e.m_baseGasRequired
  (if t.isCreation then e.create w sender t.value t.gasPrice gas t.data
  else e.call w t.receiveAddress sender t.value t.gasPrice t.data gas)

/-- A virtual machine exception takes all gas. -/
def fail (e : Executive) (x : TransactionException) : Executive :=
  ({ e with m_gas := 0, m_excepted := some x } : Executive).revert w

/-- What becomes of the code a creation returned. -/
def depositCode (e : Executive) (ext : ExtVM) (out : Bytes) : Result Executive :=
  let es := e.schedule w
  if es.maxCodeSize < out.length then .ok (e.fail w .OutOfGas)
  else if out.length * es.createDataGas ≤ e.m_gas.toNat then do
    let s ← liftState e.m_s (e.m_s.setCode w.crypto.EmptyTrie ext.myAddress out ext.version)
    return { e with m_gas := e.m_gas - BitVec.ofNat 256 (out.length * es.createDataGas), m_s := s }
  else if es.exceptionalFailedCodeDeposit then .ok (e.fail w .OutOfGas)
  else do
    return { e with
      m_s := ← liftState e.m_s (e.m_s.setCode w.crypto.EmptyTrie ext.myAddress [] ext.version) }

/-- `go`; nothing to do without a virtual machine. -/
def go (e : Executive) : Result Executive :=
  match e.m_ext with
  | none => .ok e
  | some ext =>
    let s := if e.m_isCreation then e.m_s.clearStorage w.crypto.EmptyTrie ext.myAddress else e.m_s
    match w.vm ext e.m_gas s with
    | .done gas output sub s =>
      let e := { e with m_gas := gas, sub := sub, m_s := s }
      if e.m_isCreation then e.depositCode w ext output else .ok { e with m_output := output }
    | .reverted gas output s =>
      .ok { ({ e with m_gas := gas, m_s := s } : Executive).revert w with
              m_output := output, m_excepted := some .RevertInstruction }
    | .failed x s => .ok (({ e with m_s := s } : Executive).fail w x)
    | .exit => .error (.abort, s)

/-- `static_cast<int64_t>` of a `u256` saturates. -/
def toInt64Sat (v : U256) : ℤ := min v.toNat (2 ^ 63 - 1)

/-- The refund of `finalize`, at most half of the gas used. -/
def refund (e : Executive) : Executive :=
  let refunds := e.sub.refunds + (e.schedule w).selfdestructRefundGas * e.sub.selfdestructs.length
  let maxRefund := (toInt64Sat (e.m_t.elim 0 Transaction.gas) - toInt64Sat e.m_gas).tdiv 2
  { e with m_gas := e.m_gas + U256.ofInt (min maxRefund refunds) }

/-- The rest of the gas is paid back to the sender and what was used goes to the author. -/
def payGas (e : Executive) (t : Transaction) : Executive :=
  let tr := w.crypto.EmptyTrie
  let s := e.m_s.addBalance tr (t.sender w.crypto) (e.m_gas * t.gasPrice)
  { e with m_s := s.addBalance tr e.m_envInfo.header.author ((t.gas - e.m_gas) * t.gasPrice) }

/-- Returns whether the execution halted normally. -/
def finalize (e : Executive) : Result (Bool × Executive) := do
  liftState e.m_s (throwIf (e.m_ext.isSome ∧
    e.sub.refunds + (e.schedule w).selfdestructRefundGas * e.sub.selfdestructs.length < 0) .abort)
  let e := if e.m_ext.isSome then e.refund w else e
  let e := match e.m_t with
    | some t => e.payGas w t
    | none => e
  let e := if e.m_ext.isSome then
    { e with m_s := e.sub.selfdestructs.foldl (fun s a => s.kill w.crypto.EmptyTrie a) e.m_s,
             m_logs := e.sub.logs } else e
  return (e.m_excepted.isNone, e)

end

end Executive

/-! ## Transactions on a state -/

namespace State

variable (w : World)

/-- `executeTransaction`: an exception undoes what was changed. -/
def executeTransaction (s : State) (env : EnvInfo) (t : Transaction) :
    Except (Exception × State) (Bool × Executive) :=
  let run : Except (Exception × State) (Bool × Executive) := do
    let e ← Executive.liftState s ((Executive.new s env).initializeWith w t)
    let e ← e.execute w t
    let e ← e.go w
    e.finalize w
  match run with
  | .ok r => .ok r
  | .error (x, s') => .error (x, s'.rollback w.crypto.EmptyTrie s.savepoint)

inductive Permanence
  | Reverted | Committed | Uncommitted
  deriving DecidableEq

def commitBehaviour (number : U256) : CommitBehaviour :=
  if w.params.EIP158ForkBlock ≤ number then .RemoveEmptyAccounts else .KeepEmptyAccounts

def applyPermanence (s : State) (number : U256) : Permanence → State
  | .Reverted => { s with m_cache := fun _ => none }
  | .Committed => s.commit w.crypto.EmptyTrie w.tries (commitBehaviour w number)
  | .Uncommitted => s

/-- `execute(envInfo, sealEngine, t, permanence)`. -/
def execute (s : State) (env : EnvInfo) (t : Transaction) (p : Permanence) :
    Except (Exception × State) (TransactionReceipt × State) := do
  let (statusCode, e) ← s.executeTransaction w env t
  let s := e.m_s.applyPermanence w env.number p
  let status : StatusOrRoot :=
    if w.params.byzantiumForkBlock ≤ env.number then .status statusCode else .root (s.rootHash w.tries)
  return (TransactionReceipt.mk' w.crypto status (env.gasUsed + e.gasUsed) e.m_logs, s)

end State

end Petrachor
