import Petrachor.Executive
import Petrachor.StateCache.Calls

/-!
# The executive as a program

`Executive` again, as what it asks of the state with its caches and what it changes there. What the
virtual machine does, calls into other contracts included, is a program too, and a parameter.
-/

namespace Petrachor.StateCache

/-- How a run of the virtual machine ends. -/
inductive VMOutcome
  | done (gas : U256) (output : Bytes) (sub : SubState)
  | reverted (gas : U256) (output : Bytes)
  | failed (e : TransactionException)
  | exit

structure World where
  crypto : Crypto
  params : ChainOperationParams
  vm : ExtVM → U256 → StateProgram VMOutcome
  precompiled : Address → Option PrecompiledContract

/-- Programs that may throw. -/
abbrev Exec := ExceptT Exception (Program stateCalls)

namespace Exec

def call (c : StateCall) : Exec c.Answer := ExceptT.lift (Program.ask (S := stateCalls) c)

def ask (q : Query) : Exec q.Answer := call (.ask q)

def write (w : Write) : Exec Unit := do
  match ← call (.write w) with
  | none => return ()
  | some x => throw x

def savepoint : Exec ℕ := call .savepoint

def rollback (i : ℕ) : Exec Unit := call (.rollback i)

/-- What no call to the state decides. -/
def ofExcept {α : Type} (x : Except Exception α) : Exec α := ExceptT.mk (.ret x)

def addressHasCode (a : Address) : Exec Bool := do return (← ask (.codeHash a)) ≠ EmptySHA3

def requireAccountStartNonce : Exec U256 := do ofExcept (← ask .requireAccountStartNonce)

end Exec

structure Executive where
  m_envInfo : EnvInfo
  /-- None before a transaction is given, and for a system call. -/
  m_t : Option Transaction
  m_ext : Option ExtVM
  sub : SubState
  m_output : Bytes
  m_excepted : Option TransactionException
  m_baseGasRequired : ℕ
  m_gas : U256
  m_gasCost : U256
  m_logs : List LogEntry
  m_isCreation : Bool
  m_newAddress : Address
  m_savepoint : ℕ

namespace Executive

variable (w : World)

def new (e : EnvInfo) : Executive :=
  { m_envInfo := e, m_t := none, m_ext := none, sub := .empty, m_output := [], m_excepted := none,
    m_baseGasRequired := 0, m_gas := 0, m_gasCost := 0, m_logs := [], m_isCreation := false,
    m_newAddress := 0, m_savepoint := 0 }

def schedule (e : Executive) : EVMSchedule := w.params.scheduleForBlockNumber e.m_envInfo.number

def gasUsed (e : Executive) : U256 := (e.m_t.elim 0 Transaction.gas) - e.m_gas

/-- The checks on nonce and balance. -/
def checkSender (t : Transaction) : Exec U256 := do
  let a := t.sender w.crypto
  let nonceReq ← Exec.ask (.getNonce a)
  Exec.ofExcept (throwIf (t.nonce ≠ nonceReq) (.InvalidNonce nonceReq.toNat t.nonce.toNat))
  let balance ← Exec.ask (.balance a)
  Exec.ofExcept (throwIf (balance.toNat < t.value.toNat + t.gas.toNat * t.gasPrice.toNat)
    .NotEnoughCash)
  return BitVec.ofNat 256 (t.gas.toNat * t.gasPrice.toNat)

/-- `initialize`. -/
def initializeWith (e : Executive) (t : Transaction) : Exec Executive := do
  Exec.ofExcept
    (Ethash.verifyTransaction w.params .Everything t e.m_envInfo.header e.m_envInfo.gasUsed)
  let gasCost ← if t.hasZeroSignature then pure 0 else checkSender w t
  return { e with m_t := some t, m_baseGasRequired := t.baseGasRequired (e.schedule w),
                  m_gasCost := gasCost }

/-- Sets the result address to the null one and undoes the changes since the savepoint. -/
def revert (e : Executive) : Exec Executive := do
  Exec.rollback e.m_savepoint
  return { e with sub := .empty, m_newAddress := 0 }

/-- `call(params, gasPrice, origin)` of a message with code, receiver and value as in a
transaction. The executive that is returned needs `go` iff it has a virtual machine. -/
def call (e : Executive) (receiver sender : Address) (value gasPrice : U256) (data : Bytes)
    (gas : U256) : Exec Executive := do
  let n := e.m_envInfo.number
  if e.m_t.isSome ∧ (sender ≠ MaxAddress ∨ n < w.params.constantinopleForkBlock) then
    Exec.write (.incNonce sender)
  let e := { e with m_savepoint := ← Exec.savepoint }
  match (w.precompiled receiver).filter fun p => p.startingBlock ≤ n with
  | some p =>
    if gas.toNat < p.cost data then do
      -- the account is touched, so that it is removed if it is empty
      if w.params.EIP158ForkBlock ≤ n then Exec.write (.addBalance receiver 0)
      return { e with m_excepted := some .OutOfGasBase }
    else
      let e := { e with m_gas := BitVec.ofNat 256 (gas.toNat - p.cost data),
                        m_output := (p.execute data).2 }
      if (p.execute data).1 then do
        Exec.write (.transferBalance sender receiver value)
        return e
      else return { e with m_gas := 0, m_excepted := some .OutOfGas }
  | none =>
    let e := { e with m_gas := gas }
    let ext ← if ← Exec.addressHasCode receiver then do
        let code ← Exec.ask (.code receiver)
        let _ ← Exec.ask (.codeHash receiver)
        let version ← Exec.ask (.version receiver)
        pure (some ⟨e.m_envInfo.blockEnv, receiver, sender, sender, value, gasPrice, data, code,
          version.toNat, false⟩)
      else pure none
    Exec.write (.transferBalance sender receiver value)
    return { e with m_ext := ext }

def newContractAddress (sender : Address) (nonce : U256) : Address :=
  right160 (w.crypto.sha3 (RLPStream.encodeList
    [RLPStream.encodeBytes (asBytes 20 sender), RLPStream.encodeInt nonce.toNat]))

/-- `executeCreate` behind the check that the address is free. -/
def createAt (e : Executive) (sender : Address) (endowment gasPrice : U256) (init : Bytes)
    (version : U256) : Exec Executive := do
  Exec.write (.transferBalance sender e.m_newAddress endowment)
  let start ← Exec.requireAccountStartNonce
  let newNonce := start + if w.params.EIP158ForkBlock ≤ e.m_envInfo.number then 1 else 0
  Exec.write (.setNonce e.m_newAddress newNonce)
  Exec.write (.clearStorage e.m_newAddress)
  if init = [] then do
    Exec.write (.setCode e.m_newAddress [] version)
    return e
  else
    return { e with m_ext := some ⟨e.m_envInfo.blockEnv, e.m_newAddress, sender, sender, endowment,
      gasPrice, [], init, version.toNat, true⟩ }

/-- `create`, of a contract whose address comes from the sender and its nonce. -/
def create (e : Executive) (sender : Address) (endowment gasPrice gas : U256) (init : Bytes) :
    Exec Executive := do
  let version ← Exec.ask (.version sender)
  let nonce ← Exec.ask (.getNonce sender)
  let e := { e with m_newAddress := newContractAddress w sender nonce }
  if sender ≠ MaxAddress ∨ e.m_envInfo.number < w.params.experimentalForkBlock then
    Exec.write (.incNonce sender)
  let e := { e with m_savepoint := ← Exec.savepoint, m_isCreation := true, m_gas := gas }
  let hasCode ← Exec.addressHasCode e.m_newAddress
  let newNonce ← Exec.ask (.getNonce e.m_newAddress)
  if hasCode ∨ 0 < newNonce then do
    let e ← ({ e with m_gas := 0, m_excepted := some .AddressAlreadyUsed } : Executive).revert
    return { e with m_ext := none }
  else e.createAt w sender endowment gasPrice init version

def execute (e : Executive) (t : Transaction) : Exec Executive := do
  let sender := t.sender w.crypto
  Exec.write (.subBalance sender e.m_gasCost)
  let gas := t.gas - BitVec.ofNat 256 e.m_baseGasRequired
  if t.isCreation then e.create w sender t.value t.gasPrice gas t.data
  else e.call w t.receiveAddress sender t.value t.gasPrice t.data gas

/-- A virtual machine exception takes all gas. -/
def fail (e : Executive) (x : TransactionException) : Exec Executive :=
  ({ e with m_gas := 0, m_excepted := some x } : Executive).revert

/-- What becomes of the code a creation returned. -/
def depositCode (e : Executive) (ext : ExtVM) (out : Bytes) : Exec Executive := do
  let es := e.schedule w
  let version := BitVec.ofNat 256 ext.version
  if es.maxCodeSize < out.length then e.fail .OutOfGas
  else if out.length * es.createDataGas ≤ e.m_gas.toNat then do
    Exec.write (.setCode ext.myAddress out version)
    return { e with m_gas := e.m_gas - BitVec.ofNat 256 (out.length * es.createDataGas) }
  else if es.exceptionalFailedCodeDeposit then e.fail .OutOfGas
  else do
    Exec.write (.setCode ext.myAddress [] version)
    return e

/-- `go`; nothing to do without a virtual machine. -/
def go (e : Executive) : Exec Executive := do
  match e.m_ext with
  | none => return e
  | some ext =>
    if e.m_isCreation then Exec.write (.clearStorage ext.myAddress)
    match ← ExceptT.lift (w.vm ext e.m_gas) with
    | .done gas output sub =>
      let e := { e with m_gas := gas, sub := sub }
      if e.m_isCreation then e.depositCode w ext output else return { e with m_output := output }
    | .reverted gas output =>
      let e ← ({ e with m_gas := gas } : Executive).revert
      return { e with m_output := output, m_excepted := some .RevertInstruction }
    | .failed x => e.fail x
    | .exit => throw .abort

/-- The refund of `finalize`, at most half of the gas used. -/
def refund (e : Executive) : Executive :=
  let toInt64Sat (v : U256) : ℤ := min v.toNat (2 ^ 63 - 1)
  let refunds := e.sub.refunds + (e.schedule w).selfdestructRefundGas * e.sub.selfdestructs.length
  let maxRefund := (toInt64Sat (e.m_t.elim 0 Transaction.gas) - toInt64Sat e.m_gas).tdiv 2
  { e with m_gas := e.m_gas + U256.ofInt (min maxRefund refunds) }

/-- The loop of `finalize` over the selfdestructs. -/
def killAll : List Address → Exec Unit
  | [] => return ()
  | a :: l => do
    Exec.write (.kill a)
    killAll l

/-- Returns whether the execution halted normally. -/
def finalize (e : Executive) : Exec (Bool × Executive) := do
  Exec.ofExcept (throwIf (e.m_ext.isSome ∧
    e.sub.refunds + (e.schedule w).selfdestructRefundGas * e.sub.selfdestructs.length < 0) .abort)
  let e := if e.m_ext.isSome then e.refund w else e
  match e.m_t with
  | some t => do
    Exec.write (.addBalance (t.sender w.crypto) (e.m_gas * t.gasPrice))
    Exec.write (.addBalance e.m_envInfo.header.author ((t.gas - e.m_gas) * t.gasPrice))
  | none => pure ()
  let e := if e.m_ext.isSome then { e with m_logs := e.sub.logs } else e
  if e.m_ext.isSome then killAll e.sub.selfdestructs
  return (e.m_excepted.isNone, e)

end Executive

/-- `executeTransaction`: an exception undoes what was changed. -/
def executeTransaction (w : World) (env : EnvInfo) (t : Transaction) :
    StateProgram (Except Exception (Bool × Executive)) := do
  let savept : ℕ ← Program.ask (S := stateCalls) .savepoint
  let r ← (do
    let e ← (Executive.new env).initializeWith w t
    let e ← e.execute w t
    let e ← e.go w
    e.finalize w : Exec (Bool × Executive)).run
  match r with
  | .ok r => return .ok r
  | .error x => do
    let _ ← Program.ask (S := stateCalls) (.rollback savept)
    return .error x

end Petrachor.StateCache
