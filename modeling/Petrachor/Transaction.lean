import Petrachor.EVMSchedule
import Petrachor.TrieHash

/-!
# Transactions and receipts

A transaction carries the public key of its sender beside its signature; the sender is the address
of that key.
-/

namespace Petrachor

inductive IncludeSignature
  | WithoutSignature | WithSignature
  deriving DecidableEq

inductive CheckTransaction
  | None | Cheap | Everything
  deriving DecidableEq

/-- `BLS::SignatureStruct`. -/
structure SignatureStruct where
  signature : G1
  publicKey : G2
  deriving DecidableEq

namespace SignatureStruct

def isValid (_ : SignatureStruct) : Bool := true

def isZero (s : SignatureStruct) : Bool := s.signature = 0

def lowS (_ : SignatureStruct) : Bool := false

def streamRLP (s : SignatureStruct) : Bytes :=
  RLPStream.encodeList
    [RLPStream.encodeBytes (asBytes 48 s.signature), RLPStream.encodeBytes (asBytes 96 s.publicKey)]

end SignatureStruct

inductive TransactionType
  | NullTransaction | ContractCreation | MessageCall
  deriving DecidableEq

structure Transaction where
  m_type : TransactionType
  nonce : U256
  value : U256
  receiveAddress : Address
  gasPrice : U256
  gas : U256
  data : Bytes
  m_vrs : Option SignatureStruct
  /-- The zero address when the sender is not forced. -/
  m_forcedSender : Address
  deriving DecidableEq

namespace Transaction

def isSet (t : Transaction) : Bool := t.m_type ≠ .NullTransaction

def isCreation (t : Transaction) : Bool := t.m_type = .ContractCreation

def hasSignature (t : Transaction) : Bool := t.m_vrs.isSome

def hasZeroSignature (t : Transaction) : Bool := t.m_vrs.any SignatureStruct.isZero

def senderPublic (t : Transaction) : G2 := t.m_vrs.elim 0 SignatureStruct.publicKey

def sender (c : Crypto) (t : Transaction) : Address :=
  if t.m_forcedSender ≠ 0 then t.m_forcedSender else c.publicToAddress t.senderPublic

def baseGasRequired (t : Transaction) (es : EVMSchedule) : ℕ :=
  t.data.foldl (fun g i => g + if i ≠ 0 then es.txDataNonZeroGas else es.txDataZeroGas)
    (if t.isCreation then es.txCreateGas else es.txGas)

def checkLowS (t : Transaction) : Except Exception Unit :=
  match t.m_vrs with
  | none => .error .TransactionIsUnsigned
  | some s => throwIf s.lowS .InvalidSignature

/-! ## Encoding -/

/-- The six fields that are signed. -/
def signedFields (t : Transaction) : List Bytes :=
  [RLPStream.encodeInt t.nonce.toNat, RLPStream.encodeInt t.gasPrice.toNat,
    RLPStream.encodeInt t.gas.toNat,
    if t.m_type = .MessageCall then RLPStream.encodeBytes (asBytes 20 t.receiveAddress)
      else RLPStream.encodeBytes [],
    RLPStream.encodeInt t.value.toNat, RLPStream.encodeBytes t.data]

def streamRLP (t : Transaction) (i : IncludeSignature) : Except Exception Bytes :=
  if t.m_type = .NullTransaction then .ok []
  else match i, t.m_vrs with
    | .WithoutSignature, _ => .ok (RLPStream.encodeList t.signedFields)
    | .WithSignature, some s => .ok (RLPStream.encodeList (t.signedFields ++ [s.streamRLP]))
    | .WithSignature, none => .error .TransactionIsUnsigned

def sha3 (c : Crypto) (t : Transaction) (i : IncludeSignature) : Except Exception H256 := do
  return c.sha3 (← t.streamRLP i)

/-- The constructor `RLPList`. -/
def requireList (r : RLP) (expectedItemCount : ℕ) : Except Exception Unit := do
  throwIf (!r.isList) .RLPIsNotList
  throwIf ((← r.itemCount) ≠ expectedItemCount) .RLPListUnexpectedItemCount

/-- The converter of a curve point: another length than `n` gives the zero point. -/
def toPoint (r : RLP) (n : ℕ) : Except Exception (BitVec (8 * n)) := do
  return ofBytes n (← r.toBytes RLP.VeryStrict)

def readSignature (r : RLP) : Except Exception SignatureStruct := do
  requireList r 2
  let signature ← toPoint (← r.get 0) 48
  let publicKey ← toPoint (← r.get 1) 96
  return ⟨signature, publicKey⟩

/-- An empty receiver makes a contract creation. -/
def readReceiver (r : RLP) : Except Exception (TransactionType × Address) :=
  if r.isEmpty then .ok (.ContractCreation, 0)
  else do return (.MessageCall, ← r.toHash 20 RLP.VeryStrict)

def readData (r : RLP) : Except Exception Bytes := do
  throwIf (!r.isData) .RLPIsNotData
  r.toBytes RLP.LaissezFaire

/-- The constructor from bytes. The signature is asked whether it is valid only from `Cheap` on. -/
def ofBytes (b : Bytes) (checkSig : CheckTransaction) : Except Exception Transaction := do
  let r ← RLP.ofBytes b RLP.VeryStrict
  requireList r 7
  let nonce ← (← r.get 0).toU256 RLP.VeryStrict
  let gasPrice ← (← r.get 1).toU256 RLP.VeryStrict
  let gas ← (← r.get 2).toU256 RLP.VeryStrict
  let receiver ← readReceiver (← r.get 3)
  let value ← (← r.get 4).toU256 RLP.VeryStrict
  let data ← readData (← r.get 5)
  let vrs ← readSignature (← r.get 6)
  throwIf (checkSig ≠ .None ∧ !vrs.isValid) .InvalidSignature
  return { m_type := receiver.1, nonce, value, receiveAddress := receiver.2, gasPrice, gas, data,
           m_vrs := some vrs, m_forcedSender := 0 }

end Transaction

/-! ## Receipts -/

structure LogEntry where
  address : Address
  topics : List H256
  data : Bytes
  deriving DecidableEq

/-- The three bits a hash sets in a bloom filter. -/
def bloomBits (h : H256) : LogBloom :=
  let bit (i : ℕ) : LogBloom := 1 <<< (h.toNat / 2 ^ (240 - 16 * i) % 2048)
  bit 0 ||| bit 1 ||| bit 2

def LogEntry.bloom (c : Crypto) (l : LogEntry) : LogBloom :=
  l.topics.foldl (fun b t => b ||| bloomBits (c.sha3 (asBytes 32 t)))
    (bloomBits (c.sha3 (asBytes 20 l.address)))

def LogEntry.streamRLP (l : LogEntry) : Bytes :=
  RLPStream.encodeList
    [RLPStream.encodeBytes (asBytes 20 l.address),
      RLPStream.encodeList (l.topics.map fun t => RLPStream.encodeBytes (asBytes 32 t)),
      RLPStream.encodeBytes l.data]

/-- The status from the Byzantium fork on, the state root before it. -/
inductive StatusOrRoot
  | status (code : Bool)
  | root (r : H256)
  deriving DecidableEq

structure TransactionReceipt where
  m_statusCodeOrStateRoot : StatusOrRoot
  /-- Of the block up to and including this transaction. -/
  cumulativeGasUsed : U256
  bloom : LogBloom
  log : List LogEntry
  deriving DecidableEq

namespace TransactionReceipt

/-- The constructors; the bloom is that of the logs. -/
def mk' (c : Crypto) (s : StatusOrRoot) (gasUsed : U256) (log : List LogEntry) :
    TransactionReceipt :=
  ⟨s, gasUsed, log.foldl (fun b l => b ||| l.bloom c) 0, log⟩

def streamRLP (r : TransactionReceipt) : Bytes :=
  RLPStream.encodeList
    [match r.m_statusCodeOrStateRoot with
      | .status code => RLPStream.encodeInt (if code then 1 else 0)
      | .root h => RLPStream.encodeBytes (asBytes 32 h),
      RLPStream.encodeInt r.cumulativeGasUsed.toNat, RLPStream.encodeBytes (asBytes 256 r.bloom),
      RLPStream.encodeList (r.log.map LogEntry.streamRLP)]

def readLog (r : RLP) : Except Exception LogEntry := do
  throwIf ((← r.itemCount) ≠ 3) .abort
  let address ← (← r.get 0).toHash 20 RLP.Strict
  let topics ← (← (← r.get 1).toList).mapM fun t => t.toHash 32 RLP.Strict
  let data ← (← r.get 2).toBytes RLP.LaissezFaire
  return ⟨address, topics, data⟩

def readStatus (r : RLP) : Except Exception StatusOrRoot := do
  throwIf (!r.isData) .InvalidTransactionReceiptFormat
  (if (← r.length) = 32 then do return .root (← r.toHash 32 RLP.Strict)
  else do
    throwIf (!(← r.isInt)) .InvalidTransactionReceiptFormat
    return .status ((← r.toInt 1 RLP.Strict) ≠ 0))

/-- The constructor from bytes. -/
def ofBytes (b : Bytes) : Except Exception TransactionReceipt := do
  let r ← RLP.ofBytes b RLP.VeryStrict
  throwIf (!r.isList) .InvalidTransactionReceiptFormat
  throwIf ((← r.itemCount) ≠ 4) .InvalidTransactionReceiptFormat
  let status ← readStatus (← r.get 0)
  let gasUsed ← (← r.get 1).toU256 RLP.Strict
  let bloom ← (← r.get 2).toHash 256 RLP.Strict
  let log ← (← (← r.get 3).toList).mapM readLog
  return ⟨status, gasUsed, bloom, log⟩

end TransactionReceipt

end Petrachor
