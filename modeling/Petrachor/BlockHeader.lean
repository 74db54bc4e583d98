import Petrachor.TrieHash

/-!
# Block headers

A header keeps the encoded seal fields behind its thirteen basic ones, and memoises its two
hashes; the zero hash means that none is memoised. The setters drop the memo, `populateFromParent`
does not.
-/

namespace Petrachor

/-- `IncludeSeal`, for the hashes. -/
inductive IncludeSeal
  | WithoutSeal | WithSeal
  deriving DecidableEq

/-- How much of a header is checked. -/
inductive Strictness
  | CheckEverything | CheckEverythingStateLess | JustSeal | QuickNonce | IgnoreSeal | CheckNothingNew
  deriving DecidableEq

structure BlockHeader where
  parentHash : H256
  sha3Uncles : H256
  author : Address
  stateRoot : H256
  transactionsRoot : H256
  receiptsRoot : H256
  logBloom : LogBloom
  difficulty : U256
  number : ℤ
  gasLimit : U256
  gasUsed : U256
  timestamp : ℤ
  extraData : Bytes
  /-- The seal's fields, each in its encoding. -/
  m_seal : List Bytes
  m_hash : H256
  m_hashWithout : H256
  deriving DecidableEq

namespace BlockHeader

/-- The default-constructed header; it stands for "no header". -/
def empty : BlockHeader :=
  { parentHash := 0, sha3Uncles := 0, author := 0, stateRoot := 0, transactionsRoot := 0,
    receiptsRoot := 0, logBloom := 0, difficulty := 0, number := 0, gasLimit := 0, gasUsed := 0,
    timestamp := -1, extraData := [], m_seal := [], m_hash := 0, m_hashWithout := 0 }

/-- `clear`. -/
def clear (c : Crypto) : BlockHeader :=
  { empty with
    sha3Uncles := c.EmptyListSHA3, stateRoot := c.EmptyTrie, transactionsRoot := c.EmptyTrie,
    receiptsRoot := c.EmptyTrie }

/-- `operator bool`. -/
def isSet (h : BlockHeader) : Bool := h.timestamp ≠ -1

/-- `operator==`: neither the seal nor the memoised hashes count. -/
def same (a b : BlockHeader) : Bool :=
  a.parentHash = b.parentHash ∧ a.sha3Uncles = b.sha3Uncles ∧ a.author = b.author ∧
    a.stateRoot = b.stateRoot ∧ a.transactionsRoot = b.transactionsRoot ∧
    a.receiptsRoot = b.receiptsRoot ∧ a.logBloom = b.logBloom ∧ a.difficulty = b.difficulty ∧
    a.number = b.number ∧ a.gasLimit = b.gasLimit ∧ a.gasUsed = b.gasUsed ∧
    a.timestamp = b.timestamp ∧ a.extraData = b.extraData

/-! ## Encoding and hashes -/

/-- `streamRLPFields`. A signed 64-bit number is no overload of the stream's `append`: the one for
`unsigned` takes it, modulo `2 ^ 32`. -/
def streamRLPFields (h : BlockHeader) : List Bytes :=
  [RLPStream.encodeBytes (asBytes 32 h.parentHash), RLPStream.encodeBytes (asBytes 32 h.sha3Uncles),
    RLPStream.encodeBytes (asBytes 20 h.author), RLPStream.encodeBytes (asBytes 32 h.stateRoot),
    RLPStream.encodeBytes (asBytes 32 h.transactionsRoot),
    RLPStream.encodeBytes (asBytes 32 h.receiptsRoot),
    RLPStream.encodeBytes (asBytes 256 h.logBloom), RLPStream.encodeInt h.difficulty.toNat,
    RLPStream.encodeInt (toUnsigned h.number), RLPStream.encodeInt h.gasLimit.toNat,
    RLPStream.encodeInt h.gasUsed.toNat, RLPStream.encodeInt (toUnsigned h.timestamp),
    RLPStream.encodeBytes h.extraData]

def streamRLP (h : BlockHeader) : IncludeSeal → Bytes
  | .WithoutSeal => RLPStream.encodeList h.streamRLPFields
  | .WithSeal => RLPStream.encodeList (h.streamRLPFields ++ h.m_seal)

/-- The memoised hash if there is one. -/
def hash (c : Crypto) (h : BlockHeader) (i : IncludeSeal) : H256 :=
  let memo := match i with
    | .WithSeal => h.m_hash
    | .WithoutSeal => h.m_hashWithout
  if memo = 0 then c.sha3 (h.streamRLP i) else memo

/-- The fields in their order; what follows them is the seal. -/
def populate (r : RLP) (m_hash : H256) : Except Exception BlockHeader := do
  let parentHash ← (← r.get 0).toHash 32 RLP.VeryStrict
  let sha3Uncles ← (← r.get 1).toHash 32 RLP.VeryStrict
  let author ← (← r.get 2).toHash 20 RLP.VeryStrict
  let stateRoot ← (← r.get 3).toHash 32 RLP.VeryStrict
  let transactionsRoot ← (← r.get 4).toHash 32 RLP.VeryStrict
  let receiptsRoot ← (← r.get 5).toHash 32 RLP.VeryStrict
  let logBloom ← (← r.get 6).toHash 256 RLP.VeryStrict
  let difficulty ← (← r.get 7).toU256 RLP.Strict
  let number ← (← r.get 8).toInt 8 RLP.Strict
  let gasLimit ← (← r.get 9).toU256 RLP.Strict
  let gasUsed ← (← r.get 10).toU256 RLP.Strict
  let timestamp ← (← r.get 11).toInt 8 RLP.Strict
  let extraData ← (← r.get 12).toBytes RLP.LaissezFaire
  let items ← r.itemCount
  let m_seal ← (List.range' 13 (items - 13)).mapM fun i => do return (← r.get i).data
  return { parentHash, sha3Uncles, author, stateRoot, transactionsRoot, receiptsRoot, logBloom,
           difficulty, number := toInt64 number, gasLimit, gasUsed, timestamp := toInt64 timestamp,
           extraData, m_seal, m_hash, m_hashWithout := 0 }

/-- The constructor from header bytes; the given hash is believed. -/
def ofBytes (c : Crypto) (b : Bytes) (hashWith : H256) : Except Exception BlockHeader := do
  populate (← RLP.ofBytes b RLP.VeryStrict) (if hashWith = 0 then c.sha3 b else hashWith)

/-! ## Setters -/

def noteDirty (h : BlockHeader) : BlockHeader := { h with m_hash := 0, m_hashWithout := 0 }

def setTimestamp (h : BlockHeader) (v : ℤ) : BlockHeader := noteDirty { h with timestamp := v }

def setDifficulty (h : BlockHeader) (v : U256) : BlockHeader := noteDirty { h with difficulty := v }

def setAuthor (h : BlockHeader) (v : Address) : BlockHeader := noteDirty { h with author := v }

def setGasLimit (h : BlockHeader) (v : U256) : BlockHeader := noteDirty { h with gasLimit := v }

def setGasUsed (h : BlockHeader) (v : U256) : BlockHeader := noteDirty { h with gasUsed := v }

def setLogBloom (h : BlockHeader) (v : LogBloom) : BlockHeader := noteDirty { h with logBloom := v }

def setParentHash (h : BlockHeader) (v : H256) : BlockHeader := noteDirty { h with parentHash := v }

def setExtraData (h : BlockHeader) (v : Bytes) : BlockHeader := noteDirty { h with extraData := v }

def setRoots (h : BlockHeader) (t r u s : H256) : BlockHeader :=
  noteDirty
    { h with transactionsRoot := t, receiptsRoot := r, stateRoot := s, sha3Uncles := u }

/-- The converter of `seal<T>` for the curve points: another length gives the zero point. -/
def sealPoint (h : BlockHeader) (n offset : ℕ) : Except Exception (BitVec (8 * n)) :=
  match h.m_seal[offset]? with
  | none => .ok 0
  | some b => do return Petrachor.ofBytes n (← (← RLP.ofBytes b RLP.VeryStrict).toBytes RLP.VeryStrict)

/-- `seal<h256>`. -/
def sealHash (h : BlockHeader) (offset : ℕ) : Except Exception H256 :=
  match h.m_seal[offset]? with
  | none => .ok 0
  | some b => do (← RLP.ofBytes b RLP.VeryStrict).toHash 32 RLP.VeryStrict

def populateFromParent (h p : BlockHeader) : BlockHeader :=
  { h with
    stateRoot := p.stateRoot, number := p.number + 1, parentHash := p.m_hash,
    gasLimit := p.gasLimit, difficulty := 1, gasUsed := 0 }

end BlockHeader

/-! ## Blocks -/

/-- A block read out of its encoding: the header, which memoises the hash of its bytes, and these
bytes; the raw transactions; the uncles' headers; and the raw item of the uncles, which only its
hash is taken of. -/
structure BlockRLP where
  info : BlockHeader
  header : Bytes
  transactions : List Bytes
  uncles : List BlockHeader
  unclesData : Bytes
  deriving DecidableEq

/-- The reading of the three items of a block. -/
def BlockRLP.ofBytes (c : Crypto) (b : Bytes) : Except Exception BlockRLP := do
  let root ← RLP.ofBytes b RLP.VeryStrict
  if !root.isList then throw .BadRLP
  let header ← root.get 0
  let txs ← root.get 1
  let uncles ← root.get 2
  if !header.isList || !txs.isList || !uncles.isList then throw .BadRLP
  return { info := ← BlockHeader.populate header (c.sha3 header.data)
           header := header.data
           transactions := (← txs.toList).map RLP.data
           uncles := ← (← uncles.toList).mapM fun u => BlockHeader.ofBytes c u.data 0
           unclesData := uncles.data }

namespace BlockHeader

/-- The checks against a parent. -/
def verifyParent (c : Crypto) (h parent : BlockHeader) : Except Exception Unit := do
  throwIf (h.parentHash ≠ 0 ∧ parent.hash c .WithSeal ≠ h.parentHash) .InvalidParentHash
  throwIf (h.timestamp ≤ parent.timestamp) .InvalidTimestamp
  throwIf (h.number ≠ parent.number + 1) .InvalidNumber

/-- The checks against the body the header came with. -/
def verifyBody (c : Crypto) (h : BlockHeader) (b : BlockRLP) : Except Exception Unit := do
  throwIf (h.transactionsRoot ≠ c.orderedTrieRoot b.transactions) .InvalidTransactionsRoot
  throwIf (h.sha3Uncles ≠ c.sha3 b.unclesData) .InvalidUnclesHash

/-- `verify(strictness, parent, block)`; a parent that is not set and a null block are skipped. -/
def verify (c : Crypto) (s : Strictness) (h parent : BlockHeader) (block : Option BlockRLP) :
    Except Exception Unit := do
  throwIf (2 ^ 32 - 1 < h.number) .InvalidNumber
  throwIf (s ≠ .CheckNothingNew ∧ h.gasLimit < h.gasUsed) .TooMuchGasUsed
  (if parent.isSet then h.verifyParent c parent else .ok ())
  (block.elim (.ok ()) (h.verifyBody c))

/-! ## What verification accepts -/

section

variable {c : Crypto} {s : Strictness} {h parent : BlockHeader}

theorem verifyParent_eq_ok : h.verifyParent c parent = .ok () ↔
    (h.parentHash ≠ 0 → parent.hash c .WithSeal = h.parentHash) ∧ parent.timestamp < h.timestamp ∧
      h.number = parent.number + 1 := by
  unfold verifyParent
  simp only [bind_eq_ok, throwIf_eq_ok, exists_and_left, exists_const, not_and, not_not, not_le]

theorem verifyBody_eq_ok {b : BlockRLP} : h.verifyBody c b = .ok () ↔
    h.transactionsRoot = c.orderedTrieRoot b.transactions ∧ h.sha3Uncles = c.sha3 b.unclesData := by
  unfold verifyBody
  simp only [bind_eq_ok, throwIf_eq_ok, exists_and_left, exists_const, not_not]

theorem verify_eq_ok {block : Option BlockRLP} : h.verify c s parent block = .ok () ↔
    h.number ≤ 2 ^ 32 - 1 ∧ (s ≠ .CheckNothingNew → h.gasUsed ≤ h.gasLimit) ∧
      (parent.isSet = true → h.verifyParent c parent = .ok ()) ∧
      ∀ b, block = some b → h.verifyBody c b = .ok () := by
  unfold verify
  simp only [bind_eq_ok, throwIf_eq_ok, exists_and_left, exists_const, not_lt, not_and,
    BitVec.not_lt]
  cases block with
  | none => simp
  | some b => simp

end

end BlockHeader

end Petrachor
