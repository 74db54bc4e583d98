import Petrachor.TrieDB.Secure

/-!
# The commit of the accounts into the state trie

The state trie has a record of each account under the hash of its address, and each account has a trie of its own for
its storage. All of them lie in one database, and the code of the accounts does too. A commit writes the changed
accounts of the cache one after the other: first the storage, then the code, and last the record with the new storage
root.
-/

namespace Petrachor

open RLPStream Tally GenericTrieDB

namespace StateTrie

/-- An account of the cache, as a commit reads it. -/
structure Account where
  m_isAlive : Bool
  m_isUnchanged : Bool
  m_hasNewCode : Bool
  m_nonce : U256
  m_balance : U256
  m_storageRoot : H256
  m_codeHash : H256
  m_codeCache : Bytes
  m_storageOverlay : AList fun _ : U256 => U256

def Account.isDirty (acc : Account) : Bool := !acc.m_isUnchanged

abbrev AccountMap := AList fun _ : Address => Account

/-- What the state trie says of an account. -/
structure Record where
  nonce : U256
  balance : U256
  storageRoot : H256
  codeHash : H256
  deriving DecidableEq

def Record.encode (r : Record) : Bytes :=
  encodeList [encodeInt r.nonce.toNat, encodeInt r.balance.toNat, encodeBytes (asBytes 32 r.storageRoot),
    encodeBytes (asBytes 32 r.codeHash)]

/-- The change of a slot; a zero is not stored. -/
def storageOp (slot value : U256) : Op :=
  if value ≠ 0 then .insert (asBytes 32 slot) (encodeInt value.toNat) else .remove (asBytes 32 slot)

def storageOps (overlay : AList fun _ : U256 => U256) : List Op := overlay.entries.map fun j => storageOp j.1 j.2

section

variable (c : Crypto) {δ : Type} [NodeDB δ] [AuxDB δ]

/-- The new root of the storage of an account. -/
def commitStorage (db : δ) (acc : Account) : Except Exception (H256 × δ) :=
  if acc.m_storageOverlay.entries.isEmpty then .ok (acc.m_storageRoot, db)
  else do
    let storageDB ← GenericTrieDB.open c db acc.m_storageRoot
    let storageDB ← FatGenericTrieDB.run c storageDB (storageOps acc.m_storageOverlay)
    return (← storageDB.root, storageDB.m_db)

def commitAccount (state : GenericTrieDB δ) (a : Address) (acc : Account) : Except Exception (GenericTrieDB δ) :=
  if acc.isDirty then
    if !acc.m_isAlive then FatGenericTrieDB.remove c state (asBytes 20 a)
    else do
      let (root, db) ← commitStorage c state.m_db acc
      let db := if acc.m_hasNewCode then NodeDB.insert db acc.m_codeHash acc.m_codeCache else db
      let s : Record := ⟨acc.m_nonce, acc.m_balance, root, acc.m_codeHash⟩
      FatGenericTrieDB.insert c ⟨state.m_root, db⟩ (asBytes 20 a) s.encode
  else .ok state

def commit (state : GenericTrieDB δ) (cache : AccountMap) : Except Exception (GenericTrieDB δ × Finset Address) := do
  let state ← cache.entries.foldlM (fun state i => commitAccount c state i.1 i.2) state
  return (state, ((cache.entries.filter fun i => i.2.isDirty).map Sigma.fst).toFinset)

/-- `State::account`, for an account that is not in the cache. -/
def account (state : GenericTrieDB δ) (a : Address) : Except Exception (Option Record) := do
  let stateBack ← FatGenericTrieDB.at c state (asBytes 20 a)
  if stateBack.isEmpty then return none
  else
    let r ← RLP.ofBytes stateBack RLP.VeryStrict
    let nonce ← (← r.get 0).toU256 RLP.Strict
    let balance ← (← r.get 1).toU256 RLP.Strict
    let storageRoot ← (← r.get 2).toHash 32 RLP.Strict
    let codeHash ← (← r.get 3).toHash 32 RLP.Strict
    return some ⟨nonce, balance, storageRoot, codeHash⟩

/-- `State::storage`, for an account that is not in the cache. -/
def storage (state : GenericTrieDB δ) (a : Address) (key : U256) : Except Exception U256 := do
  match ← account c state a with
  | none => return 0
  | some r =>
    let memdb ← GenericTrieDB.open c state.m_db r.storageRoot
    let payload ← FatGenericTrieDB.at c memdb (asBytes 32 key)
    if payload.isEmpty then return 0
    else (← RLP.ofBytes payload RLP.VeryStrict).toU256 RLP.Strict

end

/-! ## Records -/

section

variable (r : Record)

theorem length_encodeInt_toNat (v : U256) : (encodeInt v.toNat).length ≤ 41 := by
  have h32 : bytesRequired v.toNat ≤ 32 := bytesRequired_le (by have := v.isLt; omega)
  have hlen := length_toBigEndian (bytesRequired v.toNat) v.toNat
  rw [encodeInt_eq]
  have := length_encodeBytes_le (b := toBigEndian (bytesRequired v.toNat) v.toNat) (by omega)
  omega

theorem length_encodeBytes_hash (h : H256) : (encodeBytes (asBytes 32 h)).length ≤ 41 := by
  have hlen : (asBytes 32 h).length = 32 := length_toBigEndian _ _
  have := length_encodeBytes_le (b := asBytes 32 h) (by omega)
  omega

theorem isItem_encodeInt_toNat (v : U256) : ∃ p, IsItem (encodeInt v.toNat) p :=
  ⟨_, isItem_encodeInt (bytesRequired_lt_maxPayload v.isLt)⟩

theorem isItem_encodeBytes_hash (h : H256) : ∃ p, IsItem (encodeBytes (asBytes 32 h)) p := by
  have hlen : (asBytes 32 h).length = 32 := length_toBigEndian _ _
  exact ⟨_, isItem_encodeBytes (hlen.trans_lt (by decide))⟩

namespace Record

def items : List Bytes :=
  [encodeInt r.nonce.toNat, encodeInt r.balance.toNat, encodeBytes (asBytes 32 r.storageRoot),
    encodeBytes (asBytes 32 r.codeHash)]

theorem length_items : r.items.flatten.length ≤ 164 := by
  have h0 := length_encodeInt_toNat r.nonce
  have h1 := length_encodeInt_toNat r.balance
  have h2 := length_encodeBytes_hash r.storageRoot
  have h3 := length_encodeBytes_hash r.codeHash
  simp only [items, List.flatten_cons, List.flatten_nil, List.length_append, List.length_nil]
  omega

theorem items_items : Items r.items := by
  unfold items Items
  rw [List.forall_mem_cons, List.forall_mem_cons, List.forall_mem_cons, List.forall_mem_cons]
  exact ⟨isItem_encodeInt_toNat _, isItem_encodeInt_toNat _, isItem_encodeBytes_hash _, isItem_encodeBytes_hash _,
    List.forall_mem_nil _⟩

theorem isItem_encode : IsItem r.encode r.items.flatten :=
  isItem_encodeList ((Nat.lt_of_le_of_lt r.length_items (by decide)))

theorem length_encode : r.encode.length < 2 ^ 62 := by
  have hitems := r.length_items
  have hlen : (encodeList r.items).length ≤ r.items.flatten.length + 9 := by
    have h8 : bytesRequired r.items.flatten.length ≤ 8 := bytesRequired_le (by omega)
    unfold encodeList
    rw [lengthPrefix_append]
    split
    · rw [List.length_cons]
      omega
    · rw [List.length_cons, List.length_append, length_toBigEndian]
      omega
  show (encodeList r.items).length < 2 ^ 62
  omega

end Record

end

end StateTrie

end Petrachor
