import Petrachor.Lib.SortedMap
import Petrachor.ReceiptRead
import Petrachor.SnapshotImporter
import Petrachor.StateTrie
import Petrachor.TrieDB.Durability

/-!
# The import of state chunks

A chunk is a list of accounts under the hashes of their addresses. An account is imported when the next one
starts, or at the end, so that its storage can be spread over chunks: the first account of a chunk goes on
with the last one of the chunk before it if it has its address. The state trie, the storage tries and the codes
are all in the state database, which is committed behind every chunk.
-/

namespace Petrachor

open SortedMap

/-- The root of the trie with these entries; the keys are hashes, in their order. -/
def Crypto.trieRoot (c : Crypto) (entries : List (ℕ × Bytes)) : H256 :=
  c.hash256 (entries.map fun e => (toBigEndian 32 e.1, e.2))

/-- The state trie, over the state database. -/
structure StateImporter where
  m_trie : GenericTrieDB LevelOverlayDB

namespace StateImporter

variable (c : Crypto)

/-- `StateImporter(_stateDb)` -/
def new (stateDb : LevelOverlayDB) : StateImporter := ⟨GenericTrieDB.init c stateDb⟩

def containsAccount (s : StateImporter) (addressHash : H256) : Import Bool := do
  return !(← ofRLP (s.m_trie.at (asBytes 32 addressHash))).isEmpty

/-- The root of the storage of an account, which is built in the state database. -/
def storageRoot (db : LevelOverlayDB) (storage : List (ℕ × Bytes)) : Except Exception (H256 × LevelOverlayDB) :=
  if storage.isEmpty then .ok (c.EmptyTrie, db)
  else do
    let storageDB ← GenericTrieDB.open c db c.EmptyTrie
    let storageDB ← storage.foldlM (fun t e => GenericTrieDB.insert c t (toBigEndian 32 e.1) e.2) storageDB
    return (← storageDB.root, storageDB.m_db)

/-- An account as the state trie has it. -/
def accountRLP (nonce balance : U256) (storageRoot codeHash : H256) : Bytes :=
  RLPStream.encodeList [RLPStream.encodeInt nonce.toNat, RLPStream.encodeInt balance.toNat,
    RLPStream.encodeBytes (asBytes 32 storageRoot), RLPStream.encodeBytes (asBytes 32 codeHash)]

def importAccount (s : StateImporter) (addressHash : H256) (nonce balance : U256)
    (storage : List (ℕ × Bytes)) (codeHash : H256) : Import StateImporter := do
  if ← s.containsAccount addressHash then .error .AccountAlreadyImported
  else
    let (root, db) ← ofRLP (storageRoot c s.m_trie.m_db storage)
    let m_trie ← ofRLP (GenericTrieDB.insert c ⟨s.m_trie.m_root, db⟩ (asBytes 32 addressHash)
      (accountRLP nonce balance root codeHash))
    .ok ⟨m_trie⟩

def importCode (s : StateImporter) (code : Bytes) : H256 × StateImporter :=
  (c.sha3 code, ⟨⟨s.m_trie.m_root, s.m_trie.m_db.insert (c.sha3 code) code⟩⟩)

/-- The process ends if the disk takes none of ten tries to write. -/
def commitStateDatabase (s : StateImporter) (writes : ℕ → Bool) : Import StateImporter :=
  match s.m_trie.m_db.commit writes with
  | some db => .ok ⟨⟨s.m_trie.m_root, db⟩⟩
  | none => .error (.other .abort)

def stateRoot (s : StateImporter) : Import H256 := ofRLP s.m_trie.root

def lookupCode (s : StateImporter) (hash : H256) : Bytes := s.m_trie.m_db.lookup hash

end StateImporter

namespace SnapshotImporter

/-- The variables of the loop over the accounts. -/
structure Pending where
  storageMap : List (ℕ × Bytes)
  addressHash : H256
  nonce : U256
  balance : U256
  codeHash : H256

section

variable (c : Crypto)

/-- The loop over the storage of an account. -/
def importStorage : List RLP → List (ℕ × Bytes) → Import (List (ℕ × Bytes))
  | [], storageMap => .ok storageMap
  | hashAndValue :: storage, storageMap => do
    (if (← ofRLP hashAndValue.itemCount) ≠ 2 then .error .InvalidStateChunkData else .ok ())
    let keyHash ← ofRLP (do (← hashAndValue.get 0).toHash 32 RLP.VeryStrict)
    (if keyHash = 0 ∨ (storageMap.lookup keyHash.toNat).isSome then .error .InvalidStateChunkData else .ok ())
    let value ← ofRLP (do (← hashAndValue.get 1).toBytes RLP.VeryStrict)
    (if value = [] then .error .InvalidStateChunkData else .ok ())
    importStorage storage (set keyHash.toNat value storageMap)

/-- The account before another one is imported; one that goes on has to be the first of its chunk. -/
def importPrevious (p : Pending) (addressHashNew : H256) (accountIndex : ℕ) (s : StateImporter) :
    Import (Pending × StateImporter) :=
  if p.addressHash ≠ 0 then
    if addressHashNew ≠ p.addressHash then do
      let s ← s.importAccount c p.addressHash p.nonce p.balance p.storageMap p.codeHash
      .ok ({ p with storageMap := [] }, s)
    else if accountIndex ≠ 0 then .error .InvalidStateChunkData
    else .ok (p, s)
  else .ok (p, s)

/-- The `switch` over the code flag. -/
def importCodeOf (codeFlag : ℕ) (account : RLP) (s : StateImporter) :
    Import (H256 × StateImporter) :=
  match codeFlag with
  | 0 => .ok (c.EmptySHA3, s)
  | 1 => do
    let code ← ofRLP (do (← account.get 3).toBytes RLP.VeryStrict)
    .ok (s.importCode c code)
  | 2 => do
    let codeHash ← ofRLP (do (← account.get 3).toHash 32 RLP.VeryStrict)
    if codeHash = 0 ∨ s.lookupCode codeHash = [] then .error .InvalidStateChunkData
    else .ok (codeHash, s)
  | _ => .error .InvalidStateChunkData

/-- The body of the loop over the accounts of a chunk. -/
def importPiece (addressAndAccount : RLP) (accountIndex : ℕ) (p : Pending) (s : StateImporter) :
    Import (Pending × StateImporter) := do
  (if (← ofRLP addressAndAccount.itemCount) ≠ 2 then .error .InvalidStateChunkData else .ok ())
  let addressHashNew ← ofRLP (do (← addressAndAccount.get 0).toHash 32 RLP.VeryStrict)
  (if addressHashNew = 0 then .error .InvalidStateChunkData else .ok ())
  let (p, s) ← importPrevious c p addressHashNew accountIndex s
  let account ← ofRLP (addressAndAccount.get 1)
  (if (← ofRLP account.itemCount) ≠ 5 then .error .InvalidStateChunkData else .ok ())
  let nonce ← ofRLP (do (← account.get 0).toU256 RLP.VeryStrict)
  let balance ← ofRLP (do (← account.get 1).toU256 RLP.VeryStrict)
  let storage ← ofRLP (do (← account.get 4).toList)
  let storageMap ← importStorage storage p.storageMap
  let codeFlag ← ofRLP (do (← account.get 2).toInt 1 RLP.VeryStrict)
  let (codeHash, s) ← importCodeOf c codeFlag account s
  .ok (⟨storageMap, addressHashNew, nonce, balance, codeHash⟩, s)

def importPieces (accounts : RLP) : ℕ → ℕ → Pending → StateImporter → Import (Pending × StateImporter)
  | 0, _, p, s => .ok (p, s)
  | n + 1, accountIndex, p, s => do
    let (p, s) ← importPiece c (← ofRLP (accounts.get accountIndex)) accountIndex p s
    importPieces accounts n (accountIndex + 1) p s

def importStateChunk (chunkUncompressed : Bytes) (writes : ℕ → Bool) (p : Pending) (s : StateImporter) :
    Import (Pending × StateImporter) := do
  let accounts ← ofRLP (RLP.ofBytes chunkUncompressed RLP.VeryStrict)
  let accountCount ← ofRLP accounts.itemCount
  let (p, s) ← importPieces c accounts accountCount 0 p s
  let s ← s.commitStateDatabase writes
  .ok (p, s)

/-- The loop over the chunks. What the disk does with the tries to write is known for each commit by the number of
chunks that were imported before it. -/
def importChunks (readChunk : H256 → Import Bytes) (writes : ℕ → ℕ → Bool) :
    List H256 → ℕ → Pending → StateImporter → Import (Pending × StateImporter)
  | [], _, p, s => .ok (p, s)
  | stateChunkHash :: stateChunkHashes, chunksImported, p, s => do
    let (p, s) ← importStateChunk c (← readChunk stateChunkHash) (writes chunksImported) p s
    importChunks readChunk writes stateChunkHashes (chunksImported + 1) p s

def importStateChunks (readChunk : H256 → Import Bytes) (writes : ℕ → ℕ → Bool) (stateChunkHashes : List H256)
    (stateRoot : H256) (s : StateImporter) : Import StateImporter := do
  let (p, s) ← importChunks c readChunk writes stateChunkHashes 0 ⟨[], 0, 0, 0, 0⟩ s
  let s ← s.importAccount c p.addressHash p.nonce p.balance p.storageMap p.codeHash
  let s ← s.commitStateDatabase (writes stateChunkHashes.length)
  if (← s.stateRoot) ≠ stateRoot then .error .StateTrieReconstructionFailed else .ok s

end

end SnapshotImporter

/-! ## What is in a chunk -/

/-- The code of an account in a chunk: none, the code, or the hash of one that was there before. -/
inductive PieceCode
  | none
  | bytes (code : Bytes)
  | known (codeHash : H256)

namespace PieceCode

def flag : PieceCode → ℕ
  | none => 0
  | bytes _ => 1
  | known _ => 2

def item : PieceCode → Bytes
  | none => RLPStream.encodeBytes []
  | bytes code => RLPStream.encodeBytes code
  | known codeHash => RLPStream.encodeBytes (asBytes 32 codeHash)

def hash (c : Crypto) : PieceCode → H256
  | none => c.EmptySHA3
  | bytes code => c.sha3 code
  | known codeHash => codeHash

end PieceCode

/-- An account, or a piece of one, as it is in a chunk. -/
structure AccountPiece where
  addressHash : H256
  nonce : U256
  balance : U256
  code : PieceCode
  storage : List (H256 × Bytes)

namespace AccountPiece

def pairItem (e : H256 × Bytes) : Bytes :=
  RLPStream.encodeList [RLPStream.encodeBytes (asBytes 32 e.1), RLPStream.encodeBytes e.2]

def accountItems (p : AccountPiece) : List Bytes :=
  [RLPStream.encodeInt p.nonce.toNat, RLPStream.encodeInt p.balance.toNat, RLPStream.encodeInt p.code.flag,
    p.code.item, RLPStream.encodeList (p.storage.map pairItem)]

def item (p : AccountPiece) : Bytes :=
  RLPStream.encodeList [RLPStream.encodeBytes (asBytes 32 p.addressHash), RLPStream.encodeList p.accountItems]

end AccountPiece

def stateChunk (pieces : List AccountPiece) : Bytes := RLPStream.encodeList (pieces.map AccountPiece.item)

/-! ## What is read of it -/

namespace SnapshotImporter

section

variable (c : Crypto)

def takeStorage : List (H256 × Bytes) → List (ℕ × Bytes) → Import (List (ℕ × Bytes))
  | [], storageMap => .ok storageMap
  | e :: storage, storageMap =>
    if e.1 = 0 ∨ (storageMap.lookup e.1.toNat).isSome then .error .InvalidStateChunkData
    else if e.2 = [] then .error .InvalidStateChunkData
    else takeStorage storage (set e.1.toNat e.2 storageMap)

def takeCode (code : PieceCode) (s : StateImporter) : Import (StateImporter) :=
  match code with
  | .none => .ok s
  | .bytes code => .ok (s.importCode c code).2
  | .known codeHash =>
    if codeHash = 0 ∨ s.lookupCode codeHash = [] then .error .InvalidStateChunkData else .ok s

/-- `importPiece` on a piece that is not yet encoded. -/
def takePiece (piece : AccountPiece) (accountIndex : ℕ) (p : Pending) (s : StateImporter) :
    Import (Pending × StateImporter) := do
  (if piece.addressHash = 0 then .error .InvalidStateChunkData else .ok ())
  let (p, s) ← importPrevious c p piece.addressHash accountIndex s
  let storageMap ← takeStorage piece.storage p.storageMap
  let s ← takeCode c piece.code s
  .ok (⟨storageMap, piece.addressHash, piece.nonce, piece.balance, piece.code.hash c⟩, s)

end

end SnapshotImporter

namespace AccountPiece

theorem pair_sizes {e : H256 × Bytes} (h : (pairItem e).length < maxPayload) :
    Items [RLPStream.encodeBytes (asBytes 32 e.1), RLPStream.encodeBytes e.2] ∧
      [RLPStream.encodeBytes (asBytes 32 e.1), RLPStream.encodeBytes e.2].flatten.length < maxPayload ∧
      e.2.length < maxPayload := by
  have hvalue : e.2.length < maxPayload := (length_le_encodeBytes _).trans_lt
    (length_lt_of_mem (List.mem_cons_of_mem _ (List.mem_singleton_self _)) h)
  refine ⟨?_, flatten_lt_of_encodeList h, hvalue⟩
  unfold Items
  simp only [List.forall_mem_cons]
  exact ⟨@isItem_hash 32 (by decide) e.1, ⟨_, isItem_encodeBytes hvalue⟩, by simp⟩

/-- A piece that fits into memory: what its items need to be read. -/
structure Sized (p : AccountPiece) : Prop where
  items : Items [RLPStream.encodeBytes (asBytes 32 p.addressHash), RLPStream.encodeList p.accountItems]
  flat : [RLPStream.encodeBytes (asBytes 32 p.addressHash),
    RLPStream.encodeList p.accountItems].flatten.length < maxPayload
  accountItems : Items p.accountItems
  accountFlat : p.accountItems.flatten.length < maxPayload
  code : ∀ code, p.code = .bytes code → code.length < maxPayload
  pairs : ∀ e ∈ p.storage, (pairItem e).length < maxPayload
  storageFlat : (p.storage.map pairItem).flatten.length < maxPayload

theorem sized {p : AccountPiece} (h : p.item.length < maxPayload) : p.Sized := by
  have haccount : (RLPStream.encodeList p.accountItems).length < maxPayload :=
    length_lt_of_mem (List.mem_cons_of_mem _ (List.mem_singleton_self _)) h
  have haccountFlat := flatten_lt_of_encodeList haccount
  have hmem : ∀ e ∈ p.accountItems, e.length < maxPayload := fun e he => length_lt_of_mem he haccount
  have hstorage : (RLPStream.encodeList (p.storage.map pairItem)).length < maxPayload :=
    hmem _ (by simp [AccountPiece.accountItems])
  have hcode : ∀ code, p.code = .bytes code → code.length < maxPayload := fun code hc => by
    refine (length_le_encodeBytes code).trans_lt (hmem _ ?_)
    unfold AccountPiece.accountItems
    rw [hc]
    simp [PieceCode.item]
  have hflag : ∃ q, IsItem (RLPStream.encodeInt p.code.flag) q :=
    ⟨_, isItem_encodeInt (bytesRequired_lt_maxPayload (by cases p.code <;> simp [PieceCode.flag]))⟩
  have hcodeItem : ∃ q, IsItem p.code.item q := by
    cases hp : p.code with
    | none => exact ⟨_, isItem_encodeBytes (by decide)⟩
    | bytes code => exact ⟨_, isItem_encodeBytes (hcode code hp)⟩
    | known codeHash => exact @isItem_hash 32 (by decide) codeHash
  refine ⟨?_, flatten_lt_of_encodeList h, ?_, haccountFlat, hcode, fun e he => ?_, flatten_lt_of_encodeList hstorage⟩
  · unfold Items
    simp only [List.forall_mem_cons]
    exact ⟨@isItem_hash 32 (by decide) p.addressHash, ⟨_, isItem_encodeList haccountFlat⟩, by simp⟩
  · unfold Items AccountPiece.accountItems
    simp only [List.forall_mem_cons]
    exact ⟨isItem_u256 _, isItem_u256 _, hflag, hcodeItem,
      ⟨_, isItem_encodeList (flatten_lt_of_encodeList hstorage)⟩, by simp⟩
  · exact length_lt_of_mem (List.mem_map_of_mem he) hstorage

end AccountPiece

namespace SnapshotImporter

variable {c : Crypto}

theorem importStorage_eq {l : List (H256 × Bytes)}
    (hsize : ∀ e ∈ l, (AccountPiece.pairItem e).length < maxPayload) (m : List (ℕ × Bytes)) :
    importStorage (l.map fun e => ⟨AccountPiece.pairItem e⟩) m = takeStorage l m := by
  induction l generalizing m with
  | nil => rfl
  | cons e l ih =>
    obtain ⟨hitems, hflat, hvalue⟩ := AccountPiece.pair_sizes (hsize e List.mem_cons_self)
    have hcount : (RLP.mk (AccountPiece.pairItem e)).itemCount = .ok 2 := itemCount_encodeList hitems hflat
    have hkey : (RLP.mk (RLPStream.encodeBytes (asBytes 32 e.1))).toHash 32 RLP.VeryStrict = .ok e.1 :=
      @toHash_encodeBytes 32 (by decide) e.1 RLP.VeryStrict
    have hget : ∀ {i : ℕ} {x : Bytes}, _ → (RLP.mk (AccountPiece.pairItem e)).get i = .ok ⟨x⟩ := fun he =>
      get_encodeList hitems hflat he
    rw [List.map_cons, importStorage, hcount, ofRLP_ok, import_bind, if_neg (by decide), import_bind,
      hget (i := 0) rfl, ok_bind, hkey, ofRLP_ok, import_bind, hget (i := 1) rfl, ok_bind,
      toBytes_encodeBytes hvalue, ofRLP_ok, takeStorage]
    by_cases h1 : e.1 = 0 ∨ (m.lookup e.1.toNat).isSome
    · rw [if_pos h1, if_pos h1]
      rfl
    · rw [if_neg h1, if_neg h1, import_bind, import_bind]
      by_cases h2 : e.2 = []
      · rw [if_pos h2, if_pos h2]
        rfl
      · rw [if_neg h2, if_neg h2, import_bind]
        exact ih (fun x hx => hsize x (List.mem_cons_of_mem _ hx)) _

theorem importCodeOf_eq {p : AccountPiece} (h : p.Sized) (s : StateImporter) :
    importCodeOf c p.code.flag ⟨RLPStream.encodeList p.accountItems⟩ s =
      takeCode c p.code s >>= fun s => .ok (p.code.hash c, s) := by
  have hget : (RLP.mk (RLPStream.encodeList p.accountItems)).get 3 = .ok ⟨p.code.item⟩ :=
    get_encodeList h.accountItems h.accountFlat rfl
  unfold importCodeOf takeCode
  cases hp : p.code with
  | none => rfl
  | bytes code =>
    rw [hp] at hget
    have hread : (RLP.mk (PieceCode.bytes code).item).toBytes RLP.VeryStrict = .ok code :=
      toBytes_encodeBytes (h.code code hp) _
    show (ofRLP (do (← (RLP.mk (RLPStream.encodeList p.accountItems)).get 3).toBytes RLP.VeryStrict) >>= _) = _
    rw [hget, ok_bind, hread]
    rfl
  | known codeHash =>
    rw [hp] at hget
    have hread : (RLP.mk (PieceCode.known codeHash).item).toHash 32 RLP.VeryStrict = .ok codeHash :=
      @toHash_encodeBytes 32 (by decide) codeHash RLP.VeryStrict
    show (ofRLP (do (← (RLP.mk (RLPStream.encodeList p.accountItems)).get 3).toHash 32 RLP.VeryStrict) >>= _) = _
    rw [hget, ok_bind, hread, ofRLP_ok, import_bind]
    dsimp only
    split <;> rfl

theorem importPiece_eq {p : AccountPiece} (h : p.Sized) (i : ℕ) (q : Pending) (s : StateImporter) :
    importPiece c ⟨p.item⟩ i q s = takePiece c p i q s := by
  have hget : ∀ {i : ℕ} {x : Bytes}, _ → (RLP.mk p.item).get i = .ok ⟨x⟩ := fun he =>
    get_encodeList h.items h.flat he
  have hfield : ∀ {i : ℕ} {x : Bytes}, p.accountItems[i]? = some x →
      (RLP.mk (RLPStream.encodeList p.accountItems)).get i = .ok ⟨x⟩ := fun he =>
    get_encodeList h.accountItems h.accountFlat he
  have hcount : (RLP.mk p.item).itemCount = .ok 2 := itemCount_encodeList h.items h.flat
  have hfields : (RLP.mk (RLPStream.encodeList p.accountItems)).itemCount = .ok 5 :=
    itemCount_encodeList h.accountItems h.accountFlat
  have haddress : (RLP.mk (RLPStream.encodeBytes (asBytes 32 p.addressHash))).toHash 32 RLP.VeryStrict =
      .ok p.addressHash := @toHash_encodeBytes 32 (by decide) p.addressHash RLP.VeryStrict
  have hstorage : (RLP.mk (RLPStream.encodeList (p.storage.map AccountPiece.pairItem))).toList =
      .ok (p.storage.map fun e => ⟨AccountPiece.pairItem e⟩) := by
    have hitems : Items (p.storage.map AccountPiece.pairItem) := by
      intro x hx
      obtain ⟨e, he, rfl⟩ := List.mem_map.1 hx
      exact isItem_of_encodeList (h.pairs e he)
    rw [toList_encodeList hitems h.storageFlat, List.map_map]
    rfl
  have hflag : (RLP.mk (RLPStream.encodeInt p.code.flag)).toInt 1 RLP.VeryStrict = .ok p.code.flag :=
    toInt_encodeInt (show p.code.flag < 256 ^ 1 by cases p.code <;> simp [PieceCode.flag]) (by decide) _
  unfold importPiece takePiece
  rw [hcount, ofRLP_ok, import_bind, if_neg (by decide), import_bind, hget (i := 0) rfl, ok_bind, haddress,
    ofRLP_ok, import_bind]
  refine bind_congr fun _ => bind_congr fun x => ?_
  obtain ⟨q, s⟩ := x
  dsimp only
  rw [hget (i := 1) rfl, ofRLP_ok, import_bind, hfields, ofRLP_ok, import_bind, if_neg (by decide),
    import_bind, hfield (i := 0) rfl, ok_bind, toU256_encodeInt, ofRLP_ok, import_bind, hfield (i := 1) rfl,
    ok_bind, toU256_encodeInt, ofRLP_ok, import_bind, hfield (i := 4) rfl, ok_bind, hstorage, ofRLP_ok,
    import_bind, importStorage_eq h.pairs]
  refine bind_congr fun m => ?_
  rw [hfield (i := 2) rfl, ok_bind, hflag, ofRLP_ok, import_bind, importCodeOf_eq h]
  cases takeCode c p.code s <;> rfl

/-- The pieces of a chunk, and then the commit. -/
def takeChunk (c : Crypto) (writes : ℕ → Bool) :
    List AccountPiece → ℕ → Pending → StateImporter → Import (Pending × StateImporter)
  | [], _, p, s => do
    let s ← s.commitStateDatabase writes
    .ok (p, s)
  | piece :: pieces, i, p, s => do
    let (p, s) ← takePiece c piece i p s
    takeChunk c writes pieces (i + 1) p s

theorem importPieces_eq {r : RLP} {l : List AccountPiece} {writes : ℕ → Bool} (hsize : ∀ p ∈ l, p.Sized) :
    ∀ {i : ℕ}, (∀ k p, l[k]? = some p → r.get (i + k) = .ok ⟨p.item⟩) →
      ∀ (q : Pending) (s : StateImporter),
        (importPieces c r l.length i q s >>= fun x => x.2.commitStateDatabase writes >>= fun s => .ok (x.1, s)) =
          takeChunk c writes l i q s := by
  induction l with
  | nil => exact fun _ _ _ => rfl
  | cons p l ih =>
    intro i hget q s
    have hfirst : r.get i = .ok ⟨p.item⟩ := hget 0 p rfl
    have hrest := @ih (fun y hy => hsize y (List.mem_cons_of_mem _ hy)) (i + 1) fun k y hy => by
      have := hget (k + 1) y (by rw [List.getElem?_cons_succ]; exact hy)
      rwa [show i + (k + 1) = i + 1 + k by omega] at this
    rw [List.length_cons, importPieces, hfirst, ofRLP_ok, import_bind, importPiece_eq (hsize p List.mem_cons_self),
      takeChunk, bind_assoc]
    exact bind_congr fun x => hrest x.1 x.2

theorem importStateChunk_eq {l : List AccountPiece} (hsize : (stateChunk l).length < 2 ^ 62) (writes : ℕ → Bool)
    (q : Pending) (s : StateImporter) :
    importStateChunk c (stateChunk l) writes q s = takeChunk c writes l 0 q s := by
  have hmax : (stateChunk l).length < maxPayload := hsize.trans (by decide)
  have hflat := flatten_lt_of_encodeList hmax
  have hpiece : ∀ p ∈ l, p.item.length < maxPayload := fun p hp =>
    length_lt_of_mem (List.mem_map_of_mem hp) hmax
  have hitems : Items (l.map AccountPiece.item) := by
    intro x hx
    obtain ⟨p, hp, rfl⟩ := List.mem_map.1 hx
    exact isItem_of_encodeList (hpiece p hp)
  have hcount : (RLP.mk (stateChunk l)).itemCount = .ok l.length := by
    rw [stateChunk, itemCount_encodeList hitems hflat, List.length_map]
  have hread : RLP.ofBytes (stateChunk l) RLP.VeryStrict = .ok ⟨stateChunk l⟩ :=
    (isItem_encodeList hflat).ofBytes _
  unfold importStateChunk
  rw [hread, ofRLP_ok, import_bind, hcount, ofRLP_ok, import_bind]
  refine importPieces_eq (fun p hp => AccountPiece.sized (hpiece p hp)) (fun k p hp => ?_) q s
  rw [Nat.zero_add]
  exact get_encodeList hitems hflat (by rw [List.getElem?_map, hp]; rfl)

/-- Values of less than 2⁶² bytes: as many as the lengths of nodes are reckoned with. -/
def Small (p : AccountPiece) : Prop := ∀ e ∈ p.storage, e.2.length < 2 ^ 62

theorem length_mem_encodeList {b : Bytes} {bs : List Bytes} (hb : b ∈ bs) :
    b.length ≤ (RLPStream.encodeList bs).length := (length_mem_flatten hb).trans (length_flatten_le_encodeList bs)

theorem small_of_stateChunk {l : List AccountPiece} (hsize : (stateChunk l).length < 2 ^ 62) : ∀ p ∈ l, Small p := by
  intro p hp e he
  calc e.2.length
    _ ≤ (RLPStream.encodeBytes e.2).length := length_le_encodeBytes e.2
    _ ≤ (AccountPiece.pairItem e).length := length_mem_encodeList (by simp)
    _ ≤ (RLPStream.encodeList (p.storage.map AccountPiece.pairItem)).length :=
      length_mem_encodeList (List.mem_map_of_mem he)
    _ ≤ (RLPStream.encodeList p.accountItems).length := length_mem_encodeList (by simp [AccountPiece.accountItems])
    _ ≤ p.item.length := length_mem_encodeList (by simp)
    _ ≤ (stateChunk l).length := length_mem_encodeList (List.mem_map_of_mem hp)
    _ < 2 ^ 62 := hsize

/-- The chunks, one after the other. -/
def takeChunks (c : Crypto) (writes : ℕ → ℕ → Bool) :
    List (List AccountPiece) → ℕ → Pending → StateImporter → Import (Pending × StateImporter)
  | [], _, q, s => .ok (q, s)
  | l :: chunks, n, q, s => do
    let (q, s) ← takeChunk c (writes n) l 0 q s
    takeChunks c writes chunks (n + 1) q s

/-- The snapshot as it is stored. -/
def Stored (readChunk : H256 → Import Bytes) (hashes : List H256) (chunks : List (List AccountPiece)) : Prop :=
  hashes.map readChunk = chunks.map fun l => .ok (stateChunk l)

theorem importChunks_eq {readChunk : H256 → Import Bytes} {writes : ℕ → ℕ → Bool} {chunks : List (List AccountPiece)}
    (hsize : ∀ l ∈ chunks, (stateChunk l).length < 2 ^ 62) {hashes : List H256}
    (hread : Stored readChunk hashes chunks) (n : ℕ) (q : Pending) (s : StateImporter) :
    importChunks c readChunk writes hashes n q s = takeChunks c writes chunks n q s := by
  induction chunks generalizing hashes n q s with
  | nil =>
    rw [List.map_eq_nil_iff.1 hread]
    rfl
  | cons l chunks ih =>
    cases hashes with
    | nil => cases hread
    | cons h hashes =>
      obtain ⟨hh, hread⟩ := List.cons.inj hread
      rw [importChunks, hh, import_bind, importStateChunk_eq (hsize l List.mem_cons_self), takeChunks]
      exact bind_congr fun y => ih (fun z hz => hsize z (List.mem_cons_of_mem _ hz)) hread (n + 1) y.1 y.2

end SnapshotImporter

end Petrachor
