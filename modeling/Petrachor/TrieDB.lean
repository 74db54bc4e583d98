import Petrachor.NibbleSlice

/-!
# The trie database

A Merkle Patricia trie kept in a database of nodes: a node is stored under the hash of its encoding, and a child
of less than 32 bytes is part of its parent instead. The database is a parameter of the code. A failed assertion
ends the process; `fuel` bounds the depth of a descent.
-/

namespace Petrachor

/-- What the trie asks of its database. -/
class NodeDB (δ : Type) where
  lookup : δ → H256 → Bytes
  «exists» : δ → H256 → Bool
  insert : δ → H256 → Bytes → δ
  kill : δ → H256 → δ

structure GenericTrieDB (δ : Type) where
  m_root : H256
  m_db : δ

/-- The only item of a node that is not empty, apart from one; 255 if there is none or more than one. -/
def uniqueInUse (orig : RLP) (except : ℕ) : Except Exception ℕ :=
  go (List.range 17) 255
where
  go : List ℕ → ℕ → Except Exception ℕ
    | [], used => .ok used
    | i :: is, used => do
      if i ≠ except then
        if !(← orig.get i).isEmpty then
          if used = 255 then go is i else return 255
        else go is used
      else go is used

namespace GenericTrieDB

def RLPNull : Bytes := RLPStream.encodeBytes []

/-- `RLP(bytes)`. -/
def rlp (b : Bytes) : Except Exception RLP := RLP.ofBytes b RLP.VeryStrict

/-- The number of items of a node, with the assertion that it is a node. -/
def nodeSize (orig : RLP) : Except Exception ℕ := do
  let itemCount ← orig.itemCount
  if orig.isList && (itemCount = 2 || itemCount = 17) then return itemCount else throw .abort

/-- The bytes of the first items. -/
def items (orig : RLP) (count : ℕ) : Except Exception (List Bytes) :=
  (List.range count).mapM fun i => do return (← orig.get i).data

/-- `hexPrefixEncode`, with a sum that leaves the integers. -/
def hexPrefix (s : NibbleSlice) (leaf : Bool) (begin_ end_ : ℤ) : Except Exception Bytes :=
  match hexPrefixEncodeSlice s leaf begin_ end_ with
  | some hpe => .ok hpe
  | none => .error .abort

section

variable {δ : Type} [NodeDB δ]

def node (db : δ) (h : H256) : Bytes := NodeDB.lookup db h

/-- The node that an item of another one stands for. -/
def child (db : δ) (n : RLP) : Except Exception RLP := do
  if n.isList then return n else rlp (node db (← n.toHash 32 RLP.Strict))

/-! ## Looking up -/

def atAux (db : δ) : ℕ → RLP → NibbleSlice → Except Exception Bytes
  | 0, _, _ => .error .abort
  | fuel + 1, here, key => do
    if here.isEmpty || here.isNull then return []
    let itemCount ← nodeSize here
    if itemCount = 2 then
      let k ← keyOfItem here
      if key.eq k && (← isLeaf here) then (← here.get 1).toBytes RLP.LaissezFaire
      else if key.contains k && !(← isLeaf here) then
        atAux db fuel (← child db (← here.get 1)) (key.mid k.size)
      else return []
    else if key.size = 0 then (← here.get 16).toBytes RLP.LaissezFaire
    else
      let n ← here.get (key.get 0)
      if n.isEmpty then return []
      else atAux db fuel (← child db n) (key.mid 1)

/-! ## Nodes that are made of others -/

variable (c : Crypto)

/-- Only nodes of 32 bytes or more are in the database. -/
def killNode (db : δ) (d : RLP) (h : H256) : δ := if 32 ≤ d.data.length then NodeDB.kill db h else db

/-- What is appended for a node. -/
def streamNode (db : δ) (b : Bytes) : Bytes × δ :=
  if b.length < 32 then (b, db)
  else (RLPStream.encodeBytes (asBytes 32 (c.sha3 b)), NodeDB.insert db (c.sha3 b) b)

def place (db : δ) (orig : RLP) (k : NibbleSlice) (s : Bytes) : Except Exception (Bytes × δ) := do
  let db := killNode db orig (c.sha3 orig.data)
  if orig.isEmpty then
    return (RLPStream.encodeList [RLPStream.encodeBytes (← hexPrefix k true 0 (-1)), RLPStream.encodeBytes s], db)
  let itemCount ← nodeSize orig
  if itemCount = 2 then return (RLPStream.encodeList [(← orig.get 0).data, RLPStream.encodeBytes s], db)
  return (RLPStream.encodeList ((← items orig 16) ++ [RLPStream.encodeBytes s]), db)

/-- A pair with a longer key as a pair with the first nibbles of it, over another one. -/
def cleve (db : δ) (orig : RLP) (s : ℕ) : Except Exception (Bytes × δ) := do
  let db := killNode db orig (c.sha3 orig.data)
  if !(orig.isList && (← orig.itemCount) = 2) then throw .abort
  let k ← keyOfItem orig
  if !(s ≠ 0 && s ≤ k.size) then throw .abort
  let bottom := RLPStream.encodeList
    [RLPStream.encodeBytes (← hexPrefix k (← isLeaf orig) (toSigned s) (-1)), (← orig.get 1).data]
  let (n, db) := streamNode c db bottom
  return (RLPStream.encodeList [RLPStream.encodeBytes (← hexPrefix k false 0 (toSigned s)), n], db)

/-- A pair as a branch. -/
def branch (db : δ) (orig : RLP) : Except Exception (Bytes × δ) := do
  if !(orig.isList && (← orig.itemCount) = 2) then throw .abort
  let db := killNode db orig (c.sha3 orig.data)
  let k ← keyOfItem orig
  let value := (← orig.get 1).data
  if k.size = 0 then
    if !(← isLeaf orig) then throw .abort
    return (RLPStream.encodeList (List.replicate 16 RLPNull ++ [value]), db)
  let (n, db) ← (do
    if (← isLeaf orig) || k.size > 1 then
      return streamNode c db (RLPStream.encodeList
        [RLPStream.encodeBytes (← hexPrefix (k.mid 1) (← isLeaf orig) 0 (-1)), value])
    else return (value, db))
  return (RLPStream.encodeList ((List.range 16).map (fun i => if i = k.get 0 then n else RLPNull) ++ [RLPNull]), db)

/-! ## Inserting -/

/-- `mergeAtAux`, with `mergeAt`: an item that is a hash is looked up. -/
def mergeAtAux (mergeAt : δ → RLP → Bool → Except Exception (Bytes × δ)) (db : δ) (orig : RLP) :
    Except Exception (Bytes × δ) := do
  let isRemovable := !orig.isList && !orig.isEmpty
  let r ← (if isRemovable then do
      let r ← rlp (node db (← orig.toHash 32 RLP.Strict))
      if r.isNull then throw .abort
      return r
    else .ok orig)
  let (b, db) ← mergeAt db r (!isRemovable)
  return streamNode c db b

def mergeAt : ℕ → δ → RLP → H256 → NibbleSlice → Bytes → Bool → Except Exception (Bytes × δ)
  | 0, _, _, _, _, _, _ => .error .abort
  | fuel + 1, db, orig, origHash, k, v, inLine => do
    if orig.isEmpty then place c db orig k v
    else
      let itemCount ← nodeSize orig
      if itemCount = 2 then
        let key ← keyOfItem orig
        if key.eq k && (← isLeaf orig) then place c db orig k v
        else if k.contains key && !(← isLeaf orig) then
          let db := if inLine then db else killNode db orig origHash
          let first := (← orig.get 0).data
          let (n, db) ← mergeAtAux c
            (fun db r inLine => mergeAt fuel db r (c.sha3 r.data) (k.mid key.size) v inLine) db (← orig.get 1)
          return (RLPStream.encodeList [first, n], db)
        else
          let sh := k.shared key
          let (b, db) ← (if sh ≠ 0 then cleve c db orig sh else branch c db orig)
          let r ← rlp b
          mergeAt fuel db r (c.sha3 r.data) k v true
      else if k.size = 0 then place c db orig k v
      else
        let db := if inLine then db else killNode db orig origHash
        let all ← items orig 17
        let (n, db) ← mergeAtAux c
          (fun db r inLine => mergeAt fuel db r (c.sha3 r.data) (k.mid 1) v inLine) db (← orig.get (k.get 0))
        return (RLPStream.encodeList (all.set (k.get 0) n), db)

/-! ## Removing -/

def isTwoItemNode (db : δ) (n : RLP) : Except Exception Bool := do
  if n.isData then
    if (← (← rlp (node db (← n.toHash 32 RLP.Strict))).itemCount) = 2 then return true
  return n.isList && (← n.itemCount) = 2

/-- A pair over another one as one pair. -/
def graft (db : δ) (orig : RLP) : Except Exception (Bytes × δ) := do
  if !(orig.isList && (← orig.itemCount) = 2) then throw .abort
  let second ← orig.get 1
  let (n, db) ← (do
    if second.isList then return (second, db)
    else
      let lh ← second.toHash 32 RLP.Strict
      return (← rlp (node db lh), NodeDB.kill db lh))
  if !((← n.itemCount) = 2) then throw .abort
  let hpe := hexPrefixEncodeTwo (← keyOfItem orig) (← keyOfItem n) (← isLeaf n)
  return (RLPStream.encodeList [RLPStream.encodeBytes hpe, (← n.get 1).data], db)

/-- A branch of which one item is left as a pair. -/
def merge (orig : RLP) (i : ℕ) : Except Exception Bytes := do
  if !(orig.isList && (← orig.itemCount) = 17) then throw .abort
  let item ← orig.get i
  if i ≠ 16 then
    if item.isEmpty then throw .abort
    match hexPrefixEncodeRef [UInt8.ofNat i] false 1 2 0 with
    | some hpe => return RLPStream.encodeList [RLPStream.encodeBytes hpe, item.data]
    | none => throw .abort
  else
    return RLPStream.encodeList [RLPStream.encodeBytes (hexPrefixEncodeVector [] true 0 (-1)), item.data]

/-- `merge`, and `graft` if the item that is left is a pair. -/
def mergeUsed (db : δ) (orig : RLP) (used : ℕ) : Except Exception (Bytes × δ) := do
  if ← isTwoItemNode db (← orig.get used) then graft db (← rlp (← merge orig used))
  else return (← merge orig used, db)

/-- `deleteAtAux`, with `deleteAt`; nothing if the key was not found. -/
def deleteAtAux (deleteAt : δ → RLP → Except Exception (Bytes × δ)) (db : δ) (orig : RLP) :
    Except Exception (Option Bytes × δ) := do
  let (b, db) ← (if orig.isEmpty then .ok ([], db) else do deleteAt db (← child db orig))
  if b.length = 0 then return (none, db)
  let (n, db) := streamNode c db b
  return (some n, db)

/-- The node without the key; no bytes if the key was not found. -/
def deleteAt : ℕ → δ → RLP → NibbleSlice → Except Exception (Bytes × δ)
  | 0, _, _, _ => .error .abort
  | fuel + 1, db, orig, k => do
    if orig.isEmpty then return ([], db)
    let itemCount ← nodeSize orig
    if itemCount = 2 then
      let key ← keyOfItem orig
      if key.eq k && (← isLeaf orig) then return (RLPNull, killNode db orig (c.sha3 orig.data))
      else if k.contains key then
        let first := (← orig.get 0).data
        let (n, db) ← deleteAtAux c (fun db r => deleteAt fuel db r (k.mid key.size)) db (← orig.get 1)
        match n with
        | none => return ([], db)
        | some n =>
          let db := killNode db orig (c.sha3 orig.data)
          let out := RLPStream.encodeList [first, n]
          let r ← rlp out
          if ← isTwoItemNode db (← r.get 1) then graft db r else return (out, db)
      else return ([], db)
    else if k.size = 0 && !(← orig.get 16).isEmpty then
      let db := killNode db orig (c.sha3 orig.data)
      let used ← uniqueInUse orig 16
      if used ≠ 255 then mergeUsed db orig used
      else return (RLPStream.encodeList ((← items orig 16) ++ [RLPNull]), db)
    else
      let all ← items orig 17
      let (n, db) ← deleteAtAux c (fun db r => deleteAt fuel db r (k.mid 1)) db (← orig.get (k.get 0))
      match n with
      | none => return ([], db)
      | some n =>
        let db := killNode db orig (c.sha3 orig.data)
        let out := RLPStream.encodeList (all.set (k.get 0) n)
        let r ← rlp out
        let used ← uniqueInUse r 255
        if used = 255 then return (out, db) else mergeUsed db r used

/-! ## The trie -/

/-- `init()`: the root of no entries. -/
def init (db : δ) : GenericTrieDB δ := ⟨c.sha3 RLPNull, NodeDB.insert db (c.sha3 RLPNull) RLPNull⟩

/-- `GenericTrieDB(_db, _root)`; without a root in the database there is no trie. -/
def «open» (db : δ) (root : H256) : Except Exception (GenericTrieDB δ) := do
  let t := if root = c.EmptyTrie ∧ !NodeDB.exists db root then init c db else ⟨root, db⟩
  if (node t.m_db t.m_root).length = 0 then throw .RootNotFound else return t

/-- `root()`. -/
def root (t : GenericTrieDB δ) : Except Exception H256 :=
  if (node t.m_db t.m_root).length = 0 then .error .BadRoot else .ok t.m_root

/-- Each step of a descent takes a nibble of the key, and a pair is followed by a branch. -/
def depth (key : Bytes) : ℕ := 4 * key.length + 2

def «at» (t : GenericTrieDB δ) (key : Bytes) : Except Exception Bytes := do
  atAux t.m_db (depth key) (← rlp (node t.m_db t.m_root)) ⟨key, 0⟩

def insert (t : GenericTrieDB δ) (key value : Bytes) : Except Exception (GenericTrieDB δ) := do
  let rootValue := node t.m_db t.m_root
  if rootValue.length = 0 then throw .abort
  let (b, db) ← mergeAt c (depth key) t.m_db (← rlp rootValue) t.m_root ⟨key, 0⟩ value false
  let db := if rootValue.length < 32 then NodeDB.kill db t.m_root else db
  return ⟨c.sha3 b, NodeDB.insert db (c.sha3 b) b⟩

def remove (t : GenericTrieDB δ) (key : Bytes) : Except Exception (GenericTrieDB δ) := do
  let rv := node t.m_db t.m_root
  let (b, db) ← deleteAt c (depth key) t.m_db (← rlp rv) ⟨key, 0⟩
  if b.length = 0 then return ⟨t.m_root, db⟩
  let db := if rv.length < 32 then NodeDB.kill db t.m_root else db
  return ⟨c.sha3 b, NodeDB.insert db (c.sha3 b) b⟩

end

end GenericTrieDB

end Petrachor
