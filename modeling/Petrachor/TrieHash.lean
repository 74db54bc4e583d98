import Petrachor.RLP

/-!
# Cryptographic primitives and the hash of a trie

The hash function and the BLS library are parameters. `hash256` is the root of the Patricia trie
over a finite map of byte strings; `orderedTrieRoot` keys the map by the encoded positions.
-/

namespace Petrachor

/-- `BLS12_381::G1`, the signatures. -/
abbrev G1 := BitVec 384
/-- `BLS12_381::G2`, the public keys. -/
abbrev G2 := BitVec 768
/-- `BLS12_381::Scalar`, the secret keys. -/
abbrev Secret := BitVec 256

/-- What the program takes from its libraries: Keccak, and BLS over the pairing library. -/
structure Crypto where
  sha3 : Bytes → H256
  toPublic : Secret → G2
  sign : Secret → H256 → G1
  verify : G2 → G1 → H256 → Bool

/-- A secret with its public key and address. -/
structure KeyPair where
  secret : Secret
  pub : G2
  address : Address
  deriving DecidableEq

namespace Crypto

variable (c : Crypto)

def publicToAddress (p : G2) : Address := right160 (c.sha3 (asBytes 96 p))

/-- The constructor of `KeyPair`: an invalid secret keeps the null address. -/
def keyPair (s : Secret) : KeyPair :=
  ⟨s, c.toPublic s, if c.toPublic s = 0 then 0 else c.publicToAddress (c.toPublic s)⟩

def EmptySHA3 : H256 := c.sha3 []

def EmptyListSHA3 : H256 := c.sha3 (RLPStream.encodeList [])

def EmptyTrie : H256 := c.sha3 (RLPStream.encodeBytes [])

/-! ## Tries -/

/-- `HexMap`: keys in nibbles, sorted. -/
abbrev HexMap := List (List ℕ × Bytes)

def asNibbles (b : Bytes) : List ℕ := b.flatMap fun x => [x.toNat / 16, x.toNat % 16]

def packNibbles : List ℕ → Bytes
  | a :: b :: l => UInt8.ofNat (a * 16 + b) :: packNibbles l
  | _ => []

/-- The compact encoding of a run of nibbles, with the flags of leaf and odd length. -/
def hexPrefixEncode (nibbles : List ℕ) (leaf : Bool) : Bytes :=
  let flags := if leaf then 2 else 0
  if nibbles.length % 2 = 1 then packNibbles ((flags + 1) :: nibbles)
  else packNibbles (flags :: 0 :: nibbles)

def sharedPrefix : List ℕ → List ℕ → ℕ
  | a :: l, b :: m => if a = b then sharedPrefix l m + 1 else 0
  | _, _ => 0

/-- The node over a part of the map whose keys agree on their first `preLen` nibbles. -/
def hash256rlp : ℕ → HexMap → ℕ → Bytes
  | 0, _, _ => []
  | _ + 1, [], _ => RLPStream.encodeBytes []
  | _ + 1, [(k, v)], preLen =>
    RLPStream.encodeList
      [RLPStream.encodeBytes (hexPrefixEncode (k.drop preLen) true), RLPStream.encodeBytes v]
  | fuel + 1, (k, v) :: rest, preLen =>
    -- a child of 32 bytes or more is referred to by its hash
    let aux (part : HexMap) (n : ℕ) : Bytes :=
      let node := hash256rlp fuel part n
      if node.length < 32 then node else RLPStream.encodeBytes (asBytes 32 (c.sha3 node))
    let sharedPre := rest.foldl (fun m e => min m (sharedPrefix k e.1)) k.length
    if preLen < sharedPre then
      RLPStream.encodeList
        [RLPStream.encodeBytes (hexPrefixEncode ((k.take sharedPre).drop preLen) false),
          aux ((k, v) :: rest) sharedPre]
    else
      let ends := preLen = k.length
      let branch (i : ℕ) : Bytes :=
        let part := (if ends then rest else (k, v) :: rest).filter fun e => e.1.getD preLen 16 = i
        if part.isEmpty then RLPStream.encodeBytes [] else aux part (preLen + 1)
      RLPStream.encodeList
        ((List.range 16).map branch ++
          [if ends then RLPStream.encodeBytes v else RLPStream.encodeBytes []])

/-- The order of a `std::map` keyed by byte strings. -/
def keyLe : List ℕ → List ℕ → Bool
  | [], _ => true
  | _ :: _, [] => false
  | a :: l, b :: m => if a = b then keyLe l m else a < b

/-- The trie root of a map of byte strings. Each level of the recursion consumes a nibble or ends,
and a pair is followed by a branch, so twice the longest key is fuel enough. -/
def hash256 (s : List (Bytes × Bytes)) : H256 :=
  if s.isEmpty then c.sha3 (RLPStream.encodeBytes [])
  else
    let m : HexMap := (s.map fun e => (asNibbles e.1, e.2)).mergeSort fun x y => keyLe x.1 y.1
    c.sha3 (c.hash256rlp (2 * (m.map fun e => e.1.length).foldl max 0 + 2) m 0)

/-- The root of the trie that maps each encoded index to its item. -/
def orderedTrieRoot (data : List Bytes) : H256 :=
  c.hash256 (data.zipIdx.map fun e => (RLPStream.encodeInt e.2, e.1))

end Crypto

end Petrachor
