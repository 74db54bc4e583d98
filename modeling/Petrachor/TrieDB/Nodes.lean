import Petrachor.TrieDB
import Petrachor.Lib.Tally

/-!
# Nodes of a trie

A trie over the nibbles of keys, and the bytes of its nodes: a pair of a path and a value, a pair of a path and a
child, or sixteen children. A child of less than 32 bytes stands in its parent, a longer one is replaced by its hash.
-/

namespace Petrachor

open NibbleSlice RLPStream

/-- The tries over the nibbles of keys. -/
abbrev Trie := Patricia 16 Bytes

namespace GenericTrieDB

/-! ## Bytes -/

def pair (p : List (Fin 16)) (leaf : Bool) (e : Bytes) : Bytes :=
  encodeList [encodeBytes (Crypto.hexPrefixEncode (nats p) leaf), e]

/-- Sixteen items, and no value. -/
def full (f : Fin 16 → Bytes) : Bytes := encodeList ((List.finRange 16).map f ++ [RLPNull])

variable (c : Crypto)

/-- What stands for a node in its parent. -/
def refer (b : Bytes) : Bytes := if b.length < 32 then b else encodeBytes (asBytes 32 (c.sha3 b))

def encode : Trie → Bytes
  | .empty => RLPNull
  | .leaf p v => pair p true (encodeBytes v)
  | .ext p t => pair p false (refer c (encode t))
  | .branch ch => full fun i => refer c (encode (ch i))

/-- Keys and values that positions and lengths are wide enough for. -/
def Fits (t : Trie) : Prop := ∀ k v, t.find k = some v → k.length + 1 < 2 ^ 31 ∧ v.length < 2 ^ 62

/-! ## Words in hex-prefix coding -/

section

variable {s s' : NibbleSlice} {p w w' : List (Fin 16)} {leaf : Bool} {n : ℕ}

theorem spells_keyOf (leaf : Bool) (hp : p.length + 1 < 2 ^ 31) :
    (keyOf (Crypto.hexPrefixEncode (nats p) leaf)).Spells p := by
  have hlen := length_hexPrefixEncode (nats p) leaf
  have hnib := nibbles_keyOf leaf (nats_lt p) (by rw [length_nats]; omega)
  rw [length_nats] at hlen
  generalize Crypto.hexPrefixEncode (nats p) leaf = hpe at hlen hnib
  have hfits : hpe.length * 2 < 2 ^ 32 := by
    split_ifs at hlen <;> omega
  have hpos : hpe.length ≠ 0 := by
    split_ifs at hlen <;> omega
  have hkey : ∃ o ≤ 2, keyOf hpe = ⟨hpe, o⟩ := by
    unfold keyOf
    rw [if_neg hpos]
    split
    · exact ⟨1, by omega, rfl⟩
    · exact ⟨2, le_rfl, rfl⟩
  obtain ⟨o, ho, heq⟩ := hkey
  rw [heq] at hnib ⊢
  have hin : o ≤ hpe.length * 2 := by omega
  refine ⟨hin, hfits, ?_⟩
  have hrest : (⟨hpe, o⟩ : NibbleSlice).nibbles = NibbleSlice.rest ⟨hpe, o⟩ := by
    refine NibbleSlice.nibbles_eq hin hfits.le ?_
    show hpe.length * 2 - o < 2 ^ 32
    omega
  exact hrest.symm.trans hnib

theorem toSigned_of_lt (h : n < 2 ^ 31) : toSigned n = n := by
  unfold toSigned
  rw [BitVec.toInt_ofInt, Int.bmod_eq_of_le] <;> omega

/-- The encoding of a range of the nibbles of a slice. -/
theorem hexPrefix_part (h : s.Spells w) (hw : w.length + 1 < 2 ^ 31) (leaf : Bool) {b e : ℤ} (hb : 0 ≤ b)
    (hbe : b ≤ endOf w.length e) (he : endOf w.length e ≤ w.length) :
    hexPrefix s leaf b e = .ok (Crypto.hexPrefixEncode (part (nats w) b (endOf w.length e)) leaf) := by
  have hin := h.inside
  have hfits := h.fits
  have hlen := s.length_rest
  have hrest : s.rest.length = w.length := by rw [h.rest, length_nats]
  have hrange : (HexPrefixCall.slice s b e).InRange := ⟨hin, hb, by rwa [hrest], by rwa [hrest]⟩
  have hposs : (HexPrefixCall.slice s b e).Fits := ⟨by rw [hrest]; omega, fun _ => by rw [hrest]; omega⟩
  unfold hexPrefix
  rw [hexPrefixEncodeSlice_eq hrange hposs, HexPrefixCall.nibbles, hrest, h.rest]

theorem endOf_neg_one (n : ℕ) : endOf n (-1) = n := by
  unfold endOf
  rw [if_pos (by omega)]
  omega

theorem hexPrefix_drop (h : s.Spells w) (hw : w.length + 1 < 2 ^ 31) (leaf : Bool) (hn : n ≤ w.length) :
    hexPrefix s leaf (toSigned n) (-1) = .ok (Crypto.hexPrefixEncode (nats (w.drop n)) leaf) := by
  rw [toSigned_of_lt (by omega), hexPrefix_part h hw leaf (by omega) (by rw [endOf_neg_one]; omega)
    (by rw [endOf_neg_one]), endOf_neg_one]
  unfold part
  rw [List.take_of_length_le (by rw [List.length_drop, length_nats]; omega), nats, nats, List.map_drop]
  rfl

theorem hexPrefix_whole (h : s.Spells w) (hw : w.length + 1 < 2 ^ 31) (leaf : Bool) :
    hexPrefix s leaf 0 (-1) = .ok (Crypto.hexPrefixEncode (nats w) leaf) := by
  have hzero : toSigned (0 : ℕ) = 0 := toSigned_of_lt (by omega)
  have hdrop := hexPrefix_drop h hw leaf (Nat.zero_le _)
  rwa [hzero, List.drop_zero] at hdrop

theorem hexPrefix_take (h : s.Spells w) (hw : w.length + 1 < 2 ^ 31) (leaf : Bool) (hn : n ≤ w.length) :
    hexPrefix s leaf 0 (toSigned n) = .ok (Crypto.hexPrefixEncode (nats (w.take n)) leaf) := by
  have hend : endOf w.length n = n := if_neg (by omega)
  rw [toSigned_of_lt (by omega), hexPrefix_part h hw leaf le_rfl (by omega) (by omega), hend]
  unfold part
  rw [nats, nats, List.map_take]
  simp

theorem hexPrefixTwo (h : s.Spells w) (h' : s'.Spells w') (hw : w.length + w'.length < 2 ^ 32) (leaf : Bool) :
    hexPrefixEncodeTwo s s' leaf = Crypto.hexPrefixEncode (nats (w ++ w')) leaf := by
  have hrest : s.rest.length = w.length := by rw [h.rest, length_nats]
  have hrest' : s'.rest.length = w'.length := by rw [h'.rest, length_nats]
  rw [hexPrefixEncodeTwo_eq ⟨h.inside, h'.inside⟩ ⟨h.fits, h'.fits, by rw [hrest, hrest']; exact hw⟩]
  show Crypto.hexPrefixEncode (s.rest ++ s'.rest) leaf = _
  rw [h.rest, h'.rest, nats, nats, nats, List.map_append]

end

/-! ## Reading nodes -/

theorem isItem_null : IsItem RLPNull [] := isItem_encodeBytes (by decide)

/-- A list is empty only if it has no items. -/
theorem isEmpty_encodeList {items : List Bytes} (h : items.flatten.length < maxPayload) (hne : items.flatten ≠ []) :
    (RLP.mk (encodeList items)).isEmpty = false := by
  have hpos := List.length_pos_iff.2 hne
  obtain ⟨h80, hc0, -, hf7, h56⟩ := rlp_constants
  have hnull := (isItem_encodeList h).not_isNull []
  rw [List.append_nil] at hnull
  unfold RLP.isEmpty
  rw [hnull]
  unfold encodeList lengthPrefix
  simp only [h80, hc0, hf7, h56, Bool.not_false, Bool.true_and, Bool.or_eq_false_iff, decide_eq_false_iff_not]
  split
  · rw [List.singleton_append, byteAt_cons_zero, toNat_ofNat_of_lt (by omega)]
    omega
  · have h8 : bytesRequired items.flatten.length ≤ 8 := bytesRequired_le (by
      unfold maxPayload at h
      omega)
    rw [List.cons_append, byteAt_cons_zero, toNat_ofNat_of_lt (by omega)]
    omega

theorem isEmpty_hash (h : H256) : (RLP.mk (encodeBytes (asBytes 32 h))).isEmpty = false := by
  have hlen : (asBytes 32 h).length = 32 := length_toBigEndian _ _
  unfold encodeBytes
  rw [if_neg (by rw [hlen]; omega), hlen]
  rfl

section

variable {p : List (Fin 16)} {leaf : Bool} {e : Bytes}

/-- The parts of a pair are as long as they may be. -/
structure Paired (p : List (Fin 16)) (e : Bytes) : Prop where
  path : p.length + 1 < 2 ^ 31
  item : ∃ q, IsItem e q
  short : e.length ≤ 2 ^ 62 + 9

namespace Paired

variable (h : Paired p e) (leaf : Bool)

include h

theorem length_hexPrefix : (Crypto.hexPrefixEncode (nats p) leaf).length ≤ 2 ^ 30 := by
  have hlen := length_hexPrefixEncode (nats p) leaf
  have hp := h.path
  rw [length_nats] at hlen
  split_ifs at hlen <;> omega

theorem isItem_hexPrefix :
    IsItem (encodeBytes (Crypto.hexPrefixEncode (nats p) leaf)) (Crypto.hexPrefixEncode (nats p) leaf) := by
  have hlen := h.length_hexPrefix leaf
  refine isItem_encodeBytes ?_
  unfold maxPayload
  omega

theorem items : Items [encodeBytes (Crypto.hexPrefixEncode (nats p) leaf), e] := by
  intro x hx
  rcases List.mem_pair.1 hx with rfl | rfl
  · exact ⟨_, h.isItem_hexPrefix leaf⟩
  · exact h.item

theorem payload : [encodeBytes (Crypto.hexPrefixEncode (nats p) leaf), e].flatten.length < maxPayload := by
  have hlen := h.length_hexPrefix leaf
  have hbytes := length_encodeBytes_le (b := Crypto.hexPrefixEncode (nats p) leaf) (by omega)
  have hshort := h.short
  simp only [List.flatten_cons, List.flatten_nil, List.append_nil, List.length_append]
  unfold maxPayload
  omega

theorem isItem : ∃ q, IsItem (pair p leaf e) q := ⟨_, isItem_encodeList (h.payload leaf)⟩

theorem isList : (RLP.mk (pair p leaf e)).isList = true := isList_encodeList (h.payload leaf)

theorem isEmpty : (RLP.mk (pair p leaf e)).isEmpty = false := by
  refine isEmpty_encodeList (h.payload leaf) fun hnil => ?_
  exact (h.isItem_hexPrefix leaf).ne_nil (List.append_eq_nil_iff.1 hnil).1

theorem itemCount : (RLP.mk (pair p leaf e)).itemCount = .ok 2 := itemCount_encodeList (h.items leaf) (h.payload leaf)

theorem get_zero : (RLP.mk (pair p leaf e)).get 0 = .ok ⟨encodeBytes (Crypto.hexPrefixEncode (nats p) leaf)⟩ :=
  get_encodeList (h.items leaf) (h.payload leaf) rfl

theorem get_one : (RLP.mk (pair p leaf e)).get 1 = .ok ⟨e⟩ := get_encodeList (h.items leaf) (h.payload leaf) rfl

theorem nodeSize : nodeSize ⟨pair p leaf e⟩ = .ok 2 := by
  unfold GenericTrieDB.nodeSize
  rw [h.itemCount, h.isList]
  rfl

theorem isLeaf : isLeaf ⟨pair p leaf e⟩ = .ok leaf := by
  unfold Petrachor.isLeaf
  rw [h.isList, h.itemCount, h.get_zero]
  simp only [ok_bind, (h.isItem_hexPrefix leaf).payload_eq]
  exact congrArg Except.ok (leaf_hexPrefixEncode leaf (nats_lt p))

theorem keyOfItem : ∃ s, keyOfItem ⟨pair p leaf e⟩ = .ok s ∧ s.Spells p := by
  refine ⟨_, ?_, spells_keyOf leaf h.path⟩
  unfold Petrachor.keyOfItem
  rw [h.get_zero, ok_bind, (h.isItem_hexPrefix leaf).payload_eq]
  rfl

end Paired

end

section

variable {f : Fin 16 → Bytes}

/-- Every item of a branch is a node or a hash. -/
def Branched (f : Fin 16 → Bytes) : Prop := ∀ i, (∃ q, IsItem (f i) q) ∧ (f i).length ≤ 33

namespace Branched

variable (h : Branched f)

include h

theorem items : Items ((List.finRange 16).map f ++ [RLPNull]) := by
  intro x hx
  rcases List.mem_append.1 hx with hx | hx
  · obtain ⟨i, -, rfl⟩ := List.mem_map.1 hx
    exact (h i).1
  · rw [List.mem_singleton] at hx
    exact hx ▸ ⟨_, isItem_null⟩

theorem payload : ((List.finRange 16).map f ++ [RLPNull]).flatten.length < maxPayload := by
  have hsum : (((List.finRange 16).map f).map List.length).sum ≤ 16 * 33 := by
    have hle := List.sum_le_card_nsmul (((List.finRange 16).map f).map List.length) 33 (by
      intro x hx
      simp only [List.mem_map] at hx
      obtain ⟨-, ⟨i, -, rfl⟩, rfl⟩ := hx
      exact (h i).2)
    simpa using hle
  have hnull : RLPNull.length = 1 := rfl
  rw [List.flatten_append, List.length_append, List.length_flatten, List.flatten_singleton, hnull]
  unfold maxPayload
  omega

theorem isItem : ∃ q, IsItem (full f) q := ⟨_, isItem_encodeList h.payload⟩

theorem isList : (RLP.mk (full f)).isList = true := isList_encodeList h.payload

theorem isEmpty : (RLP.mk (full f)).isEmpty = false := by
  refine isEmpty_encodeList h.payload fun hnil => ?_
  rw [List.flatten_append, List.append_eq_nil_iff] at hnil
  exact isItem_null.ne_nil (List.append_eq_nil_iff.1 hnil.2).1

theorem itemCount : (RLP.mk (full f)).itemCount = .ok 17 := by
  refine (itemCount_encodeList h.items h.payload).trans ?_
  rw [List.length_append, List.length_map, List.length_finRange]
  rfl

theorem nodeSize : nodeSize ⟨full f⟩ = .ok 17 := by
  unfold GenericTrieDB.nodeSize
  rw [h.itemCount, h.isList]
  rfl

theorem get (i : Fin 16) : (RLP.mk (full f)).get i = .ok ⟨f i⟩ := by
  refine get_encodeList h.items h.payload ?_
  rw [List.getElem?_append_left (by rw [List.length_map, List.length_finRange]; exact i.isLt)]
  simp

theorem get_sixteen : (RLP.mk (full f)).get 16 = .ok ⟨RLPNull⟩ := by
  refine get_encodeList h.items h.payload ?_
  rw [List.getElem?_append_right (by simp)]
  simp

end Branched

end

/-! ## The bytes of a trie -/

section

open Patricia

variable {c : Crypto} {b : Bytes} {t : Trie} {ch : Fin 16 → Trie} {p q k : List (Fin 16)} {v : Bytes}

theorem Fits.of_lead (h : Fits (lead p t)) : Fits t := by
  intro k v hk
  have hfind : (lead p t).find (p ++ k) = some v := by
    rw [find_lead, if_pos (List.prefix_append ..), List.drop_left, hk]
  have hlen := h (p ++ k) v hfind
  rw [List.length_append] at hlen
  exact ⟨by omega, hlen.2⟩

/-- A path that gets shorter. -/
theorem Fits.of_append (h : Fits (lead (p ++ q) t)) : Fits (lead q t) := by
  rw [← lead_lead] at h
  exact h.of_lead

theorem Fits.child (h : Fits (.branch ch)) (i : Fin 16) : Fits (ch i) := by
  intro k v hk
  have hlen := h (i :: k) v hk
  rw [List.length_cons] at hlen
  exact ⟨by omega, hlen.2⟩

theorem Fits.ext (h : Fits (.ext p t)) : Fits t := by
  intro k v hk
  have hlen := h (p ++ k) v (by rw [find, if_pos (List.prefix_append ..), List.drop_left, hk])
  rw [List.length_append] at hlen
  exact ⟨by omega, hlen.2⟩

theorem Fits.remove {s : Trie} (h : Fits t) (hfind : ∀ l, s.find l = if l = k then none else t.find l) : Fits s := by
  intro l w hl
  rw [hfind] at hl
  by_cases heq : l = k
  · rw [if_pos heq] at hl
    cases hl
  · rw [if_neg heq] at hl
    exact h l w hl

theorem length_refer (c : Crypto) (b : Bytes) : (refer c b).length ≤ 33 := by
  unfold refer
  split
  · omega
  · have hlen : (asBytes 32 (c.sha3 b)).length = 32 := length_toBigEndian _ _
    unfold encodeBytes
    rw [if_neg (by rw [hlen]; omega), List.length_append, hlen]
    exact le_rfl

theorem isItem_refer (h : ∃ q, IsItem b q) : ∃ q, IsItem (refer c b) q := by
  unfold refer
  split
  · exact h
  · exact ⟨_, isItem_encodeBytes (by rw [asBytes, length_toBigEndian]; unfold maxPayload; omega)⟩

theorem paired_leaf (h : Fits (.leaf p v)) : Paired p (encodeBytes v) := by
  obtain ⟨hp, hv⟩ := h p v (if_pos rfl)
  refine ⟨hp, ⟨_, isItem_encodeBytes (by unfold maxPayload; omega)⟩, ?_⟩
  have hlen := length_encodeBytes_le (b := v) (by omega)
  omega

theorem paired_refer (hp : p.length + 1 < 2 ^ 31) (h : ∃ q, IsItem b q) : Paired p (refer c b) :=
  ⟨hp, isItem_refer h, (length_refer c b).trans (by norm_num)⟩

theorem Canonical.path_lt (ht : t.Canonical) (hne : t.isEmpty = false) (h : Fits (lead p t)) :
    p.length + 1 < 2 ^ 31 := by
  obtain ⟨k, v, hk⟩ := ht.exists_find hne
  have hfind : (lead p t).find (p ++ k) = some v := by
    rw [find_lead, if_pos (List.prefix_append ..), List.drop_left, hk]
  have hlen := (h (p ++ k) v hfind).1
  rw [List.length_append] at hlen
  omega

theorem isItem_encode (c : Crypto) (ht : t.Canonical) (h : Fits t) : ∃ q, IsItem (encode c t) q := by
  induction t with
  | empty => exact ⟨_, isItem_null⟩
  | leaf p v => exact (paired_leaf h).isItem true
  | ext p t ih =>
    have hp : p.length + 1 < 2 ^ 31 := by
      refine Canonical.path_lt ht.2.2 (isEmpty_of_isBranch ht.2.1) ?_
      rwa [lead_of_isBranch ht.2.1 ht.1]
    exact (paired_refer hp (ih ht.2.2 h.ext)).isItem false
  | branch ch ih =>
    exact Branched.isItem fun i => ⟨isItem_refer (ih i (ht.2 i) (h.child i)), length_refer c _⟩

theorem paired_ext (c : Crypto) (ht : (Patricia.ext p t).Canonical) (h : Fits (.ext p t)) :
    Paired p (refer c (encode c t)) := by
  refine paired_refer ?_ (isItem_encode c ht.2.2 h.ext)
  refine Canonical.path_lt ht.2.2 (isEmpty_of_isBranch ht.2.1) ?_
  rwa [lead_of_isBranch ht.2.1 ht.1]

theorem branched (c : Crypto) (ht : (Patricia.branch ch).Canonical) (h : Fits (.branch ch)) :
    Branched fun i => refer c (encode c (ch i)) :=
  fun i => ⟨isItem_refer (isItem_encode c (ht.2 i) (h.child i)), length_refer c _⟩

theorem isEmpty_encode (c : Crypto) (ht : t.Canonical) (h : Fits t) : (RLP.mk (encode c t)).isEmpty = t.isEmpty := by
  cases t with
  | empty => rfl
  | leaf p v => exact (paired_leaf h).isEmpty true
  | ext p t => exact (paired_ext c ht h).isEmpty false
  | branch ch => exact (branched c ht h).isEmpty

theorem isList_encode (c : Crypto) (ht : t.Canonical) (h : Fits t) : (RLP.mk (encode c t)).isList = !t.isEmpty := by
  cases t with
  | empty => rfl
  | leaf p v => exact (paired_leaf h).isList true
  | ext p t => exact (paired_ext c ht h).isList false
  | branch ch => exact (branched c ht h).isList

/-! ## Nodes of a database -/

/-- The node, if it is in the database. -/
def stored (c : Crypto) (t : Trie) : Multiset Bytes := if (encode c t).length < 32 then 0 else {encode c t}

/-- The nodes below the top one that are in the database, as often as they are referred to. -/
def kids (c : Crypto) : Trie → Multiset Bytes
  | .ext _ t => stored c t + kids c t
  | .branch ch => ∑ i, (stored c (ch i) + kids c (ch i))
  | _ => 0

def own (c : Crypto) (t : Trie) : Multiset Bytes := stored c t + kids c t

variable {δ : Type} [NodeDB δ] {db : δ}

/-- All these nodes are found in the database. -/
def Holds (c : Crypto) (db : δ) (A : Multiset Bytes) : Prop := ∀ b ∈ A, b ≠ [] → node db (c.sha3 b) = b

theorem Holds.mono {A B : Multiset Bytes} (h : Holds c db A) (hle : B ≤ A) : Holds c db B :=
  fun b hb => h b (Multiset.mem_of_le hle hb)

theorem own_le_kids (c : Crypto) (ch : Fin 16 → Trie) (i : Fin 16) : own c (ch i) ≤ kids c (.branch ch) :=
  Finset.single_le_sum (f := fun i => own c (ch i)) (fun _ _ => Multiset.zero_le _) (Finset.mem_univ i)

theorem kids_ext (c : Crypto) (p : List (Fin 16)) (t : Trie) : kids c (.ext p t) = own c t := rfl

theorem node_of_holds (h : Holds c db (own c t)) (hlen : ¬(encode c t).length < 32) :
    node db (c.sha3 (encode c t)) = encode c t := by
  have hne : encode c t ≠ [] := fun h0 => hlen (by rw [h0]; exact Nat.zero_lt_succ 31)
  refine h _ (Multiset.mem_add.2 (.inl ?_)) hne
  rw [stored, if_neg hlen]
  exact Multiset.mem_singleton_self _

theorem isEmpty_refer (ht : t.Canonical) (h : Fits t) : (RLP.mk (refer c (encode c t))).isEmpty = t.isEmpty := by
  unfold refer
  split
  · exact isEmpty_encode c ht h
  · rename_i hlen
    rw [isEmpty_hash]
    cases t with
    | empty => exact absurd (show RLPNull.length < 32 by decide) hlen
    | _ => rfl

theorem not_isList_hash (h : H256) : (RLP.mk (encodeBytes (asBytes 32 h))).isList = false :=
  not_isList_of_isData (isData_encodeBytes (by rw [asBytes, length_toBigEndian]; unfold maxPayload; omega))

theorem toHash_refer (h : H256) (s : RLP.Strictness) : (RLP.mk (encodeBytes (asBytes 32 h))).toHash 32 s = .ok h :=
  toHash_encodeBytes (n := 32) (by unfold maxPayload; omega) h s

/-- The reference to a node is followed to the node. -/
theorem child_refer (ht : t.Canonical) (h : Fits t) (hne : t.isEmpty = false) (hdb : Holds c db (own c t)) :
    child db ⟨refer c (encode c t)⟩ = .ok ⟨encode c t⟩ := by
  unfold child refer
  split
  · rw [isList_encode c ht h, hne]
    rfl
  · rename_i hlen
    rw [not_isList_hash, toHash_refer]
    obtain ⟨q, hq⟩ := isItem_encode c ht h
    rw [if_neg Bool.false_ne_true, ok_bind, node_of_holds hdb hlen]
    exact hq.ofBytes _

end

end GenericTrieDB

end Petrachor
