import Petrachor.RLPRead
import Petrachor.BlockHeader

/-!
# Headers and blocks read back

A header is read back from its encoding, up to the numbers that the stream cuts to 32 bits, and so
is a block from its three parts.
-/

namespace Petrachor

theorem toInt64_of_lt {n : ℕ} (h : n < 2 ^ 63) : toInt64 n = n := by
  unfold toInt64
  rw [BitVec.toInt_eq_toNat_of_lt]
  · rw [BitVec.toNat_ofNat, Nat.mod_eq_of_lt (by omega)]
  · rw [BitVec.toNat_ofNat, Nat.mod_eq_of_lt (by omega)]
    omega

theorem toUnsigned_lt (n : ℤ) : toUnsigned n < 2 ^ 32 := by
  unfold toUnsigned
  omega

theorem length_mem_flatten {α : Type} {l : List (List α)} {x : List α} (h : x ∈ l) :
    x.length ≤ l.flatten.length := by
  obtain ⟨s, t, rfl⟩ := List.append_of_mem h
  simp only [List.flatten_append, List.flatten_cons, List.length_append]
  omega

theorem length_le_encodeBytes (b : Bytes) : b.length ≤ (RLPStream.encodeBytes b).length := by
  unfold RLPStream.encodeBytes
  split
  · exact le_rfl
  · rw [List.length_append]
    omega

namespace BlockHeader

/-- The basic fields on the wire, with any number and timestamp; what the program itself writes are
those of 32 bits. -/
def wireFields (h : BlockHeader) (number timestamp : ℕ) : List Bytes :=
  [RLPStream.encodeBytes (asBytes 32 h.parentHash), RLPStream.encodeBytes (asBytes 32 h.sha3Uncles),
    RLPStream.encodeBytes (asBytes 20 h.author), RLPStream.encodeBytes (asBytes 32 h.stateRoot),
    RLPStream.encodeBytes (asBytes 32 h.transactionsRoot),
    RLPStream.encodeBytes (asBytes 32 h.receiptsRoot),
    RLPStream.encodeBytes (asBytes 256 h.logBloom), RLPStream.encodeInt h.difficulty.toNat,
    RLPStream.encodeInt number, RLPStream.encodeInt h.gasLimit.toNat,
    RLPStream.encodeInt h.gasUsed.toNat, RLPStream.encodeInt timestamp,
    RLPStream.encodeBytes h.extraData]

/-- A header on the wire. -/
def wire (h : BlockHeader) (number timestamp : ℕ) : Bytes :=
  RLPStream.encodeList (h.wireFields number timestamp ++ h.m_seal)

theorem streamRLP_eq_wire (h : BlockHeader) :
    h.streamRLP .WithSeal = h.wire (toUnsigned h.number) (toUnsigned h.timestamp) := rfl

/-- The header that is read from the wire. -/
def readBack (h : BlockHeader) (number timestamp : ℕ) (m_hash : H256) : BlockHeader :=
  { h with number := number, timestamp := timestamp, m_hash := m_hash, m_hashWithout := 0 }

/-- The header can be written so: its seal holds items, the numbers are those of signed words, and
its length fits into a prefix. -/
structure Encodable (h : BlockHeader) (number timestamp : ℕ) : Prop where
  items_seal : Items h.m_seal
  number_lt : number < 2 ^ 63
  timestamp_lt : timestamp < 2 ^ 63
  size : (h.wireFields number timestamp ++ h.m_seal).flatten.length < maxPayload

variable {h : BlockHeader} {number timestamp : ℕ} (hE : h.Encodable number timestamp)

include hE

theorem Encodable.extraData : h.extraData.length < maxPayload := by
  have hm : RLPStream.encodeBytes h.extraData ∈ h.wireFields number timestamp ++ h.m_seal := by
    simp [wireFields]
  exact (length_le_encodeBytes _).trans_lt ((length_mem_flatten hm).trans_lt hE.size)

theorem Encodable.items : Items (h.wireFields number timestamp ++ h.m_seal) := by
  have hbytes : ∀ {w : ℕ} (n : ℕ) (v : BitVec w), n < maxPayload →
      ∃ p, IsItem (RLPStream.encodeBytes (asBytes n v)) p := fun n v hn =>
    ⟨_, isItem_encodeBytes (by rw [asBytes, length_toBigEndian]; exact hn)⟩
  have hint : ∀ n, n < 2 ^ 256 → ∃ p, IsItem (RLPStream.encodeInt n) p := fun n hn =>
    ⟨_, isItem_encodeInt (bytesRequired_lt_maxPayload hn)⟩
  have h32 : 32 < maxPayload ∧ 20 < maxPayload ∧ 256 < maxPayload := by norm_num [maxPayload]
  have hfields : ∀ e ∈ h.wireFields number timestamp, ∃ p, IsItem e p := by
    unfold wireFields
    simp only [List.forall_mem_cons]
    exact ⟨hbytes 32 _ h32.1, hbytes 32 _ h32.1, hbytes 20 _ h32.2.1, hbytes 32 _ h32.1,
      hbytes 32 _ h32.1, hbytes 32 _ h32.1, hbytes 256 _ h32.2.2, hint _ (BitVec.isLt _),
      hint _ (hE.number_lt.trans (by norm_num)), hint _ (BitVec.isLt _), hint _ (BitVec.isLt _),
      hint _ (hE.timestamp_lt.trans (by norm_num)), ⟨_, isItem_encodeBytes hE.extraData⟩, by simp⟩
  intro e he
  rcases List.mem_append.1 he with he | he
  · exact hfields e he
  · exact hE.items_seal e he

theorem Encodable.isItem :
    IsItem (h.wire number timestamp) (h.wireFields number timestamp ++ h.m_seal).flatten := by
  have hi := isItem_encodeList hE.size
  exact hi

theorem Encodable.get {i : ℕ} {e : Bytes}
    (he : (h.wireFields number timestamp ++ h.m_seal)[i]? = some e) :
    (RLP.mk (h.wire number timestamp)).get i = .ok ⟨e⟩ :=
  get_encodeList hE.items hE.size he

omit hE in
theorem mapM_get {r : RLP} : ∀ {l : List Bytes} {start : ℕ},
    (∀ k e, l[k]? = some e → r.get (start + k) = .ok ⟨e⟩) →
    ((List.range' start l.length).mapM fun i => do return (← r.get i).data) = .ok l
  | [], _, _ => rfl
  | e :: l, start, h => by
    have ih := mapM_get (l := l) fun k e' he => by
      have hk := h (k + 1) e' (by rw [List.getElem?_cons_succ]; exact he)
      rw [show start + (k + 1) = start + 1 + k by omega] at hk
      exact hk
    rw [List.length_cons, List.range'_succ, List.mapM_cons]
    rw [show r.get start = .ok ⟨e⟩ from h 0 e rfl, ok_bind]
    simp only [pure, Except.pure, ok_bind] at ih ⊢
    rw [ih, ok_bind]

theorem populate_wire (m_hash : H256) :
    populate ⟨h.wire number timestamp⟩ m_hash = .ok (h.readBack number timestamp m_hash) := by
  have h32 : 32 < maxPayload ∧ 20 < maxPayload ∧ 256 < maxPayload := by norm_num [maxPayload]
  have hn : number < 256 ^ 8 := hE.number_lt.trans (by norm_num)
  have ht : timestamp < 256 ^ 8 := hE.timestamp_lt.trans (by norm_num)
  have hcount : (RLP.mk (h.wire number timestamp)).itemCount = .ok (13 + h.m_seal.length) := by
    rw [wire, itemCount_encodeList hE.items hE.size, List.length_append]
    rfl
  have hseal : ((List.range' 13 h.m_seal.length).mapM fun i => do
      return (← (RLP.mk (h.wire number timestamp)).get i).data) = .ok h.m_seal := by
    refine mapM_get fun k e he => hE.get ?_
    rw [List.getElem?_append_right (by simp [wireFields])]
    simpa [wireFields] using he
  unfold populate
  rw [hE.get (i := 0) rfl, ok_bind, toHash_encodeBytes h32.1, ok_bind,
    hE.get (i := 1) rfl, ok_bind, toHash_encodeBytes h32.1, ok_bind,
    hE.get (i := 2) rfl, ok_bind, toHash_encodeBytes h32.2.1, ok_bind,
    hE.get (i := 3) rfl, ok_bind, toHash_encodeBytes h32.1, ok_bind,
    hE.get (i := 4) rfl, ok_bind, toHash_encodeBytes h32.1, ok_bind,
    hE.get (i := 5) rfl, ok_bind, toHash_encodeBytes h32.1, ok_bind,
    hE.get (i := 6) rfl, ok_bind, toHash_encodeBytes h32.2.2, ok_bind,
    hE.get (i := 7) rfl, ok_bind, toU256_encodeInt, ok_bind,
    hE.get (i := 8) rfl, ok_bind, toInt_encodeInt hn (by decide), ok_bind,
    hE.get (i := 9) rfl, ok_bind, toU256_encodeInt, ok_bind,
    hE.get (i := 10) rfl, ok_bind, toU256_encodeInt, ok_bind,
    hE.get (i := 11) rfl, ok_bind, toInt_encodeInt ht (by decide), ok_bind,
    hE.get (i := 12) rfl, ok_bind, toBytes_encodeBytes hE.extraData, ok_bind, hcount, ok_bind,
    Nat.add_sub_cancel_left, hseal, ok_bind, toInt64_of_lt hE.number_lt,
    toInt64_of_lt hE.timestamp_lt]
  rfl

theorem ofBytes_wire (c : Crypto) :
    ofBytes c (h.wire number timestamp) 0 =
      .ok (h.readBack number timestamp (c.sha3 (h.wire number timestamp))) := by
  unfold ofBytes
  rw [hE.isItem.ofBytes, ok_bind, populate_wire hE, if_pos rfl]

omit hE in
/-- A curve point in the seal is read back. -/
theorem sealPoint_eq {n i : ℕ} {v : BitVec (8 * n)} (hn : n < maxPayload)
    (hs : h.m_seal[i]? = some (RLPStream.encodeBytes (asBytes n v))) : h.sealPoint n i = .ok v := by
  have hlen : (asBytes n v).length < maxPayload := by
    rw [asBytes, length_toBigEndian]
    exact hn
  unfold sealPoint
  rw [hs]
  simp only
  rw [(isItem_encodeBytes hlen).ofBytes, ok_bind, toBytes_encodeBytes hlen, ok_bind, ofBytes_asBytes]
  rfl

omit hE in
theorem sealHash_eq {i : ℕ} {v : H256}
    (hs : h.m_seal[i]? = some (RLPStream.encodeBytes (asBytes 32 v))) : h.sealHash i = .ok v := by
  have hlen : (asBytes 32 v).length < maxPayload := by
    rw [asBytes, length_toBigEndian]
    norm_num [maxPayload]
  unfold sealHash
  rw [hs]
  simp only
  have h32 : 32 < maxPayload := by norm_num [maxPayload]
  rw [(isItem_encodeBytes hlen).ofBytes, ok_bind, toHash_encodeBytes h32]

end BlockHeader

theorem length_flatten_le_encodeList (items : List Bytes) :
    items.flatten.length ≤ (RLPStream.encodeList items).length := by
  unfold RLPStream.encodeList
  rw [List.length_append]
  omega

/-- A block is read back from its header, the items of its transactions and its uncles' headers. -/
theorem BlockRLP.ofBytes_encodeList (c : Crypto) {h : BlockHeader} {number timestamp : ℕ}
    {txs us : List Bytes} {uncles : List BlockHeader} (hE : h.Encodable number timestamp)
    (htxs : Items txs) (hus : Items us)
    (huncles : (us.mapM fun u => BlockHeader.ofBytes c u 0) = .ok uncles)
    (hmax : [h.wire number timestamp, RLPStream.encodeList txs,
      RLPStream.encodeList us].flatten.length < maxPayload) :
    BlockRLP.ofBytes c (RLPStream.encodeList
        [h.wire number timestamp, RLPStream.encodeList txs, RLPStream.encodeList us]) =
      .ok { info := h.readBack number timestamp (c.sha3 (h.wire number timestamp))
            header := h.wire number timestamp, transactions := txs, uncles := uncles
            unclesData := RLPStream.encodeList us } := by
  have hsize : ∀ l : List Bytes, RLPStream.encodeList l ∈ [h.wire number timestamp,
      RLPStream.encodeList txs, RLPStream.encodeList us] → l.flatten.length < maxPayload :=
    fun l hl => (length_flatten_le_encodeList l).trans_lt ((length_mem_flatten hl).trans_lt hmax)
  have h1 := hsize txs (by simp)
  have h2 := hsize us (by simp)
  have hitems : Items [h.wire number timestamp, RLPStream.encodeList txs, RLPStream.encodeList us] := by
    unfold Items
    simp only [List.forall_mem_cons]
    exact ⟨⟨_, hE.isItem⟩, ⟨_, isItem_encodeList h1⟩, ⟨_, isItem_encodeList h2⟩, by simp⟩
  have hlist : (RLP.mk (h.wire number timestamp)).isList = true := by
    have hl := isList_encodeList hE.size
    exact hl
  have hread : (us.map RLP.mk).mapM (fun u => BlockHeader.ofBytes c u.data 0) = .ok uncles := by
    rw [List.mapM_map]
    exact huncles
  unfold BlockRLP.ofBytes
  rw [(isItem_encodeList hmax).ofBytes, ok_bind, isList_encodeList hmax]
  simp only [Bool.not_true, Bool.false_eq_true, if_false]
  rw [get_encodeList (i := 0) hitems hmax rfl, ok_bind, get_encodeList (i := 1) hitems hmax rfl,
    ok_bind, get_encodeList (i := 2) hitems hmax rfl, ok_bind, hlist, isList_encodeList h1,
    isList_encodeList h2]
  simp only [Bool.not_true, Bool.or_false, Bool.false_eq_true, if_false]
  rw [BlockHeader.populate_wire hE, ok_bind, toList_encodeList htxs h1, ok_bind,
    toList_encodeList hus h2, ok_bind, hread, ok_bind, List.map_map]
  simp [pure, Except.pure, Function.comp_def]

/-! ## The hash of what is read -/

theorem BlockHeader.m_hash_of_populate {r : RLP} {m_hash : H256} {h : BlockHeader}
    (hp : populate r m_hash = .ok h) : h.m_hash = m_hash := by
  unfold populate at hp
  -- each field is read by two calls, apart from the seal
  iterate 13
    rw [bind_eq_ok] at hp
    obtain ⟨_, -, hp⟩ := hp
    rw [bind_eq_ok] at hp
    obtain ⟨_, -, hp⟩ := hp
  rw [bind_eq_ok] at hp
  obtain ⟨_, -, hp⟩ := hp
  rw [bind_eq_ok] at hp
  obtain ⟨_, -, hp⟩ := hp
  cases hp
  rfl

/-- A block is read from a list whose first item gives it its hash. -/
theorem BlockRLP.ofBytes_header {c : Crypto} {d : Bytes} {b : BlockRLP}
    (h : BlockRLP.ofBytes c d = .ok b) : ∃ root header, RLP.ofBytes d RLP.VeryStrict = .ok root ∧
      root.get 0 = .ok header ∧ b.info.m_hash = c.sha3 header.data := by
  unfold BlockRLP.ofBytes at h
  rw [bind_eq_ok] at h
  obtain ⟨root, hroot, h⟩ := h
  split at h
  · cases h
  · rw [bind_eq_ok] at h
    obtain ⟨header, hheader, h⟩ := h
    refine ⟨root, header, hroot, hheader, ?_⟩
    rw [bind_eq_ok] at h
    obtain ⟨txs, -, h⟩ := h
    rw [bind_eq_ok] at h
    obtain ⟨uncles, -, h⟩ := h
    split at h
    · cases h
    · rw [bind_eq_ok] at h
      obtain ⟨info, hinfo, h⟩ := h
      rw [bind_eq_ok] at h
      obtain ⟨_, -, h⟩ := h
      rw [bind_eq_ok] at h
      obtain ⟨_, -, h⟩ := h
      rw [bind_eq_ok] at h
      obtain ⟨_, -, h⟩ := h
      cases h
      exact BlockHeader.m_hash_of_populate hinfo

theorem BlockRLP.ofBytes_ne_nil {c : Crypto} {d : Bytes} {b : BlockRLP}
    (h : BlockRLP.ofBytes c d = .ok b) : d ≠ [] := by
  rintro rfl
  have hnil : BlockRLP.ofBytes c [] = .error .BadRLP := rfl
  rw [hnil] at h
  cases h

end Petrachor
