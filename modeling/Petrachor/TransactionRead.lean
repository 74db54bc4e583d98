import Petrachor.Devnet
import Petrachor.ReceiptRead

/-!
# Transactions read back

Each item a transaction is written with is read back, and so is the transaction.
-/

namespace Petrachor

namespace Transaction

variable {t : Transaction} {v : SignatureStruct}

/-- A receiver that is written is read back. -/
def encodeReceiver (t : Transaction) : Bytes :=
  if t.m_type = .MessageCall then RLPStream.encodeBytes (asBytes 20 t.receiveAddress)
  else RLPStream.encodeBytes []

theorem isItem_encodeReceiver (t : Transaction) : ∃ p, IsItem t.encodeReceiver p := by
  unfold encodeReceiver
  split
  · exact isItem_hash (n := 20) (by decide) t.receiveAddress
  · exact ⟨_, isItem_encodeBytes (by decide)⟩

/-- Twenty bytes are no empty string. -/
theorem isEmpty_encodeAddress (a : Address) :
    (RLP.mk (RLPStream.encodeBytes (asBytes 20 a))).isEmpty = false := by
  have hlen : (asBytes 20 a).length = 20 := length_toBigEndian _ _
  have hhead : byteAt (RLPStream.encodeBytes (asBytes 20 a)) 0 = 0x94 := by
    unfold RLPStream.encodeBytes
    rw [if_neg (by omega), hlen]
    rfl
  unfold RLP.isEmpty
  rw [hhead]
  exact Bool.and_false _

theorem readReceiver_encodeReceiver (hset : t.isSet = true)
    (hcreate : t.isCreation = true → t.receiveAddress = 0) :
    readReceiver ⟨t.encodeReceiver⟩ = .ok (t.m_type, t.receiveAddress) := by
  unfold readReceiver encodeReceiver
  cases htype : t.m_type with
  | NullTransaction => simp [isSet, htype] at hset
  | ContractCreation =>
    rw [hcreate (by simp [isCreation, htype])]
    rfl
  | MessageCall =>
    rw [if_pos rfl, isEmpty_encodeAddress, if_neg (by decide),
      toHash_encodeBytes (n := 20) (by decide), ok_bind]
    rfl

/-- The items of a signature. -/
def encodeSignature (v : SignatureStruct) : List Bytes :=
  [RLPStream.encodeBytes (asBytes 48 v.signature), RLPStream.encodeBytes (asBytes 96 v.publicKey)]

theorem length_encodeSignature (v : SignatureStruct) :
    (encodeSignature v).flatten.length ≤ 2 * 265 := by
  apply Devnet.length_flatten_le
  simp only [encodeSignature, List.forall_mem_cons]
  exact ⟨Devnet.length_encodeBytes_asBytes (by decide) _,
    Devnet.length_encodeBytes_asBytes (by decide) _, by simp⟩

theorem length_encodeSignature_lt (v : SignatureStruct) :
    (encodeSignature v).flatten.length < maxPayload :=
  (length_encodeSignature v).trans_lt (by decide)

theorem length_streamRLP (v : SignatureStruct) : v.streamRLP.length ≤ 539 :=
  (Devnet.length_encodeList_le (length_encodeSignature_lt v)).trans
    (Nat.add_le_add_right (length_encodeSignature v) 9)

theorem toPoint_encodeBytes {n : ℕ} (hn : n < maxPayload) (x : BitVec (8 * n)) :
    toPoint ⟨RLPStream.encodeBytes (asBytes n x)⟩ n = .ok x := by
  have hlen : (asBytes n x).length < maxPayload := by
    rw [Devnet.length_asBytes]
    exact hn
  unfold toPoint
  rw [toBytes_encodeBytes hlen, ok_bind, ofBytes_asBytes]
  rfl

theorem readSignature_streamRLP (v : SignatureStruct) : readSignature ⟨v.streamRLP⟩ = .ok v := by
  have hitems : Items (encodeSignature v) := by
    simp only [Items, encodeSignature, List.forall_mem_cons]
    exact ⟨isItem_hash (n := 48) (by decide) v.signature,
      isItem_hash (n := 96) (by decide) v.publicKey, by simp⟩
  have hmax := length_encodeSignature_lt v
  change readSignature ⟨RLPStream.encodeList (encodeSignature v)⟩ = _
  unfold readSignature requireList
  rw [isList_encodeList hmax, throwIf_neg (by simp), ok_bind, itemCount_encodeList hitems hmax,
    ok_bind, throwIf_neg (by simp [encodeSignature]), ok_bind,
    get_encodeList hitems hmax (i := 0) rfl, ok_bind, toPoint_encodeBytes (n := 48) (by decide),
    ok_bind, get_encodeList hitems hmax (i := 1) rfl, ok_bind,
    toPoint_encodeBytes (n := 96) (by decide), ok_bind]
  rfl

/-- The items of a signed transaction. -/
def encodeItems (t : Transaction) (v : SignatureStruct) : List Bytes :=
  t.signedFields ++ [v.streamRLP]

theorem length_encodeItems (hdata : t.data = []) : (t.encodeItems v).flatten.length ≤ 7 * 539 := by
  have hint : ∀ u : U256, (RLPStream.encodeInt u.toNat).length ≤ 539 := fun u =>
    (Devnet.length_encodeInt_le u.isLt).trans (by decide)
  have hreceiver : t.encodeReceiver.length ≤ 539 := by
    unfold encodeReceiver
    split
    · exact (Devnet.length_encodeBytes_asBytes (by decide) _).trans (by decide)
    · decide
  have hitem : ∀ e ∈ t.encodeItems v, e.length ≤ 539 := by
    simp only [encodeItems, signedFields, List.cons_append, List.nil_append, List.forall_mem_cons]
    refine ⟨hint _, hint _, hint _, hreceiver, hint _, ?_, length_streamRLP v, by simp⟩
    rw [hdata]
    decide
  exact Devnet.length_flatten_le hitem

theorem readData_encodeBytes {b : Bytes} (h : b.length < maxPayload) :
    readData ⟨RLPStream.encodeBytes b⟩ = .ok b := by
  unfold readData
  rw [isData_encodeBytes h, throwIf_neg (by simp), ok_bind, toBytes_encodeBytes h]

/-- A transaction is read back whatever point stands for its signature. -/
theorem ofBytes_encodeItems (hset : t.isSet = true)
    (hcreate : t.isCreation = true → t.receiveAddress = 0) (hforced : t.m_forcedSender = 0)
    (hvrs : t.m_vrs = some v)
    (hmax : (RLPStream.encodeList (t.encodeItems v)).length < maxPayload) (c : CheckTransaction) :
    ofBytes (RLPStream.encodeList (t.encodeItems v)) c = .ok t := by
  have hdata : t.data.length < maxPayload :=
    (length_le_encodeBytes t.data).trans_lt (length_lt_of_mem (by simp [encodeItems, signedFields]) hmax)
  have hitems : Items (t.encodeItems v) := by
    simp only [Items, encodeItems, signedFields, List.cons_append, List.nil_append,
      List.forall_mem_cons]
    exact ⟨isItem_u256 _, isItem_u256 _, isItem_u256 _, isItem_encodeReceiver t, isItem_u256 _,
      ⟨_, isItem_encodeBytes hdata⟩, ⟨_, isItem_encodeList (length_encodeSignature_lt v)⟩, by simp⟩
  have hflat := flatten_lt_of_encodeList hmax
  unfold ofBytes requireList
  rw [(isItem_encodeList hflat).ofBytes, ok_bind, isList_encodeList hflat, throwIf_neg (by simp),
    ok_bind, itemCount_encodeList hitems hflat, ok_bind,
    throwIf_neg (by simp [encodeItems, signedFields]), ok_bind,
    get_encodeList hitems hflat (i := 0) rfl, ok_bind, toU256_encodeInt, ok_bind,
    get_encodeList hitems hflat (i := 1) rfl, ok_bind, toU256_encodeInt, ok_bind,
    get_encodeList hitems hflat (i := 2) rfl, ok_bind, toU256_encodeInt, ok_bind,
    get_encodeList hitems hflat (i := 3) (e := t.encodeReceiver) rfl, ok_bind,
    readReceiver_encodeReceiver hset hcreate, ok_bind,
    get_encodeList hitems hflat (i := 4) rfl, ok_bind, toU256_encodeInt, ok_bind,
    get_encodeList hitems hflat (i := 5) rfl, ok_bind, readData_encodeBytes hdata, ok_bind,
    get_encodeList hitems hflat (i := 6) rfl, ok_bind, readSignature_streamRLP, ok_bind,
    throwIf_neg (by simp [SignatureStruct.isValid]), ok_bind]
  rw [← hvrs, ← hforced]
  rfl

end Transaction

end Petrachor
