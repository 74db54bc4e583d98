import Petrachor.HeaderRead
import Petrachor.Transaction

/-!
# Receipts read back

A receipt that was written is read back as it was, its logs with it, as long as its encoding is no
longer than a length prefix can say.
-/

namespace Petrachor

/-- The payload of a list is shorter than its encoding. -/
theorem flatten_lt_of_encodeList {items : List Bytes}
    (h : (RLPStream.encodeList items).length < maxPayload) : items.flatten.length < maxPayload :=
  (length_flatten_le_encodeList items).trans_lt h

/-- An item of a list is no longer than the list. -/
theorem length_lt_of_mem {items : List Bytes} {e : Bytes} (he : e ∈ items)
    (h : (RLPStream.encodeList items).length < maxPayload) : e.length < maxPayload :=
  (length_mem_flatten he).trans_lt (flatten_lt_of_encodeList h)

theorem isItem_of_encodeList {items : List Bytes}
    (h : (RLPStream.encodeList items).length < maxPayload) :
    ∃ p, IsItem (RLPStream.encodeList items) p :=
  ⟨_, isItem_encodeList (flatten_lt_of_encodeList h)⟩

theorem isItem_hash {n : ℕ} (hn : n < maxPayload) (v : BitVec (8 * n)) :
    ∃ p, IsItem (RLPStream.encodeBytes (asBytes n v)) p :=
  ⟨_, isItem_encodeBytes ((length_toBigEndian _ _).trans_lt hn)⟩

theorem isItem_u256 (v : U256) : ∃ p, IsItem (RLPStream.encodeInt v.toNat) p :=
  ⟨_, isItem_encodeInt (bytesRequired_lt_maxPayload v.isLt)⟩

namespace LogEntry

variable {l : LogEntry}

theorem items_topics (l : LogEntry) :
    Items (l.topics.map fun t => RLPStream.encodeBytes (asBytes 32 t)) := by
  intro e he
  obtain ⟨t, -, rfl⟩ := List.mem_map.1 he
  exact isItem_hash (n := 32) (by decide) t

theorem readLog_streamRLP (h : l.streamRLP.length < maxPayload) :
    TransactionReceipt.readLog ⟨l.streamRLP⟩ = .ok l := by
  have htopics : (RLPStream.encodeList (l.topics.map fun t => RLPStream.encodeBytes (asBytes 32 t))).length <
      maxPayload := length_lt_of_mem (by simp) h
  have hdata : l.data.length < maxPayload :=
    (length_le_encodeBytes l.data).trans_lt (length_lt_of_mem (by simp) h)
  have hitems : Items [RLPStream.encodeBytes (asBytes 20 l.address),
      RLPStream.encodeList (l.topics.map fun t => RLPStream.encodeBytes (asBytes 32 t)),
      RLPStream.encodeBytes l.data] := by
    simp only [Items, List.forall_mem_cons]
    exact ⟨isItem_hash (n := 20) (by decide) l.address, isItem_of_encodeList htopics,
      ⟨_, isItem_encodeBytes hdata⟩, by simp⟩
  have hmax := flatten_lt_of_encodeList h
  have hread : ((l.topics.map fun t => RLPStream.encodeBytes (asBytes 32 t)).map RLP.mk).mapM
      (fun t => t.toHash 32 RLP.Strict) = .ok l.topics := by
    rw [List.map_map, List.mapM_map]
    refine (mapM_eq_ok (g := id) fun t _ => ?_).trans (by rw [List.map_id])
    exact toHash_encodeBytes (n := 32) (by decide) t _
  unfold TransactionReceipt.readLog streamRLP
  rw [itemCount_encodeList hitems hmax, ok_bind, throwIf_neg (by simp), ok_bind,
    get_encodeList hitems hmax (i := 0) rfl, ok_bind, toHash_encodeBytes (n := 20) (by decide), ok_bind,
    get_encodeList hitems hmax (i := 1) rfl, ok_bind,
    toList_encodeList l.items_topics (flatten_lt_of_encodeList htopics), ok_bind, hread, ok_bind,
    get_encodeList hitems hmax (i := 2) rfl, ok_bind, toBytes_encodeBytes hdata, ok_bind]
  rfl

end LogEntry

namespace TransactionReceipt

variable {r : TransactionReceipt}

/-- The first item of a receipt. -/
def encodeStatus : StatusOrRoot → Bytes
  | .status code => RLPStream.encodeInt (if code then 1 else 0)
  | .root h => RLPStream.encodeBytes (asBytes 32 h)

theorem isItem_encodeStatus (s : StatusOrRoot) : ∃ p, IsItem (encodeStatus s) p := by
  cases s with
  | status code => cases code <;> exact ⟨_, isItem_encodeInt (by decide)⟩
  | root h => exact isItem_hash (n := 32) (by decide) h

theorem readStatus_encodeStatus (s : StatusOrRoot) : readStatus ⟨encodeStatus s⟩ = .ok s := by
  cases s with
  | status code =>
    -- a status is an integer of one byte, which no root is
    have hone : (if code then 1 else 0) < 256 ^ 1 := by cases code <;> decide
    have hbytes : bytesRequired (if code then 1 else 0) ≤ 1 := bytesRequired_le hone
    have hmax : bytesRequired (if code then 1 else 0) < maxPayload := hbytes.trans_lt (by decide)
    have hsize := (isItem_encodeInt hmax).length []
    rw [List.append_nil, length_toBigEndian] at hsize
    unfold readStatus encodeStatus
    rw [isData_encodeInt hmax, throwIf_neg (by simp), ok_bind, hsize, ok_bind, if_neg (by omega),
      isInt_encodeInt hmax, ok_bind, throwIf_neg (by simp), ok_bind,
      toInt_encodeInt hone (by decide), ok_bind]
    cases code <;> rfl
  | root h =>
    have hlen : (asBytes 32 h).length = 32 := length_toBigEndian _ _
    have hlt : (asBytes 32 h).length < maxPayload := by
      rw [hlen]
      decide
    have hsize := (isItem_encodeBytes hlt).length []
    rw [List.append_nil, hlen] at hsize
    unfold readStatus encodeStatus
    rw [isData_encodeBytes hlt, throwIf_neg (by simp), ok_bind, hsize, ok_bind, if_pos rfl,
      toHash_encodeBytes (by decide), ok_bind]
    rfl

theorem ofBytes_streamRLP (h : r.streamRLP.length < maxPayload) : ofBytes r.streamRLP = .ok r := by
  have heq : r.streamRLP = RLPStream.encodeList [encodeStatus r.m_statusCodeOrStateRoot,
      RLPStream.encodeInt r.cumulativeGasUsed.toNat, RLPStream.encodeBytes (asBytes 256 r.bloom),
      RLPStream.encodeList (r.log.map LogEntry.streamRLP)] := by
    unfold streamRLP
    cases r.m_statusCodeOrStateRoot <;> rfl
  rw [heq] at h
  have hlogs : (RLPStream.encodeList (r.log.map LogEntry.streamRLP)).length < maxPayload :=
    length_lt_of_mem (by simp) h
  have hlog : ∀ l ∈ r.log, l.streamRLP.length < maxPayload := by
    intro l hl
    exact length_lt_of_mem (List.mem_map_of_mem hl) hlogs
  have hlogItems : Items (r.log.map LogEntry.streamRLP) := by
    intro e he
    obtain ⟨l, hl, rfl⟩ := List.mem_map.1 he
    exact isItem_of_encodeList (hlog l hl)
  have hitems : Items [encodeStatus r.m_statusCodeOrStateRoot,
      RLPStream.encodeInt r.cumulativeGasUsed.toNat, RLPStream.encodeBytes (asBytes 256 r.bloom),
      RLPStream.encodeList (r.log.map LogEntry.streamRLP)] := by
    simp only [Items, List.forall_mem_cons]
    exact ⟨isItem_encodeStatus _, isItem_u256 _, isItem_hash (n := 256) (by decide) r.bloom,
      isItem_of_encodeList hlogs, by simp⟩
  have hmax := flatten_lt_of_encodeList h
  have hread : ((r.log.map LogEntry.streamRLP).map RLP.mk).mapM readLog = .ok r.log := by
    rw [List.map_map, List.mapM_map]
    refine (mapM_eq_ok (g := id) fun l hl => ?_).trans (by rw [List.map_id])
    exact LogEntry.readLog_streamRLP (hlog l hl)
  unfold ofBytes
  rw [heq, (isItem_encodeList hmax).ofBytes, ok_bind, isList_encodeList hmax, throwIf_neg (by simp),
    ok_bind, itemCount_encodeList hitems hmax, ok_bind, throwIf_neg (by simp), ok_bind,
    get_encodeList hitems hmax (i := 0) rfl, ok_bind, readStatus_encodeStatus, ok_bind,
    get_encodeList hitems hmax (i := 1) rfl, ok_bind, toU256_encodeInt, ok_bind,
    get_encodeList hitems hmax (i := 2) rfl, ok_bind, toHash_encodeBytes (n := 256) (by decide), ok_bind,
    get_encodeList hitems hmax (i := 3) rfl, ok_bind,
    toList_encodeList hlogItems (flatten_lt_of_encodeList hlogs), ok_bind, hread, ok_bind]
  rfl

end TransactionReceipt

end Petrachor
