import Petrachor.Forgery
import Petrachor.RLPStrict

/-!
# The identity of transactions

A block's transactions are indexed by the hash of their raw items, and known elsewhere by the hash of
what the object writes. The constructor takes an empty list for the receiver of a contract creation, and
a string of any length for a point of the signature; these are the only encodings that an accepted
transaction does not give back.
-/

namespace Petrachor

/-- A list of items is determined by its encoding. -/
theorem encodeList_inj {as bs : List Bytes} (ha : Items as) (hb : Items bs)
    (hmax : bs.flatten.length < maxPayload) (h : RLPStream.encodeList as = RLPStream.encodeList bs) :
    as = bs := by
  have hle := length_flatten_le_encodeList as
  have hpre : ∀ {n m : ℕ}, n < m → (RLPStream.lengthPrefix n c_rlpListStart c_rlpListIndLenZero).length ≤
      (RLPStream.lengthPrefix m c_rlpListStart c_rlpListIndLenZero).length := by
    intro n m hnm
    have hmono : bytesRequired n ≤ bytesRequired m := by
      unfold bytesRequired
      split <;> split
      · exact le_rfl
      · exact Nat.zero_le _
      · omega
      · exact Nat.succ_le_succ (Nat.log_mono_right hnm.le)
    unfold RLPStream.lengthPrefix
    split <;> split <;> simp only [List.length_cons, List.length_nil, length_toBigEndian] <;> omega
  have hlen : as.flatten.length = bs.flatten.length := by
    have htotal := congrArg List.length h
    unfold RLPStream.encodeList at htotal
    rw [List.length_append, List.length_append] at htotal
    rcases lt_trichotomy as.flatten.length bs.flatten.length with hlt | heq | hlt
    · have := hpre hlt
      omega
    · exact heq
    · have := hpre hlt
      omega
  have hpa := (isItem_encodeList (hlen.trans_lt hmax)).payload_eq
  rw [h, (isItem_encodeList hmax).payload_eq, Except.ok.injEq] at hpa
  have hsa := split_flatten as.flatten.length ha (length_le_length_flatten ha)
  have hsb := split_flatten bs.flatten.length hb (length_le_length_flatten hb)
  rw [hpa, hsa] at hsb
  exact Except.ok.inj hsb

/-- A string is determined by its encoding. -/
theorem encodeBytes_inj {a b : Bytes} (ha : a.length < maxPayload) (hb : b.length < maxPayload)
    (h : RLPStream.encodeBytes a = RLPStream.encodeBytes b) : a = b := by
  have hpay := (isItem_encodeBytes ha).payload_eq
  rw [h, (isItem_encodeBytes hb).payload_eq, Except.ok.injEq] at hpay
  exact hpay.symm

theorem asBytes_ofBytes_iff {n : ℕ} {p : Bytes} : asBytes n (ofBytes n p) = p ↔ p.length = n := by
  constructor
  · intro h
    rw [← h]
    exact length_toBigEndian _ _
  · intro h
    have hlt := fromBigEndian_lt p
    have hback := toBigEndian_fromBigEndian p
    rw [h] at hlt hback
    rw [ofBytes, if_pos h, asBytes, BitVec.toNat_ofNat, show (2 : ℕ) ^ (8 * n) = 256 ^ n by rw [pow_mul]; rfl,
      Nat.mod_eq_of_lt hlt]
    exact hback

namespace Transaction

/-! ## What is read -/

section

variable {e b : Bytes}

/-- A point is written back as it was read just if it has its length. -/
theorem toPoint_reencodes {p : Bytes} {n : ℕ} {v : BitVec (8 * n)} (he : IsItem e p) (hn : n < maxPayload)
    (hv : toPoint ⟨e⟩ n = .ok v) :
    (RLP.mk e).isData = true ∧ (RLPStream.encodeBytes (asBytes n v) = e ↔ p.length = n) := by
  unfold toPoint at hv
  rw [bind_eq_ok] at hv
  obtain ⟨q, hq, hv⟩ := hv
  cases hv
  obtain ⟨hd, rfl⟩ := he.toBytes_eq rfl hq
  refine ⟨hd, ?_⟩
  rw [← asBytes_ofBytes_iff, he.eq_encodeBytes hd]
  constructor
  · intro heq
    exact encodeBytes_inj ((length_toBigEndian _ _).trans_lt hn) he.eq_encode.1 heq
  · intro heq
    rw [heq]

/-- The receiver is written back as it was read just if it is no empty list. -/
theorem readReceiver_reencodes {p : Bytes} {x : TransactionType × Address} (he : IsItem e p)
    (hx : readReceiver ⟨e⟩ = .ok x) :
    x.1 ≠ .NullTransaction ∧
      ((if x.1 = .MessageCall then RLPStream.encodeBytes (asBytes 20 x.2)
        else RLPStream.encodeBytes []) = e ↔ e ≠ [0xc0]) := by
  unfold readReceiver at hx
  split at hx
  · rename_i hempty
    cases hx
    refine ⟨by simp, ?_⟩
    rw [if_neg (by simp)]
    obtain ⟨h80, hc0, hb7, hf7, -, -⟩ := rlp_constants
    unfold RLP.isEmpty at hempty
    rw [he.isNull_eq, Bool.not_false, Bool.true_and, Bool.or_eq_true, decide_eq_true_eq,
      decide_eq_true_eq] at hempty
    -- the first byte leaves no room for a payload
    have hl := he.length []
    have hoff := he.offset []
    rw [List.append_nil] at hl hoff
    obtain ⟨y, t, rfl⟩ := List.exists_cons_of_ne_nil he.ne_nil
    rw [payloadOffset_cons] at hoff
    unfold RLP.length at hl
    rw [isNull_cons, if_neg (by simp), unit_bind_eq_ok] at hl
    simp only [byteAt_cons_zero] at hl hempty
    have hp : p.length = 0 := by
      rcases hempty with hy | hy
      · rw [if_neg (by omega), if_pos (by omega), Except.ok.injEq] at hl
        omega
      · rw [if_neg (by omega), if_neg (by omega), if_neg (by omega), if_pos (by omega),
          Except.ok.injEq] at hl
        omega
    have ht : t = [] := by
      rw [List.length_cons] at hoff
      apply List.length_eq_zero_iff.1
      split_ifs at hoff <;> omega
    subst ht
    constructor
    · intro heq hempty'
      rw [hempty'] at heq
      exact absurd heq (by decide)
    · intro hne
      rcases hempty with hy | hy
      · have : y = 0x80 := UInt8.toNat_inj.1 hy
        rw [this]
        rfl
      · have : y = 0xc0 := UInt8.toNat_inj.1 hy
        rw [this] at hne
        exact absurd rfl hne
  · rename_i hempty
    rw [bind_eq_ok] at hx
    obtain ⟨a, ha, hx⟩ := hx
    cases hx
    have heq := @IsItem.toHash_eq e p he 20 a ha
    refine ⟨by simp, ?_⟩
    rw [if_pos rfl, ← heq]
    refine iff_of_true rfl ?_
    rintro rfl
    exact hempty rfl

end

/-- The receiver is not written as an empty list, and the points of the signature have their lengths. -/
structure Plain (b : Bytes) : Prop where
  receiver : (RLP.mk b).get 3 ≠ .ok ⟨[0xc0]⟩
  signature : ∀ s x p, (RLP.mk b).get 6 = .ok s → s.get 0 = .ok x → x.payload = .ok p → p.length = 48
  publicKey : ∀ s x p, (RLP.mk b).get 6 = .ok s → s.get 1 = .ok x → x.payload = .ok p → p.length = 96

/-- The two items of a signature. -/
theorem readSignature_items {e : Bytes} {p : Bytes} {v : SignatureStruct} (he : IsItem e p)
    (hv : readSignature ⟨e⟩ = .ok v) :
    ∃ x y px py, e = RLPStream.encodeList [x, y] ∧ IsItem x px ∧ IsItem y py ∧
      [x, y].flatten.length < maxPayload ∧
      toPoint ⟨x⟩ 48 = .ok v.signature ∧ toPoint ⟨y⟩ 96 = .ok v.publicKey := by
  unfold readSignature requireList at hv
  simp only [bind_eq_ok, throwIf_eq_ok, exists_and_left, exists_const] at hv
  obtain ⟨⟨hlist, n, hcount, hn⟩, r0, hr0, s, hs, r1, hr1, k, hk, hv⟩ := hv
  rw [Bool.not_eq_true', Bool.not_eq_false] at hlist
  rw [not_not] at hn
  subst hn
  obtain ⟨items, -, rfl, hitems, hmax, hlen⟩ := encodeList_of_itemCount (he.ofBytes _) hlist hcount
  obtain ⟨x, y, rfl⟩ := List.length_eq_two.1 hlen
  obtain ⟨px, hx⟩ := hitems x (by simp)
  obtain ⟨py, hy⟩ := hitems y (by simp)
  have hget0 := @get_encodeList _ hitems hmax 0 _ rfl
  have hget1 := @get_encodeList _ hitems hmax 1 _ rfl
  rw [hget0, Except.ok.injEq] at hr0
  rw [hget1, Except.ok.injEq] at hr1
  subst hr0 hr1
  cases hv
  exact ⟨x, y, px, py, rfl, hx, hy, hmax, hs, hk⟩

/-- The items of an accepted transaction: all but the receiver and the signature are the ones that are
written. -/
def readItems (t : Transaction) (receiver signature : Bytes) : List Bytes :=
  [RLPStream.encodeInt t.nonce.toNat, RLPStream.encodeInt t.gasPrice.toNat,
    RLPStream.encodeInt t.gas.toNat, receiver, RLPStream.encodeInt t.value.toNat,
    RLPStream.encodeBytes t.data, signature]

theorem ofBytes_items {b : Bytes} {c : CheckTransaction} {t : Transaction} (h : ofBytes b c = .ok t) :
    ∃ e s v, b = RLPStream.encodeList (t.readItems e s) ∧ Items (t.readItems e s) ∧
      (t.readItems e s).flatten.length < maxPayload ∧ t.data.length < maxPayload ∧ t.m_vrs = some v ∧
      readReceiver ⟨e⟩ = .ok (t.m_type, t.receiveAddress) ∧ readSignature ⟨s⟩ = .ok v := by
  unfold ofBytes requireList at h
  simp only [bind_eq_ok, throwIf_eq_ok, exists_and_left, exists_const] at h
  obtain ⟨r, hr, ⟨hlist, n, hcount, hn⟩, r0, h0, nonce, hnonce, r1, h1, gasPrice, hgasPrice, r2, h2, gas,
    hgas, r3, h3, receiver, hreceiver, r4, h4, value, hvalue, r5, h5, data, hdata, r6, h6, vrs, hvrs, -,
    h⟩ := h
  rw [Bool.not_eq_true', Bool.not_eq_false] at hlist
  rw [not_not] at hn
  subst hn
  obtain ⟨items, rfl, rfl, hitems, hmax, hlen⟩ := encodeList_of_itemCount hr hlist hcount
  match items, hlen with
  | [e0, e1, e2, e3, e4, e5, e6], _ =>
    rw [@get_encodeList _ hitems hmax 0 _ rfl, Except.ok.injEq] at h0
    rw [@get_encodeList _ hitems hmax 1 _ rfl, Except.ok.injEq] at h1
    rw [@get_encodeList _ hitems hmax 2 _ rfl, Except.ok.injEq] at h2
    rw [@get_encodeList _ hitems hmax 3 _ rfl, Except.ok.injEq] at h3
    rw [@get_encodeList _ hitems hmax 4 _ rfl, Except.ok.injEq] at h4
    rw [@get_encodeList _ hitems hmax 5 _ rfl, Except.ok.injEq] at h5
    rw [@get_encodeList _ hitems hmax 6 _ rfl, Except.ok.injEq] at h6
    subst h0 h1 h2 h3 h4 h5 h6
    obtain ⟨p0, hi0⟩ := hitems e0 (by simp)
    obtain ⟨p1, hi1⟩ := hitems e1 (by simp)
    obtain ⟨p2, hi2⟩ := hitems e2 (by simp)
    obtain ⟨p4, hi4⟩ := hitems e4 (by simp)
    obtain ⟨p5, hi5⟩ := hitems e5 (by simp)
    unfold readData at hdata
    rw [unit_bind_eq_ok, throwIf_eq_ok, Bool.not_eq_true', Bool.not_eq_false] at hdata
    obtain ⟨hd, hdata⟩ := hdata
    unfold RLP.toBytes at hdata
    rw [if_pos hd, hi5.payload_eq, Except.ok.injEq] at hdata
    have hn0 := hi0.toU256_eq rfl rfl rfl hnonce
    have hn1 := hi1.toU256_eq rfl rfl rfl hgasPrice
    have hn2 := hi2.toU256_eq rfl rfl rfl hgas
    have hn4 := hi4.toU256_eq rfl rfl rfl hvalue
    have hn5 := hi5.eq_encodeBytes hd
    have hmax5 := hi5.eq_encode.1
    rw [hdata] at hn5 hmax5
    subst hn0 hn1 hn2 hn4 hn5
    cases h
    exact ⟨e3, e6, vrs, rfl, hitems, hmax, hmax5, rfl, hreceiver, hvrs⟩

theorem Plain.iff_items {items : List Bytes} {e s x y p q : Bytes} (hitems : Items items)
    (hmax : items.flatten.length < maxPayload) (he : items[3]? = some e) (hs : items[6]? = some s)
    (hsig : s = RLPStream.encodeList [x, y]) (hx : IsItem x p) (hy : IsItem y q)
    (hsize : [x, y].flatten.length < maxPayload) :
    Plain (RLPStream.encodeList items) ↔ e ≠ [0xc0] ∧ p.length = 48 ∧ q.length = 96 := by
  have hget3 := get_encodeList hitems hmax he
  have hget6 := get_encodeList hitems hmax hs
  have hpair : Items [x, y] := by
    simp only [Items, List.forall_mem_cons]
    exact ⟨⟨p, hx⟩, ⟨q, hy⟩, by simp⟩
  have hx0 := @get_encodeList _ hpair hsize 0 _ rfl
  have hy1 := @get_encodeList _ hpair hsize 1 _ rfl
  subst hsig
  constructor
  · rintro ⟨hreceiver, hsignature, hpublic⟩
    refine ⟨?_, hsignature _ _ _ hget6 hx0 hx.payload_eq, hpublic _ _ _ hget6 hy1 hy.payload_eq⟩
    rintro rfl
    exact hreceiver hget3
  · rintro ⟨hne, hp, hq⟩
    constructor
    · intro hget
      rw [hget3] at hget
      cases hget
      exact hne rfl
    · intro s' x' p' hs' hx' hp'
      rw [hget6] at hs'
      cases hs'
      rw [hx0] at hx'
      cases hx'
      rw [hx.payload_eq] at hp'
      cases hp'
      exact hp
    · intro s' y' q' hs' hy' hq'
      rw [hget6] at hs'
      cases hs'
      rw [hy1] at hy'
      cases hy'
      rw [hy.payload_eq] at hq'
      cases hq'
      exact hq

/-- The signature is written back as it was read just if its points have their lengths. -/
theorem streamRLP_signature_iff {x y p q : Bytes} {v : SignatureStruct} (hx : IsItem x p) (hy : IsItem y q)
    (hsize : [x, y].flatten.length < maxPayload) (hsig : toPoint ⟨x⟩ 48 = .ok v.signature)
    (hkey : toPoint ⟨y⟩ 96 = .ok v.publicKey) :
    v.streamRLP = RLPStream.encodeList [x, y] ↔ p.length = 48 ∧ q.length = 96 := by
  have h48 := (@toPoint_reencodes x p 48 v.signature hx (by decide) hsig).2
  have h96 := (@toPoint_reencodes y q 96 v.publicKey hy (by decide) hkey).2
  rw [← h48, ← h96]
  constructor
  · intro h
    have hitems : Items (encodeSignature v) := by
      simp only [Items, encodeSignature, List.forall_mem_cons]
      exact ⟨@isItem_hash 48 (by decide) v.signature, @isItem_hash 96 (by decide) v.publicKey, by simp⟩
    have hpair : Items [x, y] := by
      simp only [Items, List.forall_mem_cons]
      exact ⟨⟨p, hx⟩, ⟨q, hy⟩, by simp⟩
    have heq := encodeList_inj hitems hpair hsize h
    unfold encodeSignature at heq
    rw [List.cons.injEq, List.cons.injEq] at heq
    exact ⟨heq.1, heq.2.1⟩
  · rintro ⟨h1, h2⟩
    unfold SignatureStruct.streamRLP
    rw [h1, h2]

/-- An accepted transaction is written back as it came just if it came plain. -/
theorem streamRLP_eq_iff {b : Bytes} {c : CheckTransaction} {t : Transaction} (h : ofBytes b c = .ok t) :
    t.streamRLP .WithSignature = .ok b ↔ Plain b := by
  obtain ⟨e, s, v, rfl, hitems, hmax, hdata, hvrs, hreceiver, hsig⟩ := ofBytes_items h
  obtain ⟨pe, hie⟩ := hitems e (by simp [readItems])
  obtain ⟨ps, his⟩ := hitems s (by simp [readItems])
  obtain ⟨htype, hback⟩ := readReceiver_reencodes hie hreceiver
  obtain ⟨x, y, px, py, hs, hx, hy, hsize, hsig, hkey⟩ := readSignature_items his hsig
  have hpoints := streamRLP_signature_iff hx hy hsize hsig hkey
  rw [Plain.iff_items hitems hmax rfl rfl hs hx hy hsize, ← hback, ← hpoints, ← hs]
  have hwrite : t.streamRLP .WithSignature = .ok (RLPStream.encodeList (t.encodeItems v)) := by
    unfold streamRLP
    rw [if_neg htype, hvrs]
    rfl
  have hwritten : t.encodeItems v = t.readItems t.encodeReceiver v.streamRLP := rfl
  have hcode : t.encodeReceiver = (if t.m_type = .MessageCall then
      RLPStream.encodeBytes (asBytes 20 t.receiveAddress) else RLPStream.encodeBytes []) := rfl
  rw [hwrite, Except.ok.injEq, hwritten, ← hcode]
  constructor
  · intro heq
    have hall : Items (t.readItems t.encodeReceiver v.streamRLP) := by
      simp only [Items, readItems, List.forall_mem_cons]
      exact ⟨isItem_u256 _, isItem_u256 _, isItem_u256 _, isItem_encodeReceiver t, isItem_u256 _,
        ⟨_, isItem_encodeBytes hdata⟩, ⟨_, isItem_encodeList (length_encodeSignature_lt v)⟩, by simp⟩
    have hlist := encodeList_inj hall hitems hmax heq
    simp only [readItems, List.cons.injEq, and_true, true_and] at hlist
    exact hlist
  · rintro ⟨h1, h2⟩
    rw [h1, h2]

/-- What the constructor makes of a transaction's own encoding: the receiver of a contract creation is
not written, and who is forced to be the sender is not either. -/
def unforced (t : Transaction) : Transaction :=
  { t with receiveAddress := if t.isCreation then 0 else t.receiveAddress, m_forcedSender := 0 }

theorem ofBytes_streamRLP {t : Transaction} {v : SignatureStruct} {b : Bytes} (hset : t.isSet = true)
    (hvrs : t.m_vrs = some v) (hb : t.streamRLP .WithSignature = .ok b) (hmax : b.length < maxPayload)
    (c : CheckTransaction) : ofBytes b c = .ok t.unforced := by
  have htype : t.m_type ≠ .NullTransaction := by
    intro hnull
    simp [isSet, hnull] at hset
  have hitems : t.unforced.encodeItems v = t.encodeItems v := by
    unfold encodeItems signedFields unforced isCreation
    cases hm : t.m_type <;> simp
  unfold streamRLP at hb
  rw [if_neg htype, hvrs] at hb
  have hb' : b = RLPStream.encodeList (t.unforced.encodeItems v) := by
    rw [hitems]
    exact (Except.ok.inj hb).symm
  subst hb'
  have hset' : t.unforced.isSet = true := by
    rw [← hset]
    rfl
  have hcreate : t.unforced.isCreation = true → t.unforced.receiveAddress = 0 := by
    intro hcreate
    have hcreate' : t.isCreation = true := hcreate
    unfold unforced
    rw [hcreate']
    rfl
  exact ofBytes_encodeItems hset' hcreate rfl hvrs hmax c

/-- The bytes an accepted transaction came in are the ones it writes, and their hash the one it is known
by, if and only if they are plain; and every signed transaction is read back from what it writes. -/
theorem identity_iff (crypto : Crypto) {b : Bytes} {t : Transaction} (h : ofBytes b .Everything = .ok t) :
    ((t.streamRLP .WithSignature = .ok b ∧ t.sha3 crypto .WithSignature = .ok (crypto.sha3 b)) ↔
      Plain b) ∧
    ∀ (u : Transaction) (v : SignatureStruct) (e : Bytes), u.isSet = true → u.m_vrs = some v →
      u.streamRLP .WithSignature = .ok e → e.length < maxPayload →
      ofBytes e .Everything = .ok u.unforced := by
  refine ⟨?_, fun u v e hset hvrs he hmax => ofBytes_streamRLP hset hvrs he hmax _⟩
  rw [← streamRLP_eq_iff h]
  refine and_iff_left_of_imp ?_
  intro hb
  unfold sha3
  rw [hb]
  rfl

/-- The creation of an empty contract. -/
def creation : Transaction :=
  { m_type := .ContractCreation, nonce := 0, value := 0, receiveAddress := 0, gasPrice := 0,
    gas := 53000, data := [], m_vrs := some ⟨1, 1⟩, m_forcedSender := 0 }

/-- Its encoding, with a receiver of one's choice. -/
def creationBytes (receiver : Bytes) : Bytes :=
  RLPStream.encodeList (creation.readItems receiver (SignatureStruct.streamRLP ⟨1, 1⟩))

theorem ofBytes_creationBytes : ofBytes (creationBytes [0x80]) .Everything = .ok creation := by
  decide +kernel

theorem identity_creation : Plain (creationBytes [0x80]) := by
  have hiff := (identity_iff Devnet.crypto ofBytes_creationBytes).1
  have hwrite : creation.streamRLP .WithSignature = .ok (creationBytes [0x80]) := rfl
  refine hiff.1 ⟨hwrite, ?_⟩
  unfold sha3
  rw [hwrite]
  rfl

set_option maxRecDepth 100000 in
/-- With an empty list for the receiver the same transaction is read, and written back in other bytes. -/
theorem identity_empty_list :
    ofBytes (creationBytes [0xc0]) .Everything = .ok creation ∧
    creation.streamRLP .WithSignature ≠ .ok (creationBytes [0xc0]) := by
  constructor
  · decide +kernel
  · intro h
    rw [show creation.streamRLP .WithSignature = .ok (creationBytes [0x80]) from rfl, Except.ok.injEq] at h
    exact absurd h (by decide)

end Transaction

end Petrachor
