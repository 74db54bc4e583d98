import Petrachor.HeaderCodec
import Petrachor.TransactionCodec

/-!
# What the seal leaves open

A header that is verified on its parent is fixed by its unsealed fields and its public key only as far as
the verification reads its bytes. The extra data may be a list, which reads as no data; a point of the
seal may be a string of another length, which reads as the zero point; further items may follow the four
fields of the seal; and a header without a parent hash is accepted with any seal.
-/

namespace Petrachor

namespace BlockHeader

/-! ## The items of a header -/

/-- The items of a list. -/
def items (b : Bytes) : List Bytes :=
  match (RLP.mk b).toList with
  | .ok l => l.map RLP.data
  | .error _ => []

/-- The item is a string of `n` bytes. -/
def isString (e : Bytes) (n : ℕ) : Bool :=
  (RLP.mk e).isData && match (RLP.mk e).payload with
    | .ok p => p.length = n
    | .error _ => false

/-- Verification fixes the bytes of the item that is the `k`-th behind the timestamp: the extra data, and
of a seal that is checked the four fields. -/
def determined (checked : Bool) (k : ℕ) (e : Bytes) : Bool :=
  match k with
  | 0 => (RLP.mk e).isData
  | 1 => checked && isString e 96
  | 2 => checked && isString e 32
  | 3 => checked && isString e 48
  | 4 => checked && isString e 48
  | _ => false

/-- The parts of an encoding that verification does not look at, in their places. -/
def slack (checked : Bool) (b : Bytes) : Bool × List (Option Bytes) :=
  if (RLP.mk b).isList then
    (true, ((items b).drop 12).mapIdx fun k e => if determined checked k e then none else some e)
  else (false, [some b])

section

variable {e p : Bytes} {n : ℕ}

theorem items_encodeList {l : List Bytes} (h : Items l) (hmax : l.flatten.length < maxPayload) :
    items (RLPStream.encodeList l) = l := by
  unfold items
  rw [toList_encodeList h hmax]
  show (l.map RLP.mk).map RLP.data = l
  rw [List.map_map]
  exact List.map_id l

theorem isString_iff (h : IsItem e p) : isString e n = true ↔ (RLP.mk e).isData = true ∧ p.length = n := by
  unfold isString
  rw [h.payload_eq, Bool.and_eq_true, decide_eq_true_iff]

/-- Behind the last item of a list an empty one is read. -/
theorem seek_flatten_none : ∀ {l : List Bytes} (i : ℕ) {pre last : Bytes}, Items l → last ≠ [] →
    (last :: l)[i]? = none → RLP.seek (pre ++ l.flatten) i pre.length last = .ok []
  | _, 0, _, _, _, _, hnone => by simp at hnone
  | [], i + 1, pre, last, _, hlast, _ => by
    rw [RLP.seek, if_neg (by simpa using hlast), List.flatten_nil, List.append_nil, List.drop_length]
    cases i with
    | zero => rfl
    | succ i => rfl
  | x :: l, i + 1, pre, last, h, hlast, hnone => by
    obtain ⟨p, hp⟩ := h x List.mem_cons_self
    rw [List.getElem?_cons_succ] at hnone
    have ih : RLP.seek (pre ++ x ++ l.flatten) i (pre ++ x).length x = .ok [] :=
      seek_flatten_none i (fun y hy => h y (List.mem_cons_of_mem _ hy)) hp.ne_nil hnone
    rw [List.append_assoc, List.length_append] at ih
    rw [RLP.seek, if_neg (by simpa using hlast), List.drop_left, List.flatten_cons]
    simp only [hp.sizeAsEncoded, ok_bind, List.take_left]
    exact ih

theorem get_encodeList_none {l : List Bytes} (h : Items l) (hmax : l.flatten.length < maxPayload) {i : ℕ}
    (hi : l[i]? = none) : (RLP.mk (RLPStream.encodeList l)).get i = .ok ⟨[]⟩ := by
  unfold RLP.get
  rw [(isItem_encodeList hmax).payload_eq, ok_bind]
  cases l with
  | nil => cases i <;> rfl
  | cons x l =>
    obtain ⟨q, hq⟩ := h x List.mem_cons_self
    rw [List.flatten_cons, hq.sizeAsEncoded, ok_bind, cropped,
      if_pos (by rw [List.length_append]; omega), List.drop_zero, List.take_left,
      seek_flatten_none i (fun y hy => h y (List.mem_cons_of_mem _ hy)) hq.ne_nil hi, ok_bind]
    rfl

/-- A basic field of a header is an item of its list. -/
theorem get_item {l : List Bytes} {r : RLP} {i : ℕ} (h : Items l) (hmax : l.flatten.length < maxPayload)
    (hr : (RLP.mk (RLPStream.encodeList l)).get i = .ok r) (hne : r.data ≠ []) :
    l[i]? = some r.data ∧ ∃ p, IsItem r.data p := by
  cases hi : l[i]? with
  | none =>
    rw [get_encodeList_none h hmax hi, Except.ok.injEq] at hr
    subst hr
    exact absurd rfl hne
  | some e =>
    rw [get_encodeList h hmax hi, Except.ok.injEq] at hr
    subst hr
    exact ⟨rfl, h e (List.mem_of_getElem? hi)⟩

theorem get_hash {l : List Bytes} {i : ℕ} {v : BitVec (8 * n)} (h : Items l)
    (hmax : l.flatten.length < maxPayload)
    (hv : ((RLP.mk (RLPStream.encodeList l)).get i >>= fun r => r.toHash n RLP.VeryStrict) = .ok v) :
    l[i]? = some (RLPStream.encodeBytes (asBytes n v)) := by
  rw [bind_eq_ok] at hv
  obtain ⟨r, hr, hv⟩ := hv
  obtain ⟨hi, p, hp⟩ := get_item h hmax hr (by
    intro hnil
    obtain ⟨d⟩ := r
    subst hnil
    cases hv)
  rw [hi, hp.toHash_eq hv]

theorem get_int {l : List Bytes} {i size v : ℕ} (h : Items l) (hmax : l.flatten.length < maxPayload)
    (hv : ((RLP.mk (RLPStream.encodeList l)).get i >>= fun r => r.toInt size RLP.Strict) = .ok v) :
    l[i]? = some (RLPStream.encodeInt v) ∧ v < 256 ^ size := by
  rw [bind_eq_ok] at hv
  obtain ⟨r, hr, hv⟩ := hv
  obtain ⟨hi, p, hp⟩ := get_item h hmax hr (by
    intro hnil
    obtain ⟨d⟩ := r
    subst hnil
    cases hv)
  obtain ⟨heq, hlt⟩ := hp.toInt_eq rfl rfl rfl hv
  exact ⟨by rw [hi, heq], hlt⟩

theorem get_u256 {l : List Bytes} {i : ℕ} {v : U256} (h : Items l) (hmax : l.flatten.length < maxPayload)
    (hv : ((RLP.mk (RLPStream.encodeList l)).get i >>= fun r => r.toU256 RLP.Strict) = .ok v) :
    l[i]? = some (RLPStream.encodeInt v.toNat) := by
  rw [bind_eq_ok] at hv
  obtain ⟨r, hr, hv⟩ := hv
  unfold RLP.toU256 at hv
  rw [bind_eq_ok] at hv
  obtain ⟨n, hn, hv⟩ := hv
  cases hv
  obtain ⟨hi, hlt⟩ := get_int h hmax (bind_eq_ok.2 ⟨r, hr, hn⟩)
  rw [BitVec.toNat_ofNat, Nat.mod_eq_of_lt (hlt.trans_eq (by norm_num))]
  exact hi

end

theorem toInt64_inj {m n : ℕ} (hm : m < 256 ^ 8) (hn : n < 256 ^ 8) (h : toInt64 m = toInt64 n) : m = n := by
  unfold toInt64 at h
  have hbits := congrArg BitVec.toNat (BitVec.eq_of_toInt_eq h)
  rw [BitVec.toNat_ofNat, BitVec.toNat_ofNat, Nat.mod_eq_of_lt (by omega), Nat.mod_eq_of_lt (by omega)]
    at hbits
  exact hbits

/-- The items that a header was read from. -/
structure ReadFrom (h : BlockHeader) (l : List Bytes) : Prop where
  fields : ∃ number timestamp, number < 256 ^ 8 ∧ timestamp < 256 ^ 8 ∧ h.number = toInt64 number ∧
    h.timestamp = toInt64 timestamp ∧ l.take 12 = (h.wireFields number timestamp).take 12
  extraData : ∀ e, l[12]? = some e → (RLP.mk e).isData = true → e = RLPStream.encodeBytes h.extraData
  m_seal : h.m_seal = l.drop 13
  m_hashWithout : h.m_hashWithout = 0

/-- The reads that make up a header. -/
structure Reads (r : RLP) (h : BlockHeader) (rawNumber rawTimestamp : ℕ) : Prop where
  parentHash : (r.get 0 >>= fun x => x.toHash 32 RLP.VeryStrict) = .ok h.parentHash
  sha3Uncles : (r.get 1 >>= fun x => x.toHash 32 RLP.VeryStrict) = .ok h.sha3Uncles
  author : (r.get 2 >>= fun x => x.toHash 20 RLP.VeryStrict) = .ok h.author
  stateRoot : (r.get 3 >>= fun x => x.toHash 32 RLP.VeryStrict) = .ok h.stateRoot
  transactionsRoot : (r.get 4 >>= fun x => x.toHash 32 RLP.VeryStrict) = .ok h.transactionsRoot
  receiptsRoot : (r.get 5 >>= fun x => x.toHash 32 RLP.VeryStrict) = .ok h.receiptsRoot
  logBloom : (r.get 6 >>= fun x => x.toHash 256 RLP.VeryStrict) = .ok h.logBloom
  difficulty : (r.get 7 >>= fun x => x.toU256 RLP.Strict) = .ok h.difficulty
  number : (r.get 8 >>= fun x => x.toInt 8 RLP.Strict) = .ok rawNumber
  gasLimit : (r.get 9 >>= fun x => x.toU256 RLP.Strict) = .ok h.gasLimit
  gasUsed : (r.get 10 >>= fun x => x.toU256 RLP.Strict) = .ok h.gasUsed
  timestamp : (r.get 11 >>= fun x => x.toInt 8 RLP.Strict) = .ok rawTimestamp
  extraData : (r.get 12 >>= fun x => x.toBytes RLP.LaissezFaire) = .ok h.extraData
  m_seal : ∃ n, r.itemCount = .ok n ∧
    ((List.range' 13 (n - 13)).mapM fun i => do return (← r.get i).data) = .ok h.m_seal
  number_eq : h.number = toInt64 rawNumber
  timestamp_eq : h.timestamp = toInt64 rawTimestamp
  m_hashWithout : h.m_hashWithout = 0

theorem reads_of_populate {r : RLP} {h : BlockHeader} {m_hash : H256} (hread : populate r m_hash = .ok h) :
    ∃ number timestamp, Reads r h number timestamp := by
  unfold populate at hread
  simp only [bind_eq_ok] at hread
  obtain ⟨r0, h0, v0, hv0, r1, h1, v1, hv1, r2, h2, v2, hv2, r3, h3, v3, hv3, r4, h4, v4, hv4, r5, h5, v5,
    hv5, r6, h6, v6, hv6, r7, h7, v7, hv7, r8, h8, v8, hv8, r9, h9, v9, hv9, r10, h10, v10, hv10, r11, h11,
    v11, hv11, r12, h12, v12, hv12, n, hn, m_seal, hseal, hread⟩ := hread
  cases hread
  exact ⟨v8, v11,
    { parentHash := bind_eq_ok.2 ⟨r0, h0, hv0⟩
      sha3Uncles := bind_eq_ok.2 ⟨r1, h1, hv1⟩
      author := bind_eq_ok.2 ⟨r2, h2, hv2⟩
      stateRoot := bind_eq_ok.2 ⟨r3, h3, hv3⟩
      transactionsRoot := bind_eq_ok.2 ⟨r4, h4, hv4⟩
      receiptsRoot := bind_eq_ok.2 ⟨r5, h5, hv5⟩
      logBloom := bind_eq_ok.2 ⟨r6, h6, hv6⟩
      difficulty := bind_eq_ok.2 ⟨r7, h7, hv7⟩
      number := bind_eq_ok.2 ⟨r8, h8, hv8⟩
      gasLimit := bind_eq_ok.2 ⟨r9, h9, hv9⟩
      gasUsed := bind_eq_ok.2 ⟨r10, h10, hv10⟩
      timestamp := bind_eq_ok.2 ⟨r11, h11, hv11⟩
      extraData := bind_eq_ok.2 ⟨r12, h12, hv12⟩
      m_seal := ⟨n, hn, hseal⟩
      number_eq := rfl
      timestamp_eq := rfl
      m_hashWithout := rfl }⟩

theorem Reads.readFrom {l : List Bytes} {h : BlockHeader} {number timestamp : ℕ} (hl : Items l)
    (hmax : l.flatten.length < maxPayload)
    (hr : Reads ⟨RLPStream.encodeList l⟩ h number timestamp) : h.ReadFrom l := by
  obtain ⟨hnumber, hn⟩ := get_int hl hmax hr.number
  obtain ⟨htimestamp, ht⟩ := get_int hl hmax hr.timestamp
  refine ⟨⟨number, timestamp, hn, ht, hr.number_eq, hr.timestamp_eq, ?_⟩, ?_, ?_, hr.m_hashWithout⟩
  · apply List.ext_getElem?
    intro i
    rw [List.getElem?_take, List.getElem?_take]
    split
    · rename_i hlt
      match i, hlt with
      | 0, _ => exact get_hash hl hmax hr.parentHash
      | 1, _ => exact get_hash hl hmax hr.sha3Uncles
      | 2, _ => exact get_hash hl hmax hr.author
      | 3, _ => exact get_hash hl hmax hr.stateRoot
      | 4, _ => exact get_hash hl hmax hr.transactionsRoot
      | 5, _ => exact get_hash hl hmax hr.receiptsRoot
      | 6, _ => exact get_hash hl hmax hr.logBloom
      | 7, _ => exact get_u256 hl hmax hr.difficulty
      | 8, _ => exact hnumber
      | 9, _ => exact get_u256 hl hmax hr.gasLimit
      | 10, _ => exact get_u256 hl hmax hr.gasUsed
      | 11, _ => exact htimestamp
    · rfl
  · intro e he hd
    have hv := hr.extraData
    rw [get_encodeList hl hmax he, ok_bind] at hv
    obtain ⟨p, hp⟩ := hl e (List.mem_of_getElem? he)
    unfold RLP.toBytes at hv
    rw [if_pos hd, hp.payload_eq, Except.ok.injEq] at hv
    have heq := hp.eq_encodeBytes hd
    rw [hv] at heq
    exact heq
  · obtain ⟨n, hcount, hseal⟩ := hr.m_seal
    rw [itemCount_encodeList hl hmax, Except.ok.injEq] at hcount
    have hdrop : ((List.range' 13 (l.drop 13).length).mapM fun i => do
        return (← (RLP.mk (RLPStream.encodeList l)).get i).data) = .ok (l.drop 13) := by
      refine mapM_get fun k e he => get_encodeList hl hmax ?_
      rw [List.getElem?_drop] at he
      exact he
    rw [List.length_drop, hcount] at hdrop
    exact Except.ok.inj (hseal.symm.trans hdrop)

/-- A header that is a list was read from the list's items. -/
theorem ofBytes_items {c : Crypto} {b : Bytes} {h : BlockHeader} (hread : ofBytes c b 0 = .ok h)
    (hlist : (RLP.mk b).isList = true) :
    ∃ l, b = RLPStream.encodeList l ∧ Items l ∧ l.flatten.length < maxPayload ∧ h.ReadFrom l := by
  unfold ofBytes at hread
  rw [bind_eq_ok] at hread
  obtain ⟨r, hr, hread⟩ := hread
  obtain ⟨rfl, -⟩ := ofBytes_veryStrict.1 hr
  obtain ⟨number, timestamp, hreads⟩ := reads_of_populate hread
  obtain ⟨n, hn, -⟩ := hreads.m_seal
  obtain ⟨l, -, rfl, hl, hmax, -⟩ := encodeList_of_itemCount hr hlist hn
  exact ⟨l, rfl, hl, hmax, hreads.readFrom hl hmax⟩

/-! ## The fields of the seal -/

section

variable {h h' : BlockHeader} {e e' p p' : Bytes} {i n : ℕ}

theorem sealPoint_item {v : BitVec (8 * n)} (he : IsItem e p) (hs : h.m_seal[i]? = some e)
    (hlen : isString e n = true) (hv : h.sealPoint n i = .ok v) :
    e = RLPStream.encodeBytes (asBytes n v) := by
  obtain ⟨hd, hp⟩ := (isString_iff he).1 hlen
  unfold sealPoint at hv
  rw [hs] at hv
  simp only [he.ofBytes, ok_bind, bind_eq_ok] at hv
  obtain ⟨q, hq, hv⟩ := hv
  obtain ⟨-, rfl⟩ := he.toBytes_eq rfl hq
  cases hv
  rw [asBytes_ofBytes_iff.2 hp]
  exact he.eq_encodeBytes hd

theorem sealHash_item {v : H256} (he : IsItem e p) (hs : h.m_seal[i]? = some e)
    (hv : h.sealHash i = .ok v) : e = RLPStream.encodeBytes (asBytes 32 v) := by
  unfold sealHash at hv
  rw [hs] at hv
  simp only [he.ofBytes, ok_bind] at hv
  exact @IsItem.toHash_eq e p he 32 v hv

/-- Strings of a point's length that stand for one point are one string. -/
theorem sealPoint_unique {v : BitVec (8 * n)} (he : IsItem e p) (he' : IsItem e' p')
    (hs : h.m_seal[i]? = some e) (hs' : h'.m_seal[i]? = some e') (hlen : isString e n = true)
    (hlen' : isString e' n = true) (hv : h.sealPoint n i = .ok v) (hv' : h'.sealPoint n i = .ok v) :
    e = e' := by
  rw [sealPoint_item he hs hlen hv, sealPoint_item he' hs' hlen' hv']

end

end BlockHeader

namespace Ethash

/-! ## What a checked seal says -/

section

variable {c : Crypto} {p : ChainOperationParams} {br : BalanceRetriever} {h h' parent : BlockHeader}

/-- The values of a seal that is accepted on a parent. -/
structure SealValues (c : Crypto) (h parent : BlockHeader) (pub : G2) (stakeSig blockSig : G1) (modifier : H256) :
    Prop where
  publicKey : publicKey h = .ok pub
  stakeSignature : stakeSignature h = .ok stakeSig
  blockSignature : blockSignature h = .ok blockSig
  parentModifier : stakeModifier parent = .ok modifier
  stakeModifier : stakeModifier h = .ok (computeChildStakeModifier c modifier pub stakeSig)
  stake : c.verify pub stakeSig (computeStakeMessage c modifier h.timestamp) = true
  block : c.verify pub blockSig (h.hash c .WithoutSeal) = true

theorem sealValues_of_verifySeal (hset : parent.isSet = true)
    (hv : verifySeal c h parent br = .ok true) : ∃ pub stakeSig blockSig modifier,
      SealValues c h parent pub stakeSig blockSig modifier := by
  unfold verifySeal at hv
  rw [bind_eq_ok] at hv
  obtain ⟨stakeSig, hstake, hv⟩ := hv
  rw [bind_eq_ok] at hv
  obtain ⟨pub, hpub, hv⟩ := hv
  rw [bind_eq_ok] at hv
  obtain ⟨blockSig, hblock, hv⟩ := hv
  simp only [hset, if_true] at hv
  split at hv
  · cases hv
  rw [bind_eq_ok] at hv
  obtain ⟨ok, hok, hv⟩ := hv
  have hand : (ok && c.verify pub blockSig (h.hash c .WithoutSeal)) = true := Except.ok.inj hv
  rw [Bool.and_eq_true] at hand
  unfold verifyStake at hok
  rw [bind_eq_ok] at hok
  obtain ⟨balance, -, hok⟩ := hok
  rw [bind_eq_ok] at hok
  obtain ⟨modifier, hmodifier, hok⟩ := hok
  rw [bind_eq_ok] at hok
  obtain ⟨child, hchild, hok⟩ := hok
  have hall := Except.ok.inj hok
  rw [hand.1, Bool.and_eq_true, Bool.and_eq_true, decide_eq_true_iff, decide_eq_true_iff] at hall
  rw [hall.1.2] at hchild
  exact ⟨pub, stakeSig, blockSig, modifier, hpub, hstake, hblock, hmodifier, hchild, hall.2, hand.2⟩

theorem hash_withoutSeal_congr (hsame : h.same h' = true) (hmemo : h.m_hashWithout = 0)
    (hmemo' : h'.m_hashWithout = 0) : h.hash c .WithoutSeal = h'.hash c .WithoutSeal := by
  obtain ⟨h1, h2, h3, h4, h5, h6, h7, h8, h9, h10, h11, h12, h13⟩ := BlockHeader.same_iff.1 hsame
  unfold BlockHeader.hash
  simp only [hmemo, hmemo', if_true]
  unfold BlockHeader.streamRLP BlockHeader.streamRLPFields
  rw [h1, h2, h3, h4, h5, h6, h7, h8, h9, h10, h11, h12, h13]

/-- Where signatures are unique, the fields and the key leave one seal. -/
theorem SealValues.congr {pub pub' : G2} {stakeSig stakeSig' blockSig blockSig' : G1} {modifier modifier' : H256}
    (hu : ∀ k s s' m, c.verify k s m = true → c.verify k s' m = true → s = s')
    (hs : SealValues c h parent pub stakeSig blockSig modifier)
    (hs' : SealValues c h' parent pub' stakeSig' blockSig' modifier') (hsame : h.same h' = true)
    (hkey : Ethash.publicKey h = Ethash.publicKey h') (hmemo : h.m_hashWithout = 0)
    (hmemo' : h'.m_hashWithout = 0) :
    pub = pub' ∧ stakeSig = stakeSig' ∧ blockSig = blockSig' ∧ modifier = modifier' := by
  have hpub : pub = pub' := by
    have hkeys : (Except.ok pub : Except Exception G2) = .ok pub' := by
      calc Except.ok pub = Ethash.publicKey h := hs.publicKey.symm
        _ = Ethash.publicKey h' := hkey
        _ = .ok pub' := hs'.publicKey
    exact Except.ok.inj hkeys
  have hmodifier : modifier = modifier' := Except.ok.inj (hs.parentModifier.symm.trans hs'.parentModifier)
  have htime : h.timestamp = h'.timestamp := by
    obtain ⟨-, -, -, -, -, -, -, -, -, -, -, htime, -⟩ := BlockHeader.same_iff.1 hsame
    exact htime
  subst hpub hmodifier
  have hstake := hs'.stake
  have hblock := hs'.block
  rw [← htime] at hstake
  rw [← hash_withoutSeal_congr hsame hmemo hmemo'] at hblock
  exact ⟨rfl, hu _ _ _ _ hs.stake hstake, hu _ _ _ _ hs.block hblock, rfl⟩

/-- The bytes are read as a header, and it is accepted on the parent under `CheckEverything`. -/
structure Accepted (c : Crypto) (p : ChainOperationParams) (br : BalanceRetriever) (parent : BlockHeader)
    (b : Bytes) (h : BlockHeader) : Prop where
  read : BlockHeader.ofBytes c b 0 = .ok h
  verified : ∃ block, verify c p .CheckEverything h br parent block = .ok ()

/-- A seal is checked if the header names a parent. -/
theorem Accepted.verifySeal {b : Bytes} (ha : Accepted c p br parent b h) (hne : h.parentHash ≠ 0) :
    Ethash.verifySeal c h parent br = .ok true := by
  obtain ⟨block, hv⟩ := ha.verified
  exact (verify_eq_ok.1 hv).2.2.2 (decide_eq_true ⟨.inl rfl, hne⟩)

/-- The header's items agree wherever verification fixes them. -/
theorem determined_unique {l l' : List Bytes} {e e' : Bytes} {k : ℕ}
    (hu : ∀ k s s' m, c.verify k s m = true → c.verify k s' m = true → s = s') (hset : parent.isSet = true)
    (hl : Items l) (hl' : Items l') (hr : h.ReadFrom l) (hr' : h'.ReadFrom l') (hsame : h.same h' = true)
    (hkey : publicKey h = publicKey h')
    (hseal : h.parentHash ≠ 0 → Ethash.verifySeal c h parent br = .ok true)
    (hseal' : h'.parentHash ≠ 0 → Ethash.verifySeal c h' parent br = .ok true)
    (he : (l.drop 12)[k]? = some e) (he' : (l'.drop 12)[k]? = some e')
    (hd : BlockHeader.determined (h.parentHash ≠ 0) k e = true)
    (hd' : BlockHeader.determined (h.parentHash ≠ 0) k e' = true) : e = e' := by
  rw [List.getElem?_drop] at he he'
  obtain ⟨q, hq⟩ := hl e (List.mem_of_getElem? he)
  obtain ⟨q', hq'⟩ := hl' e' (List.mem_of_getElem? he')
  obtain ⟨hparent, -, -, -, -, -, -, -, -, -, -, -, hextra⟩ := BlockHeader.same_iff.1 hsame
  rcases Nat.eq_zero_or_pos k with rfl | hk
  · -- the extra data
    rw [hr.extraData e he hd, hr'.extraData e' he' hd', hextra]
  -- a field of the seal, which was checked
  have hchecked : h.parentHash ≠ 0 := by
    by_contra h0
    unfold BlockHeader.determined at hd
    rw [decide_eq_false (not_not.2 h0)] at hd
    split at hd
    · omega
    all_goals simp at hd
  obtain ⟨pub, stakeSig, blockSig, modifier, hs⟩ := sealValues_of_verifySeal hset (hseal hchecked)
  obtain ⟨pub', stakeSig', blockSig', modifier', hs'⟩ :=
    sealValues_of_verifySeal hset (hseal' (by rw [← hparent]; exact hchecked))
  obtain ⟨rfl, rfl, rfl, rfl⟩ := hs.congr hu hs' hsame hkey hr.m_hashWithout hr'.m_hashWithout
  have hm : h.m_seal[k - 1]? = some e := by
    rw [hr.m_seal, List.getElem?_drop, show 13 + (k - 1) = 12 + k by omega]
    exact he
  have hm' : h'.m_seal[k - 1]? = some e' := by
    rw [hr'.m_seal, List.getElem?_drop, show 13 + (k - 1) = 12 + k by omega]
    exact he'
  unfold BlockHeader.determined at hd hd'
  rw [decide_eq_true hchecked] at hd hd'
  match k, hk with
  | 1, _ => exact BlockHeader.sealPoint_unique hq hq' hm hm' hd hd' hs.publicKey hs'.publicKey
  | 2, _ =>
    rw [BlockHeader.sealHash_item hq hm hs.stakeModifier, BlockHeader.sealHash_item hq' hm' hs'.stakeModifier]
  | 3, _ => exact BlockHeader.sealPoint_unique hq hq' hm hm' hd hd' hs.stakeSignature hs'.stakeSignature
  | 4, _ => exact BlockHeader.sealPoint_unique hq hq' hm hm' hd hd' hs.blockSignature hs'.blockSignature
  | k + 5, _ => cases hd

/-- The basic fields are written in one way only. -/
theorem take_unique {l l' : List Bytes} (hr : h.ReadFrom l) (hr' : h'.ReadFrom l') (hsame : h.same h' = true) :
    l.take 12 = l'.take 12 := by
  obtain ⟨h1, h2, h3, h4, h5, h6, h7, h8, h9, h10, h11, h12, -⟩ := BlockHeader.same_iff.1 hsame
  obtain ⟨number, timestamp, hn, ht, hnumber, htimestamp, htake⟩ := hr.fields
  obtain ⟨number', timestamp', hn', ht', hnumber', htimestamp', htake'⟩ := hr'.fields
  have hnum : number = number' := by
    refine BlockHeader.toInt64_inj hn hn' ?_
    calc _ = h.number := hnumber.symm
      _ = h'.number := h9
      _ = _ := hnumber'
  have htim : timestamp = timestamp' := by
    refine BlockHeader.toInt64_inj ht ht' ?_
    calc _ = h.timestamp := htimestamp.symm
      _ = h'.timestamp := h12
      _ = _ := htimestamp'
  rw [htake, htake', hnum, htim]
  unfold BlockHeader.wireFields
  rw [h1, h2, h3, h4, h5, h6, h7, h8, h10, h11]
  rfl

/-- Two headers with the same unsealed fields and the same public key that are accepted on one parent are
the same bytes if and only if they agree in what verification does not look at. -/
theorem seal_unique_iff (hu : ∀ k s s' m, c.verify k s m = true → c.verify k s' m = true → s = s')
    (hset : parent.isSet = true) {b b' : Bytes} (ha : Accepted c p br parent b h)
    (ha' : Accepted c p br parent b' h') (hsame : h.same h' = true) (hkey : publicKey h = publicKey h') :
    b = b' ↔ BlockHeader.slack (h.parentHash ≠ 0) b = BlockHeader.slack (h.parentHash ≠ 0) b' := by
  refine ⟨fun heq => by rw [heq], fun hslack => ?_⟩
  unfold BlockHeader.slack at hslack
  split at hslack <;> rename_i hlist
  · split at hslack <;> rename_i hlist'
    · obtain ⟨l, rfl, hl, hmax, hr⟩ := BlockHeader.ofBytes_items ha.read hlist
      obtain ⟨l', rfl, hl', hmax', hr'⟩ := BlockHeader.ofBytes_items ha'.read hlist'
      rw [BlockHeader.items_encodeList hl hmax, BlockHeader.items_encodeList hl' hmax', Prod.mk.injEq] at hslack
      have hdrop : l.drop 12 = l'.drop 12 := by
        apply List.ext_getElem?
        intro k
        have hk := congrArg (fun x => x[k]?) hslack.2
        simp only [List.getElem?_mapIdx] at hk
        cases he : (l.drop 12)[k]? with
        | none =>
          rw [he, Option.map_none, eq_comm, Option.map_eq_none_iff] at hk
          rw [hk]
        | some e =>
          cases he' : (l'.drop 12)[k]? with
          | none =>
            rw [he, he'] at hk
            cases hk
          | some e' =>
            rw [he, he', Option.map_some, Option.map_some, Option.some.injEq] at hk
            congr 1
            split at hk <;> rename_i hd
            · split at hk <;> rename_i hd'
              · exact determined_unique hu hset hl hl' hr hr' hsame hkey ha.verifySeal ha'.verifySeal he he' hd hd'
              · cases hk
            · split at hk
              · cases hk
              · exact Option.some.inj hk
      rw [← List.take_append_drop 12 l, ← List.take_append_drop 12 l', hdrop, take_unique hr hr' hsame]
    · cases hslack
  · split at hslack
    · cases hslack
    · simp only [Prod.mk.injEq, List.cons.injEq, Option.some.injEq, and_true, true_and] at hslack
      exact hslack

end

/-! ## A header with two encodings -/

/-- The checks but those of the seal do not look at it. -/
theorem verify_reseal (c : Crypto) (s : Strictness) (h parent : BlockHeader) (block : Option BlockRLP)
    (m_seal : List Bytes) (m_hash : H256) :
    ({ h with m_seal, m_hash } : BlockHeader).verify c s parent block = h.verify c s parent block := rfl

theorem verifyFields_reseal (p : ChainOperationParams) (h : BlockHeader) (m_seal : List Bytes) (m_hash : H256) :
    verifyFields p { h with m_seal, m_hash } = verifyFields p h := rfl

theorem verifyAgainstParent_reseal (p : ChainOperationParams) (h parent : BlockHeader)
    (m_seal : List Bytes) (m_hash : H256) :
    verifyAgainstParent p { h with m_seal, m_hash } parent = verifyAgainstParent p h parent := rfl

theorem hash_reseal (c : Crypto) (h : BlockHeader) (m_seal : List Bytes) (m_hash : H256) :
    ({ h with m_seal, m_hash } : BlockHeader).hash c .WithoutSeal = h.hash c .WithoutSeal := rfl

/-- The fields of the seal of the development network's first block, minted with the key of the secret 1.
-/
def mintedSeal : List (Σ n, BitVec (8 * n)) :=
  [⟨96, 1⟩, ⟨32, 1⟩, ⟨48, 1⟩, ⟨48, 0x84400000000183100000800180⟩]

/-- The block's header; more items may follow the seal. -/
def minted (extra : List Bytes) : BlockHeader :=
  { Devnet.header [⟨2, false, 1, 0⟩] with
    difficulty := 0x40000000
    m_seal := mintedSeal.map (fun v => RLPStream.encodeBytes (asBytes v.1 v.2)) ++ extra }

/-- Its encoding. -/
def mintedBytes (extra : List Bytes) : Bytes := (minted extra).wire 1 1

/-- The header that is read from it. -/
def mintedRead (extra : List Bytes) : BlockHeader :=
  (minted extra).readBack 1 1 (Devnet.signedWorld.crypto.sha3 (mintedBytes extra))

/-- Everybody has an aged balance of one. -/
def AcceptedMinted (b : Bytes) (h : BlockHeader) : Prop :=
  Accepted Devnet.signedWorld.crypto Devnet.params (fun _ _ => .ok 1) (Devnet.header []) b h

theorem mintedSeal_le : ∀ v ∈ mintedSeal, v.1 ≤ 96 := by decide

/-- Any point and hash of the header is shorter than 265 bytes in its encoding. -/
theorem length_minted {extra : List Bytes} (hextra : ∀ e ∈ extra, e.length ≤ 265) :
    ((minted extra).wireFields 1 1 ++ (minted extra).m_seal).flatten.length ≤
      (17 + extra.length) * 265 := by
  have hlen : ((minted extra).wireFields 1 1 ++ (minted extra).m_seal).length = 17 + extra.length := by
    simp only [BlockHeader.wireFields, minted, mintedSeal, List.length_append, List.length_map,
      List.length_cons, List.length_nil]
    omega
  have hfields : ∀ e ∈ (minted extra).wireFields 1 1, e.length ≤ 265 := by
    unfold BlockHeader.wireFields
    simp only [List.forall_mem_cons]
    refine ⟨?_, ?_, ?_, ?_, ?_, ?_, ?_, Devnet.length_encodeInt_le (BitVec.isLt _),
      Devnet.length_encodeInt_le (by norm_num), Devnet.length_encodeInt_le (BitVec.isLt _),
      Devnet.length_encodeInt_le (BitVec.isLt _), Devnet.length_encodeInt_le (by norm_num), ?_,
      by simp⟩
    case refine_8 => exact (show (RLPStream.encodeBytes []).length ≤ 265 by decide)
    all_goals exact Devnet.length_encodeBytes_asBytes (by decide) _
  rw [← hlen]
  apply Devnet.length_flatten_le
  intro e he
  rcases List.mem_append.1 he with he | he
  · exact hfields e he
  · rcases List.mem_append.1 he with he | he
    · obtain ⟨v, hv, rfl⟩ := List.mem_map.1 he
      exact Devnet.length_encodeBytes_asBytes ((mintedSeal_le v hv).trans (by decide)) _
    · exact hextra e he

theorem ofBytes_mintedBytes {extra : List Bytes} (hextra : Items extra)
    (hlen : ∀ e ∈ extra, e.length ≤ 265) (hmax : extra.length ≤ 1) :
    BlockHeader.ofBytes Devnet.signedWorld.crypto (mintedBytes extra) 0 = .ok (mintedRead extra) := by
  have hE : (minted extra).Encodable 1 1 :=
    { items_seal := by
        intro e he
        rcases List.mem_append.1 he with he | he
        · obtain ⟨v, hv, rfl⟩ := List.mem_map.1 he
          exact isItem_hash ((mintedSeal_le v hv).trans_lt (by decide)) _
        · exact hextra e he
      number_lt := by norm_num
      timestamp_lt := by norm_num
      size := by
        have hsize := length_minted hlen
        unfold maxPayload
        omega }
  exact BlockHeader.ofBytes_wire hE _

/-- The seal's fields are read back whatever follows them. -/
theorem sealPoint_mintedRead (extra : List Bytes) {i n : ℕ} {v : BitVec (8 * n)} (hn : n < maxPayload)
    (hv : mintedSeal[i]? = some ⟨n, v⟩) : (mintedRead extra).sealPoint n i = .ok v := by
  refine BlockHeader.sealPoint_eq hn ?_
  show (mintedSeal.map (fun v => RLPStream.encodeBytes (asBytes v.1 v.2)) ++ extra)[i]? = _
  rw [List.getElem?_append_left, List.getElem?_map, hv]
  · rfl
  · rw [List.length_map]
    exact (List.getElem?_eq_some_iff.1 hv).1

/-- What follows the seal shows in the seal and in the hash only. -/
theorem mintedRead_eq (extra : List Bytes) :
    mintedRead extra = { mintedRead [] with
      m_seal := (minted extra).m_seal
      m_hash := Devnet.signedWorld.crypto.sha3 (mintedBytes extra) } := by
  unfold mintedRead BlockHeader.readBack
  generalize Devnet.signedWorld.crypto.sha3 (mintedBytes extra) = x
  generalize Devnet.signedWorld.crypto.sha3 (mintedBytes []) = y
  rfl

theorem hash_mintedRead (extra : List Bytes) :
    (mintedRead extra).hash Devnet.signedWorld.crypto .WithoutSeal = 0x84400000000183100000800180 := by
  rw [mintedRead_eq, hash_reseal]
  decide +kernel

theorem publicKey_mintedRead (extra : List Bytes) : publicKey (mintedRead extra) = .ok 1 :=
  sealPoint_mintedRead extra (by decide) rfl

set_option maxRecDepth 100000 in
theorem verifySeal_mintedRead (extra : List Bytes) :
    Ethash.verifySeal Devnet.signedWorld.crypto (mintedRead extra) (Devnet.header []) (fun _ _ => .ok 1) =
      .ok true := by
  have hstake : stakeSignature (mintedRead extra) = .ok 1 := sealPoint_mintedRead extra (by decide) rfl
  have hblock : blockSignature (mintedRead extra) = .ok 0x84400000000183100000800180 :=
    sealPoint_mintedRead extra (by decide) rfl
  have hmodifier : stakeModifier (mintedRead extra) = .ok 1 := BlockHeader.sealHash_eq rfl
  have hparent : stakeModifier (Devnet.header []) = .ok 0 := Devnet.stakeModifier_header []
  have hmeets : computeStakeSignatureHash Devnet.signedWorld.crypto 1 ≤
      boundary (mintedRead []).difficulty 1 := by decide
  have hchild : 1 = computeChildStakeModifier Devnet.signedWorld.crypto 0 1 1 := by decide
  have hmessage : Devnet.signedWorld.crypto.verify 1 1
      (computeStakeMessage Devnet.signedWorld.crypto 0 (mintedRead []).timestamp) = true := by decide
  unfold Ethash.verifySeal verifyStake getAgedBalance
  rw [hstake, ok_bind, publicKey_mintedRead, ok_bind, hblock, ok_bind, hmodifier, hparent, hash_mintedRead,
    mintedRead_eq]
  dsimp only
  rw [if_pos (by decide), if_neg (by decide), ok_bind, ok_bind, ok_bind, decide_eq_true hmeets,
    decide_eq_true hchild, hmessage]
  decide

theorem accepted_minted {extra : List Bytes} (hextra : Items extra) (hlen : ∀ e ∈ extra, e.length ≤ 265)
    (hmax : extra.length ≤ 1) : AcceptedMinted (mintedBytes extra) (mintedRead extra) where
  read := ofBytes_mintedBytes hextra hlen hmax
  verified := by
    refine ⟨none, verify_eq_ok.2 ⟨?_, fun _ => ?_, fun _ => ?_, fun _ => verifySeal_mintedRead extra⟩⟩
    · rw [mintedRead_eq, verify_reseal]
      decide
    · rw [mintedRead_eq, verifyFields_reseal]
      decide
    · rw [mintedRead_eq, verifyAgainstParent_reseal]
      decide

theorem verify_unique_signedWorld (k : G2) (s s' : G1) (m : H256)
    (h : Devnet.signedWorld.crypto.verify k s m = true)
    (h' : Devnet.signedWorld.crypto.verify k s' m = true) : s = s' :=
  (of_decide_eq_true h).trans (of_decide_eq_true h').symm

theorem items_singleton : Items [[0x80]] := by
  intro e he
  rw [List.mem_singleton.1 he]
  exact ⟨[], @isItem_encodeBytes [] (by decide)⟩

theorem accepted_minted_nil : AcceptedMinted (mintedBytes []) (mintedRead []) :=
  accepted_minted (fun e he => (by cases he)) (fun e he => (by cases he)) (by decide)

theorem accepted_minted_singleton : AcceptedMinted (mintedBytes [[0x80]]) (mintedRead [[0x80]]) :=
  accepted_minted items_singleton (by decide) (by decide)

theorem mintedBytes_ne : mintedBytes [] ≠ mintedBytes [[0x80]] := by
  intro h
  have hread := accepted_minted_nil.read
  rw [h, accepted_minted_singleton.read, Except.ok.injEq] at hread
  exact absurd (congrArg (fun x => x.m_seal.length) hread) (by decide)

/-- Where they differ is behind the seal. -/
theorem seal_unique_minted : BlockHeader.slack ((mintedRead []).parentHash ≠ 0) (mintedBytes []) ≠
    BlockHeader.slack ((mintedRead []).parentHash ≠ 0) (mintedBytes [[0x80]]) := by
  have hsame : (mintedRead []).same (mintedRead [[0x80]]) = true := by
    rw [mintedRead_eq [[0x80]]]
    decide +kernel
  have hkey : publicKey (mintedRead []) = publicKey (mintedRead [[0x80]]) :=
    (publicKey_mintedRead []).trans (publicKey_mintedRead [[0x80]]).symm
  intro hslack
  exact mintedBytes_ne ((seal_unique_iff verify_unique_signedWorld (by decide) accepted_minted_nil
    accepted_minted_singleton hsame hkey).2 hslack)

/-- An item behind the seal gives the block other bytes and another hash, and nothing else changes. -/
theorem seal_not_unique :
    (∀ k s s' m, Devnet.signedWorld.crypto.verify k s m = true →
      Devnet.signedWorld.crypto.verify k s' m = true → s = s') ∧ (Devnet.header []).isSet = true ∧
    AcceptedMinted (mintedBytes []) (mintedRead []) ∧
    AcceptedMinted (mintedBytes [[0x80]]) (mintedRead [[0x80]]) ∧
    (mintedRead []).same (mintedRead [[0x80]]) = true ∧
    publicKey (mintedRead []) = publicKey (mintedRead [[0x80]]) ∧
    mintedBytes [] ≠ mintedBytes [[0x80]] := by
  refine ⟨verify_unique_signedWorld, by decide, accepted_minted_nil, accepted_minted_singleton, ?_,
    (publicKey_mintedRead []).trans (publicKey_mintedRead [[0x80]]).symm, mintedBytes_ne⟩
  rw [mintedRead_eq [[0x80]]]
  decide +kernel

end Ethash

end Petrachor
