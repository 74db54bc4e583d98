import Petrachor.RLPCanon

/-!
# Items that were read

Whatever a strict reader accepts was written: an item it measures is one of its own, the payload of a list
falls into such items, and a conversion that does not throw says what the item is the encoding of.
-/

namespace Petrachor

/-! ## An item at the front of a string -/

section

variable {b e d p : Bytes} {l n : ℕ}

/-- An item that its own prefix measures is recognised in front of anything. -/
theorem isItem_of_length (hne : e ≠ []) (h : (RLP.mk e).length = .ok l)
    (hsize : (RLP.mk e).payloadOffset + l = e.length) : IsItem e (e.drop (RLP.mk e).payloadOffset) := by
  have hlen : (e.drop (RLP.mk e).payloadOffset).length = l := by
    rw [List.length_drop]
    omega
  refine ⟨hne, fun rest => ?_, fun rest => ?_, ?_⟩
  · rw [hlen]
    exact length_append hne h rest
  · rw [hlen, payloadOffset_append hne]
    exact hsize
  · rw [hlen, ← hsize, Nat.add_sub_cancel]

theorem longLength_take {lengthSize minimum : ℕ} (h : RLP.longLength b lengthSize minimum = .ok l)
    (hpos : 0 < lengthSize) (hn : 1 + lengthSize ≤ n) (hle : n ≤ b.length) :
    RLP.longLength (b.take n) lengthSize minimum = .ok l := by
  obtain ⟨hlen, hlead, hl, hm, hmax⟩ := longLength_eq_ok h
  have hn' : (b.take n).length = n := List.length_take_of_le hle
  have hbyte : byteAt (b.take n) 1 = byteAt b 1 := by
    have happ := @byteAt_append_left (b.take n) (b.drop n) 1 (by omega)
    rw [List.take_append_drop] at happ
    exact happ.symm
  have htake : ((b.take n).drop 1).take lengthSize = (b.drop 1).take lengthSize := by
    rw [List.drop_take, List.take_take, min_eq_left (by omega)]
  unfold RLP.longLength
  rw [if_neg (by omega), hbyte, if_neg hlead, htake, ← hl, if_neg (by omega),
    if_neg (by unfold maxPayload at hmax; omega)]

/-- What measures an item stands in the item. -/
theorem length_take (hne : d ≠ []) (h : (RLP.mk d).length = .ok l)
    (hn : (RLP.mk d).payloadOffset + l = n) (hle : n ≤ d.length) : (RLP.mk (d.take n)).length = .ok l := by
  obtain ⟨h80, hc0, hb7, hf7, -, -⟩ := rlp_constants
  obtain ⟨x, t, rfl⟩ := List.exists_cons_of_ne_nil hne
  have hpos : 0 < n := (actualSize_pos hne (actualSize_eq hne h)).trans_eq hn
  obtain ⟨k, rfl⟩ : ∃ k, n = k + 1 := ⟨n - 1, by omega⟩
  have hoff := payloadOffset_cons x t
  unfold RLP.length at h ⊢
  rw [isNull_cons, if_neg (by simp), unit_bind_eq_ok] at h
  obtain ⟨hgood, h⟩ := h
  rw [List.take_succ_cons] at *
  have htake : x :: t.take k = (x :: t).take (k + 1) := List.take_succ_cons.symm
  simp only [byteAt_cons_zero] at h
  have hgood' : (RLP.mk (x :: t.take k)).requireGood = .ok () := by
    apply requireGood_cons
    intro hx
    -- a prefix `0x81` announces one byte, which is in the item
    rw [if_neg (by omega), if_pos (by omega), Except.ok.injEq] at h
    rw [if_neg (by omega), if_neg (by omega), if_neg (by omega)] at hoff
    obtain rfl : k = 1 := by omega
    unfold RLP.requireGood at hgood
    rw [isNull_cons, if_neg (by simp), byteAt_cons_zero, if_neg (by omega)] at hgood
    split at hgood
    · cases hgood
    · rename_i hlen
      split at hgood
      · cases hgood
      · rename_i hbyte
        rw [byteAt_cons_succ] at hbyte
        rw [List.length_cons] at hlen
        have happ := @byteAt_append_left (t.take 1) (t.drop 1) 0 (by rw [List.length_take]; omega)
        rw [List.take_append_drop] at happ
        omega
  rw [isNull_cons, if_neg (by simp), hgood', ok_bind]
  simp only [byteAt_cons_zero]
  split at h
  · rw [if_pos ‹_›, h]
  rw [if_neg ‹_›]
  split at h
  · rw [if_pos ‹_›, h]
  rw [if_neg ‹_›]
  split at h
  · rw [if_pos ‹_›, htake]
    rw [if_neg (by omega), if_pos (by omega)] at hoff
    exact longLength_take h (by omega) (by omega) hle
  rw [if_neg ‹_›]
  split at h
  · rw [if_pos ‹_›, h]
  · rw [if_neg ‹_›, htake]
    rw [if_neg (by omega), if_neg (by omega), if_pos (by omega)] at hoff
    exact longLength_take h (by omega) (by omega) hle

theorem length_of_actualSize (hne : e ≠ []) (h : (RLP.mk e).actualSize = .ok n) :
    ∃ l, (RLP.mk e).length = .ok l ∧ (RLP.mk e).payloadOffset + l = n := by
  cases hl : (RLP.mk e).length with
  | ok l =>
    rw [actualSize_eq hne hl, Except.ok.injEq] at h
    exact ⟨l, rfl, h⟩
  | error x =>
    -- only a single byte is measured without a look at its length, and that cannot fail
    obtain ⟨y, t, rfl⟩ := List.exists_cons_of_ne_nil hne
    unfold RLP.actualSize at h
    rw [isNull_cons, if_neg (by simp), isSingleByte_cons] at h
    split at h
    · rename_i hy
      rw [decide_eq_true_eq] at hy
      unfold RLP.length at hl
      rw [isNull_cons, if_neg (by simp), requireGood_cons (by omega), ok_bind] at hl
      simp only [byteAt_cons_zero] at hl
      rw [if_pos (by rw [rlp_constants.1]; omega)] at hl
      cases hl
    · rw [hl] at h
      cases h

theorem isItem_take (hne : d ≠ []) (h : RLP.sizeAsEncoded d = .ok n) : ∃ p, IsItem (d.take n) p := by
  obtain ⟨hsize, hle⟩ := sizeAsEncoded_eq_ok h
  obtain ⟨l, hl, hn⟩ := length_of_actualSize hne hsize
  have hpos := actualSize_pos hne hsize
  have hne' : d.take n ≠ [] := by
    intro h0
    have hlen := congrArg List.length h0
    rw [List.length_take_of_le hle, List.length_nil] at hlen
    omega
  have hoff := payloadOffset_append hne' (d.drop n)
  rw [List.take_append_drop] at hoff
  refine ⟨_, isItem_of_length hne' (length_take hne hl hn hle) ?_⟩
  rw [← hoff, hn, List.length_take_of_le hle]

/-- The payload of a list that is counted falls into items. -/
theorem items_of_split : ∀ {fuel : ℕ} {d : Bytes} {items : List Bytes},
    RLP.split fuel d = .ok items → Items items ∧ items.flatten = d
  | _, [], items, h => by
    rw [RLP.split] at h
    cases h
    exact ⟨fun e he => (by cases he), rfl⟩
  | 0, _ :: _, items, h => by
    rw [RLP.split] at h
    cases h
  | fuel + 1, x :: t, items, h => by
    rw [RLP.split.eq_3 _ _ (by simp), bind_eq_ok] at h
    obtain ⟨n, hn, h⟩ := h
    rw [bind_eq_ok] at h
    obtain ⟨rest, hrest, h⟩ := h
    cases h
    obtain ⟨hitems, hflat⟩ := items_of_split hrest
    constructor
    · intro e he
      rcases List.mem_cons.1 he with rfl | he
      · exact isItem_take (List.cons_ne_nil x t) hn
      · exact hitems e he
    · rw [List.flatten_cons, hflat, List.take_append_drop]

/-- An item, by what its first byte says it is. -/
theorem IsItem.eq_encode (h : IsItem e p) : p.length < maxPayload ∧
    if (RLP.mk e).isList then e = RLPStream.lengthPrefix p.length c_rlpListStart c_rlpListIndLenZero ++ p
    else e = RLPStream.encodeBytes p := by
  have hl := h.length []
  have hoff := h.offset []
  rw [List.append_nil] at hl hoff
  obtain ⟨hpay, hcanon⟩ := canonical_item h.ne_nil hl hoff
  rw [h.payload_eq, Except.ok.injEq] at hpay
  rw [← hpay] at hcanon
  exact ⟨length_lt_maxPayload hl, hcanon⟩

theorem IsItem.eq_encodeBytes (h : IsItem e p) (hd : (RLP.mk e).isData = true) :
    e = RLPStream.encodeBytes p := by
  have hcanon := h.eq_encode.2
  rwa [not_isList_of_isData hd, if_neg (by simp)] at hcanon

/-- A list that is counted is the list of its items. -/
theorem encodeList_of_itemCount {r : RLP} (h : RLP.ofBytes b RLP.VeryStrict = .ok r)
    (hlist : r.isList = true) (hn : r.itemCount = .ok n) :
    ∃ items, r = ⟨RLPStream.encodeList items⟩ ∧ b = RLPStream.encodeList items ∧ Items items ∧
      items.flatten.length < maxPayload ∧ items.length = n := by
  obtain ⟨rfl, hsize⟩ := ofBytes_veryStrict.1 h
  have hne : b ≠ [] := by
    rintro rfl
    cases hlist
  obtain ⟨l, hl, hoff⟩ := length_of_actualSize hne hsize
  have hitem := isItem_of_length hne hl hoff
  unfold RLP.itemCount at hn
  rw [if_pos hlist, hitem.payload_eq, ok_bind, bind_eq_ok] at hn
  obtain ⟨items, hsplit, hcount⟩ := hn
  obtain ⟨hitems, hflat⟩ := items_of_split hsplit
  obtain ⟨hmax, hcanon⟩ := hitem.eq_encode
  rw [if_pos hlist, ← hflat] at hcanon
  rw [← hflat] at hmax
  exact ⟨items, congrArg RLP.mk hcanon, hcanon, hitems, hmax, Except.ok.inj hcount⟩

end

/-! ## Conversions -/

section

variable {e p : Bytes} (h : IsItem e p)

include h

theorem IsItem.requireGood_eq : (RLP.mk e).requireGood = .ok () := by
  have hgood := h.requireGood []
  rwa [List.append_nil] at hgood

theorem IsItem.isNull_eq : (RLP.mk e).isNull = false := by
  have hnull := h.not_isNull []
  rwa [List.append_nil] at hnull

/-- An integer has no leading zero. -/
theorem IsItem.isInt_eq (hd : (RLP.mk e).isData = true) (hi : (RLP.mk e).isInt = .ok true) :
    p = [] ∨ byteAt p 0 ≠ 0 := by
  obtain ⟨h80, hc0, hb7, -⟩ := rlp_constants
  have hmax := h.eq_encode.1
  unfold RLP.isInt at hi
  rw [h.isNull_eq, if_neg (by simp), h.requireGood_eq, ok_bind] at hi
  rw [h.eq_encodeBytes hd] at hi
  unfold RLPStream.encodeBytes at hi
  split at hi
  · rename_i hp
    simp only [if_pos hp.2, Except.ok.injEq, decide_eq_true_eq] at hi
    exact .inr hi
  · rcases List.eq_nil_or_concat p with rfl | ⟨_, _, hp⟩
    · exact .inl rfl
    have hlen : p.length ≠ 0 := by
      rw [hp, List.concat_eq_append, List.length_append, List.length_singleton]
      omega
    right
    rw [lengthPrefix_append] at hi
    split at hi
    · simp only [byteAt_cons_zero, byteAt_cons_succ] at hi
      rw [toNat_ofNat_of_lt (by omega), if_neg (by omega), if_neg (by omega), if_pos (by omega),
        if_neg (by rw [List.length_cons]; omega), Except.ok.injEq, decide_eq_true_eq] at hi
      exact hi
    · have h8 : bytesRequired p.length ≤ 8 := bytesRequired_le (by
        unfold maxPayload at hmax
        omega)
      have hpos : 1 ≤ bytesRequired p.length := by
        unfold bytesRequired
        rw [if_neg hlen]
        omega
      have hpre := length_toBigEndian (bytesRequired p.length) p.length
      have hidx : 1 + (c_rlpDataIndLenZero + bytesRequired p.length) - c_rlpDataIndLenZero =
          bytesRequired p.length + 1 := by omega
      have hbyte : byteAt (toBigEndian (bytesRequired p.length) p.length ++ p)
          (bytesRequired p.length) = byteAt p 0 := by
        unfold byteAt
        rw [List.getD_append_right _ _ _ _ hpre.le, hpre, Nat.sub_self]
      simp only [byteAt_cons_zero] at hi
      rw [toNat_ofNat_of_lt (by omega), if_neg (by omega), if_neg (by omega), if_neg (by omega),
        if_pos (by omega), hidx, byteAt_cons_succ, hbyte, List.length_cons, List.length_append, hpre,
        if_neg (by omega), Except.ok.injEq, decide_eq_true_eq] at hi
      exact hi

/-- An integer that is read was written. -/
theorem IsItem.toInt_eq {size v : ℕ} {s : RLP.Strictness} (hcanon : RLP.flag s RLP.AllowNonCanon = false)
    (hthrow : RLP.flag s RLP.ThrowOnFail = true) (hbig : RLP.flag s RLP.FailIfTooBig = true)
    (hv : (RLP.mk e).toInt size s = .ok v) : e = RLPStream.encodeInt v ∧ v < 256 ^ size := by
  unfold RLP.toInt at hv
  rw [h.requireGood_eq, ok_bind, bind_eq_ok] at hv
  obtain ⟨i, hi, hv⟩ := hv
  rw [hcanon, hthrow, hbig, h.isNull_eq] at hv
  simp only [Bool.not_false, Bool.and_true, Bool.or_false, if_true] at hv
  split at hv
  · cases hv
  rename_i hcast
  rw [Bool.or_eq_true, not_or, Bool.not_eq_true', Bool.not_eq_false, Bool.not_eq_true] at hcast
  obtain ⟨rfl, hlist⟩ := hcast
  have hd : (RLP.mk e).isData = true := by
    have hnull := h.isNull_eq
    unfold RLP.isList at hlist
    unfold RLP.isData
    rw [hnull] at hlist ⊢
    simpa using hlist
  rw [h.payload_eq] at hv
  simp only [pure, Except.pure, ok_bind] at hv
  split at hv
  · cases hv
  · rename_i hsize
    cases hv
    rw [decide_eq_true_eq, not_lt] at hsize
    constructor
    · rw [encodeInt_eq]
      rcases h.isInt_eq hd hi with rfl | hlead
      · exact h.eq_encodeBytes hd
      · rw [bytesRequired_fromBigEndian hlead, toBigEndian_fromBigEndian]
        exact h.eq_encodeBytes hd
    · exact (fromBigEndian_lt p).trans_le (Nat.pow_le_pow_right (by decide) hsize)

theorem IsItem.toU256_eq {v : U256} {s : RLP.Strictness} (hcanon : RLP.flag s RLP.AllowNonCanon = false)
    (hthrow : RLP.flag s RLP.ThrowOnFail = true) (hbig : RLP.flag s RLP.FailIfTooBig = true)
    (hv : (RLP.mk e).toU256 s = .ok v) : e = RLPStream.encodeInt v.toNat := by
  unfold RLP.toU256 at hv
  rw [bind_eq_ok] at hv
  obtain ⟨n, hn, hv⟩ := hv
  cases hv
  obtain ⟨heq, hlt⟩ := h.toInt_eq hcanon hthrow hbig hn
  rw [BitVec.toNat_ofNat, Nat.mod_eq_of_lt (hlt.trans_eq (by norm_num))]
  exact heq

/-- A hash that is read strictly was written. -/
theorem IsItem.toHash_eq {n : ℕ} {v : BitVec (8 * n)} (hv : (RLP.mk e).toHash n RLP.VeryStrict = .ok v) :
    e = RLPStream.encodeBytes (asBytes n v) := by
  have hf : RLP.flag RLP.VeryStrict RLP.FailIfTooBig = true ∧
      RLP.flag RLP.VeryStrict RLP.FailIfTooSmall = true ∧
      RLP.flag RLP.VeryStrict RLP.ThrowOnFail = true := ⟨rfl, rfl, rfl⟩
  unfold RLP.toHash at hv
  rw [h.requireGood_eq, ok_bind, h.payload_eq, ok_bind, hf.1, hf.2.1, hf.2.2] at hv
  simp only [Bool.and_true, if_true] at hv
  split at hv
  · cases hv
  · rename_i hcast
    simp only [Bool.or_eq_true, Bool.not_eq_true', decide_eq_true_eq, not_or, not_lt,
      Bool.not_eq_false] at hcast
    obtain ⟨⟨hd, hle⟩, hge⟩ := hcast
    cases hv
    have hlen : p.length = n := le_antisymm hle hge
    have hbytes : asBytes n (BitVec.ofNat (8 * n) (fromBigEndian (p.take n))) = p := by
      have hlt := fromBigEndian_lt p
      have hback := toBigEndian_fromBigEndian p
      rw [hlen] at hlt hback
      rw [List.take_of_length_le hle, asBytes, BitVec.toNat_ofNat,
        show (2 : ℕ) ^ (8 * n) = 256 ^ n by rw [pow_mul]; rfl, Nat.mod_eq_of_lt hlt]
      exact hback
    rw [hbytes]
    exact h.eq_encodeBytes hd

/-- A string that is read strictly was written. -/
theorem IsItem.toBytes_eq {v : Bytes} {s : RLP.Strictness} (hthrow : RLP.flag s RLP.ThrowOnFail = true)
    (hv : (RLP.mk e).toBytes s = .ok v) : (RLP.mk e).isData = true ∧ v = p := by
  unfold RLP.toBytes at hv
  split at hv
  · rw [h.payload_eq, Except.ok.injEq] at hv
    exact ⟨‹_›, hv.symm⟩
  · cases hv

end

end Petrachor
