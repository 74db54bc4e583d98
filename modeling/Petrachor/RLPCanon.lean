import Petrachor.RLPTree

/-!
# What is read without an exception was written

A recursive reader that checks every item is total, and it accepts a byte string if and only if that
is the encoding of a tree: no item can be written in two ways.
-/

namespace Petrachor

/-! ## Big-endian numbers -/

theorem toBigEndian_fromBigEndian (b : Bytes) : toBigEndian b.length (fromBigEndian b) = b := by
  induction b using List.reverseRecOn with
  | nil => rfl
  | append_singleton b x ih =>
    have hx := x.toNat_lt
    have hdiv : (fromBigEndian b * 256 + x.toNat) / 256 = fromBigEndian b := by omega
    have hbyte : UInt8.ofNat (fromBigEndian b * 256 + x.toNat) = x := by
      apply UInt8.toNat_inj.1
      rw [UInt8.toNat_ofNat']
      omega
    rw [List.length_append, List.length_singleton, fromBigEndian_append_singleton, toBigEndian, hdiv,
      hbyte, ih]

theorem fromBigEndian_lt (b : Bytes) : fromBigEndian b < 256 ^ b.length := by
  induction b using List.reverseRecOn with
  | nil => simp [fromBigEndian]
  | append_singleton b x ih =>
    have hx := x.toNat_lt
    rw [fromBigEndian_append_singleton, List.length_append, List.length_singleton, pow_succ]
    omega

/-- A number without a leading zero needs all its bytes. -/
theorem bytesRequired_fromBigEndian {b : Bytes} (h : byteAt b 0 ≠ 0) :
    bytesRequired (fromBigEndian b) = b.length := by
  have hle : bytesRequired (fromBigEndian b) ≤ b.length := bytesRequired_le (fromBigEndian_lt b)
  apply le_antisymm hle
  by_contra hlt
  -- otherwise the most significant byte of as many bytes as there are is zero
  have hpos : 0 < b.length := by omega
  obtain ⟨n, hn⟩ : ∃ n, b.length = n + 1 := ⟨b.length - 1, by omega⟩
  have htop := byteAt_toBigEndian_zero n (fromBigEndian b)
  rw [← hn, toBigEndian_fromBigEndian] at htop
  have hsmall : fromBigEndian b < 256 ^ n := (lt_pow_bytesRequired _).trans_le
    (Nat.pow_le_pow_right (by decide) (by omega))
  rw [Nat.div_eq_of_lt hsmall] at htop
  exact h htop

/-! ## An item that is read whole -/

section

variable {e : Bytes} {l : ℕ}

theorem longLength_eq_ok {b : Bytes} {lengthSize minimum l : ℕ}
    (h : RLP.longLength b lengthSize minimum = .ok l) :
    lengthSize < b.length ∧ byteAt b 1 ≠ 0 ∧ l = fromBigEndian ((b.drop 1).take lengthSize) ∧
      minimum ≤ l ∧ l < maxPayload := by
  unfold RLP.longLength at h
  split at h
  · cases h
  split at h
  · cases h
  simp only at h
  split at h
  · cases h
  split at h
  · cases h
  · cases h
    exact ⟨by omega, ‹_›, rfl, by omega, by unfold maxPayload; omega⟩

/-- A length in long form is the one that would be written. -/
theorem long_canonical {x : UInt8} {t : Bytes} {base minimum : ℕ}
    (hx : base < x.toNat) (hlong : RLP.longLength (x :: t) (x.toNat - base) minimum = .ok l)
    (hmin : 56 ≤ minimum) (hsize : 1 + (x.toNat - base) + l = (x :: t).length) (start : ℕ) :
    ∃ p, p.length = l ∧ x :: t = RLPStream.lengthPrefix p.length start base ++ p ∧
      (x :: t).drop (1 + (x.toNat - base)) = p := by
  obtain ⟨hlen, hlead, hl, hm, -⟩ := longLength_eq_ok hlong
  rw [List.length_cons] at hsize hlen
  rw [List.drop_succ_cons, List.drop_zero] at hl
  set ls := x.toNat - base with hls
  have htake : (t.take ls).length = ls := List.length_take_of_le (by omega)
  have hdrop : (t.drop ls).length = l := by
    rw [List.length_drop]
    omega
  have hne : byteAt (t.take ls) 0 ≠ 0 := by
    rw [byteAt_cons_succ] at hlead
    rw [← List.take_append_drop ls t, byteAt_append_left (by omega)] at hlead
    exact hlead
  have hreq := bytesRequired_fromBigEndian hne
  rw [← hl, htake] at hreq
  refine ⟨t.drop ls, hdrop, ?_, by rw [add_comm, List.drop_succ_cons]⟩
  have hbytes : toBigEndian ls l = t.take ls := by
    have := toBigEndian_fromBigEndian (t.take ls)
    rwa [htake, ← hl] at this
  have hfirst : UInt8.ofNat (base + ls) = x := by
    apply UInt8.toNat_inj.1
    have := x.toNat_lt
    rw [toNat_ofNat_of_lt (by omega)]
    omega
  rw [lengthPrefix_append, hdrop, if_neg (by omega), hreq, hfirst, hbytes, List.take_append_drop]

theorem payloadOffset_cons (x : UInt8) (t : Bytes) :
    (RLP.mk (x :: t)).payloadOffset = if x.toNat < 0x80 then 0 else
      if 0xb7 < x.toNat ∧ x.toNat < 0xc0 then 1 + (x.toNat - 0xb7) else
        if 0xf7 < x.toNat then 1 + (x.toNat - 0xf7) else 1 := by
  obtain ⟨-, -, hb7, hf7, -⟩ := rlp_constants
  unfold RLP.payloadOffset RLP.lengthSize
  simp only [isSingleByte_cons, isData_cons, isList_cons, byteAt_cons_zero, hb7, hf7,
    decide_eq_true_eq, Bool.and_eq_true]
  split_ifs <;> omega

/-- A non-empty string that its own prefix measures is the encoding of its payload. -/
theorem canonical_item (hne : e ≠ []) (hl : (RLP.mk e).length = .ok l)
    (hsize : (RLP.mk e).payloadOffset + l = e.length) :
    (RLP.mk e).payload = .ok (e.drop (RLP.mk e).payloadOffset) ∧
      if (RLP.mk e).isList then
        e = RLPStream.lengthPrefix (e.drop (RLP.mk e).payloadOffset).length c_rlpListStart
          c_rlpListIndLenZero ++ e.drop (RLP.mk e).payloadOffset
      else e = RLPStream.encodeBytes (e.drop (RLP.mk e).payloadOffset) := by
  obtain ⟨h80, hc0, hb7, hf7, h56, h8⟩ := rlp_constants
  have hpay : (RLP.mk e).payload = .ok (e.drop (RLP.mk e).payloadOffset) := by
    unfold RLP.payload
    rw [hl, ok_bind, if_neg (by simp only; omega), cropped, if_pos (by simp only; omega),
      List.take_of_length_le (by rw [List.length_drop]; simp only; omega)]
  refine ⟨hpay, ?_⟩
  obtain ⟨x, t, rfl⟩ := List.exists_cons_of_ne_nil hne
  clear hpay hne
  have hx := x.toNat_lt
  have hoff := payloadOffset_cons x t
  unfold RLP.length at hl
  rw [isNull_cons, if_neg (by simp), unit_bind_eq_ok] at hl
  obtain ⟨hgood, hl⟩ := hl
  simp only [byteAt_cons_zero] at hl
  rw [List.length_cons] at hsize
  rw [isList_cons]
  generalize (RLP.mk (x :: t)).payloadOffset = k at *
  split at hl
  · -- a single byte
    rw [Except.ok.injEq] at hl
    rw [if_pos (by omega)] at hoff
    obtain rfl : t = [] := List.length_eq_zero_iff.1 (by omega)
    rw [if_neg (by rw [decide_eq_true_eq]; omega), hoff, List.drop_zero, RLPStream.encodeBytes,
      if_pos ⟨rfl, by rw [byteAt_cons_zero]; omega⟩]
  rename_i hx80
  rw [if_neg (by omega)] at hoff
  split at hl
  · -- a short string
    rw [Except.ok.injEq] at hl
    rw [if_neg (by omega), if_neg (by omega)] at hoff
    have hfirst : UInt8.ofNat (c_rlpDataImmLenStart + t.length) = x := by
      apply UInt8.toNat_inj.1
      rw [toNat_ofNat_of_lt (by omega)]
      omega
    rw [if_neg (by rw [decide_eq_true_eq]; omega), hoff, List.drop_succ_cons, List.drop_zero,
      RLPStream.encodeBytes, if_neg, lengthPrefix_append, if_pos (by omega), hfirst]
    rintro ⟨h1, hsmall⟩
    -- one byte below `0x80` does not come in two
    unfold RLP.requireGood at hgood
    rw [isNull_cons, if_neg (by simp), byteAt_cons_zero, if_neg (by omega),
      if_neg (by simp only [List.length_cons]; omega), byteAt_cons_succ, if_pos (by omega)] at hgood
    cases hgood
  rename_i hxb7
  split at hl
  · -- a long string
    rename_i hxc0
    rw [if_pos (by omega)] at hoff
    rw [hb7] at hl
    obtain ⟨p, hp, heq, hdrop⟩ := long_canonical (by omega) hl (by omega)
      (by rw [List.length_cons]; omega) c_rlpDataImmLenStart
    rw [if_neg (by rw [decide_eq_true_eq]; omega), hoff, hdrop, RLPStream.encodeBytes, if_neg]
    · rw [hb7]
      exact heq
    · have := (longLength_eq_ok hl).2.2.2.1
      omega
  rename_i hxc0
  rw [if_neg (by omega)] at hoff
  rw [if_pos (by rw [decide_eq_true_eq]; omega)]
  split at hl
  · -- a short list
    rw [Except.ok.injEq] at hl
    rw [if_neg (by omega)] at hoff
    have hfirst : UInt8.ofNat (c_rlpListStart + t.length) = x := by
      apply UInt8.toNat_inj.1
      rw [toNat_ofNat_of_lt (by omega)]
      omega
    rw [hoff, List.drop_succ_cons, List.drop_zero, lengthPrefix_append, if_pos (by omega), hfirst]
  · -- a long list
    rw [if_pos (by omega)] at hoff
    rw [hf7] at hl
    obtain ⟨p, hp, heq, hdrop⟩ := long_canonical (by omega) hl (by omega)
      (by rw [List.length_cons]; omega) c_rlpListStart
    rw [hoff, hdrop, hf7]
    exact heq

theorem length_lt_maxPayload (h : (RLP.mk e).length = .ok l) : l < maxPayload := by
  obtain ⟨h80, hc0, hb7, hf7, -, -⟩ := rlp_constants
  unfold RLP.length at h
  split at h
  · cases h
    decide
  · rw [unit_bind_eq_ok] at h
    obtain ⟨-, h⟩ := h
    simp only at h
    have hx : byteAt e 0 < 256 := (e.getD 0 0).toNat_lt
    have hmax : 256 < maxPayload := by decide
    split at h
    · rw [Except.ok.injEq] at h
      omega
    split at h
    · rw [Except.ok.injEq] at h
      omega
    split at h
    · exact (longLength_eq_ok h).2.2.2.2
    split at h
    · rw [Except.ok.injEq] at h
      omega
    · exact (longLength_eq_ok h).2.2.2.2

/-- The prefix of an item does not depend on what stands behind it. -/
theorem longLength_append {b : Bytes} {lengthSize minimum : ℕ}
    (h : RLP.longLength b lengthSize minimum = .ok l) (hpos : 0 < lengthSize) (rest : Bytes) :
    RLP.longLength (b ++ rest) lengthSize minimum = .ok l := by
  obtain ⟨hlen, hlead, hl, hm, hmax⟩ := longLength_eq_ok h
  have htake : ((b ++ rest).drop 1).take lengthSize = (b.drop 1).take lengthSize := by
    rw [List.drop_append_of_le_length (by omega),
      List.take_append_of_le_length (by rw [List.length_drop]; omega)]
  unfold RLP.longLength
  rw [if_neg (by rw [List.length_append]; omega), byteAt_append_left (by omega), if_neg hlead, htake,
    ← hl, if_neg (by omega), if_neg (by unfold maxPayload at hmax; omega)]

theorem length_append (hne : e ≠ []) (h : (RLP.mk e).length = .ok l) (rest : Bytes) :
    (RLP.mk (e ++ rest)).length = .ok l := by
  obtain ⟨h80, hc0, hb7, hf7, -, -⟩ := rlp_constants
  obtain ⟨x, t, rfl⟩ := List.exists_cons_of_ne_nil hne
  unfold RLP.length at h ⊢
  rw [isNull_cons, if_neg (by simp), unit_bind_eq_ok] at h
  obtain ⟨hgood, h⟩ := h
  have hgood' : (RLP.mk (x :: t ++ rest)).requireGood = .ok () := by
    rw [List.cons_append]
    apply requireGood_cons
    intro hx
    unfold RLP.requireGood at hgood
    rw [isNull_cons, if_neg (by simp), byteAt_cons_zero, if_neg (by omega)] at hgood
    split at hgood
    · cases hgood
    · rename_i hlen
      split at hgood
      · cases hgood
      · rename_i hbyte
        rw [byteAt_cons_succ] at hbyte
        rw [byteAt_append_left (by simp only [List.length_cons] at hlen; omega)]
        omega
  rw [List.cons_append, isNull_cons, if_neg (by simp), ← List.cons_append, hgood', ok_bind]
  simp only [byteAt_cons_zero, List.cons_append] at h ⊢
  split at h
  · rw [if_pos ‹_›, h]
  rw [if_neg ‹_›]
  split at h
  · rw [if_pos ‹_›, h]
  rw [if_neg ‹_›]
  split at h
  · rw [if_pos ‹_›, ← List.cons_append]
    exact longLength_append h (by omega) rest
  rw [if_neg ‹_›]
  split at h
  · rw [if_pos ‹_›, h]
  · rw [if_neg ‹_›, ← List.cons_append]
    exact longLength_append h (by omega) rest

theorem payloadOffset_append (hne : e ≠ []) (rest : Bytes) :
    (RLP.mk (e ++ rest)).payloadOffset = (RLP.mk e).payloadOffset := by
  obtain ⟨x, t, rfl⟩ := List.exists_cons_of_ne_nil hne
  rw [List.cons_append, payloadOffset_cons, payloadOffset_cons]

theorem actualSize_eq (hne : e ≠ []) (h : (RLP.mk e).length = .ok l) :
    (RLP.mk e).actualSize = .ok ((RLP.mk e).payloadOffset + l) := by
  obtain ⟨x, t, rfl⟩ := List.exists_cons_of_ne_nil hne
  unfold RLP.actualSize
  rw [isNull_cons, if_neg (by simp), isSingleByte_cons]
  split
  · rename_i hx
    rw [decide_eq_true_eq] at hx
    rw [payloadOffset_cons, if_pos hx]
    unfold RLP.length at h
    rw [isNull_cons, if_neg (by simp), unit_bind_eq_ok] at h
    simp only [byteAt_cons_zero] at h
    rw [if_pos (by rw [rlp_constants.1]; omega)] at h
    rw [zero_add]
    exact h.2
  · rw [h, ok_bind]
    rfl

theorem ofBytes_veryStrict {d : Bytes} {r : RLP} :
    RLP.ofBytes d RLP.VeryStrict = .ok r ↔ r = ⟨d⟩ ∧ (RLP.mk d).actualSize = .ok d.length := by
  unfold RLP.ofBytes
  have h1 : RLP.flag RLP.VeryStrict RLP.FailIfTooBig = true := rfl
  have h2 : RLP.flag RLP.VeryStrict RLP.FailIfTooSmall = true := rfl
  have h3 : RLP.flag RLP.VeryStrict RLP.ThrowOnFail = true := rfl
  simp only [h1, h2, h3, if_true]
  cases ha : (RLP.mk d).actualSize with
  | error e => simp
  | ok n =>
    have hthrow : ∀ (x : Exception) (k : Except Exception RLP),
        (do (throw x : Except Exception Unit); k) = .error x := fun _ _ => rfl
    simp only [ok_bind, Except.ok.injEq, hthrow, pure, Except.pure]
    split_ifs with h4 h5
    · simp only [false_iff]
      omega
    · simp only [false_iff]
      omega
    · rw [Except.ok.injEq, eq_comm, iff_self_and]
      omega

/-- The constructor that `operator[]` uses. -/
theorem ofBytes_tooSmall {d : Bytes} {r : RLP}
    (h : RLP.ofBytes d (RLP.ThrowOnFail ||| RLP.FailIfTooSmall) = .ok r) :
    r = ⟨d⟩ ∧ ∃ n ≤ d.length, (RLP.mk d).actualSize = .ok n := by
  unfold RLP.ofBytes at h
  have h1 : RLP.flag (RLP.ThrowOnFail ||| RLP.FailIfTooSmall) RLP.FailIfTooBig = false := rfl
  have h2 : RLP.flag (RLP.ThrowOnFail ||| RLP.FailIfTooSmall) RLP.FailIfTooSmall = true := rfl
  have h3 : RLP.flag (RLP.ThrowOnFail ||| RLP.FailIfTooSmall) RLP.ThrowOnFail = true := rfl
  simp only [h1, h2, h3, if_true, Bool.false_eq_true, if_false] at h
  cases ha : (RLP.mk d).actualSize with
  | error e =>
    rw [ha] at h
    cases h
  | ok n =>
    simp only [ha, ok_bind] at h
    split at h
    · cases h
    · cases h
      exact ⟨rfl, n, by omega, rfl⟩

theorem sizeAsEncoded_eq_ok {d : Bytes} {n : ℕ} (h : RLP.sizeAsEncoded d = .ok n) :
    (RLP.mk d).actualSize = .ok n ∧ n ≤ d.length := by
  unfold RLP.sizeAsEncoded at h
  rw [bind_eq_ok] at h
  obtain ⟨r, hr, hn⟩ := h
  obtain ⟨rfl, m, hm, hsize⟩ := ofBytes_tooSmall hr
  rw [hsize, Except.ok.injEq] at hn
  rw [← hn]
  exact ⟨hsize, hm⟩

theorem actualSize_pos (hne : e ≠ []) {n : ℕ} (h : (RLP.mk e).actualSize = .ok n) : 0 < n := by
  obtain ⟨x, t, rfl⟩ := List.exists_cons_of_ne_nil hne
  unfold RLP.actualSize at h
  rw [isNull_cons, if_neg (by simp)] at h
  split at h
  · cases h
    exact Nat.one_pos
  · rename_i hx
    rw [isSingleByte_cons, decide_eq_true_eq] at hx
    rw [bind_eq_ok] at h
    obtain ⟨l, -, h⟩ := h
    cases h
    rw [payloadOffset_cons, if_neg hx]
    split_ifs <;> omega

/-- What `items()` counts. -/
theorem splits_of_split : ∀ {fuel : ℕ} {d : Bytes} {items : List Bytes},
    RLP.split fuel d = .ok items → Splits d items
  | _, [], items, h => by
    rw [RLP.split] at h
    cases h
    exact .nil
  | 0, _ :: _, items, h => by
    rw [RLP.split] at h
    cases h
  | fuel + 1, x :: t, items, h => by
    rw [RLP.split.eq_3 _ _ (by simp), bind_eq_ok] at h
    obtain ⟨n, hn, h⟩ := h
    rw [bind_eq_ok] at h
    obtain ⟨rest, hrest, h⟩ := h
    cases h
    obtain ⟨hsize, hle⟩ := sizeAsEncoded_eq_ok hn
    have hpos := actualSize_pos (List.cons_ne_nil x t) hsize
    have hlen : ((x :: t).take n).length = n := List.length_take_of_le hle
    have hne : (x :: t).take n ≠ [] := by
      intro h0
      rw [h0, List.length_nil] at hlen
      omega
    have hs := Splits.cons hne (by rw [List.take_append_drop, hlen]; exact hn) (splits_of_split hrest)
    rwa [List.take_append_drop] at hs

theorem Splits.length_le {p : Bytes} {items : List Bytes} (h : Splits p items) :
    items.length ≤ p.length := by
  induction h with
  | nil => exact le_rfl
  | cons ne_nil size h ih =>
    have := List.length_pos_iff.2 ne_nil
    rw [List.length_cons, List.length_append]
    omega

/-- An item of a payload is measured by its own prefix. -/
theorem Splits.size_eq {p : Bytes} {items : List Bytes} (h : Splits p items) {x : Bytes}
    (hx : x ∈ items) : x ≠ [] ∧ ∀ l, (RLP.mk x).length = .ok l →
      (RLP.mk x).payloadOffset + l = x.length := by
  obtain ⟨k, hk⟩ := List.mem_iff_getElem?.1 hx
  obtain ⟨rest, -, hne, hsize⟩ := h.front hk
  refine ⟨hne, fun l hl => ?_⟩
  have happ := actualSize_eq (by simp [hne]) (length_append hne hl rest)
  rw [(sizeAsEncoded_eq_ok hsize).1, payloadOffset_append hne, Except.ok.injEq] at happ
  exact happ.symm

end

/-! ## The recursive reader -/

/-- A recursive reader: it checks every item, counts the items of a list and reads them by their
index. The depth is bounded by `fuel`. -/
def RLP.decode : ℕ → RLP → Except Exception (RLPTree Bytes)
  | 0, _ => .error .abort
  | fuel + 1, r => do
    r.requireGood
    let _ ← r.length
    if r.isList then
      let n ← r.itemCount
      let items ← r.itemsAt (List.range n) .fresh
      return .list (← items.mapM (decode fuel))
    else
      return .leaf (← r.toBytes RLP.VeryStrict)

theorem getD_range_map (items : List Bytes) :
    (List.range items.length).map (fun i => items.getD i []) = items := by
  apply List.ext_getElem
  · simp
  · intro i h1 h2
    simp [List.getD_eq_getElem?_getD, h2]

theorem eq_map_of_forall₂ {α β : Type} {g : α → β} {l : List α} {r : List β}
    (h : List.Forall₂ (fun x y => y = g x) l r) : r = l.map g := by
  induction h with
  | nil => rfl
  | cons hxy _ ih => rw [List.map_cons, hxy, ih]

/-- What the reader finds in a list. -/
theorem decode_list {fuel : ℕ} {r : RLP} {l : ℕ} {t : RLPTree Bytes} (hl : r.length = .ok l)
    (hsize : r.payloadOffset + l = r.data.length)
    (hlist : r.isList = true) (h : RLP.decode (fuel + 1) r = .ok t) :
    ∃ items ts, Splits (r.data.drop r.payloadOffset) items ∧ t = .list ts ∧
      List.Forall₂ (fun x s => RLP.decode fuel ⟨x⟩ = .ok s) items ts := by
  obtain ⟨e⟩ := r
  have hne : e ≠ [] := by
    rintro rfl
    cases hlist
  have hpay := (canonical_item hne hl hsize).1
  have hmax := length_lt_maxPayload hl
  rw [RLP.decode, unit_bind_eq_ok] at h
  obtain ⟨-, h⟩ := h
  rw [hl, ok_bind, if_pos hlist, bind_eq_ok] at h
  obtain ⟨n, hn, h⟩ := h
  rw [bind_eq_ok] at h
  obtain ⟨rs, hrs, h⟩ := h
  rw [bind_eq_ok] at h
  obtain ⟨ts, hts, h⟩ := h
  unfold RLP.itemCount at hn
  rw [if_pos hlist, hpay, ok_bind, bind_eq_ok] at hn
  obtain ⟨items, hsplit, hn⟩ := hn
  have hs := splits_of_split hsplit
  have hcount : items.length = n := Except.ok.inj hn
  have hlen : items.length < 2 ^ 64 := by
    have hle := hs.length_le
    rw [List.length_drop] at hle
    unfold maxPayload at hmax
    simp only at hsize hle
    omega
  rw [itemsAt_eq hpay hs hlen _ _ (.inl rfl) (by rw [hcount]; exact fun i hi => List.mem_range.1 hi),
    ← hcount] at hrs
  have hmap : rs = items.map RLP.mk := by
    rw [← getD_range_map items, List.map_map]
    exact eq_map_of_forall₂ ((forall₂_of_mapM hrs).imp fun i y hy => (ofBytes_tooSmall hy).1)
  refine ⟨items, ts, hs, (Except.ok.inj h).symm, ?_⟩
  rw [hmap] at hts
  exact List.forall₂_map_left_iff.1 (forall₂_of_mapM hts)

/-- What is read was written. -/
theorem decode_sound (fuel : ℕ) :
    ∀ {e : Bytes} {t : RLPTree Bytes},
      (∀ l, (RLP.mk e).length = .ok l → (RLP.mk e).payloadOffset + l = e.length) →
      RLP.decode fuel ⟨e⟩ = .ok t → e = t.encode RLPStream.encodeBytes := by
  induction fuel with
  | zero =>
    intro e t _ h
    cases h
  | succ fuel ih =>
    intro e t hsize h
    have hparts := h
    rw [RLP.decode, unit_bind_eq_ok] at hparts
    obtain ⟨hgood, hparts⟩ := hparts
    rw [bind_eq_ok] at hparts
    obtain ⟨l, hl, hparts⟩ := hparts
    have hne : e ≠ [] := by
      rintro rfl
      cases hgood
    obtain ⟨hpay, hcanon⟩ := canonical_item hne hl (hsize l hl)
    by_cases hlist : (RLP.mk e).isList = true
    · rw [if_pos hlist] at hcanon
      obtain ⟨items, ts, hs, rfl, hall⟩ := decode_list hl (hsize l hl) hlist h
      have hitems : items = ts.map (RLPTree.encode RLPStream.encodeBytes) := by
        apply eq_map_of_forall₂
        apply List.Forall₂.flip
        have hall' := List.forall₂_iff_get.1 hall
        refine List.forall₂_iff_get.2 ⟨hall'.1, fun i h1 h2 => ?_⟩
        exact ih (hs.size_eq (List.get_mem items ⟨i, h1⟩)).2 (hall'.2 i h1 h2)
      have hflat : e.drop (RLP.mk e).payloadOffset = items.flatten := hs.flatten_eq
      rw [RLPTree.encode_list, ← hitems, RLPStream.encodeList, ← hflat]
      exact hcanon
    · rw [if_neg hlist] at hcanon hparts
      rw [bind_eq_ok] at hparts
      obtain ⟨b, hb, ht⟩ := hparts
      cases ht
      unfold RLP.toBytes at hb
      split at hb
      · rw [hpay, Except.ok.injEq] at hb
        rw [RLPTree.encode, ← hb]
        exact hcanon
      · rw [if_pos (by rfl)] at hb
        cases hb

theorem isItem_bytes (b : Bytes) (h : (RLPStream.encodeBytes b).length < maxPayload) :
    ∃ p, IsItem (RLPStream.encodeBytes b) p := Datum.isItem_encode (a := .bytes b) h

/-- What was written is read, however deep it is. -/
theorem decode_complete (t : RLPTree Bytes) :
    ∀ fuel, (t.encode RLPStream.encodeBytes).length < maxPayload →
      (t.encode RLPStream.encodeBytes).length ≤ fuel →
      RLP.decode fuel ⟨t.encode RLPStream.encodeBytes⟩ = .ok t := by
  induction t with
  | leaf b =>
    intro fuel hmax hfuel
    obtain ⟨p, hp⟩ := isItem_bytes b hmax
    obtain ⟨hdata, hbytes⟩ := Datum.readFrom_encode (a := .bytes b) hmax trivial
    obtain ⟨fuel, rfl⟩ : ∃ n, fuel = n + 1 := by
      have := List.length_pos_iff.2 hp.ne_nil
      exact ⟨fuel - 1, by rw [RLPTree.encode] at hfuel; omega⟩
    have hgood := hp.requireGood []
    have hlength := hp.length []
    rw [List.append_nil] at hgood hlength
    change (RLP.mk (RLPStream.encodeBytes b)).isData = true at hdata
    change (RLP.mk (RLPStream.encodeBytes b)).toBytes RLP.VeryStrict = .ok b at hbytes
    rw [RLPTree.encode, RLP.decode, hgood, ok_bind, hlength, ok_bind, not_isList_of_isData hdata,
      if_neg (by simp), hbytes]
    rfl
  | list ts ih =>
    intro fuel hmax hfuel
    rw [RLPTree.encode_list] at hmax hfuel ⊢
    have hlt := RLPTree.length_le_encodeList (ts.map (RLPTree.encode RLPStream.encodeBytes))
    have hpay := hlt.trans hmax
    obtain ⟨hitems, hshort⟩ := RLPTree.items_encode isItem_bytes hpay
    have hlist := isItem_encodeList hpay
    have hgood := hlist.requireGood []
    have hlength := hlist.length []
    rw [List.append_nil] at hgood hlength
    obtain ⟨fuel, rfl⟩ : ∃ n, fuel = n + 1 := ⟨fuel - 1, by omega⟩
    have hread : (RLP.mk (RLPStream.encodeList (ts.map (RLPTree.encode RLPStream.encodeBytes)))).itemsAt
        (List.range (ts.map (RLPTree.encode RLPStream.encodeBytes)).length) .fresh =
        .ok ((ts.map (RLPTree.encode RLPStream.encodeBytes)).map RLP.mk) := by
      rw [itemsAt_encodeList hitems hpay fun i hi => List.mem_range.1 hi]
      conv_rhs => rw [← getD_range_map (ts.map (RLPTree.encode RLPStream.encodeBytes)), List.map_map]
      rfl
    -- each item is shorter than the list
    have hdec : ((ts.map (RLPTree.encode RLPStream.encodeBytes)).map RLP.mk).mapM (RLP.decode fuel) =
        .ok ts := by
      rw [List.map_map, List.mapM_map, mapM_eq_ok (g := id), List.map_id]
      intro t ht
      have hle := RLPTree.length_le_of_mem
        (List.mem_map_of_mem (f := RLPTree.encode RLPStream.encodeBytes) ht)
      exact ih t ht fuel (hshort t ht) (by omega)
    rw [RLP.decode, hgood, ok_bind, hlength, ok_bind, isList_encodeList hpay, if_pos rfl,
      itemCount_encodeList hitems hpay, ok_bind, hread, ok_bind, hdec]
    rfl

/-- An item that is reached from another through lists, by indices that are there. -/
inductive RLP.Nested (r : RLP) : RLP → Prop
  | self : Nested r r
  | item {x y : RLP} {n : ℕ} {is : List ℕ} {items : List RLP} (h : Nested r x)
    (list : x.isList = true) (count : x.itemCount = .ok n) (indices : ∀ i ∈ is, i < n)
    (read : x.itemsAt is .fresh = .ok items) (mem : y ∈ items) : Nested r y

/-- The prefix and the payload of an item fill its bytes, and its items lie in its payload. -/
structure RLP.Contained (r : RLP) : Prop where
  size : ∃ l, r.length = .ok l ∧ r.payloadOffset + l = r.data.length
  items : r.isList = true → ∀ n is items, r.itemCount = .ok n → (∀ i ∈ is, i < n) →
    r.itemsAt is .fresh = .ok items → ∀ y ∈ items, ∃ p, r.payload = .ok p ∧ y.data <:+: p

theorem isItem_tree (t : RLPTree Bytes) (h : (t.encode RLPStream.encodeBytes).length < maxPayload) :
    ∃ p, IsItem (t.encode RLPStream.encodeBytes) p :=
  t.isItem_encode isItem_bytes h

/-- What is read from a list that was written is one of its items. -/
theorem mem_itemsAt {t : RLPTree Bytes} (hmax : (t.encode RLPStream.encodeBytes).length < maxPayload)
    (hlist : (RLP.mk (t.encode RLPStream.encodeBytes)).isList = true) {n : ℕ} {is : List ℕ}
    {items : List RLP} (hn : (RLP.mk (t.encode RLPStream.encodeBytes)).itemCount = .ok n)
    (his : ∀ i ∈ is, i < n)
    (hread : (RLP.mk (t.encode RLPStream.encodeBytes)).itemsAt is .fresh = .ok items) {y : RLP}
    (hy : y ∈ items) : ∃ ts, t = .list ts ∧ ∃ s ∈ ts, y.data = s.encode RLPStream.encodeBytes := by
  cases t with
  | leaf b =>
    have hdata := (Datum.readFrom_encode (a := .bytes b) hmax trivial).1
    change (RLP.mk (RLPStream.encodeBytes b)).isData = true at hdata
    rw [RLPTree.encode, not_isList_of_isData hdata] at hlist
    cases hlist
  | list ts =>
    rw [RLPTree.encode_list] at hmax hn hread
    have hpay := (RLPTree.length_le_encodeList _).trans hmax
    obtain ⟨hitems, hshort⟩ := RLPTree.items_encode isItem_bytes hpay
    rw [itemCount_encodeList hitems hpay, Except.ok.injEq] at hn
    rw [itemsAt_encodeList hitems hpay (by rw [hn]; exact his), Except.ok.injEq] at hread
    subst hread
    obtain ⟨i, hi, rfl⟩ := List.mem_map.1 hy
    have hlt : i < (ts.map (RLPTree.encode RLPStream.encodeBytes)).length := by
      rw [hn]
      exact his i hi
    have hmem : (ts.map (RLPTree.encode RLPStream.encodeBytes)).getD i [] ∈
        ts.map (RLPTree.encode RLPStream.encodeBytes) := by
      rw [List.getD_eq_getElem _ _ hlt]
      exact List.getElem_mem hlt
    obtain ⟨s, hs, heq⟩ := List.mem_map.1 hmem
    exact ⟨ts, rfl, s, hs, heq.symm⟩

/-- The items nested in the encoding of a tree are the encodings of its parts. -/
theorem nested_encode {t : RLPTree Bytes} (h : (t.encode RLPStream.encodeBytes).length < maxPayload)
    {x : RLP} (hx : RLP.Nested ⟨t.encode RLPStream.encodeBytes⟩ x) :
    ∃ s : RLPTree Bytes, x.data = s.encode RLPStream.encodeBytes ∧
      (s.encode RLPStream.encodeBytes).length < maxPayload := by
  induction hx with
  | self => exact ⟨t, rfl, h⟩
  | item hx list count indices read mem ih =>
    obtain ⟨s, hs, hmax⟩ := ih
    rename_i x y n is items
    obtain ⟨e⟩ := x
    obtain rfl : e = _ := hs
    obtain ⟨ts, rfl, s', hs', hy⟩ := mem_itemsAt hmax list count indices read mem
    rw [RLPTree.encode_list] at hmax
    exact ⟨s', hy, (RLPTree.items_encode isItem_bytes
      ((RLPTree.length_le_encodeList _).trans hmax)).2 s' hs'⟩

theorem contained_encode (t : RLPTree Bytes)
    (h : (t.encode RLPStream.encodeBytes).length < maxPayload) :
    RLP.Contained ⟨t.encode RLPStream.encodeBytes⟩ := by
  obtain ⟨p, hp⟩ := isItem_tree t h
  have hlength := hp.length []
  have hoffset := hp.offset []
  rw [List.append_nil] at hlength hoffset
  refine ⟨⟨_, hlength, hoffset⟩, fun hlist n is items hn his hread y hy => ?_⟩
  obtain ⟨ts, rfl, s, hs, heq⟩ := mem_itemsAt h hlist hn his hread hy
  rw [RLPTree.encode_list] at h
  have hpay := (RLPTree.length_le_encodeList _).trans h
  rw [RLPTree.encode_list, heq]
  exact ⟨_, (isItem_encodeList hpay).payload_eq,
    List.infix_of_mem_flatten (List.mem_map_of_mem hs)⟩

/-- A byte string in memory is read without an exception if and only if it is what a stream holds of
a tree, and this is the tree that is read. So no other string is read as the same tree, and what is
nested in it lies in the payload of the item around it. -/
theorem read_iff_written {b : Bytes} (hb : b.length < maxPayload) {fuel : ℕ}
    (hf : b.length ≤ fuel) :
    (∀ t, (do (← RLP.ofBytes b RLP.VeryStrict).decode fuel) = .ok t ↔
      (do (← t.write RLPStream.append .empty).out) = .ok b) ∧
    (∀ t, (do (← RLP.ofBytes b RLP.VeryStrict).decode fuel) = .ok t →
      ∀ b' fuel', (do (← RLP.ofBytes b' RLP.VeryStrict).decode fuel') = .ok t → b' = b) ∧
    (∀ t, (do (← RLP.ofBytes b RLP.VeryStrict).decode fuel) = .ok t →
      ∀ r x, RLP.ofBytes b RLP.VeryStrict = .ok r → r.Nested x → x.Contained) := by
  have hsound : ∀ t b' fuel', (do (← RLP.ofBytes b' RLP.VeryStrict).decode fuel') = .ok t →
      b' = t.encode RLPStream.encodeBytes := by
    intro t b' fuel' h
    rw [bind_eq_ok] at h
    obtain ⟨r, hr, h⟩ := h
    obtain ⟨rfl, hsize⟩ := ofBytes_veryStrict.1 hr
    refine decode_sound fuel' (fun l hl => ?_) h
    by_cases hne : b' = []
    · subst hne
      cases fuel' <;> cases h
    · rw [actualSize_eq hne hl, Except.ok.injEq] at hsize
      exact hsize
  have hwritten : ∀ t : RLPTree Bytes, (do (← t.write RLPStream.append .empty).out) =
      .ok (t.encode RLPStream.encodeBytes) := by
    intro t
    refine RLPTree.out_write (P := fun _ => True) (fun _ _ _ => rfl) ?_
    induction t with
    | leaf a => exact trivial
    | list ts ih => exact RLPTree.leaves_list.2 ih
  refine ⟨fun t => ⟨fun h => ?_, fun h => ?_⟩, fun t h b' fuel' h' => ?_, fun t h r x hr hx => ?_⟩
  · rw [hwritten, ← hsound t b fuel h]
  · rw [hwritten, Except.ok.injEq] at h
    subst h
    obtain ⟨p, hp⟩ := isItem_tree t hb
    rw [hp.ofBytes, ok_bind]
    exact decode_complete t fuel hb hf
  · rw [hsound t b' fuel' h', ← hsound t b fuel h]
  · obtain ⟨rfl, -⟩ := ofBytes_veryStrict.1 hr
    have heq := hsound t b fuel h
    subst heq
    obtain ⟨s, hs, hmax⟩ := nested_encode hb hx
    obtain ⟨e⟩ := x
    obtain rfl : e = _ := hs
    exact contained_encode s hmax

/-- The list of one empty list. -/
theorem read_iff_written_nested :
    (do (← RLP.ofBytes [0xc1, 0xc0] RLP.VeryStrict).decode 2) = .ok (.list [.list []]) ∧
      (do (← (RLPTree.list [.list []]).write RLPStream.append .empty).out) = .ok [0xc1, 0xc0] :=
  have hwrite : (do (← (RLPTree.list [.list []]).write RLPStream.append .empty).out) =
      .ok [0xc1, 0xc0] := rfl
  ⟨((read_iff_written (b := [0xc1, 0xc0]) (by decide) le_rfl).1 _).2 hwrite, hwrite⟩

end Petrachor
