import Petrachor.RLP

/-!
# Reading back what was written

An item that `RLPStream` wrote is read back as it was written: `IsItem e p` says that `e` is the
encoding of one item with payload `p`, wherever it stands in a longer string.
-/

namespace Petrachor

/-! ## Big-endian numbers -/

theorem fromBigEndian_append_singleton (b : Bytes) (x : UInt8) :
    fromBigEndian (b ++ [x]) = fromBigEndian b * 256 + x.toNat := by
  simp [fromBigEndian]

theorem fromBigEndian_append (a b : Bytes) :
    fromBigEndian (a ++ b) = fromBigEndian a * 256 ^ b.length + fromBigEndian b := by
  induction b using List.reverseRecOn with
  | nil => simp [fromBigEndian]
  | append_singleton b x ih =>
    rw [← List.append_assoc, fromBigEndian_append_singleton, fromBigEndian_append_singleton, ih,
      List.length_append, List.length_singleton]
    ring

theorem length_toBigEndian : ∀ n v : ℕ, (toBigEndian n v).length = n
  | 0, _ => rfl
  | n + 1, v => by rw [toBigEndian, List.length_append, length_toBigEndian n, List.length_singleton]

theorem fromBigEndian_toBigEndian : ∀ n v : ℕ, fromBigEndian (toBigEndian n v) = v % 256 ^ n
  | 0, v => by simp [toBigEndian, fromBigEndian, Nat.mod_one]
  | n + 1, v => by
    rw [toBigEndian, fromBigEndian_append_singleton, fromBigEndian_toBigEndian n, UInt8.toNat_ofNat',
      pow_succ' 256 n, Nat.mod_mul]
    simp only [Nat.reducePow]
    omega

theorem byteAt_cons_zero (x : UInt8) (b : Bytes) : byteAt (x :: b) 0 = x.toNat := by
  simp [byteAt]

theorem byteAt_cons_succ (x : UInt8) (b : Bytes) (i : ℕ) : byteAt (x :: b) (i + 1) = byteAt b i := by
  simp [byteAt]

theorem byteAt_append_left {a b : Bytes} {i : ℕ} (h : i < a.length) :
    byteAt (a ++ b) i = byteAt a i := by
  simp [byteAt, List.getD_eq_getElem?_getD, List.getElem?_append_left h]

/-- The most significant byte. -/
theorem byteAt_toBigEndian_zero : ∀ n v : ℕ, byteAt (toBigEndian (n + 1) v) 0 = v / 256 ^ n % 256
  | 0, v => by simp [toBigEndian, byteAt]
  | n + 1, v => by
    rw [toBigEndian, byteAt_append_left (by rw [length_toBigEndian]; omega),
      byteAt_toBigEndian_zero n, Nat.pow_succ', Nat.div_div_eq_div_mul]

theorem lt_pow_bytesRequired (n : ℕ) : n < 256 ^ bytesRequired n := by
  unfold bytesRequired
  split
  · omega
  · exact Nat.lt_pow_succ_log_self (by decide) n

theorem bytesRequired_le {n k : ℕ} (h : n < 256 ^ k) : bytesRequired n ≤ k := by
  unfold bytesRequired
  split
  · omega
  · exact Nat.log_lt_of_lt_pow ‹_› h

theorem fromBigEndian_bytesRequired (n : ℕ) :
    fromBigEndian (toBigEndian (bytesRequired n) n) = n := by
  rw [fromBigEndian_toBigEndian, Nat.mod_eq_of_lt (lt_pow_bytesRequired n)]

/-- No leading zero is written. -/
theorem byteAt_bytesRequired {n : ℕ} (h : n ≠ 0) :
    byteAt (toBigEndian (bytesRequired n) n) 0 ≠ 0 := by
  have hlt := lt_pow_bytesRequired n
  unfold bytesRequired at hlt ⊢
  rw [if_neg h] at hlt ⊢
  rw [byteAt_toBigEndian_zero]
  have hpow := Nat.pow_log_le_self 256 h
  have hpos : 0 < 256 ^ Nat.log 256 n := by positivity
  have h1 : 1 ≤ n / 256 ^ Nat.log 256 n := (Nat.one_le_div_iff hpos).2 hpow
  have h2 : n / 256 ^ Nat.log 256 n < 256 := by
    rw [Nat.div_lt_iff_lt_mul hpos, ← Nat.pow_succ']
    exact hlt
  omega

/-! ## Items -/

/-- `e` is one item with payload `p`, and is recognised as such in front of anything. -/
structure IsItem (e p : Bytes) : Prop where
  ne_nil : e ≠ []
  length : ∀ rest, (RLP.mk (e ++ rest)).length = .ok p.length
  offset : ∀ rest, (RLP.mk (e ++ rest)).payloadOffset + p.length = e.length
  payload : e.drop (e.length - p.length) = p

/-- The longest payload a prefix can announce. -/
def maxPayload : ℕ := 2 ^ 64 - 1 - 0x100

namespace IsItem

variable {e p : Bytes} (h : IsItem e p)

include h

theorem not_isNull (rest : Bytes) : (RLP.mk (e ++ rest)).isNull = false := by
  simp [RLP.isNull, h.ne_nil]

theorem actualSize (rest : Bytes) : (RLP.mk (e ++ rest)).actualSize = .ok e.length := by
  have ho := h.offset rest
  have hl := h.length rest
  unfold RLP.actualSize
  rw [h.not_isNull]
  simp only [Bool.false_eq_true, if_false]
  split
  · rename_i hs
    -- the payload of a single byte is the byte itself
    rw [RLP.payloadOffset, if_pos hs] at ho
    rw [RLP.length, h.not_isNull] at hl
    simp only [Bool.false_eq_true, if_false, bind_eq_ok] at hl
    obtain ⟨-, -, hl⟩ := hl
    simp only [RLP.isSingleByte, h.not_isNull, Bool.not_false, Bool.true_and,
      decide_eq_true_eq] at hs
    rw [if_pos hs, Except.ok.injEq] at hl
    rw [← ho, ← hl]
  · rw [hl, ok_bind, ho]
    rfl

theorem requireGood (rest : Bytes) : (RLP.mk (e ++ rest)).requireGood = .ok () := by
  have hl := h.length rest
  rw [RLP.length, h.not_isNull] at hl
  simp only [Bool.false_eq_true, if_false, unit_bind_eq_ok] at hl
  exact hl.1

theorem ofBytes (s : RLP.Strictness) : RLP.ofBytes e s = .ok ⟨e⟩ := by
  have ha := h.actualSize []
  rw [List.append_nil] at ha
  unfold RLP.ofBytes
  simp only [ha, ok_bind, lt_irrefl, if_false, ite_self, pure, Except.pure]

theorem sizeAsEncoded (rest : Bytes) : RLP.sizeAsEncoded (e ++ rest) = .ok e.length := by
  have ha := h.actualSize rest
  unfold RLP.sizeAsEncoded RLP.ofBytes
  have hf : RLP.flag (RLP.ThrowOnFail ||| RLP.FailIfTooSmall) RLP.FailIfTooBig = false := rfl
  have hlt : ¬ (e ++ rest).length < e.length := by simp
  simp only [hf, ha, ok_bind, Bool.false_eq_true, if_false, hlt, ite_self, pure, Except.pure]

theorem payload_eq : (RLP.mk e).payload = .ok p := by
  have hl := h.length []
  have ho := h.offset []
  rw [List.append_nil] at hl ho
  unfold RLP.payload
  rw [hl, ok_bind]
  simp only
  rw [if_neg (by omega), cropped, if_pos (by omega)]
  have hoff : (RLP.mk e).payloadOffset = e.length - p.length := by omega
  rw [hoff, h.payload, List.take_length]

end IsItem

/-! ## What is written is an item -/

theorem toNat_ofNat_of_lt {n : ℕ} (h : n < 256) : (UInt8.ofNat n).toNat = n := by
  rw [UInt8.toNat_ofNat', Nat.mod_eq_of_lt (by omega)]

theorem rlp_constants : c_rlpDataImmLenStart = 0x80 ∧ c_rlpListStart = 0xc0 ∧
    c_rlpDataIndLenZero = 0xb7 ∧ c_rlpListIndLenZero = 0xf7 ∧ c_rlpListImmLenCount = 56 ∧
    c_rlpMaxLengthBytes = 8 := ⟨rfl, rfl, rfl, rfl, rfl, rfl⟩

section Prefix

variable {x : UInt8} {t : Bytes}

theorem isNull_cons : (RLP.mk (x :: t)).isNull = false := by simp [RLP.isNull]

/-- Only a prefix that announces one byte is looked behind. -/
theorem requireGood_cons (h : x.toNat = 0x81 → 0x80 ≤ byteAt t 0) :
    (RLP.mk (x :: t)).requireGood = .ok () := by
  obtain ⟨h80, -⟩ := rlp_constants
  unfold RLP.requireGood
  rw [isNull_cons, if_neg (by simp)]
  simp only [byteAt_cons_zero]
  split
  · rfl
  · have hx : 0x80 ≤ byteAt t 0 := h (by omega)
    have hlen : t ≠ [] := by
      rintro rfl
      simp [byteAt] at hx
    have hpos := List.length_pos_iff.2 hlen
    rw [if_neg (by rw [List.length_cons]; omega), if_neg]
    rw [byteAt_cons_succ]
    omega

theorem isSingleByte_cons : (RLP.mk (x :: t)).isSingleByte = decide (x.toNat < 0x80) := by
  simp [RLP.isSingleByte, isNull_cons, byteAt_cons_zero, rlp_constants.1]

theorem isData_cons : (RLP.mk (x :: t)).isData = decide (x.toNat < 0xc0) := by
  simp [RLP.isData, isNull_cons, byteAt_cons_zero, rlp_constants.2.1]

theorem isList_cons : (RLP.mk (x :: t)).isList = decide (0xc0 ≤ x.toNat) := by
  simp [RLP.isList, isNull_cons, byteAt_cons_zero, rlp_constants.2.1]

end Prefix

/-- A short prefix. -/
theorem isItem_short {start : ℕ} {p : Bytes} (hp : p.length < 56)
    (hs : start = 0x80 ∨ start = 0xc0) (h1 : start = 0x80 → p.length = 1 → 0x80 ≤ byteAt p 0) :
    IsItem (UInt8.ofNat (start + p.length) :: p) p := by
  obtain ⟨h80, hc0, hb7, hf7, -⟩ := rlp_constants
  have hx : (UInt8.ofNat (start + p.length)).toNat = start + p.length :=
    toNat_ofNat_of_lt (by omega)
  generalize UInt8.ofNat (start + p.length) = x at hx
  refine ⟨by simp, fun rest => ?_, fun rest => ?_, by simp⟩
  · rw [List.cons_append]
    have hgood : (RLP.mk (x :: (p ++ rest))).requireGood = .ok () := by
      refine requireGood_cons fun he => ?_
      rw [byteAt_append_left (by omega)]
      exact h1 (by omega) (by omega)
    unfold RLP.length
    rw [isNull_cons, if_neg (by simp), hgood, ok_bind]
    simp only [byteAt_cons_zero, hx]
    rw [if_neg (by omega)]
    rcases hs with rfl | rfl
    · rw [if_pos (by omega), h80, Nat.add_sub_cancel_left]
    · rw [if_neg (by omega), if_neg (by omega), if_pos (by omega), hc0, Nat.add_sub_cancel_left]
  · rw [List.cons_append, RLP.payloadOffset, isSingleByte_cons, if_neg (by simp; omega),
      RLP.lengthSize, isData_cons, isList_cons]
    simp only [byteAt_cons_zero, hx, Bool.and_eq_true, decide_eq_true_eq]
    rw [if_neg (by omega), if_neg (by omega), List.length_cons]
    omega

/-- A long prefix. -/
theorem isItem_long {base : ℕ} {p : Bytes} (hp : 56 ≤ p.length) (hmax : p.length < maxPayload)
    (hs : base = 0xb7 ∨ base = 0xf7) :
    IsItem (UInt8.ofNat (base + bytesRequired p.length) ::
      (toBigEndian (bytesRequired p.length) p.length ++ p)) p := by
  obtain ⟨h80, hc0, hb7, hf7, -⟩ := rlp_constants
  have h8 : bytesRequired p.length ≤ 8 := bytesRequired_le (by
    unfold maxPayload at hmax
    omega)
  have h1 : 1 ≤ bytesRequired p.length := by
    unfold bytesRequired
    rw [if_neg (by omega)]
    omega
  have hlen := length_toBigEndian (bytesRequired p.length) p.length
  have hval := fromBigEndian_bytesRequired p.length
  have hne := byteAt_bytesRequired (n := p.length) (by omega)
  have hx : (UInt8.ofNat (base + bytesRequired p.length)).toNat = base + bytesRequired p.length :=
    toNat_ofNat_of_lt (by omega)
  generalize UInt8.ofNat (base + bytesRequired p.length) = x at hx
  generalize toBigEndian (bytesRequired p.length) p.length = l at *
  generalize bytesRequired p.length = k at *
  have hlong : ∀ rest, RLP.longLength (x :: (l ++ p ++ rest)) k 56 = .ok p.length := by
    intro rest
    unfold RLP.longLength
    rw [if_neg (by simp only [List.length_cons, List.length_append]; omega), byteAt_cons_succ,
      List.append_assoc, byteAt_append_left (by omega), if_neg hne]
    simp only [List.drop_succ_cons, List.drop_zero]
    rw [List.take_left' hlen, hval, if_neg (by omega), if_neg (by unfold maxPayload at hmax; omega)]
  refine ⟨by simp, fun rest => ?_, fun rest => ?_, ?_⟩
  · rw [List.cons_append]
    unfold RLP.length
    rw [isNull_cons, if_neg (by simp), requireGood_cons (by omega), ok_bind]
    simp only [byteAt_cons_zero, hx]
    rw [if_neg (by omega), if_neg (by omega)]
    rcases hs with rfl | rfl
    · rw [if_pos (by omega), hb7, Nat.add_sub_cancel_left]
      exact hlong rest
    · rw [if_neg (by omega), if_neg (by omega), hf7, Nat.add_sub_cancel_left]
      exact hlong rest
  · rw [List.cons_append, RLP.payloadOffset, isSingleByte_cons, if_neg (by simp; omega),
      RLP.lengthSize, isData_cons, isList_cons]
    simp only [byteAt_cons_zero, hx, Bool.and_eq_true, decide_eq_true_eq, List.length_cons,
      List.length_append]
    rcases hs with rfl | rfl
    · rw [if_pos (by omega)]
      omega
    · rw [if_neg (by omega), if_pos (by omega)]
      omega
  · rw [show (x :: (l ++ p)).length - p.length = (x :: l).length by
      simp only [List.length_cons, List.length_append]; omega, ← List.cons_append, List.drop_left]

theorem lengthPrefix_append {start base : ℕ} {p : Bytes} :
    RLPStream.lengthPrefix p.length start base ++ p =
      if p.length < 56 then UInt8.ofNat (start + p.length) :: p
      else UInt8.ofNat (base + bytesRequired p.length) ::
        (toBigEndian (bytesRequired p.length) p.length ++ p) := by
  unfold RLPStream.lengthPrefix
  rw [show c_rlpListImmLenCount = 56 from rfl]
  split <;> rfl

/-- A single byte below `0x80` is its own encoding. -/
theorem isItem_single {x : UInt8} (h : x.toNat < 0x80) : IsItem [x] [x] := by
  obtain ⟨h80, -⟩ := rlp_constants
  refine ⟨by simp, fun rest => ?_, fun rest => ?_, by simp⟩
  · rw [List.cons_append]
    unfold RLP.length
    rw [isNull_cons, if_neg (by simp), requireGood_cons (by omega), ok_bind]
    simp only [byteAt_cons_zero]
    rw [if_pos (by omega)]
    rfl
  · rw [List.cons_append, RLP.payloadOffset, isSingleByte_cons, if_pos (by simpa using h)]
    simp

theorem isItem_encodeBytes {b : Bytes} (h : b.length < maxPayload) :
    IsItem (RLPStream.encodeBytes b) b := by
  obtain ⟨h80, -, hb7, -⟩ := rlp_constants
  unfold RLPStream.encodeBytes
  split
  · rename_i hb
    obtain ⟨x, rfl⟩ := List.length_eq_one_iff.1 hb.1
    exact isItem_single (by simpa [byteAt, h80] using hb.2)
  · rename_i hb
    rw [lengthPrefix_append]
    split
    · exact isItem_short ‹_› (.inl h80) fun _ h1 => by
        rw [not_and, not_lt, h80] at hb
        exact hb h1
    · exact isItem_long (not_lt.1 ‹_›) h (.inl hb7)

theorem isItem_encodeList {items : List Bytes} (h : items.flatten.length < maxPayload) :
    IsItem (RLPStream.encodeList items) items.flatten := by
  obtain ⟨-, hc0, -, hf7, -⟩ := rlp_constants
  unfold RLPStream.encodeList
  rw [lengthPrefix_append]
  split
  · exact isItem_short ‹_› (.inr hc0) fun h80 => absurd (hc0.symm.trans h80) (by decide)
  · exact isItem_long (not_lt.1 ‹_›) h (.inr hf7)

/-- An integer is written as the bytes it needs. -/
theorem encodeInt_eq (n : ℕ) :
    RLPStream.encodeInt n = RLPStream.encodeBytes (toBigEndian (bytesRequired n) n) := by
  obtain ⟨h80, -⟩ := rlp_constants
  unfold RLPStream.encodeInt
  by_cases h0 : n = 0
  · subst h0
    rfl
  rw [if_neg h0]
  by_cases hlt : n < 0x80
  · have h1 : bytesRequired n = 1 := by
      unfold bytesRequired
      rw [if_neg h0, Nat.log_of_lt (by omega)]
    rw [if_pos (by omega), h1, RLPStream.encodeBytes, if_pos]
    · rfl
    · refine ⟨rfl, ?_⟩
      rw [byteAt_toBigEndian_zero, h80]
      omega
  · rw [if_neg (by omega), RLPStream.encodeBytes, if_neg, length_toBigEndian]
    rintro ⟨h1, hb⟩
    rw [length_toBigEndian] at h1
    rw [h1, byteAt_toBigEndian_zero, h80] at hb
    have := lt_pow_bytesRequired n
    rw [h1] at this
    omega

theorem bytesRequired_lt_maxPayload {n : ℕ} (h : n < 2 ^ 256) : bytesRequired n < maxPayload := by
  have : bytesRequired n ≤ 32 := bytesRequired_le (by omega)
  unfold maxPayload
  omega

theorem isItem_encodeInt {n : ℕ} (h : bytesRequired n < maxPayload) :
    IsItem (RLPStream.encodeInt n) (toBigEndian (bytesRequired n) n) := by
  rw [encodeInt_eq]
  refine isItem_encodeBytes ?_
  rw [length_toBigEndian]
  exact h

/-! ## Data -/

theorem isData_encodeBytes {b : Bytes} (h : b.length < maxPayload) :
    (RLP.mk (RLPStream.encodeBytes b)).isData = true := by
  obtain ⟨h80, -, hb7, -⟩ := rlp_constants
  unfold RLPStream.encodeBytes
  split
  · rename_i hb
    obtain ⟨x, rfl⟩ := List.length_eq_one_iff.1 hb.1
    rw [isData_cons, decide_eq_true_eq]
    have := hb.2
    simp only [byteAt_cons_zero] at this
    omega
  · rw [lengthPrefix_append]
    split
    · rw [isData_cons, decide_eq_true_eq, toNat_ofNat_of_lt (by omega)]
      omega
    · have h8 : bytesRequired b.length ≤ 8 := bytesRequired_le (by
        unfold maxPayload at h
        omega)
      rw [isData_cons, decide_eq_true_eq, toNat_ofNat_of_lt (by omega)]
      omega

theorem not_isList_of_isData {r : RLP} (h : r.isData = true) : r.isList = false := by
  simp only [RLP.isData, Bool.and_eq_true, decide_eq_true_eq] at h
  simp only [RLP.isList, h.1, Bool.true_and, decide_eq_false_iff_not, not_le]
  exact h.2

theorem toBytes_encodeBytes {b : Bytes} (h : b.length < maxPayload) (s : RLP.Strictness) :
    (RLP.mk (RLPStream.encodeBytes b)).toBytes s = .ok b := by
  rw [RLP.toBytes, isData_encodeBytes h, if_pos rfl, (isItem_encodeBytes h).payload_eq]

/-- A hash of `n` bytes is read back by every strictness. -/
theorem toHash_encodeBytes {n : ℕ} (hn : n < maxPayload) (v : BitVec (8 * n)) (s : RLP.Strictness) :
    (RLP.mk (RLPStream.encodeBytes (asBytes n v))).toHash n s = .ok v := by
  have hlen : (asBytes n v).length = n := length_toBigEndian _ _
  have hi : IsItem (RLPStream.encodeBytes (asBytes n v)) (asBytes n v) :=
    isItem_encodeBytes (by omega)
  have hgood := hi.requireGood []
  rw [List.append_nil] at hgood
  unfold RLP.toHash
  rw [hgood, ok_bind, hi.payload_eq, ok_bind, isData_encodeBytes (by omega)]
  simp only [hlen, lt_irrefl, Bool.not_true, decide_false, Bool.false_and, Bool.or_false,
    Bool.false_eq_true, if_false, pure, Except.pure]
  rw [List.take_of_length_le hlen.le]
  unfold asBytes
  rw [fromBigEndian_toBigEndian]
  congr 1
  rw [show (256 : ℕ) ^ n = 2 ^ (8 * n) by rw [pow_mul]; rfl, Nat.mod_eq_of_lt v.isLt,
    BitVec.ofNat_toNat, BitVec.setWidth_eq]

theorem ofBytes_asBytes {n : ℕ} (v : BitVec (8 * n)) : ofBytes n (asBytes n v) = v := by
  have hlen : (asBytes n v).length = n := length_toBigEndian _ _
  unfold ofBytes
  rw [if_pos hlen, asBytes, fromBigEndian_toBigEndian,
    show (256 : ℕ) ^ n = 2 ^ (8 * n) by rw [pow_mul]; rfl, Nat.mod_eq_of_lt v.isLt,
    BitVec.ofNat_toNat, BitVec.setWidth_eq]

/-- An integer has no leading zero, in whichever form its length is written. -/
theorem isInt_encodeInt {n : ℕ} (h : bytesRequired n < maxPayload) :
    (RLP.mk (RLPStream.encodeInt n)).isInt = .ok true := by
  obtain ⟨h80, hc0, hb7, -⟩ := rlp_constants
  have hi := isItem_encodeInt h
  have hnull := hi.not_isNull []
  have hgood := hi.requireGood []
  rw [List.append_nil] at hnull hgood
  unfold RLP.isInt
  rw [hnull, if_neg (by simp), hgood, ok_bind]
  unfold RLPStream.encodeInt
  split
  · rfl
  · rename_i h0
    split
    · rename_i hlt
      rw [show byteAt [UInt8.ofNat n] 0 = n from toNat_ofNat_of_lt (by omega)]
      simp only
      rw [if_pos hlt]
      simpa using h0
    · have hne := byteAt_bytesRequired h0
      have hlen := length_toBigEndian (bytesRequired n) n
      have h1 : 1 ≤ bytesRequired n := by
        unfold bytesRequired
        rw [if_neg h0]
        omega
      generalize toBigEndian (bytesRequired n) n = l at *
      rw [← hlen, lengthPrefix_append]
      split
      · simp only [byteAt_cons_zero, byteAt_cons_succ]
        rw [toNat_ofNat_of_lt (by omega), if_neg (by omega), if_neg (by omega), if_pos (by omega),
          if_neg (by rw [List.length_cons]; omega)]
        simpa using hne
      · have h8 : bytesRequired l.length ≤ 8 := bytesRequired_le (by
          unfold maxPayload at h
          omega)
        have hpos : 1 ≤ bytesRequired l.length := by
          unfold bytesRequired
          rw [if_neg (by omega)]
          omega
        have hpre := length_toBigEndian (bytesRequired l.length) l.length
        have hidx : 1 + (c_rlpDataIndLenZero + bytesRequired l.length) - c_rlpDataIndLenZero =
            bytesRequired l.length + 1 := by omega
        have hbyte : byteAt (toBigEndian (bytesRequired l.length) l.length ++ l)
            (bytesRequired l.length) = byteAt l 0 := by
          unfold byteAt
          rw [List.getD_append_right _ _ _ _ hpre.le, hpre, Nat.sub_self]
        simp only [byteAt_cons_zero]
        rw [toNat_ofNat_of_lt (by omega), if_neg (by omega), if_neg (by omega), if_neg (by omega),
          if_pos (by omega), hidx, byteAt_cons_succ, hbyte, List.length_cons, List.length_append, hpre,
          if_neg (by omega)]
        simpa using hne

theorem isData_encodeInt {n : ℕ} (h : bytesRequired n < maxPayload) :
    (RLP.mk (RLPStream.encodeInt n)).isData = true := by
  rw [encodeInt_eq]
  refine isData_encodeBytes ?_
  rw [length_toBigEndian]
  exact h

theorem toInt_encodeInt {n size : ℕ} (h : n < 256 ^ size) (hs : size < maxPayload)
    (s : RLP.Strictness) : (RLP.mk (RLPStream.encodeInt n)).toInt size s = .ok n := by
  have hsize : ¬ size < (toBigEndian (bytesRequired n) n).length := by
    rw [length_toBigEndian]
    exact not_lt.2 (bytesRequired_le h)
  have hmax : bytesRequired n < maxPayload := (bytesRequired_le h).trans_lt hs
  have hi := isItem_encodeInt hmax
  have hnull := hi.not_isNull []
  have hgood := hi.requireGood []
  rw [List.append_nil] at hnull hgood
  unfold RLP.toInt
  rw [hgood, ok_bind, isInt_encodeInt hmax, ok_bind, not_isList_of_isData (isData_encodeInt hmax),
    hnull]
  simp only [Bool.not_true, Bool.false_and, Bool.or_false, Bool.false_eq_true, if_false]
  rw [hi.payload_eq, ok_bind]
  simp only [hsize, decide_false, Bool.false_and, Bool.false_eq_true, if_false,
    fromBigEndian_bytesRequired]
  rfl

theorem toU256_encodeInt (v : U256) (s : RLP.Strictness) :
    (RLP.mk (RLPStream.encodeInt v.toNat)).toU256 s = .ok v := by
  unfold RLP.toU256
  rw [toInt_encodeInt (by have := v.isLt; omega) (by decide), ok_bind, BitVec.ofNat_toNat,
    BitVec.setWidth_eq]
  rfl

/-! ## Lists -/

/-- Every entry is one item. -/
def Items (items : List Bytes) : Prop := ∀ e ∈ items, ∃ p, IsItem e p

theorem isList_encodeList {items : List Bytes} (h : items.flatten.length < maxPayload) :
    (RLP.mk (RLPStream.encodeList items)).isList = true := by
  obtain ⟨-, hc0, -, hf7, -⟩ := rlp_constants
  unfold RLPStream.encodeList
  rw [lengthPrefix_append]
  split
  · rw [isList_cons, decide_eq_true_eq, toNat_ofNat_of_lt (by omega)]
    omega
  · have h8 : bytesRequired items.flatten.length ≤ 8 := bytesRequired_le (by
      unfold maxPayload at h
      omega)
    rw [isList_cons, decide_eq_true_eq, toNat_ofNat_of_lt (by omega)]
    omega

theorem split_flatten : ∀ {items : List Bytes} (fuel : ℕ), Items items →
    items.length ≤ fuel → RLP.split fuel items.flatten = .ok items
  | [], 0, _, _ => rfl
  | [], _ + 1, _, _ => rfl
  | e :: items, fuel + 1, h, hf => by
    obtain ⟨p, hp⟩ := h e List.mem_cons_self
    have ih := split_flatten fuel (fun x hx => h x (List.mem_cons_of_mem _ hx))
      (Nat.le_of_succ_le_succ hf)
    obtain ⟨y, t, rfl⟩ := List.exists_cons_of_ne_nil hp.ne_nil
    rw [List.flatten_cons, List.cons_append, RLP.split.eq_3 _ _ (by simp), ← List.cons_append,
      hp.sizeAsEncoded, ok_bind, List.take_left, List.drop_left, ih]
    rfl

theorem length_le_length_flatten : ∀ {items : List Bytes}, Items items →
    items.length ≤ items.flatten.length
  | [], _ => le_rfl
  | e :: items, h => by
    obtain ⟨p, hp⟩ := h e List.mem_cons_self
    have ih := length_le_length_flatten fun x hx => h x (List.mem_cons_of_mem _ hx)
    have := List.length_pos_iff.2 hp.ne_nil
    rw [List.flatten_cons, List.length_cons, List.length_append]
    omega

section Lists

variable {items : List Bytes} (h : Items items) (hmax : items.flatten.length < maxPayload)

include h hmax

theorem itemCount_encodeList :
    (RLP.mk (RLPStream.encodeList items)).itemCount = .ok items.length := by
  unfold RLP.itemCount
  rw [isList_encodeList hmax, if_pos rfl, (isItem_encodeList hmax).payload_eq, ok_bind,
    split_flatten _ h (length_le_length_flatten h), ok_bind]
  rfl

theorem toList_encodeList :
    (RLP.mk (RLPStream.encodeList items)).toList = .ok (items.map RLP.mk) := by
  have hmap : (items.mapM fun d => RLP.ofBytes d RLP.VeryStrict) = .ok (items.map RLP.mk) := by
    apply mapM_eq_ok
    intro e he
    obtain ⟨p, hp⟩ := h e he
    exact hp.ofBytes _
  unfold RLP.toList
  rw [isList_encodeList hmax, if_pos rfl, (isItem_encodeList hmax).payload_eq, ok_bind,
    split_flatten _ h (length_le_length_flatten h), ok_bind, hmap]

end Lists

/-- The loop that seeks an item, from the item `last` on. -/
theorem seek_flatten : ∀ {items : List Bytes} (i : ℕ) {pre last e : Bytes}, Items items →
    last ≠ [] → (last :: items)[i]? = some e →
    RLP.seek (pre ++ items.flatten) i pre.length last = .ok e
  | _, 0, _, _, _, _, _, he => by
    rw [List.getElem?_cons_zero, Option.some.injEq] at he
    rw [RLP.seek, he]
  | [], i + 1, _, _, _, _, _, he => by simp at he
  | x :: items, i + 1, pre, last, e, h, hl, he => by
    obtain ⟨p, hp⟩ := h x List.mem_cons_self
    rw [List.getElem?_cons_succ] at he
    have ih : RLP.seek (pre ++ x ++ items.flatten) i (pre ++ x).length x = .ok e :=
      seek_flatten i (fun y hy => h y (List.mem_cons_of_mem _ hy)) hp.ne_nil he
    rw [List.append_assoc, List.length_append] at ih
    rw [RLP.seek, if_neg (by simpa using hl), List.drop_left, List.flatten_cons]
    simp only [hp.sizeAsEncoded, ok_bind, List.take_left]
    exact ih

theorem get_encodeList {items : List Bytes} (h : Items items)
    (hmax : items.flatten.length < maxPayload) {i : ℕ} {e : Bytes} (he : items[i]? = some e) :
    (RLP.mk (RLPStream.encodeList items)).get i = .ok ⟨e⟩ := by
  obtain ⟨p, hp⟩ := h e (List.mem_of_getElem? he)
  cases items with
  | nil => simp at he
  | cons x items =>
    obtain ⟨q, hq⟩ := h x List.mem_cons_self
    unfold RLP.get
    rw [(isItem_encodeList hmax).payload_eq, ok_bind, List.flatten_cons, hq.sizeAsEncoded, ok_bind,
      cropped, if_pos (by rw [List.length_append]; omega), List.drop_zero, List.take_left,
      seek_flatten i (fun y hy => h y (List.mem_cons_of_mem _ hy)) hq.ne_nil he, ok_bind, hp.ofBytes]

end Petrachor
