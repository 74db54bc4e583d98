import Petrachor.Devnet

/-!
# The codec of headers

The stream writes the number and the timestamp of a header modulo `2 ^ 32`, the reader takes 63 bits of
them. A header is read back as it was if both fit into 32 bits, and two headers have one encoding without
the seal if nothing but a multiple of `2 ^ 32` in these fields tells them apart.
-/

namespace Petrachor

namespace BlockHeader

/-- A header as the program keeps it: the signed numbers are not negative, the seal's fields are encoded
items, and the encoding's length fits into a prefix. -/
structure WellFormed (h : BlockHeader) : Prop where
  number_nonneg : 0 ≤ h.number
  number_lt : h.number < 2 ^ 63
  timestamp_nonneg : 0 ≤ h.timestamp
  timestamp_lt : h.timestamp < 2 ^ 63
  items_seal : Items h.m_seal
  size : (h.streamRLPFields ++ h.m_seal).flatten.length < maxPayload

/-- The header without its seal. -/
def unsealed (h : BlockHeader) : BlockHeader := { h with m_seal := [] }

/-- The constructor gives every field back from the header's own encoding. -/
def ReadsBack (c : Crypto) (h : BlockHeader) : Prop :=
  ∃ h', ofBytes c (h.streamRLP .WithSeal) 0 = .ok h' ∧ h'.same h = true ∧ h'.m_seal = h.m_seal

/-- The numbers fit into the word they are written from. -/
def Fits (h : BlockHeader) : Prop := h.number < 2 ^ 32 ∧ h.timestamp < 2 ^ 32

/-- The headers differ, but in the number and the timestamp only, and there by multiples of `2 ^ 32`. -/
def Aliases (h h' : BlockHeader) : Prop :=
  h.same h' = false ∧
    ({ h' with number := h.number, timestamp := h.timestamp } : BlockHeader).same h = true ∧
    h.number % 2 ^ 32 = h'.number % 2 ^ 32 ∧ h.timestamp % 2 ^ 32 = h'.timestamp % 2 ^ 32

section

variable {h h' : BlockHeader}

theorem same_iff : h.same h' = true ↔
    h.parentHash = h'.parentHash ∧ h.sha3Uncles = h'.sha3Uncles ∧ h.author = h'.author ∧
      h.stateRoot = h'.stateRoot ∧ h.transactionsRoot = h'.transactionsRoot ∧
      h.receiptsRoot = h'.receiptsRoot ∧ h.logBloom = h'.logBloom ∧ h.difficulty = h'.difficulty ∧
      h.number = h'.number ∧ h.gasLimit = h'.gasLimit ∧ h.gasUsed = h'.gasUsed ∧
      h.timestamp = h'.timestamp ∧ h.extraData = h'.extraData := decide_eq_true_iff

theorem toUnsigned_eq_iff {m n : ℤ} : toUnsigned m = toUnsigned n ↔ m % 2 ^ 32 = n % 2 ^ 32 := by
  unfold toUnsigned
  omega

theorem toUnsigned_eq_self_iff {n : ℤ} (h : 0 ≤ n) : (toUnsigned n : ℤ) = n ↔ n < 2 ^ 32 := by
  unfold toUnsigned
  omega

theorem WellFormed.encodable (hw : h.WellFormed) :
    h.Encodable (toUnsigned h.number) (toUnsigned h.timestamp) where
  items_seal := hw.items_seal
  number_lt := (toUnsigned_lt _).trans (by norm_num)
  timestamp_lt := (toUnsigned_lt _).trans (by norm_num)
  size := hw.size

theorem WellFormed.unsealed (hw : h.WellFormed) : h.unsealed.WellFormed where
  number_nonneg := hw.number_nonneg
  number_lt := hw.number_lt
  timestamp_nonneg := hw.timestamp_nonneg
  timestamp_lt := hw.timestamp_lt
  items_seal := by
    intro e he
    cases he
  size := by
    have hsize := hw.size
    rw [List.flatten_append, List.length_append] at hsize
    show (h.streamRLPFields ++ []).flatten.length < maxPayload
    rw [List.append_nil]
    omega

theorem streamRLP_unsealed : h.unsealed.streamRLP .WithSeal = h.streamRLP .WithoutSeal := by
  show RLPStream.encodeList (h.streamRLPFields ++ []) = RLPStream.encodeList h.streamRLPFields
  rw [List.append_nil]

/-- What the constructor reads. -/
theorem WellFormed.ofBytes_streamRLP (hw : h.WellFormed) (c : Crypto) :
    ofBytes c (h.streamRLP .WithSeal) 0 =
      .ok (h.readBack (toUnsigned h.number) (toUnsigned h.timestamp) (c.sha3 (h.streamRLP .WithSeal))) := by
  rw [streamRLP_eq_wire]
  exact ofBytes_wire hw.encodable c

theorem WellFormed.readsBack_iff (hw : h.WellFormed) (c : Crypto) : h.ReadsBack c ↔ h.Fits := by
  unfold ReadsBack Fits
  rw [hw.ofBytes_streamRLP c, ← toUnsigned_eq_self_iff hw.number_nonneg,
    ← toUnsigned_eq_self_iff hw.timestamp_nonneg]
  constructor
  · rintro ⟨h', heq, hsame, -⟩
    cases heq
    obtain ⟨-, -, -, -, -, -, -, -, hnumber, -, -, htimestamp, -⟩ := same_iff.1 hsame
    exact ⟨hnumber, htimestamp⟩
  · rintro ⟨hnumber, htimestamp⟩
    refine ⟨_, rfl, same_iff.2 ?_, rfl⟩
    exact ⟨rfl, rfl, rfl, rfl, rfl, rfl, rfl, rfl, hnumber, rfl, rfl, htimestamp, rfl⟩

/-- What one encoding of the basic fields says of two headers. -/
theorem WellFormed.streamRLP_eq_iff (hw : h.WellFormed) (hw' : h'.WellFormed) :
    h.streamRLP .WithoutSeal = h'.streamRLP .WithoutSeal ↔
      ({ h' with number := h.number, timestamp := h.timestamp } : BlockHeader).same h = true ∧
      h.number % 2 ^ 32 = h'.number % 2 ^ 32 ∧ h.timestamp % 2 ^ 32 = h'.timestamp % 2 ^ 32 := by
  rw [← toUnsigned_eq_iff, ← toUnsigned_eq_iff, same_iff]
  constructor
  · intro heq
    have hread := hw.unsealed.ofBytes_streamRLP Devnet.crypto
    have hread' := hw'.unsealed.ofBytes_streamRLP Devnet.crypto
    rw [streamRLP_unsealed] at hread hread'
    rw [heq, hread'] at hread
    have hback := Except.ok.inj hread
    simp only [readBack, BlockHeader.unsealed, BlockHeader.mk.injEq, Nat.cast_inj] at hback
    obtain ⟨h1, h2, h3, h4, h5, h6, h7, h8, h9, h10, h11, h12, h13, -⟩ := hback
    exact ⟨⟨h1, h2, h3, h4, h5, h6, h7, h8, rfl, h10, h11, rfl, h13⟩, h9.symm, h12.symm⟩
  · rintro ⟨⟨h1, h2, h3, h4, h5, h6, h7, h8, -, h10, h11, -, h13⟩, h9, h12⟩
    unfold streamRLP streamRLPFields
    rw [h9, h12]
    simp only at h1 h2 h3 h4 h5 h6 h7 h8 h10 h11 h13
    rw [h1, h2, h3, h4, h5, h6, h7, h8, h10, h11, h13]

end

/-- A header is read back from its encoding as it was if and only if its number and its timestamp fit into
32 bits, and two headers that differ have different encodings without the seal if and only if they are no
aliases. -/
theorem header_codec_iff {h h' : BlockHeader} (c : Crypto) (hw : h.WellFormed) (hw' : h'.WellFormed) :
    (h.ReadsBack c ↔ h.Fits) ∧
    ((h.same h' = false → h.streamRLP .WithoutSeal ≠ h'.streamRLP .WithoutSeal) ↔ ¬h.Aliases h') := by
  refine ⟨hw.readsBack_iff c, ?_⟩
  unfold Aliases
  rw [ne_eq, hw.streamRLP_eq_iff hw']
  exact not_and.symm

/-- Headers that fit into 32 bits are no aliases. -/
theorem Fits.not_aliases {h h' : BlockHeader} (hw : h.WellFormed) (hw' : h'.WellFormed) (hf : h.Fits)
    (hf' : h'.Fits) : ¬h.Aliases h' := by
  rintro ⟨hne, hsame, hnumber, htimestamp⟩
  have h1 := hw.number_nonneg
  have h2 := hw'.number_nonneg
  have h3 := hw.timestamp_nonneg
  have h4 := hw'.timestamp_nonneg
  unfold Fits at hf hf'
  have hn : h.number = h'.number := by omega
  have ht : h.timestamp = h'.timestamp := by omega
  rw [same_iff] at hsame
  have heq : h.same h' = true := by
    rw [same_iff]
    obtain ⟨h1, h2, h3, h4, h5, h6, h7, h8, -, h10, h11, -, h13⟩ := hsame
    exact ⟨h1.symm, h2.symm, h3.symm, h4.symm, h5.symm, h6.symm, h7.symm, h8.symm, hn, h10.symm,
      h11.symm, ht, h13.symm⟩
  rw [heq] at hne
  cases hne

/-! ## Two headers with one encoding -/

/-- A header of the given number. -/
def numbered (n : ℤ) : BlockHeader := { empty with number := n, timestamp := 0 }

set_option maxRecDepth 100000 in
theorem wellFormed_numbered {n : ℤ} (h0 : 0 ≤ n) (h : n < 2 ^ 63) (hmod : n % 2 ^ 32 = 0) :
    (numbered n).WellFormed where
  number_nonneg := h0
  number_lt := h
  timestamp_nonneg := le_rfl
  timestamp_lt := by norm_num [numbered]
  items_seal := by
    intro e he
    cases he
  size := by
    have hz : toUnsigned (numbered n).number = toUnsigned (numbered 0).number :=
      toUnsigned_eq_iff.2 hmod
    have hfields : (numbered n).streamRLPFields = (numbered 0).streamRLPFields := by
      unfold streamRLPFields
      rw [hz]
      rfl
    show ((numbered n).streamRLPFields ++ []).flatten.length < maxPayload
    rw [hfields]
    decide

/-- A sealed header without an empty field. -/
def filled (number timestamp : ℤ) : BlockHeader :=
  { parentHash := 1, sha3Uncles := 2, author := 3, stateRoot := 4, transactionsRoot := 5, receiptsRoot := 6,
    logBloom := 7, difficulty := 2 ^ 70, number, gasLimit := 21000, gasUsed := 300, timestamp, extraData := [8, 9],
    m_seal := [RLPStream.encodeBytes (asBytes 48 (10 : G1)), RLPStream.encodeBytes (asBytes 96 (11 : BitVec 768))],
    m_hash := 0, m_hashWithout := 0 }

theorem items_filled (number timestamp : ℤ) : Items (filled number timestamp).m_seal := by
  unfold Items filled
  simp only [List.forall_mem_cons]
  exact ⟨⟨_, isItem_encodeBytes (by decide)⟩, ⟨_, isItem_encodeBytes (by decide)⟩, by simp⟩

/-- Two headers, one of them two blocks and some seconds behind the other one. -/
theorem header_codec_filled : (filled 258 70000).ReadsBack Devnet.crypto ∧
    (filled 258 70000).streamRLP .WithoutSeal ≠ (filled 260 70005).streamRLP .WithoutSeal := by
  have hw : (filled 258 70000).WellFormed :=
    ⟨by decide, by decide +kernel, by decide, by decide +kernel, items_filled _ _, by decide +kernel⟩
  have hw' : (filled 260 70005).WellFormed :=
    ⟨by decide, by decide +kernel, by decide, by decide +kernel, items_filled _ _, by decide +kernel⟩
  have hf : (filled 258 70000).Fits := ⟨by decide +kernel, by decide +kernel⟩
  have hf' : (filled 260 70005).Fits := ⟨by decide +kernel, by decide +kernel⟩
  obtain ⟨hback, hdiffer⟩ := header_codec_iff Devnet.crypto hw hw'
  exact ⟨hback.2 hf, hdiffer.2 (Fits.not_aliases hw hw' hf hf') (by decide +kernel)⟩

/-- Block `2 ^ 32` is read back as block 0, and has block 0's encoding and with it its hash. -/
theorem header_codec_wraps : (numbered (2 ^ 32)).WellFormed ∧ (numbered 0).WellFormed ∧
    ¬(numbered (2 ^ 32)).ReadsBack Devnet.crypto ∧ (numbered (2 ^ 32)).same (numbered 0) = false ∧
    (numbered (2 ^ 32)).streamRLP .WithoutSeal = (numbered 0).streamRLP .WithoutSeal := by
  have hw : (numbered (2 ^ 32)).WellFormed :=
    wellFormed_numbered (by norm_num) (by norm_num) (by norm_num)
  have hw0 : (numbered 0).WellFormed := wellFormed_numbered (by norm_num) (by norm_num) (by norm_num)
  refine ⟨hw, hw0, ?_, by decide +kernel, (hw.streamRLP_eq_iff hw0).2 ?_⟩
  · rw [hw.readsBack_iff]
    rintro ⟨hlt, -⟩
    norm_num [numbered] at hlt
  · exact ⟨by decide +kernel, by norm_num [numbered], rfl⟩

end BlockHeader

end Petrachor
