import Petrachor.Lib.Word
import Petrachor.RLPCanon
import Petrachor.Devnet
import Petrachor.LegacyVM

/-!
# Arithmetic

The words the arithmetic instructions push are those their definitions over the integers give.
-/

namespace Petrachor

/-- The value of an arithmetic instruction at the entries of the stack, top first. Signed numbers are
read in two's complement; a result outside the 256 bits wraps. -/
def Instruction.meaning (a b c : U256) : Instruction → Option U256
  | .DIV => some (if b = 0 then 0 else BitVec.ofNat 256 (a.toNat / b.toNat))
  | .SDIV => some (if b = 0 then 0 else BitVec.ofInt 256 (a.toInt.tdiv b.toInt))
  | .MOD => some (if b = 0 then 0 else BitVec.ofNat 256 (a.toNat % b.toNat))
  | .SMOD => some (if b = 0 then 0 else BitVec.ofInt 256 (a.toInt.tmod b.toInt))
  | .ADDMOD => some (if c = 0 then 0 else BitVec.ofNat 256 ((a.toNat + b.toNat) % c.toNat))
  | .MULMOD => some (if c = 0 then 0 else BitVec.ofNat 256 (a.toNat * b.toNat % c.toNat))
  | .EXP => some (BitVec.ofNat 256 (a.toNat ^ b.toNat))
  -- the low `a + 1` bytes as a signed number
  | .SIGNEXTEND =>
    some (if a.toNat < 31 then BitVec.ofInt 256 (Int.bmod b.toNat (2 ^ (8 * a.toNat + 8))) else b)
  | .BYTE =>
    some (if a.toNat < 32 then BitVec.ofNat 256 (b.toNat / 256 ^ (31 - a.toNat) % 256) else 0)
  | .SHL => some (if 256 ≤ a.toNat then 0 else BitVec.ofNat 256 (b.toNat * 2 ^ a.toNat))
  | .SHR => some (if 256 ≤ a.toNat then 0 else BitVec.ofNat 256 (b.toNat / 2 ^ a.toNat))
  | .SAR =>
    some (if 256 ≤ a.toNat then if b.toInt < 0 then BitVec.ofInt 256 (-1) else 0
      else BitVec.ofInt 256 (b.toInt / 2 ^ a.toNat))
  | .SLT => some (if a.toInt < b.toInt then 1 else 0)
  | .SGT => some (if b.toInt < a.toInt then 1 else 0)
  | _ => none

/-! ## Signed numbers -/

theorem signed_of_lt {n : ℕ} {x : ℤ} (h : x.natAbs < 2 ^ n) : signed n x = x := by
  unfold signed
  rw [Nat.mod_eq_of_lt h]
  exact Int.sign_mul_natAbs x

theorem natAbs_toInt_le (u : U256) : u.toInt.natAbs ≤ 2 ^ 255 := by
  have hlt := BitVec.toInt_lt (x := u)
  have hle := BitVec.le_toInt u
  simp only [Nat.add_one_sub_one] at hlt hle
  omega

theorem u2s_eq (u : U256) : u2s u = u.toInt := by
  have hlt := u.isLt
  unfold u2s
  rw [BitVec.toInt_eq_msb_cond, BitVec.msb_eq_getLsbD_last]
  split
  · rename_i h
    have hge : 2 ^ 255 ≤ u.toNat := by
      by_contra hlo
      have := Nat.testBit_lt_two_pow (not_le.1 hlo)
      rw [BitVec.testBit_toNat, h] at this
      cases this
    rw [signed_of_lt (by omega)]
    push_cast
    ring
  · rename_i h
    rw [signed_of_lt (by omega)]

theorem s2u_eq (x : ℤ) : s2u x = BitVec.ofInt 256 x := by
  unfold s2u
  split
  · rfl
  · apply BitVec.eq_of_toInt_eq
    rw [BitVec.toInt_ofInt, BitVec.toInt_ofInt, Int.add_comm]
    exact_mod_cast Int.add_bmod_right x (2 ^ 256)

theorem quotient_eq {a b : ℤ} (ha : a.natAbs < 2 ^ 512) (hb : b.natAbs < 2 ^ 512) :
    quotient a b = a.tdiv b := by
  unfold quotient
  rw [signed_of_lt ha, signed_of_lt hb]

theorem remainder_eq {a b : ℤ} (ha : a.natAbs < 2 ^ 512) (hb : b.natAbs < 2 ^ 512) :
    remainder a b = a.tmod b := by
  unfold remainder
  rw [signed_of_lt ha, signed_of_lt hb]

namespace LegacyVM

/-! ## The instructions one by one -/

theorem div_eq (a b : U256) :
    div a b = if b = 0 then 0 else BitVec.ofNat 256 (a.toNat / b.toNat) := by
  have ha := a.isLt
  have hb := b.isLt
  unfold div divWorkaround
  rw [quotient_eq (by omega) (by omega), ite_not, ← Int.ofNat_tdiv, BitVec.ofInt_natCast]

theorem mod_eq (a b : U256) :
    mod a b = if b = 0 then 0 else BitVec.ofNat 256 (a.toNat % b.toNat) := by
  have ha := a.isLt
  have hb := b.isLt
  unfold mod modWorkaround
  rw [remainder_eq (by omega) (by omega), ite_not, ← Int.ofNat_tmod, BitVec.ofInt_natCast]

theorem sdiv_eq (a b : U256) :
    sdiv a b = if b = 0 then 0 else BitVec.ofInt 256 (a.toInt.tdiv b.toInt) := by
  have ha := natAbs_toInt_le a
  have hb := natAbs_toInt_le b
  have hq := Int.natAbs_tdiv_le_natAbs a.toInt b.toInt
  unfold sdiv
  rw [u2s_eq, u2s_eq, quotient_eq (by omega) (by omega), signed_of_lt (by omega), s2u_eq, ite_not]

theorem smod_eq (a b : U256) :
    smod a b = if b = 0 then 0 else BitVec.ofInt 256 (a.toInt.tmod b.toInt) := by
  have ha := natAbs_toInt_le a
  have hb := natAbs_toInt_le b
  have hr : (a.toInt.tmod b.toInt).natAbs ≤ a.toInt.natAbs := by
    rw [Int.natAbs_tmod]
    exact Nat.mod_le _ _
  unfold smod
  rw [u2s_eq, u2s_eq, remainder_eq (by omega) (by omega), signed_of_lt (by omega), s2u_eq, ite_not]

/-- A word keeps its value in twice as many bits. -/
theorem toNat_wide (a : U256) : (a.setWidth 512).toNat = a.toNat := by
  have ha := a.isLt
  rw [BitVec.toNat_setWidth, Nat.mod_eq_of_lt (by omega)]

theorem addmod_eq (a b c : U256) :
    addmod a b c = if c = 0 then 0 else BitVec.ofNat 256 ((a.toNat + b.toNat) % c.toNat) := by
  have ha := a.isLt
  have hb := b.isLt
  unfold addmod
  have hsum : (a.setWidth 512 + b.setWidth 512).toNat = a.toNat + b.toNat := by
    rw [BitVec.toNat_add, toNat_wide, toNat_wide, Nat.mod_eq_of_lt (by omega)]
  rw [BitVec.toNat_umod, hsum, toNat_wide, ite_not]

theorem mulmod_eq (a b c : U256) :
    mulmod a b c = if c = 0 then 0 else BitVec.ofNat 256 (a.toNat * b.toNat % c.toNat) := by
  have ha := a.isLt
  have hb := b.isLt
  have hab : a.toNat * b.toNat < 2 ^ 256 * 2 ^ 256 := Nat.mul_lt_mul'' ha hb
  unfold mulmod
  have hprod : (a.setWidth 512 * b.setWidth 512).toNat = a.toNat * b.toNat := by
    rw [BitVec.toNat_mul, toNat_wide, toNat_wide, Nat.mod_eq_of_lt (by omega)]
  rw [BitVec.toNat_umod, hprod, toNat_wide, ite_not]

theorem slt_eq (a b : U256) : slt a b = if a.toInt < b.toInt then 1 else 0 := by
  unfold slt
  rw [u2s_eq, u2s_eq]

theorem sgt_eq (a b : U256) : sgt a b = if b.toInt < a.toInt then 1 else 0 := by
  unfold sgt
  rw [u2s_eq, u2s_eq]

theorem byte_eq (i x : U256) : byte i x =
    if i.toNat < 32 then BitVec.ofNat 256 (x.toNat / 256 ^ (31 - i.toNat) % 256) else 0 := by
  have hx := x.isLt
  have hlt : i < 32 ↔ i.toNat < 32 := BitVec.lt_def
  unfold byte
  rw [if_congr hlt rfl rfl]
  split
  · rename_i h
    have hsh : (8 * (31 - i) : U256).toNat = 8 * (31 - i.toNat) := by
      have : (8 * (31 - i) : U256) = BitVec.ofNat 256 (8 * (31 - i.toNat)) := by bv_omega
      rw [this, BitVec.toNat_ofNat]
      omega
    apply BitVec.eq_of_toNat_eq
    have hpow : 2 ^ (8 * (31 - i.toNat)) = 256 ^ (31 - i.toNat) := by
      rw [pow_mul]
      rfl
    rw [hsh, BitVec.toNat_and, BitVec.toNat_ushiftRight, Nat.shiftRight_eq_div_pow, hpow,
      BitVec.toNat_ofNat, Nat.mod_eq_of_lt (show _ % 256 < 2 ^ 256 by omega)]
    exact Nat.and_two_pow_sub_one_eq_mod _ 8
  · rfl

theorem shl_eq (n x : U256) : shl n x =
    if 256 ≤ n.toNat then 0 else BitVec.ofNat 256 (x.toNat * 2 ^ n.toNat) := by
  unfold shl
  rw [if_congr (show (256 : U256) ≤ n ↔ 256 ≤ n.toNat from BitVec.le_def) rfl rfl]
  split
  · rfl
  · apply BitVec.eq_of_toNat_eq
    rw [BitVec.toNat_shiftLeft, BitVec.toNat_ofNat, Nat.shiftLeft_eq]

theorem shr_eq (n x : U256) : shr n x =
    if 256 ≤ n.toNat then 0 else BitVec.ofNat 256 (x.toNat / 2 ^ n.toNat) := by
  have hx := x.isLt
  unfold shr
  rw [if_congr (show (256 : U256) ≤ n ↔ 256 ≤ n.toNat from BitVec.le_def) rfl rfl]
  split
  · rfl
  · apply BitVec.eq_of_toNat_eq
    rw [BitVec.toNat_ushiftRight, BitVec.toNat_ofNat, Nat.shiftRight_eq_div_pow, Nat.mod_eq_of_lt]
    exact (Nat.div_le_self _ _).trans_lt hx

set_option maxRecDepth 100000 in
theorem and_hibit (x : U256) : x &&& hibit ≠ 0 ↔ x.msb = true := by
  have hbit : ∀ i < 256, hibit.getLsbD i = decide (i = 255) := by decide
  rw [BitVec.msb_eq_getLsbD_last]
  constructor
  · intro h
    by_contra hm
    apply h
    apply BitVec.eq_of_getLsbD_eq
    intro i hi
    rw [BitVec.getLsbD_and, hbit i hi]
    by_cases h255 : i = 255
    · subst h255
      simpa using hm
    · simp [h255]
  · intro h h0
    have hand : (x &&& hibit).getLsbD 255 = true := by
      rw [BitVec.getLsbD_and, hbit 255 (by decide), h]
      rfl
    simp [h0] at hand

theorem sar_eq (n x : U256) : sar n x =
    if 256 ≤ n.toNat then if x.toInt < 0 then BitVec.ofInt 256 (-1) else 0
    else BitVec.ofInt 256 (x.toInt / 2 ^ n.toNat) := by
  have hneg : x &&& hibit ≠ 0 ↔ x.toInt < 0 := by
    rw [and_hibit, BitVec.toInt_neg_iff, BitVec.msb_eq_true_iff_two_mul_ge]
  unfold sar
  rw [if_congr (show (256 : U256) ≤ n ↔ 256 ≤ n.toNat from BitVec.le_def) rfl rfl]
  split
  · rw [if_congr hneg rfl rfl]
    rfl
  · rename_i h
    rw [← Word.shift_eq x (not_le.1 h)]
    dsimp only
    rw [if_congr (and_hibit x) rfl rfl]
    rfl

theorem signextend_eq (i x : U256) : signextend i x =
    if i.toNat < 31 then BitVec.ofInt 256 (Int.bmod x.toNat (2 ^ (8 * i.toNat + 8))) else x := by
  unfold signextend
  rw [if_congr (show i < (31 : U256) ↔ i.toNat < 31 from BitVec.lt_def) rfl rfl]
  split
  · rename_i h
    dsimp only
    have hext := Word.extend_eq x (t := i.toNat * 8 + 7) (by omega)
    refine hext.trans ?_
    rw [BitVec.signExtend, BitVec.toInt_setWidth, show i.toNat * 8 + 7 + 1 = 8 * i.toNat + 8 by ring]
  · rfl

/-! ## Exponentiation -/

theorem exp256_go_eq : ∀ (k : ℕ) (base exponent result : U256), exponent.toNat < 2 ^ k →
    exp256.go k base exponent result = result * base ^ exponent.toNat := by
  intro k
  induction k with
  | zero =>
    intro base exponent result h
    rw [show exponent.toNat = 0 by omega, pow_zero, mul_one]
    rfl
  | succ k ih =>
    intro base exponent result h
    unfold exp256.go
    split
    · rename_i h0
      rw [h0]
      simp
    · have hhalf : (exponent >>> 1).toNat = exponent.toNat / 2 := by
        rw [BitVec.toNat_ushiftRight, Nat.shiftRight_eq_div_pow, pow_one]
      rw [ih _ _ _ (by rw [hhalf]; omega), hhalf, ← Word.pow_step base result exponent.toNat]
      congr 1
      refine if_congr ?_ rfl rfl
      rw [← BitVec.testBit_toNat, Nat.testBit_zero]
      exact decide_eq_true_iff

theorem exp256_eq (base exponent : U256) :
    exp256 base exponent = BitVec.ofNat 256 (base.toNat ^ exponent.toNat) := by
  unfold exp256
  rw [exp256_go_eq _ _ _ _ exponent.isLt, ← Word.pow_eq_ofNat]
  exact one_mul _

theorem firstBitOfByte_add (k : ℕ) : ∀ (d : UInt8) (ret : ℕ),
    firstBitOfByte k d ret = ret + firstBitOfByte k d 0 := by
  induction k with
  | zero => exact fun _ _ => rfl
  | succ k ih =>
    intro d ret
    unfold firstBitOfByte
    split
    · rfl
    · rw [ih, ih _ (0 + 1)]
      omega

set_option maxRecDepth 100000 in
theorem firstBitOfByte_lt {d : UInt8} (h : d ≠ 0) : firstBitOfByte 8 d 0 < 8 := by
  have hall : ∀ n : Fin 256, UInt8.ofNat n ≠ 0 → firstBitOfByte 8 (UInt8.ofNat n) 0 < 8 := by
    decide
  have := hall ⟨d.toNat, d.toNat_lt⟩
  simp only [UInt8.ofNat_toNat] at this
  exact this h

/-- The first bit set stands behind the leading zero bytes. -/
theorem firstBitSet_div (b : Bytes) (r : ℕ) :
    firstBitSet b (8 * r) / 8 + bytesRequired (fromBigEndian b) = r + b.length := by
  induction b generalizing r with
  | nil =>
    show 8 * r / 8 + bytesRequired 0 = r + 0
    rw [Nat.mul_div_cancel_left r (by decide)]
    rfl
  | cons d l ih =>
    unfold firstBitSet
    split
    · rename_i hd
      have hlt := firstBitOfByte_lt hd
      have hreq := bytesRequired_fromBigEndian (b := d :: l) (by
        rw [byteAt_cons_zero]
        exact fun h => hd (UInt8.toNat_inj.1 h))
      rw [firstBitOfByte_add, hreq]
      omega
    · rename_i hd
      have h0 : fromBigEndian (d :: l) = fromBigEndian l := by
        rw [not_not.1 hd]
        rfl
      have := ih (r + 1)
      rw [h0, show 8 * r + 8 = 8 * (r + 1) by ring, List.length_cons]
      omega

/-- The bytes of a word up to its leading zeros are counted. -/
theorem significant_bytes (x : U256) :
    32 - firstBitSet (asBytes 32 x) 0 / 8 = bytesRequired x.toNat := by
  have h := firstBitSet_div (asBytes 32 x) 0
  have hx : fromBigEndian (asBytes 32 x) = x.toNat := by
    unfold asBytes
    rw [fromBigEndian_toBigEndian]
    exact Nat.mod_eq_of_lt x.isLt
  have hlen : (asBytes 32 x).length = 32 := length_toBigEndian 32 _
  rw [hx, hlen, Nat.mul_zero] at h
  omega

/-! ## What a step pushes -/

/-- The price of an arithmetic instruction; `expon` is the exponent of `EXP`. -/
def arithmeticGas (s : EVMSchedule) (op : Instruction) (expon : U256) : ℕ :=
  if op = .EXP then s.expGas + s.expByteGas * bytesRequired expon.toNat
  else tierGas s op.info.gasPriceTier

/-- `v` is put at `p` for a price, if there is enough gas. -/
structure Pays {σ : Type} (d : Machine σ) (p : ℤ) (v : U256) (gas : ℕ) (r : Body (Machine σ)) :
    Prop where
  short : d.m_io_gas < gas → r = throwOutOfGas
  paid : gas ≤ d.m_io_gas → ∃ d', r = .ok d' ∧ d'.m_stack = Function.update d.m_stack p v ∧
    d'.m_io_gas + gas = d.m_io_gas ∧ d'.m_ext = d.m_ext ∧ d'.m_mem = d.m_mem

variable {σ : Type} {f : ExtVMFace σ} {d : Machine σ} {p : ℤ} {v : U256} {gas : ℕ}

theorem pays_of_updateIOGas {g : Machine σ → Machine σ}
    (hg : ∀ n, (g { d with m_io_gas := n }).m_stack = Function.update d.m_stack p v ∧
      (g { d with m_io_gas := n }).m_io_gas = n ∧ (g { d with m_io_gas := n }).m_ext = d.m_ext ∧
        (g { d with m_io_gas := n }).m_mem = d.m_mem) :
    Pays d p v d.m_runGas (do
      let e ← d.updateIOGas
      .ok (g e)) where
  short h := by
    rw [Machine.updateIOGas_of_lt h]
    rfl
  paid h := by
    rw [Machine.updateIOGas_of_le h]
    obtain ⟨hs, hio, hx, hm⟩ := hg (d.m_io_gas - d.m_runGas)
    refine ⟨_, rfl, hs, ?_, hx, hm⟩
    rw [hio]
    exact Nat.sub_add_cancel h

theorem pays_charge {g : Machine σ → Machine σ}
    (hg : ∀ n, (g { d with m_io_gas := n, m_runGas := gas }).m_stack = Function.update d.m_stack p v ∧
      (g { d with m_io_gas := n, m_runGas := gas }).m_io_gas = n ∧
      (g { d with m_io_gas := n, m_runGas := gas }).m_ext = d.m_ext ∧
        (g { d with m_io_gas := n, m_runGas := gas }).m_mem = d.m_mem) :
    Pays d p v gas (do
      let e ← d.charge gas
      .ok (g e)) := by
  have h : Pays { d with m_runGas := gas } p v gas _ := pays_of_updateIOGas hg
  exact ⟨h.short, h.paid⟩

/-- What is changed afterwards does not matter if it is neither the stack nor the gas. -/
theorem Pays.andThen {r : Body (Machine σ)} (h : Pays d p v gas r) {g : Machine σ → Machine σ}
    (hg : ∀ e : Machine σ, (g e).m_stack = e.m_stack ∧ (g e).m_io_gas = e.m_io_gas ∧
      (g e).m_ext = e.m_ext ∧ (g e).m_mem = e.m_mem) :
    Pays d p v gas (do
      let e ← r
      .ok (g e)) where
  short hlt := by
    rw [h.short hlt]
    rfl
  paid hle := by
    obtain ⟨e, rfl, hst, hio, hx, hm⟩ := h.paid hle
    obtain ⟨hst', hio', hx', hm'⟩ := hg e
    exact ⟨g e, rfl, hst'.trans hst, by rw [hio', hio], hx'.trans hx, hm'.trans hm⟩

theorem pays_push : Pays d p v d.m_runGas (push p d v) :=
  pays_of_updateIOGas fun _ => ⟨rfl, rfl, rfl, rfl⟩

theorem pays_require {b : Bool} {r : Body (Machine σ)} (hb : b = true) (h : Pays d p v gas r) :
    Pays d p v gas (do
      require b
      r) := by
  subst hb
  exact h

theorem toInt63_of_le {n : ℕ} (h : n ≤ 0x7FFFFFFFFFFFFFFF) : toInt63 n = .ok n := by
  unfold toInt63
  exact if_neg (not_lt.2 h)

theorem expGas_le {s : EVMSchedule} (hs : s ∈ EVMSchedule.all) :
    s.expGas + s.expByteGas * 32 ≤ 1610 := by
  revert s
  decide

/-- An arithmetic instruction pushes its value. -/
theorem interpretNext_pays (crypto : Crypto) {op : Instruction} (pc : ℕ)
    (hs : f.evmSchedule ∈ EVMSchedule.all)
    (hshift : op = .SHL ∨ op = .SHR ∨ op = .SAR → f.evmSchedule.haveBitwiseShifting = true)
    (hrun : d.m_runGas = tierGas f.evmSchedule op.info.gasPriceTier)
    (hm : op.meaning (d.sp 0) (d.sp 1) (d.sp 2) = some v) :
    Pays d (d.m_SP + op.info.args - op.info.ret) v (arithmeticGas f.evmSchedule op (d.sp 1))
      (interpretNext f crypto op pc (d.m_SP + op.info.args - op.info.ret) d) := by
  have hgas : op ≠ .EXP → arithmeticGas f.evmSchedule op (d.sp 1) = d.m_runGas := by
    intro hne
    unfold arithmeticGas
    rw [if_neg hne, hrun]
  cases op with
  | DIV => rw [hgas (by decide), ← Option.some.inj hm, ← div_eq]; exact pays_push
  | MOD => rw [hgas (by decide), ← Option.some.inj hm, ← mod_eq]; exact pays_push
  | SMOD => rw [hgas (by decide), ← Option.some.inj hm, ← smod_eq]; exact pays_push
  | ADDMOD => rw [hgas (by decide), ← Option.some.inj hm, ← addmod_eq]; exact pays_push
  | MULMOD => rw [hgas (by decide), ← Option.some.inj hm, ← mulmod_eq]; exact pays_push
  | BYTE => rw [hgas (by decide), ← Option.some.inj hm, ← byte_eq]; exact pays_push
  | SLT => rw [hgas (by decide), ← Option.some.inj hm, ← slt_eq]; exact pays_push
  | SGT => rw [hgas (by decide), ← Option.some.inj hm, ← sgt_eq]; exact pays_push
  | SHL =>
    rw [hgas (by decide), ← Option.some.inj hm, ← shl_eq]
    exact pays_require (hshift (.inl rfl)) pays_push
  | SHR =>
    rw [hgas (by decide), ← Option.some.inj hm, ← shr_eq]
    exact pays_require (hshift (.inr (.inl rfl))) pays_push
  | SAR =>
    rw [hgas (by decide), ← Option.some.inj hm, ← sar_eq]
    exact pays_require (hshift (.inr (.inr rfl))) pays_push
  | SDIV =>
    rw [hgas (by decide), ← Option.some.inj hm, ← sdiv_eq]
    exact pays_push.andThen fun _ => ⟨rfl, rfl, rfl, rfl⟩
  -- the word stands where the result goes
  | SIGNEXTEND =>
    rw [hgas (by decide), ← Option.some.inj hm, ← signextend_eq]
    refine pays_of_updateIOGas fun n => ⟨?_, rfl, rfl, rfl⟩
    show Function.update d.m_stack (d.m_SP + 1) _ = _
    rw [show d.m_SP + (Instruction.info .SIGNEXTEND).args - (Instruction.info .SIGNEXTEND).ret =
      d.m_SP + 1 from by show d.m_SP + (2 : ℕ) - (1 : ℕ) = _; omega]
    rfl
  | EXP =>
    have hle := expGas_le hs
    have hb : bytesRequired (d.sp 1).toNat ≤ 32 := bytesRequired_le (d.sp 1).isLt
    have hmul : f.evmSchedule.expByteGas * bytesRequired (d.sp 1).toNat ≤
        f.evmSchedule.expByteGas * 32 := Nat.mul_le_mul_left _ hb
    have hprice : arithmeticGas f.evmSchedule .EXP (d.sp 1) =
        f.evmSchedule.expGas + f.evmSchedule.expByteGas * bytesRequired (d.sp 1).toNat := if_pos rfl
    rw [hprice, ← Option.some.inj hm, ← exp256_eq]
    show Pays _ _ _ _ ((toInt63 ((f.evmSchedule.expGas + f.evmSchedule.expByteGas *
      (32 - firstBitSet (asBytes 32 (d.sp 1)) 0 / 8)) % 2 ^ 32)) >>= fun runGas =>
        d.charge runGas >>= fun e => .ok (e.put _ (exp256 (e.sp 0) (e.sp 1))))
    rw [significant_bytes, Nat.mod_eq_of_lt (by omega), toInt63_of_le (by omega)]
    exact pays_charge fun _ => ⟨rfl, rfl, rfl, rfl⟩
  | _ => cases hm

theorem interpretCase_of_meaning {crypto : Crypto} {vm : LegacyVM σ} {a b c : U256}
    (h : (Instruction.ofByte vm.m_OP).meaning a b c = some v) :
    interpretCase f crypto vm =
      ofBody (interpretNext f crypto (Instruction.ofByte vm.m_OP) vm.m_PC vm.m_SPP vm.toMachine) >>=
        fun d => .ok (.running { vm with toMachine := d, m_PC := vm.m_PC + 1 }) := by
  unfold interpretCase
  split <;> rename_i hop
  iterate 7
    rw [hop] at h
    cases h
  rfl

/-- A step at an arithmetic instruction replaces its arguments by the value it is defined to have, for
its price. -/
theorem arithmetic_exact (crypto : Crypto) {vm : LegacyVM σ} {b : UInt8}
    (hs : f.evmSchedule ∈ EVMSchedule.all) (hcode : vm.m_code[vm.m_PC]? = some b)
    (hSPP : 0 ≤ vm.m_SPP) (hargs : vm.m_SPP + (Instruction.ofByte b).info.args ≤ stackEnd)
    (hshift : Instruction.ofByte b = .SHL ∨ Instruction.ofByte b = .SHR ∨
      Instruction.ofByte b = .SAR → f.evmSchedule.haveBitwiseShifting = true)
    (hm : (Instruction.ofByte b).meaning (vm.m_stack vm.m_SPP) (vm.m_stack (vm.m_SPP + 1))
      (vm.m_stack (vm.m_SPP + 2)) = some v) :
    let gas := arithmeticGas f.evmSchedule (Instruction.ofByte b) (vm.m_stack (vm.m_SPP + 1))
    (vm.m_io_gas < gas → step f crypto vm = .error (.thrown .OutOfGas)) ∧
    (gas ≤ vm.m_io_gas → ∃ vm', step f crypto vm = .ok (.running vm') ∧
      vm'.m_PC = vm.m_PC + 1 ∧
      vm'.m_SPP = vm.m_SPP + (Instruction.ofByte b).info.args - 1 ∧
      vm'.m_stack = Function.update vm.m_stack vm'.m_SPP v ∧
      vm'.m_io_gas + gas = vm.m_io_gas ∧ vm'.m_ext = vm.m_ext ∧ vm'.m_mem = vm.m_mem) := by
  intro gas
  have hinfo : (Instruction.ofByte b).info.ret = 1 ∧ 2 ≤ (Instruction.ofByte b).info.args := by
    generalize Instruction.ofByte b = op at hm
    cases op <;> first | exact ⟨rfl, by decide⟩ | cases hm
  have hstep : step f crypto vm = interpretCase f crypto (fetched f vm b) :=
    step_eq hcode hargs (by omega)
  have hcase := @interpretCase_of_meaning _ f _ crypto (fetched f vm b) _ _ _ hm
  have hpays := interpretNext_pays (f := f) (d := (fetched f vm b).toMachine) crypto vm.m_PC hs hshift
    rfl (by simpa [Machine.sp, fetched] using hm)
  have hone : vm.m_SPP + (Instruction.ofByte b).info.args - (Instruction.ofByte b).info.ret =
      vm.m_SPP + (Instruction.ofByte b).info.args - 1 := by rw [hinfo.1]; rfl
  have hop : (fetched f vm b).m_OP = b := rfl
  rw [hstep, hcase, hop]
  constructor
  · intro h
    have hshort : interpretNext f crypto (Instruction.ofByte b) vm.m_PC (fetched f vm b).m_SPP
      (fetched f vm b).toMachine = _ := hpays.short h
    show (ofBody (interpretNext f crypto _ vm.m_PC _ _) >>= _) = _
    rw [hshort]
    rfl
  · intro h
    obtain ⟨d', hd', hst, hio, hx, hmem⟩ := hpays.paid h
    have hpaid : interpretNext f crypto (Instruction.ofByte b) vm.m_PC (fetched f vm b).m_SPP
      (fetched f vm b).toMachine = .ok d' := hd'
    refine ⟨{ fetched f vm b with toMachine := d', m_PC := vm.m_PC + 1 }, ?_, rfl, hone, hst, hio, hx,
      hmem⟩
    show (ofBody (interpretNext f crypto _ vm.m_PC _ _) >>= _) = _
    rw [hpaid]
    rfl

/-- A virtual machine at the code `b`, with two words on its stack. -/
def atBinary (b : UInt8) (x y : U256) (gas : U256) : LegacyVM Unit :=
  { entry (nullHost IstanbulSchedule [b]) gas ⟨(), .empty⟩ with
    m_stack := fun p => if p = 1022 then x else y
    m_SPP := 1022 }

/-- `-2^255 / -1`: the quotient has no word of its own. -/
theorem arithmetic_exact_sdiv : ∃ vm',
    step (nullHost IstanbulSchedule [0x05]) Devnet.crypto (atBinary 0x05 (1 <<< 255) (-1) 100) =
      .ok (.running vm') ∧ vm'.m_stack 1023 = 1 <<< 255 ∧ vm'.m_io_gas + 5 = 100 := by
  have hm : (Instruction.ofByte 0x05).meaning (1 <<< 255 : U256) (-1) (-1) = some (1 <<< 255) := by
    decide
  obtain ⟨vm', hstep, -, hspp, hst, hio, -⟩ := (@arithmetic_exact _ (nullHost IstanbulSchedule [0x05])
    (1 <<< 255) Devnet.crypto (atBinary 0x05 (1 <<< 255) (-1) 100) 0x05 (by decide) (by decide)
    (by decide) (by decide) (by decide) hm).2 (by decide)
  have h1023 : vm'.m_SPP = 1023 := hspp
  refine ⟨vm', hstep, ?_, hio⟩
  rw [hst, h1023]
  exact Function.update_self _ _ _

end LegacyVM

end Petrachor
