import Petrachor.LegacyVM.Control

/-!
# The price of memory

An instruction that touches memory settles its base price, the number of bytes it copies and the end of
the memory it needs, and hands them to `updateMem`. `access` has these as exact integers. The 63-bit
caps keep every sum of the code inside its 64 bits, so what is paid is the exact price.
-/

namespace Petrachor

namespace Instruction

def touchesMemory : Instruction → Bool
  | MLOAD | MSTORE | MSTORE8 | SHA3 | LOG _ | CALLDATACOPY | RETURNDATACOPY | CODECOPY | EXTCODECOPY
  | RETURN | REVERT | CREATE | CREATE2 | CALL | CALLCODE | DELEGATECALL | STATICCALL => true
  | _ => false

/-- The instructions that hand gas to another frame. -/
def callsOut : Instruction → Bool
  | CREATE | CREATE2 | CALL | CALLCODE | DELEGATECALL | STATICCALL => true
  | _ => false

end Instruction

/-- The exact price of a memory of `size` bytes. -/
def EVMSchedule.memoryCost (s : EVMSchedule) (size : ℕ) : ℕ :=
  s.memoryGas * (size / 32) + size / 32 * (size / 32) / s.quadCoeffDiv

namespace Machine

variable {σ : Type}

/-! ## The arithmetic in the widths of the code -/

section

variable (s : EVMSchedule) (d : Machine σ)

/-- `memNeed`, whose sum is a `u512`. -/
def memNeed512 (offset size : U256) : Body ℕ :=
  toInt63 (if size ≠ 0 then (offset.toNat + size.toNat) % 2 ^ 512 else 0)

/-- `gasForMem`, all in `u512`. -/
def gasForMem512 (size : ℕ) : Body ℕ :=
  toInt63 ((s.memoryGas * (size / 32) % 2 ^ 512 +
    size / 32 * (size / 32) % 2 ^ 512 / s.quadCoeffDiv) % 2 ^ 512)

/-- `updateGas`, all in `uint64_t`. -/
def updateGas64 : Body (Machine σ) := do
  let runGas ←
    (if d.m_mem.length < d.m_newMemSize then do
      let new ← gasForMem512 s d.m_newMemSize
      let old ← gasForMem512 s d.m_mem.length
      let more ← toInt63 (toUint64 (new + 2 ^ 64 - old))
      .ok (toUint64 (d.m_runGas + more))
    else .ok d.m_runGas)
  let copied := toUint64 (s.copyGas * (toUint64 (d.m_copyMemSize + 31) / 32))
  let runGas := toUint64 (runGas + copied)
  if d.m_io_gas < runGas then throwOutOfGas else .ok { d with m_runGas := runGas }

/-- `updateMem`, all in `uint64_t`. -/
def updateMem64 (newMem : ℕ) : Body (Machine σ) := do
  let d ← updateGas64 s { d with m_newMemSize := toUint64 (toUint64 (newMem + 31) / 32 * 32) }
  .ok (if d.m_mem.length < d.m_newMemSize then
    { d with m_mem := d.m_mem ++ List.replicate (d.m_newMemSize - d.m_mem.length) 0 } else d)

/-- `logGasMem`: two prices are summed in `unsigned`, and the third in `u512`. -/
def logGasMem64 (n : ℕ) : Body (Machine σ) := do
  let base := (s.logGas + s.logTopicGas * n % 2 ^ 32) % 2 ^ 32
  let runGas ← toInt63 ((base + s.logDataGas * (d.sp 1).toNat % 2 ^ 512) % 2 ^ 512)
  let need ← memNeed512 (d.sp 0) (d.sp 1)
  updateMem64 s { d with m_runGas := runGas } need

end

end Machine

namespace LegacyVM

variable {σ : Type} (f : ExtVMFace σ)

open Machine

/-! ## What an instruction asks for -/

/-- The base price, the bytes that are copied and the pieces of memory that are touched, as exact
integers. -/
structure Access where
  base : ℕ
  copied : ℕ
  ranges : List (ℕ × ℕ)

namespace Access

/-- The end of the memory that is needed: empty pieces need none. -/
def top (a : Access) : ℕ := a.ranges.foldr (fun r n => max (if r.2 ≠ 0 then r.1 + r.2 else 0) n) 0

/-- The size of a memory that had `mem` bytes. -/
def size (a : Access) (mem : ℕ) : ℕ := max mem ((a.top + 31) / 32 * 32)

/-- The price, but for what the old memory has cost. -/
def price (a : Access) (s : EVMSchedule) (mem : ℕ) : ℕ :=
  a.base + s.copyGas * ((a.copied + 31) / 32) + s.memoryCost (a.size mem)

end Access

/-- The price of a call before memory is paid for. -/
def callPrice (op : Instruction) (d : Machine σ) : ℕ :=
  (if (op = .STATICCALL ∨ f.staticCall) ∧ isPrecompiledContract (asAddress (d.sp 1)) then
      f.evmSchedule.precompileStaticCallGas
    else if asAddress (d.sp 1) = f.myAddress then f.evmSchedule.callSelfGas
    else f.evmSchedule.callGas) +
  (if op = .CALL ∧ (0 < d.sp 2 ∨ f.evmSchedule.zeroValueTransferChargesNewAccountGas) ∧
      ¬f.exists_ d.m_ext.s (asAddress (d.sp 1)) then f.evmSchedule.callNewAccountGas else 0) +
  (if (op = .CALL ∨ op = .CALLCODE) ∧ 0 < d.sp 2 then f.evmSchedule.callValueTransferGas else 0)

/-- The access of an instruction with its arguments on the stack. -/
def access (op : Instruction) (d : Machine σ) : Access :=
  let s := f.evmSchedule
  let tier := tierGas s op.info.gasPriceTier
  let word (i : ℕ) : ℕ := (d.sp i).toNat
  match op with
  | .MLOAD | .MSTORE => ⟨tier, 0, [(word 0, 32)]⟩
  | .MSTORE8 => ⟨tier, 0, [(word 0, 1)]⟩
  | .SHA3 => ⟨s.sha3Gas + (word 1 + 31) / 32 * s.sha3WordGas, 0, [(word 0, word 1)]⟩
  | .LOG n => ⟨s.logGas + s.logTopicGas * n + s.logDataGas * word 1, 0, [(word 0, word 1)]⟩
  | .CALLDATACOPY | .RETURNDATACOPY | .CODECOPY => ⟨tier, word 2, [(word 0, word 2)]⟩
  | .EXTCODECOPY => ⟨s.extcodecopyGas, word 3, [(word 1, word 3)]⟩
  | .RETURN | .REVERT => ⟨tier, 0, [(word 0, word 1)]⟩
  | .CREATE => ⟨s.createGas, 0, [(word 1, word 2)]⟩
  | .CREATE2 => ⟨s.createGas + (word 2 + 31) / 32 * s.sha3WordGas, 0, [(word 1, word 2)]⟩
  | .CALL | .CALLCODE => ⟨tier + callPrice f op d, 0, [(word 3, word 4), (word 5, word 6)]⟩
  | .DELEGATECALL | .STATICCALL => ⟨tier + callPrice f op d, 0, [(word 2, word 3), (word 4, word 5)]⟩
  | _ => ⟨tier, 0, []⟩

/-- What an instruction checks before it asks for gas. -/
def precheck (op : Instruction) (d : Machine σ) : Body Unit :=
  let s := f.evmSchedule
  match op with
  | .CREATE2 => do
    require s.haveCreate2
    requireState f
  | .CREATE | .LOG _ => requireState f
  | .DELEGATECALL => require s.haveDelegateCall
  | .STATICCALL => require s.haveStaticCall
  | .CALL => if f.staticCall ∧ d.sp 2 ≠ 0 then .error .DisallowedStateChange else .ok ()
  | .RETURNDATACOPY => do
    require s.haveReturnData
    let endOfAccess := (d.sp 1).toNat + (d.sp 2).toNat
    if d.m_returnData.length < endOfAccess then
      .error (.BufferOverrun endOfAccess d.m_returnData.length)
    else .ok ()
  | .REVERT => require s.haveRevert
  | _ => .ok ()

/-- The machine that calls `updateMem`, and the argument of the call. -/
def memoryCall (op : Instruction) (d : Machine σ) : Body (Machine σ × ℕ) :=
  let s := f.evmSchedule
  match op with
  | .MLOAD | .MSTORE => do
    let offset ← toInt63 (d.sp 0).toNat
    .ok (d, offset + 32)
  | .MSTORE8 => do
    let offset ← toInt63 (d.sp 0).toNat
    .ok (d, offset + 1)
  | .SHA3 => do
    let runGas ← toInt63 (s.sha3Gas + ((d.sp 1).toNat + 31) / 32 * s.sha3WordGas)
    let need ← memNeed (d.sp 0) (d.sp 1)
    .ok ({ d with m_runGas := runGas }, need)
  | .LOG n => do
    let runGas ← toInt63 (s.logGas + s.logTopicGas * n + s.logDataGas * (d.sp 1).toNat)
    let need ← memNeed (d.sp 0) (d.sp 1)
    .ok ({ d with m_runGas := runGas }, need)
  | .CALLDATACOPY | .RETURNDATACOPY | .CODECOPY => do
    let size ← toInt63 (d.sp 2).toNat
    let need ← memNeed (d.sp 0) (d.sp 2)
    .ok ({ d with m_copyMemSize := size }, need)
  | .EXTCODECOPY => do
    let runGas ← toInt63 s.extcodecopyGas
    let size ← toInt63 (d.sp 3).toNat
    let need ← memNeed (d.sp 1) (d.sp 3)
    .ok ({ d with m_runGas := runGas, m_copyMemSize := size }, need)
  | .RETURN | .REVERT => do
    let need ← memNeed (d.sp 0) (d.sp 1)
    .ok (d, need)
  | .CREATE => do
    let runGas ← toInt63 s.createGas
    let need ← memNeed (d.sp 1) (d.sp 2)
    .ok ({ d with m_runGas := runGas }, need)
  | .CREATE2 => do
    let runGas ← toInt63 s.createGas
    let more ← toInt63 (((d.sp 2).toNat + 31) / 32 * s.sha3WordGas)
    let need ← memNeed (d.sp 1) (d.sp 2)
    .ok ({ d with m_runGas := toUint64 (runGas + more) }, need)
  | .CALL | .CALLCODE | .DELEGATECALL | .STATICCALL => do
    let sizesOffset := if op = .CALL ∨ op = .CALLCODE then 3 else 2
    let runGas ←
      (if (op = .STATICCALL ∨ f.staticCall) ∧ isPrecompiledContract (asAddress (d.sp 1)) then
        toInt63 s.precompileStaticCallGas
      else toInt63 (if asAddress (d.sp 1) = f.myAddress then s.callSelfGas else s.callGas))
    let newAccount ←
      (if op = .CALL ∧ (0 < d.sp 2 ∨ s.zeroValueTransferChargesNewAccountGas) ∧
          ¬f.exists_ d.m_ext.s (asAddress (d.sp 1)) then toInt63 s.callNewAccountGas else .ok 0)
    let transfer ←
      (if (op = .CALL ∨ op = .CALLCODE) ∧ 0 < d.sp 2 then toInt63 s.callValueTransferGas
      else .ok 0)
    let inputMemNeed ← memNeed (d.sp sizesOffset) (d.sp (sizesOffset + 1))
    let outputMemNeed ← memNeed (d.sp (sizesOffset + 2)) (d.sp (sizesOffset + 3))
    .ok ({ d with
        m_runGas := toUint64 (d.m_runGas + runGas + newAccount + transfer)
        m_returnData := [] }, max inputMemNeed outputMemNeed)
  | _ => .ok (d, 0)

/-- The gas and the memory of an instruction. -/
def pay (op : Instruction) (d : Machine σ) : Body (Machine σ) := do
  let (d, need) ← memoryCall f op d
  let d ← updateMem f.evmSchedule d need
  d.updateIOGas

/-! ## Prices -/

section

variable {f} {s : EVMSchedule}

/-- The prices the memory instructions are made of. -/
structure Prices (s : EVMSchedule) : Prop where
  memoryGas : s.memoryGas = 3
  quadCoeffDiv : s.quadCoeffDiv = 512
  copyGas : s.copyGas = 3
  sha3Gas : s.sha3Gas = 30
  sha3WordGas : s.sha3WordGas = 6
  logGas : s.logGas = 375
  logTopicGas : s.logTopicGas = 375
  logDataGas : s.logDataGas = 8
  createGas : s.createGas = 32000
  callGas : s.callGas ≤ 700
  callSelfGas : s.callSelfGas = 40
  precompileStaticCallGas : s.precompileStaticCallGas = 700
  callNewAccountGas : s.callNewAccountGas = 25000
  callValueTransferGas : s.callValueTransferGas = 9000
  extcodecopyGas : s.extcodecopyGas ≤ 700
  tierStepGas : s.tierStepGas = [0, 2, 3, 5, 8, 10, 20, 0]

theorem prices_of_mem (hs : s ∈ EVMSchedule.all) : Prices s := by
  have h : ∀ s ∈ EVMSchedule.all, s.memoryGas = 3 ∧ s.quadCoeffDiv = 512 ∧ s.copyGas = 3 ∧
      s.sha3Gas = 30 ∧ s.sha3WordGas = 6 ∧ s.logGas = 375 ∧ s.logTopicGas = 375 ∧ s.logDataGas = 8 ∧
      s.createGas = 32000 ∧ s.callGas ≤ 700 ∧ s.callSelfGas = 40 ∧ s.precompileStaticCallGas = 700 ∧
      s.callNewAccountGas = 25000 ∧ s.callValueTransferGas = 9000 ∧ s.extcodecopyGas ≤ 700 ∧
      s.tierStepGas = [0, 2, 3, 5, 8, 10, 20, 0] := by decide
  obtain ⟨h1, h2, h3, h4, h5, h6, h7, h8, h9, h10, h11, h12, h13, h14, h15, h16⟩ := h s hs
  exact ⟨h1, h2, h3, h4, h5, h6, h7, h8, h9, h10, h11, h12, h13, h14, h15, h16⟩

theorem Prices.tier_le (hp : Prices s) (t : Tier) : tierGas s t ≤ 20 := by
  unfold tierGas
  rw [hp.tierStepGas]
  cases t <;> decide

theorem memoryCost_eq (hp : Prices s) (n : ℕ) :
    s.memoryCost n = 3 * (n / 32) + n / 32 * (n / 32) / 512 := by
  unfold EVMSchedule.memoryCost
  rw [hp.memoryGas, hp.quadCoeffDiv]

theorem memoryCost_mono (hp : Prices s) {m n : ℕ} (h : m ≤ n) : s.memoryCost m ≤ s.memoryCost n := by
  rw [memoryCost_eq hp, memoryCost_eq hp]
  have hw : m / 32 ≤ n / 32 := Nat.div_le_div_right h
  have hq : m / 32 * (m / 32) / 512 ≤ n / 32 * (n / 32) / 512 :=
    Nat.div_le_div_right (Nat.mul_le_mul hw hw)
  omega

/-- A memory of 2 ^ 63 bytes costs more than any counter of gas holds. -/
theorem le_memoryCost (hp : Prices s) {n : ℕ} (h : 2 ^ 63 ≤ n) : 2 ^ 63 ≤ s.memoryCost n := by
  calc 2 ^ 63 ≤ s.memoryCost (2 ^ 63) := by
        rw [memoryCost_eq hp]
        norm_num
    _ ≤ s.memoryCost n := memoryCost_mono hp h

end

/-! ## No wrap -/

section

variable {f} {s : EVMSchedule} {d : Machine σ}

theorem toInt63_of_lt {n : ℕ} (h : n < 2 ^ 63) : toInt63 n = .ok n := by
  unfold toInt63
  exact if_neg (by omega)

theorem toInt63_of_ge {n : ℕ} (h : 2 ^ 63 ≤ n) : toInt63 n = throwOutOfGas := by
  unfold toInt63
  exact if_pos (by omega)

theorem ok_bind {ε α β : Type} (a : α) (g : α → Except ε β) : (Except.ok a >>= g) = g a := rfl

theorem throw_bind {α β : Type} (g : α → Body β) : (throwOutOfGas >>= g) = throwOutOfGas := rfl

theorem toUint64_of_lt {n : ℕ} (h : n < 2 ^ 64) : toUint64 n = n := Nat.mod_eq_of_lt h

theorem memNeed512_eq (offset size : U256) : memNeed512 offset size = memNeed offset size := by
  unfold memNeed512 memNeed
  have ho := offset.isLt
  have hz := size.isLt
  rw [Nat.mod_eq_of_lt]
  omega

theorem gasForMem_eq (n : ℕ) : gasForMem s n = toInt63 (s.memoryCost n) := rfl

theorem gasForMem512_eq (hp : Prices s) {n : ℕ} (hn : n < 2 ^ 64) :
    gasForMem512 s n = gasForMem s n := by
  unfold gasForMem512 gasForMem
  rw [hp.memoryGas, hp.quadCoeffDiv]
  have hw : n / 32 < 2 ^ 59 := by omega
  have hq : n / 32 * (n / 32) < 2 ^ 59 * 2 ^ 59 := Nat.mul_lt_mul'' hw hw
  rw [Nat.mod_eq_of_lt (show 3 * (n / 32) < 2 ^ 512 by omega),
    Nat.mod_eq_of_lt (show n / 32 * (n / 32) < 2 ^ 512 by omega), Nat.mod_eq_of_lt (by omega)]

/-- Where the price before the expansion and the bytes to copy leave room for the expansion, nothing in
`updateGas` wraps. -/
theorem updateGas64_eq (hp : Prices s) (hnew : d.m_newMemSize < 2 ^ 64)
    (hcopy : d.m_copyMemSize < 2 ^ 63) : updateGas64 s d = updateGas s d := by
  have hcopied : toUint64 (s.copyGas * (toUint64 (d.m_copyMemSize + 31) / 32)) =
      s.copyGas * ((d.m_copyMemSize + 31) / 32) := by
    rw [toUint64_of_lt (show d.m_copyMemSize + 31 < 2 ^ 64 by omega), hp.copyGas]
    exact toUint64_of_lt (by omega)
  unfold updateGas64 updateGas
  rw [hcopied]
  by_cases hlt : d.m_mem.length < d.m_newMemSize
  · rw [if_pos hlt, if_pos hlt, gasForMem512_eq hp hnew, gasForMem512_eq hp (by omega),
      gasForMem_eq, gasForMem_eq]
    have hmono := memoryCost_mono hp hlt.le
    rcases Nat.lt_or_ge (s.memoryCost d.m_newMemSize) (2 ^ 63) with hfit | hbig
    · have hmore : toUint64 (s.memoryCost d.m_newMemSize + 2 ^ 64 - s.memoryCost d.m_mem.length) =
          s.memoryCost d.m_newMemSize - s.memoryCost d.m_mem.length := by
        unfold toUint64
        omega
      rw [toInt63_of_lt hfit, toInt63_of_lt (hmono.trans_lt hfit)]
      rw [ok_bind, ok_bind, ok_bind, ok_bind, hmore]
    · rw [toInt63_of_ge hbig]
      rw [throw_bind, throw_bind, throw_bind, throw_bind]
  · rw [if_neg hlt, if_neg hlt]

theorem updateMem64_eq (hp : Prices s) {need : ℕ} (hneed : need < 2 ^ 63 + 32)
    (hcopy : d.m_copyMemSize < 2 ^ 63) : updateMem64 s d need = updateMem s d need := by
  have hround : toUint64 (toUint64 (need + 31) / 32 * 32) = (need + 31) / 32 * 32 := by
    rw [toUint64_of_lt (show need + 31 < 2 ^ 64 by omega)]
    exact toUint64_of_lt (by omega)
  have hgas := updateGas64_eq (d := { d with m_newMemSize := (need + 31) / 32 * 32 }) hp
    (show (need + 31) / 32 * 32 < 2 ^ 64 by omega) hcopy
  unfold updateMem64 updateMem
  rw [hround, hgas]

theorem logGasMem64_eq (hp : Prices s) (hcopy : d.m_copyMemSize < 2 ^ 63) (n : Fin 5) :
    logGasMem64 s d n = logGasMem s d n := by
  have hn := n.isLt
  have hz := (d.sp 1).isLt
  have hbase : ((s.logGas + s.logTopicGas * n % 2 ^ 32) % 2 ^ 32 +
      s.logDataGas * (d.sp 1).toNat % 2 ^ 512) % 2 ^ 512 =
      s.logGas + s.logTopicGas * n + s.logDataGas * (d.sp 1).toNat := by
    rw [hp.logGas, hp.logTopicGas, hp.logDataGas]
    calc ((375 + 375 * (n : ℕ) % 2 ^ 32) % 2 ^ 32 + 8 * (d.sp 1).toNat % 2 ^ 512) % 2 ^ 512
        = ((375 + 375 * (n : ℕ)) % 2 ^ 32 + 8 * (d.sp 1).toNat) % 2 ^ 512 := by
          rw [Nat.mod_eq_of_lt (show 375 * (n : ℕ) < 2 ^ 32 by omega),
            Nat.mod_eq_of_lt (show 8 * (d.sp 1).toNat < 2 ^ 512 by omega)]
      _ = (375 + 375 * (n : ℕ) + 8 * (d.sp 1).toNat) % 2 ^ 512 := by
          rw [Nat.mod_eq_of_lt (show 375 + 375 * (n : ℕ) < 2 ^ 32 by omega)]
      _ = 375 + 375 * (n : ℕ) + 8 * (d.sp 1).toNat := Nat.mod_eq_of_lt (by omega)
  unfold logGasMem64 logGasMem
  dsimp only
  rw [hbase, memNeed512_eq]
  refine bind_congr fun runGas => ?_
  unfold memNeed
  rcases Nat.lt_or_ge (if d.sp 1 ≠ 0 then (d.sp 0).toNat + (d.sp 1).toNat else 0) (2 ^ 63)
    with hlt | hge
  · rw [toInt63_of_lt hlt, ok_bind, ok_bind]
    exact updateMem64_eq hp (by omega) hcopy
  · rw [toInt63_of_ge hge, throw_bind, throw_bind]

end

/-! ## One call of `updateMem` -/

section

variable {f} {s : EVMSchedule} {d d' : Machine σ}

/-- The size of the memory once it covers `need` bytes. -/
def grown (mem need : ℕ) : ℕ := max mem ((need + 31) / 32 * 32)

/-- What `updateMem` makes of a machine: the counter of gas is only compared. -/
structure Grown (s : EVMSchedule) (need : ℕ) (d d' : Machine σ) : Prop where
  runGas : d'.m_runGas + s.memoryCost d.m_mem.length =
    d.m_runGas + s.copyGas * ((d.m_copyMemSize + 31) / 32) +
      s.memoryCost (grown d.m_mem.length need)
  enough : d'.m_runGas ≤ d'.m_io_gas
  io_gas : d'.m_io_gas = d.m_io_gas
  stack : d'.m_stack = d.m_stack
  sp : d'.m_SP = d.m_SP
  returnData : d'.m_returnData = d.m_returnData
  zeros : d'.m_mem = d.m_mem ++
    List.replicate (grown d.m_mem.length need - d.m_mem.length) 0

theorem Grown.length {need : ℕ} (h : Grown s need d d') :
    d'.m_mem.length = grown d.m_mem.length need := by
  rw [h.zeros, List.length_append, List.length_replicate]
  unfold grown
  omega

/-- The gas `updateGas` comes to, which is compared with the counter. -/
theorem updateGas_of_fits (hp : Prices s)
    (hfit : d.m_mem.length < d.m_newMemSize → s.memoryCost d.m_newMemSize < 2 ^ 63)
    (hbase : d.m_runGas + s.copyGas * ((d.m_copyMemSize + 31) / 32) ≤ 2 ^ 63) :
    ∃ runGas, runGas + s.memoryCost d.m_mem.length =
        d.m_runGas + s.copyGas * ((d.m_copyMemSize + 31) / 32) +
          s.memoryCost (max d.m_mem.length d.m_newMemSize) ∧
      updateGas s d =
        if d.m_io_gas < runGas then throwOutOfGas else .ok { d with m_runGas := runGas } := by
  unfold updateGas
  by_cases hlt : d.m_mem.length < d.m_newMemSize
  · specialize hfit hlt
    rw [max_eq_right hlt.le]
    have hmono := memoryCost_mono hp hlt.le
    refine ⟨d.m_runGas + (s.memoryCost d.m_newMemSize - s.memoryCost d.m_mem.length) +
      s.copyGas * ((d.m_copyMemSize + 31) / 32), by omega, ?_⟩
    rw [if_pos hlt, gasForMem_eq, gasForMem_eq, toInt63_of_lt hfit,
      toInt63_of_lt (hmono.trans_lt hfit), ok_bind, ok_bind,
      toInt63_of_lt ((Nat.sub_le _ _).trans_lt hfit), ok_bind, ok_bind]
    rw [toUint64_of_lt (show d.m_runGas + _ < 2 ^ 64 by omega), toUint64_of_lt (by omega)]
  · rw [max_eq_left (not_lt.1 hlt)]
    refine ⟨_, rfl, ?_⟩
    rw [if_neg hlt, ok_bind, toUint64_of_lt (by omega)]

/-- `updateMem` leaves a machine that covers what is needed, or runs out of gas; the latter with less gas
than the exact price, as long as the cap is not reached. -/
theorem updateMem_cases (hp : Prices s) (need : ℕ)
    (hbase : d.m_runGas + s.copyGas * ((d.m_copyMemSize + 31) / 32) ≤ 2 ^ 63) :
    updateMem s d need = throwOutOfGas ∧
      (s.memoryCost (grown d.m_mem.length need) < 2 ^ 63 →
        d.m_io_gas + s.memoryCost d.m_mem.length <
          d.m_runGas + s.copyGas * ((d.m_copyMemSize + 31) / 32) +
            s.memoryCost (grown d.m_mem.length need)) ∨
    ∃ d', updateMem s d need = .ok d' ∧ Grown s need d d' := by
  by_cases hfit : d.m_mem.length < (need + 31) / 32 * 32 →
      s.memoryCost ((need + 31) / 32 * 32) < 2 ^ 63
  · obtain ⟨runGas, hrun, hgas⟩ := updateGas_of_fits
      (d := { d with m_newMemSize := (need + 31) / 32 * 32 }) hp hfit hbase
    change runGas + s.memoryCost d.m_mem.length = d.m_runGas +
      s.copyGas * ((d.m_copyMemSize + 31) / 32) + s.memoryCost (grown d.m_mem.length need) at hrun
    unfold updateMem
    rw [hgas]
    by_cases hlt : d.m_io_gas < runGas
    · left
      rw [if_pos hlt, throw_bind]
      exact ⟨rfl, fun _ => by omega⟩
    · right
      rw [if_neg hlt, ok_bind]
      refine ⟨_, rfl, ?_⟩
      have hzeros : grown d.m_mem.length need - d.m_mem.length =
          (need + 31) / 32 * 32 - d.m_mem.length := by
        unfold grown
        omega
      by_cases hmem : d.m_mem.length < (need + 31) / 32 * 32
      · rw [if_pos hmem]
        exact ⟨hrun, not_lt.1 hlt, rfl, rfl, rfl, rfl, by rw [hzeros]⟩
      · rw [if_neg hmem]
        refine ⟨hrun, not_lt.1 hlt, rfl, rfl, rfl, rfl, ?_⟩
        rw [hzeros, Nat.sub_eq_zero_of_le (not_lt.1 hmem)]
        exact (List.append_nil _).symm
  · left
    push Not at hfit
    obtain ⟨hlt, hbig⟩ := hfit
    constructor
    · unfold updateMem updateGas
      rw [if_pos hlt, gasForMem_eq, toInt63_of_ge hbig, throw_bind, throw_bind, throw_bind]
    · intro h
      unfold grown at h
      rw [max_eq_right hlt.le] at h
      omega

end

/-! ## What an instruction pays -/

section

variable {f} {op : Instruction} {d d₀ d₁ : Machine σ} {need : ℕ}

/-- A machine that has paid for an access. -/
structure Paid (s : EVMSchedule) (a : Access) (d d₁ : Machine σ) : Prop where
  /-- The exact price is taken from the counter of gas. -/
  gas : d₁.m_io_gas + a.price s d.m_mem.length = d.m_io_gas + s.memoryCost d.m_mem.length
  size : d₁.m_mem.length = a.size d.m_mem.length
  covers : ∀ r ∈ a.ranges, r.2 ≠ 0 → r.1 + r.2 ≤ d₁.m_mem.length
  zeros : ∃ k, d₁.m_mem = d.m_mem ++ List.replicate k 0
  stack : d₁.m_stack = d.m_stack
  sp : d₁.m_SP = d.m_SP
  returnData : d₁.m_returnData = d.m_returnData ∨ d₁.m_returnData = []

theorem Access.le_top (a : Access) {r : ℕ × ℕ} (hr : r ∈ a.ranges) (hz : r.2 ≠ 0) :
    r.1 + r.2 ≤ a.top := by
  unfold Access.top
  generalize a.ranges = l at hr ⊢
  induction l with
  | nil => cases hr
  | cons x l ih =>
    rw [List.foldr_cons]
    rcases List.mem_cons.1 hr with rfl | hr
    · rw [if_pos hz]
      exact le_max_left _ _
    · exact (ih hr).trans (le_max_right _ _)

/-- The call of `updateMem` is made for the access. -/
structure Asks (s : EVMSchedule) (a : Access) (d d₀ : Machine σ) (need : ℕ) : Prop where
  base : d₀.m_runGas = a.base
  copied : d₀.m_copyMemSize = a.copied
  top : need = a.top
  room : a.base + s.copyGas * ((a.copied + 31) / 32) ≤ 2 ^ 63
  need_lt : need < 2 ^ 63 + 32
  copied_lt : a.copied < 2 ^ 63
  gas : d₀.m_io_gas = d.m_io_gas
  mem : d₀.m_mem = d.m_mem
  stack : d₀.m_stack = d.m_stack
  sp : d₀.m_SP = d.m_SP
  returnData : d₀.m_returnData = d.m_returnData ∨ d₀.m_returnData = []

theorem Asks.paid {s : EVMSchedule} (hp : Prices s) {a : Access} (h : Asks s a d d₀ need) :
    updateMem s d₀ need = throwOutOfGas ∧
      (s.memoryCost (a.size d.m_mem.length) < 2 ^ 63 →
        d.m_io_gas + s.memoryCost d.m_mem.length < a.price s d.m_mem.length) ∨
    ∃ d₁, (updateMem s d₀ need >>= updateIOGas) = .ok d₁ ∧ Paid s a d d₁ := by
  have hsize : grown d₀.m_mem.length need = a.size d.m_mem.length := by
    rw [h.mem, h.top]
    rfl
  have hprice : d₀.m_runGas + s.copyGas * ((d₀.m_copyMemSize + 31) / 32) +
      s.memoryCost (grown d₀.m_mem.length need) = a.price s d.m_mem.length := by
    rw [h.base, h.copied, hsize]
    rfl
  rcases updateMem_cases hp need (by rw [h.base, h.copied]; exact h.room) with
    ⟨hout, hshort⟩ | ⟨d', hok, hg⟩
  · rw [hprice, hsize, h.gas, h.mem] at hshort
    exact .inl ⟨hout, hshort⟩
  · right
    rw [hok, ok_bind, updateIOGas_of_le hg.enough]
    refine ⟨_, rfl, ?_, ?_, fun r hr hz => ?_, ⟨_, h.mem ▸ hg.zeros⟩, hg.stack.trans h.stack,
      hg.sp.trans h.sp, hg.returnData ▸ h.returnData⟩
    · have hrun := hg.runGas
      have hio := hg.io_gas
      have hle := hg.enough
      rw [hprice, h.mem] at hrun
      rw [h.gas] at hio
      show d'.m_io_gas - d'.m_runGas + _ = _
      omega
    · exact hg.length.trans hsize
    · have htop := a.le_top hr hz
      show r.1 + r.2 ≤ d'.m_mem.length
      rw [hg.length, hsize]
      unfold Access.size
      omega

section

variable {s : EVMSchedule} {a : Access} {mem : ℕ}

theorem le_price_of_base (h : 2 ^ 63 ≤ a.base) : 2 ^ 63 ≤ a.price s mem := by
  unfold Access.price
  omega

/-- Memory that the cap keeps out of reach costs more than the counter of gas holds. -/
theorem le_price_of_top (hp : Prices s) (h : 2 ^ 63 ≤ a.top) : 2 ^ 63 ≤ a.price s mem := by
  have hsize : 2 ^ 63 ≤ a.size mem := by
    unfold Access.size
    omega
  have := le_memoryCost hp hsize
  unfold Access.price
  omega

theorem top_one (b c o z : ℕ) : Access.top ⟨b, c, [(o, z)]⟩ = if z ≠ 0 then o + z else 0 :=
  Nat.max_zero _

theorem top_two (b c o z o' z' : ℕ) : Access.top ⟨b, c, [(o, z), (o', z')]⟩ =
    max (if z ≠ 0 then o + z else 0) (if z' ≠ 0 then o' + z' else 0) :=
  congrArg (max _) (Nat.max_zero _)

end

/-- An instruction up to its call of `updateMem`: a cap is reached and the price is out of reach too, or
the call is made for the access. -/
def Calls (s : EVMSchedule) (a : Access) (d : Machine σ) (r : Body (Machine σ × ℕ)) : Prop :=
  r = throwOutOfGas ∧ 2 ^ 63 ≤ a.price s d.m_mem.length ∨
    ∃ d₀ need, r = .ok (d₀, need) ∧ Asks s a d d₀ need

section

variable {s : EVMSchedule} {a : Access}

theorem Calls.of_runGas {n : ℕ} {r : Body (Machine σ × ℕ)}
    (h : Calls s a { d with m_runGas := n } r) : Calls s a d r := by
  rcases h with h | ⟨d₀, need, hr, ha⟩
  · exact .inl h
  · exact .inr ⟨d₀, need, hr, { ha with }⟩

theorem calls_toInt63 {n : ℕ} {g : ℕ → Body (Machine σ × ℕ)}
    (hbig : 2 ^ 63 ≤ n → 2 ^ 63 ≤ a.price s d.m_mem.length)
    (h : n < 2 ^ 63 → Calls s a d (g n)) : Calls s a d (toInt63 n >>= g) := by
  rcases Nat.lt_or_ge n (2 ^ 63) with hlt | hge
  · rw [toInt63_of_lt hlt]
    exact h hlt
  · rw [toInt63_of_ge hge]
    exact .inl ⟨rfl, hbig hge⟩

theorem memNeed_eq (o z : U256) :
    memNeed o z = toInt63 (if z.toNat ≠ 0 then o.toNat + z.toNat else 0) := by
  have hz : z ≠ 0 ↔ z.toNat ≠ 0 := not_congr BitVec.toNat_inj.symm
  unfold memNeed
  rw [if_congr hz rfl rfl]

theorem calls_memNeed {o z : U256} {g : ℕ → Body (Machine σ × ℕ)} (hp : Prices s)
    (htop : (if z.toNat ≠ 0 then o.toNat + z.toNat else 0) ≤ a.top)
    (h : (if z.toNat ≠ 0 then o.toNat + z.toNat else 0) < 2 ^ 63 →
      Calls s a d (g (if z.toNat ≠ 0 then o.toNat + z.toNat else 0))) :
    Calls s a d (memNeed o z >>= g) := by
  rw [memNeed_eq]
  exact calls_toInt63 (fun hge => le_price_of_top hp (hge.trans htop)) h

end

/-- The base price is settled by the instruction itself. -/
theorem calls_base {s : EVMSchedule} (hp : Prices s) {n : ℕ} {o z : U256} (hcopy : d.m_copyMemSize = 0) :
    Calls s ⟨n, 0, [(o.toNat, z.toNat)]⟩ d (do
      let runGas ← toInt63 n
      let need ← memNeed o z
      .ok ({ d with m_runGas := runGas }, need)) := by
  refine calls_toInt63 (fun h => le_price_of_base h) fun hn => calls_memNeed hp (top_one _ _ _ _).ge fun hz =>
    .inr ⟨_, _, rfl, rfl, hcopy, (top_one _ _ _ _).symm, ?_, by omega, Nat.two_pow_pos 63, rfl, rfl, rfl, rfl, .inl rfl⟩
  rw [hp.copyGas]
  show n + 3 * ((0 + 31) / 32) ≤ _
  omega

/-- The instruction copies what it writes. -/
theorem calls_copy {s : EVMSchedule} (hp : Prices s) {n : ℕ} {o z : U256} (hn : n ≤ 700) {d : Machine σ}
    (hrun : d.m_runGas = n) :
    Calls s ⟨n, z.toNat, [(o.toNat, z.toNat)]⟩ d (do
      let size ← toInt63 z.toNat
      let need ← memNeed o z
      .ok ({ d with m_copyMemSize := size }, need)) := by
  refine calls_toInt63 (fun hz => le_price_of_top hp ?_) fun hz => calls_memNeed hp
    (top_one _ _ _ _).ge fun hneed =>
    .inr ⟨_, _, rfl, hrun, rfl, (top_one _ _ _ _).symm, ?_, by omega, hz, rfl, rfl, rfl, rfl, .inl rfl⟩
  · rw [top_one, if_pos (by omega)]
    omega
  · rw [hp.copyGas]
    show n + 3 * ((z.toNat + 31) / 32) ≤ _
    omega

/-- The instruction touches a fixed number of bytes. -/
theorem calls_word {s : EVMSchedule} (hp : Prices s) {n k : ℕ} {o : ℕ} (hn : n ≤ 700) (hk : k ≠ 0)
    (hk' : k ≤ 32) (hrun : d.m_runGas = n) (hcopy : d.m_copyMemSize = 0) :
    Calls s ⟨n, 0, [(o, k)]⟩ d (do
      let offset ← toInt63 o
      .ok (d, offset + k)) := by
  have htop : Access.top ⟨n, 0, [(o, k)]⟩ = o + k := by
    rw [top_one, if_pos hk]
  refine calls_toInt63 (fun ho => le_price_of_top hp (by omega)) fun ho =>
    .inr ⟨_, _, rfl, hrun, hcopy, htop.symm, ?_, by omega, Nat.two_pow_pos 63, rfl, rfl, rfl, rfl, .inl rfl⟩
  rw [hp.copyGas]
  show n + 3 * ((0 + 31) / 32) ≤ _
  omega

/-- The instruction has the price of its tier. -/
theorem calls_tier {s : EVMSchedule} (hp : Prices s) {n : ℕ} {o z : U256} (hn : n ≤ 700)
    (hrun : d.m_runGas = n) (hcopy : d.m_copyMemSize = 0) :
    Calls s ⟨n, 0, [(o.toNat, z.toNat)]⟩ d (do
      let need ← memNeed o z
      .ok (d, need)) := by
  refine calls_memNeed hp (top_one _ _ _ _).ge fun hz =>
    .inr ⟨_, _, rfl, hrun, hcopy, (top_one _ _ _ _).symm, ?_, by omega, Nat.two_pow_pos 63, rfl, rfl, rfl, rfl,
      .inl rfl⟩
  rw [hp.copyGas]
  show n + 3 * ((0 + 31) / 32) ≤ _
  omega

/-- The initial code of a salted creation is hashed. -/
theorem calls_create2 {s : EVMSchedule} (hp : Prices s) {o z : U256} (hcopy : d.m_copyMemSize = 0) :
    Calls s ⟨s.createGas + (z.toNat + 31) / 32 * s.sha3WordGas, 0, [(o.toNat, z.toNat)]⟩ d (do
      let runGas ← toInt63 s.createGas
      let more ← toInt63 ((z.toNat + 31) / 32 * s.sha3WordGas)
      let need ← memNeed o z
      .ok ({ d with m_runGas := toUint64 (runGas + more) }, need)) := by
  have hcreate := hp.createGas
  have hword := hp.sha3WordGas
  refine calls_toInt63 (fun h => by omega) fun _ => calls_toInt63 (fun h => le_price_of_base ?_) fun h =>
    calls_memNeed hp (top_one _ _ _ _).ge fun hz =>
    .inr ⟨_, _, rfl, toUint64_of_lt ?_, hcopy, (top_one _ _ _ _).symm, ?_, by omega, Nat.two_pow_pos 63, rfl, rfl,
      rfl, rfl, .inl rfl⟩
  · show 2 ^ 63 ≤ s.createGas + (z.toNat + 31) / 32 * s.sha3WordGas
    omega
  · omega
  · rw [hp.copyGas, hcreate, hword]
    show 32000 + (z.toNat + 31) / 32 * 6 + 3 * ((0 + 31) / 32) ≤ _
    split at hz <;> omega

theorem callPrice_le (hp : Prices f.evmSchedule) (op : Instruction) (d : Machine σ) :
    callPrice f op d ≤ 34700 := by
  have h1 := hp.callGas
  have h2 := hp.callSelfGas
  have h3 := hp.precompileStaticCallGas
  have h4 := hp.callNewAccountGas
  have h5 := hp.callValueTransferGas
  unfold callPrice
  split_ifs <;> omega

/-- A call has two pieces of memory. -/
theorem calls_call {s : EVMSchedule} (hp : Prices s) {n x y w : ℕ} {o z o' z' : U256}
    (hn : n + (x + y + w) ≤ 40000) (hrun : d.m_runGas = n) (hcopy : d.m_copyMemSize = 0) :
    Calls s ⟨n + (x + y + w), 0, [(o.toNat, z.toNat), (o'.toNat, z'.toNat)]⟩ d (do
      let runGas ← toInt63 x
      let newAccount ← toInt63 y
      let transfer ← toInt63 w
      let inputMemNeed ← memNeed o z
      let outputMemNeed ← memNeed o' z'
      .ok ({ d with
          m_runGas := toUint64 (d.m_runGas + runGas + newAccount + transfer)
          m_returnData := [] }, max inputMemNeed outputMemNeed)) := by
  refine calls_toInt63 (fun h => by omega) fun _ => calls_toInt63 (fun h => by omega) fun _ =>
    calls_toInt63 (fun h => by omega) fun _ =>
    calls_memNeed hp ((le_max_left _ _).trans (top_two _ _ _ _ _ _).ge) fun hz =>
    calls_memNeed hp ((le_max_right _ _).trans (top_two _ _ _ _ _ _).ge) fun hz' =>
    .inr ⟨_, _, rfl, ?_, hcopy, (top_two _ _ _ _ _ _).symm, ?_, ?_, Nat.two_pow_pos 63, rfl, rfl, rfl,
      rfl, .inr rfl⟩
  · show toUint64 (d.m_runGas + x + y + w) = n + (x + y + w)
    rw [hrun, toUint64_of_lt (by omega)]
    omega
  · rw [hp.copyGas]
    show n + (x + y + w) + 3 * ((0 + 31) / 32) ≤ _
    omega
  · have := max_lt hz hz'
    omega

theorem ite_toInt63 (c : Prop) [Decidable c] (x y : ℕ) :
    (if c then toInt63 x else toInt63 y) = toInt63 (if c then x else y) :=
  (apply_ite toInt63 c x y).symm

theorem ite_toInt63_zero (c : Prop) [Decidable c] (x : ℕ) :
    (if c then toInt63 x else .ok 0) = toInt63 (if c then x else 0) := ite_toInt63 c x 0

/-- Every instruction that touches memory calls `updateMem` for its access. -/
theorem memoryCall_calls (hp : Prices f.evmSchedule) (hop : op.touchesMemory = true)
    (hrun : d.m_runGas = tierGas f.evmSchedule op.info.gasPriceTier) (hcopy : d.m_copyMemSize = 0) :
    Calls f.evmSchedule (access f op d) d (memoryCall f op d) := by
  have htier := hp.tier_le op.info.gasPriceTier
  have hcall := callPrice_le hp op d
  cases op with
  | MLOAD | MSTORE => exact calls_word hp (by omega) (by decide) (by decide) hrun hcopy
  | MSTORE8 => exact calls_word hp (by omega) (by decide) (by decide) hrun hcopy
  | SHA3 | LOG | CREATE => exact calls_base hp hcopy
  | CALLDATACOPY | RETURNDATACOPY | CODECOPY => exact calls_copy hp (by omega) hrun
  | EXTCODECOPY =>
    have hgas := hp.extcodecopyGas
    show Calls _ _ d (toInt63 f.evmSchedule.extcodecopyGas >>= _)
    rw [toInt63_of_lt (by omega), ok_bind]
    exact (calls_copy (d := { d with m_runGas := f.evmSchedule.extcodecopyGas }) hp hgas rfl).of_runGas
  | RETURN | REVERT => exact calls_tier hp (by omega) hrun hcopy
  | CREATE2 => exact calls_create2 hp hcopy
  | CALL | CALLCODE | DELEGATECALL | STATICCALL =>
    unfold memoryCall
    dsimp only
    rw [ite_toInt63, ite_toInt63_zero, ite_toInt63_zero]
    exact calls_call hp (by unfold callPrice at hcall; omega) hrun hcopy
  | _ => cases hop

/-- The payment of an instruction. -/
theorem pay_cases (hp : Prices f.evmSchedule) (hop : op.touchesMemory = true)
    (hrun : d.m_runGas = tierGas f.evmSchedule op.info.gasPriceTier) (hcopy : d.m_copyMemSize = 0) :
    pay f op d = throwOutOfGas ∧
      (d.m_io_gas + f.evmSchedule.memoryCost d.m_mem.length < 2 ^ 63 →
        d.m_io_gas + f.evmSchedule.memoryCost d.m_mem.length <
          (access f op d).price f.evmSchedule d.m_mem.length) ∨
    ∃ d₁, pay f op d = .ok d₁ ∧ Paid f.evmSchedule (access f op d) d d₁ := by
  unfold pay
  rcases memoryCall_calls hp hop hrun hcopy with ⟨hout, hbig⟩ | ⟨d₀, need, hcall, hasks⟩
  · left
    rw [hout, throw_bind]
    exact ⟨rfl, fun h => by omega⟩
  · rw [hcall, ok_bind]
    rcases hasks.paid hp with ⟨hout, hshort⟩ | hpaid
    · left
      dsimp only
      rw [hout, throw_bind]
      refine ⟨rfl, fun h => ?_⟩
      by_contra hle
      have hprice : (access f op d).price f.evmSchedule d.m_mem.length =
        (access f op d).base + f.evmSchedule.copyGas * (((access f op d).copied + 31) / 32) +
          f.evmSchedule.memoryCost ((access f op d).size d.m_mem.length) := rfl
      exact hle (hshort (by omega))
    · exact .inr hpaid

end

/-! ## What an instruction does once it has paid -/

theorem length_writeBytes {mem b : Bytes} {offset : ℕ}
    (h : b.length ≠ 0 → offset + b.length ≤ mem.length) :
    (writeBytes mem offset b).length = mem.length := by
  unfold writeBytes
  rw [List.length_append, List.length_append, List.length_take, List.length_drop]
  omega

section

variable {f} {op : Instruction} {d d₁ : Machine σ} {calls : Bool}

/-- Memory keeps its size, and gas is left alone unless another frame is called. -/
def Finishes (calls : Bool) (d₁ : Machine σ) (r : Body (Machine σ)) : Prop :=
  calls = true ∧ r = throwOutOfGas ∨
    ∃ d', r = .ok d' ∧ d'.m_mem.length = d₁.m_mem.length ∧
      (calls = true ∨ d'.m_io_gas = d₁.m_io_gas)

/-- The machine has the arguments of `d`, and its memory covers the access. -/
structure Covers (a : Access) (d d₁ : Machine σ) : Prop where
  stack : d₁.m_stack = d.m_stack
  sp : d₁.m_SP = d.m_SP
  returnData : d₁.m_returnData = d.m_returnData ∨ d₁.m_returnData = []
  covers : ∀ r ∈ a.ranges, r.2 ≠ 0 → r.1 + r.2 ≤ d₁.m_mem.length

theorem Covers.sp_eq {a : Access} (h : Covers a d d₁) (i : ℕ) : d₁.sp i = d.sp i := by
  unfold Machine.sp
  rw [h.stack, h.sp]

/-- The body `r` fails where its payment `p` fails, and finishes from the machine that has paid. -/
structure Ends (calls : Bool) (a : Access) (d : Machine σ) (p r : Body (Machine σ)) : Prop where
  error : ∀ e, p = .error e → r = .error e
  finishes : ∀ d₁, p = .ok d₁ → Covers a d d₁ → Finishes calls d₁ r

theorem ends_bind {α : Type} {a : Access} {x : Body α} {p r : α → Body (Machine σ)}
    (h : ∀ v, Ends calls a d (p v) (r v)) : Ends calls a d (x >>= p) (x >>= r) := by
  cases x with
  | error e =>
    constructor
    · intro e' he
      exact he
    · intro d₁ hd
      cases hd
  | ok v => exact h v

theorem ends_last {a : Access} {x : Body (Machine σ)} {k : Machine σ → Body (Machine σ)}
    (h : ∀ d₁, Covers a d d₁ → Finishes calls d₁ (k d₁)) : Ends calls a d x (x >>= k) := by
  cases x with
  | error e =>
    constructor
    · intro e' he
      exact he
    · intro d₁ hd
      cases hd
  | ok d₁ =>
    constructor
    · intro e he
      cases he
    · intro d₂ hd hc
      cases hd
      exact h d₁ hc

theorem finishes_ok {d' : Machine σ} (hmem : d'.m_mem.length = d₁.m_mem.length)
    (hgas : d'.m_io_gas = d₁.m_io_gas) : Finishes calls d₁ (.ok d') :=
  .inr ⟨d', rfl, hmem, .inr hgas⟩

/-- What is copied fits in the memory that was paid for. -/
theorem length_copyDataToMemory {data : Bytes} {i : ℕ}
    (hdata : data.length < 2 ^ 64 ∨ (d₁.sp (i + 1)).toNat + (d₁.sp (i + 2)).toNat ≤ data.length)
    (h : (d₁.sp (i + 2)).toNat ≠ 0 → (d₁.sp i).toNat + (d₁.sp (i + 2)).toNat ≤ d₁.m_mem.length) :
    (d₁.copyDataToMemory data i).m_mem.length = d₁.m_mem.length := by
  have ho : toUint64 (d₁.sp i).toNat ≤ (d₁.sp i).toNat := Nat.mod_le _ _
  have hz : toUint64 (d₁.sp (i + 2)).toNat ≤ (d₁.sp (i + 2)).toNat := Nat.mod_le _ _
  have hx : (d₁.sp (i + 1)).toNat < 2 ^ 64 →
      toUint64 (d₁.sp (i + 1)).toNat = (d₁.sp (i + 1)).toNat := toUint64_of_lt
  refine length_writeBytes fun hne => ?_
  rw [List.length_append, List.length_replicate] at hne ⊢
  unfold readBytes at hne ⊢
  rw [List.length_take, List.length_drop] at hne ⊢
  generalize toUint64 (d₁.sp i).toNat = o at *
  generalize toUint64 (d₁.sp (i + 2)).toNat = z at *
  generalize toUint64 (d₁.sp (i + 1)).toNat = y at *
  split_ifs at hne ⊢ <;> omega

/-- The sizes of what the host holds fit in a `size_t`. -/
structure Addressable (f : ExtVMFace σ) : Prop where
  data : f.data.length < 2 ^ 64
  code : f.code.length < 2 ^ 64
  codeAt : ∀ x a, (f.codeAt x a).length < 2 ^ 64

/-- The end of a creation. -/
theorem caseCreate_ends (hop : op = .CREATE ∨ op = .CREATE2) (spp : ℤ) :
    Ends true (access f op d) d (pay f op d) (caseCreate f op spp d) := by
  have hlast : ∀ (d₁ : Machine σ) (c : Prop) [Decidable c] (x y : Machine σ),
      x.m_mem = d₁.m_mem → y.m_mem = d₁.m_mem → Finishes true d₁ (if c then .ok x else .ok y) := by
    intro d₁ c _ x y hx hy
    split
    · exact .inr ⟨x, rfl, by rw [hx], .inl rfl⟩
    · exact .inr ⟨y, rfl, by rw [hy], .inl rfl⟩
  rcases hop with rfl | rfl
  · unfold pay memoryCall caseCreate
    simp only [bind_assoc, ok_bind, reduceCtorEq, if_false]
    refine ends_bind fun runGas => ends_bind fun need => ends_bind fun d' => ends_last fun d₁ _ => ?_
    exact hlast d₁ _ _ _ rfl rfl
  · unfold pay memoryCall caseCreate
    simp only [bind_assoc, ok_bind, if_true]
    refine ends_bind fun runGas => ends_bind fun more => ends_bind fun need => ends_bind fun d' =>
      ends_last fun d₁ _ => ?_
    exact hlast d₁ _ _ _ rfl rfl

theorem finishes_ite {α : Type} {c : Prop} [Decidable c] {x y : α} {k : α → Body (Machine σ)}
    (hx : Finishes calls d₁ (k x)) (hy : Finishes calls d₁ (k y)) :
    Finishes calls d₁ ((if c then .ok x else .ok y) >>= k) := by
  split
  · exact hx
  · exact hy

theorem sp_clear (d : Machine σ) (i : ℕ) : Machine.sp { d with m_returnData := [] } i = d.sp i := rfl

/-- A call writes no more than the piece of memory for its output. -/
theorem caseCall_ends (hop : op = .CALL ∨ op = .CALLCODE ∨ op = .DELEGATECALL ∨ op = .STATICCALL)
    (spp : ℤ) : Ends true (access f op d) d (pay f op d) (caseCall f op spp d) := by
  have hout : ∀ (d₁ : Machine σ) (o z : U256) (b : Bytes),
      (z.toNat ≠ 0 → o.toNat + z.toNat ≤ d₁.m_mem.length) →
      (writeBytes d₁.m_mem (toUint64 o.toNat) (b.take (toUint64 z.toNat))).length =
        d₁.m_mem.length := by
    intro d₁ o z b h
    have ho : toUint64 o.toNat ≤ o.toNat := Nat.mod_le _ _
    have hz : toUint64 z.toNat ≤ z.toNat := Nat.mod_le _ _
    refine length_writeBytes fun hne => ?_
    rw [List.length_take] at hne ⊢
    omega
  have hcharge : ∀ (d₁ : Machine σ) (gas : ℕ) (g : Machine σ → Body (Machine σ)),
      (∀ d₂ : Machine σ, d₂.m_mem = d₁.m_mem → Finishes true d₁ (g d₂)) →
      Finishes true d₁ (toInt63 gas >>= fun gas => d₁.charge gas >>= g) := by
    intro d₁ gas g h
    rcases Nat.lt_or_ge gas (2 ^ 63) with hlt | hge
    · rw [toInt63_of_lt hlt, ok_bind]
      unfold charge
      rcases Nat.lt_or_ge d₁.m_io_gas gas with hlt | hle
      · rw [updateIOGas_of_lt hlt]
        exact .inl ⟨rfl, rfl⟩
      · rw [updateIOGas_of_le hle]
        exact h _ rfl
    · rw [toInt63_of_ge hge]
      exact .inl ⟨rfl, rfl⟩
  rcases hop with rfl | rfl | rfl | rfl
  all_goals
    unfold pay memoryCall caseCall caseCallSetup
    simp only [bind_assoc, sp_clear]
    refine ends_bind fun runGas => ends_bind fun newAccount => ends_bind fun transfer =>
      ends_bind fun input => ends_bind fun output => ?_
    simp only [ok_bind]
    refine ends_bind fun d' => ends_last fun d₁ hc => hcharge d₁ _ _ fun d₂ hmem =>
      finishes_ite (.inr ⟨_, rfl, ?_, .inl rfl⟩) (.inr ⟨_, rfl, by rw [← hmem]; rfl, .inl rfl⟩)
    have hcov := hc.covers _ (List.mem_cons_of_mem _ (List.mem_singleton_self _))
    rw [← hmem] at hcov ⊢
    exact hout d₂ _ _ _ hcov

/-- An instruction that checks `x` first. -/
theorem admitted {a : Access} {x : Body Unit} {p r : Body (Machine σ)}
    (h : x = .ok () → Ends calls a d p r) :
    (∀ e, x = .error e → (x >>= fun _ => r) = .error e) ∧
      (x = .ok () → Ends calls a d p (x >>= fun _ => r)) := by
  constructor
  · intro e hx
    rw [hx]
    rfl
  · intro hx
    rw [hx]
    exact h hx

/-- An instruction that checks `x` first, and then `y`. -/
theorem admitted_then {a : Access} {x y : Body Unit} {p r : Body (Machine σ)}
    (h : x = .ok () → (∀ e, y = .error e → r = .error e) ∧ (y = .ok () → Ends calls a d p r)) :
    (∀ e, (x >>= fun _ => y) = .error e → (x >>= fun _ => r) = .error e) ∧
      ((x >>= fun _ => y) = .ok () → Ends calls a d p (x >>= fun _ => r)) := by
  cases x with
  | error e =>
    constructor
    · intro e' he
      cases he
      rfl
    · intro hx
      cases hx
  | ok u => exact h rfl

/-- A piece of memory that was paid for is copied to. -/
theorem Covers.copy {a : Access} (hc : Covers a d d₁) {data : Bytes} {i : ℕ}
    (hdata : data.length < 2 ^ 64 ∨ (d₁.sp (i + 1)).toNat + (d₁.sp (i + 2)).toNat ≤ data.length)
    (hr : ((d.sp i).toNat, (d.sp (i + 2)).toNat) ∈ a.ranges) :
    Finishes calls d₁ (.ok (d₁.copyDataToMemory data i)) := by
  refine finishes_ok (length_copyDataToMemory hdata ?_) rfl
  rw [hc.sp_eq, hc.sp_eq]
  exact hc.covers _ hr

/-- A word or a byte is written to memory that was paid for. -/
theorem Covers.write {a : Access} (hc : Covers a d d₁) {b : Bytes} {i n : ℕ} (hb : b.length = n)
    (hn : n ≠ 0) (hr : ((d.sp i).toNat, n) ∈ a.ranges) :
    (writeBytes d₁.m_mem (toUnsigned (d₁.sp i).toNat) b).length = d₁.m_mem.length := by
  refine length_writeBytes fun _ => ?_
  have hcov := hc.covers _ hr hn
  have hle : toUnsigned (d₁.sp i).toNat ≤ (d₁.sp i).toNat := Nat.mod_le _ _
  rw [hc.sp_eq] at hle ⊢
  rw [hb]
  dsimp only at hcov
  omega

/-- An instruction that goes on fails where its checks or its payment do, and finishes from the machine
that has paid. -/
theorem interpretNext_ends (hf : Addressable f) (crypto : Crypto) (hop : op.touchesMemory = true)
    (hret : op ≠ .RETURN) (hrev : op ≠ .REVERT) (pc : ℕ) (spp : ℤ) :
    (∀ e, precheck f op d = .error e → interpretNext f crypto op pc spp d = .error e) ∧
      (precheck f op d = .ok () → Ends op.callsOut (access f op d) d (pay f op d)
        (interpretNext f crypto op pc spp d)) := by
  have hfree : ∀ {r : Body (Machine σ)}, Ends op.callsOut (access f op d) d (pay f op d) r →
      (∀ e, (.ok () : Body Unit) = .error e → r = .error e) ∧
        ((.ok () : Body Unit) = .ok () → Ends op.callsOut (access f op d) d (pay f op d) r) := by
    intro r h
    exact admitted (x := .ok ()) fun _ => h
  cases op with
  | MLOAD =>
    refine hfree ?_
    unfold pay memoryCall interpretNext
    simp only [bind_assoc, ok_bind]
    exact ends_bind fun offset => ends_bind fun d' => ends_last fun d₁ _ => finishes_ok rfl rfl
  | MSTORE =>
    refine hfree ?_
    unfold pay memoryCall interpretNext
    simp only [bind_assoc, ok_bind]
    refine ends_bind fun offset => ends_bind fun d' => ends_last fun d₁ hc => finishes_ok ?_ rfl
    exact hc.write (length_toBigEndian _ _) (by decide) (List.mem_singleton_self _)
  | MSTORE8 =>
    refine hfree ?_
    unfold pay memoryCall interpretNext
    simp only [bind_assoc, ok_bind]
    refine ends_bind fun offset => ends_bind fun d' => ends_last fun d₁ hc => finishes_ok ?_ rfl
    exact hc.write rfl Nat.one_ne_zero (List.mem_singleton_self _)
  | SHA3 =>
    refine hfree ?_
    unfold pay memoryCall interpretNext push
    simp only [bind_assoc, ok_bind]
    exact ends_bind fun runGas => ends_bind fun need => ends_bind fun d' => ends_last fun d₁ _ =>
      finishes_ok rfl rfl
  | LOG n =>
    refine admitted fun _ => ?_
    unfold pay memoryCall logGasMem
    simp only [bind_assoc, ok_bind]
    exact ends_bind fun runGas => ends_bind fun need => ends_bind fun d' => ends_last fun d₁ _ =>
      finishes_ok rfl rfl
  | CALLDATACOPY =>
    refine hfree ?_
    unfold pay memoryCall interpretNext
    simp only [bind_assoc, ok_bind]
    exact ends_bind fun size => ends_bind fun need => ends_bind fun d' => ends_last fun d₁ hc =>
      hc.copy (.inl hf.data) (List.mem_singleton_self _)
  | CODECOPY =>
    refine hfree ?_
    unfold pay memoryCall interpretNext
    simp only [bind_assoc, ok_bind]
    exact ends_bind fun size => ends_bind fun need => ends_bind fun d' => ends_last fun d₁ hc =>
      hc.copy (.inl hf.code) (List.mem_singleton_self _)
  | EXTCODECOPY =>
    refine hfree ?_
    unfold pay memoryCall interpretNext
    simp only [bind_assoc, ok_bind]
    exact ends_bind fun runGas => ends_bind fun size => ends_bind fun need => ends_bind fun d' =>
      ends_last fun d₁ hc => hc.copy (.inl (hf.codeAt _ _)) (List.mem_singleton_self _)
  | RETURNDATACOPY =>
    refine admitted_then fun _ => admitted fun hcheck => ?_
    have hover : ¬d.m_returnData.length < (d.sp 1).toNat + (d.sp 2).toNat := by
      intro h
      rw [if_pos h] at hcheck
      cases hcheck
    unfold pay memoryCall
    simp only [bind_assoc, ok_bind]
    refine ends_bind fun size => ends_bind fun need => ends_bind fun d' => ends_last fun d₁ hc =>
      hc.copy ?_ (List.mem_singleton_self _)
    rcases hc.returnData with hdata | hdata
    · right
      rw [hdata, hc.sp_eq, hc.sp_eq]
      exact not_lt.1 hover
    · left
      rw [hdata]
      exact Nat.two_pow_pos 64
  | CREATE => exact admitted fun _ => caseCreate_ends (.inl rfl) spp
  | CREATE2 => exact admitted_then fun _ => admitted fun _ => caseCreate_ends (.inr rfl) spp
  | CALL => exact admitted fun _ => caseCall_ends (.inl rfl) spp
  | CALLCODE => exact hfree (caseCall_ends (.inr (.inl rfl)) spp)
  | DELEGATECALL => exact admitted fun _ => caseCall_ends (.inr (.inr (.inl rfl))) spp
  | STATICCALL => exact admitted fun _ => caseCall_ends (.inr (.inr (.inr rfl))) spp
  | RETURN => exact absurd rfl hret
  | REVERT => exact absurd rfl hrev
  | _ => cases hop

theorem payOutput_eq (hop : op = .RETURN ∨ op = .REVERT) : payOutput f d = pay f op d := by
  rcases hop with rfl | rfl
  all_goals
    unfold payOutput pay memoryCall
    simp only [bind_assoc, ok_bind]

end

/-! ## The other instructions leave memory alone -/

section

variable {f} {op : Instruction} {d : Machine σ} {crypto : Crypto}

def KeepsMem (d : Machine σ) (r : Body (Machine σ)) : Prop := ∀ d', r = .ok d' → d'.m_mem = d.m_mem

theorem keeps_ok {d' : Machine σ} (h : d'.m_mem = d.m_mem) : KeepsMem d (.ok d') := by
  intro e he
  cases he
  exact h

theorem keeps_error {e : VMException} : KeepsMem d (.error e) := by
  intro d' h
  cases h

theorem keeps_bind {α : Type} {x : Body α} {g : α → Body (Machine σ)} (h : ∀ a, KeepsMem d (g a)) :
    KeepsMem d (x >>= g) := by
  cases x with
  | error e => exact keeps_error
  | ok a => exact h a

theorem keeps_then {x : Body (Machine σ)} {g : Machine σ → Body (Machine σ)} (hx : KeepsMem d x)
    (h : ∀ e : Machine σ, e.m_mem = d.m_mem → KeepsMem d (g e)) : KeepsMem d (x >>= g) := by
  cases x with
  | error e => exact keeps_error
  | ok e => exact h e (hx e rfl)

theorem keeps_updateIOGas : KeepsMem d d.updateIOGas := by
  intro e he
  rw [(updateIOGas_ok he).2]

theorem keeps_charge (gas : ℕ) : KeepsMem d (d.charge gas) := by
  intro e he
  rw [(updateIOGas_ok he).2]

theorem keeps_push {spp : ℤ} {v : U256} : KeepsMem d (push spp d v) :=
  keeps_then keeps_updateIOGas fun _ he => keeps_ok he

theorem keeps_updateSSGas : KeepsMem d (updateSSGas f d) := by
  unfold updateSSGas
  split
  · exact keeps_error
  · split
    · exact keeps_ok rfl
    · unfold updateSSGasPreEIP1283
      dsimp only
      split_ifs
      all_goals exact keeps_bind fun _ => keeps_ok rfl

theorem interpretNext_keeps (hop : op.touchesMemory = false) (pc : ℕ) (spp : ℤ) :
    KeepsMem d (interpretNext f crypto op pc spp d) := by
  cases op with
  | MLOAD | MSTORE | MSTORE8 | SHA3 | LOG | CALLDATACOPY | RETURNDATACOPY | CODECOPY | EXTCODECOPY
  | RETURN | REVERT | CREATE | CREATE2 | CALL | CALLCODE | DELEGATECALL | STATICCALL => cases hop
  | EXP => exact keeps_bind fun gas => keeps_then (keeps_charge gas) fun _ he => keeps_ok he
  | SDIV => exact keeps_then keeps_push fun _ he => keeps_ok he
  | SIGNEXTEND | CALLDATALOAD | POP | SWAP | GAS =>
    exact keeps_then keeps_updateIOGas fun _ he => keeps_ok he
  | SHL | SHR | SAR | RETURNDATASIZE | CHAINID | SELFBALANCE => exact keeps_bind fun _ => keeps_push
  | BALANCE | EXTCODESIZE | SLOAD =>
    exact keeps_bind fun _ => keeps_then keeps_updateIOGas fun _ he => keeps_ok he
  | EXTCODEHASH =>
    exact keeps_bind fun _ => keeps_bind fun _ => keeps_then keeps_updateIOGas fun _ he => keeps_ok he
  | BLOCKHASH =>
    refine keeps_bind fun gas => keeps_then (keeps_charge gas) fun e he => ?_
    split
    · exact keeps_error
    · exact keeps_ok he
  | SSTORE =>
    refine keeps_bind fun _ => keeps_then keeps_updateSSGas fun e he => ?_
    intro d' h
    obtain ⟨e', he', h⟩ := bind_eq_ok.1 h
    cases h
    rw [← he, ← keeps_updateIOGas e' he']
  | JUMPDEST => exact keeps_charge 1
  | STOP | PUSH | JUMP | JUMPI | SELFDESTRUCT | INVALID | PUSHC | JUMPC | JUMPCI | optional
  | undefined => exact keeps_error
  | _ => exact keeps_push

end

/-! ## Whole instructions -/

/-- The virtual machine after an instruction, whether it goes on or not. -/
def Outcome.vm : Outcome σ → LegacyVM σ
  | .running vm => vm
  | .done vm => vm

/-- What becomes of an instruction that has paid and is left with `d₁`. -/
def Follows (op : Instruction) (d₁ : Machine σ) (r : Except Stop (Outcome σ)) : Prop :=
  (∃ out, r = .ok out ∧ out.vm.m_mem.length = d₁.m_mem.length ∧
    (op.callsOut = true ∨ out.vm.m_io_gas = d₁.m_io_gas)) ∨
  op = .REVERT ∧ r = .error (.thrown (.RevertInstruction (output d₁)))

/-- What holds of the instruction `op`, which touches memory and was fetched. -/
structure MemoryExact (crypto : Crypto) (vm : LegacyVM σ) (op : Instruction) : Prop where
  /-- A check fails, the gas is out, or the exact price is paid and the memory covers the access. -/
  outcome : (∃ e, precheck f op vm.toMachine = .error e ∧
      interpretCase f crypto vm = .error (.thrown e)) ∨
    interpretCase f crypto vm = .error (.thrown .OutOfGas) ∨
    ∃ d₁, pay f op vm.toMachine = .ok d₁ ∧
      Paid f.evmSchedule (access f op vm.toMachine) vm.toMachine d₁ ∧ 32 ∣ d₁.m_mem.length ∧
      Follows op d₁ (interpretCase f crypto vm)
  /-- The caps hide nothing that can be paid for: what was checked goes on, unless it calls other code, which has to be
  paid for as well. -/
  affordable : vm.m_io_gas + f.evmSchedule.memoryCost vm.m_mem.length < 2 ^ 63 →
    (access f op vm.toMachine).price f.evmSchedule vm.m_mem.length ≤
      vm.m_io_gas + f.evmSchedule.memoryCost vm.m_mem.length →
    ∃ d₁, pay f op vm.toMachine = .ok d₁ ∧
      (precheck f op vm.toMachine = .ok () → op.callsOut = false → Follows op d₁ (interpretCase f crypto vm))
  /-- The call of `updateMem` gives the same in 64 bits. -/
  updateMem : ∀ d₀ need, memoryCall f op vm.toMachine = .ok (d₀, need) →
    updateMem64 f.evmSchedule d₀ need = Machine.updateMem f.evmSchedule d₀ need
  logGasMem : ∀ n, op = .LOG n →
    logGasMem64 f.evmSchedule vm.toMachine n = Machine.logGasMem f.evmSchedule vm.toMachine n

section

variable {f} {op : Instruction} {d d₁ : Machine σ} {crypto : Crypto} {vm vm' : LegacyVM σ}

theorem dvd_of_paid {a : Access} {s : EVMSchedule} (h : Paid s a d d₁) (hmem : 32 ∣ d.m_mem.length) :
    32 ∣ d₁.m_mem.length := by
  rw [h.size]
  unfold Access.size
  rcases max_choice d.m_mem.length ((a.top + 31) / 32 * 32) with hm | hm
  · rw [hm]
    exact hmem
  · rw [hm]
    exact Dvd.intro_left _ rfl

theorem Paid.toCovers {a : Access} {s : EVMSchedule} (h : Paid s a d d₁) : Covers a d d₁ :=
  ⟨h.stack, h.sp, h.returnData, h.covers⟩

/-- The instructions that have no case of their own in the loop. -/
theorem interpretCase_next (hop : op.touchesMemory = true) (hret : op ≠ .RETURN) (hrev : op ≠ .REVERT)
    (h : Instruction.ofByte vm.m_OP = op) :
    interpretCase f crypto vm = (ofBody (interpretNext f crypto op vm.m_PC vm.m_SPP vm.toMachine) >>=
      fun d => .ok (.running { vm with toMachine := d, m_PC := vm.m_PC + 1 })) := by
  unfold interpretCase
  rw [h]
  cases op with
  | RETURN => exact absurd rfl hret
  | REVERT => exact absurd rfl hrev
  | SELFDESTRUCT | STOP | PUSH | JUMP | JUMPI => cases hop
  | _ => rfl

/-- What is checked, what is paid, and what follows. -/
theorem interpretCase_ends (hf : Addressable f) (hop : op.touchesMemory = true)
    (h : Instruction.ofByte vm.m_OP = op) :
    (∀ e, precheck f op vm.toMachine = .error e → interpretCase f crypto vm = .error (.thrown e)) ∧
    (precheck f op vm.toMachine = .ok () →
      (∀ e, pay f op vm.toMachine = .error e → interpretCase f crypto vm = .error (.thrown e)) ∧
      ∀ d₁, pay f op vm.toMachine = .ok d₁ → Covers (access f op vm.toMachine) vm.toMachine d₁ →
        op.callsOut = true ∧ interpretCase f crypto vm = .error (.thrown .OutOfGas) ∨
          Follows op d₁ (interpretCase f crypto vm)) := by
  by_cases hret : op = .RETURN
  · subst hret
    have hcase : interpretCase f crypto vm = (ofBody (pay f .RETURN vm.toMachine) >>=
        fun d => .ok (.done { vm with toMachine := { d with m_output := output d } })) := by
      unfold interpretCase
      rw [h, ← payOutput_eq (.inl rfl)]
    rw [hcase]
    refine ⟨fun e he => (by cases he), fun _ => ⟨fun e he => by rw [he]; rfl, fun d₁ hd _ => ?_⟩⟩
    rw [hd]
    exact .inr (.inl ⟨_, rfl, rfl, .inr rfl⟩)
  by_cases hrev : op = .REVERT
  · subst hrev
    have hcase : interpretCase f crypto vm = (ofBody (require f.evmSchedule.haveRevert) >>= fun _ =>
        ofBody (pay f .REVERT vm.toMachine) >>=
          fun d => .error (.thrown (.RevertInstruction (output d)))) := by
      unfold interpretCase
      rw [h, ← payOutput_eq (.inr rfl)]
    rw [hcase]
    have hcheck : precheck f .REVERT vm.toMachine = require f.evmSchedule.haveRevert := rfl
    refine ⟨fun e he => by rw [hcheck] at he; rw [he]; rfl, fun hok => ?_⟩
    rw [hcheck] at hok
    rw [hok]
    refine ⟨fun e he => by rw [he]; rfl, fun d₁ hd _ => ?_⟩
    rw [hd]
    exact .inr (.inr ⟨rfl, rfl⟩)
  obtain ⟨herr, hok⟩ := interpretNext_ends (d := vm.toMachine) hf crypto hop hret hrev vm.m_PC vm.m_SPP
  rw [interpretCase_next hop hret hrev h]
  refine ⟨fun e he => by rw [herr e he]; rfl, fun hcheck => ?_⟩
  have hends := hok hcheck
  refine ⟨fun e he => by rw [hends.error e he]; rfl, fun d₁ hd hc => ?_⟩
  rcases hends.finishes d₁ hd hc with ⟨hcalls, hout⟩ | ⟨d', hd', hmem, hgas⟩
  · rw [hout]
    exact .inl ⟨hcalls, rfl⟩
  · rw [hd']
    exact .inr (.inl ⟨_, rfl, hmem, hgas⟩)

theorem memoryExact (hs : f.evmSchedule ∈ EVMSchedule.all) (hf : Addressable f)
    (hop : op.touchesMemory = true) (h : Instruction.ofByte vm.m_OP = op)
    (hrun : vm.m_runGas = tierGas f.evmSchedule op.info.gasPriceTier) (hcopy : vm.m_copyMemSize = 0)
    (hmem : 32 ∣ vm.m_mem.length) : MemoryExact f crypto vm op := by
  have hp := prices_of_mem hs
  obtain ⟨hrefused, hchecked⟩ := @interpretCase_ends _ f op crypto vm hf hop h
  have hpay := pay_cases hp hop hrun hcopy
  refine ⟨?_, fun hsmall hprice => ?_, fun d₀ need hcall => ?_, fun n _ => ?_⟩
  · rcases hcheck : precheck f op vm.toMachine with e | u
    · exact .inl ⟨e, rfl, hrefused e hcheck⟩
    · obtain ⟨herror, hfollows⟩ := hchecked hcheck
      rcases hpay with ⟨hout, -⟩ | ⟨d₁, hd, hpaid⟩
      · exact .inr (.inl (herror _ hout))
      · rcases hfollows d₁ hd hpaid.toCovers with ⟨-, hout⟩ | hfollows
        · exact .inr (.inl hout)
        · exact .inr (.inr ⟨d₁, hd, hpaid, dvd_of_paid hpaid hmem, hfollows⟩)
  · rcases hpay with ⟨-, hshort⟩ | ⟨d₁, hd, hpaid⟩
    · exact absurd (hshort hsmall) (not_lt.2 hprice)
    · refine ⟨d₁, hd, fun hcheck hcalls => ?_⟩
      refine ((hchecked hcheck).2 d₁ hd hpaid.toCovers).resolve_left fun hout => ?_
      rw [hcalls] at hout
      cases hout.1
  · rcases memoryCall_calls hp hop hrun hcopy with ⟨hout, -⟩ | ⟨d₀', need', hcall', hasks⟩
    · rw [hout] at hcall
      cases hcall
    · rw [hcall'] at hcall
      cases hcall
      exact updateMem64_eq hp hasks.need_lt (hasks.copied.trans_lt hasks.copied_lt)
  · exact logGasMem64_eq hp (by rw [hcopy]; exact Nat.two_pow_pos 63) n

/-! ## Runs -/

/-- What is fetched. -/
theorem fetchInstruction_ok (h : fetchInstruction f vm = .ok vm') :
    vm'.m_runGas = tierGas f.evmSchedule (Instruction.ofByte vm'.m_OP).info.gasPriceTier ∧
      vm'.m_copyMemSize = 0 ∧ vm'.m_mem = vm.m_mem ∧ vm'.m_io_gas = vm.m_io_gas := by
  unfold fetchInstruction at h
  obtain ⟨op, -, h⟩ := bind_eq_ok.1 h
  obtain ⟨vm₁, hadj, h⟩ := bind_eq_ok.1 h
  cases h
  unfold adjustStack at hadj
  dsimp only at hadj
  have hbad : ∀ spp removed added, (throwBadStack spp removed added : Except Stop (LegacyVM σ)) ≠
      .ok vm₁ := by
    intro spp removed added hb
    unfold throwBadStack at hb
    split at hb <;> cases hb
  split_ifs at hadj
  · exact absurd hadj (hbad _ _ _)
  · exact absurd hadj (hbad _ _ _)
  · cases hadj
    exact ⟨rfl, rfl, rfl, rfl⟩

theorem ofBody_ok {α : Type} {x : Body α} {a : α} (h : ofBody x = .ok a) : x = .ok a := by
  cases x with
  | error e => cases h
  | ok b =>
    cases h
    rfl

theorem interpretCase_keeps (hop : (Instruction.ofByte vm.m_OP).touchesMemory = false)
    (h : interpretCase f crypto vm = .ok (.running vm')) : vm'.m_mem = vm.m_mem := by
  unfold interpretCase at h
  split at h
  case h_1 hret =>
    rw [hret] at hop
    cases hop
  case h_2 hrev =>
    rw [hrev] at hop
    cases hop
  case h_3 =>
    obtain ⟨d, -, h⟩ := bind_eq_ok.1 h
    cases h
  case h_4 =>
    obtain ⟨d, -, h⟩ := bind_eq_ok.1 h
    cases h
  case h_5 n hpush =>
    obtain ⟨d, hd, h⟩ := bind_eq_ok.1 h
    obtain ⟨v, -, h⟩ := bind_eq_ok.1 h
    cases h
    exact keeps_updateIOGas d (ofBody_ok hd)
  case h_6 =>
    obtain ⟨d, hd, h⟩ := bind_eq_ok.1 h
    obtain ⟨pc, -, h⟩ := bind_eq_ok.1 h
    cases h
    exact keeps_updateIOGas d (ofBody_ok hd)
  case h_7 =>
    obtain ⟨d, hd, h⟩ := bind_eq_ok.1 h
    split at h
    · obtain ⟨pc, -, h⟩ := bind_eq_ok.1 h
      cases h
      exact keeps_updateIOGas d (ofBody_ok hd)
    · cases h
      exact keeps_updateIOGas d (ofBody_ok hd)
  case h_8 =>
    obtain ⟨d, hd, h⟩ := bind_eq_ok.1 h
    cases h
    exact interpretNext_keeps hop _ _ d (ofBody_ok hd)

theorem step_dvd (hs : f.evmSchedule ∈ EVMSchedule.all) (hf : Addressable f)
    (hmem : 32 ∣ vm.m_mem.length) (h : step f crypto vm = .ok (.running vm')) :
    32 ∣ vm'.m_mem.length := by
  obtain ⟨vm₁, hfetch, hcase⟩ := bind_eq_ok.1 h
  obtain ⟨hrun, hcopy, hmem₁, -⟩ := fetchInstruction_ok hfetch
  rw [← hmem₁] at hmem
  cases hop : (Instruction.ofByte vm₁.m_OP).touchesMemory with
  | false =>
    rw [interpretCase_keeps hop hcase]
    exact hmem
  | true =>
    rcases (@memoryExact _ f _ crypto vm₁ hs hf hop rfl hrun hcopy hmem).outcome with
      ⟨e, -, he⟩ | he | ⟨d₁, -, -, hdvd, ⟨out, hout, hlen, -⟩ | ⟨-, he⟩⟩
    · rw [hcase] at he
      cases he
    · rw [hcase] at he
      cases he
    · rw [hcase] at hout
      cases hout
      exact hlen ▸ hdvd
    · rw [hcase] at he
      cases he

/-- Between instructions the memory is a whole number of words. -/
theorem Reached.dvd (hs : f.evmSchedule ∈ EVMSchedule.all) (hf : Addressable f) {gas : U256}
    {ext : ExtState σ} (h : Reached f crypto gas ext vm) : 32 ∣ vm.m_mem.length := by
  induction h with
  | refl => exact dvd_zero 32
  | tail _ hstep ih => exact step_dvd hs hf ih hstep

variable (crypto) in
/-- In every run, an instruction that touches memory runs out of gas or is charged the exact price and
leaves a memory of whole words that covers the access, and no sum wraps on the way. -/
theorem memory_gas_exact (hs : f.evmSchedule ∈ EVMSchedule.all) (hf : Addressable f) :
    (∀ offset size, memNeed512 offset size = memNeed offset size) ∧
    (∀ size < 2 ^ 64, gasForMem512 f.evmSchedule size = gasForMem f.evmSchedule size) ∧
    (∀ gas ext vm, Reached f crypto gas ext vm → 32 ∣ vm.m_mem.length) ∧
    ∀ vm vm₁, 32 ∣ vm.m_mem.length → fetchInstruction f vm = .ok vm₁ →
      (Instruction.ofByte vm₁.m_OP).touchesMemory = true →
      vm₁.m_mem = vm.m_mem ∧ vm₁.m_io_gas = vm.m_io_gas ∧
        step f crypto vm = interpretCase f crypto vm₁ ∧
        MemoryExact f crypto vm₁ (Instruction.ofByte vm₁.m_OP) := by
  refine ⟨memNeed512_eq, fun size hlt => gasForMem512_eq (prices_of_mem hs) hlt,
    fun gas ext vm h => h.dvd hs hf, fun vm vm₁ hmem hfetch hop => ?_⟩
  obtain ⟨hrun, hcopy, hmem₁, hio⟩ := fetchInstruction_ok hfetch
  refine ⟨hmem₁, hio, ?_, memoryExact hs hf hop rfl hrun hcopy (by rw [hmem₁]; exact hmem)⟩
  unfold step
  rw [hfetch, ok_bind]

end

/-- `MLOAD` at the offset 5. -/
def mloadAtFive : LegacyVM Unit :=
  { entry (nullHost FrontierSchedule [0x51]) 100 ⟨(), .empty⟩ with
    m_SPP := 1023
    m_stack := fun _ => 5 }

/-- It is charged 3 for itself and 3 for each of the two words that the memory has then. -/
theorem memory_gas_exact_mload : MemoryExact (nullHost FrontierSchedule [0x51]) Devnet.crypto
      (fetched (nullHost FrontierSchedule [0x51]) mloadAtFive 0x51) .MLOAD ∧
    ∃ out, step (nullHost FrontierSchedule [0x51]) Devnet.crypto mloadAtFive = .ok out ∧
      out.vm.m_mem.length = 64 ∧ out.vm.m_io_gas = 100 - 3 - 2 * 3 := by
  have hs : (nullHost FrontierSchedule [0x51] : ExtVMFace Unit).evmSchedule ∈ EVMSchedule.all := by
    decide
  have hf : Addressable (nullHost FrontierSchedule [0x51] : ExtVMFace Unit) :=
    ⟨by decide, by decide, fun _ _ => Nat.two_pow_pos 64⟩
  have hfetch : fetchInstruction (nullHost FrontierSchedule [0x51]) mloadAtFive =
      .ok (fetched (nullHost FrontierSchedule [0x51]) mloadAtFive 0x51) :=
    fetchInstruction_eq rfl (by decide) (by decide)
  obtain ⟨-, -, hstep, hexact⟩ := (memory_gas_exact Devnet.crypto hs hf).2.2.2 _ _ (dvd_zero 32) hfetch rfl
  have hexact : MemoryExact (nullHost FrontierSchedule [0x51]) Devnet.crypto
    (fetched (nullHost FrontierSchedule [0x51]) mloadAtFive 0x51) .MLOAD := hexact
  refine ⟨hexact, ?_⟩
  obtain ⟨d₁, hpay, hfollows⟩ := hexact.affordable (by decide) (by decide)
  rcases hfollows rfl rfl with ⟨out, hout, hmem, hgas⟩ | ⟨hrevert, -⟩
  · rcases hexact.outcome with ⟨e, he, -⟩ | hgone | ⟨d₂, hpay₂, hpaid, -⟩
    · cases he
    · rw [hgone] at hout
      cases hout
    · rw [hpay] at hpay₂
      cases hpay₂
      have hsize := hpaid.size
      have hprice := hpaid.gas
      refine ⟨out, hstep.trans hout, hmem.trans (hsize.trans (by decide)), ?_⟩
      rw [hgas.resolve_left (by decide)]
      exact Nat.add_right_cancel (hprice.trans (by decide))
  · cases hrevert

end LegacyVM

end Petrachor
