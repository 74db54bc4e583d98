import Petrachor.Lib.BinarySearch
import Petrachor.Instruction
import Petrachor.Executive

/-!
# The virtual machine

`LegacyVM` runs a copy of the code, padded with zeros, over a stack that grows towards smaller
addresses. A pointer into the stack is its distance from `m_stack[0]`. The host is a parameter: the
functions of `ExtVMFace` over a type of world states.
-/

namespace Petrachor

/-! ## The host -/

/-- The world below a virtual machine and the substate of its frame. -/
structure ExtState (σ : Type) where
  s : σ
  sub : SubState

structure CallParameters where
  senderAddress : Address := 0
  codeAddress : Address := 0
  receiveAddress : Address := 0
  valueTransfer : U256 := 0
  apparentValue : U256 := 0
  gas : U256 := 0
  data : Bytes := []
  staticCall : Bool := false

/-- How a call ended: `success` says that its status is `EVMC_SUCCESS`. -/
structure CallResult where
  success : Bool
  output : Bytes
  gas : U256

structure CreateResult where
  output : Bytes
  address : Address
  gas : U256

structure ExtVMFace (σ : Type) where
  myAddress : Address
  caller : Address
  origin : Address
  value : U256
  gasPrice : U256
  data : Bytes
  code : Bytes
  depth : ℕ
  staticCall : Bool
  envInfo : EnvInfo
  evmSchedule : EVMSchedule
  store : σ → U256 → U256
  setStore : σ → U256 → U256 → σ
  /-- The value before the transaction. -/
  originalStorageValue : σ → U256 → U256
  balance : σ → Address → U256
  codeAt : σ → Address → Bytes
  codeSizeAt : σ → Address → ℕ
  codeHashAt : σ → Address → H256
  exists_ : σ → Address → Bool
  selfdestruct : ExtState σ → Address → ExtState σ
  create : ExtState σ → U256 → U256 → Bytes → Instruction → U256 → CreateResult × ExtState σ
  call : ExtState σ → CallParameters → CallResult × ExtState σ
  blockHash : σ → U256 → Except Exception H256

/-- `log` of `ExtVMFace`, which no host overrides. -/
def ExtState.log {σ : Type} (x : ExtState σ) (a : Address) (topics : List H256) (data : Bytes) :
    ExtState σ :=
  { x with sub := { x.sub with logs := x.sub.logs ++ [⟨a, topics, data⟩] } }

def ExtState.addRefunds {σ : Type} (x : ExtState σ) (n : ℤ) : ExtState σ :=
  { x with sub := { x.sub with refunds := x.sub.refunds + n } }

/-- The null implementation, as a host at the outermost depth whose calls fail. -/
def nullHost {σ : Type} (s : EVMSchedule) (code : Bytes) : ExtVMFace σ where
  myAddress := 0
  caller := 0
  origin := 0
  value := 0
  gasPrice := 0
  data := []
  code := code
  depth := 0
  staticCall := false
  envInfo := ⟨.empty, .ok [], 0, 0⟩
  evmSchedule := s
  store := fun _ _ => 0
  setStore := fun x _ _ => x
  originalStorageValue := fun _ _ => 0
  balance := fun _ _ => 0
  codeAt := fun _ _ => []
  codeSizeAt := fun _ _ => 0
  codeHashAt := fun _ _ => 0
  exists_ := fun _ _ => false
  selfdestruct := fun x _ => x
  create := fun x _ _ _ _ _ => (⟨[], 0, 0⟩, x)
  call := fun x _ => (⟨false, [], 0⟩, x)
  blockHash := fun _ _ => .ok 0

/-! ## Words -/

/-- The conversion to a signed number of at most `n` bits of magnitude. -/
def signed (n : ℕ) (x : ℤ) : ℤ := x.sign * (x.natAbs % 2 ^ n : ℕ)

def u2s (u : U256) : ℤ :=
  if u.getLsbD 255 then signed 256 (-(2 ^ 256 - u.toNat)) else signed 256 u.toNat

def s2u (x : ℤ) : U256 :=
  if 0 ≤ x then BitVec.ofInt 256 x else BitVec.ofInt 256 (2 ^ 256 + x)

/-- The quotient of two numbers in 512 bits and a sign. -/
def quotient (a b : ℤ) : ℤ := (signed 512 a).tdiv (signed 512 b)

def remainder (a b : ℤ) : ℤ := (signed 512 a).tmod (signed 512 b)

/-- `divWorkaround` and `modWorkaround` at `u256`. -/
def divWorkaround (a b : U256) : U256 := BitVec.ofInt 256 (quotient a.toNat b.toNat)

def modWorkaround (a b : U256) : U256 := BitVec.ofInt 256 (remainder a.toNat b.toNat)

namespace LegacyVM

def div (a b : U256) : U256 := if b ≠ 0 then divWorkaround a b else 0

def sdiv (a b : U256) : U256 :=
  if b ≠ 0 then s2u (signed 256 (quotient (u2s a) (u2s b))) else 0

def mod (a b : U256) : U256 := if b ≠ 0 then modWorkaround a b else 0

def smod (a b : U256) : U256 :=
  if b ≠ 0 then s2u (signed 256 (remainder (u2s a) (u2s b))) else 0

def addmod (a b m : U256) : U256 :=
  if m ≠ 0 then BitVec.ofNat 256 ((a.setWidth 512 + b.setWidth 512) % m.setWidth 512).toNat else 0

def mulmod (a b m : U256) : U256 :=
  if m ≠ 0 then BitVec.ofNat 256 ((a.setWidth 512 * b.setWidth 512) % m.setWidth 512).toNat else 0

def slt (a b : U256) : U256 := if u2s a < u2s b then 1 else 0

def sgt (a b : U256) : U256 := if u2s b < u2s a then 1 else 0

/-- `BYTE`: the byte `i` of `x`, the first being the most significant. -/
def byte (i x : U256) : U256 :=
  if i < 32 then (x >>> (8 * (31 - i) : U256).toNat) &&& 0xff else 0

def shl (n x : U256) : U256 := if 256 ≤ n then 0 else x <<< n.toNat

def shr (n x : U256) : U256 := if 256 ≤ n then 0 else x >>> n.toNat

def hibit : U256 := 1 <<< 255

def allbits : U256 := BitVec.allOnes 256

def sar (n x : U256) : U256 :=
  if 256 ≤ n then if x &&& hibit ≠ 0 then allbits else 0
  else
    let r := x >>> n.toNat
    if x &&& hibit ≠ 0 then r ||| allbits <<< (256 - n.toNat) else r

/-- The word `number` becomes when `SIGNEXTEND` takes the byte `i` for its highest. -/
def signextend (i number : U256) : U256 :=
  if i < 31 then
    let testBit := i.toNat * 8 + 7
    let mask : U256 := (1 <<< testBit) - 1
    if number.getLsbD testBit then number ||| ~~~mask else number &&& mask
  else number

/-- The loop of `exp256`; an exponent of `k` bits takes `k` rounds at most. -/
def exp256.go : ℕ → U256 → U256 → U256 → U256
  | 0, _, _, result => result
  | k + 1, base, exponent, result =>
    if exponent = 0 then result
    else go k (base * base) (exponent >>> 1)
      (if exponent.getLsbD 0 then result * base else result)

def exp256 (base exponent : U256) : U256 := exp256.go 256 base exponent 1

/-- How far the first bit of a byte is from its highest; the byte is not zero. -/
def firstBitOfByte : ℕ → UInt8 → ℕ → ℕ
  | 0, _, ret => ret
  | k + 1, d, ret => if d &&& 0x80 ≠ 0 then ret else firstBitOfByte k (d <<< 1) (ret + 1)

/-- `firstBitSet` of the bytes of a hash. -/
def firstBitSet : Bytes → ℕ → ℕ
  | [], ret => ret
  | d :: l, ret => if d ≠ 0 then firstBitOfByte 8 d ret else firstBitSet l (ret + 8)

end LegacyVM

/-! ## The state of a run -/

inductive VMException
  | OutOfGas | BadInstruction | BadJumpDestination | DisallowedStateChange
  | BufferOverrun (required got : ℤ)
  | RevertInstruction (output : Bytes)
  /-- What the host throws. -/
  | host (e : Exception)
  deriving DecidableEq

/-- What taking the arguments of an instruction can throw. -/
inductive BadStack
  | StackUnderflow (required got : ℤ) | OutOfStack (required got : ℤ)
  deriving DecidableEq

/-- How a run is cut short. A read outside `m_code` is undefined. -/
inductive Stop
  | badStack (e : BadStack)
  | thrown (e : VMException)
  | outOfBounds
  deriving DecidableEq

/-- What the body of an instruction can change. -/
structure Machine (σ : Type) where
  m_io_gas : ℕ
  m_ext : ExtState σ
  m_mem : Bytes
  m_returnData : Bytes
  m_stack : ℤ → U256
  m_SP : ℤ
  m_runGas : ℕ
  m_newMemSize : ℕ
  m_copyMemSize : ℕ
  m_output : Bytes

structure LegacyVM (σ : Type) extends Machine σ where
  m_code : Bytes
  m_jumpDests : List ℕ
  m_OP : UInt8
  m_PC : ℕ
  /-- The next stack pointer. -/
  m_SPP : ℤ

abbrev Body (α : Type) := Except VMException α

def throwOutOfGas {α : Type} : Body α := .error .OutOfGas

def toInt63 (v : ℕ) : Body ℕ := if 0x7FFFFFFFFFFFFFFF < v then throwOutOfGas else .ok v

/-- `uint64_t` of a number. -/
def toUint64 (n : ℕ) : ℕ := n % 2 ^ 64

def asAddress (item : U256) : Address := right160 item

def fromAddress (a : Address) : U256 := a.setWidth 256

def isPrecompiledContract (a : Address) : Bool := a ≤ 0xffff

/-- The bytes `b` written at an offset. -/
def writeBytes (mem : Bytes) (offset : ℕ) (b : Bytes) : Bytes :=
  mem.take offset ++ b ++ mem.drop (offset + b.length)

/-- `size` bytes from an offset. -/
def readBytes (mem : Bytes) (offset size : ℕ) : Bytes := (mem.drop offset).take size

namespace Machine

variable {σ : Type}

/-- `m_SP[i]`. -/
def sp (d : Machine σ) (i : ℕ) : U256 := d.m_stack (d.m_SP + i)

/-- `*p = v` for a pointer into the stack. -/
def put (d : Machine σ) (p : ℤ) (v : U256) : Machine σ :=
  { d with m_stack := Function.update d.m_stack p v }

/-! ### Gas and memory -/

section

variable (s : EVMSchedule) (d : Machine σ)

def updateIOGas : Body (Machine σ) :=
  if d.m_io_gas < d.m_runGas then throwOutOfGas
  else .ok { d with m_io_gas := d.m_io_gas - d.m_runGas }

theorem updateIOGas_of_lt {d : Machine σ} (h : d.m_io_gas < d.m_runGas) :
    d.updateIOGas = throwOutOfGas := by
  unfold updateIOGas
  exact if_pos h

theorem updateIOGas_of_le {d : Machine σ} (h : d.m_runGas ≤ d.m_io_gas) :
    d.updateIOGas = .ok { d with m_io_gas := d.m_io_gas - d.m_runGas } := by
  unfold updateIOGas
  exact if_neg (not_lt.2 h)

theorem updateIOGas_ok {d d' : Machine σ} (h : d.updateIOGas = .ok d') :
    d.m_runGas ≤ d.m_io_gas ∧ d' = { d with m_io_gas := d.m_io_gas - d.m_runGas } := by
  rcases Nat.lt_or_ge d.m_io_gas d.m_runGas with hlt | hle
  · rw [updateIOGas_of_lt hlt] at h
    cases h
  · rw [updateIOGas_of_le hle] at h
    cases h
    exact ⟨hle, rfl⟩

def charge (gas : ℕ) : Body (Machine σ) := updateIOGas { d with m_runGas := gas }

def memNeed (offset size : U256) : Body ℕ :=
  toInt63 (if size ≠ 0 then offset.toNat + size.toNat else 0)

def gasForMem (size : ℕ) : Body ℕ :=
  toInt63 (s.memoryGas * (size / 32) + size / 32 * (size / 32) / s.quadCoeffDiv)

def updateGas : Body (Machine σ) := do
  let runGas ←
    (if d.m_mem.length < d.m_newMemSize then do
      let new ← gasForMem s d.m_newMemSize
      let old ← gasForMem s d.m_mem.length
      let more ← toInt63 (new - old)
      .ok (toUint64 (d.m_runGas + more))
    else .ok d.m_runGas)
  let runGas := toUint64 (runGas + s.copyGas * ((d.m_copyMemSize + 31) / 32))
  if d.m_io_gas < runGas then throwOutOfGas else .ok { d with m_runGas := runGas }

def updateMem (newMem : ℕ) : Body (Machine σ) := do
  let d ← updateGas s { d with m_newMemSize := (newMem + 31) / 32 * 32 }
  .ok (if d.m_mem.length < d.m_newMemSize then
    { d with m_mem := d.m_mem ++ List.replicate (d.m_newMemSize - d.m_mem.length) 0 } else d)

def logGasMem (n : ℕ) : Body (Machine σ) := do
  let runGas ← toInt63 (s.logGas + s.logTopicGas * n + s.logDataGas * (d.sp 1).toNat)
  let need ← memNeed (d.sp 0) (d.sp 1)
  updateMem s { d with m_runGas := runGas } need

end

/-- `copyDataToMemory`, with the memory offset, the index and the size at `sp`. -/
def copyDataToMemory (d : Machine σ) (data : Bytes) (sp : ℕ) : Machine σ :=
  let offset := toUint64 (d.sp sp).toNat
  let bigIndex := (d.sp (sp + 1)).toNat
  let index := toUint64 bigIndex
  let size := toUint64 (d.sp (sp + 2)).toNat
  let sizeToBeCopied :=
    if data.length < bigIndex + size then if data.length < bigIndex then 0 else data.length - index
    else size
  { d with
    m_mem := writeBytes d.m_mem offset
      (readBytes data index sizeToBeCopied ++ List.replicate (size - sizeToBeCopied) 0) }

/-! ### Storage -/

section

variable (f : ExtVMFace σ) (d : Machine σ)

def updateSSGasPreEIP1283 (currentValue newValue : U256) : Body (Machine σ) := do
  let s := f.evmSchedule
  if currentValue = 0 ∧ newValue ≠ 0 then
    let g ← toInt63 s.sstoreSetGas
    .ok { d with m_runGas := g }
  else if currentValue ≠ 0 ∧ newValue = 0 then
    let g ← toInt63 s.sstoreResetGas
    .ok { d with m_runGas := g, m_ext := d.m_ext.addRefunds s.sstoreRefundGas }
  else
    let g ← toInt63 s.sstoreResetGas
    .ok { d with m_runGas := g }

/-- The gas and the change of the refund counter for a store into a slot that held `originalValue`
before the transaction. -/
def netGas (s : EVMSchedule) (originalValue currentValue newValue : U256) : ℕ × ℤ :=
  if currentValue = newValue then (s.sstoreUnchangedGas, 0)
  else if originalValue = currentValue then
    if originalValue = 0 then (s.sstoreSetGas, 0)
    else (s.sstoreResetGas, if newValue = 0 then s.sstoreRefundGas else 0)
  else
    (s.sstoreUnchangedGas,
      (if originalValue ≠ 0 then
        (if currentValue = 0 then -(s.sstoreRefundGas : ℤ) else 0) +
          (if newValue = 0 then s.sstoreRefundGas else 0)
      else 0) +
      (if originalValue = newValue then
        if originalValue = 0 then ((s.sstoreSetGas - s.sstoreUnchangedGas : ℕ) : ℤ)
        else ((s.sstoreResetGas - s.sstoreUnchangedGas : ℕ) : ℤ)
      else 0))

def updateSSGasEIP1283 (currentValue newValue : U256) : Machine σ :=
  let g := netGas f.evmSchedule (f.originalStorageValue d.m_ext.s (d.sp 0)) currentValue newValue
  { d with m_runGas := g.1, m_ext := d.m_ext.addRefunds g.2 }

def updateSSGas : Body (Machine σ) :=
  if f.evmSchedule.sstoreThrowsIfGasBelowCallStipend ∧ d.m_io_gas ≤ f.evmSchedule.callStipend then
    throwOutOfGas
  else
    let currentValue := f.store d.m_ext.s (d.sp 0)
    let newValue := d.sp 1
    if f.evmSchedule.sstoreNetGasMetering then .ok (updateSSGasEIP1283 f d currentValue newValue)
    else updateSSGasPreEIP1283 f d currentValue newValue

end

end Machine

namespace LegacyVM

variable {σ : Type} (f : ExtVMFace σ)

open Machine

/-! ## Calling out -/

/-- `caseCreate`, which leaves its result at `spp`. -/
def caseCreate (op : Instruction) (spp : ℤ) (d : Machine σ) : Body (Machine σ) := do
  let s := f.evmSchedule
  let runGas ← toInt63 s.createGas
  let endowment := d.sp 0
  let initOff := d.sp 1
  let initSize := d.sp 2
  let (salt, runGas) ←
    (if op = .CREATE2 then do
      let more ← toInt63 ((initSize.toNat + 31) / 32 * s.sha3WordGas)
      .ok (d.sp 3, toUint64 (runGas + more))
    else .ok (0, runGas))
  let need ← memNeed initOff initSize
  let d ← updateMem s { d with m_runGas := runGas } need
  let d ← d.updateIOGas
  let d := { d with m_returnData := [] }
  if endowment ≤ f.balance d.m_ext.s f.myAddress ∧ f.depth < 1024 then
    let io_gas : U256 := BitVec.ofNat 256 d.m_io_gas
    let createGas := if s.staticCallDepthLimit then io_gas else io_gas - io_gas / 64
    let initCode := readBytes d.m_mem (toUint64 initOff.toNat) (toUint64 initSize.toNat)
    let (result, ext) := f.create d.m_ext endowment createGas initCode op salt
    let d := d.put spp (fromAddress result.address)
    .ok { d with
      m_ext := ext
      m_returnData := result.output
      m_io_gas := toUint64 (io_gas - (createGas - result.gas)).toNat }
  else .ok (d.put spp 0)

/-- `caseCallSetup`. The parameters of the call and, if it is to be made, where its output goes. -/
def caseCallSetup (op : Instruction) (d : Machine σ) :
    Body (CallParameters × Option (ℕ × ℕ) × Machine σ) := do
  let s := f.evmSchedule
  let staticCall := op = .STATICCALL ∨ f.staticCall
  let destinationAddr := asAddress (d.sp 1)
  let runGas ←
    (if staticCall ∧ isPrecompiledContract destinationAddr then toInt63 s.precompileStaticCallGas
    else toInt63 (if destinationAddr = f.myAddress then s.callSelfGas else s.callGas))
  let haveValueArg := op = .CALL ∨ op = .CALLCODE
  let newAccount ←
    (if op = .CALL ∧ (0 < d.sp 2 ∨ s.zeroValueTransferChargesNewAccountGas) ∧
        ¬f.exists_ d.m_ext.s destinationAddr then toInt63 s.callNewAccountGas else .ok 0)
  let transfer ←
    (if haveValueArg ∧ 0 < d.sp 2 then toInt63 s.callValueTransferGas else .ok 0)
  let runGas := toUint64 (d.m_runGas + runGas + newAccount + transfer)
  let sizesOffset := if haveValueArg then 3 else 2
  let inputOffset := d.sp sizesOffset
  let inputSize := d.sp (sizesOffset + 1)
  let outputOffset := d.sp (sizesOffset + 2)
  let outputSize := d.sp (sizesOffset + 3)
  let inputMemNeed ← memNeed inputOffset inputSize
  let outputMemNeed ← memNeed outputOffset outputSize
  let d ← updateMem s { d with m_runGas := runGas } (max inputMemNeed outputMemNeed)
  let d ← d.updateIOGas
  let maxAllowedCallGas : U256 := BitVec.ofNat 256 (d.m_io_gas - d.m_io_gas / 64)
  let gas :=
    if s.staticCallDepthLimit then d.sp 0
    else if maxAllowedCallGas < d.sp 0 then maxAllowedCallGas else d.sp 0
  let runGas ← toInt63 gas.toNat
  let d ← d.charge runGas
  let gas := if haveValueArg ∧ 0 < d.sp 2 then gas + BitVec.ofNat 256 s.callStipend else gas
  let valueTransfer := if haveValueArg then d.sp 2 else 0
  let params : CallParameters :=
    { gas, codeAddress := destinationAddr, valueTransfer, staticCall
      apparentValue :=
        if haveValueArg then d.sp 2 else if op = .DELEGATECALL then f.value else 0 }
  if valueTransfer ≤ f.balance d.m_ext.s f.myAddress ∧ f.depth < 1024 then
    let params :=
      { params with
        senderAddress := if op = .DELEGATECALL then f.caller else f.myAddress
        receiveAddress := if op = .CALL ∨ op = .STATICCALL then destinationAddr else f.myAddress
        data := readBytes d.m_mem (toUint64 inputOffset.toNat) (toUint64 inputSize.toNat) }
    .ok (params, some (toUint64 outputOffset.toNat, toUint64 outputSize.toNat), d)
  else .ok (params, none, d)

def caseCall (op : Instruction) (spp : ℤ) (d : Machine σ) : Body (Machine σ) := do
  let (params, output, d) ← caseCallSetup f op { d with m_returnData := [] }
  match output with
  | some (outOff, outSize) =>
    let (result, ext) := f.call d.m_ext params
    let d := d.put spp (if result.success then 1 else 0)
    .ok { d with
      m_ext := ext
      m_mem := writeBytes d.m_mem outOff (result.output.take outSize)
      m_returnData := result.output
      m_io_gas := toUint64 (d.m_io_gas + toUint64 result.gas.toNat) }
  | none =>
    let d := d.put spp 0
    .ok { d with m_io_gas := toUint64 (d.m_io_gas + toUint64 params.gas.toNat) }

/-! ## The instructions that go on to the next one -/

/-- `m_SPP[0] = v` after the gas is charged. -/
def push (spp : ℤ) (d : Machine σ) (v : U256) : Body (Machine σ) := do
  let d ← d.updateIOGas
  .ok (d.put spp v)

/-- An instruction that some forks do not have. -/
def require (have_ : Bool) : Body Unit := if have_ then .ok () else .error .BadInstruction

/-- An instruction that a static call must not run. -/
def requireState : Body Unit := if f.staticCall then .error .DisallowedStateChange else .ok ()

/-- The body of an instruction after which the program counter is advanced by one. -/
def interpretNext (crypto : Crypto) (op : Instruction) (pc : ℕ) (spp : ℤ) (d : Machine σ) :
    Body (Machine σ) :=
  let s := f.evmSchedule
  match op with
  | .CREATE2 => do
    require s.haveCreate2
    requireState f
    caseCreate f op spp d
  | .CREATE => do
    requireState f
    caseCreate f op spp d
  | .DELEGATECALL => do
    require s.haveDelegateCall
    caseCall f op spp d
  | .STATICCALL => do
    require s.haveStaticCall
    caseCall f op spp d
  | .CALL => do
    (if f.staticCall ∧ d.sp 2 ≠ 0 then .error .DisallowedStateChange else .ok ())
    caseCall f op spp d
  | .CALLCODE => caseCall f op spp d
  | .MLOAD => do
    let offset ← toInt63 (d.sp 0).toNat
    let d ← updateMem s d (offset + 32)
    let d ← d.updateIOGas
    .ok (d.put spp (BitVec.ofNat 256
      (fromBigEndian (readBytes d.m_mem (toUnsigned (d.sp 0).toNat) 32))))
  | .MSTORE => do
    let offset ← toInt63 (d.sp 0).toNat
    let d ← updateMem s d (offset + 32)
    let d ← d.updateIOGas
    .ok { d with m_mem := writeBytes d.m_mem (toUnsigned (d.sp 0).toNat) (asBytes 32 (d.sp 1)) }
  | .MSTORE8 => do
    let offset ← toInt63 (d.sp 0).toNat
    let d ← updateMem s d (offset + 1)
    let d ← d.updateIOGas
    .ok { d with
      m_mem := writeBytes d.m_mem (toUnsigned (d.sp 0).toNat) [UInt8.ofNat (d.sp 1).toNat] }
  | .SHA3 => do
    let runGas ← toInt63 (s.sha3Gas + ((d.sp 1).toNat + 31) / 32 * s.sha3WordGas)
    let need ← memNeed (d.sp 0) (d.sp 1)
    let d ← updateMem s { d with m_runGas := runGas } need
    push spp d (crypto.sha3
      (readBytes d.m_mem (toUint64 (d.sp 0).toNat) (toUint64 (d.sp 1).toNat)))
  | .LOG n => do
    requireState f
    let d ← logGasMem s d n
    let d ← d.updateIOGas
    .ok { d with
      m_ext := d.m_ext.log f.myAddress ((List.range n).map fun i => d.sp (2 + i))
        (readBytes d.m_mem (toUint64 (d.sp 0).toNat) (toUint64 (d.sp 1).toNat)) }
  | .EXP => do
    let runGas ← toInt63
      ((s.expGas + s.expByteGas * (32 - firstBitSet (asBytes 32 (d.sp 1)) 0 / 8)) % 2 ^ 32)
    let d ← d.charge runGas
    .ok (d.put spp (exp256 (d.sp 0) (d.sp 1)))
  | .ADD => push spp d (d.sp 0 + d.sp 1)
  | .MUL => push spp d (d.sp 0 * d.sp 1)
  | .SUB => push spp d (d.sp 0 - d.sp 1)
  | .DIV => push spp d (div (d.sp 0) (d.sp 1))
  | .SDIV => do
    let d ← push spp d (sdiv (d.sp 0) (d.sp 1))
    .ok { d with m_SP := d.m_SP - 1 }
  | .MOD => push spp d (mod (d.sp 0) (d.sp 1))
  | .SMOD => push spp d (smod (d.sp 0) (d.sp 1))
  | .NOT => push spp d (~~~(d.sp 0))
  | .LT => push spp d (if d.sp 0 < d.sp 1 then 1 else 0)
  | .GT => push spp d (if d.sp 1 < d.sp 0 then 1 else 0)
  | .SLT => push spp d (slt (d.sp 0) (d.sp 1))
  | .SGT => push spp d (sgt (d.sp 0) (d.sp 1))
  | .EQ => push spp d (if d.sp 0 = d.sp 1 then 1 else 0)
  | .ISZERO => push spp d (if d.sp 0 ≠ 0 then 0 else 1)
  | .AND => push spp d (d.sp 0 &&& d.sp 1)
  | .OR => push spp d (d.sp 0 ||| d.sp 1)
  | .XOR => push spp d (d.sp 0 ^^^ d.sp 1)
  | .BYTE => push spp d (byte (d.sp 0) (d.sp 1))
  | .SHL => do
    require s.haveBitwiseShifting
    push spp d (shl (d.sp 0) (d.sp 1))
  | .SHR => do
    require s.haveBitwiseShifting
    push spp d (shr (d.sp 0) (d.sp 1))
  | .SAR => do
    require s.haveBitwiseShifting
    push spp d (sar (d.sp 0) (d.sp 1))
  | .ADDMOD => push spp d (addmod (d.sp 0) (d.sp 1) (d.sp 2))
  | .MULMOD => push spp d (mulmod (d.sp 0) (d.sp 1) (d.sp 2))
  -- the word is changed where it stands
  | .SIGNEXTEND => do
    let d ← d.updateIOGas
    .ok (d.put (d.m_SP + 1) (signextend (d.sp 0) (d.sp 1)))
  | .optional _ => .error .BadInstruction
  | .ADDRESS => push spp d (fromAddress f.myAddress)
  | .ORIGIN => push spp d (fromAddress f.origin)
  | .BALANCE => do
    let runGas ← toInt63 s.balanceGas
    push spp { d with m_runGas := runGas } (f.balance d.m_ext.s (asAddress (d.sp 0)))
  | .CALLER => push spp d (fromAddress f.caller)
  | .CALLVALUE => push spp d f.value
  | .CALLDATALOAD => do
    let d ← d.updateIOGas
    let index := (d.sp 0).toNat
    .ok (d.put d.m_SP
      (if index + 31 < f.data.length then
        BitVec.ofNat 256 (fromBigEndian (readBytes f.data index 32))
      else if f.data.length ≤ index then 0
      else BitVec.ofNat 256 (fromBigEndian ((List.range 32).map fun j => f.data.getD (index + j) 0))))
  | .CALLDATASIZE => push spp d (BitVec.ofNat 256 f.data.length)
  | .RETURNDATASIZE => do
    require s.haveReturnData
    push spp d (BitVec.ofNat 256 d.m_returnData.length)
  | .CODESIZE => push spp d (BitVec.ofNat 256 f.code.length)
  | .EXTCODESIZE => do
    let runGas ← toInt63 s.extcodesizeGas
    push spp { d with m_runGas := runGas }
      (BitVec.ofNat 256 (f.codeSizeAt d.m_ext.s (asAddress (d.sp 0))))
  | .CALLDATACOPY => do
    let size ← toInt63 (d.sp 2).toNat
    let need ← memNeed (d.sp 0) (d.sp 2)
    let d ← updateMem s { d with m_copyMemSize := size } need
    let d ← d.updateIOGas
    .ok (d.copyDataToMemory f.data 0)
  | .RETURNDATACOPY => do
    require s.haveReturnData
    let endOfAccess := (d.sp 1).toNat + (d.sp 2).toNat
    (if d.m_returnData.length < endOfAccess then
      .error (.BufferOverrun endOfAccess d.m_returnData.length) else .ok ())
    let size ← toInt63 (d.sp 2).toNat
    let need ← memNeed (d.sp 0) (d.sp 2)
    let d ← updateMem s { d with m_copyMemSize := size } need
    let d ← d.updateIOGas
    .ok (d.copyDataToMemory d.m_returnData 0)
  | .EXTCODEHASH => do
    require s.haveExtcodehash
    let runGas ← toInt63 s.extcodehashGas
    push spp { d with m_runGas := runGas } (f.codeHashAt d.m_ext.s (asAddress (d.sp 0)))
  | .CODECOPY => do
    let size ← toInt63 (d.sp 2).toNat
    let need ← memNeed (d.sp 0) (d.sp 2)
    let d ← updateMem s { d with m_copyMemSize := size } need
    let d ← d.updateIOGas
    .ok (d.copyDataToMemory f.code 0)
  | .EXTCODECOPY => do
    let runGas ← toInt63 s.extcodecopyGas
    let size ← toInt63 (d.sp 3).toNat
    let need ← memNeed (d.sp 1) (d.sp 3)
    let d ← updateMem s { d with m_runGas := runGas, m_copyMemSize := size } need
    let d ← d.updateIOGas
    .ok (d.copyDataToMemory (f.codeAt d.m_ext.s (asAddress (d.sp 0))) 1)
  | .GASPRICE => push spp d f.gasPrice
  | .BLOCKHASH => do
    let runGas ← toInt63 s.blockhashGas
    let d ← d.charge runGas
    match f.blockHash d.m_ext.s (d.sp 0) with
    | .error e => .error (.host e)
    | .ok h => .ok (d.put spp h)
  | .COINBASE => push spp d (fromAddress f.envInfo.header.author)
  | .TIMESTAMP => push spp d (U256.ofInt f.envInfo.header.timestamp)
  | .NUMBER => push spp d (U256.ofInt f.envInfo.header.number)
  | .DIFFICULTY => push spp d f.envInfo.header.difficulty
  | .GASLIMIT => push spp d f.envInfo.header.gasLimit
  | .CHAINID => do
    require s.haveChainID
    push spp d f.envInfo.chainID
  | .SELFBALANCE => do
    require s.haveSelfbalance
    push spp d (f.balance d.m_ext.s f.myAddress)
  | .POP => do
    let d ← d.updateIOGas
    .ok { d with m_SP := d.m_SP - 1 }
  | .DUP n => push spp d (d.sp n)
  | .SWAP n => do
    let d ← d.updateIOGas
    .ok ((d.put d.m_SP (d.sp (n + 1))).put (d.m_SP + (n + 1 : ℕ)) (d.sp 0))
  | .SLOAD => do
    let runGas ← toInt63 s.sloadGas
    push spp { d with m_runGas := runGas } (f.store d.m_ext.s (d.sp 0))
  | .SSTORE => do
    requireState f
    let d ← updateSSGas f d
    let d ← d.updateIOGas
    .ok { d with m_ext := { d.m_ext with s := f.setStore d.m_ext.s (d.sp 0) (d.sp 1) } }
  | .PC => push spp d (BitVec.ofNat 256 pc)
  | .MSIZE => push spp d (BitVec.ofNat 256 d.m_mem.length)
  | .GAS => do
    let d ← d.updateIOGas
    .ok (d.put spp (BitVec.ofNat 256 d.m_io_gas))
  | .JUMPDEST => d.charge 1
  -- `PUSHC`, `JUMPC` and `JUMPCI` are compiled only with the optimiser; the others have their own
  -- case or no entry
  | _ => .error .BadInstruction

/-! ## Fetching -/

/-- `m_code[i]`. -/
def codeAt (vm : LegacyVM σ) (i : ℕ) : Except Stop UInt8 :=
  match vm.m_code[i]? with
  | none => .error .outOfBounds
  | some b => .ok b

/-- The number of entries of the stack, and the pointer behind the last of them. -/
def stackEnd : ℤ := 1024

/-- `throwBadStack`: the pointer is already moved. -/
def throwBadStack {α : Type} (spp : ℤ) (removed added : ℕ) : Except Stop α :=
  if stackEnd - spp < removed then .error (.badStack (.StackUnderflow removed (stackEnd - spp)))
  else .error (.badStack (.OutOfStack ((added : ℤ) - removed) (stackEnd - spp)))

def adjustStack (vm : LegacyVM σ) (removed added : ℕ) : Except Stop (LegacyVM σ) :=
  let spp := vm.m_SPP + removed
  if stackEnd < spp then throwBadStack spp removed added
  else
    let spp' := spp - added
    if spp' < 0 then throwBadStack spp' removed added
    else .ok { vm with m_SP := vm.m_SPP, m_SPP := spp' }

/-- The price of a tier. The table ends before the tier of the bytes that are no instruction. -/
def tierGas (s : EVMSchedule) (t : Tier) : ℕ := s.tierStepGas.getD t.index 0

def fetchInstruction (vm : LegacyVM σ) : Except Stop (LegacyVM σ) := do
  let op ← vm.codeAt vm.m_PC
  let metric := (Instruction.ofByte op).info
  let vm ← adjustStack { vm with m_OP := op } metric.args metric.ret
  .ok { vm with
    m_runGas := tierGas f.evmSchedule metric.gasPriceTier
    m_newMemSize := vm.m_mem.length
    m_copyMemSize := 0 }

/-! ## The loop -/

/-- The virtual machine after an instruction: at the next one, or at its end. -/
inductive Outcome (σ : Type)
  | running (vm : LegacyVM σ)
  | done (vm : LegacyVM σ)

def ofBody {α : Type} : Body α → Except Stop α
  | .error e => .error (.thrown e)
  | .ok a => .ok a

def verifyJumpDest (vm : LegacyVM σ) (dest : U256) : Body ℕ :=
  if dest.toNat ≤ 0x7FFFFFFFFFFFFFFF ∧ BinarySearch.binarySearch vm.m_jumpDests dest.toNat then
    .ok dest.toNat
  else .error .BadJumpDestination

/-- The word that `n` bytes of push data from `i` on spell. -/
def pushData (vm : LegacyVM σ) : ℕ → ℕ → U256 → Except Stop U256
  | 0, _, v => .ok v
  | n + 1, i, v => do
    let b ← vm.codeAt i
    pushData vm n (i + 1) (v <<< 8 ||| BitVec.ofNat 256 b.toNat)

/-- The output of `RETURN` and of `REVERT`: a piece of the memory. -/
def output (d : Machine σ) : Bytes :=
  readBytes d.m_mem (toUint64 (d.sp 0).toNat) (toUint64 (d.sp 1).toNat)

/-- `RETURN` and `REVERT` up to the output. -/
def payOutput (d : Machine σ) : Body (Machine σ) := do
  let need ← memNeed (d.sp 0) (d.sp 1)
  let d ← updateMem f.evmSchedule d need
  d.updateIOGas

def selfdestruct (d : Machine σ) : Body (Machine σ) := do
  let s := f.evmSchedule
  requireState f
  let runGas ← toInt63 s.selfdestructGas
  let d ← d.charge runGas
  let dest := asAddress (d.sp 0)
  let d ←
    (if s.eip150Mode ∧ (¬s.eip158Mode ∨ 0 < f.balance d.m_ext.s f.myAddress) ∧
        ¬f.exists_ d.m_ext.s dest then d.charge s.callNewAccountGas
    else .ok d)
  .ok { d with m_ext := f.selfdestruct d.m_ext dest }

/-- The instruction that was fetched. -/
def interpretCase (crypto : Crypto) (vm : LegacyVM σ) : Except Stop (Outcome σ) :=
  match Instruction.ofByte vm.m_OP with
  | .RETURN => do
    let d ← ofBody (payOutput f vm.toMachine)
    .ok (.done { vm with toMachine := { d with m_output := output d } })
  | .REVERT => do
    ofBody (require f.evmSchedule.haveRevert)
    let d ← ofBody (payOutput f vm.toMachine)
    .error (.thrown (.RevertInstruction (output d)))
  | .SELFDESTRUCT => do
    let d ← ofBody (selfdestruct f vm.toMachine)
    .ok (.done { vm with toMachine := d })
  | .STOP => do
    let d ← ofBody vm.updateIOGas
    .ok (.done { vm with toMachine := d })
  | .PUSH n => do
    let d ← ofBody vm.updateIOGas
    let v ← vm.pushData (n + 1) (vm.m_PC + 1) 0
    .ok (.running { vm with
      toMachine := d.put vm.m_SPP v
      m_PC := vm.m_PC + 1 + (n + 1) })
  | .JUMP => do
    let d ← ofBody vm.updateIOGas
    let pc ← ofBody (vm.verifyJumpDest (d.sp 0))
    .ok (.running { vm with toMachine := d, m_PC := pc })
  | .JUMPI => do
    let d ← ofBody vm.updateIOGas
    if d.sp 1 ≠ 0 then do
      let pc ← ofBody (vm.verifyJumpDest (d.sp 0))
      .ok (.running { vm with toMachine := d, m_PC := pc })
    else .ok (.running { vm with toMachine := d, m_PC := vm.m_PC + 1 })
  | op => do
    let d ← ofBody (interpretNext f crypto op vm.m_PC vm.m_SPP vm.toMachine)
    .ok (.running { vm with toMachine := d, m_PC := vm.m_PC + 1 })

def step (crypto : Crypto) (vm : LegacyVM σ) : Except Stop (Outcome σ) := do
  let vm ← fetchInstruction f vm
  interpretCase f crypto vm

/-! ## Entry -/

/-- The bytes of push data that the scan for jump destinations skips. -/
def pushBytes (op : UInt8) : ℕ := if 0x60 ≤ op ∧ op ≤ 0x7f then (op - 0x60).toNat + 1 else 0

/-- The loop of `optimize` from `pc` on, with the code and the destinations found so far; `nBytes`
rounds are enough. -/
def optimizeFrom (nBytes : ℕ) : ℕ → ℕ → Bytes → List ℕ → Bytes × List ℕ
  | 0, _, code, dests => (code, dests)
  | k + 1, pc, code, dests =>
    if pc < nBytes then
      let op := code.getD pc 0
      let code := if op = 0xac ∨ op = 0xad ∨ op = 0xae then code.set pc 0xfe else code
      if op = 0x5b then optimizeFrom nBytes k (pc + 1) code (dests ++ [pc])
      else optimizeFrom nBytes k (pc + 1 + pushBytes op) code dests
    else (code, dests)

def copyCode (code : Bytes) (extraBytes : ℕ) : Bytes := code ++ List.replicate extraBytes 0

def optimize (code : Bytes) : Bytes × List ℕ :=
  optimizeFrom code.length code.length 0 (copyCode code 33) []

/-- The virtual machine when `exec` enters the loop. -/
def entry (io_gas : U256) (ext : ExtState σ) : LegacyVM σ :=
  { m_io_gas := toUint64 io_gas.toNat
    m_ext := ext
    m_mem := []
    m_returnData := []
    m_stack := fun _ => 0
    m_SP := stackEnd
    m_runGas := 0
    m_newMemSize := 0
    m_copyMemSize := 0
    m_output := []
    m_code := (optimize f.code).1
    m_jumpDests := (optimize f.code).2
    m_OP := 0
    m_PC := 0
    m_SPP := stackEnd }

/-! ## Fetching, by what is on the stack -/

variable {f} {vm : LegacyVM σ} {b : UInt8}

theorem codeAt_eq (h : vm.m_code[vm.m_PC]? = some b) : vm.codeAt vm.m_PC = .ok b := by
  unfold codeAt
  rw [h]

theorem adjustStack_eq {removed added : ℕ} (hargs : vm.m_SPP + removed ≤ stackEnd)
    (hroom : 0 ≤ vm.m_SPP + removed - added) :
    adjustStack vm removed added =
      .ok { vm with m_SP := vm.m_SPP, m_SPP := vm.m_SPP + removed - added } := by
  unfold adjustStack
  dsimp only
  rw [if_neg (not_lt.2 hargs), if_neg (not_lt.2 hroom)]

/-- The virtual machine at the instruction `b` it has fetched. -/
def fetched (f : ExtVMFace σ) (vm : LegacyVM σ) (b : UInt8) : LegacyVM σ :=
  { vm with
    m_OP := b
    m_SP := vm.m_SPP
    m_SPP := vm.m_SPP + (Instruction.ofByte b).info.args - (Instruction.ofByte b).info.ret
    m_runGas := tierGas f.evmSchedule (Instruction.ofByte b).info.gasPriceTier
    m_newMemSize := vm.m_mem.length
    m_copyMemSize := 0 }

/-- With its arguments on the stack and room for what it leaves there, an instruction is fetched. -/
theorem fetchInstruction_eq (hcode : vm.m_code[vm.m_PC]? = some b)
    (hargs : vm.m_SPP + (Instruction.ofByte b).info.args ≤ stackEnd)
    (hroom : 0 ≤ vm.m_SPP + (Instruction.ofByte b).info.args - (Instruction.ofByte b).info.ret) :
    fetchInstruction f vm = .ok (fetched f vm b) := by
  have hadj : adjustStack { vm with m_OP := b } _ _ = _ := adjustStack_eq hargs hroom
  unfold fetchInstruction
  rw [codeAt_eq hcode]
  show (adjustStack _ _ _ >>= _) = _
  rw [hadj]
  rfl

theorem step_eq {crypto : Crypto} (hcode : vm.m_code[vm.m_PC]? = some b)
    (hargs : vm.m_SPP + (Instruction.ofByte b).info.args ≤ stackEnd)
    (hroom : 0 ≤ vm.m_SPP + (Instruction.ofByte b).info.args - (Instruction.ofByte b).info.ret) :
    step f crypto vm = interpretCase f crypto (fetched f vm b) := by
  unfold step
  rw [fetchInstruction_eq hcode hargs hroom]
  rfl

end LegacyVM

end Petrachor
