import Petrachor.Common

/-!
# The gas schedules of the forks

Each fork copies the schedule before it and changes some of its fields.
-/

namespace Petrachor

structure EVMSchedule where
  accountVersion : ℕ := 0
  exceptionalFailedCodeDeposit : Bool := true
  haveDelegateCall : Bool := true
  eip150Mode : Bool := false
  eip158Mode : Bool := false
  haveRevert : Bool := false
  haveReturnData : Bool := false
  haveStaticCall : Bool := false
  haveCreate2 : Bool := false
  tierStepGas : List ℕ := [0, 2, 3, 5, 8, 10, 20, 0]
  expGas : ℕ := 10
  expByteGas : ℕ := 10
  sha3Gas : ℕ := 30
  sha3WordGas : ℕ := 6
  sloadGas : ℕ := 50
  sstoreSetGas : ℕ := 20000
  sstoreResetGas : ℕ := 5000
  sstoreRefundGas : ℕ := 15000
  logGas : ℕ := 375
  logDataGas : ℕ := 8
  logTopicGas : ℕ := 375
  createGas : ℕ := 32000
  callGas : ℕ := 40
  callStipend : ℕ := 2300
  callValueTransferGas : ℕ := 9000
  callNewAccountGas : ℕ := 25000
  memoryGas : ℕ := 3
  quadCoeffDiv : ℕ := 512
  createDataGas : ℕ := 200
  txGas : ℕ := 21000
  txCreateGas : ℕ := 53000
  txDataZeroGas : ℕ := 4
  txDataNonZeroGas : ℕ := 68
  copyGas : ℕ := 3
  haveChainID : Bool := false
  extcodesizeGas : ℕ := 20
  extcodecopyGas : ℕ := 20
  balanceGas : ℕ := 20
  /-- Set by the forks and read by nobody; `selfdestructGas` is what the virtual machine reads. -/
  suicideGas : ℕ := 0
  blockhashGas : ℕ := 20
  maxCodeSize : ℕ := 2 ^ 32 - 1
  eip1283Mode : Bool := false
  eip2200Mode : Bool := false
  sstoreUnchangedGas : ℕ := 200
  selfdestructGas : ℕ := 0
  haveBitwiseShifting : Bool := false
  haveSelfbalance : Bool := false
  extcodehashGas : ℕ := 400
  haveExtcodehash : Bool := false
  precompileStaticCallGas : ℕ := 700
  callSelfGas : ℕ := 40
  selfdestructRefundGas : ℕ := 24000
  deriving DecidableEq

namespace EVMSchedule

def staticCallDepthLimit (s : EVMSchedule) : Bool := !s.eip150Mode

def zeroValueTransferChargesNewAccountGas (s : EVMSchedule) : Bool := !s.eip158Mode

def sstoreNetGasMetering (s : EVMSchedule) : Bool := s.eip1283Mode || s.eip2200Mode

def sstoreThrowsIfGasBelowCallStipend (s : EVMSchedule) : Bool := s.eip2200Mode

end EVMSchedule

def DefaultSchedule : EVMSchedule := {}

def FrontierSchedule : EVMSchedule :=
  { exceptionalFailedCodeDeposit := false, haveDelegateCall := false, txCreateGas := 21000 }

def HomesteadSchedule : EVMSchedule :=
  { exceptionalFailedCodeDeposit := true, haveDelegateCall := true, txCreateGas := 53000 }

def EIP150Schedule : EVMSchedule :=
  { HomesteadSchedule with
    eip150Mode := true
    extcodesizeGas := 700
    extcodecopyGas := 700
    balanceGas := 400
    sloadGas := 200
    callGas := 700
    suicideGas := 5000 }

def EIP158Schedule : EVMSchedule :=
  { EIP150Schedule with
    expByteGas := 50
    eip158Mode := true
    maxCodeSize := 0x6000 }

def ByzantiumSchedule : EVMSchedule :=
  { EIP158Schedule with
    haveRevert := true
    haveReturnData := true
    haveStaticCall := true }

def EWASMSchedule : EVMSchedule := { ByzantiumSchedule with maxCodeSize := 2 ^ 32 - 1 }

def ConstantinopleSchedule : EVMSchedule :=
  { ByzantiumSchedule with
    haveCreate2 := true
    haveBitwiseShifting := true
    haveExtcodehash := true
    eip1283Mode := true }

def ConstantinopleFixSchedule : EVMSchedule := { ConstantinopleSchedule with eip1283Mode := false }

def IstanbulSchedule : EVMSchedule :=
  { ConstantinopleFixSchedule with
    txDataNonZeroGas := 16
    sloadGas := 800
    balanceGas := 700
    extcodehashGas := 700
    haveChainID := true
    haveSelfbalance := true
    eip2200Mode := true
    sstoreUnchangedGas := 800 }

def MuirGlacierSchedule : EVMSchedule := IstanbulSchedule

def BerlinSchedule : EVMSchedule := MuirGlacierSchedule

def ExperimentalSchedule : EVMSchedule :=
  { BerlinSchedule with
    accountVersion := 1
    blockhashGas := 800 }

/-- Every schedule the program has. -/
def EVMSchedule.all : List EVMSchedule :=
  [DefaultSchedule, FrontierSchedule, HomesteadSchedule, EIP150Schedule, EIP158Schedule,
    ByzantiumSchedule, EWASMSchedule, ConstantinopleSchedule, ConstantinopleFixSchedule,
    IstanbulSchedule, MuirGlacierSchedule, BerlinSchedule, ExperimentalSchedule]

end Petrachor
