import Petrachor.Common

/-!
# Virtual machine instructions

What an instruction takes from the stack, what it puts there and the tier of its price.
-/

namespace Petrachor

inductive Tier
  | Zero | Base | VeryLow | Low | Mid | High | Ext | Special | Invalid
  deriving DecidableEq

/-- The index of a tier in a table of prices. -/
def Tier.index : Tier → ℕ
  | .Zero => 0 | .Base => 1 | .VeryLow => 2 | .Low => 3 | .Mid => 4 | .High => 5 | .Ext => 6
  | .Special => 7 | .Invalid => 8

/-- The instructions of EIPs 615 and 616, which are compiled only on demand. -/
inductive OptionalInstruction
  | JUMPTO | JUMPIF | JUMPSUB | JUMPV | JUMPSUBV | BEGINSUB | BEGINDATA | RETURNSUB | PUTLOCAL
  | GETLOCAL
  | XADD | XMUL | XSUB | XDIV | XSDIV | XMOD | XSMOD | XLT | XGT | XSLT | XSGT | XEQ | XISZERO | XAND
  | XOOR | XXOR | XNOT | XSHL | XSHR | XSAR | XROL | XROR | XPUSH | XMLOAD | XMSTORE | XSLOAD
  | XSSTORE | XVTOWIDE | XWIDETOV | XGET | XPUT | XSWIZZLE | XSHUFFLE
  deriving DecidableEq

/-- `PUSH n` pushes `n + 1` bytes, `DUP n` copies the item `n` below the top, `SWAP n` swaps the top
with the item `n + 1` below it. `undefined` stands for the bytes that have no entry. -/
inductive Instruction
  | STOP | ADD | MUL | SUB | DIV | SDIV | MOD | SMOD | ADDMOD | MULMOD | EXP | SIGNEXTEND
  | LT | GT | SLT | SGT | EQ | ISZERO | AND | OR | XOR | NOT | BYTE | SHL | SHR | SAR
  | SHA3
  | ADDRESS | BALANCE | ORIGIN | CALLER | CALLVALUE | CALLDATALOAD | CALLDATASIZE | CALLDATACOPY
  | CODESIZE | CODECOPY | GASPRICE | EXTCODESIZE | EXTCODECOPY | RETURNDATASIZE | RETURNDATACOPY
  | EXTCODEHASH
  | BLOCKHASH | COINBASE | TIMESTAMP | NUMBER | DIFFICULTY | GASLIMIT | CHAINID | SELFBALANCE
  | POP | MLOAD | MSTORE | MSTORE8 | SLOAD | SSTORE | JUMP | JUMPI | PC | MSIZE | GAS | JUMPDEST
  | PUSH (n : Fin 32) | DUP (n : Fin 16) | SWAP (n : Fin 16) | LOG (n : Fin 5)
  | PUSHC | JUMPC | JUMPCI
  | optional (i : OptionalInstruction)
  | CREATE | CALL | CALLCODE | RETURN | DELEGATECALL | CREATE2 | STATICCALL | REVERT | INVALID
  | SELFDESTRUCT
  | undefined
  deriving DecidableEq

namespace Instruction

open OptionalInstruction in
/-- The instructions by their bytes, sixteen to a line. -/
def table : List Instruction :=
  [STOP, ADD, MUL, SUB, DIV, SDIV, MOD, SMOD, ADDMOD, MULMOD, EXP, SIGNEXTEND] ++
    List.replicate 4 undefined ++
  [LT, GT, SLT, SGT, EQ, ISZERO, AND, OR, XOR, NOT, BYTE, SHL, SHR, SAR] ++ List.replicate 2 undefined ++
  [SHA3] ++ List.replicate 15 undefined ++
  [ADDRESS, BALANCE, ORIGIN, CALLER, CALLVALUE, CALLDATALOAD, CALLDATASIZE, CALLDATACOPY, CODESIZE,
    CODECOPY, GASPRICE, EXTCODESIZE, EXTCODECOPY, RETURNDATASIZE, RETURNDATACOPY, EXTCODEHASH] ++
  [BLOCKHASH, COINBASE, TIMESTAMP, NUMBER, DIFFICULTY, GASLIMIT, CHAINID, SELFBALANCE] ++
    List.replicate 8 undefined ++
  [POP, MLOAD, MSTORE, MSTORE8, SLOAD, SSTORE, JUMP, JUMPI, PC, MSIZE, GAS, JUMPDEST] ++
    List.replicate 4 undefined ++
  (List.finRange 32).map PUSH ++
  (List.finRange 16).map DUP ++
  (List.finRange 16).map SWAP ++
  (List.finRange 5).map LOG ++ List.replicate 7 undefined ++ [PUSHC, JUMPC, JUMPCI, undefined] ++
  [JUMPTO, JUMPIF, JUMPSUB, JUMPV, JUMPSUBV, BEGINSUB, BEGINDATA, RETURNSUB, PUTLOCAL,
    GETLOCAL].map optional ++ List.replicate 6 undefined ++
  [undefined] ++ [XADD, XMUL, XSUB, XDIV, XSDIV, XMOD, XSMOD].map optional ++
    List.replicate 8 undefined ++
  [XLT, XGT, XSLT, XSGT, XEQ, XISZERO, XAND, XOOR, XXOR, XNOT].map optional ++ [undefined] ++
    [XSHL, XSHR, XSAR, XROL, XROR].map optional ++
  [XPUSH, XMLOAD, XMSTORE].map optional ++ [undefined] ++
    [XSLOAD, XSSTORE, XVTOWIDE, XWIDETOV, XGET, XPUT, XSWIZZLE, XSHUFFLE].map optional ++
    List.replicate 4 undefined ++
  [CREATE, CALL, CALLCODE, RETURN, DELEGATECALL, CREATE2] ++ List.replicate 4 undefined ++
    [STATICCALL] ++ List.replicate 2 undefined ++ [REVERT, INVALID, SELFDESTRUCT]

def ofByte (b : UInt8) : Instruction := table.getD b.toNat undefined

end Instruction

structure InstructionMetric where
  args : ℕ
  ret : ℕ
  gasPriceTier : Tier
  deriving DecidableEq

def OptionalInstruction.info : OptionalInstruction → InstructionMetric
  | JUMPTO => ⟨1, 0, .VeryLow⟩
  | JUMPIF => ⟨2, 0, .Low⟩
  | JUMPV => ⟨1, 0, .Mid⟩
  | JUMPSUB => ⟨1, 0, .Low⟩
  | JUMPSUBV => ⟨1, 0, .Mid⟩
  | BEGINSUB | BEGINDATA => ⟨0, 0, .Special⟩
  | RETURNSUB => ⟨1, 0, .Mid⟩
  | PUTLOCAL => ⟨1, 0, .VeryLow⟩
  | GETLOCAL => ⟨0, 1, .VeryLow⟩
  | XADD => ⟨0, 0, .Special⟩
  | XMUL | XSUB | XDIV | XSDIV | XMOD | XSMOD | XLT | XGT | XSLT | XSGT | XEQ | XISZERO =>
    ⟨2, 1, .Special⟩
  | XAND => ⟨1, 1, .Special⟩
  | XOOR | XXOR | XNOT | XSHL | XSHR | XSAR | XROL | XROR => ⟨2, 1, .Special⟩
  | XPUSH | XMLOAD => ⟨1, 1, .VeryLow⟩
  | XMSTORE => ⟨2, 0, .VeryLow⟩
  | XSLOAD => ⟨1, 1, .Special⟩
  | XSSTORE => ⟨2, 0, .Special⟩
  | XVTOWIDE | XWIDETOV => ⟨1, 1, .VeryLow⟩
  | XPUT => ⟨3, 1, .Special⟩
  | XGET | XSWIZZLE => ⟨2, 1, .Special⟩
  | XSHUFFLE => ⟨3, 1, .Special⟩

namespace Instruction

/-- `instructionInfo`. -/
def info : Instruction → InstructionMetric
  | STOP => ⟨0, 0, .Zero⟩
  | ADD | SUB => ⟨2, 1, .VeryLow⟩
  | MUL | DIV | SDIV | MOD | SMOD => ⟨2, 1, .Low⟩
  | EXP => ⟨2, 1, .Special⟩
  | NOT => ⟨1, 1, .VeryLow⟩
  | LT | GT | SLT | SGT | EQ => ⟨2, 1, .VeryLow⟩
  | ISZERO => ⟨1, 1, .VeryLow⟩
  | AND | OR | XOR | BYTE | SHL | SHR | SAR => ⟨2, 1, .VeryLow⟩
  | ADDMOD | MULMOD => ⟨3, 1, .Mid⟩
  | SIGNEXTEND => ⟨2, 1, .Low⟩
  | SHA3 => ⟨2, 1, .Special⟩
  | ADDRESS | ORIGIN | CALLER | CALLVALUE | CALLDATASIZE | CODESIZE | GASPRICE | RETURNDATASIZE =>
    ⟨0, 1, .Base⟩
  | BALANCE | EXTCODESIZE | EXTCODEHASH | BLOCKHASH => ⟨1, 1, .Special⟩
  | CALLDATALOAD => ⟨1, 1, .VeryLow⟩
  | CALLDATACOPY | CODECOPY | RETURNDATACOPY => ⟨3, 0, .VeryLow⟩
  | EXTCODECOPY => ⟨4, 0, .Special⟩
  | COINBASE | TIMESTAMP | NUMBER | DIFFICULTY | GASLIMIT | CHAINID => ⟨0, 1, .Base⟩
  | SELFBALANCE => ⟨0, 1, .Low⟩
  | POP => ⟨1, 0, .Base⟩
  | MLOAD => ⟨1, 1, .VeryLow⟩
  | MSTORE | MSTORE8 => ⟨2, 0, .VeryLow⟩
  | SLOAD => ⟨1, 1, .Special⟩
  | SSTORE => ⟨2, 0, .Special⟩
  | JUMP => ⟨1, 0, .Mid⟩
  | JUMPI => ⟨2, 0, .High⟩
  | PC | MSIZE | GAS => ⟨0, 1, .Base⟩
  | JUMPDEST => ⟨0, 0, .Special⟩
  | PUSH _ => ⟨0, 1, .VeryLow⟩
  | DUP n => ⟨n + 1, n + 2, .VeryLow⟩
  | SWAP n => ⟨n + 2, n + 2, .VeryLow⟩
  | LOG n => ⟨n + 2, 0, .Special⟩
  | PUSHC => ⟨0, 1, .VeryLow⟩
  | JUMPC => ⟨1, 0, .Mid⟩
  | JUMPCI => ⟨2, 0, .High⟩
  | optional i => i.info
  | CREATE => ⟨3, 1, .Special⟩
  | CREATE2 => ⟨4, 1, .Special⟩
  | CALL | CALLCODE => ⟨7, 1, .Special⟩
  | RETURN => ⟨2, 0, .Zero⟩
  | STATICCALL | DELEGATECALL => ⟨6, 1, .Special⟩
  | REVERT => ⟨2, 0, .Special⟩
  | INVALID => ⟨0, 0, .Zero⟩
  | SELFDESTRUCT => ⟨1, 0, .Special⟩
  | undefined => ⟨0, 0, .Invalid⟩

/-- The bytes of push data that follow the instruction in the code. -/
def immediate : Instruction → ℕ
  | PUSH n => n + 1
  | _ => 0

end Instruction

end Petrachor
