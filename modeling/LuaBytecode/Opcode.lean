/-! # Operation codes

The 83 operations in the order of their numbers, each with its mnemonic and the layout of its
operands.
-/

namespace LuaBytecode

/-- The operations of the machine, numbered from 0 in this order. -/
inductive Opcode where
  | move
  | loadI
  | loadF
  | loadK
  | loadKX
  | loadFalse
  | loadFalseSkip
  | loadTrue
  | loadNil
  | getUpvalue
  | setUpvalue
  | getTabUp
  | getTable
  | getI
  | getField
  | setTabUp
  | setTable
  | setI
  | setField
  | newTable
  | self
  | addI
  | addK
  | subK
  | mulK
  | modK
  | powK
  | divK
  | idivK
  | bandK
  | borK
  | bxorK
  | shrI
  | shlI
  | add
  | sub
  | mul
  | mod
  | pow
  | div
  | idiv
  | band
  | bor
  | bxor
  | shl
  | shr
  | mmBin
  | mmBinI
  | mmBinK
  | unm
  | bnot
  | not
  | len
  | concat
  | close
  | tbc
  | jmp
  | eq
  | lt
  | le
  | eqK
  | eqI
  | ltI
  | leI
  | gtI
  | geI
  | test
  | testSet
  | call
  | tailCall
  | ret
  | ret0
  | ret1
  | forLoop
  | forPrep
  | tforPrep
  | tforCall
  | tforLoop
  | setList
  | closure
  | vararg
  | varargPrep
  | extraArg
  deriving DecidableEq, Repr, Inhabited

/-- How the bits above the operation number are divided into operands. -/
inductive OperandLayout where
  | abc
  | abx
  | asbx
  | ax
  | sj
  deriving DecidableEq, Repr

namespace OperandLayout

def name : OperandLayout → String
  | .abc => "iABC"
  | .abx => "iABx"
  | .asbx => "iAsBx"
  | .ax => "iAx"
  | .sj => "isJ"

end OperandLayout

namespace Opcode

/-- All operations in the order of their numbers. -/
def all : List Opcode :=
  [.move, .loadI, .loadF, .loadK, .loadKX, .loadFalse, .loadFalseSkip, .loadTrue, .loadNil,
   .getUpvalue, .setUpvalue, .getTabUp, .getTable, .getI, .getField, .setTabUp, .setTable, .setI,
   .setField, .newTable, .self, .addI, .addK, .subK, .mulK, .modK, .powK, .divK, .idivK, .bandK,
   .borK, .bxorK, .shrI, .shlI, .add, .sub, .mul, .mod, .pow, .div, .idiv, .band, .bor, .bxor, .shl,
   .shr, .mmBin, .mmBinI, .mmBinK, .unm, .bnot, .not, .len, .concat, .close, .tbc, .jmp, .eq, .lt,
   .le, .eqK, .eqI, .ltI, .leI, .gtI, .geI, .test, .testSet, .call, .tailCall, .ret, .ret0, .ret1,
   .forLoop, .forPrep, .tforPrep, .tforCall, .tforLoop, .setList, .closure, .vararg, .varargPrep,
   .extraArg]

def number (op : Opcode) : Nat := op.ctorIdx

/-- The operation with a given number. -/
def ofNumber? (n : Nat) : Option Opcode := all[n]?

def mnemonic : Opcode → String
  | .move => "MOVE"
  | .loadI => "LOADI"
  | .loadF => "LOADF"
  | .loadK => "LOADK"
  | .loadKX => "LOADKX"
  | .loadFalse => "LOADFALSE"
  | .loadFalseSkip => "LFALSESKIP"
  | .loadTrue => "LOADTRUE"
  | .loadNil => "LOADNIL"
  | .getUpvalue => "GETUPVAL"
  | .setUpvalue => "SETUPVAL"
  | .getTabUp => "GETTABUP"
  | .getTable => "GETTABLE"
  | .getI => "GETI"
  | .getField => "GETFIELD"
  | .setTabUp => "SETTABUP"
  | .setTable => "SETTABLE"
  | .setI => "SETI"
  | .setField => "SETFIELD"
  | .newTable => "NEWTABLE"
  | .self => "SELF"
  | .addI => "ADDI"
  | .addK => "ADDK"
  | .subK => "SUBK"
  | .mulK => "MULK"
  | .modK => "MODK"
  | .powK => "POWK"
  | .divK => "DIVK"
  | .idivK => "IDIVK"
  | .bandK => "BANDK"
  | .borK => "BORK"
  | .bxorK => "BXORK"
  | .shrI => "SHRI"
  | .shlI => "SHLI"
  | .add => "ADD"
  | .sub => "SUB"
  | .mul => "MUL"
  | .mod => "MOD"
  | .pow => "POW"
  | .div => "DIV"
  | .idiv => "IDIV"
  | .band => "BAND"
  | .bor => "BOR"
  | .bxor => "BXOR"
  | .shl => "SHL"
  | .shr => "SHR"
  | .mmBin => "MMBIN"
  | .mmBinI => "MMBINI"
  | .mmBinK => "MMBINK"
  | .unm => "UNM"
  | .bnot => "BNOT"
  | .not => "NOT"
  | .len => "LEN"
  | .concat => "CONCAT"
  | .close => "CLOSE"
  | .tbc => "TBC"
  | .jmp => "JMP"
  | .eq => "EQ"
  | .lt => "LT"
  | .le => "LE"
  | .eqK => "EQK"
  | .eqI => "EQI"
  | .ltI => "LTI"
  | .leI => "LEI"
  | .gtI => "GTI"
  | .geI => "GEI"
  | .test => "TEST"
  | .testSet => "TESTSET"
  | .call => "CALL"
  | .tailCall => "TAILCALL"
  | .ret => "RETURN"
  | .ret0 => "RETURN0"
  | .ret1 => "RETURN1"
  | .forLoop => "FORLOOP"
  | .forPrep => "FORPREP"
  | .tforPrep => "TFORPREP"
  | .tforCall => "TFORCALL"
  | .tforLoop => "TFORLOOP"
  | .setList => "SETLIST"
  | .closure => "CLOSURE"
  | .vararg => "VARARG"
  | .varargPrep => "VARARGPREP"
  | .extraArg => "EXTRAARG"

def layout : Opcode → OperandLayout
  | .extraArg => .ax
  | .jmp => .sj
  | .loadI | .loadF => .asbx
  | .loadK | .loadKX | .forLoop | .forPrep | .tforPrep | .tforLoop | .closure => .abx
  | _ => .abc

/-- Whether the operation may skip the instruction after it. -/
def isTest : Opcode → Bool
  | .eq | .lt | .le | .eqK | .eqI | .ltI | .leI | .gtI | .geI | .test | .testSet => true
  | _ => false

end Opcode

end LuaBytecode
