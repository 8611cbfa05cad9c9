import LuaBytecode.Binary.Fault
import LuaBytecode.Table

/-! # Why a run stops

A fault ends the whole run: nothing inside a program can catch one.
-/

namespace LuaBytecode

/-- What was being done with a value of the wrong type, or with a nil key. -/
inductive Action where
  | index
  | indexUpvalue
  | indexUpvalueWith
  | assign
  | assignUpvalue
  | assignUpvalueWith
  | setList
  | setListOn
  | self
  | call
  deriving DecidableEq, Repr

def Action.text : Action → String
  | .index => "index"
  | .indexUpvalue => "index upvalue"
  | .indexUpvalueWith => "index upvalue with"
  | .assign => "assign to"
  | .assignUpvalue => "assign to upvalue"
  | .assignUpvalueWith => "assign to upvalue with"
  | .setList => "set list"
  | .setListOn => "set list on"
  | .self => "self"
  | .call => "call"

/-- What an index in an instruction can count. -/
inductive Indexed where
  | register
  | upvalue
  | constant
  | prototype
  | extraArgument
  | jumpTarget
  deriving DecidableEq, Repr

def Indexed.text : Indexed → String
  | .register => "register"
  | .upvalue => "upvalue"
  | .constant => "constant"
  | .prototype => "prototype"
  | .extraArgument => "extra argument"
  | .jumpTarget => "jump target"

/-- What the machine does not support. -/
inductive Feature where
  | genericFor
  | vararg
  deriving DecidableEq, Repr

def Feature.text : Feature → String
  | .genericFor => "generic for loop"
  | .vararg => "vararg"

inductive Fault where
  | typeMismatch (action : Action) (expected found : Kind)
  | nilKey (action : Action)
  | divideByZero
  | outOfRange (what : Indexed) (index : Int) (length : Nat)
  | invalidOpcode (number : Nat)
  | stackOverflow
  | budgetExceeded (limit : Nat)
  /-- A host function failed. -/
  | host (message : String)
  /-- The host failed outside of any function. -/
  | runtime (message : String)
  | unimplemented (feature : Feature)
  /-- The program could not be loaded. -/
  | load (fault : DecodeFault)
  deriving DecidableEq, Repr

namespace Fault

def message : Fault → String
  | .typeMismatch action expected found =>
    s!"attempt to {action.text} a {found.name} value (expected {expected.name})"
  | .nilKey action => s!"{action.text}: {Table.nilKeyText}"
  | .divideByZero => "attempt to perform integer division by zero"
  | .outOfRange what index length => s!"{what.text} index {index} out of range (length {length})"
  | .invalidOpcode number => s!"invalid opcode {number}"
  | .stackOverflow => "stack overflow"
  | .budgetExceeded limit => s!"instruction limit of {limit} exceeded"
  | .host message => message
  | .runtime message => message
  | .unimplemented feature => s!"{feature.text} is not implemented"
  | .load fault => fault.message

/-- Whether the program asks for something that the machine does not support. -/
def isUnimplemented : Fault → Bool
  | .unimplemented _ => true
  | _ => false

/-- Whether the program itself is malformed. -/
def isFormatFault : Fault → Bool
  | .load _ => true
  | _ => false

end Fault

end LuaBytecode
