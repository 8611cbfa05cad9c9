import LuaBytecode.Host.Basic

/-! # A library of host functions

Functions that a host can offer to programs. They are written against a way to show values as text,
so that the host decides how tables and functions appear.
-/

namespace LuaBytecode.Host

/-- An argument; one that is missing is nil. -/
def argument (args : List Value) (index : Nat) : Value := args[index]?.getD .nil

/-- Print the arguments on one line, with tabs between them. -/
def print (display : Value → String) (args : List Value) (tables : Array Table) : HostReply :=
  { outcome := .ok [], tables, printed := ["\t".intercalate (args.map display)] }

/-- Set a field of a table, and return the table. -/
def rawset (args : List Value) (tables : Array Table) : HostReply :=
  match argument args 0 with
  | .table ref =>
    match (tables.getD ref .empty).set? (argument args 1) (argument args 2) with
    | some t => { outcome := .ok [.table ref], tables := tables.setIfInBounds ref t }
    | none => { outcome := .error Table.nilKeyText, tables }
  | _ => { outcome := .error "rawset: not a table", tables }

/-- Only `print`. -/
def printing (display : Value → String) : Host := fun name args tables =>
  match name with
  | "print" => print display args tables
  | _ => { outcome := .ok [], tables }

/-- The whole library; any other function does nothing. -/
def library (display : Value → String) : Host := fun name args tables =>
  match name with
  | "print" => print display args tables
  | "echo" => { outcome := .ok args, tables }
  | "count" => { outcome := .ok [.int (Int64.ofNat args.length)], tables }
  | "type" => { outcome := .ok [.str (argument args 0).kind.name], tables }
  | "tostring" => { outcome := .ok [.str (display (argument args 0))], tables }
  | "fail" => { outcome := .error (display (argument args 0)), tables }
  | "rawset" => rawset args tables
  | _ => { outcome := .ok [], tables }

end LuaBytecode.Host
