import LuaBytecode.CommandLine

/-! # The program -/

namespace LuaBytecode

/-- The number of a cause, which some calls of the system give negated. -/
def causeNumber (code : UInt32) : Nat := min code.toNat (-code).toNat

/-- The cause behind an error of the system. -/
def ReadFault.ofError (e : IO.Error) : ReadFault :=
  match e with
  | .noFileOrDirectory .. => .missing
  | .permissionDenied .. => .permissionDenied
  | .inappropriateType _ code _ =>
    match causeNumber code with
    | 20 => .notADirectory
    | 21 => .isADirectory
    | _ => .other (toString e)
  | .invalidArgument _ code _ =>
    if causeNumber code = 36 then .nameTooLong else .other (toString e)
  | _ => .other (toString e)

/-- The content of the file of a command, or the reason why it cannot be read. -/
def Command.readContent (c : Command) : IO (Except ReadFault Bytes) := do
  try
    let bytes ←
      if c.readsInput then (← IO.getStdin).readBinToEnd
      else IO.FS.readBinFile c.file
    return .ok bytes.data.toList
  catch e => return .error (.ofError e)

/-- Write a report, and give the code to end with. -/
def Report.write (r : Report) : IO UInt32 := do
  IO.print r.stdout
  IO.eprint r.stderr
  return UInt32.ofNat r.exit

end LuaBytecode

open LuaBytecode

def main (args : List String) : IO UInt32 := do
  match Command.parse? args with
  | none => Report.usage.write
  | some .version => Report.version.write
  | some (.command c) => (c.report (1 <<< 62) (← c.readContent)).write
