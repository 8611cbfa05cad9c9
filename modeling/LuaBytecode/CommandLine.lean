import LuaBytecode.Chunk.Decode
import LuaBytecode.FileTree
import LuaBytecode.Host.Library
import LuaBytecode.Json.Bridge
import LuaBytecode.Listing
import LuaBytecode.Machine.Step

/-! # The command line

What the program is asked to do, and what it writes in answer. Reading the file is left to the
caller: `Command.report` starts from its content.
-/

namespace LuaBytecode

/-- What to do with a file. -/
inductive Command where
  /-- Run it and print the results. -/
  | run (file : String) (limits : Limits) (json : Bool)
  /-- Print its listing. -/
  | disasm (file : String)
  /-- Print its header and say whether it is valid. -/
  | header (file : String)
  deriving Repr

/-- What the arguments ask for. -/
inductive Invocation where
  | version
  | command (c : Command)
  deriving Repr

namespace Command

/-! ## Arguments -/

/-- What has been read of the arguments of a command. -/
structure Arguments where
  file : Option String := none
  depth : Option Nat := none
  instructions : Option Nat := none
  json : Bool := false

/-- A number of 64 bits, with or without a plus sign. -/
def parseNumber? (s : String) : Option Nat :=
  let digits := match s.toList with
    | '+' :: rest => rest
    | cs => cs
  if digits.isEmpty || !digits.all Json.isDigit then none
  else
    let n := digits.foldl (fun n c => n * 10 + (c.toNat - '0'.toNat)) 0
    if n < UInt64.size then some n else none

/-- Take the file name; there is only one, and it is not empty. -/
def Arguments.setFile? (a : Arguments) (file : String) : Option Arguments :=
  if a.file.isSome || file.isEmpty then none else some { a with file := some file }

/-- Give an option its value; no option is given twice. -/
def Arguments.setOption? (a : Arguments) (name value : String) : Option Arguments := do
  let n ← parseNumber? value
  match name with
  | "--max-depth" => if a.depth.isSome then none else some { a with depth := some n }
  | "--instruction-limit" =>
    if a.instructions.isSome then none else some { a with instructions := some n }
  | _ => none

def Arguments.setJson? (a : Arguments) : Option Arguments :=
  if a.json then none else some { a with json := true }

/-- Split `--name=value`. -/
def splitOption (arg : String) : String × Option String :=
  match arg.splitOn "=" with
  | name :: value :: rest => (name, some ("=".intercalate (value :: rest)))
  | _ => (arg, none)

/-- The arguments after `--`, none of which is an option. -/
def parseFiles? (a : Arguments) : List String → Option Arguments
  | [] => some a
  | file :: rest => do
    let a ← a.setFile? file
    parseFiles? a rest

/-- The arguments of a command; `options` says whether it has any besides the file. -/
def parseArguments? (options : Bool) (a : Arguments) : List String → Option Arguments
  | [] => some a
  | arg :: rest =>
    if arg = "--" then parseFiles? a rest
    else if !arg.startsWith "-" || arg = "-" then do
      let a ← a.setFile? arg
      parseArguments? options a rest
    else if !options then none
    else if arg = "--json" then do
      let a ← a.setJson?
      parseArguments? options a rest
    else
      match splitOption arg, rest with
      | (name, some value), rest => do
        let a ← a.setOption? name value
        parseArguments? options a rest
      | (name, none), value :: rest => do
        let a ← a.setOption? name value
        parseArguments? options a rest
      | (_, none), [] => none

/-- Whether an argument asks for the version; letters after the short form do not matter. -/
def asksVersion (arg : String) : Bool := arg = "--version" || arg.startsWith "-V"

/-- The command of the given name with its arguments. -/
def parseCommand? : List String → Option Command
  | "run" :: args => do
    let a ← parseArguments? true {} args
    let file ← a.file
    let limits : Limits := { instructions := a.instructions }
    return .run file { limits with depth := a.depth.getD limits.depth } a.json
  | "disasm" :: args => do
    let a ← parseArguments? false {} args
    return .disasm (← a.file)
  | "header" :: args => do
    let a ← parseArguments? false {} args
    return .header (← a.file)
  | _ => none

/-- What the arguments ask for; `none` if they are not understood. -/
def parse? (args : List String) : Option Invocation :=
  if args.head?.any asksVersion then some .version else (parseCommand? args).map .command

/-- The path of the file to read. -/
def file : Command → String
  | .run file .. | .disasm file | .header file => file

/-- Whether the standard input is read, for which a dash stands. -/
def readsInput (c : Command) : Bool := Path.isDash c.file

end Command

/-! ## Answers -/

/-- What the program writes and the code it ends with. -/
structure Report where
  stdout : String
  stderr : String := ""
  exit : Nat := 0
  deriving Repr

namespace Report

/-- A failure that has no further cause. -/
def failure (stdout text : String) : Report :=
  { stdout, stderr := s!"Error: {text}\n", exit := 1 }

/-- A failure with its cause. -/
def failureIn (stdout context cause : String) : Report :=
  { stdout, stderr := s!"Error: {context}\n\nCaused by:\n    {cause}\n", exit := 1 }

def version : Report := { stdout := "lunette 0.1.0\n" }

/-- The arguments were not understood. -/
def usage : Report :=
  { stdout := "", stderr := "usage: lunette run|disasm|header FILE\n", exit := 2 }

end Report

def Header.description (h : Header) : String :=
  String.join
    [ "magic            ", Text.hexWide 8 h.magic.toNat,
      "\nversion          ", Text.hexWide 2 h.versionNumber,
      "\nformat           ", toString h.format,
      "\ndata check       ", Text.hexWide 12 h.dataCheck,
      "\ninstruction size ", toString h.instructionSize,
      "\ninteger size     ", toString h.integerSize,
      "\nfloat size       ", toString h.floatSize,
      "\nsanity int       ", Text.hex h.sanityInteger.toUInt64.toNat,
      "\nsanity float     ", FieldValue.layout.text h.sanityFloat, "\n" ]

namespace Command

def reportHeader (file : String) (image : Bytes) : Report :=
  match Header.decode (.start image) with
  | .error fault _ => .failureIn "" s!"reading header of {file}" fault.message
  | .ok found _ =>
    match found.validate with
    | .ok () => { stdout := found.description ++ "header is valid\n" }
    | .error fault => .failure found.description s!"header is invalid: {fault.message}"

def reportListing (file : String) (image : Bytes) : Report :=
  match Chunk.decode image with
  | .error fault => .failureIn "" s!"loading {file}" fault.message
  | .ok chunk => { stdout := chunk.main.listing }

/-- The text of a result; tables are written as JSON if asked for. -/
def resultText (h : Heap) (json : Bool) (v : Value) : Except JsonFault String :=
  match v with
  | .table ref => if json then (h.table ref).toJsonText h else .ok v.text
  | v => .ok v.text

/-- The results one after the other, up to the first that cannot be written. -/
def reportResults (h : Heap) (json : Bool) (stdout : String) : List Value → Report
  | [] => { stdout }
  | v :: rest =>
    match resultText h json v with
    | .ok text => reportResults h json (stdout ++ text ++ "\n") rest
    | .error fault => .failure stdout fault.message

/-- Programs see a table with `print` in it. -/
def baseEnvironment : Table := .ofEntries [(.str "print", .host "print")]

/-- Run a chunk for at most `steps` steps. -/
def reportRun (steps : Nat) (file : String) (limits : Limits) (json : Bool) (image : Bytes) :
    Report :=
  match Chunk.decode image with
  | .error fault => .failureIn "" s!"loading {file}" fault.message
  | .ok chunk =>
    let (env, heap) := Heap.empty.newTable baseEnvironment
    let machine : Machine := { limits, heap }
    let context := s!"running {chunk.main.sourceName}"
    match (machine.callChunk chunk (.table env)).run (Host.printing Value.text) steps with
    | .running _ => .failureIn "" context s!"not finished after {steps} steps"
    | .finished m outcome =>
      let printed := String.join (m.printed.toList.map (· ++ "\n"))
      match outcome with
      | .ok results => reportResults m.heap json printed results
      | .error fault => .failureIn printed context fault.message

/-- The answer to a command, given the content of its file or the reason why it cannot be read. -/
def report (steps : Nat) (c : Command) (content : Except ReadFault Bytes) : Report :=
  match content with
  | .error fault => .failureIn "" s!"reading {c.file}" fault.message
  | .ok image =>
    match c with
    | .run file limits json => reportRun steps file limits json image
    | .disasm file => reportListing file image
    | .header file => reportHeader file image

end Command

end LuaBytecode
