import LuaBytecode.Binary.Bytes

/-! # Files and paths

A file tree holds files and directories by name. A path is walked part by part from the root or
from a working directory. An empty part and a dot stay where they are, two dots go up, and each of
them, like a name, needs a directory to stand in.
-/

namespace LuaBytecode

/-- Why a file cannot be read. -/
inductive ReadFault where
  | missing
  | notADirectory
  | isADirectory
  | nameTooLong
  | permissionDenied
  | other (text : String)
  deriving DecidableEq, Repr

/-- The system's words for the cause, with the number it gives to it. -/
def ReadFault.message : ReadFault → String
  | .missing => "No such file or directory (os error 2)"
  | .permissionDenied => "Permission denied (os error 13)"
  | .notADirectory => "Not a directory (os error 20)"
  | .isADirectory => "Is a directory (os error 21)"
  | .nameTooLong => "File name too long (os error 36)"
  | .other text => text

namespace Path

/-- The parts of a path, which slashes divide. -/
def parts (path : String) : List String := path.splitOn "/"

/-- Whether a part leaves the place as it is. -/
def isStill (part : String) : Bool := part = "" || part = "."

/-- Whether a path is a single dash, apart from parts after it that lead nowhere else. -/
def isDash (path : String) : Bool :=
  match parts path with
  | "-" :: rest => rest.all isStill
  | _ => false

/-- The most bytes that a path may have. -/
def sizeLimit : Nat := 4095

/-- The most bytes that a name in a path may have. -/
def nameLimit : Nat := 255

end Path

inductive FileTree where
  | file (content : Bytes)
  | directory (entries : List (String × FileTree))

namespace FileTree

/-- The tree at a place, which is given by the names that lead to it. -/
def at? (t : FileTree) : List String → Option FileTree
  | [] => some t
  | name :: rest =>
    match t with
    | .file _ => none
    | .directory entries =>
      match entries.lookup name with
      | some inner => inner.at? rest
      | none => none

/-- The place to which the parts of a path lead from a given one. -/
def walk (root : FileTree) (place : List String) : List String → Except ReadFault (List String)
  | [] => .ok place
  | part :: rest =>
    match root.at? place with
    | none => .error .missing
    | some (.file _) => .error .notADirectory
    | some (.directory entries) =>
      if Path.isStill part then root.walk place rest
      else if part = ".." then root.walk place.dropLast rest
      else if Path.nameLimit < part.utf8ByteSize then .error .nameTooLong
      else if (entries.lookup part).isSome then root.walk (place ++ [part]) rest
      else .error .missing

/-- The content of the file that a path names. -/
def read (root : FileTree) (working : List String) (path : String) : Except ReadFault Bytes :=
  if Path.sizeLimit < path.utf8ByteSize then .error .nameTooLong
  else
    match root.walk (if path.startsWith "/" then [] else working) (Path.parts path) with
    | .error fault => .error fault
    | .ok place =>
      match root.at? place with
      | some (.file content) => .ok content
      | some (.directory _) => .error .isADirectory
      | none => .error .missing

end FileTree

end LuaBytecode
