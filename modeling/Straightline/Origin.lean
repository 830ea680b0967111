/-!
# What a path leads to

A path leads to a file, to a directory, or nowhere, for one of three reasons. `Directory.origin`
follows a path through a working directory whose files are known, part by part: the first part that
cannot be followed tells the reason. Outside the working directory only directories are known, by
the parts `..` and the leading slash.
-/

set_option autoImplicit false

namespace Straightline

/-- Why a path cannot be opened. -/
inductive OpenFailure where
  | missing
  | nameTooLong
  | notDirectory
deriving DecidableEq, Repr

/-- The wording of the reason. -/
def OpenFailure.text : OpenFailure → String
  | missing => "no such file or directory"
  | nameTooLong => "file name too long"
  | notDirectory => "not a directory"

/-- What a path leads to. -/
inductive Origin where
  | unopened (why : OpenFailure)
  | directory
  | file (content : List UInt8)
deriving DecidableEq, Repr

/-- A working directory: its files by their path from there, with single slashes between parts. -/
structure Directory where
  files : List (String × List UInt8)
deriving DecidableEq, Repr

namespace Directory

/-- Where a path has led so far. -/
inductive Place where
  /-- A directory below the working directory, by the parts of its path. -/
  | inside (parts : List String)
  /-- A directory above the working directory. -/
  | outside
  | file (content : List UInt8)
deriving DecidableEq, Repr

/-- The most bytes that one part of a path may have. -/
def maxName : Nat := 255

/-- The most bytes that a path may have. -/
def maxPath : Nat := 4095

/-- What stands under a path from the working directory, if anything. -/
def find? (d : Directory) (parts : List String) : Option Place :=
  let path := String.intercalate "/" parts
  match d.files.lookup path with
  | some content => some (.file content)
  | none =>
    if d.files.any fun (name, _) => name.startsWith (path ++ "/") then some (.inside parts)
    else none

/-- Follows one part of a path. An empty part, as between two slashes, stays in the directory. -/
def follow (d : Directory) (place : Place) (part : String) : Except OpenFailure Place :=
  match place with
  | .file _ => .error .notDirectory
  | .inside parts =>
    if part = "" ∨ part = "." then .ok place
    else if part = ".." then .ok (if parts.isEmpty then .outside else .inside parts.dropLast)
    else if maxName < part.utf8ByteSize then .error .nameTooLong
    else
      match d.find? (parts ++ [part]) with
      | some next => .ok next
      | none => .error .missing
  | .outside =>
    if part = "" ∨ part = "." ∨ part = ".." then .ok place
    else if maxName < part.utf8ByteSize then .error .nameTooLong
    else .error .missing

/-- What a path leads to. -/
def origin (d : Directory) (path : String) : Origin :=
  if path = "" then .unopened .missing
  else if maxPath < path.utf8ByteSize then .unopened .nameTooLong
  else
    let start : Place := if path.startsWith "/" then .outside else .inside []
    match (path.splitOn "/").foldlM d.follow start with
    | .error why => .unopened why
    | .ok (.file content) => .file content
    | .ok _ => .directory

end Directory

end Straightline
