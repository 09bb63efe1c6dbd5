/-! # Files

The files of a working directory, by name, in the midst of a file system that holds the usual
directories and one device: the one that reads as empty and takes what is written to it.
-/

namespace RealScript

abbrev Files := List (String × String)

inductive FileError where
  | missing
  | notDirectory
  | isDirectory
  | nameTooLong
  | invalidName
  deriving DecidableEq, Repr

namespace FileError

def reason : FileError → String
  | .missing => "no such file or directory"
  | .notDirectory => "not a directory"
  | .isDirectory => "is a directory"
  | .nameTooLong => "file name too long"
  | .invalidName => "invalid argument"

def openMessage (e : FileError) (path : String) : String := "open " ++ path ++ ": " ++ e.reason

def readMessage (e : FileError) (path : String) : String :=
  match e with
  | .isDirectory => "read " ++ path ++ ": " ++ e.reason
  | e => e.openMessage path

end FileError

namespace Files

abbrev Place := List String

inductive Entry where
  | file (text : String)
  | directory
  | device
  deriving DecidableEq, Repr

def workingDirectory : Place := ["tmp", "work"]

def systemDirectories : List String :=
  ["bin", "boot", "dev", "etc", "home", "lib", "media", "mnt", "opt", "proc", "root", "run", "sbin",
    "srv", "sys", "tmp", "usr", "var"]

def maxName : Nat := 255

def maxPath : Nat := 4096

def names (path : String) : List String :=
  (path.splitOn "/").filter (· != "") ++ if path.endsWith "/" then ["."] else []

def start (path : String) : Place := if path.startsWith "/" then [] else workingDirectory

def step (p : Place) (name : String) : Place :=
  if name = "." then p else if name = ".." then p.dropLast else p ++ [name]

def place (name : String) : Place := (names name).foldl step (start name)

private def isUnder (dir file : Place) : Bool :=
  dir.length < file.length && dir.isPrefixOf file

def entry? (files : Files) (p : Place) : Option Entry :=
  match files.find? fun (name, _) => place name == p with
  | some (_, text) => some (.file text)
  | none =>
    if p.isPrefixOf workingDirectory || files.any fun (name, _) => isUnder p (place name) then
      some .directory
    else match p with
      | [name] => if systemDirectories.contains name then some .directory else none
      | ["dev", "null"] => some .device
      | _ => none

def follow (files : Files) (p : Place) : List String → Except FileError Place
  | [] => .ok p
  | name :: rest =>
    if files.entry? p != some .directory then .error .notDirectory
    else if maxName < name.utf8ByteSize then .error .nameTooLong
    else
      let next := step p name
      if (files.entry? next).isNone then .error .missing else follow files next rest

def checkPath (path : String) : Except FileError Unit := do
  if path.toList.contains (Char.ofNat 0) then throw .invalidName
  if path = "" then throw .missing
  if maxPath ≤ path.utf8ByteSize then throw .nameTooLong

def read (files : Files) (path : String) : Except FileError String := do
  checkPath path
  let p ← files.follow (start path) (names path)
  match files.entry? p with
  | some (.file text) => return text
  | some .device => return ""
  | some .directory => throw .isDirectory
  | none => throw .missing

def write (files : Files) (path text : String) : Except FileError Files := do
  checkPath path
  let along := (path.splitOn "/").filter (· != "")
  let dir ← files.follow (start path) along.dropLast
  let last := along.getLastD "."
  let p := step dir last
  if files.entry? dir != some .directory then throw .notDirectory
  if last = "." || last = ".." || path.endsWith "/" then throw .isDirectory
  if maxName < last.utf8ByteSize then throw .nameTooLong
  match files.entry? p with
  | some .directory => throw .isDirectory
  | some .device => return files
  | _ => return (files.filter fun (name, _) => place name != p) ++ [(path, text)]

end Files

end RealScript
