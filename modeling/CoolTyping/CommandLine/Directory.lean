import CoolTyping.CommandLine.Path

/-!
# Reading files

Why a file cannot be read, and a working directory held in memory, from which files are read as from
one on disk.
-/

namespace CoolTyping

inductive ReadFailure where
  | notFound
  | notDirectory
  | isDirectory
  | nameTooLong
  | notText
  | other (message : String)
deriving DecidableEq

def ReadFailure.message : ReadFailure → String
  | notFound => "No such file or directory (os error 2)"
  | notDirectory => "Not a directory (os error 20)"
  | isDirectory => "Is a directory (os error 21)"
  | nameTooLong => "File name too long (os error 36)"
  | notText => "stream did not contain valid UTF-8"
  | other message => message

/-- The text in the bytes of a file. -/
def decodeText (bytes : ByteArray) : Except ReadFailure String :=
  match String.fromUTF8? bytes with
  | some text => .ok text
  | none => .error .notText

inductive DirectoryEntry where
  | file (content : ByteArray)
  | directory

/-- Files and directories by their paths, as seen from a working directory. -/
structure Directory where
  entries : List (String × DirectoryEntry)

namespace Directory

/-- What stands at a place. The places on the way to an entry are directories. -/
def find? (d : Directory) (place : List String) : Option DirectoryEntry :=
  match d.entries.find? fun (name, _) => Path.parts name == place with
  | some (_, e) => some e
  | none =>
    if place.isEmpty || d.entries.any fun (name, _) => place.isPrefixOf (Path.parts name) then
      some .directory
    else
      none

/-- Why there is no file at a path outside the working directory. The directories above that one
exist, and nothing else there is known. -/
def outside : List String → ReadFailure
  | [] => .isDirectory
  | part :: parts =>
    if part == ".." then outside parts
    else if Path.isPartTooLong part then .nameTooLong
    else .notFound

/-- Follows the parts of a path from a place. The first part that stands in the way decides why a
path leads nowhere. -/
def follow (d : Directory) : List String → List String → Except ReadFailure DirectoryEntry
  | place, [] =>
    match d.find? place with
    | some e => .ok e
    | none => .error .notFound
  | place, part :: parts =>
    match d.find? place with
    | none => .error .notFound
    | some (.file _) => .error .notDirectory
    | some .directory =>
      if part == ".." then
        if place.isEmpty then .error (outside parts) else d.follow place.dropLast parts
      else if Path.isPartTooLong part then
        .error .nameTooLong
      else
        d.follow (place ++ [part]) parts

/-- A path that ends in a separator asks for a directory. -/
def asksForDirectory (path : String) : Bool :=
  match (path.splitOn "/").reverse with
  | last :: _ :: _ => last == "" || last == "."
  | _ => false

/-- The text of the file at a path. The length of the whole path is looked at first. -/
def read (d : Directory) (path : String) : Except ReadFailure String :=
  if Path.isTooLong path then .error .nameTooLong
  else if path.toList.head? == some '/' then .error (outside (Path.parts path))
  else
    match d.follow [] (Path.parts path) with
    | .error e => .error e
    | .ok .directory => .error .isDirectory
    | .ok (.file content) =>
      if asksForDirectory path then .error .notDirectory else decodeText content

end Directory

end CoolTyping
