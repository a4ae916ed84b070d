import AvroDocument.Failure
import AvroDocument.Text.Split

/-!
# AvroDocument.Folder

The files below a working directory, as a value.

* `Folder.read`, `Folder.readText`: the contents of a file.
* `Folder.write`: a file with new contents, in a folder that is made when it is not there.
* `Folder.changedSince`: what differs from an earlier state.
-/

namespace AvroDocument

/-- Files with the steps that lead to each of them. A folder is there when a file is below it. -/
structure Folder where
  files : List (List String × List UInt8) := []

namespace Folder

/-- Whether a piece of a name leads anywhere. -/
def isStep (piece : String) : Bool := piece ≠ "" && piece ≠ "."

/-- The steps of a name. One that starts at the root keeps the empty piece in front. -/
def steps (name : String) : List String :=
  let pieces := (Text.split '/' name.toList).map String.ofList
  match pieces with
  | "" :: piece :: rest => "" :: (piece :: rest).filter isStep
  | pieces => pieces.filter isStep

def nameOf (steps : List String) : String := "/".intercalate steps

def endsWithSlash (name : String) : Bool := name.toList.getLast? = some '/'

def lookup (route : List String) : List (List String × List UInt8) → Option (List UInt8)
  | [] => none
  | (key, bytes) :: files => if key = route then some bytes else lookup route files

def assign (route : List String) (bytes : List UInt8) :
    List (List String × List UInt8) → List (List String × List UInt8)
  | [] => [(route, bytes)]
  | (key, old) :: files =>
    if key = route then (key, bytes) :: files else (key, old) :: assign route bytes files

variable (folder : Folder)

def get? (route : List String) : Option (List UInt8) := lookup route folder.files

/-- Whether there is a folder at the end of some steps. -/
def isFolder (route : List String) : Bool :=
  route.isEmpty ||
    folder.files.any fun file => route.isPrefixOf file.1 && route.length < file.1.length

/-- The number of steps after which a file stands in the way. -/
def blockedAt? (route : List String) : Option Nat :=
  (List.range route.length).find? fun n => (folder.get? (route.take n)).isSome

/-- The contents of the file with a name. -/
def read (name : String) : Except Failure (List UInt8) :=
  let route := steps name
  if name = "" then .error (.file name .absent)
  else
    match folder.get? route with
    | some bytes => if endsWithSlash name then .error (.file name .behindFile) else .ok bytes
    | none =>
      if folder.isFolder route then .error (.file name .isFolder)
      else if (folder.blockedAt? route).isSome then .error (.file name .behindFile)
      else .error (.file name .absent)

/-- A text whose lines end in a single character each. -/
def plainLines : List Char → List Char
  | '\r' :: '\n' :: rest => '\n' :: plainLines rest
  | '\r' :: rest => '\n' :: plainLines rest
  | c :: rest => c :: plainLines rest
  | [] => []

/-- The text in the file with a name. -/
def readText (name : String) : Except Failure String :=
  match folder.read name with
  | .error e => .error e
  | .ok bytes =>
    match Text.readUtf8 bytes with
    | .error fault => .error (.notUtf8 fault)
    | .ok text => .ok (String.ofList (plainLines text.toList))

/-- Gives a file its contents. The folders on the way to it are made; when a file is in the way, the
failure names the first folder that cannot be made. -/
def write (name : String) (bytes : List UInt8) : Except Failure Folder :=
  let route := steps name
  if name = "" then .error (.file name .absent)
  else
    match folder.blockedAt? route with
    | some n =>
      let place := if n + 1 = route.length then name else nameOf (route.take (n + 1))
      .error (.file place .behindFile)
    | none =>
      if endsWithSlash name || folder.isFolder route then .error (.file name .isFolder)
      else .ok ⟨assign route bytes folder.files⟩

/-- The files that are new or have other contents than before. -/
def changedSince (earlier : Folder) : List (List String × List UInt8) :=
  folder.files.filter fun file => earlier.get? file.1 ≠ some file.2

end Folder
end AvroDocument
