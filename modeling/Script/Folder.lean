import Script.Text.Utf8

/-! # Files

The files below the folder in which the program runs, and how a path leads to one. -/

namespace Script

/-- Why a file cannot be read. -/
inductive FileError where
  | missing
  | folder
  | notFolder
  | undecodable
deriving DecidableEq, Repr

def FileError.message : FileError → String
  | missing => "No such file or directory (os error 2)"
  | folder => "Is a directory (os error 21)"
  | notFolder => "Not a directory (os error 20)"
  | undecodable => Text.undecodable

/-- Files by their paths, each path split into names. -/
structure Folder where
  files : List (List String × List UInt8) := []

namespace Folder

/-- The files at given paths. -/
def ofFiles (files : List (String × List UInt8)) : Folder :=
  ⟨files.map fun (path, bytes) => (path.splitOn "/", bytes)⟩

/-- What stands at a place: a file with its content, or a folder. -/
inductive Entry where
  | file (bytes : List UInt8)
  | folder

/-- Looks up a place below the folder. -/
def entry? (f : Folder) (place : List String) : Option Entry :=
  match f.files.lookup place with
  | some bytes => some (.file bytes)
  | none => if f.files.any (place.isPrefixOf ·.1) || place.isEmpty then some .folder else none

/-- Follows names from a place. There is no place outside the folder that a name leads to. -/
def follow (f : Folder) : Option (List String) → List String → Except FileError Entry
  | none, [] => .ok .folder
  | none, name :: names =>
    if name == "" || name == "." || name == ".." then f.follow none names else .error .missing
  | some place, names =>
    match f.entry? place, names with
    | none, _ => .error .missing
    | some entry, [] => .ok entry
    | some (.file _), _ :: _ => .error .notFolder
    | some .folder, name :: names =>
      if name == "" || name == "." then f.follow (some place) names
      else if name == ".." then
        f.follow (if place.isEmpty then none else some place.dropLast) names
      else f.follow (some (place ++ [name])) names

/-- Reads the file that a path leads to. -/
def read (f : Folder) (path : String) : Except FileError String := do
  let start := if path.toList.head? == some '/' then none else some []
  match ← f.follow start (path.splitOn "/") with
  | .folder => .error .folder
  | .file bytes =>
    match Text.decode? bytes with
    | some text => .ok text
    | none => .error .undecodable

end Folder

end Script
