/-!
# Files

The command line reads and writes files through the class `FileAccess`, so that it runs on real
files and on a `FileTree`, a value that holds files by their place.

A `FileTree` knows the working directory, the directories above it and the root, and the files in
each of them. A path is walked part by part: one dot stays, two dots go up, and a name leads to an
entry. Only the last part can be a name: an entry is a file, and a file is no directory. Where a
walk ends, or why it ends early, is `FileTree.locate`; reading, writing and the look whether a path
leads to anything differ only in what they make of it.
-/

namespace DeflateHeader.Cli

/-- Why a file could not be used. -/
inductive FileError
  | notFound
  | notDirectory
  | isDirectory
  | nameTooLong
  | other (text : String)
  deriving DecidableEq, Repr

namespace FileError

/-- The wording of an error, as the operating system has it. -/
def message : FileError → String
  | notFound => "No such file or directory (os error 2)"
  | notDirectory => "Not a directory (os error 20)"
  | isDirectory => "Is a directory (os error 21)"
  | nameTooLong => "File name too long (os error 36)"
  | other text => text

end FileError

/-- Why a file was not written. -/
inductive WriteError
  /-- It could not be created or emptied. -/
  | opening (error : FileError)
  /-- Its content could not be stored. -/
  | storing (error : FileError)
  deriving DecidableEq, Repr

/-- What the command line does with files. -/
class FileAccess (m : Type → Type) where
  /-- The content of a file. -/
  readFile : String → m (Except FileError (List UInt8))
  /-- Whether a path leads to anything. -/
  isPresent : String → m Bool
  /-- Creates or empties a file and stores its content. -/
  writeFile : String → List UInt8 → m (Except WriteError Unit)

/-- The parts of a path between slashes. -/
def pathParts : List Char → List (List Char)
  | [] => [[]]
  | c :: cs =>
    if c = '/' then [] :: pathParts cs
    else match pathParts cs with
      | [] => [[c]]
      | part :: parts => (c :: part) :: parts

/-- A directory that a walk can stand in. -/
inductive Folder
  /-- The directory so many levels above the working directory. -/
  | above (levels : Nat)
  | root
  deriving DecidableEq, Repr

namespace Folder

/-- The directory in which a relative path starts. -/
def working : Folder := above 0

/-- The directory one level up; above the root there is the root. -/
def parent : Folder → Folder
  | above levels => above (levels + 1)
  | root => root

end Folder

/-- Where a file is. -/
structure Location where
  folder : Folder
  name : String
  deriving DecidableEq, Repr

/-- Where a path leads. -/
inductive Place
  /-- To a directory. -/
  | directory
  /-- To an entry of a directory, which need not be there; `slash` says that a slash follows its
  name. -/
  | entry (location : Location) (slash : Bool)
  deriving DecidableEq, Repr

/-- The longest name of an entry, in bytes. -/
def maxNameSize : Nat := 255

/-- The longest path, in bytes. -/
def maxPathSize : Nat := 4095

/-- Whether a name is too long for an entry. -/
def isLongName (name : String) : Bool := decide (maxNameSize < name.utf8ByteSize)

/-- Files by location. A location stands once. -/
structure FileTree where
  files : List (Location × List UInt8)
  deriving DecidableEq, Repr

namespace FileTree

/-- A working directory with the given files, and nothing above it. -/
def ofWorking (files : List (String × List UInt8)) : FileTree :=
  ⟨files.map fun (name, content) => (⟨.working, name⟩, content)⟩

/-- The files in the working directory. -/
def working (t : FileTree) : List (String × List UInt8) :=
  t.files.filterMap fun (location, content) =>
    if location.folder = .working then some (location.name, content) else none

/-- The content of the file at a location. -/
def find? (t : FileTree) (location : Location) : Option (List UInt8) := t.files.lookup location

/-- Sets the content of a file, which is added if there is none at the location. -/
def store (t : FileTree) (location : Location) (content : List UInt8) : FileTree :=
  if (t.find? location).isSome then
    ⟨t.files.map fun file => if file.1 = location then (location, content) else file⟩
  else ⟨t.files ++ [(location, content)]⟩

/-- What a look for an entry ends with if there is no such file. -/
def missing (name : String) : FileError := if isLongName name then .nameTooLong else .notFound

/-- Walks along the parts of a path from a directory on, where empty parts are gone and `slash` says
that the path ends with a slash. -/
def walk (t : FileTree) (slash : Bool) (folder : Folder) :
    List (List Char) → Except FileError Place
  | [] => .ok .directory
  | part :: parts =>
    if part = ['.'] then t.walk slash folder parts
    else if part = ['.', '.'] then t.walk slash folder.parent parts
    else
      let location : Location := ⟨folder, String.ofList part⟩
      if parts.isEmpty then .ok (.entry location slash)
      else if (t.find? location).isSome then .error .notDirectory
      else .error (missing location.name)

/-- The place that a path leads to. The empty path leads nowhere. -/
def locate (t : FileTree) (path : String) : Except FileError Place :=
  let chars := path.toList
  let start := if chars.head? = some '/' then Folder.root else Folder.working
  if maxPathSize < path.utf8ByteSize then .error .nameTooLong
  else if chars.isEmpty then .error .notFound
  else
    t.walk (chars.getLast? == some '/') start
      ((pathParts chars).filter fun part => !part.isEmpty)

/-- The content of the file that a path leads to. -/
def read (t : FileTree) (path : String) : Except FileError (List UInt8) :=
  match t.locate path with
  | .error e => .error e
  | .ok .directory => .error .isDirectory
  | .ok (.entry location slash) =>
    match t.find? location with
    | none => .error (missing location.name)
    | some content => if slash then .error .notDirectory else .ok content

/-- Whether a path leads to anything. -/
def isPresent (t : FileTree) (path : String) : Bool :=
  match t.locate path with
  | .error _ => false
  | .ok .directory => true
  | .ok (.entry location slash) => (t.find? location).isSome && !slash

/-- The location of the file that writing to a path would create or change. A slash after the name
asks for a directory, whatever the name. -/
def writable (t : FileTree) (path : String) : Except FileError Location :=
  match t.locate path with
  | .error e => .error e
  | .ok .directory => .error .isDirectory
  | .ok (.entry location slash) =>
    if slash then .error .isDirectory
    else if isLongName location.name then .error .nameTooLong
    else .ok location

/-- File access to a tree value. -/
instance : FileAccess (StateM FileTree) where
  readFile path := fun t => (t.read path, t)
  isPresent path := fun t => (t.isPresent path, t)
  writeFile path content := fun t =>
    match t.writable path with
    | .error e => (.error (.opening e), t)
    | .ok location => (.ok (), t.store location content)

end FileTree
end DeflateHeader.Cli
