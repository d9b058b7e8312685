import LineBasic.Text.Blank

/-!
Files and directories as far as a command can see them, and how paths lead through them.
-/

namespace LineBasic.Command

inductive FileFault where
  | notFound
  | isDirectory
  | notDirectory
  | notText
  | other (message : String)
deriving DecidableEq

def FileFault.message : FileFault → String
  | notFound => "No such file or directory (os error 2)"
  | isDirectory => "Is a directory (os error 21)"
  | notDirectory => "Not a directory (os error 20)"
  | notText => "stream did not contain valid UTF-8"
  | other message => message

/-- The names from the root down to a file or a directory. -/
abbrev Names := List String

/-- The names between the slashes of a path. -/
def namesOf (path : String) : Names :=
  (Text.pieces (· == '/') path.toList).map String.ofList

/-- What is on a disk, and the directory that relative paths start from. The root and the directories
above the working one are always there. -/
structure Disk where
  working : Names := []
  directories : List Names := []
  files : List (Names × ByteArray) := []

namespace Disk

def isDirectory (disk : Disk) (names : Names) : Bool :=
  names.isPrefixOf disk.working || disk.directories.contains names

theorem isDirectory_root (disk : Disk) : disk.isDirectory [] := by
  simp [isDirectory]

def file? (disk : Disk) (names : Names) : Option ByteArray :=
  disk.files.lookup names

/-- One step along a path, from a directory to a directory. Nothing is above the root. -/
def enter (disk : Disk) (directory : Names) : String → Except FileFault Names
  | "" | "." => .ok directory
  | ".." => .ok directory.dropLast
  | name =>
    let names := directory ++ [name]
    if disk.isDirectory names then .ok names
    else if (disk.file? names).isSome then .error .notDirectory
    else .error .notFound

/-- The directory before the last name of a path, and that name. A path to a directory itself has no
last name. -/
def walk (disk : Disk) (path : String) : Except FileFault (Names × Option String) := do
  let start := if path.toList.head? = some '/' then [] else disk.working
  let names := namesOf path
  let last := names.getLast?.getD ""
  if path = "" then
    throw .notFound
  else if last = "" ∨ last = "." ∨ last = ".." then
    return (← names.foldlM disk.enter start, none)
  else
    return (← names.dropLast.foldlM disk.enter start, some last)

def read (disk : Disk) (path : String) : Except FileFault ByteArray := do
  match ← disk.walk path with
  | (_, none) => throw .isDirectory
  | (directory, some name) =>
    let names := directory ++ [name]
    match disk.file? names with
    | some bytes => return bytes
    | none => throw (if disk.isDirectory names then .isDirectory else .notFound)

/-- Replaces a file or makes a new one. A path that ends with a slash names no file to be made. -/
def write (disk : Disk) (path : String) (bytes : ByteArray) : Except FileFault Disk := do
  let names := namesOf path
  let unslashed := "/".intercalate ((names.reverse.dropWhile (· == "")).reverse)
  if names.getLast? = some "" ∧ unslashed ≠ "" then
    let _ ← disk.walk unslashed
    throw .isDirectory
  match ← disk.walk path with
  | (_, none) => throw .isDirectory
  | (directory, some name) =>
    let names := directory ++ [name]
    if disk.isDirectory names then
      throw .isDirectory
    return { disk with files := (names, bytes) :: disk.files.filter (·.1 != names) }

/-- The names that remain once each `..` has led back up. -/
def normalize (names : Names) : Names :=
  names.foldl (fun above name => if name = ".." then above.dropLast else above ++ [name]) []

/-- Makes the directories on the way to a file or directory. -/
def addParents (disk : Disk) (names : Names) : Disk :=
  let parents := (List.range names.length).map fun n => normalize (names.take n)
  { disk with directories := disk.directories ++ parents.filter (· ≠ []) }

def addDirectory (disk : Disk) (names : Names) : Disk :=
  let disk := disk.addParents names
  { disk with directories := disk.directories ++ [normalize names] }

def addFile (disk : Disk) (names : Names) (bytes : ByteArray) : Disk :=
  let disk := disk.addParents names
  { disk with files := disk.files ++ [(normalize names, bytes)] }

/-- The files that were not there before, or not with these bytes. -/
def changes (before after : Disk) : List (Names × ByteArray) :=
  after.files.filter fun (names, bytes) =>
    (before.file? names).all fun old => old.data != bytes.data

/-- The names of a file below the working directory, from there on. -/
def below? (disk : Disk) (names : Names) : Option Names :=
  disk.working.isPrefixOf? names

end Disk

end LineBasic.Command
