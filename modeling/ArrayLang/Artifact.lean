import ArrayLang.NameMap

/-!
# Artifacts

Intermediate code is written to files that share a directory and a base name and differ in their
extensions. This module computes the paths of those files, and holds the directories and files that
there are.
-/

namespace ArrayLang

/-! ## Paths -/

namespace FilePath

/-- The characters of a path, last first, without the slashes and the `.` components at its end. -/
def trimReversed : List Char → List Char
  | '/' :: rest => trimReversed rest
  | '.' :: '/' :: rest => trimReversed rest
  | path => path

/-- The last component of a path, if it is a name, together with the text in front of it. -/
def splitLast? (path : List Char) : Option (List Char × List Char) :=
  let trimmed := trimReversed path.reverse
  let name := (trimmed.takeWhile (· ≠ '/')).reverse
  if name = [] ∨ name = ['.'] ∨ name = ['.', '.'] then none
  else some ((trimmed.dropWhile (· ≠ '/')).reverse, name)

/-- A name split at its last dot into stem and extension. A name that starts with its only dot is
all stem. -/
def splitName (name : List Char) : List Char × Option (List Char) :=
  let ext := (name.reverse.takeWhile (· ≠ '.')).reverse
  match (name.reverse.dropWhile (· ≠ '.')).reverse.dropLast with
  | [] => (name, none)
  | stem => (stem, some ext)

/-- The path that ends in the stem of its last component and the given extension. What follows that
component is dropped. -/
def setExtension (path ext : List Char) : List Char :=
  match splitLast? path with
  | none => path
  | some (front, name) =>
    front ++ (splitName name).1 ++ (if ext = [] then [] else '.' :: ext)

/-- The path with its extension replaced. The old extension is removed first, and a path that does
not end in a name then, such as `..` for `..x`, gets no other. -/
def withExtension (path ext : List Char) : List Char :=
  let old := ((splitLast? path).bind fun (_, name) => (splitName name).2).getD []
  setExtension (path.take (path.length - old.length)) ext

/-- A path seen from a directory. -/
def join (dir path : List Char) : List Char :=
  if path.head? = some '/' then path
  else if dir = [] ∨ dir.getLast? = some '/' then dir ++ path
  else dir ++ '/' :: path

/-- The directory that a file is in. -/
def parent (path : List Char) : List Char :=
  ((path.reverse.dropWhile (· ≠ '/')).drop 1).reverse

end FilePath

/-- Where artifacts are written. -/
structure ArtifactDir where
  dir : String
  /-- What the names of the files start with; their old extension is not kept. -/
  baseName : String
deriving DecidableEq

/-- The path of the artifact with an extension. -/
def ArtifactDir.path (d : ArtifactDir) (ext : String) : String :=
  .ofList (FilePath.join d.dir.toList (FilePath.withExtension d.baseName.toList ext.toList))

/-! ## Files -/

/-- The directories that exist and the files that were written. -/
structure Files where
  dirs : List String
  contents : NameMap String

/-- Why a file cannot be written. -/
inductive FileError where
  /-- The directory of the file does not exist. -/
  | notFound
deriving DecidableEq

def FileError.message : FileError → String
  | .notFound => "No such file or directory (os error 2)"

namespace Files

/-- No files, in the given directories. -/
def ofDirs (dirs : List String) : Files :=
  ⟨dirs, ∅⟩

/-- Writes a file, in place of one at its path. -/
def write (files : Files) (path text : String) : Except FileError Files :=
  if files.dirs.contains (.ofList (FilePath.parent path.toList)) then
    .ok { files with contents := files.contents.insert path text }
  else .error .notFound

end Files
end ArrayLang
