import GrSatellites.Files.PushChunk

/-!
# The directory of the files

Paths as the module `pathlib` of Python has them on POSIX systems. They have no attribute
`dirname`, so the test of `_new_file` for path components never gets an answer.
-/

namespace GrSatellites.Files

open Routine

/-- `pathlib.PurePosixPath`. -/
structure PosixPath where
  root : String
  parts : List String
  deriving DecidableEq

namespace PosixPath

/-- The root of a path. Two slashes are a root of their own, three are one. -/
def rootOf : List Char → String
  | '/' :: '/' :: '/' :: _ => "/"
  | '/' :: '/' :: _ => "//"
  | '/' :: _ => "/"
  | _ => ""

/-- `pathlib.Path(s)`: empty components and dots are dropped. -/
def ofString (s : String) : PosixPath where
  root := rootOf s.toList
  parts := ((s.toList.splitOn '/').filter fun part => part ≠ [] ∧ part ≠ ['.']).map String.ofList

/-- `directory / path`. An absolute path replaces the directory. -/
def join (directory path : PosixPath) : PosixPath :=
  if path.root = "" then ⟨directory.root, directory.parts ++ path.parts⟩ else path

/-- A path is in a directory, and not in another directory below it. -/
def IsChild (directory path : PosixPath) : Prop :=
  ∃ name, name ≠ ".." ∧ path = ⟨directory.root, directory.parts ++ [name]⟩

end PosixPath

/-- `pathlib`, for the files that can be opened. -/
def pathlib (openFile : PosixPath → Except PyError Unit) : Pathlib PosixPath where
  path := .ofString
  dirname _ := .error .attributeError
  join := .join
  openFile := openFile

namespace FileReceiver

variable {σ R C : Type}

/-- `_new_file` raises no exception, and the file that it opens is in the directory. -/
def OpensChild (r : FileReceiver PosixPath σ R C) (fid : FileId) (s : Receiver PosixPath σ) : Prop :=
  ∃ f t, exec (r.newFile fid) s = (.ok f, t) ∧ r.path.IsChild f.path

/-- **New files.** No file name is accepted: `_new_file` always raises an exception. -/
theorem not_opensChild (r : FileReceiver PosixPath σ R C)
    (openFile : PosixPath → Except PyError Unit) (fid : FileId) (s : Receiver PosixPath σ) :
    ¬OpensChild { r with lib := pathlib openFile } fid s := by
  rintro ⟨f, t, hnew, -⟩
  rw [newFile, exec_bind] at hnew
  split at hnew
  · cases hnew
  · cases hnew

end FileReceiver

/-- The first file of a receiver with the default hooks. -/
theorem not_opensChild_first :
    ¬(defaultReceiver (pathlib fun _ => .ok ()) (.ofString "/tmp")).OpensChild (.int 0)
      (.init (fun _ => none) (fun _ => "") ()) := by
  rintro ⟨f, t, hnew, -⟩
  cases hnew

end GrSatellites.Files
