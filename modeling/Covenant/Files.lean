import Covenant.Source.Table

/-!
# Files

Reading a file by its path, from a directory that is known in full. A path is
followed from name to name: `.` stays and `..` goes up. What lies outside the
directory counts as missing, but a path that only goes up leads to a directory.
-/

namespace Covenant

/-- Why a file could not be read. -/
inductive ReadFault
  | missing
  /-- A name on the way belongs to a file. -/
  | notDirectory
  | isDirectory
  | other (message : String)
  deriving DecidableEq, Repr, Inhabited

def ReadFault.text : ReadFault → String
  | missing => "No such file or directory (os error 2)"
  | notDirectory => "Not a directory (os error 20)"
  | isDirectory => "Is a directory (os error 21)"
  | other message => message

/-- How a program reads files. -/
abbrev ReadFile := String → Except ReadFault String

/-- Whether there is a file that can be opened at all. -/
def isFile (read : ReadFile) (path : String) : Bool :=
  match read path with
  | .ok _ | .error (.other _) => true
  | .error _ => false

/-- The files of a directory and of all directories in it, by the names that lead to them. -/
structure Directory where
  files : List (List String × String)

namespace Directory

/-- The names of a path. -/
def names (path : String) : List String := (path.splitOn "/").filter (· != "")

/-- A directory with these files, each under its path. -/
def ofFiles (files : List (String × String)) : Directory :=
  ⟨files.map fun (path, content) => (names path, content)⟩

def file? (d : Directory) (at_ : List String) : Option String :=
  (d.files.find? (·.1 == at_)).map (·.2)

/-- Whether names lead to the directory itself or to one in it. -/
def isDirectory (d : Directory) (at_ : List String) : Bool :=
  at_.isEmpty || d.files.any fun (names, _) => at_.isPrefixOf names && names != at_

/-- Why no file is found outside the directory, where these names lead. -/
def outside (names : List String) : ReadFault :=
  if names.all (["", ".", ".."].contains ·) then .isDirectory else .missing

/-- Where names lead to from a place in the directory. -/
def follow (d : Directory) (at_ : List String) : List String → Except ReadFault (List String)
  | [] => .ok at_
  | name :: rest =>
    if d.isDirectory at_ then
      match name with
      | "." | "" => follow d at_ rest
      | ".." => if at_.isEmpty then .error (outside rest) else follow d at_.dropLast rest
      | name => follow d (at_ ++ [name]) rest
    else if (d.file? at_).isSome then .error .notDirectory
    else .error .missing

/-- The content of the file that a path leads to. -/
def read (d : Directory) : ReadFile := fun path =>
  if path.isEmpty then .error .missing
  else if path.startsWith "/" then .error (outside (path.splitOn "/"))
  else do
    let at_ ← d.follow [] (path.splitOn "/")
    match d.file? at_ with
    | some content => .ok content
    | none => .error (if d.isDirectory at_ then .isDirectory else .missing)

end Directory

end Covenant
