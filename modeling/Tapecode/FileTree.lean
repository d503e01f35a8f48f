import Tapecode.SystemError

/-!
# Files by name

A `FileTree` says which files and directories there are and in which directory a session works.
`FileTree.read` looks up a path, name by name from the left: from the root if the path starts with a
slash, and else from the working directory. Empty names and single dots stay where they are, and two
dots go to the parent. Whatever is not the last name of a path has to be a directory, also when only a
slash follows it.
-/

namespace Tapecode

/-- Files and directories, each given by the names that lead to it from the root. -/
structure FileTree where
  /-- The files with their contents. The directories that lead to a file need not be listed. -/
  files : List (List String × List UInt8) := []
  /-- Further directories. -/
  directories : List (List String) := []
  /-- The directory in which relative paths start. -/
  working : List String := []

/-- What a name can stand for. -/
inductive FileNode
  | file (contents : List UInt8)
  | directory

namespace FileTree

/-- The greatest number of bytes in a name. -/
def longestName : Nat := 255

/-- The greatest number of bytes in a path. -/
def longestPath : Nat := 4095

/-- What the names stand for, if for anything. -/
def node? (t : FileTree) (names : List String) : Option FileNode :=
  match t.files.lookup names with
  | some contents => some (.file contents)
  | none =>
    let directories := t.working :: t.directories ++ t.files.map fun f => f.1.dropLast
    if directories.any names.isPrefixOf then some .directory else none

/-- The contents of the file that is reached from the directory `here`. -/
def walk (t : FileTree) (here : List String) : List String → Except SystemError (List UInt8)
  | [] => .error .isDirectory
  | name :: rest =>
    if name = "" ∨ name = "." then t.walk here rest
    else if name = ".." then t.walk here.dropLast rest
    else if longestName < name.utf8ByteSize then .error .nameTooLong
    else
      match t.node? (here ++ [name]) with
      | none => .error .notFound
      | some .directory => t.walk (here ++ [name]) rest
      | some (.file contents) => if rest.isEmpty then .ok contents else .error .notDirectory

/-- The names in a path, with a slash between any two. -/
def namesOf (path : String) : List String :=
  (path.toList.splitOn '/').map String.ofList

/-- The directory in which a path starts. -/
def startOf (t : FileTree) (path : String) : List String :=
  if path.toList.head? = some '/' then [] else t.working

/-- The contents of the file with this path. -/
def read (t : FileTree) (path : String) : Except SystemError (List UInt8) :=
  if longestPath < path.utf8ByteSize then .error .nameTooLong
  else t.walk (t.startOf path) (namesOf path)

end FileTree

end Tapecode
