import Ethereum.Tool.Error

/-!
# Trees of files

Files that stand in directories, and what reading a path in such a tree gives. A path is followed
name by name, from the root if it starts with a slash and else from the working directory. The empty
name and a single dot stay where they are, two dots go up, and each name needs a directory to stand
in.
-/

namespace Ethereum.Tool

/-- A tree of files. -/
structure FileTree where
  /-- The content of each file, under the names that lead there from the root. -/
  files : List (List String × Bytes)
  /-- The names that lead from the root to the working directory. -/
  working : List String

namespace FileTree

/-- The most bytes that a name can have. -/
def maxNameLength : Nat := 255

/-- The most bytes that a path can have. -/
def maxPathLength : Nat := 4095

/-- Whether a directory stands at a place: the working directory, or one that it or a file stands
in. -/
def isDirectory (tree : FileTree) (place : List String) : Bool :=
  place.isPrefixOf tree.working ||
    tree.files.any fun (file, _) => place.isPrefixOf file && place ≠ file

/-- The place that names lead to from another one. -/
def follow (tree : FileTree) : (place names : List String) → Except ReadFault (List String)
  | place, [] => .ok place
  | place, name :: names =>
    if !tree.isDirectory place then
      .error (if (tree.files.lookup place).isSome then .notDirectory else .missing)
    else if maxNameLength < name.utf8ByteSize then .error .nameTooLong
    else if name = "" ∨ name = "." then follow tree place names
    else if name = ".." then follow tree place.dropLast names
    else follow tree (place ++ [name]) names

/-- The names in a path, which stand between its slashes. -/
def namesOf (path : String) : List String := (path.toList.splitOn '/').map String.ofList

/-- The place that a path is followed from. -/
def startOf (tree : FileTree) (path : String) : List String :=
  if path.toList.head? = some '/' then [] else tree.working

/-- What reading a path gives. -/
def read (tree : FileTree) (path : String) : Except ReadFault Bytes :=
  if path.isEmpty then .error .missing
  else if maxPathLength < path.utf8ByteSize then .error .nameTooLong
  else do
    let place ← tree.follow (tree.startOf path) (namesOf path)
    match tree.files.lookup place with
    | some content => .ok content
    | none => .error (if tree.isDirectory place then .directory else .missing)

end FileTree

end Ethereum.Tool
