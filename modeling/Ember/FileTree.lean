/-!
A directory with the files below it, and the paths that lead to them.
-/

namespace Ember

/-- The steps of a relative path: empty steps and single dots lead nowhere and are left out. -/
def pathSteps (path : String) : List String :=
  (path.splitOn "/").filter fun step => step ≠ "" ∧ step ≠ "."

/-- Files by the names that lead to them from the directory. -/
structure FileTree where
  files : List (List String × ByteArray)

namespace FileTree

def ofList (files : List (String × ByteArray)) : FileTree :=
  ⟨files.map fun (path, content) => (pathSteps path, content)⟩

def isDirectory (t : FileTree) (place : List String) : Bool :=
  place.isEmpty || t.files.any fun (file, _) => place.length < file.length && place.isPrefixOf file

/-- Follows steps from a directory. A double dot leads back to the directory above, and every place
before the last has to be a directory. -/
def follow (t : FileTree) (place : List String) : List String → Option (List String)
  | [] => some place
  | ".." :: rest =>
    if place.isEmpty || !t.isDirectory place then none else t.follow place.dropLast rest
  | step :: rest => if t.isDirectory place then t.follow (place ++ [step]) rest else none

/-- Longest path that leads anywhere, in bytes. -/
def pathLimit : Nat := 4095

/-- The content of the file that a path leads to. Paths from the root of the system lead to none. -/
def find? (t : FileTree) (path : String) : Option ByteArray := do
  if path.startsWith "/" || pathLimit < ("/".intercalate (pathSteps path)).utf8ByteSize then none
  else
    let place ← t.follow [] (pathSteps path)
    let (_, content) ← t.files.find? fun (file, _) => file == place
    pure content

end FileTree

end Ember
