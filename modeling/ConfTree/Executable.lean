import ConfTree.FileTree

/-!
# Finding an executable

A name of one component is looked for in the directories of a search path, in
their order. Any other name says itself where the executable is.
-/

namespace ConfTree

/-- Where executables are looked for. -/
structure SearchPath where
  /-- The directories, set apart by `:`; none if there is no search path. -/
  dirs : Option String
  /-- What `~` stands for in front of a directory. -/
  home : Path
  deriving DecidableEq

namespace SearchPath

/-- The path with its first component replaced by the home directory, if that
component is `~`. -/
def expandHome (home dir : Path) : Path :=
  match dir.components with
  | .name first :: rest => if first.text = "~" then home.extend rest else dir
  | _ => dir

/-- The directories in order; an empty one is the working directory. -/
def directories (s : SearchPath) : List Path :=
  match s.dirs with
  | none => []
  | some dirs => (dirs.toList.splitOn ':').map fun dir => expandHome s.home ⟨String.ofList dir⟩

end SearchPath

namespace FileTree

/-- The path leads to a file that can be executed. -/
def isExecutable (t : FileTree) (p : Path) : Bool :=
  match t.stat p with
  | .ok (.file _ executable) => executable
  | _ => false

/-- The paths at which an executable of this name may be. -/
def executableCandidates (t : FileTree) (s : SearchPath) (name : Path) : List Path :=
  if 1 < name.components.length then [(Path.ofLocation t.workingDir).join name]
  else s.directories.map fun dir => dir.join name

/-- The first path at which there is an executable of this name. -/
def findExecutable? (t : FileTree) (s : SearchPath) (name : Path) : Option Path :=
  (t.executableCandidates s name).find? t.isExecutable

end FileTree

end ConfTree
