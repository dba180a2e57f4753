import ConfTree.Executable

/-!
# Where included files are looked for

A layout names the root directory of a configuration, the directories below it
that are searched too, and the files of the root that are taken to exist without
being looked for.
-/

namespace ConfTree

/-- Where included files are looked for. -/
structure Layout where
  /-- The directory that includes are relative to. -/
  root : Path := ⟨"/etc/nginx"⟩
  /-- Directories below the root that are searched behind it, in this order. -/
  subdirs : List String := ["sites-enabled", "modules-enabled", "conf.d", "snippets"]
  /-- Files that are taken to exist in the root. -/
  standardFiles : List String :=
    ["mime.types", "fastcgi.conf", "fastcgi_params", "proxy_params", "scgi_params",
     "uwsgi_params", "koi-utf", "koi-win", "win-utf"]
  deriving DecidableEq, Inhabited

namespace Layout

/-- The usual layout, at a root. -/
def ofRoot (root : Path) : Layout := { root }

/-- The file is taken to exist. -/
def isStandard (l : Layout) (name : String) : Bool := l.standardFiles.contains name

/-- The layouts look in the same places; of the roots only the components
count. -/
def same (l m : Layout) : Bool :=
  l.root.same m.root && l.subdirs == m.subdirs && l.standardFiles == m.standardFiles

/-- The layout of a configuration that lies beside an executable, in `conf`
rather than in `conf.d`. -/
def besideExecutable? (t : FileTree) (s : SearchPath) (name : Path) : Option Layout := do
  let executable ← t.findExecutable? s name
  let layout := ofRoot (← executable.parent?)
  return { layout with
    subdirs := layout.subdirs.map fun dir => if dir == "conf.d" then "conf" else dir }

end Layout

end ConfTree
