import ConfTree.Include.Layout
import ConfTree.Limits

/-!
# Settings

What a reading of a configuration depends on, its text and the file tree apart.
-/

namespace ConfTree

/-- How a configuration is read. -/
structure Settings where
  /-- The name of a text that comes from no file. -/
  sourceName : String := "nginx.conf"
  /-- Where included files are looked for. -/
  layout : Layout := {}
  /-- How much the reading may take. -/
  limits : Limits := {}
  deriving DecidableEq, Inhabited

end ConfTree
