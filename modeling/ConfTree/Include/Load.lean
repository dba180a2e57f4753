import ConfTree.Fault
import ConfTree.Lexer
import ConfTree.Limits

/-!
# Reading files into tokens

A text may be read from a source of bytes or from a file of the tree. Of a source
no more is read than one byte beyond the limit, which is enough to tell that the
limit is exceeded; what would come behind is never seen.
-/

namespace ConfTree

/-- Reads the tokens of a text that goes by the name `file`. -/
def readTokens (file : String) (source : Source) (limits : Limits) : Except Fault (List Token) :=
  match source.read (limits.fileSize + 1) with
  | .error reason => .error { cause := .unreadable reason, place := { file } }
  | .ok bytes =>
    if limits.fileSize < bytes.length then
      .error { cause := .readTooLong limits.fileSize, place := { file } }
    else .ok (tokenize file bytes)

/-- Reads the tokens of a file, which carry the path as their file. -/
def load (t : FileTree) (limits : Limits) (p : Path) : Except Fault (List Token) :=
  match t.stat p with
  | .error e => .error { cause := .cannotOpen p e }
  | .ok (.file content _) =>
    match readTokens p.text content limits with
    | .error ⟨.unreadable reason, _, _⟩ => .error { cause := .cannotRead p reason }
    | result => result
  | .ok _ => .error { cause := .isDirectory p }

end ConfTree
