import ConfTree.FileTree
import ConfTree.Glob.Pattern

/-!
# Faults

A fault is a cause, the place it is laid to, and what was being done. The cause
fixes both the kind of the fault and its wording, so no message is made up
anywhere else.

A place that is known is kept: `orAt` fills in the place of a fault that has
none, and `locate` replaces it.
-/

namespace ConfTree

/-- Which part of the work a fault comes from. -/
inductive FaultKind where
  /-- Reading bytes. -/
  | lexing
  /-- The pattern of an include. -/
  | pattern
  /-- Finding and opening included files. -/
  | inclusion
  /-- The order of tokens. -/
  | grammar
  /-- A file that includes itself. -/
  | cycle
  /-- A limit that was exceeded. -/
  | limit
  deriving DecidableEq

namespace FaultKind

def name : FaultKind → String
  | lexing => "Lex"
  | pattern => "Pattern"
  | inclusion => "Import"
  | grammar => "Parse"
  | cycle => "Cycle"
  | limit => "Security"

def label (k : FaultKind) : String := k.name ++ "Error"

end FaultKind

/-- What went wrong. -/
inductive Cause where
  | unreadable (reason : String)
  /-- A text that is being read has more than `limit` bytes. -/
  | readTooLong (limit : Nat)
  /-- A text that is given has too many bytes. -/
  | inputTooLong (size limit : Nat)
  | tooManyTokens (count limit : Nat)
  | blocksTooDeep (limit : Nat)
  | includesTooDeep (path : Path) (limit : Nat)
  | tooManyFiles (argument : String) (count limit : Nat)
  /-- The file `path`, whose identity is `key`, is being read already. -/
  | alreadyIncluded (path : Path) (trail : String) (key : Path)
  | noMatch (argument : String) (root : Path)
  | cannotOpen (path : Path) (error : SystemError)
  | isDirectory (path : Path)
  | cannotRead (path : Path) (reason : String)
  | secondStar (pattern : String)
  | secondQuestionMark (pattern : String)
  | classAndWildcard (pattern : String)
  | badClass (pattern : String) (error : Glob.BadClass)
  | blockWithoutName
  | unexpectedClose
  /-- A statement is asked for where the stream is at its end. -/
  | unexpectedEnd
  | includeWithoutArgument
  /-- A fault that a caller of the library words on its own. -/
  | reported (kind : FaultKind) (message : String)
  deriving DecidableEq

namespace Cause

def kind : Cause → FaultKind
  | unreadable _ => .lexing
  | readTooLong _ | inputTooLong .. | tooManyTokens .. | blocksTooDeep _ => .limit
  | includesTooDeep .. | tooManyFiles .. => .limit
  | alreadyIncluded .. => .cycle
  | noMatch .. | cannotOpen .. | isDirectory _ | cannotRead .. => .inclusion
  | secondStar _ | secondQuestionMark _ | classAndWildcard _ | badClass .. => .pattern
  | blockWithoutName | unexpectedClose | unexpectedEnd | includeWithoutArgument => .grammar
  | reported kind _ => kind

def message : Cause → String
  | unreadable reason => s!"failed to read input: {reason}"
  | readTooLong limit => s!"input exceeds maximum file size of {limit} bytes"
  | inputTooLong size limit => s!"input size {size} bytes exceeds maximum {limit} bytes"
  | tooManyTokens count limit => s!"token count {count} exceeds maximum {limit}"
  | blocksTooDeep limit => s!"block nesting exceeds maximum depth {limit}"
  | includesTooDeep path limit =>
    s!"include depth exceeds maximum {limit} while including {path}"
  | tooManyFiles argument count limit =>
    s!"include \"{argument}\" matches {count} files, maximum is {limit}"
  | alreadyIncluded path trail key => s!"{path} is already being included: {trail} -> {key}"
  | noMatch argument root => s!"no file matches include \"{argument}\" (searched under {root})"
  | cannotOpen path error => s!"cannot open {path}: {error}"
  | isDirectory path => s!"{path} is a directory"
  | cannotRead path reason => s!"cannot read {path}: failed to read input: {reason}"
  | secondStar pattern => s!"include pattern \"{pattern}\" has more than one \x27*\x27 wildcard"
  | secondQuestionMark pattern =>
    s!"include pattern \"{pattern}\" has more than one \x27?\x27 wildcard"
  | classAndWildcard pattern =>
    s!"include pattern \"{pattern}\" combines a character class with other wildcards"
  | badClass pattern error => s!"invalid include pattern \"{pattern}\": " ++ error.message
  | blockWithoutName => "block without a directive name"
  | unexpectedClose => "unexpected \"\x7d\""
  | unexpectedEnd => "unexpected end of input"
  | includeWithoutArgument => "include without a file argument"
  | reported _ message => message

end Cause

/-- A place in a configuration. -/
structure Place where
  /-- The file; empty if unknown. -/
  file : String := ""
  /-- The line, counted from one; zero if unknown. -/
  line : Nat := 0
  deriving DecidableEq, Inhabited

namespace Place

def unknown : Place := {}

def isKnown (p : Place) : Bool := p.file != "" || 0 < p.line

def describe (p : Place) : String :=
  if p.file == "" then if p.line = 0 then "<unknown>" else s!"line {p.line}"
  else if p.line = 0 then p.file
  else s!"{p.file}:{p.line}"

end Place

/-- Work in two parts succeeds if both parts do. -/
theorem bind_eq_ok_iff {ε α β : Type} {first : Except ε α} {second : α → Except ε β} {b : β} :
    first >>= second = .ok b ↔ ∃ a, first = .ok a ∧ second a = .ok b := by
  cases first with
  | error e => simp [bind, Except.bind]
  | ok a => simp [bind, Except.bind]

/-- Work in two parts fails if the first part does, or the second behind it. -/
theorem bind_eq_error_iff {ε α β : Type} {first : Except ε α} {second : α → Except ε β} {e : ε} :
    first >>= second = .error e ↔
      first = .error e ∨ ∃ a, first = .ok a ∧ second a = .error e := by
  cases first with
  | error e => simp [bind, Except.bind]
  | ok a => simp [bind, Except.bind]

/-- A reason why a configuration cannot be read. -/
structure Fault where
  cause : Cause
  place : Place := .unknown
  context : Option String := none
  deriving DecidableEq

namespace Fault

def kind (f : Fault) : FaultKind := f.cause.kind

def message (f : Fault) : String := f.cause.message

/-- Lays the fault to a place. -/
def locate (f : Fault) (place : Place) : Fault := { f with place }

/-- Lays the fault to a place, unless it has one. -/
def orAt (f : Fault) (place : Place) : Fault :=
  if f.place.isKnown then f else f.locate place

def within (f : Fault) (context : String) : Fault := { f with context := some context }

@[simp] theorem kind_within (f : Fault) (context : String) : (f.within context).kind = f.kind := rfl

@[simp] theorem kind_orAt (f : Fault) (place : Place) : (f.orAt place).kind = f.kind := by
  unfold orAt
  split <;> rfl

def describe (f : Fault) : String := s!"{f.kind.label} at {f.place.describe}: {f.message}"

end Fault

end ConfTree
