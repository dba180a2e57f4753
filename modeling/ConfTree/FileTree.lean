import ConfTree.Path
import ConfTree.Source

/-!
# File trees

A file tree lists directories, files and symbolic links by location. A location
is the list of names that leads to it, innermost first, so that it says where
something is, whatever path was taken to get there.

* `locate` follows a path to a location: every step needs a directory, links are
  followed where they are met, and `..` leads to the parent of the place reached.
* `stat` tells what a path leads to; `present` does not follow a link at the end.
* `entries` lists a directory in the order of its names.
* `canonical?` is the one path to a location that has neither links nor dots, unless
  it is too long.
-/

namespace ConfTree

/-- Why a path leads nowhere, or a file cannot be read. -/
inductive SystemError where
  | notFound
  | readFailed
  | notDirectory
  | nameTooLong
  | tooManyLinks
  | nulCharacter
  deriving DecidableEq

def SystemError.message : SystemError → String
  | notFound => "No such file or directory (os error 2)"
  | readFailed => "Input/output error (os error 5)"
  | notDirectory => "Not a directory (os error 20)"
  | nameTooLong => "File name too long (os error 36)"
  | tooManyLinks => "Too many levels of symbolic links (os error 40)"
  | nulCharacter => "file name contained an unexpected NUL byte"

instance : ToString SystemError := ⟨SystemError.message⟩

/-- A place in a file tree: the names on the way to it, the innermost first. -/
abbrev Location := List Name

/-- What stands at a location. -/
inductive Node where
  | directory
  | file (content : Source) (executable : Bool)
  | link (target : Path)
  deriving DecidableEq

namespace Node

def isDirectory : Node → Bool
  | directory => true
  | _ => false

def isFile : Node → Bool
  | file .. => true
  | _ => false

end Node

/-- Directories, files and links by location. The root is a directory without
being listed. -/
structure FileTree where
  /-- What stands where. -/
  nodes : List (Location × Node)
  /-- No location is listed twice. -/
  nodup : (nodes.map Prod.fst).Nodup
  /-- Where relative paths start. -/
  workingDir : Location

/-- The path to a location that has neither links nor dots. -/
def Path.ofLocation (loc : Location) : Path :=
  ⟨"/" ++ "/".intercalate (loc.reverse.map Name.text)⟩

/-- The steps of a path for one who looks it up: a separator at the end, like a
`.`, asks for a directory. -/
def Path.steps (p : Path) : List Component :=
  p.pieces.map fun piece => (Component.ofPiece? piece).getD .here

namespace FileTree

def empty : FileTree :=
  { nodes := [], nodup := List.nodup_nil, workingDir := [] }

instance : Inhabited FileTree := ⟨empty⟩

def node? (t : FileTree) (loc : Location) : Option Node :=
  if loc = [] then some .directory else t.nodes.lookup loc

/-- A directory stands at the location. -/
def isDirectoryAt (t : FileTree) (loc : Location) : Bool :=
  (t.node? loc).any Node.isDirectory

/-- How many bytes the name of an entry may have. -/
def maxNameBytes : Nat := 255

/-- How many bytes a path may have, with one more to end it. -/
def maxPathBytes : Nat := 4096

/-- How many links a path may lead through. -/
def maxLinks : Nat := 40

/-- Takes the steps one by one from the location `loc` up to the first link, over
entries that `admits` lets pass; it is told which steps are left behind an entry, and
none behind a link, which is only read. `jump` continues from there with the steps
that the link prescribes and those that remain. -/
def walk (t : FileTree) (admits : Location → List Component → Bool)
    (jump : Location → List Component → Except SystemError Location) :
    Location → List Component → Except SystemError Location
  | loc, [] => .ok loc
  | loc, step :: rest =>
    if t.isDirectoryAt loc then
      match step with
      | .root => walk t admits jump [] rest
      | .here => walk t admits jump loc rest
      | .up => walk t admits jump loc.tail rest
      | .name n =>
        if maxNameBytes < n.text.utf8ByteSize then .error .nameTooLong
        else match t.node? (n :: loc) with
          | none => .error .notFound
          | some (.link target) =>
            if admits (n :: loc) [] then
              jump (if target.isAbsolute then [] else loc) (target.steps ++ rest)
            else .error .nameTooLong
          | some _ =>
            if admits (n :: loc) rest then walk t admits jump (n :: loc) rest
            else .error .nameTooLong
    else .error .notDirectory

/-- Takes the steps one by one and follows at most `links` links. -/
def follow (t : FileTree) (admits : Location → List Component → Bool) :
    (links : Nat) → Location → List Component → Except SystemError Location
  | 0 => t.walk admits fun _ _ => .error .tooManyLinks
  | links + 1 => t.walk admits (follow t admits links)

/-- Lets every entry pass: a path that is handed over as a whole is looked up from
directory to directory, and nobody has to spell the way that has been gone. -/
def anyEntry (_ : Location) (_ : List Component) : Bool := true

/-- The steps are for directories only: they lead up, or end behind a separator. -/
def asksDirectory (steps : List Component) : Bool :=
  !steps.isEmpty && !(steps.find? (· != .here)).any fun
    | .name _ => true
    | _ => false

/-- Lets an entry pass whose own path is short enough to be looked up, with a
separator behind it if the steps that remain are for directories only. -/
def isNameable (loc : Location) (rest : List Component) : Bool :=
  (Path.ofLocation loc).text.utf8ByteSize + (asksDirectory rest).toNat < maxPathBytes

/-- Where a path starts. -/
def start (t : FileTree) (p : Path) : Location :=
  if p.isAbsolute then [] else t.workingDir

/-- Where the path leads to, through links. -/
def reach (t : FileTree) (p : Path) : Except SystemError Location :=
  t.follow anyEntry maxLinks (t.start p) p.steps

/-- Why a path is refused before any directory is asked about. -/
def refusal? (p : Path) : Option SystemError :=
  if p.text.toList.contains '\x00' then some .nulCharacter
  else if p.text == "" then some .notFound
  else none

end FileTree

/-- The path may be looked up as a whole. -/
def Path.Fits (p : Path) : Prop :=
  FileTree.refusal? p = none ∧ p.text.utf8ByteSize < FileTree.maxPathBytes

namespace FileTree

/-- The location that the path leads to, if it is looked up at once: it may not
be too long as a whole. -/
def locate (t : FileTree) (p : Path) : Except SystemError Location :=
  match refusal? p with
  | some e => .error e
  | none => if maxPathBytes ≤ p.text.utf8ByteSize then .error .nameTooLong else t.reach p

/-- What the path leads to, through links. -/
def stat (t : FileTree) (p : Path) : Except SystemError Node := do
  match t.node? (← t.locate p) with
  | some node => return node
  | none => throw .notFound

def isDirectory (t : FileTree) (p : Path) : Bool :=
  (t.stat p).toOption.any Node.isDirectory

def isFile (t : FileTree) (p : Path) : Bool :=
  (t.stat p).toOption.any Node.isFile

/-- Something stands where the path leads to, if only a link that leads
nowhere. -/
def present (t : FileTree) (p : Path) : Bool :=
  match refusal? p, p.steps.getLast? with
  | none, some (.name n) =>
    match t.follow anyEntry maxLinks (t.start p) p.steps.dropLast with
    | .ok loc =>
      t.isDirectoryAt loc && n.text.utf8ByteSize ≤ maxNameBytes &&
        p.text.utf8ByteSize < maxPathBytes && (t.node? (n :: loc)).isSome
    | .error _ => false
  | _, _ => (t.locate p).toOption.isSome

/-- The path to the same place that has neither links nor dots. It is found name by
name, and every entry on the way is looked up by such a path. So the path `p` may be
of any length, but none of these may be too long: a file that lies deeper has no
canonical path, although shorter paths can lead there through links. -/
def canonical? (t : FileTree) (p : Path) : Option Path :=
  match refusal? p with
  | some _ => none
  | none => (t.follow isNameable maxLinks (t.start p) p.steps).toOption.map Path.ofLocation

/-- The names in a directory, in ascending order. -/
def entriesAt (t : FileTree) (loc : Location) : List Name :=
  (t.nodes.filterMap fun
    | (n :: above, _) => if above = loc then some n else none
    | ([], _) => none).mergeSort fun a b => decide (a.text ≤ b.text)

/-- The names in the directory that the path leads to, in ascending order. -/
def entries (t : FileTree) (p : Path) : List Name :=
  match t.locate p with
  | .ok loc => t.entriesAt loc
  | .error _ => []

def files (t : FileTree) : List Location :=
  (t.nodes.filter fun entry => entry.2.isFile).map Prod.fst

/-! ## Places -/

section Places

variable {t : FileTree} {p : Path} {loc last : Location} {steps : List Component}
  {admits admits' : Location → List Component → Bool}

theorem walk_cons_admits (t : FileTree)
    (jump : Location → List Component → Except SystemError Location) (step : Component)
    (rest : List Component) :
    t.walk admits jump loc (step :: rest) =
      if t.isDirectoryAt loc then
        match step with
        | .root => t.walk admits jump [] rest
        | .here => t.walk admits jump loc rest
        | .up => t.walk admits jump loc.tail rest
        | .name n =>
          if maxNameBytes < n.text.utf8ByteSize then .error .nameTooLong
          else match t.node? (n :: loc) with
            | none => .error .notFound
            | some (.link target) =>
              if admits (n :: loc) [] then
                jump (if target.isAbsolute then [] else loc) (target.steps ++ rest)
              else .error .nameTooLong
            | some _ =>
              if admits (n :: loc) rest then t.walk admits jump (n :: loc) rest
              else .error .nameTooLong
      else .error .notDirectory := rfl

/-- A step is taken in a directory. A step to a name is taken if the name is there, not
too long and let pass; it leads on behind a link. -/
theorem walk_cons_eq_ok_iff
    {jump : Location → List Component → Except SystemError Location} {step : Component}
    {rest : List Component} :
    t.walk admits jump loc (step :: rest) = .ok last ↔
      t.isDirectoryAt loc = true ∧
        match step with
        | .root => t.walk admits jump [] rest = .ok last
        | .here => t.walk admits jump loc rest = .ok last
        | .up => t.walk admits jump loc.tail rest = .ok last
        | .name n =>
          n.text.utf8ByteSize ≤ maxNameBytes ∧ ∃ node, t.node? (n :: loc) = some node ∧
            match node with
            | .link target =>
              admits (n :: loc) [] = true ∧
                jump (if target.isAbsolute then [] else loc) (target.steps ++ rest) = .ok last
            | _ =>
              admits (n :: loc) rest = true ∧ t.walk admits jump (n :: loc) rest = .ok last := by
  rw [walk_cons_admits]
  by_cases hdir : t.isDirectoryAt loc = true
  · rw [if_pos hdir, and_iff_right hdir]
    cases step with
    | root | here | up => exact Iff.rfl
    | name n =>
      by_cases hshort : maxNameBytes < n.text.utf8ByteSize
      · simp [hshort, Nat.not_le.mpr hshort]
      · cases hnode : t.node? (n :: loc) with
        | none => simp [hshort, hnode]
        | some node =>
          cases node with
          | link target =>
            by_cases hpass : admits (n :: loc) [] = true <;>
              simp [hshort, hnode, hpass, Nat.not_lt.mp hshort]
          | directory | file content executable =>
            by_cases hpass : admits (n :: loc) rest = true <;>
              simp [hshort, hnode, hpass, Nat.not_lt.mp hshort]
  · simp [hdir]

/-- Where fewer entries are let pass, a walk leads to the same place, if anywhere, and if
this holds behind links. -/
theorem walk_of_admits {jump jump' : Location → List Component → Except SystemError Location}
    (hentry : ∀ entry rest, (t.node? entry).isSome = true →
      admits entry rest = true → admits' entry rest = true)
    (hjump : ∀ loc steps, jump loc steps = .ok last → jump' loc steps = .ok last)
    (h : t.walk admits jump loc steps = .ok last) : t.walk admits' jump' loc steps = .ok last := by
  induction steps generalizing loc with
  | nil => exact h
  | cons step rest ih =>
    rw [walk_cons_eq_ok_iff] at h ⊢
    obtain ⟨hdir, h⟩ := h
    refine ⟨hdir, ?_⟩
    cases step with
    | root | here | up => exact ih h
    | name n =>
      obtain ⟨hshort, node, hnode, h⟩ := h
      refine ⟨hshort, node, hnode, ?_⟩
      have hsome : (t.node? (n :: loc)).isSome = true := by rw [hnode]; rfl
      cases node with
      | link target => exact ⟨hentry _ _ hsome h.1, hjump _ _ h.2⟩
      | directory | file content executable => exact ⟨hentry _ _ hsome h.1, ih h.2⟩

theorem follow_of_admits {links : Nat}
    (hentry : ∀ entry rest, (t.node? entry).isSome = true →
      admits entry rest = true → admits' entry rest = true)
    (h : t.follow admits links loc steps = .ok last) :
    t.follow admits' links loc steps = .ok last := by
  induction links generalizing loc steps with
  | zero => exact walk_of_admits hentry (fun _ _ hlink => by cases hlink) h
  | succ links ih => exact walk_of_admits hentry (fun _ _ hlink => ih hlink) h

theorem locate_eq_ok_iff : t.locate p = .ok loc ↔ p.Fits ∧ t.reach p = .ok loc := by
  unfold locate Path.Fits
  cases hrefusal : refusal? p with
  | some e => simp
  | none =>
    by_cases hsize : maxPathBytes ≤ p.text.utf8ByteSize
    · simp [hsize, Nat.not_lt.mpr hsize]
    · simp [hsize, Nat.not_le.mp hsize]

/-- The canonical path of a place that a path leads to is the path to it, if there is
one. -/
theorem canonical?_of_locate (h : t.locate p = .ok loc) :
    t.canonical? p = some (Path.ofLocation loc) ∨ t.canonical? p = none := by
  obtain ⟨⟨hrefusal, -⟩, hreach⟩ := locate_eq_ok_iff.mp h
  simp only [canonical?, hrefusal]
  cases hfollow : t.follow isNameable maxLinks (t.start p) p.steps with
  | error e => exact .inr rfl
  | ok last =>
    have hlast : t.reach p = .ok last := follow_of_admits (fun _ _ _ _ => rfl) hfollow
    rw [hreach] at hlast
    cases hlast
    exact .inl rfl

end Places

/-! ## Building a tree -/

/-- Puts a node at a location, in place of what stood there. -/
def insert (t : FileTree) (loc : Location) (node : Node) : FileTree where
  nodes := (loc, node) :: t.nodes.filter fun entry => entry.1 != loc
  nodup := by
    refine List.nodup_cons.mpr ⟨?_, ?_⟩
    · simp
    · exact t.nodup.sublist (List.filter_sublist.map _)
  workingDir := t.workingDir

/-- Goes along the steps from a location and makes the directories that are
missing; the location reached comes with the tree. -/
def makeDirs (t : FileTree) (loc : Location) : List Component → FileTree × Location
  | [] => (t, loc)
  | step :: rest =>
    match t.follow anyEntry maxLinks loc [step], step with
    | .error _, .name n => makeDirs (t.insert (n :: loc) .directory) (n :: loc) rest
    | .error _, _ => makeDirs t loc rest
    | .ok loc, _ => makeDirs t loc rest

/-- Puts a node where the path leads to, in directories that are made if they
are missing. -/
def place (t : FileTree) (p : Path) (node : Node) : FileTree :=
  match p.components.getLast? with
  | some (.name n) =>
    let (t, loc) := t.makeDirs (t.start p) p.components.dropLast
    t.insert (n :: loc) node
  | _ => t

/-- Makes the directory that the path leads to, and those it lies in. -/
def placeDir (t : FileTree) (p : Path) : FileTree :=
  (t.makeDirs (t.start p) p.components).1

/-- Makes the directory that the path leads to and lets relative paths start
there. -/
def enterDir (t : FileTree) (p : Path) : FileTree :=
  let (t, loc) := t.makeDirs (t.start p) p.components
  { t with workingDir := loc }

end FileTree

end ConfTree
