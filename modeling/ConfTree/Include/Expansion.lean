import ConfTree.Include.Headroom

/-!
# Expanding all includes of a stream

All that is needed to find the includes of a stream is whether a statement starts
at the next token. So a stream can be expanded without building anything: the
result is the stream that would have been read had the included files been
written in place of their includes.
-/

namespace ConfTree.Include

/-- Whether a statement starts behind the token, from whether one started at
it. -/
def startsBehind (atStart : Bool) (token : Token) : Bool :=
  token.endsStatement || token.opensBlock || (atStart && token.closesBlock)

/-- The tokens that take the place of an include in front of `rest`, with those
that remain of `rest`. None if its argument is missing or cannot be imported. -/
def replacement? (t : FileTree) (s : Settings) (first : Tracked) :
    (rest : List Tracked) → Option (List Tracked × List Tracked)
  | [] => none
  | argument :: rest =>
    if argument.token.isMark then none
    else match importTokens t s argument.token.text first.trail with
      | .error _ => none
      | .ok new => some (new, rest)

theorem consumes_of_replacement? {t : FileTree} {s : Settings} {first : Tracked}
    {rest new behind : List Tracked} (h : replacement? t s first rest = some (new, behind)) :
    Consumes t ⟨new ++ behind⟩ ⟨first :: rest⟩ := by
  unfold replacement? at h
  split at h
  · cases h
  · next argument rest =>
    split at h
    · cases h
    · split at h
      · cases h
      · next new hnew =>
        cases h
        exact Consumes.step first new [argument] _ (headroom_lt_of_mem_importTokens hnew)

/-- Expands the includes of `pending` behind the tokens of `read`, whose last
token comes first. None if an include cannot be expanded or the stream gets
longer than allowed. -/
def expandOnto (t : FileTree) (s : Settings) (read : List Tracked) (atStart : Bool)
    (pending : List Tracked) : Option (List Tracked) :=
  match pending with
  | [] => some read.reverse
  | first :: rest =>
    if atStart && first.token.isInclude then
      match _h : replacement? t s first rest with
      | none => none
      | some (new, behind) =>
        if s.limits.tokens < read.length + (new ++ behind).length then none
        else expandOnto t s read true (new ++ behind)
    else expandOnto t s (first :: read) (startsBehind atStart first.token) rest
termination_by (⟨pending⟩ : Stream t)
decreasing_by
  · exact consumes_of_replacement? _h
  · exact Consumes.step first [] [] rest (by simp)

/-- Expands the includes of a stream that starts a statement. -/
def expand (t : FileTree) (s : Settings) (pending : List Tracked) : Option (List Tracked) :=
  if s.limits.tokens < pending.length then none else expandOnto t s [] true pending

end ConfTree.Include
