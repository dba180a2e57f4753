import ConfTree.Include.Import

/-!
# Why expanding includes comes to an end

A stream of tokens grows whenever an include is expanded. Yet every token that
takes the place of an include has one more file on its trail, and no trail mentions
a file twice by the same path. There are only so many paths that a file can be known
by: the canonical paths of the files in the tree, and the paths that are short enough
to be looked up. So the number of those that a trail does not mention yet, its
headroom, gets smaller from an include to the tokens that replace it.

* `FileTree.identity_mem_keys_of_load`: by which paths files are known.
* `origin_of_mem_importTokens`: tokens that replace an include come from a file
  that was entered from there.
* `headroom_lt_of_mem_importTokens`: they have less headroom than the include.
* `Consumes.wellFounded`: no stream can be consumed without end if every step
  replaces its first token by tokens of less headroom, and may drop some of those
  that follow.
-/

namespace ConfTree

/-- All texts of at most so many characters. -/
def textsUpTo : Nat → List String
  | 0 => [""]
  | n + 1 =>
    textsUpTo n ++ (textsUpTo n).flatMap fun text =>
      (List.range 0x110000).map fun code => text.push (Char.ofNat code)

theorem empty_mem_textsUpTo (n : Nat) : "" ∈ textsUpTo n := by
  induction n with
  | zero => exact List.mem_singleton.mpr rfl
  | succ n ih => exact List.mem_append_left _ ih

theorem toNat_lt_of_char (c : Char) : c.toNat < 0x110000 := by
  rcases c.valid with h | h
  · exact Nat.lt_trans h (by decide)
  · exact h.2

/-- A text has at most as many characters as bytes. -/
theorem mem_textsUpTo {text : String} {n : Nat} (h : text.utf8ByteSize ≤ n) :
    text ∈ textsUpTo n := by
  induction text using String.push_induction generalizing n with
  | empty => exact empty_mem_textsUpTo n
  | push text c ih =>
    rw [String.utf8ByteSize_push] at h
    have hc := c.utf8Size_pos
    obtain ⟨m, rfl⟩ : ∃ m, n = m + 1 := ⟨n - 1, by omega⟩
    refine List.mem_append_right _ (List.mem_flatMap.mpr ⟨text, ih (by omega), ?_⟩)
    exact List.mem_map.mpr
      ⟨c.toNat, List.mem_range.mpr (toNat_lt_of_char c), by rw [Char.ofNat_toNat]⟩

theorem Path.same_self (p : Path) : p.same p = true := by
  simp [Path.same]

namespace FileTree

variable {t : FileTree} {p : Path} {loc : Location}

theorem mem_files_of_node? {content : Source} {executable : Bool}
    (h : t.node? loc = some (.file content executable)) : loc ∈ t.files := by
  unfold FileTree.node? at h
  split at h
  · cases h
  · have hmem : (loc, Node.file content executable) ∈ t.nodes := by
      obtain ⟨l₁, l₂, hl, _⟩ := List.lookup_eq_some_iff.mp h
      simp [hl]
    exact List.mem_map.mpr ⟨_, List.mem_filter.mpr ⟨hmem, rfl⟩, rfl⟩

/-- A path that can be loaded leads to a file of the tree. -/
theorem exists_of_load {limits : Limits} {tokens : List Token} (h : load t limits p = .ok tokens) :
    ∃ loc ∈ t.files, t.locate p = .ok loc := by
  unfold load at h
  split at h
  · cases h
  · next content executable hs =>
    obtain ⟨loc, hl, hs⟩ := bind_eq_ok_iff.mp hs
    split at hs
    · next node hn =>
      cases hs
      exact ⟨loc, mem_files_of_node? hn, hl⟩
    · cases hs
  · cases h

/-- The file at `loc` is known by its canonical path or, if the path `p` that leads there
has none, by this one. -/
def KnowsBy (t : FileTree) (p : Path) (loc : Location) (key : Path) : Prop :=
  t.canonical? p = some key ∧ key = Path.ofLocation loc ∨ t.canonical? p = none ∧ key = p

theorem knowsBy_of_locate (h : t.locate p = .ok loc) : t.KnowsBy p loc (t.identity p) := by
  rcases canonical?_of_locate h with hc | hc
  · exact .inl ⟨by rw [identity, hc, Option.getD_some], by rw [identity, hc, Option.getD_some]⟩
  · exact .inr ⟨hc, by rw [identity, hc, Option.getD_none]⟩

/-- All paths by which files can be known. -/
def keys (t : FileTree) : List Path :=
  t.files.map Path.ofLocation ++ (textsUpTo maxPathBytes).map Path.mk

theorem KnowsBy.mem_keys {key : Path} (h : t.KnowsBy p loc key) (hmem : loc ∈ t.files)
    (hlocate : t.locate p = .ok loc) : key ∈ t.keys := by
  rcases h with ⟨-, hkey⟩ | ⟨-, hkey⟩
  · rw [hkey]
    exact List.mem_append_left _ (List.mem_map_of_mem hmem)
  · have hsize := (locate_eq_ok_iff.mp hlocate).1.2
    rw [hkey]
    exact List.mem_append_right _
      (List.mem_map.mpr ⟨p.text, mem_textsUpTo (Nat.le_of_lt hsize), rfl⟩)

theorem identity_mem_keys_of_load {limits : Limits} {tokens : List Token}
    (h : load t limits p = .ok tokens) : t.identity p ∈ t.keys := by
  obtain ⟨loc, hmem, hlocate⟩ := exists_of_load h
  exact (knowsBy_of_locate hlocate).mem_keys hmem hlocate

end FileTree

/-- How many of the paths by which files can be known the trail does not mention. -/
def Trail.headroom (t : FileTree) (c : Trail) : Nat :=
  (t.keys.filter fun key => !c.mentions key).length

/-- The headroom of the trail of the token. -/
def Tracked.headroom (t : FileTree) (p : Tracked) : Nat := p.trail.headroom t

/-- Entering a file leaves less headroom. -/
theorem Trail.headroom_extend_lt {t : FileTree} {c : Trail} {key : Path} (hmem : key ∈ t.keys)
    (hnew : c.mentions key = false) : (c.extend key).headroom t < c.headroom t := by
  have hsub : (t.keys.filter fun k => !(c.extend key).mentions k) =
      (t.keys.filter fun k => !c.mentions k).filter fun k => !key.same k := by
    rw [List.filter_filter]
    simp [Trail.mentions_extend, Bool.and_comm]
  unfold Trail.headroom
  rw [hsub, List.length_filter_lt_length_iff_exists]
  exact ⟨key, by simp [hmem, hnew], by simp [Path.same_self]⟩

namespace Include

section Imports

variable {t : FileTree} {c : Trail} {new : List Tracked}

theorem origin_of_mem_importFile {limits : Limits} {p : Path}
    (h : importFile t limits c p = .ok new) :
    ∀ q ∈ new, ∃ tokens, c.enter t p limits.includeDepth = .ok q.trail ∧
      load t limits p = .ok tokens ∧ q.token ∈ tokens := by
  obtain ⟨inner, he, h⟩ := bind_eq_ok_iff.mp h
  obtain ⟨tokens, hl, h⟩ := bind_eq_ok_iff.mp h
  cases h
  intro q hq
  obtain ⟨token, htoken, rfl⟩ := List.mem_map.mp hq
  exact ⟨tokens, he, hl, htoken⟩

theorem origin_of_mem_importFiles {limits : Limits} {ps : List Path}
    (h : importFiles t limits c ps = .ok new) :
    ∀ q ∈ new, ∃ p ∈ ps, ∃ tokens, c.enter t p limits.includeDepth = .ok q.trail ∧
      load t limits p = .ok tokens ∧ q.token ∈ tokens := by
  induction ps generalizing new with
  | nil =>
    cases h
    simp
  | cons p ps ih =>
    obtain ⟨these, hp, h⟩ := bind_eq_ok_iff.mp h
    obtain ⟨those, hps, h⟩ := bind_eq_ok_iff.mp h
    cases h
    intro q hq
    rcases List.mem_append.mp hq with hq | hq
    · exact ⟨p, List.mem_cons_self, origin_of_mem_importFile hp q hq⟩
    · obtain ⟨r, hr, horigin⟩ := ih hps q hq
      exact ⟨r, List.mem_cons_of_mem _ hr, horigin⟩

/-- A token that takes the place of an include is one of a file that the include
stands for, and its trail leads from that of the include to this file. -/
theorem origin_of_mem_importTokens {s : Settings} {argument : String}
    (h : importTokens t s argument c = .ok new) :
    ∃ files, resolve t s.layout argument = .ok files ∧
      ∀ q ∈ new, ∃ p ∈ files, ∃ tokens, c.enter t p s.limits.includeDepth = .ok q.trail ∧
        load t s.limits p = .ok tokens ∧ q.token ∈ tokens := by
  obtain ⟨files, hfiles, h⟩ := bind_eq_ok_iff.mp h
  refine ⟨files, hfiles, ?_⟩
  split at h
  · cases h
  · exact origin_of_mem_importFiles h

/-- Tokens that take the place of an include have less headroom than the
include. -/
theorem headroom_lt_of_mem_importTokens {s : Settings} {argument : String}
    (h : importTokens t s argument c = .ok new) :
    ∀ q ∈ new, q.headroom t < c.headroom t := by
  intro q hq
  obtain ⟨files, _, horigin⟩ := origin_of_mem_importTokens h
  obtain ⟨p, _, tokens, he, hl, _⟩ := horigin q hq
  obtain ⟨hnew, _, htrail⟩ := Trail.enter_eq_ok_iff.mp he
  rw [Tracked.headroom, htrail]
  exact Trail.headroom_extend_lt (FileTree.identity_mem_keys_of_load hl) hnew

end Imports

end Include

/-- Streams of tokens, in the order in which they are consumed. -/
structure Stream (t : FileTree) where
  pending : List Tracked

/-- One step of consuming a stream: tokens of less headroom take the place of
the first token, and some of those that follow may go too. -/
inductive Consumes (t : FileTree) : Stream t → Stream t → Prop
  | step (first : Tracked) (new dropped rest : List Tracked) :
      (∀ q ∈ new, q.headroom t < first.headroom t) →
      Consumes t ⟨new ++ rest⟩ ⟨first :: (dropped ++ rest)⟩

namespace Consumes

/-- What remains of a stream that is consumed in finitely many steps is itself
consumed in finitely many. -/
theorem acc_of_append {t : FileTree} (dropped rest : List Tracked)
    (h : Acc (Consumes t) ⟨dropped ++ rest⟩) : Acc (Consumes t) ⟨rest⟩ := by
  induction dropped with
  | nil => exact h
  | cons first dropped ih =>
    refine ih (h.inv ?_)
    exact Consumes.step first [] [] (dropped ++ rest) (by simp)

/-- If each of some tokens may stand in front of every stream that is consumed in
finitely many steps, so may all of them. -/
theorem acc_append {t : FileTree} (new rest : List Tracked) (hrest : Acc (Consumes t) ⟨rest⟩)
    (h : ∀ q ∈ new, ∀ l, Acc (Consumes t) ⟨l⟩ → Acc (Consumes t) ⟨q :: l⟩) :
    Acc (Consumes t) ⟨new ++ rest⟩ := by
  induction new with
  | nil => exact hrest
  | cons q new ih =>
    exact h q (by simp) _ (ih fun p hp => h p (by simp [hp]))

/-- Every token may stand in front of a stream that is consumed in finitely many
steps, since what replaces the token may. -/
theorem acc_cons {t : FileTree} (n : Nat) (first : Tracked) (hn : first.headroom t = n)
    (rest : List Tracked) (hrest : Acc (Consumes t) ⟨rest⟩) :
    Acc (Consumes t) ⟨first :: rest⟩ := by
  induction n using Nat.strongRecOn generalizing first rest with
  | _ n ih =>
    refine Acc.intro _ fun s hs => ?_
    cases hs with
    | step _ new dropped rest' hnew =>
      refine acc_append new rest' (acc_of_append dropped rest' hrest) fun q hq l hl => ?_
      exact ih _ (hn ▸ hnew q hq) q rfl l hl

/-- Consuming a stream comes to an end. -/
theorem wellFounded (t : FileTree) : WellFounded (Consumes t) := by
  refine ⟨fun s => ?_⟩
  obtain ⟨pending⟩ := s
  induction pending with
  | nil => exact Acc.intro _ fun _ hs => nomatch hs
  | cons first rest ih => exact acc_cons _ first rfl rest ih

end Consumes

instance (t : FileTree) : WellFoundedRelation (Stream t) := ⟨Consumes t, Consumes.wellFounded t⟩

end ConfTree
