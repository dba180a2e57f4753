import ConfTree.Proofs.FileTree.Canonical
import ConfTree.Proofs.Parser.Descent
import Mathlib.Data.List.Basic

/-!
# The trails of a stream

Trails grow file by file. A path that is on a trail is not entered again, and a file
whose tokens join the stream is a file of the tree, known by its canonical path if the
path that leads there has one. So the trails in a stream are as short as the tree is
small, however includes are nested and linked, as long as no file lies too deep to have
a canonical path. Those that do can be on a trail by each path that leads there.

1. `Trail.IsSimple`: a trail leads through files of the tree, by different paths.
   `Trail.IsSimple.depth_le`, `Trail.IsSimple.spelled_eq_nil`: how long it is.
2. `Trail.IsSimple.enter`: entering a path keeps paths apart, even if it leads nowhere.
   `enter_of_deep`: a file that lies too deep is entered by any new path.
3. `isSimple_of_reaches`: all trails in the stream of a parser are simple.
-/

namespace ConfTree

/-! ## 1. Simple trails -/

/-- The trail leads through files of the tree.

* `distinct`: no path is on it twice.
* `known`: what was entered is a file of the tree, and goes by the path that it is known
  by to those who come by the path `p`. -/
structure Trail.IsSimple (t : FileTree) (c : Trail) : Prop where
  distinct : c.files.Pairwise fun a b => a.same b = false
  known : ∀ key ∈ c.entered, ∃ p, ∃ loc ∈ t.files, t.locate p = .ok loc ∧ t.KnowsBy p loc key

/-- What was entered and goes by another path than the canonical path of a file. -/
def Trail.spelled (t : FileTree) (c : Trail) : List Path :=
  c.entered.filter fun key => !(t.files.map Path.ofLocation).contains key

namespace Trail

theorem files_extend (c : Trail) (key : Path) : (c.extend key).files = c.files ++ [key] := by
  simp [files, extend]

theorem depth_extend (c : Trail) (key : Path) : (c.extend key).depth = c.depth + 1 := by
  simp [depth, extend]

theorem mentions_eq_false_iff {c : Trail} {key : Path} :
    c.mentions key = false ↔ ∀ file ∈ c.files, file.same key = false := by
  simp [mentions]

/-- A file that is not on the trail may follow on it. -/
theorem distinct_extend {c : Trail} {key : Path}
    (h : c.files.Pairwise fun a b => a.same b = false) (hkey : c.mentions key = false) :
    (c.extend key).files.Pairwise fun a b => a.same b = false := by
  rw [files_extend, List.pairwise_append]
  refine ⟨h, List.pairwise_singleton _ _, fun file hfile other hother => ?_⟩
  rw [List.mem_singleton.mp hother]
  exact mentions_eq_false_iff.mp hkey file hfile

namespace IsSimple

variable {t : FileTree} {c inner : Trail} {p : Path} {maxDepth : Nat}

theorem ofSource (t : FileTree) (source : Path) : IsSimple t (Trail.ofSource t source) where
  distinct := List.pairwise_singleton _ _
  known := fun _ hkey => absurd hkey List.not_mem_nil

theorem nodup (h : IsSimple t c) : c.entered.Nodup := by
  refine (List.pairwise_cons.mp h.distinct).2.imp fun {a b} hab heq => ?_
  rw [heq, Path.same_self] at hab
  cases hab

/-- A simple trail is no longer than there are paths by which files can be known. -/
theorem depth_le_keys (h : IsSimple t c) : c.depth ≤ t.keys.length := by
  refine h.nodup.length_le_of_subset fun key hkey => ?_
  obtain ⟨p, loc, hmem, hlocate, hknows⟩ := h.known key hkey
  exact hknows.mem_keys hmem hlocate

/-- It is no longer than there are files in the tree, but for those that go by another path
than their canonical one. -/
theorem depth_le (h : IsSimple t c) : c.depth ≤ t.files.length + (c.spelled t).length := by
  have hcanonical :
      (c.entered.filter (t.files.map Path.ofLocation).contains).length ≤ t.files.length := by
    rw [← t.files.length_map (f := Path.ofLocation)]
    refine List.Nodup.length_le_of_subset (h.nodup.filter _) fun key hkey => ?_
    exact List.contains_iff_mem.mp (List.mem_filter.mp hkey).2
  have hsplit := c.entered.length_eq_length_filter_add (t.files.map Path.ofLocation).contains
  unfold depth spelled
  omega

/-- These have no canonical path where they lead to. -/
theorem of_mem_spelled (h : IsSimple t c) {key : Path} (hkey : key ∈ c.spelled t) :
    t.canonical? key = none ∧ ∃ loc ∈ t.files, t.locate key = .ok loc := by
  obtain ⟨hentered, hother⟩ := List.mem_filter.mp hkey
  obtain ⟨p, loc, hmem, hlocate, ⟨-, rfl⟩ | ⟨hnone, rfl⟩⟩ := h.known key hentered
  · have hlisted : (t.files.map Path.ofLocation).contains (Path.ofLocation loc) = true :=
      List.contains_iff_mem.mpr (List.mem_map_of_mem hmem)
    rw [hlisted] at hother
    cases hother
  · exact ⟨hnone, loc, hmem, hlocate⟩

/-- There are none where no file lies too deep. -/
theorem spelled_eq_nil (h : IsSimple t c) (ht : t.IsShallow) : c.spelled t = [] := by
  refine List.eq_nil_iff_forall_not_mem.mpr fun key hkey => ?_
  obtain ⟨hnone, loc, -, hlocate⟩ := h.of_mem_spelled hkey
  rw [ht.canonical?_of_locate hlocate] at hnone
  cases hnone

theorem depth_le_files (h : IsSimple t c) (ht : t.IsShallow) : c.depth ≤ t.files.length := by
  have hdepth := h.depth_le
  rwa [h.spelled_eq_nil ht] at hdepth

/-! ## 2. Entering -/

/-- Entering any path keeps the paths of the trail apart, and adds one. -/
theorem enter (h : IsSimple t c) (he : c.enter t p maxDepth = .ok inner) :
    (inner.files.Pairwise fun a b => a.same b = false) ∧ inner.depth = c.depth + 1 := by
  obtain ⟨hnew, _, rfl⟩ := enter_eq_ok_iff.mp he
  exact ⟨distinct_extend h.distinct hnew, depth_extend c _⟩

/-- Entering a file that can be loaded leads to a simple trail. -/
theorem enter_load {limits : Limits} {tokens : List Token} (h : IsSimple t c)
    (he : c.enter t p maxDepth = .ok inner) (hl : load t limits p = .ok tokens) :
    IsSimple t inner := by
  obtain ⟨hdistinct, -⟩ := h.enter he
  obtain ⟨-, _, rfl⟩ := enter_eq_ok_iff.mp he
  obtain ⟨loc, hmem, hlocate⟩ := FileTree.exists_of_load hl
  refine ⟨hdistinct, fun key hkey => ?_⟩
  rcases List.mem_append.mp hkey with hkey | hkey
  · exact h.known key hkey
  · rw [List.mem_singleton.mp hkey]
    exact ⟨p, loc, hmem, hlocate, FileTree.knowsBy_of_locate hlocate⟩

end IsSimple

/-- A file that lies too deep is entered by any path that is not on the trail, even if
another path that leads there is. -/
theorem enter_of_deep {t : FileTree} {c : Trail} {p : Path} {loc : Location} {maxDepth : Nat}
    (hdir : FileTree.bytesTo t.workingDir < FileTree.maxPathBytes) (hlocate : t.locate p = .ok loc)
    (hdeep : FileTree.maxPathBytes ≤ FileTree.bytesTo loc) (hnew : c.mentions p = false)
    (hdepth : c.depth < maxDepth) : c.enter t p maxDepth = .ok (c.extend p) := by
  have hid : t.identity p = p := by
    rw [FileTree.identity, FileTree.canonical?_eq_none_of_deep hdir hlocate hdeep,
      Option.getD_none]
  rw [enter_eq_ok_iff, hid]
  exact ⟨hnew, hdepth, rfl⟩

end Trail

/-! ## 3. The trails of a stream -/

/-- Tokens that take the place of an include have simple trails if the include
has. -/
theorem Include.isSimple_of_mem_importTokens {t : FileTree} {s : Settings} {c : Trail}
    {argument : String} {new : List Tracked} (hc : c.IsSimple t)
    (h : importTokens t s argument c = .ok new) : ∀ q ∈ new, q.trail.IsSimple t := by
  intro q hq
  obtain ⟨files, _, horigin⟩ := origin_of_mem_importTokens h
  obtain ⟨p, _, tokens, he, hl, _⟩ := horigin q hq
  exact hc.enter_load he hl

namespace Parser

variable {t : FileTree} {s : Settings} {p q : Parser}

/-- A step keeps the trails of the stream simple. -/
theorem Move.isSimple (h : Move t s p q) (hp : ∀ x ∈ p.pending, x.trail.IsSimple t) :
    ∀ x ∈ q.pending, x.trail.IsSimple t := by
  cases h with
  | take hpending _ =>
    rw [hpending] at hp
    exact fun x hx => hp x (List.mem_cons_of_mem _ hx)
  | splice hpending _ _ hnew _ =>
    rw [hpending] at hp
    intro x hx
    rcases List.mem_append.mp hx with hx | hx
    · exact Include.isSimple_of_mem_importTokens (hp _ List.mem_cons_self) hnew x hx
    · exact hp x (List.mem_cons_of_mem _ (List.mem_cons_of_mem _ hx))

/-- All trails in the stream of a parser that reads a text are simple. -/
theorem isSimple_of_reaches {source : String} {tokens : List Token}
    (h : Reaches t s (ofTokens t source tokens) q) : ∀ x ∈ q.pending, x.trail.IsSimple t := by
  refine reaches_induction (motive := fun q => ∀ x ∈ q.pending, x.trail.IsSimple t) ?_
    (fun _ _ hq hmove => hmove.isSimple hq) h
  intro x hx
  obtain ⟨token, _, rfl⟩ := List.mem_map.mp hx
  exact Trail.IsSimple.ofSource t _

end Parser

end ConfTree
