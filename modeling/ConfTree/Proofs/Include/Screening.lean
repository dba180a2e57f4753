import ConfTree.Proofs.Include.Faults
import ConfTree.Proofs.Include.Lookup

/-!
# Which patterns are searched for

An argument that asks for too much is refused: by its wildcards, or because one of its
brackets opens no class. The second is only noticed when a pattern is compiled, and there
the argument stands behind the name of a directory, which may hold any characters. But the
name is escaped, and each of its brackets is closed before the argument begins.

1. `handed`, `resolve_congr`: the patterns that are searched for, and no others.
   `Shields`, `of_mem_handed`: where the directories of the layout stand in them.
2. `not_double_of_screen`: an argument that is not refused has no `**`, and so no pattern
   has one.
3. `IsExcessive`, `resolve_of_isExcessive`: arguments that ask for too much.
   `screening`: what is refused, and what is searched for.
-/

namespace ConfTree.Include

open Glob

variable {t t' : FileTree} {l : Layout} {cleaned rel : Path} {pattern : String}
  {config own : List Char}

/-! ## 1. Patterns -/

/-- The patterns that are searched for when a cleaned argument is looked up, in order. Those
behind the first are left out if it is absolute and found. -/
def handed (l : Layout) (cleaned : Path) : List String :=
  (if cleaned.isAbsolute then [cleaned.text] else []) ++
    if l.isStandard cleaned.stripRoot.text then [] else searchPatterns l cleaned.stripRoot

theorem findAll_congr {patterns : List String}
    (h : ∀ pattern ∈ patterns, find t pattern = find t' pattern) :
    findAll t patterns = findAll t' patterns := by
  induction patterns with
  | nil => rfl
  | cons pattern patterns ih =>
    obtain ⟨hfirst, hrest⟩ := List.forall_mem_cons.mp h
    rw [findAll, findAll, hfirst, ih hrest]

theorem findCleaned_congr (h : ∀ pattern ∈ handed l cleaned, find t pattern = find t' pattern) :
    findCleaned t l cleaned = findCleaned t' l cleaned := by
  obtain ⟨hdirect, hbelow⟩ := List.forall_mem_append.mp h
  have hfind : findBelow t l cleaned.stripRoot = findBelow t' l cleaned.stripRoot := by
    unfold findBelow
    split
    · rfl
    · next hstandard =>
      rw [if_neg hstandard] at hbelow
      exact findAll_congr hbelow
  rw [findCleaned, findCleaned, hfind]
  split
  · next habs =>
    rw [if_pos habs] at hdirect
    rw [hdirect _ List.mem_cons_self]
  · rfl

/-- File trees in which these patterns stand for the same files are all the same to an
argument. -/
theorem resolve_congr {argument : String}
    (h : ∀ pattern ∈ handed l (Path.clean ⟨argument⟩), find t pattern = find t' pattern) :
    resolve t l argument = resolve t' l argument := by
  rw [resolve, resolve, findCleaned_congr h]

/-- `Shields config own pattern`: the pattern is the text `config`, in which every character
that could have a meaning stands in brackets of its own, and behind it the text `own` as it
is. Both are compiled by themselves. -/
structure Shields (config own : List Char) (pattern : String) : Prop where
  text_eq : pattern.toList = config.flatMap escaped ++ own
  compile_iff : ∀ items, compile pattern.toList = .ok items ↔
    ∃ rest, compile own = .ok rest ∧ items = config.map escapedItem ++ rest

theorem Shields.of_text_eq (h : pattern.toList = config.flatMap escaped ++ own) :
    Shields config own pattern where
  text_eq := h
  compile_iff items := by
    simp only [h, compile_eq_ok_iff]
    exact reads_escaped_append_iff

/-- A path goes on behind another with a separator between them, or with none. -/
theorem exists_text_join (base : Path) (hrel : rel.isAbsolute = false) :
    ∃ gap, (gap = [] ∨ gap = ['/']) ∧
      (base.join rel).text.toList = base.text.toList ++ gap ++ rel.text.toList := by
  rcases base.join_cases with rfl | ⟨text, htext⟩ | hopen
  · exact ⟨[], .inl rfl, by rw [Path.join_empty]; rfl⟩
  · refine ⟨[], .inl rfl, ?_⟩
    rw [Path.join_of_slash htext hrel, htext]
    simp
  · refine ⟨['/'], .inr rfl, ?_⟩
    rw [Path.join_of_isOpen hopen hrel]
    simp

/-- Every directory of the layout is written escaped in front of what is looked up. -/
theorem shields_join (dir : Path) (hrel : rel.isAbsolute = false) :
    ∃ gap, (gap = [] ∨ gap = ['/']) ∧
      Shields (dir.text.toList ++ gap) rel.text.toList ((escapedPath dir).join rel).text := by
  obtain ⟨gap, hgap, htext⟩ := exists_text_join (escapedPath dir) hrel
  refine ⟨gap, hgap, .of_text_eq ?_⟩
  have hplain : gap.flatMap escaped = gap := by
    rcases hgap with rfl | rfl <;> rfl
  rw [htext, List.flatMap_append, hplain, escapedPath, toList_escape]

theorem exists_dir_of_mem (h : pattern ∈ searchPatterns l rel) :
    ∃ dir ∈ l.dirs, pattern = ((escapedPath dir).join rel).text := by
  rcases List.mem_cons.mp h with rfl | h
  · exact ⟨l.root, List.mem_cons_self, rfl⟩
  · obtain ⟨name, hname, rfl⟩ := List.mem_map.mp h
    refine ⟨l.root.join ⟨name⟩, List.mem_cons_of_mem _ (List.mem_map_of_mem hname), ?_⟩
    have hescaped : (escapedPath l.root).join (escapedPath ⟨name⟩) =
        escapedPath (l.root.join ⟨name⟩) := by
      by_cases habs : (Path.mk name).isAbsolute = true
      · -- A subdirectory that is an absolute path is searched where it is.
        have habs' := (isAbsolute_escapedPath ⟨name⟩).trans habs
        rw [Path.join, Path.join, habs, habs']
        rfl
      · exact join_escapedPath l.root (by simpa using habs)
    rw [← hescaped]
    rfl

/-- A pattern that is searched for is the argument itself, or the argument behind a directory
of the layout. -/
theorem of_mem_handed (hrel : cleaned.stripRoot.isAbsolute = false)
    (h : pattern ∈ handed l cleaned) :
    (cleaned.isAbsolute = true ∧ pattern = cleaned.text) ∨
      ∃ dir ∈ l.dirs, ∃ gap, (gap = [] ∨ gap = ['/']) ∧
        Shields (dir.text.toList ++ gap) cleaned.stripRoot.text.toList pattern := by
  rcases List.mem_append.mp h with h | h
  · split at h
    · next habs => exact .inl ⟨habs, List.mem_singleton.mp h⟩
    · cases h
  · split at h
    · cases h
    · obtain ⟨dir, hdir, rfl⟩ := exists_dir_of_mem h
      obtain ⟨gap, hgap, hshields⟩ := shields_join dir hrel
      exact .inr ⟨dir, hdir, gap, hgap, hshields⟩

/-! ## 2. Double stars -/

theorem not_double_of_count (h : own.count '*' ≤ 1) : ¬ ['*', '*'] <:+: own := by
  intro hinfix
  have hcount : ['*', '*'].count '*' ≤ own.count '*' := hinfix.sublist.count_le '*'
  have htwo : ['*', '*'].count '*' = 2 := by decide
  omega

/-- Behind an escaped text there is no `**` that was not there before. -/
theorem not_double_escaped (h : ¬ ['*', '*'] <:+: own) (config : List Char) :
    ¬ ['*', '*'] <:+: config.flatMap escaped ++ own := by
  induction config with
  | nil => exact h
  | cons c config ih =>
    rw [List.flatMap_cons, List.append_assoc, escaped]
    split
    · simp [List.infix_cons_iff, List.cons_prefix_cons, ih]
    · next hmeta =>
      have hstar : c ≠ '*' := by
        rintro rfl
        exact hmeta rfl
      simp [List.infix_cons_iff, List.cons_prefix_cons, ih, hstar.symm]

/-- What is looked up of a cleaned argument is the argument without its root. -/
theorem stripRoot_sublist (p : Path) :
    p.clean.stripRoot.text.toList.Sublist p.clean.text.toList := by
  obtain ⟨hrel, -, heq⟩ := p.stripRoot_clean_cases
  generalize p.clean.stripRoot = rel at hrel heq
  rw [heq]
  split
  · obtain ⟨gap, -, htext⟩ := exists_text_join (.fromRoot []) hrel
    rw [htext]
    exact List.sublist_append_right _ _
  · exact List.Sublist.refl _

/-- Both brackets and a wildcard besides occur in the text. -/
theorem hasBrackets_and_iff {text : String} :
    (hasBrackets text && (0 < text.toList.count '*' || 0 < text.toList.count '?')) = true ↔
      ('[' ∈ text.toList ∧ ']' ∈ text.toList) ∧ ('*' ∈ text.toList ∨ '?' ∈ text.toList) := by
  simp [hasBrackets]

/-- A text is not refused exactly if it has one star at most, one question mark at most, and
neither of them besides both brackets. -/
theorem screen_eq_ok_iff {text : String} :
    screen text = .ok () ↔ text.toList.count '*' ≤ 1 ∧ text.toList.count '?' ≤ 1 ∧
      ('[' ∈ text.toList → ']' ∈ text.toList → '*' ∉ text.toList ∧ '?' ∉ text.toList) := by
  have hnone : screen text = .ok () ↔ refusal? text = none := by
    unfold screen
    cases refusal? text <;> simp
  rw [hnone, refusal?]
  split
  · next hstars => exact iff_of_false (Option.some_ne_none _) fun h => Nat.not_le.mpr hstars h.1
  · next hstars =>
    split
    · next hmarks => exact iff_of_false (Option.some_ne_none _) fun h => Nat.not_le.mpr hmarks h.2.1
    · next hmarks =>
      split
      · next hboth =>
        obtain ⟨⟨hopen, hclose⟩, hwild⟩ := hasBrackets_and_iff.mp hboth
        refine iff_of_false (Option.some_ne_none _) fun h => ?_
        obtain ⟨hstar, hmark⟩ := h.2.2 hopen hclose
        exact hwild.elim hstar hmark
      · next hboth =>
        rw [hasBrackets_and_iff, not_and, not_or] at hboth
        exact iff_of_true rfl ⟨Nat.not_lt.mp hstars, Nat.not_lt.mp hmarks,
          fun hopen hclose => hboth ⟨hopen, hclose⟩⟩

/-- If an argument is not refused, no pattern that is searched for it has a double star. -/
theorem not_double_of_screen {p : Path} (h : screen p.clean.text = .ok ())
    (hpattern : pattern ∈ handed l p.clean) : ¬ ['*', '*'] <:+: pattern.toList := by
  have hcount := (screen_eq_ok_iff.mp h).1
  rcases of_mem_handed p.stripRoot_clean_cases.1 hpattern with ⟨-, rfl⟩ | ⟨dir, -, gap, -, hshields⟩
  · exact not_double_of_count hcount
  · rw [hshields.text_eq]
    refine not_double_escaped (not_double_of_count ?_) _
    exact Nat.le_trans ((stripRoot_sublist p).count_le '*') hcount

/-! ## 3. Arguments that ask for too much -/

/-- The text has two stars, two question marks, or a bracket, be it closed or not, besides a
star or a question mark. -/
def IsExcessive (text : String) : Prop :=
  1 < text.toList.count '*' ∨ 1 < text.toList.count '?' ∨
    '[' ∈ text.toList ∧ ('*' ∈ text.toList ∨ '?' ∈ text.toList)

/-- An excessive text that is not refused has a bracket that is not closed. -/
theorem IsExcessive.of_screen {text : String} (h : IsExcessive text)
    (hscreen : screen text = .ok ()) : '[' ∈ text.toList ∧ ']' ∉ text.toList := by
  obtain ⟨hstars, hmarks, hboth⟩ := screen_eq_ok_iff.mp hscreen
  rcases h with h | h | ⟨hopen, hwild⟩
  · exact absurd hstars (Nat.not_le.mpr h)
  · exact absurd hmarks (Nat.not_le.mpr h)
  · refine ⟨hopen, fun hclose => ?_⟩
    obtain ⟨hstar, hmark⟩ := hboth hopen hclose
    exact hwild.elim hstar hmark

/-- A pattern that cannot be compiled is not searched for. -/
theorem exists_error_of_find (h : ∀ items, compile pattern.toList ≠ .ok items) :
    ∃ f, find t pattern = .error f := by
  cases hcompile : compile pattern.toList with
  | ok items => exact absurd hcompile (h items)
  | error e =>
    have hfiles : findFiles t pattern = .error e := by
      rw [findFiles, Query.ofText, hcompile]
      rfl
    exact ⟨_, by rw [find, hfiles]⟩

/-- A bracket that is not closed is noticed, whatever is escaped in front of it. -/
theorem Shields.exists_error_of_find (h : Shields config own pattern) (hopen : '[' ∈ own)
    (hclose : ']' ∉ own) : ∃ f, find t pattern = .error f := by
  refine Include.exists_error_of_find fun items hitems => ?_
  obtain ⟨rest, hrest, -⟩ := (h.compile_iff items).mp hitems
  exact hclose ((compile_eq_ok_iff.mp hrest).mem_of_mem hopen)

/-- An argument with a bracket that is not closed is looked up nowhere. -/
theorem findCleaned_of_open {p : Path} (hopen : '[' ∈ p.clean.text.toList)
    (hclose : ']' ∉ p.clean.text.toList)
    (hstandard : l.isStandard p.clean.stripRoot.text = false) :
    ∃ f, findCleaned t l p.clean = .error f := by
  obtain ⟨hrel, -, heq⟩ := p.stripRoot_clean_cases
  rw [← Path.isAbsolute_clean p] at heq
  unfold findCleaned
  cases habs : p.clean.isAbsolute with
  | true =>
    have hitself : Shields [] p.clean.text.toList p.clean.text := .of_text_eq rfl
    obtain ⟨f, hf⟩ := hitself.exists_error_of_find (t := t) hopen hclose
    exact ⟨f, by rw [if_pos rfl, hf]; rfl⟩
  | false =>
    rw [habs, if_neg Bool.false_ne_true] at heq
    obtain ⟨gap, -, hshields⟩ := shields_join l.root hrel
    rw [← heq] at hshields
    obtain ⟨f, hf⟩ := hshields.exists_error_of_find (t := t) hopen hclose
    have hbelow : findBelow t l p.clean.stripRoot = .error f := by
      rw [findBelow, hstandard, if_neg Bool.false_ne_true, ← heq]
      exact bind_eq_error_iff.mpr (.inl hf)
    exact ⟨f, hbelow⟩

/-- An excessive argument is refused as a pattern, unless it is a standard file. -/
theorem resolve_of_isExcessive {argument : String} (h : IsExcessive (Path.clean ⟨argument⟩).text)
    (hstandard : l.isStandard (Path.clean ⟨argument⟩).stripRoot.text = false) :
    ∃ f, resolve t l argument = .error f ∧ f.kind = .pattern := by
  cases hscreen : screen (Path.clean ⟨argument⟩).text with
  | error f =>
    obtain ⟨cause, hcause, rfl⟩ := pattern_of_screen hscreen
    exact ⟨_, bind_eq_error_iff.mpr (.inl hscreen), Cause.kind_of_blamesPattern hcause⟩
  | ok u =>
    obtain ⟨hopen, hclose⟩ := h.of_screen hscreen
    obtain ⟨f, hf⟩ := findCleaned_of_open (t := t) hopen hclose hstandard
    obtain ⟨cause, hcause, rfl⟩ := pattern_of_findCleaned hf
    refine ⟨{ cause }, bind_eq_error_iff.mpr (.inr ⟨u, hscreen, ?_⟩),
      Cause.kind_of_blamesPattern hcause⟩
    exact bind_eq_error_iff.mpr (.inl hf)

/-- Whatever the layout, an argument that asks for too much is refused as a pattern, unless it
is a standard file. For any other that is not refused, the files that it stands for depend on
certain patterns only. None of these has a double star, and each is the argument itself, or
the argument behind a directory of the layout: the root, or a subdirectory as seen from
there. Every character of the directory that could have a meaning stands in brackets of its
own, which are closed before the argument begins, so that both are compiled by themselves. -/
theorem screening (t : FileTree) (l : Layout) (argument : String) :
    (IsExcessive (Path.clean ⟨argument⟩).text →
      l.isStandard (Path.clean ⟨argument⟩).stripRoot.text = false →
      ∃ f, resolve t l argument = .error f ∧ f.kind = .pattern) ∧
    (screen (Path.clean ⟨argument⟩).text = .ok () →
      (∀ t', (∀ pattern ∈ handed l (Path.clean ⟨argument⟩), find t pattern = find t' pattern) →
        resolve t l argument = resolve t' l argument) ∧
      ∀ pattern ∈ handed l (Path.clean ⟨argument⟩), ¬ ['*', '*'] <:+: pattern.toList ∧
        ((Path.clean ⟨argument⟩).isAbsolute = true ∧ pattern = (Path.clean ⟨argument⟩).text ∨
          ∃ dir ∈ l.dirs, ∃ gap, (gap = [] ∨ gap = ['/']) ∧
            Shields (dir.text.toList ++ gap) (Path.clean ⟨argument⟩).stripRoot.text.toList
              pattern)) := by
  refine ⟨resolve_of_isExcessive, fun hscreen => ⟨fun t' => resolve_congr, fun pattern hpattern =>
    ⟨not_double_of_screen hscreen hpattern, ?_⟩⟩⟩
  exact of_mem_handed (Path.stripRoot_clean_cases ⟨argument⟩).1 hpattern

/-- A layout whose directories are full of brackets and stars. -/
def bracketLayout : Layout := { root := ⟨"/r]*"⟩, subdirs := ["a[b"] }

/-- The bracket of `x[*` is not closed by one of the root or of the subdirectory, and `y*` is
searched for behind both of them. -/
theorem screening_bracketLayout :
    IsExcessive "x[*" ∧
      (∃ f, resolve .empty bracketLayout "x[*" = .error f ∧ f.kind = .pattern) ∧
      screen "y*" = .ok () ∧
      handed bracketLayout ⟨"y*"⟩ = ["/r[]][*]/y*", "/r[]][*]/a[[]b/y*"] ∧
      ∀ pattern ∈ handed bracketLayout ⟨"y*"⟩, ¬ ['*', '*'] <:+: pattern.toList := by
  have hopen : Path.clean ⟨"x[*"⟩ = ⟨"x[*"⟩ := by decide
  have hstar : Path.clean ⟨"y*"⟩ = ⟨"y*"⟩ := by decide
  have hexcessive : IsExcessive "x[*" := .inr (.inr (by decide))
  have hscreen : screen "y*" = .ok () := screen_eq_ok_iff.mpr (by decide)
  obtain ⟨hrefused, -⟩ := screening .empty bracketLayout "x[*"
  obtain ⟨-, hsearched⟩ := screening .empty bracketLayout "y*"
  rw [hopen] at hrefused
  rw [hstar] at hsearched
  obtain ⟨-, hpatterns⟩ := hsearched hscreen
  exact ⟨hexcessive, hrefused hexcessive (by decide), hscreen, by decide,
    fun pattern hpattern => (hpatterns pattern hpattern).1⟩

end ConfTree.Include
