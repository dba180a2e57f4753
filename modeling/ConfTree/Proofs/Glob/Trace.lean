import ConfTree.Proofs.FileTree.LinkFree
import ConfTree.Proofs.Glob.Search
import Mathlib.Data.List.Forall2

/-!
# The ways that a search takes

Every path that a search finds is made step by step: each piece of the pattern leads one
step on, to an entry that it stands for or to a special entry. So what such a path does to a
place is told by the pattern alone.

1. `Leads`, `of_mem_pieceStep`: the steps that a piece leads on by.
2. `of_mem_search`: the steps of a path that is found.
3. `StandsFor.eq_of_leads`, `standsFor_escapedItems`: pieces that are spelled out.
4. `climbs`, `exists_name_of_leads`: pieces that may lead upwards.
-/

namespace ConfTree.Glob

variable {t : FileTree} {pattern : Pattern} {patterns : List Pattern} {piece : List Char}
  {texts : List (List Char)} {reached p : Path} {c : Component}

/-! ## 1. One piece -/

/-- `Leads pattern c`: the search may take the step `c` for a piece of a pattern.

* `literal`: a piece that leaves no choice is taken as it is written.
* `special`: a piece that leaves a choice may stand for `..` and `.`.
* `entry`: it may stand for the name of an entry. -/
inductive Leads : Pattern → Component → Prop
  | literal {pattern : Pattern} {text : List Char} : pattern.literal? = some text →
      Leads pattern (.ofPiece text)
  | special {pattern : Pattern} {name : String} : pattern.literal? = none →
      name ∈ specialEntries pattern → Leads pattern (.ofPiece name.toList)
  | entry {pattern : Pattern} (n : Name) : pattern.literal? = none →
      pattern.matches n.text.toList = true → Leads pattern (.name n)

theorem mem_specialEntries {name : String} (h : name ∈ specialEntries pattern) :
    (name = ".." ∨ name = ".") ∧ pattern.matches name.toList = true := by
  unfold specialEntries at h
  split at h
  · obtain ⟨hname, hmatches⟩ := List.mem_filter.mp h
    exact ⟨by simpa using hname, hmatches⟩
  · cases h

/-- Going on by one piece, from an absolute path. -/
theorem join_piece_of_isAbsolute (habs : reached.isAbsolute = true) (hslash : '/' ∉ piece) :
    (reached.join ⟨String.ofList piece⟩).isAbsolute = true ∧
      (reached.join ⟨String.ofList piece⟩).steps.getLast? = some (.ofPiece piece) ∧
      ∀ place, (reached.join ⟨String.ofList piece⟩).act place =
        (Component.ofPiece piece).act (reached.act place) := by
  have hpieces : (Path.mk (String.ofList piece)).pieces = [piece] := by
    rw [Path.pieces, String.toList_ofList, List.splitOn_eq_singleton hslash]
  have hrelative : (Path.mk (String.ofList piece)).isAbsolute = false := by
    rw [Path.isAbsolute_eq_false_iff, hpieces]
    simp
  refine ⟨by rw [Path.isAbsolute_join hrelative, habs], ?_, fun place => ?_⟩
  · obtain ⟨front, -, hjoin⟩ := Path.exists_pieces_join reached hrelative
    rw [Path.steps, hjoin, hpieces, List.map_append]
    exact List.getLast?_concat
  · rw [Path.act_join hrelative, Path.act_eq_foldl_steps, Path.steps, hpieces, hrelative]
    rfl

/-- The search goes on by a step that the piece leads on by. -/
theorem of_mem_pieceStep (habs : reached.isAbsolute = true)
    (hslash : ∀ text, pattern.literal? = some text → '/' ∉ text)
    (h : p ∈ pieceStep t reached pattern) :
    p.isAbsolute = true ∧ ∃ c, Leads pattern c ∧ p.steps.getLast? = some c ∧
      ∀ place, p.act place = c.act (reached.act place) := by
  have hjoin (text : String) (hno : '/' ∉ text.toList) :=
    join_piece_of_isAbsolute habs hno
  simp only [String.ofList_toList] at hjoin
  unfold pieceStep at h
  split at h
  · next text hliteral =>
    have htext : p = reached.join ⟨String.ofList text⟩ := by
      rw [← child_of_isAbsolute habs]
      rcases literalStep_cases t reached (String.ofList text) with hstep | hstep
      · rw [hstep] at h
        cases h
      · rw [hstep] at h
        exact List.mem_singleton.mp h
    obtain ⟨hp, hlast, hact⟩ := join_piece_of_isAbsolute habs (hslash text hliteral)
    exact htext ▸ ⟨hp, _, .literal hliteral, hlast, hact⟩
  · next hnone =>
    unfold listingStep at h
    split at h
    · rcases List.mem_append.mp h with h | h
      · obtain ⟨name, hname, rfl⟩ := List.mem_map.mp h
        have hno : '/' ∉ name.toList := by
          rcases (mem_specialEntries hname).1 with rfl | rfl <;> decide
        obtain ⟨hp, hlast, hact⟩ := hjoin name hno
        exact ⟨hp, _, .special hnone hname, hlast, hact⟩
      · obtain ⟨n, hn, rfl⟩ := List.mem_map.mp h
        obtain ⟨hp, hlast, hact⟩ := hjoin n.text n.slash_not_mem
        rw [child_of_isAbsolute habs]
        rw [Component.ofPiece_name] at hlast hact
        exact ⟨hp, _, .entry n hnone (List.mem_filter.mp hn).2, hlast, hact⟩
    · cases h

/-! ## 2. Several pieces -/

/-- A path that is found is made of one step for each piece. -/
theorem of_mem_search (habs : reached.isAbsolute = true)
    (hslash : ∀ pattern ∈ patterns, ∀ text, pattern.literal? = some text → '/' ∉ text)
    (h : p ∈ search t patterns reached) :
    p.isAbsolute = true ∧ ∃ cs, List.Forall₂ Leads patterns cs ∧
      (∀ c, cs.getLast? = some c → p.steps.getLast? = some c) ∧
      ∀ place, p.act place = cs.foldl (fun place c => c.act place) (reached.act place) := by
  induction patterns generalizing reached with
  | nil =>
    rw [search, List.mem_singleton] at h
    subst h
    exact ⟨habs, [], .nil, by simp, fun _ => rfl⟩
  | cons pattern patterns ih =>
    obtain ⟨hfirst, hrest⟩ := List.forall_mem_cons.mp hslash
    rw [search, List.mem_flatMap] at h
    obtain ⟨next, hnext, hp⟩ := h
    obtain ⟨hnextAbs, c, hc, hlast, hact⟩ := of_mem_pieceStep habs hfirst hnext
    obtain ⟨hpAbs, cs, hcs, hend, hfold⟩ := ih hnextAbs hrest hp
    refine ⟨hpAbs, c :: cs, .cons hc hcs, fun last hlast' => ?_, fun place => ?_⟩
    · cases cs with
      | nil =>
        -- The path is the one that the last piece led to.
        cases hcs
        rw [search, List.mem_singleton] at hp
        cases hlast'
        exact hp ▸ hlast
      | cons c' cs => exact hend last (by simpa using hlast')
    · rw [hfold, hact, List.foldl_cons]

/-- No step leads to the root. -/
theorem Leads.cases (h : Leads pattern c) : c = .here ∨ c = .up ∨ ∃ n, c = .name n := by
  have hpiece (piece : List Char) : Component.ofPiece piece = .here ∨
      Component.ofPiece piece = .up ∨ ∃ n, Component.ofPiece piece = .name n := by
    rw [Component.ofPiece]
    cases hpiece : Component.ofPiece? piece with
    | none => exact .inl rfl
    | some c =>
      cases (Component.isMove_of_ofPiece? hpiece).1 with
      | up => exact .inr (.inl rfl)
      | name n => exact .inr (.inr ⟨n, rfl⟩)
  cases h with
  | literal _ => exact hpiece _
  | special _ _ => exact hpiece _
  | entry n _ _ => exact .inr (.inr ⟨n, rfl⟩)

/-- The last step to a file is to an entry. -/
theorem exists_getLast?_name {cs : List Component} (habs : p.isAbsolute = true)
    (hfile : t.isFile p = true) (hcs : List.Forall₂ Leads patterns cs) (hne : patterns ≠ [])
    (hlast : ∀ c, cs.getLast? = some c → p.steps.getLast? = some c) :
    ∃ n, cs.getLast? = some (.name n) := by
  have hleads : ∀ c ∈ cs, ∃ pattern, Leads pattern c := by
    clear hlast hne
    induction hcs with
    | nil => exact fun _ hc => absurd hc List.not_mem_nil
    | cons h _ ih => exact List.forall_mem_cons.mpr ⟨⟨_, h⟩, ih⟩
  obtain ⟨c, hc⟩ : ∃ c, cs.getLast? = some c := by
    refine Option.ne_none_iff_exists'.mp fun hnone => hne ?_
    rw [List.getLast?_eq_none_iff] at hnone
    subst hnone
    cases hcs
    rfl
  obtain ⟨pattern, hpattern⟩ := hleads c (List.mem_of_getLast? hc)
  have hdots (hdot : c = .here ∨ c = .up) : False := by
    rw [FileTree.isFile_eq_false_of_steps habs (hlast c hc) hdot] at hfile
    exact Bool.false_ne_true hfile
  rcases hpattern.cases with h | h | ⟨n, rfl⟩
  · exact absurd (.inl h) hdots
  · exact absurd (.inr h) hdots
  · exact ⟨n, hc⟩

theorem Reads.literal?_eq {text other : List Char} (h : Reads text pattern)
    (hliteral : pattern.literal? = some other) : other = text := by
  induction h generalizing other with
  | nil =>
    cases hliteral
    rfl
  | any _ _ => cases hliteral
  | many _ _ => cases hliteral
  | oneOf hclass _ _ =>
    obtain ⟨negated, ms, rfl⟩ := exists_oneOf_of_classItem? hclass
    cases hliteral
  | char _ _ ih =>
    obtain ⟨rest, hrest, rfl⟩ := Option.map_eq_some_iff.mp hliteral
    rw [ih hrest]

/-- No piece of a text leads on by more than a piece. -/
theorem ReadsAll.slash_not_mem_literal (h : ReadsAll texts patterns)
    (hslash : ∀ x ∈ texts, '/' ∉ x) :
    ∀ pattern ∈ patterns, ∀ text, pattern.literal? = some text → '/' ∉ text := by
  induction h with
  | nil => exact fun _ hmem => absurd hmem List.not_mem_nil
  | cons hread _ ih =>
    obtain ⟨hfirst, hrest⟩ := List.forall_mem_cons.mp hslash
    refine List.forall_mem_cons.mpr ⟨fun text hliteral => ?_, ih hrest⟩
    rwa [hread.literal?_eq hliteral]

/-! ## 3. Pieces that are spelled out -/

theorem StandsFor.literal?_eq {text : List Char} (h : StandsFor pattern piece)
    (hliteral : pattern.literal? = some text) : text = piece := by
  cases h with
  | literal hother => exact Option.some.inj (hliteral.symm.trans hother)
  | name n hnone _ => simp [hnone] at hliteral

/-- A piece that stands for one text leads on by this text. -/
theorem StandsFor.eq_of_leads (h : StandsFor pattern piece) (hc : Leads pattern c) :
    c = .ofPiece piece := by
  cases h with
  | literal hliteral =>
    cases hc with
    | literal hother => rw [(StandsFor.literal hliteral).literal?_eq hother]
    | special hnone _ => simp [hnone] at hliteral
    | entry n hnone _ => simp [hnone] at hliteral
  | name n hnone hmatches =>
    cases hc with
    | literal hliteral => simp [hnone] at hliteral
    | special _ hname =>
      rw [specialEntries_eq_nil hmatches] at hname
      cases hname
    | entry m _ hm =>
      rw [Name.eq_of_text (String.toList_inj.mp ((hmatches _).mp hm)), Component.ofPiece_name]

/-- It leads on in one way at most. -/
theorem StandsFor.length_pieceStep_le (h : StandsFor pattern piece) (t : FileTree)
    (reached : Path) : (pieceStep t reached pattern).length ≤ 1 := by
  unfold pieceStep
  cases h with
  | literal hliteral =>
    simp only [hliteral]
    rcases literalStep_cases t reached (String.ofList piece) with h | h <;> simp [h]
  | name n hnone hmatches =>
    simp only [hnone, listingStep_of_matches reached hmatches]
    split <;> simp

/-- A piece that is escaped stands for itself. -/
theorem standsFor_escapedItems (hslash : '/' ∉ piece) :
    StandsFor (piece.map escapedItem) piece := by
  rcases literal?_escapedItems piece with h | h
  · exact .literal h
  · have hne (text : String) (hplain : Pattern.literal? (text.toList.map escapedItem) ≠ none) :
        String.ofList piece ≠ text := by
      rintro rfl
      rw [String.toList_ofList] at hplain
      exact hplain h
    have hname : isName (String.ofList piece) = true :=
      Name.isName_iff.mpr ⟨hne "" (by decide), hne "." (by decide), hne ".." (by decide),
        by rwa [String.toList_ofList]⟩
    have hstands := StandsFor.name ⟨String.ofList piece, hname⟩ h fun other => by
      rw [matches_escapedItems, String.toList_ofList]
    rwa [String.toList_ofList] at hstands

/-! ## 4. Pieces that lead upwards -/

/-- The search may take `..` for the piece: it leaves a choice, and a dot is written in front
of it. -/
def climbs (piece : List Char) : Bool :=
  match compile piece with
  | .ok pattern => pattern.literal?.isNone && (specialEntries pattern).contains ".."
  | .error _ => false

/-- A piece that may stand for `.` may stand for `..`. -/
theorem up_mem_specialEntries (hnone : pattern.literal? = none)
    (h : "." ∈ specialEntries pattern) : ".." ∈ specialEntries pattern := by
  unfold specialEntries at h ⊢
  split at h
  · next hhead =>
    rw [if_pos hhead]
    obtain ⟨items, rfl⟩ := List.head?_eq_some_iff.mp hhead
    refine List.mem_filter.mpr ⟨by simp, ?_⟩
    have hitems : Pattern.matches items [] = true := by
      simpa [Pattern.matches, Item.admits] using (List.mem_filter.mp h).2
    have hmore : Pattern.matches items ['.'] = true := by
      cases items with
      | nil => cases hnone
      | cons item items =>
        cases item with
        | many => simp_all [Pattern.matches, anySuffix]
        | char _ => cases hitems
        | any => cases hitems
        | oneOf _ _ => cases hitems
    simpa [Pattern.matches, Item.admits] using hmore
  · cases h

/-- What is written like a name leads to an entry, unless it climbs. -/
theorem exists_name_of_leads {n : Name} (hread : Reads n.text.toList pattern)
    (hclimbs : climbs n.text.toList = false) (h : Leads pattern c) : ∃ m, c = .name m := by
  have hcompile := compile_eq_ok_iff.mpr hread
  cases h with
  | literal hliteral =>
    rw [hread.literal?_eq hliteral, Component.ofPiece_name]
    exact ⟨n, rfl⟩
  | entry m _ _ => exact ⟨m, rfl⟩
  | special hnone hname =>
    have hup : ".." ∉ specialEntries pattern := by
      simpa [climbs, hcompile, hnone] using hclimbs
    rcases (mem_specialEntries hname).1 with rfl | rfl
    · exact absurd hname hup
    · exact absurd (up_mem_specialEntries hnone hname) hup

end ConfTree.Glob
