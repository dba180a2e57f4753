import ConfTree.Fault

/-!
# What a pattern reads

1. `Reads`, `compileAt_eq_ok_iff`: how a text is read as a pattern, item by item.
   `Reads.mem_of_mem`: a bracket that opens a class is closed.
2. `Reads.append`, `Reads.exists_intercalate`: texts that are patterns make up a
   pattern.
3. `Reads.ofPlain`: a text without wildcards stands for itself.
   `Reads.literal?_eq_none`: a text with wildcards leaves a choice.
4. `Reads.ofEscaped`: a text that is escaped is a pattern. `reads_escaped_append_iff`: it is
   read by itself, whatever follows. `matches_escapedItems`: it stands for the text alone.
-/

namespace ConfTree.Glob

variable {text rest more behind : List Char} {pattern other : Pattern} {item : Item}

/-! ## 1. Reading item by item -/

/-- The character is more than itself where an item starts. -/
def isWildcard (c : Char) : Bool := c == '*' || c == '?' || c == '['

theorem isWildcard_eq_false_iff {c : Char} :
    isWildcard c = false ↔ c ≠ '*' ∧ c ≠ '?' ∧ c ≠ '[' := by
  simp [isWildcard, and_assoc]

/-- `Reads text pattern`: the text is read as the pattern.

* `any`, `many`: `?` and `*`.
* `oneOf`: a class, from its opening bracket on.
* `char`: any other character, a closing bracket too, stands for itself. -/
inductive Reads : List Char → Pattern → Prop
  | nil : Reads [] []
  | any {rest : List Char} {pattern : Pattern} : Reads rest pattern →
      Reads ('?' :: rest) (.any :: pattern)
  | many {rest : List Char} {pattern : Pattern} : Reads rest pattern →
      Reads ('*' :: rest) (.many :: pattern)
  | oneOf {rest behind : List Char} {item : Item} {pattern : Pattern} :
      classItem? rest = some (item, behind) → Reads behind pattern →
      Reads ('[' :: rest) (item :: pattern)
  | char {c : Char} {rest : List Char} {pattern : Pattern} : isWildcard c = false →
      Reads rest pattern → Reads (c :: rest) (.char c :: pattern)

/-- A text is compiled as it is read; where it starts matters to errors only. -/
theorem compileAt_eq_ok_iff {position : Nat} :
    compileAt position text = .ok pattern ↔ Reads text pattern := by
  constructor
  · intro h
    induction position, text using compileAt.induct generalizing pattern with
    | case1 position =>
      rw [compileAt] at h
      cases h
      exact .nil
    | case2 position rest ih =>
      rw [compileAt, if_pos rfl] at h
      obtain ⟨items, hitems, h⟩ := bind_eq_ok_iff.mp h
      cases h
      exact .any (ih hitems)
    | case3 position rest _ ih =>
      rw [compileAt, if_neg (by decide), if_pos rfl] at h
      obtain ⟨items, hitems, h⟩ := bind_eq_ok_iff.mp h
      cases h
      exact .many (ih hitems)
    | case4 position rest hclass =>
      rw [compileAt, if_neg (by decide), if_neg (by decide), if_pos rfl] at h
      split at h
      · cases h
      · next hsome => simp [hclass] at hsome
    | case5 position rest item behind hclass _ _ ih =>
      rw [compileAt, if_neg (by decide), if_neg (by decide), if_pos rfl] at h
      split at h
      · cases h
      · next hsome =>
        rw [hclass] at hsome
        cases hsome
        obtain ⟨items, hitems, h⟩ := bind_eq_ok_iff.mp h
        cases h
        exact .oneOf hclass (ih hitems)
    | case6 position c rest hany hmany hclass ih =>
      rw [compileAt, if_neg hany, if_neg hmany, if_neg hclass] at h
      obtain ⟨items, hitems, h⟩ := bind_eq_ok_iff.mp h
      cases h
      exact .char (isWildcard_eq_false_iff.mpr ⟨hmany, hany, hclass⟩) (ih hitems)
  · intro h
    induction h generalizing position with
    | nil => rw [compileAt]
    | any _ ih =>
      rw [compileAt, if_pos rfl, ih]
      rfl
    | many _ ih =>
      rw [compileAt, if_neg (by decide), if_pos rfl, ih]
      rfl
    | oneOf hclass _ ih =>
      rw [compileAt, if_neg (by decide), if_neg (by decide), if_pos rfl]
      split
      · next hnone => simp [hclass] at hnone
      · next hsome =>
        rw [hclass] at hsome
        cases hsome
        rw [ih]
        rfl
    | char hwild _ ih =>
      obtain ⟨hmany, hany, hclass⟩ := isWildcard_eq_false_iff.mp hwild
      rw [compileAt, if_neg hany, if_neg hmany, if_neg hclass, ih]
      rfl

theorem compile_eq_ok_iff : compile text = .ok pattern ↔ Reads text pattern :=
  compileAt_eq_ok_iff

theorem mem_of_uptoBracket {inside : List Char} (h : uptoBracket text = some (inside, behind)) :
    ']' ∈ text := by
  fun_induction uptoBracket text generalizing inside behind with
  | case1 => cases h
  | case2 rest => exact List.mem_cons_self
  | case3 c rest _ ih =>
    obtain ⟨⟨more, other⟩, hrest, -⟩ := Option.map_eq_some_iff.mp h
    exact List.mem_cons_of_mem _ (ih hrest)

theorem mem_of_classItem? (h : classItem? text = some (item, behind)) : ']' ∈ text := by
  unfold classItem? at h
  split at h
  · obtain ⟨⟨inside, other⟩, hrest, -⟩ := Option.map_eq_some_iff.mp h
    exact List.mem_cons_of_mem _ (List.mem_cons_of_mem _ (mem_of_uptoBracket hrest))
  · cases h
  · obtain ⟨⟨inside, other⟩, hrest, -⟩ := Option.map_eq_some_iff.mp h
    exact List.mem_cons_of_mem _ (mem_of_uptoBracket hrest)
  · cases h

/-- In a text that is read, a bracket that opens a class is closed. -/
theorem Reads.mem_of_mem (h : Reads text pattern) (hopen : '[' ∈ text) : ']' ∈ text := by
  induction h with
  | nil => cases hopen
  | any _ ih | many _ ih =>
    exact List.mem_cons_of_mem _ (ih (List.mem_of_ne_of_mem (by decide) hopen))
  | oneOf hclass _ _ => exact List.mem_cons_of_mem _ (mem_of_classItem? hclass)
  | char hwild _ ih =>
    have hne := (isWildcard_eq_false_iff.mp hwild).2.2
    exact List.mem_cons_of_mem _ (ih (List.mem_of_ne_of_mem hne.symm hopen))

/-! ## 2. Several texts -/

theorem uptoBracket_append {inside : List Char} (h : uptoBracket text = some (inside, behind)) :
    uptoBracket (text ++ more) = some (inside, behind ++ more) := by
  fun_induction uptoBracket text generalizing inside behind with
  | case1 => cases h
  | case2 rest =>
    cases h
    rfl
  | case3 c rest hc ih =>
    obtain ⟨⟨inside', behind'⟩, hrest, heq⟩ := Option.map_eq_some_iff.mp h
    cases heq
    simp [uptoBracket, ih hrest]

/-- What stands behind the closing bracket does not matter to a class. -/
theorem classItem?_append (h : classItem? text = some (item, behind)) :
    classItem? (text ++ more) = some (item, behind ++ more) := by
  unfold classItem? at h
  split at h
  · next c rest =>
    obtain ⟨⟨inside, after⟩, hr, heq⟩ := Option.map_eq_some_iff.mp h
    cases heq
    simp [classItem?, uptoBracket_append hr]
  · cases h
  · next c rest hneg hbang =>
    obtain ⟨⟨inside, after⟩, hr, heq⟩ := Option.map_eq_some_iff.mp h
    cases heq
    have hc : c ≠ '!' := by
      rintro rfl
      cases rest with
      | nil => exact hbang rfl rfl
      | cons d rest => exact hneg d rest rfl rfl
    simp [classItem?, hc, uptoBracket_append hr]
  · cases h

/-- What starts with an opening bracket leaves a choice. -/
theorem exists_oneOf_of_classItem? (h : classItem? text = some (item, behind)) :
    ∃ negated ms, item = .oneOf negated ms := by
  unfold classItem? at h
  split at h
  · obtain ⟨r, hr, he⟩ := Option.map_eq_some_iff.mp h
    cases he
    exact ⟨_, _, rfl⟩
  · cases h
  · obtain ⟨r, hr, he⟩ := Option.map_eq_some_iff.mp h
    cases he
    exact ⟨_, _, rfl⟩
  · cases h

namespace Reads

theorem append (h : Reads text pattern) (h' : Reads more other) :
    Reads (text ++ more) (pattern ++ other) := by
  induction h with
  | nil => exact h'
  | any _ ih => exact .any ih
  | many _ ih => exact .many ih
  | oneOf hclass _ ih => exact .oneOf (classItem?_append hclass) ih
  | char hwild _ ih => exact .char hwild ih

/-- Texts that are patterns make up one, whatever character stands between them. -/
theorem exists_intercalate {c : Char} (hc : isWildcard c = false) {texts : List (List Char)}
    (h : ∀ text ∈ texts, ∃ pattern, Reads text pattern) :
    ∃ pattern, Reads ([c].intercalate texts) pattern := by
  induction texts with
  | nil => exact ⟨[], .nil⟩
  | cons text texts ih =>
    obtain ⟨⟨pattern, hpattern⟩, hrest⟩ := List.forall_mem_cons.mp h
    obtain ⟨others, hothers⟩ := ih hrest
    cases texts with
    | nil => exact ⟨pattern, by simpa using hpattern⟩
    | cons next texts =>
      refine ⟨pattern ++ .char c :: others, ?_⟩
      rw [List.intercalate_cons_cons, List.append_assoc]
      exact hpattern.append (.char hc hothers)

end Reads

/-- `ReadsAll texts patterns`: every text is read as the pattern in its place. -/
inductive ReadsAll : List (List Char) → List Pattern → Prop
  | nil : ReadsAll [] []
  | cons {text : List Char} {texts : List (List Char)} {pattern : Pattern}
      {patterns : List Pattern} : Reads text pattern → ReadsAll texts patterns →
      ReadsAll (text :: texts) (pattern :: patterns)

namespace ReadsAll

variable {texts others : List (List Char)} {patterns rests : List Pattern}

theorem append (h : ReadsAll texts patterns) (h' : ReadsAll others rests) :
    ReadsAll (texts ++ others) (patterns ++ rests) := by
  induction h with
  | nil => exact h'
  | cons hread _ ih => exact .cons hread ih

theorem length_eq (h : ReadsAll texts patterns) : texts.length = patterns.length := by
  induction h with
  | nil => rfl
  | cons _ _ ih => rw [List.length_cons, List.length_cons, ih]

theorem exists_reads (h : ReadsAll texts patterns) :
    ∀ text ∈ texts, ∃ pattern, Reads text pattern := by
  induction h with
  | nil => exact fun _ htext => absurd htext List.not_mem_nil
  | cons hread _ ih => exact List.forall_mem_cons.mpr ⟨⟨_, hread⟩, ih⟩

theorem mapM_compile (h : ReadsAll texts patterns) : texts.mapM compile = .ok patterns := by
  induction h with
  | nil => rfl
  | cons hread _ ih =>
    rw [List.mapM_cons, compile_eq_ok_iff.mpr hread, ih]
    rfl

theorem of_mapM_compile (h : texts.mapM compile = .ok patterns) : ReadsAll texts patterns := by
  induction texts generalizing patterns with
  | nil =>
    cases h
    exact .nil
  | cons text texts ih =>
    rw [List.mapM_cons] at h
    obtain ⟨pattern, hpattern, h⟩ := bind_eq_ok_iff.mp h
    obtain ⟨others, hothers, h⟩ := bind_eq_ok_iff.mp h
    cases h
    exact .cons (compile_eq_ok_iff.mp hpattern) (ih hothers)

theorem unique (h : ReadsAll texts patterns) (h' : ReadsAll texts rests) : patterns = rests :=
  Except.ok.inj (h.mapM_compile.symm.trans h'.mapM_compile)

/-- Texts in two parts are read part by part. -/
theorem exists_append (h : ReadsAll (texts ++ others) patterns) :
    ∃ front behind, patterns = front ++ behind ∧ ReadsAll texts front ∧ ReadsAll others behind := by
  induction texts generalizing patterns with
  | nil => exact ⟨[], patterns, rfl, .nil, h⟩
  | cons text texts ih =>
    cases h with
    | cons hread hrest =>
      obtain ⟨front, behind, rfl, hfront, hbehind⟩ := ih hrest
      exact ⟨_ :: front, behind, rfl, .cons hread hfront, hbehind⟩

end ReadsAll

/-! ## 3. Texts without wildcards -/

/-- A text without wildcards stands for itself. -/
theorem Reads.ofPlain (h : ∀ c ∈ text, isWildcard c = false) : Reads text (text.map .char) := by
  induction text with
  | nil => exact .nil
  | cons c rest ih =>
    obtain ⟨hc, hrest⟩ := List.forall_mem_cons.mp h
    exact .char hc (ih hrest)

theorem literal?_map_char (text : List Char) :
    Pattern.literal? (text.map .char) = some text := by
  induction text with
  | nil => rfl
  | cons c rest ih => simp [Pattern.literal?, ih]

/-- A text with wildcards leaves a choice. -/
theorem Reads.literal?_eq_none (h : Reads text pattern) (hwild : text.any isWildcard = true) :
    pattern.literal? = none := by
  induction h with
  | nil => cases hwild
  | any _ _ => rfl
  | many _ _ => rfl
  | oneOf hclass _ _ =>
    obtain ⟨negated, ms, rfl⟩ := exists_oneOf_of_classItem? hclass
    rfl
  | char hc _ ih =>
    rw [List.any_cons, hc, Bool.false_or] at hwild
    rw [Pattern.literal?, ih hwild]
    rfl

/-! ## 4. Texts that are escaped -/

/-- How a character is escaped. -/
def escaped (c : Char) : List Char := if isMeta c then ['[', c, ']'] else [c]

/-- The item that an escaped character is read as. -/
def escapedItem (c : Char) : Item := if isMeta c then .oneOf false [.single c] else .char c

theorem toList_escape (text : String) :
    (escape text).toList = text.toList.flatMap escaped := by
  rw [escape, String.toList_ofList]
  rfl

/-- An escaped character that could have a meaning is read as a class, which is closed right
behind it. -/
theorem classItem?_escaped {c : Char} (hmeta : isMeta c = true) (rest : List Char) :
    classItem? (c :: ']' :: rest) = some (.oneOf false [.single c], rest) := by
  have hbang : c ≠ '!' := by
    rintro rfl
    cases hmeta
  simp [classItem?, hbang, uptoBracket, members]

theorem isWildcard_of_not_isMeta {c : Char} (h : ¬ isMeta c = true) : isWildcard c = false := by
  simp_all [isMeta, isWildcard]

/-- A text that is escaped is a pattern. -/
theorem Reads.ofEscaped (text : List Char) :
    Reads (text.flatMap escaped) (text.map escapedItem) := by
  induction text with
  | nil => exact .nil
  | cons c rest ih =>
    rw [List.flatMap_cons, List.map_cons, escaped, escapedItem]
    by_cases hmeta : isMeta c = true
    · rw [if_pos hmeta, if_pos hmeta]
      exact .oneOf (classItem?_escaped hmeta _) ih
    · rw [if_neg hmeta, if_neg hmeta]
      exact .char (isWildcard_of_not_isMeta hmeta) ih

/-- A text that is escaped is read by itself: what follows closes none of its brackets, and
it closes none of those that follow. -/
theorem reads_escaped_append_iff :
    Reads (text.flatMap escaped ++ more) pattern ↔
      ∃ items, Reads more items ∧ pattern = text.map escapedItem ++ items := by
  constructor
  · intro h
    induction text generalizing pattern with
    | nil => exact ⟨pattern, h, rfl⟩
    | cons c rest ih =>
      rw [List.flatMap_cons, List.append_assoc, escaped] at h
      rw [List.map_cons, escapedItem]
      by_cases hmeta : isMeta c = true
      · rw [if_pos hmeta] at h ⊢
        cases h with
        | oneOf hclass hrest =>
          -- The class is the one of the character, and ends where its bracket is closed.
          have hclosed := classItem?_escaped hmeta (rest.flatMap escaped ++ more)
          obtain ⟨rfl, rfl⟩ := Prod.mk.inj (Option.some.inj (hclass.symm.trans hclosed))
          obtain ⟨items, hitems, rfl⟩ := ih hrest
          exact ⟨items, hitems, rfl⟩
        | char hwild _ => cases hwild
      · rw [if_neg hmeta] at h ⊢
        have hplain := isWildcard_of_not_isMeta hmeta
        cases h with
        | any _ | many _ | oneOf _ _ => cases hplain
        | char _ hrest =>
          obtain ⟨items, hitems, rfl⟩ := ih hrest
          exact ⟨items, hitems, rfl⟩
  · rintro ⟨items, hitems, rfl⟩
    exact (Reads.ofEscaped text).append hitems

theorem admits_escapedItem {c d : Char} : (escapedItem c).admits d = (d == c) := by
  unfold escapedItem
  split
  · simp [Item.admits, Member.contains]
  · rfl

/-- A text that is escaped stands for the text alone. -/
theorem matches_escapedItems {other : List Char} :
    Pattern.matches (text.map escapedItem) other = true ↔ other = text := by
  induction text generalizing other with
  | nil => simp [Pattern.matches]
  | cons c rest ih =>
    have hmany : escapedItem c ≠ .many := by
      unfold escapedItem
      split <;> simp
    rw [List.map_cons]
    cases other with
    | nil => simp [Pattern.matches]
    | cons d more => simp [Pattern.matches, admits_escapedItem, ih]

/-- A text that is escaped leaves no choice, or is looked for among others. -/
theorem literal?_escapedItems (text : List Char) :
    Pattern.literal? (text.map escapedItem) = some text ∨
      Pattern.literal? (text.map escapedItem) = none := by
  induction text with
  | nil => exact .inl rfl
  | cons c rest ih =>
    rw [List.map_cons, escapedItem]
    split
    · exact .inr rfl
    · rcases ih with h | h
      · exact .inl (by rw [Pattern.literal?, h]; rfl)
      · exact .inr (by rw [Pattern.literal?, h]; rfl)

end ConfTree.Glob
