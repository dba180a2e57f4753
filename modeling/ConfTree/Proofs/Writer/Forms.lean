import ConfTree.Writer.Form

/-!
# What the writer writes

The writer finds a form for every tree that has one.

1. `isQuotable_iff`: which texts can be quoted.
2. `spelled_iff`: how they are spelled between quotes. `exists_spelled`: where a
   spelling ends.
3. `exists_word?`, `isWord_iff`: a word that can be written is.
   `words_intercalate`, `exists_words?`: so are several words, set apart by spaces.
4. `exists_directives?`: so is a tree.
-/

namespace ConfTree.Writer

/-! ## 1. Texts that can be quoted -/

namespace Quotable

variable {quote c : Char} {text : List Char}

theorem nil : Quotable quote [] := by
  intro front n behind htext _ _ hodd
  simp only [List.nil_eq, List.append_eq_nil_iff, List.replicate_eq_nil_iff] at htext
  omega

/-- Two backslashes make no run odd or even. -/
theorem cons_pair_iff : Quotable quote ('\\' :: '\\' :: text) ↔ Quotable quote text := by
  constructor
  · intro h front n behind htext hfront hbehind hodd
    cases front with
    | nil =>
      refine h [] (n + 2) behind ?_ (by simp) hbehind (by omega)
      simp [htext, List.replicate_succ]
    | cons d front =>
      refine h ('\\' :: '\\' :: d :: front) n behind ?_ (by simpa using hfront) hbehind hodd
      simp [htext]
  · intro h front n behind htext hfront hbehind hodd
    rcases front with _ | ⟨d, _ | ⟨e, _ | ⟨f, front⟩⟩⟩
    · obtain _ | _ | n := n
      · omega
      · simp at htext
        simp [← htext] at hbehind
      · refine h [] n behind ?_ (by simp) hbehind (by omega)
        simpa [List.replicate_succ] using htext
    · simp at htext
      simp [← htext.1] at hfront
    · simp at htext
      simp [← htext.2.1] at hfront
    · refine h (f :: front) n behind ?_ (by simpa using hfront) hbehind hodd
      simp at htext
      simp [htext.2.2]

/-- A character that is no backslash ends a run. -/
theorem cons_iff (hc : c ≠ '\\') : Quotable quote (c :: text) ↔ Quotable quote text := by
  constructor
  · intro h front n behind htext hfront hbehind hodd
    refine h (c :: front) n behind (by simp [htext]) ?_ hbehind hodd
    cases front with
    | nil => simpa using hc
    | cons d front => simpa using hfront
  · intro h front n behind htext hfront hbehind hodd
    rcases front with _ | ⟨d, front⟩
    · obtain _ | n := n
      · omega
      · simp [List.replicate_succ] at htext
        exact absurd htext.1 hc
    · refine h front n behind ?_ ?_ hbehind hodd
      · simp at htext
        simp [htext.2]
      · cases front with
        | nil => simp
        | cons e front => simpa using hfront

/-- A single backslash must not stand in front of a quote. -/
theorem cons_backslash_iff (hc : c ≠ '\\') :
    Quotable quote ('\\' :: c :: text) ↔ c ≠ quote ∧ Quotable quote text := by
  constructor
  · intro h
    refine ⟨?_, fun front n behind htext hfront hbehind hodd => ?_⟩
    · obtain ⟨d, hd, hne⟩ := h [] 1 (c :: text) rfl (by simp) (by simpa using hc) rfl
      cases hd
      exact hne
    · refine h ('\\' :: c :: front) n behind (by simp [htext]) ?_ hbehind hodd
      cases front with
      | nil => simpa using hc
      | cons d front => simpa using hfront
  · rintro ⟨hne, h⟩ front n behind htext hfront hbehind hodd
    rcases front with _ | ⟨d, _ | ⟨e, front⟩⟩
    · obtain _ | _ | n := n
      · omega
      · simp at htext
        exact ⟨c, by simp [← htext], hne⟩
      · simp [List.replicate_succ] at htext
        exact absurd htext.1 hc
    · simp at htext
      simp [← htext.1] at hfront
    · refine h front n behind ?_ ?_ hbehind hodd
      · simp at htext
        simp [htext.2.2]
      · cases front with
        | nil => simp
        | cons f front => simpa using hfront

theorem backslash : ¬ Quotable quote ['\\'] := by
  intro h
  obtain ⟨c, hc, _⟩ := h [] 1 [] rfl (by simp) (by simp) rfl
  cases hc

end Quotable

/-- The texts that can be quoted, also behind a single backslash. -/
theorem isQuotable_iff_and {quote : Char} (text : List Char) :
    (isQuotable quote false text = true ↔ Quotable quote text) ∧
      (isQuotable quote true text = true ↔ Quotable quote ('\\' :: text)) := by
  induction text with
  | nil => exact ⟨by simp [isQuotable, Quotable.nil], by simp [isQuotable, Quotable.backslash]⟩
  | cons c text ih =>
    obtain ⟨heven, hodd⟩ := ih
    by_cases hc : c = '\\'
    · subst hc
      simp only [isQuotable, ↓reduceIte, Bool.not_false, Bool.not_true]
      exact ⟨hodd, heven.trans Quotable.cons_pair_iff.symm⟩
    · rw [Quotable.cons_iff hc, Quotable.cons_backslash_iff hc, ← heven]
      simp [isQuotable, hc]

theorem isQuotable_iff {quote : Char} {text : List Char} :
    isQuotable quote false text = true ↔ Quotable quote text :=
  (isQuotable_iff_and text).1

instance (quote : Char) (text : List Char) : Decidable (Quotable quote text) :=
  decidable_of_iff _ isQuotable_iff

/-! ## 2. Spellings -/

section Spelled

variable {quote : Char} {text form : List Char}

/-- A text that can be quoted is spelled as its escape, and so it is behind a single
backslash. -/
theorem spelled_of_isQuotable (hne : quote ≠ '\\') (text : List Char) :
    (isQuotable quote false text = true → Spelled quote text (escape quote text)) ∧
      (isQuotable quote true text = true →
        Spelled quote ('\\' :: text) ('\\' :: escape quote text)) := by
  have hcons (c : Char) (text : List Char) :
      escape quote (c :: text) = (if c = quote then ['\\', c] else [c]) ++ escape quote text := by
    simp [escape]
  induction text with
  | nil => exact ⟨fun _ => .nil, fun h => (nomatch h)⟩
  | cons c text ih =>
    obtain ⟨heven, hodd⟩ := ih
    rw [isQuotable, isQuotable, hcons]
    by_cases hback : c = '\\'
    · have hother : c ≠ quote := fun h => hne (h.symm.trans hback)
      rw [if_pos hback, if_pos hback, if_neg hother]
      refine ⟨fun h => ?_, fun h => .pair hother (heven h)⟩
      rw [hback]
      exact hodd h
    · rw [if_neg hback, if_neg hback]
      by_cases hquote : c = quote
      · rw [if_pos hquote, hquote]
        refine ⟨fun h => .quote (heven ?_), fun h => ?_⟩
        · simpa using h
        · simp at h
      · rw [if_neg hquote]
        refine ⟨fun h => .plain hback hquote (heven ?_), fun h => .pair hquote (heven ?_)⟩
        · simpa using h
        · simpa [hquote] using h

/-- Exactly the texts that can be quoted have a spelling, and it is their escape. -/
theorem spelled_iff (hne : quote ≠ '\\') :
    Spelled quote text form ↔ Quotable quote text ∧ form = escape quote text := by
  constructor
  · intro h
    induction h with
    | nil => exact ⟨.nil, rfl⟩
    | plain hback hquote _ ih =>
      exact ⟨(Quotable.cons_iff hback).mpr ih.1, by simp [ih.2, escape, hquote]⟩
    | quote _ ih => exact ⟨(Quotable.cons_iff hne).mpr ih.1, by simp [ih.2, escape]⟩
    | @pair c text form hquote _ ih =>
      refine ⟨?_, by simp [ih.2, escape, hquote, Ne.symm hne]⟩
      by_cases hback : c = '\\'
      · rw [hback]
        exact Quotable.cons_pair_iff.mpr ih.1
      · exact (Quotable.cons_backslash_iff hback).mpr ⟨hquote, ih.1⟩
  · rintro ⟨hquotable, rfl⟩
    exact (spelled_of_isQuotable hne text).1 (isQuotable_iff.mpr hquotable)

/-- Every text starts with a spelling, which goes on up to the first quote that no
backslash escapes. If there is none it goes on to the end, or up to a single backslash
there. -/
theorem exists_spelled (quote : Char) : ∀ behind : List Char, ∃ text form tail,
    Spelled quote text form ∧ behind = form ++ tail ∧
      (tail = [] ∨ tail = ['\\'] ∨ ∃ rest, tail = quote :: rest)
  | [] => ⟨[], [], [], .nil, rfl, .inl rfl⟩
  | c :: behind => by
    by_cases hback : c = '\\'
    · subst hback
      cases behind with
      | nil => exact ⟨[], [], ['\\'], .nil, rfl, .inr (.inl rfl)⟩
      | cons c behind =>
        obtain ⟨text, form, tail, hform, rfl, htail⟩ := exists_spelled quote behind
        by_cases hquote : c = quote
        · subst hquote
          exact ⟨_, _, tail, .quote hform, rfl, htail⟩
        · exact ⟨_, _, tail, .pair hquote hform, rfl, htail⟩
    · by_cases hquote : c = quote
      · subst hquote
        exact ⟨[], [], c :: behind, .nil, rfl, .inr (.inr ⟨behind, rfl⟩)⟩
      · obtain ⟨text, form, tail, hform, rfl, htail⟩ := exists_spelled quote behind
        exact ⟨_, _, tail, .plain hback hquote hform, rfl, htail⟩

end Spelled

/-! ## 3. Words -/

/-- A word that can be written is written in one of its forms. -/
theorem exists_word? {text : List Char} (h : IsWord text) :
    ∃ form, word? text = some form ∧ Word text form := by
  unfold word?
  split
  · next hplain => exact ⟨text, rfl, .plain hplain⟩
  · next hplain =>
    split
    · next hquotable => exact ⟨_, rfl, .quoted rfl (isQuotable_iff.mp hquotable)⟩
    · next hdouble =>
      -- It is not plain and cannot stand between double quotes.
      rcases h with h | ⟨quote, hquote, hquotable⟩
      · exact absurd h hplain
      · have hsingle : quote = '\x27' := by
          simp only [Lexer.isQuote, Bool.or_eq_true, beq_iff_eq] at hquote
          rcases hquote with rfl | rfl
          · exact absurd (isQuotable_iff.mpr hquotable) hdouble
          · rfl
        subst hsingle
        rw [if_pos (isQuotable_iff.mpr hquotable)]
        exact ⟨_, rfl, .quoted hquote hquotable⟩

/-- The words that can be written are those that are. -/
theorem isWord_iff {text : List Char} : IsWord text ↔ (word? text).isSome = true := by
  constructor
  · intro h
    obtain ⟨form, hform, _⟩ := exists_word? h
    rw [hform]
    rfl
  · intro h
    unfold word? at h
    split at h
    · next hplain => exact .inl hplain
    · split at h
      · next hquotable => exact .inr ⟨_, rfl, isQuotable_iff.mp hquotable⟩
      · split at h
        · next hquotable => exact .inr ⟨_, rfl, isQuotable_iff.mp hquotable⟩
        · cases h

instance (text : List Char) : Decidable (IsWord text) := decidable_of_iff _ isWord_iff.symm

theorem Gap.single {c : Char} (hblank : isBlank c = true) (hne : c ≠ '\r') : Gap [c] :=
  ⟨by simpa using hblank, c, by simp, hne⟩

/-- Words may be set apart by spaces. -/
theorem words_intercalate {forms : List (String × List Char)} (hne : forms ≠ [])
    (h : ∀ x ∈ forms, Word x.1.toList x.2) :
    Words (forms.map Prod.fst) ([' '].intercalate (forms.map Prod.snd)) := by
  induction forms with
  | nil => exact absurd rfl hne
  | cons first forms ih =>
    obtain ⟨hfirst, hforms⟩ := List.forall_mem_cons.mp h
    cases forms with
    | nil =>
      have hlast := Words.last hfirst
      simpa [List.intercalate] using hlast
    | cons second forms =>
      have hgap : Gap [' '] := .single (by decide) (by decide)
      have hwords := Words.cons hfirst hgap (ih (by simp) hforms)
      simpa [List.intercalate] using hwords

namespace IsBare

variable {text : List Char}

theorem isPlain (h : IsBare text) : Writer.isPlain text = true := by
  obtain ⟨hne, hall⟩ := h
  cases text with
  | nil => exact absurd rfl hne
  | cons c text =>
    simp only [Writer.isPlain, Bool.and_eq_true, Bool.not_eq_true', List.all_eq_true, bne_iff_ne]
    refine ⟨(hall c List.mem_cons_self).2.1, fun d hd => ?_⟩
    obtain ⟨hblank, _, hhash, hsemi, _, _⟩ := hall d hd
    exact ⟨⟨hblank, hsemi⟩, hhash⟩

/-- A bare word is none of the marks. -/
theorem ne_mark (h : IsBare text) {c : Char} (hc : c = ';' ∨ c = '\x7b' ∨ c = '\x7d') :
    text ≠ [c] := by
  rintro rfl
  obtain ⟨_, _, _, hsemi, hopen, hclose⟩ := h.ordinary c List.mem_cons_self
  rcases hc with hc | hc | hc <;> contradiction

end IsBare

theorem isBare_iff {text : List Char} : IsBare text ↔ text ≠ [] ∧
    (text.all fun c => !isBlank c && !Lexer.isQuote c && c != '#' && c != ';' && c != '\x7b' &&
      c != '\x7d') = true := by
  simp only [List.all_eq_true, Bool.and_eq_true, Bool.not_eq_true', bne_iff_ne, and_assoc]
  exact ⟨fun h => ⟨h.nonempty, h.ordinary⟩, fun h => ⟨h.1, h.2⟩⟩

instance (text : List Char) : Decidable (IsBare text) := decidable_of_iff _ isBare_iff.symm

/-- A word is set apart from those behind it by a space. -/
theorem words?_cons {p q : String} {qs : List String} {form rest : List Char}
    (hp : word? p.toList = some form) (hrest : words? (q :: qs) = some rest) :
    words? (p :: q :: qs) = some (form ++ [' '] ++ rest) := by
  simp only [words?, List.mapM_cons, Option.bind_eq_bind, Option.pure_def, Option.bind_eq_some_iff,
    Option.some.injEq] at hrest
  obtain ⟨_, ⟨second, hsecond, forms, hforms, rfl⟩, rfl⟩ := hrest
  simp [words?, hp, hsecond, hforms, List.intercalate]

/-- Words are written in one of their forms. -/
theorem exists_words? {ps : List String} (hne : ps ≠ []) (h : ∀ p ∈ ps, IsWord p.toList) :
    ∃ text, words? ps = some text ∧ Words ps text := by
  induction ps with
  | nil => exact absurd rfl hne
  | cons p ps ih =>
    obtain ⟨form, hform, hword⟩ := exists_word? (h p List.mem_cons_self)
    cases ps with
    | nil => exact ⟨form, by simp [words?, hform, List.intercalate], .last hword⟩
    | cons q qs =>
      obtain ⟨rest, hrest, hwords⟩ := ih (by simp) fun r hr => h r (List.mem_cons_of_mem _ hr)
      have hgap : Gap [' '] := .single (by decide) (by decide)
      exact ⟨form ++ [' '] ++ rest, words?_cons hform hrest, .cons hword hgap hwords⟩

/-! ## 4. Trees -/

theorem params_ne_nil_of_isReadableHead {head : Statement}
    (h : Directive.isReadableHead head = true) : head.params ≠ [] := by
  intro hnil
  rw [Directive.isReadableHead, hnil] at h
  cases h

mutual

/-- A directive is written in one of its forms, with a line end behind it. -/
theorem exists_directive? (d : Directive) (hreadable : d.isReadable = true) (h : IsWritable d) :
    ∃ text, directive? d = some text ∧
      ∀ {ds rest}, Written ds rest → Written (d :: ds) (text ++ '\n' :: rest) := by
  cases d with
  | simple head =>
    have hne := params_ne_nil_of_isReadableHead hreadable
    obtain ⟨words, hwords, hform⟩ := exists_words? hne h
    refine ⟨words ++ [';'], by simp [directive?, hwords], fun {ds rest} hrest => ?_⟩
    have hwritten := Written.simple hform (.blank (c := '\n') (by decide) hrest)
    simpa using hwritten
  | block head body =>
    rw [Directive.isReadable, Bool.and_eq_true] at hreadable
    have hne := params_ne_nil_of_isReadableHead hreadable.1
    obtain ⟨words, hwords, hform⟩ := exists_words? hne h.1
    obtain ⟨inner, hinner, hbody⟩ := exists_directives? body hreadable.2 h.2
    have hspace : Gap [' '] := .single (by decide) (by decide)
    have hline : Gap ['\n'] := .single (by decide) (by decide)
    refine ⟨words ++ [' ', '\x7b', '\n'] ++ inner ++ ['\x7d'], by simp [directive?, hwords, hinner],
      fun {ds rest} hrest => ?_⟩
    have hwritten := Written.block hform hspace hline hbody hline hrest
    simpa using hwritten

/-- A tree is written in one of its forms. -/
theorem exists_directives? (ds : List Directive) (hreadable : Directive.isReadableAll ds = true)
    (h : IsWritableAll ds) : ∃ text, directives? ds = some text ∧ Written ds text := by
  cases ds with
  | nil => exact ⟨[], rfl, .nil⟩
  | cons d ds =>
    rw [Directive.isReadableAll, Bool.and_eq_true] at hreadable
    obtain ⟨text, htext, hd⟩ := exists_directive? d hreadable.1 h.1
    obtain ⟨rest, hrest, hds⟩ := exists_directives? ds hreadable.2 h.2
    refine ⟨text ++ '\n' :: rest, ?_, hd hds⟩
    simp [directives?, htext, hrest]

end

end ConfTree.Writer
