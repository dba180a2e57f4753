import ConfTree.Proofs.Lexer.Comments
import ConfTree.Proofs.Writer.Forms

/-!
# A lexer reads words back

Of a written word a scan makes one token that says what the word says: a plain
word is taken character by character, and between quotes the scan undoes what
`Writer.escape` does. Gaps and comments between words change nothing, and marks are
tokens of their own.

1. `IsBehind`, `IsBetween`: a scan behind a word, and between two words.
2. `IsBetween.word`: a written word is read.
3. `IsBetween.words`, `IsBetween.written`: so are several words, and a whole tree.
4. `texts_of_written`: the tokens of a written tree.
-/

namespace ConfTree

namespace Scan

open Lexer Writer

/-! ## 1. Places between words -/

/-- The scan is outside of quotes and comments, and its tokens have these texts if
the text ends here. -/
structure IsBehind (texts : List String) (s : Scan) : Prop where
  quote_eq : s.quote = none
  inComment_eq : s.inComment = false
  escaped_eq : s.escaped = false
  texts_eq : s.tokens.map Token.text = texts

/-- No word is being read besides. -/
structure IsBetween (texts : List String) (s : Scan) : Prop extends IsBehind texts s where
  word_eq : s.word = []

variable {texts : List String} {s : Scan} {c : Char}

namespace IsBehind

/-- The end of a word makes it a token, on whatever line it is met. -/
theorem ended (h : s.IsBehind texts) (line : Nat) :
    IsBetween texts { s with line, word := [], done := s.tokens.reverse } := by
  refine ⟨⟨h.quote_eq, h.inComment_eq, h.escaped_eq, ?_⟩, rfl⟩
  rw [tokens_of_word_nil rfl, List.reverse_reverse, h.texts_eq]

/-- A blank ends a word, unless it is a carriage return. -/
theorem push_blank (h : s.IsBehind texts) (hc : isBlank c = true) :
    (s.push c).IsBehind texts ∧ (c ≠ '\r' → (s.push c).IsBetween texts) := by
  by_cases hcr : c = '\r'
  · rw [pushes_iff.mp (.skip h.quote_eq (.inl hcr))]
    exact ⟨h, fun hne => absurd hcr hne⟩
  · have hcomment : (s.inComment && c != '\n') = s.inComment := by
      rw [h.inComment_eq, Bool.false_and]
    have hended := h.ended (lineAfter s.line c)
    rw [pushes_iff.mp (.blank h.quote_eq hc hcr), hcomment]
    exact ⟨hended.toIsBehind, fun _ => hended⟩

end IsBehind

/-- A text has no token at its start. -/
theorem IsBetween.start (file : String) : IsBetween [] { file } := ⟨⟨rfl, rfl, rfl, rfl⟩, rfl⟩

/-- A token more. -/
theorem IsBetween.done_cons (h : s.IsBetween texts) (token : Token) :
    IsBetween (texts ++ [token.text]) { s with done := token :: s.done } := by
  refine ⟨⟨h.quote_eq, h.inComment_eq, h.escaped_eq, ?_⟩, h.word_eq⟩
  have hdone : Scan.tokens { s with done := token :: s.done } = s.done.reverse ++ [token] := by
    simp [tokens_eq, h.word_eq, wordToken?]
  rw [hdone, List.map_append, ← tokens_of_word_nil h.word_eq, h.texts_eq]
  rfl

/-- A `;` ends a word and is a token itself. -/
theorem IsBehind.push_semicolon (h : s.IsBehind texts) :
    (s.push ';').IsBetween (texts ++ [";"]) := by
  rw [pushes_iff.mp (.semicolon h.quote_eq h.inComment_eq rfl)]
  exact (h.ended s.line).done_cons ⟨s.file, s.line, ";"⟩

/-- Blanks between words change nothing. -/
theorem IsBetween.push_blank (h : s.IsBetween texts) (hc : isBlank c = true) :
    (s.push c).IsBetween texts := by
  by_cases hcr : c = '\r'
  · rw [pushes_iff.mp (.skip h.quote_eq (.inl hcr))]
    exact h
  · exact (h.toIsBehind.push_blank hc).2 hcr

theorem IsBetween.pushAll_blanks {text : List Char} (h : s.IsBetween texts)
    (hblank : ∀ c ∈ text, isBlank c = true) : (s.pushAll text).IsBetween texts := by
  induction text generalizing s with
  | nil => exact h
  | cons c text ih =>
    obtain ⟨hc, htext⟩ := List.forall_mem_cons.mp hblank
    exact ih (h.push_blank hc) htext

/-- Between words, a comment up to the end of its line changes nothing. -/
theorem IsBetween.pushAll_comment {text : List Char} (h : s.IsBetween texts)
    (htext : '\n' ∉ text) : (s.pushAll ('#' :: text ++ ['\n'])).IsBetween texts := by
  have hline : (s.pushAll ('#' :: text)).push '\n' = s.push '\n' :=
    push_line_comment h.quote_eq htext
  rw [pushAll_append, pushAll_cons, hline]
  exact h.push_blank (by decide)

/-- A gap ends a word. -/
theorem IsBehind.pushAll_gap {gap : List Char} (h : s.IsBehind texts) (hgap : Gap gap) :
    (s.pushAll gap).IsBetween texts := by
  obtain ⟨hblank, hparts⟩ := hgap
  induction gap generalizing s with
  | nil => simp at hparts
  | cons c gap ih =>
    obtain ⟨hc, hrest⟩ := List.forall_mem_cons.mp hblank
    by_cases hcr : c = '\r'
    · -- Something else must end the word.
      refine ih (h.push_blank hc).1 hrest ?_
      obtain ⟨d, hd, hne⟩ := hparts
      rcases List.mem_cons.mp hd with rfl | hd
      · exact absurd hcr hne
      · exact ⟨d, hd, hne⟩
    · exact ((h.push_blank hc).2 hcr).pushAll_blanks hrest

/-! ## 2. A word -/

/-- Characters of a word are taken as they are. -/
theorem pushAll_of_word {text : List Char} (hquote : s.quote = none)
    (hcomment : s.inComment = false) (hword : s.word ≠ [])
    (htext : ∀ c ∈ text, isBlank c = false ∧ c ≠ ';' ∧ c ≠ '#') :
    s.pushAll text = { s with word := text.reverse ++ s.word } := by
  induction text generalizing s with
  | nil => rfl
  | cons c text ih =>
    obtain ⟨⟨hblank, hsemi, hhash⟩, hrest⟩ := List.forall_mem_cons.mp htext
    rw [pushAll_cons, pushes_iff.mp (.word hquote hcomment hword hblank hsemi hhash)]
    refine (ih ?_ ?_ (by simp) hrest).trans ?_
    · exact hquote
    · exact hcomment
    · simp

/-- Between quotes, a scan takes what is spelled. -/
theorem pushAll_spelled {quote : Char} {text form : List Char} (h : Spelled quote text form)
    (hquote : s.quote = some quote) (he : s.escaped = false) :
    s.pushAll form =
      { s with line := s.line + text.count '\n', word := text.reverse ++ s.word } := by
  induction h generalizing s with
  | nil => rfl
  | plain hback hne _ ih =>
    rw [pushAll_cons, pushes_iff.mp (.quoted hquote (.inr ⟨hback, hne⟩))]
    refine (ih ?_ ?_).trans ?_
    · exact hquote
    · rfl
    · simp [he, lineAfter_add_count]
  | quote _ ih =>
    -- The backslash is held back, and the quote behind it counts alone.
    have hsecond : Scan.push { s with escaped := true } quote = _ :=
      pushes_iff.mp (.quoted hquote (.inl rfl))
    rw [pushAll_cons, pushes_iff.mp (.hold hquote he rfl), pushAll_cons, hsecond]
    refine (ih ?_ ?_).trans ?_
    · exact hquote
    · rfl
    · simp [he, lineAfter_add_count]
  | @pair c _ _ hne _ ih =>
    have hsecond : Scan.push { s with escaped := true } c = _ :=
      pushes_iff.mp (.quoted hquote (.inl rfl))
    rw [pushAll_cons, pushes_iff.mp (.hold hquote he rfl), pushAll_cons, hsecond]
    refine (ih ?_ ?_).trans ?_
    · exact hquote
    · rfl
    · simp [he, hne, lineAfter_add_count]

/-- A plain word is read as one token. -/
theorem IsBetween.plain {text : List Char} (h : s.IsBetween texts) (hplain : isPlain text = true) :
    (s.pushAll text).IsBehind (texts ++ [String.ofList text]) := by
  cases text with
  | nil => cases hplain
  | cons c text =>
    simp only [isPlain, Bool.and_eq_true, Bool.not_eq_true', List.all_eq_true, bne_iff_ne, ne_eq,
      and_assoc] at hplain
    obtain ⟨hfirst, hall⟩ := hplain
    obtain ⟨⟨hblank, hsemi, hhash⟩, hrest⟩ := List.forall_mem_cons.mp hall
    have hpush :=
      pushes_iff.mp (.start h.quote_eq h.inComment_eq h.word_eq hblank hsemi hhash hfirst)
    have htext : Scan.pushAll { s with start := s.line, word := [c] } text = _ :=
      pushAll_of_word h.quote_eq h.inComment_eq (by simp) hrest
    rw [pushAll_cons, hpush, htext]
    refine ⟨h.quote_eq, h.inComment_eq, h.escaped_eq, ?_⟩
    rw [← h.texts_eq, tokens_of_word_nil h.word_eq]
    simp [tokens_eq, wordToken?]

/-- A quoted text is read as one token. -/
theorem IsBetween.quoted {quote : Char} {text : List Char} (h : s.IsBetween texts)
    (hquote : isQuote quote = true) (hquotable : Quotable quote text) :
    (s.pushAll (Writer.quoted quote text)).IsBetween (texts ++ [String.ofList text]) := by
  obtain ⟨_, _, _, hne, _⟩ := ordinary_of_isQuote hquote
  have hspelled : Spelled quote text (escape quote text) := (spelled_iff hne).mpr ⟨hquotable, rfl⟩
  have htext : Scan.pushAll { s with quote := some quote, start := s.line } _ = _ :=
    pushAll_spelled hspelled rfl h.escaped_eq
  have hall : s.pushAll (Writer.quoted quote text) =
      { s with
        line := s.line + text.count '\n'
        quote := none
        start := s.line
        word := []
        done := ⟨s.file, s.line, String.ofList text⟩ :: s.done } := by
    have hopen := pushes_iff.mp (.opening h.quote_eq h.inComment_eq h.word_eq hquote)
    have hclose : Scan.push { s with
        line := s.line + text.count '\n'
        quote := some quote
        start := s.line
        word := text.reverse ++ s.word } quote = _ :=
      pushes_iff.mp (.close rfl h.escaped_eq hne rfl)
    rw [Writer.quoted, List.cons_append, pushAll_cons, hopen, pushAll_append, htext, pushAll_cons,
      hclose]
    simp [pushAll, h.word_eq]
  rw [hall]
  refine ⟨⟨rfl, h.inComment_eq, h.escaped_eq, ?_⟩, rfl⟩
  rw [← h.texts_eq, tokens_of_word_nil h.word_eq]
  simp [tokens_eq, wordToken?]

/-- A written word is read as one token. -/
theorem IsBetween.word {text form : List Char} (h : s.IsBetween texts) (hform : Word text form) :
    (s.pushAll form).IsBehind (texts ++ [String.ofList text]) := by
  cases hform with
  | plain hplain => exact h.plain hplain
  | quoted hquote hquotable => exact (h.quoted hquote hquotable).toIsBehind

/-! ## 3. Words and trees -/

/-- Written words are read as one token each. -/
theorem IsBetween.words {ps : List String} {text : List Char} (h : s.IsBetween texts)
    (hwords : Words ps text) : (s.pushAll text).IsBehind (texts ++ ps) := by
  induction hwords generalizing s texts with
  | last hform => simpa using h.word hform
  | cons hform hgap _ ih =>
    rw [pushAll_append, pushAll_append]
    have hword := h.word hform
    rw [String.ofList_toList] at hword
    simpa using ih (hword.pushAll_gap hgap)

/-- A brace with a gap behind it is read as a token. -/
theorem IsBetween.brace {brace : Char} {gap : List Char} (h : s.IsBetween texts)
    (hbrace : isPlain [brace] = true) (hgap : Gap gap) :
    (s.pushAll (brace :: gap)).IsBetween (texts ++ [String.ofList [brace]]) := by
  have hword := h.word (.plain hbrace)
  exact hword.pushAll_gap hgap

/-- A written tree is read as the tokens of the tree. -/
theorem IsBetween.written {ds : List Directive} {text : List Char} (h : s.IsBetween texts)
    (hwritten : Written ds text) :
    (s.pushAll text).IsBetween (texts ++ (Directive.tokensAll ds).map Token.text) := by
  induction hwritten generalizing s texts with
  | nil => simpa [Directive.tokensAll, pushAll] using h
  | blank hblank _ ih => exact ih (h.push_blank hblank)
  | simple hwords _ ih =>
    have hstatement := ih (h.words hwords).push_semicolon
    rw [pushAll_append, pushAll_cons]
    simpa [Directive.tokensAll, Directive.tokens, Function.comp_def, Directive.token]
      using hstatement
  | block hwords hbefore hopened _ hclosed _ ihInner ih =>
    have hleft : isPlain ['\x7b'] = true := by decide
    have hright : isPlain ['\x7d'] = true := by decide
    have hopen := ((h.words hwords).pushAll_gap hbefore).brace hleft hopened
    have hclose := ih ((ihInner hopen).brace hright hclosed)
    simp only [pushAll_append]
    simpa [Directive.tokensAll, Directive.tokens, Function.comp_def, Directive.token] using hclose

end Scan

/-! ## 4. Texts -/

/-- The tokens of a written tree say what those of the tree say. -/
theorem texts_of_written {ds : List Directive} {text : List Char} (file : String)
    (h : Writer.Written ds text) :
    (tokenize file (Utf8.encode text)).map Token.text =
      (Directive.tokensAll ds).map Token.text := by
  rw [tokenize_encode]
  exact ((Scan.IsBetween.start file).written h).texts_eq

end ConfTree
