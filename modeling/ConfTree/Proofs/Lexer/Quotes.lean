import ConfTree.Proofs.Lexer.Calls
import ConfTree.Proofs.Lexer.Words

/-!
# Which texts a token can have

Between quotes a lexer reads what is spelled there, so that a quoted text is read back
from its escape and from nothing else. Some texts have no spelling.

1. `next_closed`, `next_cut`: a call where a quoted text starts. `quotable_of_next`:
   what it returns can be quoted.
2. `isWord_of_next`: what any call returns is a `;` or a word that can be written.
   `exists_token_iff`: all these are tokens of some text.
3. `quoting_exact`: quoting a text and reading it back, and all texts of tokens.
-/

namespace ConfTree

namespace Lexer

open Writer

variable {file : String} {quote : Char} {start line : Nat} {text form word rest : List Char}
  {token : Token}

/-! ## 1. Quoted texts -/

/-- Between quotes, a lexer reads what is spelled. -/
theorem quoted_spelled (h : Spelled quote text form) (tail : List Char) :
    quoted file quote start line false word (form ++ tail) =
      quoted file quote start (line + text.count '\n') false (text.reverse ++ word) tail := by
  induction h generalizing line word with
  | nil => rfl
  | plain hback hne _ ih =>
    rw [List.cons_append, quoted]
    simp [hback, hne, ih, lineAfter_add_count]
  | quote _ ih =>
    -- The backslash is held back, and the quote behind it counts alone.
    rw [List.cons_append, List.cons_append, quoted, quoted]
    simp [ih, lineAfter_add_count]
  | pair hne _ ih =>
    rw [List.cons_append, List.cons_append, quoted, quoted]
    simp [hne, ih, lineAfter_add_count]

/-- A call where a quoted text starts reads on inside the quotes. -/
theorem next_at_quote (hquote : isQuote quote = true) :
    next { file, rest := quote :: rest, line } = quoted file quote line line false [] rest := by
  obtain ⟨hblank, hsemi, hhash, _, _⟩ := Scan.ordinary_of_isQuote hquote
  simp [next, bare, hblank, hsemi, hhash, hquote]

/-- A quoted text ends at its closing quote, and nothing behind it is read. -/
theorem next_closed (hquote : isQuote quote = true) (h : Spelled quote text form) :
    next { file, rest := quote :: form ++ quote :: rest, line } =
      (some ⟨file, line, String.ofList text⟩,
        { file, rest, line := line + text.count '\n' }) := by
  obtain ⟨_, _, _, hne, _⟩ := Scan.ordinary_of_isQuote hquote
  rw [List.cons_append, next_at_quote hquote, quoted_spelled h, quoted]
  simp [hne]

/-- A quoted text that is never closed goes on to the end of the input, without a
backslash there. -/
theorem next_cut (hquote : isQuote quote = true) (h : Spelled quote text form) {tail : List Char}
    (htail : tail = [] ∨ tail = ['\\']) :
    next { file, rest := quote :: form ++ tail, line } =
      (wordToken? file line text.reverse,
        { file, rest := [], line := line + text.count '\n' }) := by
  rw [List.cons_append, next_at_quote hquote, quoted_spelled h]
  rcases htail with rfl | rfl <;> simp [quoted]

/-- Closed or not, what is read between quotes can be quoted. -/
theorem quotable_of_next (hquote : isQuote quote = true)
    (h : (next { file, rest := quote :: rest, line }).1 = some token) :
    Quotable quote token.text.toList := by
  obtain ⟨_, _, _, hne, _⟩ := Scan.ordinary_of_isQuote hquote
  obtain ⟨text, form, tail, hform, rfl, htail⟩ := exists_spelled quote rest
  have hquotable : Quotable quote text := ((spelled_iff hne).mp hform).1
  rw [← List.cons_append] at h
  rcases or_assoc.mpr htail with htail | ⟨rest, rfl⟩
  · rw [next_cut hquote hform htail] at h
    obtain ⟨-, rfl⟩ := wordToken?_eq_some_iff.mp h
    rw [List.reverse_reverse, String.toList_ofList]
    exact hquotable
  · rw [next_closed hquote hform] at h
    cases h
    rw [String.toList_ofList]
    exact hquotable

/-! ## 2. Texts of tokens -/

/-- A plain word goes on with any character that ends no word. -/
theorem isPlain_concat {c : Char} (h : isPlain text = true) (hblank : isBlank c = false)
    (hsemi : c ≠ ';') (hhash : c ≠ '#') : isPlain (text ++ [c]) = true := by
  cases text with
  | nil => cases h
  | cons first text =>
    simp only [isPlain, Bool.and_eq_true, List.cons_append] at h ⊢
    refine ⟨h.1, ?_⟩
    rw [← List.cons_append, List.all_append, h.2]
    simp [hblank, hsemi, hhash]

/-- A call outside quotes returns a `;` or a word that can be written. -/
theorem isWord_of_bare {inComment : Bool} (hword : word = [] ∨ isPlain word.reverse = true)
    (h : (bare file line inComment start word rest).1 = some token) :
    token.text = ";" ∨ IsWord token.text.toList := by
  have hended {start : Nat} {word : List Char} (hword : word = [] ∨ isPlain word.reverse = true)
      (h : wordToken? file start word = some token) :
      token.text = ";" ∨ IsWord token.text.toList := by
    obtain ⟨hne, rfl⟩ := wordToken?_eq_some_iff.mp h
    rw [String.toList_ofList]
    exact .inr (.inl (hword.resolve_left hne))
  fun_induction bare file line inComment start word rest with
  | case1 | case4 | case7 => exact hended hword h
  | case2 _ _ _ _ _ _ ih => exact ih hword h
  | case3 _ _ _ _ _ _ _ _ _ _ _ ih => exact ih hword h
  | case5 _ _ _ _ _ _ ih => exact ih hword h
  | case6 =>
    cases h
    exact .inl rfl
  | case8 _ _ _ _ _ _ _ _ ih => exact ih hword h
  | case9 _ _ _ _ _ _ _ _ _ _ _ hquote =>
    rw [← next_at_quote hquote] at h
    exact .inr (.inr ⟨_, hquote, quotable_of_next hquote h⟩)
  | case10 _ _ _ _ _ _ hblank _ hsemi hhash _ hquote ih =>
    refine ih (.inr ?_) h
    simp [isPlain, hblank, hsemi, hhash, hquote]
  | case11 _ _ _ _ _ _ hblank _ hsemi hhash hw ih =>
    have hplain := hword.resolve_left (by simpa using hw)
    refine ih (.inr ?_) h
    rw [List.reverse_cons]
    exact isPlain_concat hplain (by simpa using hblank) hsemi hhash

/-- Every call returns a `;` or a word that can be written. -/
theorem isWord_of_next {l : Lexer} (h : l.next.1 = some token) :
    token.text = ";" ∨ IsWord token.text.toList :=
  isWord_of_bare (.inl rfl) h

end Lexer

open Lexer Writer

/-- The texts of tokens are `;` and the words that can be written. -/
theorem exists_token_iff {text : String} :
    (∃ file bytes, ∃ token ∈ tokenize file bytes, token.text = text) ↔
      text = ";" ∨ IsWord text.toList := by
  constructor
  · rintro ⟨file, bytes, token, htoken, rfl⟩
    obtain ⟨i, hnext⟩ := mem_tokens_iff.mp htoken
    exact isWord_of_next hnext
  · intro h
    -- Some input has a token with this text, and no other.
    suffices ∃ input, (Scan.ofText "" input).tokens.map Token.text = [text] by
      obtain ⟨input, hinput⟩ := this
      obtain ⟨token, htokens, htext⟩ := List.map_eq_singleton_iff.mp hinput
      refine ⟨"", Utf8.encode input, token, ?_, htext⟩
      rw [tokenize_encode, htokens]
      exact List.mem_singleton_self _
    rcases h with rfl | h
    · exact ⟨[';'], (Scan.IsBetween.start "").push_semicolon.texts_eq⟩
    · obtain ⟨form, -, hform⟩ := exists_word? h
      refine ⟨form, ?_⟩
      have htexts := ((Scan.IsBetween.start "").word hform).texts_eq
      rw [String.ofList_toList] at htexts
      exact htexts

/-! ## 3. Quoting -/

/-- Quoting is undone by reading, and reaches all that can be read between quotes.

Take any text and one of the two quotes. If an odd number of backslashes never stands
right in front of such a quote, or of the end, then a call at the text written between
two of these quotes, with a backslash before each of them inside, returns a token that
says just the text, and reads nothing of what is behind it. If it does, then no call
that starts at such a quote returns a token that says the text, whether or not the
quotes are closed.

And the texts that a token of some input can have are the plain ones, `;` and those
that can stand between one of the two quotes. -/
theorem quoting_exact (text : String) :
    (∀ quote, isQuote quote = true →
      (Quotable quote text.toList → ∀ (file : String) (line : Nat) (rest : List Char),
        next { file, rest := Writer.quoted quote text.toList ++ rest, line } =
          (some ⟨file, line, text⟩, { file, rest, line := line + text.toList.count '\n' })) ∧
      (¬ Quotable quote text.toList →
        ∀ (file : String) (line : Nat) (behind : List Char) (token : Token),
          (next { file, rest := quote :: behind, line }).1 = some token → token.text ≠ text)) ∧
    ((∃ file bytes, ∃ token ∈ tokenize file bytes, token.text = text) ↔
      isPlain text.toList = true ∨ text = ";" ∨
        Quotable '\x22' text.toList ∨ Quotable '\x27' text.toList) := by
  refine ⟨fun quote hquote => ⟨?_, ?_⟩, ?_⟩
  · intro hquotable file line rest
    obtain ⟨_, _, _, hne, _⟩ := Scan.ordinary_of_isQuote hquote
    have hspelled : Spelled quote text.toList (escape quote text.toList) :=
      (spelled_iff hne).mpr ⟨hquotable, rfl⟩
    rw [Writer.quoted, List.append_assoc, List.singleton_append, next_closed hquote hspelled,
      String.ofList_toList]
  · rintro hquotable file line behind token hnext rfl
    exact hquotable (quotable_of_next hquote hnext)
  · have hquotes : (∃ quote, isQuote quote = true ∧ Quotable quote text.toList) ↔
        Quotable '\x22' text.toList ∨ Quotable '\x27' text.toList := by
      simp [isQuote, or_and_right, exists_or]
    rw [exists_token_iff, IsWord, hquotes, or_left_comm]

/-- A text over two lines, with a quote in it and with backslashes at its end. -/
def slashText : String := "C:\\new \x22\nx\\\\"

/-- This text is read back from its quoted form; a lone backslash cannot be quoted. -/
theorem quoting_exact_slashText :
    isQuote '\x22' = true ∧ Quotable '\x22' slashText.toList ∧
      next { file := "f", rest := Writer.quoted '\x22' slashText.toList ++ [';'], line := 3 } =
        (some ⟨"f", 3, slashText⟩, { file := "f", rest := [';'], line := 4 }) ∧
      ¬ Quotable '\x22' "\\".toList ∧
      ∀ token, (next { file := "f", rest := "\x22\\\x22".toList, line := 1 }).1 = some token →
        token.text ≠ "\\" := by
  have hquotable : Quotable '\x22' slashText.toList := by decide
  have hlone : ¬ Quotable '\x22' "\\".toList := by decide
  obtain ⟨hread, -⟩ := (quoting_exact slashText).1 '\x22' rfl
  obtain ⟨-, hnone⟩ := (quoting_exact "\\").1 '\x22' rfl
  exact ⟨rfl, hquotable, hread hquotable "f" 3 [';'], hlone, hnone hlone "f" 1 ['\\', '\x22']⟩

end ConfTree
