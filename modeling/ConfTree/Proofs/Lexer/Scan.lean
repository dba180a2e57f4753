import ConfTree.Lexer.Scan
import ConfTree.Proofs.Text.Utf8

/-!
# A lexer reads what a scan reads

A lexer stops behind every token and starts anew there; a scan goes on. Both make
the same tokens.

1. `tokens_induction`, `tokens_eq_collected`: the tokens of a lexer, call by call.
2. `ReadsAlike.all`: the simulation, from any state of a scan.
   `Lexer.tokens_ofText`, `tokenize_encode`: the same for a whole text.
3. `Pushes`, `pushes_iff`: all that a character can do to a scan, so that no later
   proof opens `push`.
4. `file_of_mem_tokenize`: all tokens carry the name of their text.
-/

namespace ConfTree

/-! ## 1. Calls -/

namespace Lexer

/-- The token that a call returns, if it does, and the tokens that remain behind
it. -/
def collected (call : Option Token × Lexer) : List Token :=
  match call.1 with
  | none => []
  | some token => token :: call.2.tokens

/-- What holds where a call returns nothing, and holds in front of a call that returns
a token if it does behind it, holds everywhere. -/
theorem tokens_induction {P : Lexer → Prop} (none : ∀ l : Lexer, l.next.1 = none → P l)
    (some : ∀ (l : Lexer) (token : Token), l.next.1 = some token → P l.next.2 → P l)
    (l : Lexer) : P l := by
  induction h : l.rest.length using Nat.strongRecOn generalizing l with
  | _ n ih =>
    subst h
    cases hnext : l.next.1 with
    | none => exact none l hnext
    | some token => exact some l token hnext (ih _ (next_rest_lt hnext) _ rfl)

theorem drainOnto_eq (l : Lexer) :
    ∀ read, (drainOnto read l).1 = read.reverse ++ l.tokens := by
  induction l using tokens_induction with
  | none l h =>
    intro read
    rw [tokens, drain, drainOnto, drainOnto]
    split
    · simp
    · next hnext => cases h.symm.trans hnext
  | some l token h ih =>
    intro read
    rw [tokens, drain, drainOnto, drainOnto]
    split
    · next hnext => cases h.symm.trans hnext
    · rw [ih, ih]
      simp

theorem tokens_eq_collected (l : Lexer) : l.tokens = collected l.next := by
  rw [tokens, drain, drainOnto, collected]
  split
  · next hnext => simp [hnext]
  · next token hnext => simp [hnext, drainOnto_eq]

/-- As long as there is no word, it does not matter where one would have begun. -/
theorem bare_start (file : String) (line : Nat) (inComment : Bool) (start start' : Nat)
    (rest : List Char) :
    bare file line inComment start [] rest = bare file line inComment start' [] rest := by
  induction rest generalizing line inComment with
  | nil => rfl
  | cons c rest ih =>
    simp only [bare, List.isEmpty_nil, ↓reduceIte, ih]

/-- The tokens from a place between two tokens on. -/
theorem tokens_eq_bare (l : Lexer) (start : Nat) :
    l.tokens = collected (bare l.file l.line l.inComment start [] l.rest) := by
  rw [tokens_eq_collected, next, bare_start _ _ _ l.line start]

theorem collected_some (token : Token) (l : Lexer) :
    collected (some token, l) = token :: l.tokens := rfl

/-- At the end of the text no token remains behind the one that is returned. -/
theorem collected_of_rest_nil (token? : Option Token) {l : Lexer} (h : l.rest = []) :
    collected (token?, l) = token?.toList := by
  cases token? with
  | none => rfl
  | some token =>
    rw [collected_some, tokens_eq_collected, next, h]
    rfl

theorem wordToken?_of_isEmpty {file : String} {start : Nat} {word : List Char}
    (h : word.isEmpty = true) : wordToken? file start word = none := by
  rw [wordToken?, if_pos h]

theorem wordToken?_of_not_isEmpty {file : String} {start : Nat} {word : List Char}
    (h : ¬ word.isEmpty = true) :
    wordToken? file start word = some ⟨file, start, String.ofList word.reverse⟩ := by
  rw [wordToken?, if_neg h]

/-- A word is a token unless it is empty. -/
theorem wordToken?_eq_some_iff {file : String} {start : Nat} {word : List Char} {token : Token} :
    wordToken? file start word = some token ↔
      word ≠ [] ∧ token = ⟨file, start, String.ofList word.reverse⟩ := by
  cases word with
  | nil => simp [wordToken?]
  | cons c word => simp [wordToken?, eq_comm]

/-- Lines are counted character by character. -/
theorem lineAfter_add_count (line : Nat) (c : Char) (text : List Char) :
    lineAfter line c + text.count '\n' = line + (c :: text).count '\n' := by
  unfold lineAfter
  split
  · next hc =>
    subst hc
    rw [List.count_cons_self, Nat.add_right_comm]
    rfl
  · next hc => rw [List.count_cons_of_ne hc]

end Lexer

/-! ## 2. The simulation -/

namespace Scan

open Lexer

theorem tokens_eq (s : Scan) :
    s.tokens = s.done.reverse ++ (wordToken? s.file s.start s.word).toList := by
  unfold tokens flush
  split
  · next h => simp [h]
  · next h => simp [h]

theorem pushAll_cons (s : Scan) (c : Char) (text : List Char) :
    s.pushAll (c :: text) = (s.push c).pushAll text := rfl

theorem flush_of_isEmpty {s : Scan} (h : s.word.isEmpty = true) : s.flush = s := by
  rw [flush, wordToken?_of_isEmpty h]

theorem flush_of_not_isEmpty {s : Scan} (h : ¬ s.word.isEmpty = true) :
    s.flush =
      { s with word := [], done := ⟨s.file, s.start, String.ofList s.word.reverse⟩ :: s.done } := by
  rw [flush, wordToken?_of_not_isEmpty h]

theorem tokens_of_word_nil {s : Scan} (h : s.word = []) : s.tokens = s.done.reverse := by
  simp [tokens_eq, h, wordToken?]

/-- Ending the word makes it one of the tokens that are done. -/
theorem flush_eq (s : Scan) : s.flush = { s with word := [], done := s.tokens.reverse } := by
  by_cases hw : s.word.isEmpty = true
  · have hnil : s.word = [] := List.isEmpty_iff.mp hw
    rw [flush_of_isEmpty hw, tokens_of_word_nil hnil, List.reverse_reverse, ← hnil]
  · rw [flush_of_not_isEmpty hw, tokens_eq, wordToken?_of_not_isEmpty hw]
    simp

/-- From every state, a scan makes the same tokens of `text` as a lexer does.

* `outside`: outside quotes.
* `inside`: inside quotes. -/
structure ReadsAlike (text : List Char) : Prop where
  outside : ∀ s : Scan, s.quote = none → s.escaped = false →
    (s.pushAll text).tokens =
      s.done.reverse ++ collected (bare s.file s.line s.inComment s.start s.word text)
  inside : ∀ (s : Scan) (quote : Char), s.quote = some quote → s.inComment = false →
    (s.pushAll text).tokens =
      s.done.reverse ++ collected (quoted s.file quote s.start s.line s.escaped s.word text)

namespace ReadsAlike

variable {c : Char} {text : List Char} {s : Scan}

/-- At the end of the text a word counts, inside quotes too. -/
theorem nil : ReadsAlike [] where
  outside s _ _ := by
    rw [bare, collected_of_rest_nil _ rfl]
    exact tokens_eq s
  inside s quote _ _ := by
    rw [quoted, collected_of_rest_nil _ rfl]
    exact tokens_eq s

/-- Between two tokens a scan goes on as a lexer starts. -/
theorem between (ih : ReadsAlike text) (s : Scan) (hq : s.quote = none)
    (he : s.escaped = false) (hw : s.word = []) :
    (s.pushAll text).tokens =
      s.done.reverse ++
        Lexer.tokens
          { file := s.file, rest := text, line := s.line, inComment := s.inComment } := by
  rw [ih.outside s hq he, hw, tokens_eq_bare _ s.start]

/-- One character inside quotes. -/
theorem inside_cons (ih : ReadsAlike text) {quote : Char} (hq : s.quote = some quote)
    (hc : s.inComment = false) :
    (s.pushAll (c :: text)).tokens =
      s.done.reverse ++
        collected (quoted s.file quote s.start s.line s.escaped s.word (c :: text)) := by
  rw [pushAll_cons, push, hq, quoted]
  dsimp only
  unfold pushQuoted
  split
  · exact ih.inside _ quote hq hc
  · split
    · next hclose =>
      have he : s.escaped = false := by simpa using (Bool.and_eq_true_iff.mp hclose).1
      refine (ih.between _ rfl ?_ rfl).trans ?_
      · exact he
      · simp [collected_some, hc]
    · exact ih.inside _ quote hq hc

/-- A blank behind a word ends it. -/
theorem flush_cons (ih : ReadsAlike text) (hq : s.quote = none) (he : s.escaped = false) :
    (s.flush.pushAll text).tokens =
      s.done.reverse ++ collected
        (if s.word.isEmpty then bare s.file s.line s.inComment s.start s.word text
        else (wordToken? s.file s.start s.word,
          { file := s.file, rest := text, line := s.line, inComment := s.inComment })) := by
  split
  · next hw => rw [flush_of_isEmpty hw, ih.outside s hq he]
  · next hw =>
    rw [flush_of_not_isEmpty hw, wordToken?_of_not_isEmpty hw, collected_some]
    refine (ih.between _ ?_ ?_ rfl).trans ?_
    · exact hq
    · exact he
    · simp

/-- A `;` ends a word and is a token itself. -/
theorem semicolon_cons (ih : ReadsAlike text) (hq : s.quote = none) (he : s.escaped = false)
    (hc : s.inComment = false) :
    ({ s.flush with done := ⟨s.flush.file, s.flush.line, ";"⟩ :: s.flush.done }.pushAll
        text).tokens =
      s.done.reverse ++ collected
        (if s.word.isEmpty then
          (some ⟨s.file, s.line, ";"⟩,
            { file := s.file, rest := text, line := s.line, inComment := s.inComment })
        else (wordToken? s.file s.start s.word,
          { file := s.file, rest := ';' :: text, line := s.line, inComment := s.inComment })) := by
  split
  · next hw =>
    rw [flush_of_isEmpty hw, collected_some]
    refine (ih.between _ ?_ ?_ ?_).trans ?_
    · exact hq
    · exact he
    · exact List.isEmpty_iff.mp hw
    · simp
  · next hw =>
    -- The lexer leaves the `;` behind the word to its next call.
    have hblank : isBlank ';' = false := by decide
    rw [flush_of_not_isEmpty hw, wordToken?_of_not_isEmpty hw, collected_some,
      tokens_eq_collected, next, bare]
    refine (ih.between _ ?_ ?_ rfl).trans ?_
    · exact hq
    · exact he
    · simp [hblank, hc, collected_some]

/-- One character outside quotes. -/
theorem outside_cons (ih : ReadsAlike text) (hq : s.quote = none) (he : s.escaped = false) :
    (s.pushAll (c :: text)).tokens =
      s.done.reverse ++
        collected (bare s.file s.line s.inComment s.start s.word (c :: text)) := by
  rw [pushAll_cons, push, hq, bare]
  dsimp only
  unfold pushBare
  split
  · split
    · exact ih.outside s hq he
    · exact ih.flush_cons hq he
  · split
    · exact ih.outside s hq he
    · next hc =>
      split
      · next hsemi =>
        subst hsemi
        exact ih.semicolon_cons hq he (by simpa using hc)
      · split
        · exact ih.outside _ hq he
        · split
          · split
            · next hw _ =>
              rw [ih.inside _ c rfl (by simpa using hc), he, List.isEmpty_iff.mp hw]
            · exact ih.outside _ hq he
          · exact ih.outside _ hq he

/-- A scan and a lexer read every text alike. -/
theorem all (text : List Char) : ReadsAlike text := by
  induction text with
  | nil => exact nil
  | cons c text ih => exact ⟨fun s => ih.outside_cons, fun s quote => ih.inside_cons⟩

end ReadsAlike

end Scan

/-- The tokens of a text are those that a scan makes. -/
theorem Lexer.tokens_ofText (file : String) (text : List Char) :
    (ofText file text).tokens = (Scan.ofText file text).tokens := by
  have hscan := (Scan.ReadsAlike.all text).between { file } rfl rfl rfl
  rw [Scan.ofText, hscan]
  rfl

/-- The tokens of a text written as bytes. -/
theorem tokenize_encode (file : String) (text : List Char) :
    tokenize file (Utf8.encode text) = (Scan.ofText file text).tokens := by
  rw [tokenize, Lexer.ofBytes, Utf8.decode_encode, Lexer.tokens_ofText]

/-! ## 3. What a character does -/

namespace Scan

open Lexer

/-- `Pushes c s r`: the character `c` leads from the scan `s` to `r`.

* `hold`: inside quotes, a backslash is held back at first.
* `close`: their like closes them, unless a backslash is held back.
* `quoted`: inside quotes, any other character counts, and so does a backslash that
  is held back, unless it is there for the quote.
* `skip`: outside quotes, a carriage return and what a comment holds count for
  nothing.
* `blank`: any other blank ends the word, and a line end the comment.
* `semicolon`: a `;` ends the word and is a token itself.
* `comment`: a `#` starts a comment.
* `opening`: a quote opens a quoted text where there is no word.
* `start`: any other character starts a word there.
* `word`: what a word is made of behind its first character. -/
inductive Pushes (c : Char) (s : Scan) : Scan → Prop
  | hold {quote : Char} : s.quote = some quote → s.escaped = false → c = '\\' →
      Pushes c s { s with escaped := true }
  | close {quote : Char} : s.quote = some quote → s.escaped = false → c ≠ '\\' → c = quote →
      Pushes c s
        { s with
          quote := none
          word := []
          done := ⟨s.file, s.start, String.ofList s.word.reverse⟩ :: s.done }
  | quoted {quote : Char} : s.quote = some quote → s.escaped = true ∨ c ≠ '\\' ∧ c ≠ quote →
      Pushes c s
        { s with
          escaped := false
          line := lineAfter s.line c
          word := c :: if s.escaped && c != quote then '\\' :: s.word else s.word }
  | skip : s.quote = none → c = '\r' ∨ isBlank c = false ∧ s.inComment = true → Pushes c s s
  | blank : s.quote = none → isBlank c = true → c ≠ '\r' →
      Pushes c s
        { s with
          line := lineAfter s.line c
          inComment := s.inComment && c != '\n'
          word := []
          done := s.tokens.reverse }
  | semicolon : s.quote = none → s.inComment = false → c = ';' →
      Pushes c s { s with word := [], done := ⟨s.file, s.line, ";"⟩ :: s.tokens.reverse }
  | comment : s.quote = none → s.inComment = false → c = '#' →
      Pushes c s { s with inComment := true }
  | opening : s.quote = none → s.inComment = false → s.word = [] → isQuote c = true →
      Pushes c s { s with quote := some c, start := s.line }
  | start : s.quote = none → s.inComment = false → s.word = [] → isBlank c = false → c ≠ ';' →
      c ≠ '#' → isQuote c = false → Pushes c s { s with start := s.line, word := [c] }
  | word : s.quote = none → s.inComment = false → s.word ≠ [] → isBlank c = false → c ≠ ';' →
      c ≠ '#' → Pushes c s { s with word := c :: s.word }

section Pushes

variable {s r : Scan} {c : Char}

theorem ordinary_of_isQuote (h : isQuote c = true) :
    isBlank c = false ∧ c ≠ ';' ∧ c ≠ '#' ∧ c ≠ '\\' ∧ c ≠ '\n' := by
  simp only [isQuote, Bool.or_eq_true, beq_iff_eq] at h
  rcases h with rfl | rfl <;> decide

theorem pushes_push (c : Char) (s : Scan) : Pushes c s (s.push c) := by
  unfold push
  split
  · next quote hquote =>
    unfold pushQuoted
    split
    · next hhold => exact .hold hquote (by simp_all) (by simp_all)
    · next hhold =>
      split
      · next hclose => exact .close hquote (by simp_all) (by simp_all) (by simp_all)
      · next hclose =>
        refine .quoted hquote ?_
        cases he : s.escaped <;> simp_all
  · next hquote =>
    unfold pushBare
    split
    · next hblank =>
      split
      · next hcr => exact .skip hquote (.inl hcr)
      · next hcr =>
        -- The word that ends does not depend on the line behind it.
        have htokens (line : Nat) (inComment : Bool) :
            Scan.tokens { s with line, inComment } = s.tokens := by rw [tokens_eq, tokens_eq]
        rw [flush_eq, htokens]
        exact .blank hquote hblank hcr
    · next hblank =>
      rw [Bool.not_eq_true] at hblank
      split
      · next hc => exact .skip hquote (.inr ⟨hblank, hc⟩)
      · next hc =>
        rw [Bool.not_eq_true] at hc
        split
        · next hsemi =>
          rw [flush_eq]
          exact .semicolon hquote hc hsemi
        · next hsemi =>
          split
          · next hhash => exact .comment hquote hc hhash
          · next hhash =>
            split
            · next hw =>
              split
              · next hopen => exact .opening hquote hc (List.isEmpty_iff.mp hw) hopen
              · next hopen =>
                exact .start hquote hc (List.isEmpty_iff.mp hw) hblank hsemi hhash
                  (by simpa using hopen)
            · next hw => exact .word hquote hc (by simpa using hw) hblank hsemi hhash

/-- A character does one of these things, and only one. -/
theorem pushes_iff : Pushes c s r ↔ s.push c = r := by
  constructor
  · intro h
    cases h with
    | hold hquote he hc => simp [push, hquote, pushQuoted, he, hc]
    | close hquote he hc hclose =>
      subst hclose
      simp [push, hquote, pushQuoted, he, hc]
    | @quoted quote hquote hc =>
      rcases hc with he | ⟨hc, hq⟩
      · simp [push, hquote, pushQuoted, he]
      · simp [push, hquote, pushQuoted, hc, hq]
    | skip hquote hc =>
      rcases hc with rfl | ⟨hblank, hc⟩
      · have hblank : isBlank '\r' = true := by decide
        simp [push, hquote, pushBare, hblank]
      · simp [push, hquote, pushBare, hblank, hc]
    | blank hquote hblank hcr => simp [push, hquote, pushBare, hblank, hcr, flush_eq, tokens_eq]
    | semicolon hquote hc hsemi =>
      have hblank : isBlank ';' = false := by decide
      simp [push, hquote, pushBare, hblank, hc, hsemi, flush_eq]
    | comment hquote hc hhash =>
      have hblank : isBlank '#' = false := by decide
      simp [push, hquote, pushBare, hblank, hc, hhash]
    | opening hquote hc hw hopen =>
      obtain ⟨hblank, hsemi, hhash, _, _⟩ := ordinary_of_isQuote hopen
      simp [push, hquote, pushBare, hblank, hc, hsemi, hhash, hw, hopen]
    | start hquote hc hw hblank hsemi hhash hopen =>
      simp [push, hquote, pushBare, hblank, hc, hsemi, hhash, hw, hopen]
    | word hquote hc hw hblank hsemi hhash =>
      simp [push, hquote, pushBare, hblank, hc, hsemi, hhash, hw]
  · rintro rfl
    exact pushes_push c s

/-- What every character keeps, all of them do. -/
theorem pushAll_induction {P : List Char → Scan → Prop}
    (push : ∀ (read : List Char) (s r : Scan) (c : Char), Pushes c s r → P read s →
      P (read ++ [c]) r)
    (read : List Char) (h : P read s) (text : List Char) : P (read ++ text) (s.pushAll text) := by
  induction text generalizing read s with
  | nil =>
    rw [List.append_nil]
    exact h
  | cons c text ih =>
    have hrest := ih (read ++ [c]) (push read s _ c (pushes_push c s) h)
    rwa [List.append_assoc] at hrest

/-- Outside quotes, a line end ends the word and the comment. -/
theorem push_line (hquote : s.quote = none) :
    s.push '\n' =
      { s with line := s.line + 1, inComment := false, word := [], done := s.tokens.reverse } := by
  have hpush := pushes_iff.mp (.blank hquote (c := '\n') (by decide) (by decide))
  rw [hpush, lineAfter, if_pos rfl, bne_self_eq_false, Bool.and_false]

end Pushes

end Scan

/-! ## 4. The name of a text -/

/-- The scan reads a text named `file`, and all its tokens say so. -/
structure Scan.IsNamed (file : String) (s : Scan) : Prop where
  file_eq : s.file = file
  done_file : ∀ token ∈ s.done, token.file = file

namespace Scan.IsNamed

open Lexer

variable {file : String} {s : Scan}

/-- A word that is being read will be a token of the text too. -/
theorem tokens_file (h : s.IsNamed file) : ∀ token ∈ s.tokens, token.file = file := by
  intro token htoken
  rw [tokens_eq, List.mem_append, List.mem_reverse, Option.mem_toList] at htoken
  rcases htoken with htoken | htoken
  · exact h.done_file token htoken
  · unfold wordToken? at htoken
    split at htoken
    · cases htoken
    · cases htoken
      exact h.file_eq

theorem pushes {c : Char} {r : Scan} (h : s.IsNamed file) (hr : Pushes c s r) :
    r.IsNamed file := by
  have htokens : ∀ token ∈ s.tokens.reverse, token.file = file := by
    simpa using h.tokens_file
  cases hr with
  | hold | quoted | skip | comment | opening | start | word => exact ⟨h.file_eq, h.done_file⟩
  | close => exact ⟨h.file_eq, List.forall_mem_cons.mpr ⟨h.file_eq, h.done_file⟩⟩
  | blank => exact ⟨h.file_eq, htokens⟩
  | semicolon => exact ⟨h.file_eq, List.forall_mem_cons.mpr ⟨h.file_eq, htokens⟩⟩

theorem pushAll (h : s.IsNamed file) (text : List Char) : (s.pushAll text).IsNamed file :=
  pushAll_induction (P := fun _ => IsNamed file) (fun _ _ _ _ hr h => h.pushes hr) [] h text

theorem start (file : String) : IsNamed file { file } :=
  ⟨rfl, fun _ hmem => absurd hmem List.not_mem_nil⟩

end Scan.IsNamed

/-- All tokens of a text carry its name. -/
theorem file_of_mem_tokenize {file : String} {bytes : List UInt8} {token : Token}
    (h : token ∈ tokenize file bytes) : token.file = file := by
  rw [tokenize, Lexer.ofBytes, Lexer.tokens_ofText] at h
  exact ((Scan.IsNamed.start file).pushAll _).tokens_file token h

end ConfTree
