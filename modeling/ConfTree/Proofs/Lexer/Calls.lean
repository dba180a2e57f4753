import ConfTree.Proofs.Lexer.Scan

/-!
# Call by call

A lexer is asked for one token at a time. Behind the last one it may be asked on, and
has nothing more to say.

1. `next_next_of_none`: a call that returns no token has read everything.
2. `tokens_length_le`: a token takes a character at least.
3. `next_after`: what every call returns. `mem_tokens_iff`: every token is what some
   call returns.
4. `calls_scan`: call by call, a lexer makes the tokens of a scan, and no call that
   returns one stands still.
-/

namespace ConfTree

namespace Lexer

variable {l : Lexer}

/-! ## 1. The end -/

theorem quoted_rest_of_none {file : String} {quote : Char} {start line : Nat} {escaped : Bool}
    {word rest : List Char} (h : (quoted file quote start line escaped word rest).1 = none) :
    (quoted file quote start line escaped word rest).2.rest = [] := by
  fun_induction quoted file quote start line escaped word rest with
  | case1 => rfl
  | case2 _ _ _ _ _ _ ih => exact ih h
  | case3 => cases h
  | case4 _ _ _ _ _ _ _ _ ih => exact ih h

theorem bare_rest_of_none {file : String} {line : Nat} {inComment : Bool} {start : Nat}
    {word rest : List Char} (h : (bare file line inComment start word rest).1 = none) :
    (bare file line inComment start word rest).2.rest = [] := by
  fun_induction bare file line inComment start word rest with
  | case1 => rfl
  | case4 _ _ _ _ _ _ _ _ _ _ hw | case7 _ _ _ _ _ _ hw =>
    -- A word that ends is a token.
    rw [wordToken?_of_not_isEmpty hw] at h
    cases h
  | case6 => cases h
  | case9 => exact quoted_rest_of_none h
  | case2 | case3 | case5 | case8 | case10 | case11 =>
    rename_i ih
    exact ih h

/-- Where nothing is left to be read, a call returns nothing and changes nothing. -/
theorem next_of_rest_nil (h : l.rest = []) : l.next = (none, l) := by
  obtain ⟨file, rest, line, inComment⟩ := l
  subst h
  rfl

/-- Behind a call that returns nothing, the next one returns nothing and changes
nothing. -/
theorem next_next_of_none (h : l.next.1 = none) : l.next.2.next = (none, l.next.2) :=
  next_of_rest_nil (bare_rest_of_none h)

/-! ## 2. Tokens -/

theorem tokens_of_none (h : l.next.1 = none) : l.tokens = [] := by
  rw [tokens_eq_collected, collected, h]

theorem tokens_of_some {token : Token} (h : l.next.1 = some token) :
    l.tokens = token :: l.next.2.tokens := by
  rw [tokens_eq_collected, collected, h]

/-- There are at most as many tokens as characters. -/
theorem tokens_length_le (l : Lexer) : l.tokens.length ≤ l.rest.length := by
  induction l using tokens_induction with
  | none l h =>
    rw [tokens_of_none h]
    exact Nat.zero_le _
  | some l token h ih =>
    rw [tokens_of_some h]
    exact Nat.lt_of_le_of_lt ih (next_rest_lt h)

/-! ## 3. Runs -/

/-- The lexer behind so many calls. -/
def after (l : Lexer) : (calls : Nat) → Lexer
  | 0 => l
  | calls + 1 => l.next.2.after calls

/-- Once a call has returned nothing, the lexer stays as it is. -/
theorem after_of_none (h : l.next = (none, l)) (i : Nat) : l.after i = l := by
  induction i with
  | zero => rfl
  | succ i ih => rw [after, h, ih]

/-- Every call returns the token whose turn it is. -/
theorem next_after (l : Lexer) (i : Nat) : (l.after i).next.1 = l.tokens[i]? := by
  induction i generalizing l with
  | zero =>
    rw [after, tokens_eq_collected, collected]
    split <;> simp [*]
  | succ i ih =>
    rw [after, ih]
    cases hnext : l.next.1 with
    | none =>
      have hagain : l.next.2.next.1 = none := congrArg Prod.fst (next_next_of_none hnext)
      rw [tokens_of_none hnext, tokens_of_none hagain, List.getElem?_nil, List.getElem?_nil]
    | some token => rw [tokens_of_some hnext, List.getElem?_cons_succ]

/-- The tokens are what the calls return. -/
theorem mem_tokens_iff {token : Token} :
    token ∈ l.tokens ↔ ∃ i, (l.after i).next.1 = some token := by
  simp only [next_after, List.mem_iff_getElem?]

end Lexer

/-! ## 4. The scan, call by call -/

/-- Call by call, a lexer makes the tokens of a scan of the text.

However often it is called, a call returns the token of the scan whose turn it is, and
nothing behind the last one; so collecting tokens until a call returns none gives those
of the scan. From whatever state, a call that returns a token has read something, and
so there are at most as many tokens as characters; and once a call has returned none,
the lexer stays as it is, its line too, however often it is called. -/
theorem calls_scan (file : String) (text : List Char) :
    (∀ i, ((Lexer.ofText file text).after i).next.1 = (Scan.ofText file text).tokens[i]?) ∧
    (Lexer.ofText file text).tokens = (Scan.ofText file text).tokens ∧
    (∀ (l : Lexer) (token : Token), l.next.1 = some token →
      ∃ read, read ≠ [] ∧ l.rest = read ++ l.next.2.rest) ∧
    (Scan.ofText file text).tokens.length ≤ text.length ∧
    ∀ l : Lexer, l.next.1 = none → ∀ i,
      (l.next.2.after i).next.1 = none ∧ (l.next.2.after i).line = l.next.2.line := by
  have htokens := Lexer.tokens_ofText file text
  refine ⟨fun i => ?_, htokens, fun l token hnext => ?_, ?_, fun l hnext i => ?_⟩
  · rw [Lexer.next_after, htokens]
  · obtain ⟨read, hread⟩ := l.next_rest_suffix
    refine ⟨read, ?_, hread.symm⟩
    rintro rfl
    have hlt := Lexer.next_rest_lt hnext
    rw [← hread] at hlt
    exact Nat.lt_irrefl _ hlt
  · rw [← htokens]
    exact Lexer.tokens_length_le _
  · have hstay := Lexer.next_next_of_none hnext
    rw [Lexer.after_of_none hstay i]
    exact ⟨congrArg Prod.fst hstay, rfl⟩

/-- A `;` right behind a word is left to the next call, and a line end behind it to the
one that returns nothing. -/
theorem calls_scan_semicolon :
    let l := Lexer.ofText "f" "ab;\n".toList
    l.next.1 = some ⟨"f", 1, "ab"⟩ ∧ (∃ read, read ≠ [] ∧ l.rest = read ++ l.next.2.rest) ∧
      (l.after 1).next.1 = some ⟨"f", 1, ";"⟩ ∧ (l.after 2).next.1 = none ∧
      ∀ i, ((l.after 2).next.2.after i).next.1 = none ∧ ((l.after 2).next.2.after i).line = 2 := by
  intro l
  have hfirst : l.next.1 = some ⟨"f", 1, "ab"⟩ := by decide
  have hlast : (l.after 2).next.1 = none := by decide
  have hline : (l.after 2).next.2.line = 2 := by decide
  have hscan : (Scan.ofText "f" "ab;\n".toList).tokens[1]? = some ⟨"f", 1, ";"⟩ := by decide
  obtain ⟨hcalls, -, hmoves, -, hstays⟩ := calls_scan "f" "ab;\n".toList
  have hstays := hstays _ hlast
  rw [hline] at hstays
  exact ⟨hfirst, hmoves l _ hfirst, (hcalls 1).trans hscan, hlast, hstays⟩

end ConfTree
