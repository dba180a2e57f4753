import ConfTree.Proofs.Lexer.Calls
import ConfTree.Proofs.Lexer.Comments

/-!
# Lines of tokens

A token carries the line of its first character, wherever the line ends in front of it
stand, and wherever the call that returns it starts and stops.

1. `line_add_next`: the line a lexer has reached and the line ends that it has still to
   read make up the same number behind every call.
2. `line_of_next`, `tokens_sorted`: tokens come in the order of their lines.
3. `Scan.IsLocated`: every token has a first character.
4. `lines_exact`: all lines of a text given as bytes.
-/

namespace ConfTree

namespace Lexer

variable {file : String} {quote : Char} {start line : Nat} {escaped inComment : Bool}
  {word rest : List Char} {token : Token}

/-! ## 1. Line ends -/

theorem count_cons_of_not_isBlank {c : Char} (h : ¬ isBlank c = true) (rest : List Char) :
    (c :: rest).count '\n' = rest.count '\n' :=
  List.count_cons_of_ne (Scan.ne_line_of_not_isBlank (by simpa using h))

theorem quoted_line_add (hquote : isQuote quote = true) :
    (quoted file quote start line escaped word rest).2.line +
        (quoted file quote start line escaped word rest).2.rest.count '\n' =
      line + rest.count '\n' := by
  have hblank : ¬ isBlank quote = true := by simp [(Scan.ordinary_of_isQuote hquote).1]
  fun_induction quoted file quote start line escaped word rest with
  | case1 => rfl
  | case2 _ _ _ c rest hback ih =>
    have hc : c = '\\' := by simp_all
    rw [ih, hc, count_cons_of_not_isBlank (by decide)]
  | case3 _ _ _ c rest _ hclose =>
    have hc : c = quote := by simp_all
    rw [hc, count_cons_of_not_isBlank hblank]
  | case4 _ _ _ _ _ _ _ _ ih => rw [ih, lineAfter_add_count]

theorem bare_line_add :
    (bare file line inComment start word rest).2.line +
        (bare file line inComment start word rest).2.rest.count '\n' =
      line + rest.count '\n' := by
  fun_induction bare file line inComment start word rest with
  | case1 | case7 => rfl
  | case2 _ _ _ _ rest _ ih => rw [ih, List.count_cons_of_ne (by decide)]
  | case3 _ _ _ _ _ _ _ _ _ _ _ ih => rw [ih, lineAfter_add_count]
  | case4 => exact lineAfter_add_count ..
  | case6 => rw [List.count_cons_of_ne (by decide)]
  | case9 _ _ _ _ _ _ hblank _ _ _ _ hquote =>
    rw [quoted_line_add hquote, count_cons_of_not_isBlank hblank]
  | case5 | case8 | case10 | case11 =>
    rename_i ih
    rw [ih, count_cons_of_not_isBlank (by assumption)]

/-- The line reached and the line ends still to be read make up the same number behind
a call as in front of it. -/
theorem line_add_next (l : Lexer) :
    l.next.2.line + l.next.2.rest.count '\n' = l.line + l.rest.count '\n' :=
  bare_line_add

/-- So they do behind any number of calls. -/
theorem line_add_after (l : Lexer) (i : Nat) :
    (l.after i).line + (l.after i).rest.count '\n' = l.line + l.rest.count '\n' := by
  induction i generalizing l with
  | zero => rfl
  | succ i ih => rw [after, ih, line_add_next]

/-! ## 2. Order -/

theorem line_le_lineAfter (line : Nat) (c : Char) : line ≤ lineAfter line c := by
  unfold lineAfter
  split
  · exact Nat.le_succ _
  · exact Nat.le_refl _

theorem line_le_quoted :
    line ≤ (quoted file quote start line escaped word rest).2.line := by
  fun_induction quoted file quote start line escaped word rest with
  | case1 | case3 => exact Nat.le_refl _
  | case2 _ _ _ _ _ _ ih => exact ih
  | case4 _ _ _ _ _ _ _ _ ih => exact Nat.le_trans (line_le_lineAfter ..) ih

theorem line_of_quoted (h : (quoted file quote start line escaped word rest).1 = some token) :
    token.line = start := by
  fun_induction quoted file quote start line escaped word rest with
  | case1 =>
    obtain ⟨-, rfl⟩ := wordToken?_eq_some_iff.mp h
    rfl
  | case2 _ _ _ _ _ _ ih => exact ih h
  | case3 =>
    cases h
    rfl
  | case4 _ _ _ _ _ _ _ _ ih => exact ih h

/-- A token is not above the line `least` of the place where its call has started, nor
below the line that the call has reached. -/
theorem line_of_bare {least : Nat} (hstart : word ≠ [] → least ≤ start ∧ start ≤ line)
    (hline : least ≤ line) (h : (bare file line inComment start word rest).1 = some token) :
    least ≤ token.line ∧ token.line ≤ (bare file line inComment start word rest).2.line := by
  fun_induction bare file line inComment start word rest with
  | case1 | case7 =>
    obtain ⟨hne, rfl⟩ := wordToken?_eq_some_iff.mp h
    exact hstart hne
  | case2 _ _ _ _ _ _ ih => exact ih hstart hline h
  | case3 _ _ _ _ _ _ _ _ _ _ hw ih =>
    refine ih ?_ (Nat.le_trans hline (line_le_lineAfter ..)) h
    intro hne
    exact absurd (List.isEmpty_iff.mp hw) hne
  | case4 =>
    obtain ⟨hne, rfl⟩ := wordToken?_eq_some_iff.mp h
    exact ⟨(hstart hne).1, Nat.le_trans (hstart hne).2 (line_le_lineAfter ..)⟩
  | case5 _ _ _ _ _ _ ih => exact ih hstart hline h
  | case6 =>
    cases h
    exact ⟨hline, Nat.le_refl _⟩
  | case8 _ _ _ _ _ _ _ _ ih => exact ih hstart hline h
  | case9 =>
    rw [line_of_quoted h]
    exact ⟨hline, line_le_quoted⟩
  | case10 _ _ _ _ _ _ _ _ _ _ _ _ ih => exact ih (fun _ => ⟨hline, Nat.le_refl _⟩) hline h
  | case11 _ _ _ _ _ _ _ _ _ _ hw ih =>
    exact ih (fun _ => hstart (by simpa using hw)) hline h

/-- A token stands between the lines where its call has started and ended. -/
theorem line_of_next {l : Lexer} (h : l.next.1 = some token) :
    l.line ≤ token.line ∧ token.line ≤ l.next.2.line :=
  line_of_bare (fun hne => absurd rfl hne) (Nat.le_refl _) h

/-- Tokens come in the order of their lines. -/
theorem tokens_sorted (l : Lexer) :
    (∀ token ∈ l.tokens, l.line ≤ token.line) ∧
      l.tokens.Pairwise fun first second => first.line ≤ second.line := by
  induction l using tokens_induction with
  | none l h =>
    rw [tokens_of_none h]
    exact ⟨fun _ hmem => absurd hmem List.not_mem_nil, .nil⟩
  | some l token h ih =>
    obtain ⟨hleast, hsorted⟩ := ih
    obtain ⟨hstart, hend⟩ := line_of_next h
    rw [tokens_of_some h]
    have hbehind : ∀ other ∈ l.next.2.tokens, token.line ≤ other.line :=
      fun other hother => Nat.le_trans hend (hleast other hother)
    refine ⟨List.forall_mem_cons.mpr ⟨hstart, fun other hother => ?_⟩, .cons hbehind hsorted⟩
    exact Nat.le_trans hstart (hbehind other hother)

end Lexer

/-! ## 3. First characters -/

namespace Scan

open Lexer

variable {file : String} {read : List Char} {c : Char} {s r : Scan} {ts : List Token}
  {token : Token}

/-- The character is the first one of a token: it stands outside quotes and comments, is
no blank and no `#`, and is in no word, which a `;` always ends. -/
structure Opens (s : Scan) (c : Char) : Prop where
  quote_eq : s.quote = none
  inComment_eq : s.inComment = false
  isBlank_eq : isBlank c = false
  ne_hash : c ≠ '#'
  word_eq : s.word = [] ∨ c = ';'

/-- `HasOrigin file read before line`: in what has been read, the first character of a
token stands on this line, behind a text that has the tokens `before`. -/
def HasOrigin (file : String) (read : List Char) (before : List Token) (line : Nat) : Prop :=
  ∃ front c behind, read = front ++ c :: behind ∧ (ofText file front).Opens c ∧
    (ofText file front).tokens = before ∧ line = 1 + front.count '\n'

/-- Every one of the tokens has its first character in what has been read. -/
def AllOrigins (file : String) (read : List Char) (ts : List Token) : Prop :=
  ∀ before token after, ts = before ++ token :: after → HasOrigin file read before token.line

theorem HasOrigin.concat {before : List Token} {line : Nat} (h : HasOrigin file read before line)
    (c : Char) : HasOrigin file (read ++ [c]) before line := by
  obtain ⟨front, first, behind, rfl, horigin⟩ := h
  exact ⟨front, first, behind ++ [c], by simp, horigin⟩

theorem AllOrigins.concat (h : AllOrigins file read ts) (c : Char) :
    AllOrigins file (read ++ [c]) ts :=
  fun before token after heq => (h before token after heq).concat c

/-- One more token at the end. -/
theorem AllOrigins.snoc (h : AllOrigins file read ts)
    (horigin : HasOrigin file read ts token.line) :
    AllOrigins file read (ts ++ [token]) := by
  intro before other after heq
  rcases List.eq_nil_or_concat after with rfl | ⟨after, last, rfl⟩
  · obtain ⟨rfl, hlast⟩ := List.append_inj' heq rfl
    cases hlast
    exact horigin
  · rw [List.concat_eq_append, ← List.cons_append, ← List.append_assoc] at heq
    exact h before other after (List.append_inj' heq rfl).1

/-- The tokens of a scan have their first characters in what it has read, and so has
what it is in the middle of. -/
structure IsLocated (file : String) (read : List Char) (s : Scan) : Prop where
  done : AllOrigins file read s.done.reverse
  pending : s.word ≠ [] ∨ s.quote ≠ none → HasOrigin file read s.done.reverse s.start

namespace IsLocated

/-- A word that is being read counts as a token too. -/
theorem tokens (h : s.IsLocated file read) : AllOrigins file read s.tokens := by
  rw [tokens_eq]
  cases hword : wordToken? s.file s.start s.word with
  | none => simpa using h.done
  | some token =>
    obtain ⟨hne, rfl⟩ := wordToken?_eq_some_iff.mp hword
    exact h.done.snoc (h.pending (.inl hne))

/-- Nothing is pending behind a token. -/
theorem of_done (hword : s.word = []) (hquote : s.quote = none)
    (h : AllOrigins file read s.done.reverse) : s.IsLocated file read :=
  ⟨h, fun hpending => absurd hpending (by simp [hword, hquote])⟩

/-- What is pending goes on. -/
theorem of_pending (h : s.IsLocated file read) (hdone : r.done = s.done)
    (hstart : r.start = s.start)
    (hpending : r.word ≠ [] ∨ r.quote ≠ none → s.word ≠ [] ∨ s.quote ≠ none) :
    r.IsLocated file (read ++ [c]) := by
  refine ⟨?_, fun hopen => ?_⟩
  · rw [hdone]
    exact h.done.concat c
  · rw [hdone, hstart]
    exact (h.pending (hpending hopen)).concat c

/-- Where a token opens, its first character is found. -/
theorem origin (hs : s = ofText file read) (h : s.Opens c) :
    HasOrigin file (read ++ [c]) s.tokens s.line := by
  have hline : s.line = 1 + read.count '\n' := by
    rw [hs]
    exact line_pushAll (.start file) read
  subst hs
  exact ⟨read, c, [], rfl, h, rfl, hline⟩

/-- Where a word or a quoted text opens, it is pending. -/
theorem of_opens (h : s.IsLocated file read) (hs : s = ofText file read) (hopens : s.Opens c)
    (hword : s.word = []) (hdone : r.done = s.done) (hstart : r.start = s.line) :
    r.IsLocated file (read ++ [c]) := by
  have horigin := origin hs hopens
  rw [tokens_of_word_nil hword] at horigin
  refine ⟨?_, fun _ => ?_⟩
  · rw [hdone]
    exact h.done.concat c
  · rw [hdone, hstart]
    exact horigin

theorem pushes (h : s.IsLocated file read) (hs : s = ofText file read) (hr : Pushes c s r) :
    r.IsLocated file (read ++ [c]) := by
  cases hr with
  | hold hquote | quoted hquote =>
    exact h.of_pending rfl rfl (fun _ => .inr (hquote ▸ Option.some_ne_none _))
  | skip | comment => exact h.of_pending rfl rfl id
  | word _ _ hword => exact h.of_pending rfl rfl fun _ => .inl hword
  | close hquote =>
    refine of_done rfl rfl ?_
    rw [List.reverse_cons]
    exact (h.done.snoc (h.pending (.inr (hquote ▸ Option.some_ne_none _)))).concat c
  | blank hquote =>
    refine of_done rfl hquote ?_
    rw [List.reverse_reverse]
    exact h.tokens.concat c
  | semicolon hquote hcomment hc =>
    subst hc
    have hopens : s.Opens ';' := ⟨hquote, hcomment, by decide, by decide, .inr rfl⟩
    refine of_done rfl hquote ?_
    rw [List.reverse_cons, List.reverse_reverse]
    exact (h.tokens.concat ';').snoc (origin hs hopens)
  | opening hquote hcomment hword hopen =>
    obtain ⟨hblank, _, hhash, _, _⟩ := ordinary_of_isQuote hopen
    exact h.of_opens hs ⟨hquote, hcomment, hblank, hhash, .inl hword⟩ hword rfl rfl
  | start hquote hcomment hword hblank _ hhash =>
    exact h.of_opens hs ⟨hquote, hcomment, hblank, hhash, .inl hword⟩ hword rfl rfl

/-- All tokens of a text have their first characters in it. -/
theorem ofText (file : String) (text : List Char) : (ofText file text).IsLocated file text := by
  have hstart : IsLocated file [] { file } :=
    of_done rfl rfl fun before token after heq => by simp at heq
  refine (pushAll_induction
    (P := fun read s => s = Scan.ofText file read ∧ s.IsLocated file read)
    (fun read s r c hr h => ⟨?_, h.2.pushes h.1 hr⟩) [] ⟨rfl, hstart⟩ text).2
  rw [← pushes_iff.mp hr, h.1, Scan.ofText, Scan.ofText, pushAll_append]
  rfl

end IsLocated

/-- From the first character of a token on, a scan makes the tokens that a lexer makes
which starts there. -/
theorem Opens.tokens_pushAll (h : s.Opens c) (hs : s.IsCoherent) (behind : List Char) :
    (s.pushAll (c :: behind)).tokens =
      s.tokens ++ Lexer.tokens { file := s.file, rest := c :: behind, line := s.line } := by
  have hescaped := hs.escaped_eq h.quote_eq
  have hflush : s.flush.quote = none ∧ s.flush.inComment = false ∧ s.flush.escaped = false := by
    rw [flush_eq]
    exact ⟨h.quote_eq, h.inComment_eq, hescaped⟩
  -- The word that a `;` ends might as well have ended before.
  have hpush : s.push c = s.flush.push c := by
    rcases h.word_eq with hword | rfl
    · rw [flush_of_isEmpty (List.isEmpty_iff.mpr hword)]
    · have hsame := pushes_iff.mp (.semicolon h.quote_eq h.inComment_eq rfl)
      have hended := pushes_iff.mp (.semicolon hflush.1 hflush.2.1 rfl)
      rw [hsame, hended, tokens_flush, flush_eq]
  have hword : s.flush.word = [] := by rw [flush_eq]
  have hbetween := (ReadsAlike.all (c :: behind)).between s.flush hflush.1 hflush.2.2 hword
  rw [pushAll_cons, hpush, ← pushAll_cons, hbetween, flush_eq, List.reverse_reverse, h.inComment_eq]

end Scan

namespace Lexer

variable {file : String} {line start : Nat} {inComment : Bool} {word rest : List Char} {c : Char}
  {token : Token}

/-- What is read of a word already stands in front of the rest of it. -/
theorem head_of_bare (hword : word.getLast? = some c)
    (h : (bare file line inComment start word rest).1 = some token) :
    token.text.toList.head? = some c := by
  fun_induction bare file line inComment start word rest with
  | case1 | case4 | case7 =>
    obtain ⟨-, rfl⟩ := wordToken?_eq_some_iff.mp h
    rw [String.toList_ofList, List.head?_reverse, hword]
  | case2 _ _ _ _ _ _ ih => exact ih hword h
  | case5 _ _ _ _ _ _ ih => exact ih hword h
  | case8 _ _ _ _ _ _ _ _ ih => exact ih hword h
  | case11 _ _ _ word _ _ _ _ _ _ _ ih =>
    refine ih ?_ h
    rw [List.getLast?_cons, hword, Option.getD_some]
  | case3 | case6 | case9 | case10 =>
    -- There is a word already.
    simp_all

/-- The token of a call that starts where a token opens begins with the character there:
a quote that opens it, or else the first character of what it says. -/
theorem head_of_next {s : Scan} (hopens : s.Opens c)
    (h : (next { file, rest := c :: rest, line }).1 = some token) :
    isQuote c = true ∨ token.text.toList.head? = some c := by
  have hblank := hopens.isBlank_eq
  have hhash := hopens.ne_hash
  by_cases hquote : isQuote c = true
  · exact .inl hquote
  · refine .inr ?_
    by_cases hsemi : c = ';'
    · subst hsemi
      have hnext : ⟨file, line, ";"⟩ = token := by
        simpa [next, bare, hblank] using h
      rw [← hnext]
      exact (by decide : ";".toList.head? = some ';')
    · have hnext : (bare file line false line [c] rest).1 = some token := by
        simpa [next, bare, hblank, hsemi, hhash, hquote] using h
      exact head_of_bare rfl hnext

end Lexer

/-! ## 4. All lines -/

/-- Every token of a text opens at some character of it, behind a text that has the
tokens in front, and a lexer that starts there reads it first. -/
theorem exists_opens {file : String} {bytes : List UInt8} {before after : List Token}
    {token : Token} (h : tokenize file bytes = before ++ token :: after) :
    ∃ front c behind, Utf8.decode bytes = front ++ c :: behind ∧
      (Scan.ofText file front).Opens c ∧ (Lexer.ofText file front).tokens = before ∧
      Lexer.tokens { file, rest := c :: behind, line := token.line } = token :: after ∧
      token.line = 1 + front.count '\n' := by
  rw [tokenize, Lexer.ofBytes, Lexer.tokens_ofText] at h
  obtain ⟨front, c, behind, htext, hopens, hbefore, hline⟩ :=
    (Scan.IsLocated.ofText file (Utf8.decode bytes)).tokens before token after h
  have hs : (Scan.ofText file front).IsCoherent := (Scan.IsCoherent.start file).pushAll front
  have hfile : (Scan.ofText file front).file = file :=
    (Scan.IsNamed.start file).pushAll front |>.file_eq
  have hcount : (Scan.ofText file front).line = token.line := by
    rw [hline]
    exact Scan.line_pushAll (.start file) front
  have hfrom := hopens.tokens_pushAll hs behind
  rw [hfile, hcount, hbefore, Scan.ofText, ← Scan.pushAll_append, ← htext] at hfrom
  have hrest := List.append_cancel_left (h.symm.trans hfrom)
  refine ⟨front, c, behind, htext, hopens, ?_, hrest.symm, hline⟩
  rw [Lexer.tokens_ofText, hbefore]

/-- Lines are exact, whatever the bytes are.

Every token of a text has a first character, which is the quote that opens it or else the
first one of what it says, as a `;` is: the text in front has just the tokens in front of
it, and a lexer that starts at the character reads this token first. Its line is one more
than the number of line ends in front of that character, those inside quotes and comments
included.

Tokens come in the order of their lines. Behind every call, the line that the lexer has
reached is not above that of the token; and behind a call that returns none, it is one
more than the number of line feeds among the bytes. -/
theorem lines_exact (file : String) (bytes : List UInt8) :
    (∀ before token after, tokenize file bytes = before ++ token :: after →
      ∃ front c behind, Utf8.decode bytes = front ++ c :: behind ∧
        (Scan.ofText file front).Opens c ∧
        (Lexer.isQuote c = true ∨ token.text.toList.head? = some c) ∧
        (Lexer.ofText file front).tokens = before ∧
        Lexer.tokens { file, rest := c :: behind, line := token.line } = token :: after ∧
        token.line = 1 + front.count '\n') ∧
    ((tokenize file bytes).Pairwise fun first second => first.line ≤ second.line) ∧
    ∀ i, let call := ((Lexer.ofBytes file bytes).after i).next
      (∀ token, call.1 = some token → token.line ≤ call.2.line) ∧
      (call.1 = none → call.2.line = 1 + bytes.count 0x0A) := by
  refine ⟨fun before token after htokens => ?_, (Lexer.tokens_sorted _).2, fun i => ?_⟩
  · obtain ⟨front, c, behind, htext, hopens, hbefore, hfrom, hline⟩ := exists_opens htokens
    have hnext := Lexer.next_after { file, rest := c :: behind, line := token.line } 0
    rw [hfrom] at hnext
    exact ⟨front, c, behind, htext, hopens, Lexer.head_of_next hopens hnext, hbefore, hfrom, hline⟩
  · let l := (Lexer.ofBytes file bytes).after i
    refine ⟨fun token hnext => (Lexer.line_of_next hnext).2, fun hnext => ?_⟩
    have hrest : l.next.2.rest = [] := Lexer.bare_rest_of_none hnext
    have hcall := Lexer.line_add_next l
    have hrun := Lexer.line_add_after (Lexer.ofBytes file bytes) i
    rw [hrest, List.count_nil, Nat.add_zero] at hcall
    rw [hcall, hrun]
    exact congrArg (1 + ·) (Utf8.count_decode bytes)

/-- A quoted text with bytes in it that are no character, up to the next line, and a word
behind it, with a line end at the end: `q \x22\xE2\n\x22 a\n`. -/
def brokenBytes : List UInt8 :=
  [0x71, 0x20, 0x22, 0xE2, 0x0A, 0x22, 0x20, 0x61, 0x0A]

/-- Its tokens and their lines. -/
theorem lines_exact_brokenBytes :
    tokenize "f" brokenBytes =
      [⟨"f", 1, "q"⟩, ⟨"f", 1, "\uFFFD\n"⟩] ++ ⟨"f", 2, "a"⟩ :: [] ∧
    (∃ front c behind, Utf8.decode brokenBytes = front ++ c :: behind ∧
      (Scan.ofText "f" front).Opens c ∧
      (Lexer.isQuote c = true ∨ "a".toList.head? = some c) ∧
      (Lexer.ofText "f" front).tokens = [⟨"f", 1, "q"⟩, ⟨"f", 1, "\uFFFD\n"⟩] ∧
      Lexer.tokens { file := "f", rest := c :: behind, line := 2 } = [⟨"f", 2, "a"⟩] ∧
      2 = 1 + front.count '\n') ∧
    ((Lexer.ofBytes "f" brokenBytes).after 3).next.1 = none ∧
    ((Lexer.ofBytes "f" brokenBytes).after 3).next.2.line = 3 := by
  have htext : Utf8.decode brokenBytes = "q \x22\uFFFD\n\x22 a\n".toList := by
    simp [brokenBytes, Utf8.decode_cons, Utf8.decode_nil, Utf8.first, Utf8.lead?, Utf8.follow,
      Utf8.replacement]
  have htokens : tokenize "f" brokenBytes =
      [⟨"f", 1, "q"⟩, ⟨"f", 1, "\uFFFD\n"⟩] ++ ⟨"f", 2, "a"⟩ :: [] := by
    rw [tokenize, Lexer.ofBytes, Lexer.tokens_ofText, htext]
    decide
  have hnone : ((Lexer.ofBytes "f" brokenBytes).after 3).next.1 = none := by
    rw [Lexer.ofBytes, htext]
    decide
  obtain ⟨hlocated, -, hcalls⟩ := lines_exact "f" brokenBytes
  exact ⟨htokens, hlocated _ _ _ htokens, hnone, (hcalls 3).2 hnone⟩

end ConfTree
