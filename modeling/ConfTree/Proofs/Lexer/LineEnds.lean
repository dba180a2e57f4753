import ConfTree.Proofs.Lexer.Scan

/-!
# Texts fall apart at line ends

Outside quotes a line end ends all that a scan is in the middle of: a word, a
comment, a carriage return. What comes behind is read as a text of its own, only
further down.

1. `IsCoherent`, `line_pushAll`: what holds of every scan of a text, and the lines
   it counts.
2. `below`, `pushAll_below`: a scan that is further down does the same further
   down. `Lexer.tokens_below`: so does a lexer.
3. `tokenize_line_end_iff`: a text can be cut at a line end exactly if it does not
   break off inside quotes there.
-/

namespace ConfTree

/-- The token, so many lines further down. -/
def Token.below (lines : Nat) (t : Token) : Token := { t with line := t.line + lines }

namespace Scan

open Lexer

variable {s r : Scan} {c : Char}

/-! ## 1. Lines -/

/-- The parts of the state fit together, as they do in every scan of a text.

* `isQuote`: what it is inside of is a quote.
* `escaped_eq`: outside quotes no backslash is held back. -/
structure IsCoherent (s : Scan) : Prop where
  isQuote : ∀ quote, s.quote = some quote → Lexer.isQuote quote = true
  escaped_eq : s.quote = none → s.escaped = false

namespace IsCoherent

theorem pushes (h : s.IsCoherent) (hr : Pushes c s r) : r.IsCoherent := by
  cases hr with
  | hold hquote => exact ⟨h.isQuote, fun hnone => nomatch hquote.symm.trans hnone⟩
  | close _ hescaped => exact ⟨fun _ hsome => (nomatch hsome), fun _ => hescaped⟩
  | quoted => exact ⟨h.isQuote, fun _ => rfl⟩
  | skip | blank | semicolon | comment | start | word => exact ⟨h.isQuote, h.escaped_eq⟩
  | opening _ _ _ hopen =>
    refine ⟨fun quote hsome => ?_, fun hnone => (nomatch hnone)⟩
    cases hsome
    exact hopen

theorem pushAll (h : s.IsCoherent) (text : List Char) : (s.pushAll text).IsCoherent :=
  pushAll_induction (P := fun _ => IsCoherent) (fun _ _ _ _ hr h => h.pushes hr) [] h text

/-- Nothing is open at the start of a text. -/
theorem start (file : String) : IsCoherent { file } :=
  ⟨fun _ hsome => (nomatch hsome), fun _ => rfl⟩

end IsCoherent

theorem lineAfter_of_ne {line : Nat} (h : c ≠ '\n') : lineAfter line c = line := by
  rw [lineAfter, if_neg h]

theorem ne_line_of_not_isBlank (h : isBlank c = false) : c ≠ '\n' := by
  rintro rfl
  exact absurd h (by decide)

/-- Every line end counts, wherever it stands. -/
theorem Pushes.line_eq (hr : Pushes c s r) (h : s.IsCoherent) :
    r.line = lineAfter s.line c := by
  cases hr with
  | hold _ _ hc => exact (lineAfter_of_ne (by rw [hc]; decide)).symm
  | close hquote _ _ hc =>
    obtain ⟨_, _, _, _, hne⟩ := ordinary_of_isQuote (h.isQuote _ hquote)
    exact (lineAfter_of_ne (hc ▸ hne)).symm
  | quoted | blank => rfl
  | skip _ hc =>
    rcases hc with hc | ⟨hblank, _⟩
    · exact (lineAfter_of_ne (by rw [hc]; decide)).symm
    · exact (lineAfter_of_ne (ne_line_of_not_isBlank hblank)).symm
  | semicolon _ _ hc | comment _ _ hc => exact (lineAfter_of_ne (by rw [hc]; decide)).symm
  | opening _ _ _ hopen =>
    obtain ⟨_, _, _, _, hne⟩ := ordinary_of_isQuote hopen
    exact (lineAfter_of_ne hne).symm
  | start _ _ _ hblank | word _ _ _ hblank =>
    exact (lineAfter_of_ne (ne_line_of_not_isBlank hblank)).symm

/-- The line that a scan has reached is told by the line ends of the text. -/
theorem line_pushAll (h : s.IsCoherent) (text : List Char) :
    (s.pushAll text).line = s.line + text.count '\n' := by
  induction text generalizing s with
  | nil => rfl
  | cons c text ih =>
    have hpush := pushes_push c s
    rw [pushAll_cons, ih (h.pushes hpush), hpush.line_eq h, lineAfter_add_count]

/-! ## 2. Further down -/

/-- The scan, so many lines further down. -/
def below (lines : Nat) (s : Scan) : Scan :=
  { s with
    line := s.line + lines
    start := s.start + lines
    done := s.done.map (Token.below lines) }

section Below

variable (lines : Nat)

theorem tokens_below (s : Scan) : (s.below lines).tokens = s.tokens.map (Token.below lines) := by
  simp only [tokens_eq, below]
  by_cases hw : s.word.isEmpty = true
  · simp [wordToken?_of_isEmpty hw]
  · simp [wordToken?_of_not_isEmpty hw, Token.below]

theorem lineAfter_add (line : Nat) (c : Char) :
    lineAfter (line + lines) c = lineAfter line c + lines := by
  unfold lineAfter
  split
  · exact Nat.add_right_comm _ _ _
  · rfl

/-- Further down, a character does the same. -/
theorem Pushes.below (hr : Pushes c s r) : Pushes c (s.below lines) (r.below lines) := by
  cases hr with
  | hold hquote he hc => exact .hold hquote he hc
  | close hquote he hc hclose => exact .close hquote he hc hclose
  | quoted hquote hc =>
    have hquoted := Pushes.quoted (s := s.below lines) hquote hc
    rw [show (s.below lines).line = s.line + lines from rfl, lineAfter_add] at hquoted
    exact hquoted
  | skip hquote hc => exact .skip hquote hc
  | blank hquote hblank hc =>
    have hended := Pushes.blank (s := s.below lines) hquote hblank hc
    rw [show (s.below lines).line = s.line + lines from rfl, lineAfter_add, tokens_below,
      ← List.map_reverse] at hended
    exact hended
  | semicolon hquote hcomment hc =>
    have hended := Pushes.semicolon (s := s.below lines) hquote hcomment hc
    rw [tokens_below, ← List.map_reverse] at hended
    exact hended
  | comment hquote hcomment hc => exact .comment hquote hcomment hc
  | opening hquote hcomment hw hopen => exact .opening hquote hcomment hw hopen
  | start hquote hcomment hw hblank hsemi hhash hopen =>
    exact .start hquote hcomment hw hblank hsemi hhash hopen
  | word hquote hcomment hw hblank hsemi hhash =>
    exact .word hquote hcomment hw hblank hsemi hhash

theorem pushAll_below (s : Scan) (text : List Char) :
    (s.below lines).pushAll text = (s.pushAll text).below lines := by
  induction text generalizing s with
  | nil => rfl
  | cons c text ih =>
    rw [pushAll_cons, pushAll_cons, pushes_iff.mp ((pushes_push c s).below lines), ih]

end Below

end Scan

/-- Further down, a lexer makes the same tokens further down. -/
theorem Lexer.tokens_below (l : Lexer) (lines : Nat) :
    Lexer.tokens { l with line := l.line + lines } = l.tokens.map (Token.below lines) := by
  let s : Scan := { file := l.file, line := l.line, inComment := l.inComment }
  have hscan := (Scan.ReadsAlike.all l.rest).between s rfl rfl rfl
  have hbelow := (Scan.ReadsAlike.all l.rest).between (s.below lines) rfl rfl rfl
  rw [Scan.pushAll_below, Scan.tokens_below, hscan] at hbelow
  exact hbelow.symm

/-! ## 3. Line ends -/

namespace Scan

variable {s : Scan}

/-- Behind a line end outside quotes, the scan goes on as a lexer starts on what
follows. -/
theorem tokens_behind_line (hquote : s.quote = none) (h : s.IsCoherent) (behind : List Char) :
    ((s.push '\n').pushAll behind).tokens =
      s.tokens ++ (Lexer.ofText s.file behind).tokens.map (Token.below s.line) := by
  have hbehind := (ReadsAlike.all behind).between (s.push '\n')
  rw [push_line hquote] at hbehind ⊢
  rw [hbehind hquote (h.escaped_eq hquote) rfl, List.reverse_reverse, ← Lexer.tokens_below,
    Nat.add_comm s.line 1]
  rfl

/-- Inside quotes, any character but the quote and a backslash is one more character of
the word. -/
theorem tokens_push_ne {quote c : Char} (hquote : s.quote = some quote) (hback : c ≠ '\\')
    (hne : c ≠ quote) : (s.push c).tokens ≠ s.tokens := by
  have hpush := pushes_iff.mp (.quoted hquote (.inr ⟨hback, hne⟩))
  rw [hpush, tokens_eq, tokens_eq]
  intro hsame
  have hword := List.append_cancel_left hsame
  by_cases hw : s.word.isEmpty = true
  · simp [Lexer.wordToken?, hw] at hword
  · simp only [Lexer.wordToken?, hw, List.isEmpty_cons, Bool.false_eq_true, ↓reduceIte,
      Option.toList_some, List.cons.injEq, and_true, Token.mk.injEq, true_and,
      String.ofList_inj, List.reverse_inj] at hword
    have hlength := congrArg List.length hword
    split at hlength <;> simp at hlength
    omega

/-- A blank never closes quotes. -/
theorem tokens_push_blank_ne {quote c : Char} (hquote : s.quote = some quote) (h : s.IsCoherent)
    (hblank : isBlank c = true) : (s.push c).tokens ≠ s.tokens := by
  refine tokens_push_ne hquote ?_ ?_
  · rintro rfl
    exact absurd hblank (by decide)
  · rintro rfl
    obtain ⟨hnone, _⟩ := ordinary_of_isQuote (h.isQuote _ hquote)
    exact absurd hblank (by simp [hnone])

end Scan

/-- A text can be cut at a line end exactly if it does not break off inside quotes
there: then, and only then, its tokens in front of every other text are its own, and
those of the other text follow, as many lines further down as the first text has line
ends with the one at the cut. It does not matter what else the first text ends in: a
word, a comment, a `;`, blanks, a carriage return, or bytes that are no character. -/
theorem tokenize_line_end_iff (file : String) (front : List UInt8) :
    (Scan.ofText file (Utf8.decode front)).quote = none ↔
      ∀ behind, tokenize file (front ++ Utf8.encode ['\n'] ++ behind) =
        tokenize file front ++
          (tokenize file behind).map (Token.below (1 + (Utf8.decode front).count '\n')) := by
  let s := Scan.ofText file (Utf8.decode front)
  have hs : s.IsCoherent := (Scan.IsCoherent.start file).pushAll _
  have hfile : s.file = file := (Scan.IsNamed.start file).pushAll _ |>.file_eq
  have hline : s.line = 1 + (Utf8.decode front).count '\n' :=
    Scan.line_pushAll (.start file) _
  have hfront : tokenize file front = s.tokens := Lexer.tokens_ofText file _
  have hall (behind : List UInt8) :
      tokenize file (front ++ Utf8.encode ['\n'] ++ behind) =
        ((s.push '\n').pushAll (Utf8.decode behind)).tokens := by
    have hdecode := Utf8.decode_append_ascii (show (0x0A : UInt8) < 0x80 by decide) behind front
    have hbytes : front ++ Utf8.encode ['\n'] ++ behind = front ++ 0x0A :: behind :=
      List.append_assoc _ _ _
    rw [tokenize, Lexer.ofBytes, Lexer.tokens_ofText, hbytes, hdecode, Scan.ofText,
      Scan.pushAll_append, Scan.pushAll_cons]
    rfl
  constructor
  · intro hquote behind
    rw [hall, Scan.tokens_behind_line hquote hs, hfront, hfile, hline]
    rfl
  · intro h
    refine Option.eq_none_iff_forall_ne_some.mpr fun quote hquote => ?_
    have hcut := h []
    have hempty : tokenize file [] = [] := tokenize_encode file []
    rw [hall, hfront, Utf8.decode_nil, hempty, List.map_nil, List.append_nil] at hcut
    exact Scan.tokens_push_blank_ne hquote hs (by decide) hcut

end ConfTree
