import ConfTree.Proofs.Lexer.LineEnds

/-!
# What a scan passes over

Outside quotes, a carriage return and a comment leave no trace in the tokens, even in
the middle of a word: at most, the word ends before its line does.

1. `pushAll_in_comment`: all that a comment does is to end a word.
2. `tokens_comment`, `push_line_comment`: no token tells of a comment, and behind its
   line nothing does.
3. `transparent_iff`: where carriage returns and comments can be put into a text.
-/

namespace ConfTree

namespace Scan

variable {s : Scan} {comment : List Char}

/-! ## 1. Inside a comment -/

theorem tokens_flush (s : Scan) : s.flush.tokens = s.tokens := by
  rw [flush_eq, tokens_of_word_nil rfl, List.reverse_reverse]

theorem flush_flush (s : Scan) : s.flush.flush = s.flush :=
  flush_of_isEmpty (by rw [flush_eq]; rfl)

/-- Up to the end of its line, a comment does nothing but that a blank in it ends a
word. -/
theorem pushAll_in_comment (hquote : s.quote = none) (hcomment : s.inComment = true)
    (htext : '\n' ∉ comment) : s.pushAll comment = s ∨ s.pushAll comment = s.flush := by
  induction comment generalizing s with
  | nil => exact .inl rfl
  | cons c comment ih =>
    obtain ⟨hc, hrest⟩ := not_or.mp (mt List.mem_cons.mpr htext)
    rw [pushAll_cons]
    by_cases hskip : c = '\r' ∨ isBlank c = false
    · rw [pushes_iff.mp (.skip hquote (hskip.imp_right fun h => ⟨h, hcomment⟩))]
      exact ih hquote hcomment hrest
    · obtain ⟨hcr, hblank⟩ := not_or.mp hskip
      have hpush : s.push c = s.flush := by
        rw [pushes_iff.mp (.blank hquote (by simpa using hblank) hcr), flush_eq,
          lineAfter_of_ne (Ne.symm hc), bne_iff_ne.mpr (Ne.symm hc), Bool.and_true]
      have hflush : s.flush.quote = none ∧ s.flush.inComment = true := by
        rw [flush_eq]
        exact ⟨hquote, hcomment⟩
      rw [hpush]
      -- No word is left that could end.
      have hcases := ih hflush.1 hflush.2 hrest
      rw [flush_flush, or_self] at hcases
      exact .inr hcases

/-- A comment may also start inside of another one. -/
theorem pushAll_comment (hquote : s.quote = none) (htext : '\n' ∉ comment) :
    s.pushAll ('#' :: comment) = { s with inComment := true } ∨
      s.pushAll ('#' :: comment) = Scan.flush { s with inComment := true } := by
  have hpush : s.push '#' = { s with inComment := true } := by
    cases hcomment : s.inComment with
    | false => exact pushes_iff.mp (.comment hquote hcomment rfl)
    | true =>
      rw [← hcomment]
      exact pushes_iff.mp (.skip hquote (.inr ⟨by decide, hcomment⟩))
  rw [pushAll_cons, hpush]
  exact pushAll_in_comment hquote rfl htext

/-! ## 2. Behind a comment -/

theorem tokens_inComment (s : Scan) (inComment : Bool) :
    Scan.tokens { s with inComment } = s.tokens := by
  rw [tokens_eq, tokens_eq]

/-- No token tells of a comment. -/
theorem tokens_comment (hquote : s.quote = none) (htext : '\n' ∉ comment) :
    (s.pushAll ('#' :: comment)).tokens = s.tokens := by
  rcases pushAll_comment hquote htext with h | h
  · rw [h, tokens_inComment]
  · rw [h, tokens_flush, tokens_inComment]

/-- A line end ends the word in any case. -/
theorem push_line_flush (hquote : s.quote = none) : s.flush.push '\n' = s.push '\n' := by
  have hflush : s.flush.quote = none := by
    rw [flush_eq]
    exact hquote
  rw [push_line hflush, push_line hquote, tokens_flush, flush_eq]

/-- Behind the end of its line, nothing tells of a comment. -/
theorem push_line_comment (hquote : s.quote = none) (htext : '\n' ∉ comment) :
    (s.pushAll ('#' :: comment)).push '\n' = s.push '\n' := by
  have hline : Scan.push { s with inComment := true } '\n' = s.push '\n' := by
    rw [push_line (s := { s with inComment := true }) hquote, push_line hquote, tokens_inComment]
  rcases pushAll_comment hquote htext with h | h
  · rw [h, hline]
  · rw [h, push_line_flush (s := { s with inComment := true }) hquote, hline]

end Scan

/-! ## 3. Texts -/

/-- Carriage returns and comments make no difference exactly where a text does not
break off inside quotes: there, and only there, a carriage return changes no token,
whatever is behind it; and neither does a `#` with anything but line ends behind it,
in front of a line end or at the end of the text. It does not matter whether the text
in front ends in a word, in a comment or between two words. -/
theorem transparent_iff (file : String) (front : List Char) :
    (Scan.ofText file front).quote = none ↔
      (∀ behind, (Lexer.ofText file (front ++ '\r' :: behind)).tokens =
        (Lexer.ofText file (front ++ behind)).tokens) ∧
      ∀ comment behind, '\n' ∉ comment → behind = [] ∨ behind.head? = some '\n' →
        (Lexer.ofText file (front ++ '#' :: comment ++ behind)).tokens =
          (Lexer.ofText file (front ++ behind)).tokens := by
  let s := Scan.ofText file front
  have htokens (behind : List Char) :
      (Lexer.ofText file (front ++ behind)).tokens = (s.pushAll behind).tokens := by
    rw [Lexer.tokens_ofText, Scan.ofText, Scan.pushAll_append]
    rfl
  constructor
  · intro hquote
    refine ⟨fun behind => ?_, fun comment behind hcomment hbehind => ?_⟩
    · have hpush : s.push '\r' = s := Scan.pushes_iff.mp (.skip hquote (.inl rfl))
      rw [htokens, htokens, Scan.pushAll_cons, hpush]
    · rw [List.append_assoc, htokens, htokens, Scan.pushAll_append]
      cases behind with
      | nil => exact Scan.tokens_comment hquote hcomment
      | cons c behind =>
        obtain rfl : c = '\n' := by simpa using hbehind
        have hline := Scan.push_line_comment hquote hcomment
        rw [Scan.pushAll_cons, hline]
        rfl
  · rintro ⟨hreturn, -⟩
    have hs : s.IsCoherent := (Scan.IsCoherent.start file).pushAll front
    refine Option.eq_none_iff_forall_ne_some.mpr fun quote hquote => ?_
    have hsame := hreturn []
    rw [htokens, htokens] at hsame
    exact Scan.tokens_push_blank_ne hquote hs (by decide) hsame

/-- A comment with blanks and marks in it, in the middle of a word. -/
theorem transparent_word :
    let comment := " it's; \x22a\\ #\x7b".toList
    '\n' ∉ comment ∧ "\nb".toList.head? = some '\n' ∧
      (Lexer.ofText "f" ("ab".toList ++ '#' :: comment ++ "\nb".toList)).tokens =
        (Lexer.ofText "f" ("ab".toList ++ "\nb".toList)).tokens := by
  intro comment
  have hquote : (Scan.ofText "f" "ab".toList).quote = none := by decide
  have hcomment : '\n' ∉ comment := by decide
  exact ⟨hcomment, rfl, ((transparent_iff "f" "ab".toList).mp hquote).2 _ _ hcomment (.inr rfl)⟩

end ConfTree
