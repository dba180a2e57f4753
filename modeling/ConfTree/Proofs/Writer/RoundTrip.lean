import Mathlib
import ConfTree.Proofs.Grammar.Tokens
import ConfTree.Proofs.Lexer.Words

/-!
# What is written is read back

1. `parse_of_texts`: a text is read as a tree if its tokens say what those of the
   tree say.
2. `parse_written`: every written form of a tree is read as the tree.
3. `parse_of_heads`: statements without blocks.
   `parse_quoted`: what stands between quotes is a word and nothing else, unless it
   looks like a mark. `parse_quoted_semicolon`, `parse_quoted_marks`: what happens
   then.
-/

namespace ConfTree

open Directive (isReadableAll heightAll tokensAll unplacedAll)

variable {t : FileTree} {s : Settings} {ds : List Directive}

/-! ## 1. Tokens of a text -/

/-- A text is read as a tree, places apart, if its tokens say what those of the
tree say. -/
theorem parse_of_texts {bytes : List UInt8} (hreadable : isReadableAll ds = true)
    (hheight : heightAll ds ≤ s.limits.blockDepth)
    (htexts : (tokenize s.sourceName bytes).map Token.text = (tokensAll ds).map Token.text)
    (hsize : bytes.length ≤ s.limits.fileSize)
    (htokens : (tokenize s.sourceName bytes).length ≤ s.limits.tokens) :
    ∃ es, parse t s bytes = .ok es ∧ unplacedAll es = unplacedAll ds := by
  rw [parse, if_neg (Nat.not_lt.mpr hsize)]
  exact Grammar.parseFrom_of_texts hreadable htexts htokens hheight

/-! ## 2. Written trees -/

/-- A tree whose words can be written has a written form, which the writer finds.
Every written form is read as the tree, places apart, if it keeps the limits on
bytes and tokens. -/
theorem parse_written (t : FileTree) (hreadable : isReadableAll ds = true)
    (hwritable : Writer.IsWritableAll ds) (hheight : heightAll ds ≤ s.limits.blockDepth) :
    (∃ text, Writer.directives? ds = some text ∧ Writer.Written ds text) ∧
      ∀ text, Writer.Written ds text → (Utf8.encode text).length ≤ s.limits.fileSize →
        (tokenize s.sourceName (Utf8.encode text)).length ≤ s.limits.tokens →
        ∃ es, parse t s (Utf8.encode text) = .ok es ∧ unplacedAll es = unplacedAll ds := by
  refine ⟨Writer.exists_directives? ds hreadable hwritable, fun text htext hsize htokens => ?_⟩
  exact parse_of_texts hreadable hheight (texts_of_written s.sourceName htext) hsize htokens

/-- A tree with all kinds of words that look like something else. -/
def quotesTree : List Directive :=
  [.block ⟨["if", "($a ~ \"\")", "it\x27s", "\x7d", "#;\x7b\n"], "", 0⟩
    [.simple ⟨["\\\\", "\\\\\\\\ ", "say \x22hi\x22", "", "include"], "", 0⟩,
      .block ⟨["\x27\x22"], "", 0⟩ []],
   .simple ⟨["größe", "5\u3000"], "", 0⟩]

/-- This tree is written and read back. -/
theorem parse_written_quotesTree :
    isReadableAll quotesTree = true ∧ Writer.IsWritableAll quotesTree ∧
      heightAll quotesTree ≤ ({} : Settings).limits.blockDepth ∧
      ∃ text, Writer.directives? quotesTree = some text ∧
        ∃ es, parse .empty {} (Utf8.encode text) = .ok es ∧ unplacedAll es = quotesTree := by
  have hreadable : isReadableAll quotesTree = true := by decide
  have hwritable : Writer.IsWritableAll quotesTree := by
    simp only [quotesTree, Writer.IsWritableAll, Writer.IsWritable]
    decide
  have hheight : heightAll quotesTree ≤ ({} : Settings).limits.blockDepth := by decide
  refine ⟨hreadable, hwritable, hheight, ?_⟩
  obtain ⟨⟨text, htext, hwritten⟩, hread⟩ :=
    parse_written .empty hreadable hwritable hheight
  have hsize : (Writer.directives? quotesTree).map (fun text => (Utf8.encode text).length) =
      some 97 := by cbv
  have hcount : (Writer.directives? quotesTree).map
      (fun text => (tokenize "nginx.conf" (Utf8.encode text)).length) = some 19 := by cbv
  rw [htext, Option.map_some, Option.some.injEq] at hsize hcount
  obtain ⟨es, hes, hsame⟩ := hread text hwritten (by rw [hsize]; decide) (by rw [hcount]; decide)
  exact ⟨text, htext, es, hes, hsame⟩

/-! ## 3. Quoted words -/

section Quoted

variable {name text : List Char} {front behind : List (List Char)} {quote : Char}

theorem ofList_eq_iff {p : String} : String.ofList text = p ↔ text = p.toList := by
  constructor
  · rintro rfl
    rw [String.toList_ofList]
  · rintro rfl
    rw [String.ofList_toList]

/-- A bare word and words that do not look like marks make a statement. -/
theorem isReadableHead_of_isBare {args : List (List Char)} {file : String} {line : Nat}
    (hname : Writer.IsBare name) (hinclude : name ≠ "include".toList)
    (hargs : ∀ w ∈ args, w ≠ [';'] ∧ w ≠ ['\x7b']) :
    Directive.isReadableHead ⟨(name :: args).map String.ofList, file, line⟩ = true := by
  have hsemi : name ≠ [';'] := hname.ne_mark (.inl rfl)
  have hopen : name ≠ ['\x7b'] := hname.ne_mark (.inr (.inl rfl))
  have hclose : name ≠ ['\x7d'] := hname.ne_mark (.inr (.inr rfl))
  simpa [Directive.isReadableHead, Directive.token, Token.isMark, Token.isInclude,
    Token.endsStatement, Token.opensBlock, Token.closesBlock, ofList_eq_iff, hsemi, hopen, hclose]
    using And.intro hinclude hargs

theorem ne_marks_of_isBare {words : List (List Char)} (h : ∀ w ∈ words, Writer.IsBare w) :
    ∀ w ∈ words, w ≠ [';'] ∧ w ≠ ['\x7b'] :=
  fun w hw => ⟨(h w hw).ne_mark (.inl rfl), (h w hw).ne_mark (.inr (.inl rfl))⟩

/-- Directives without blocks, places apart, are directives without blocks. -/
theorem exists_heads_of_unplacedAll {es : List Directive} {heads : List Statement}
    (h : unplacedAll es = unplacedAll (heads.map .simple)) :
    ∃ heads' : List Statement, es = heads'.map .simple ∧
      heads'.map Statement.params = heads.map Statement.params := by
  induction heads generalizing es with
  | nil =>
    cases es with
    | nil => exact ⟨[], rfl, rfl⟩
    | cons e es => simp [unplacedAll] at h
  | cons head heads ih =>
    match es with
    | [] => simp [unplacedAll] at h
    | .block _ _ :: _ => simp [unplacedAll, Directive.unplaced] at h
    | .simple first :: es =>
      simp only [List.map_cons, unplacedAll, Directive.unplaced, List.cons.injEq,
        Directive.simple.injEq, Statement.mk.injEq, and_true] at h
      obtain ⟨rest, rfl, hrest⟩ := ih h.2
      exact ⟨first :: rest, rfl, by simp [h.1, hrest]⟩

/-- The tokens of directives without blocks are their words, each statement with a
`;` behind it. -/
theorem texts_tokensAll_simple (heads : List Statement) :
    (tokensAll (heads.map .simple)).map Token.text =
      heads.flatMap fun head => head.params ++ [";"] := by
  induction heads with
  | nil => rfl
  | cons head heads ih =>
    simp [tokensAll, Directive.tokens, Directive.token, Function.comp_def, ih]

theorem isReadableAll_simple {heads : List Statement}
    (h : ∀ head ∈ heads, Directive.isReadableHead head = true) :
    isReadableAll (heads.map .simple) = true := by
  induction heads with
  | nil => rfl
  | cons head heads ih =>
    obtain ⟨hhead, hheads⟩ := List.forall_mem_cons.mp h
    rw [List.map_cons, isReadableAll, Directive.isReadable, hhead, ih hheads]
    rfl

theorem heightAll_simple (heads : List Statement) : heightAll (heads.map .simple) = 0 := by
  induction heads with
  | nil => rfl
  | cons head heads ih =>
    rw [List.map_cons, heightAll, Directive.height, ih]
    rfl

/-- A text whose tokens are the words of statements, each with a `;` behind it, is
read as these statements. -/
theorem parse_of_heads {heads : List Statement} {bytes : List UInt8}
    (h : ∀ head ∈ heads, Directive.isReadableHead head = true)
    (htexts : (tokenize s.sourceName bytes).map Token.text =
      heads.flatMap fun head => head.params ++ [";"])
    (hsize : bytes.length ≤ s.limits.fileSize)
    (htokens : (tokenize s.sourceName bytes).length ≤ s.limits.tokens) :
    ∃ heads' : List Statement, parse t s bytes = .ok (heads'.map .simple) ∧
      heads'.map Statement.params = heads.map Statement.params := by
  have hheight : heightAll (heads.map .simple) ≤ s.limits.blockDepth := by
    rw [heightAll_simple]
    exact Nat.zero_le _
  rw [← texts_tokensAll_simple] at htexts
  obtain ⟨es, hes, hsame⟩ :=
    parse_of_texts (isReadableAll_simple h) hheight htexts hsize htokens
  obtain ⟨heads', rfl, hparams⟩ := exists_heads_of_unplacedAll hsame
  exact ⟨heads', hes, hparams⟩

/-- Bare words and a quoted text between them, set apart by spaces. -/
theorem words_of_quoted (hname : Writer.IsBare name) (hfront : ∀ w ∈ front, Writer.IsBare w)
    (hbehind : ∀ w ∈ behind, Writer.IsBare w) (hquote : Lexer.isQuote quote = true)
    (hquotable : Writer.Quotable quote text) :
    Writer.Words ((name :: front ++ text :: behind).map String.ofList)
      ([' '].intercalate (name :: front ++ Writer.quoted quote text :: behind)) := by
  let bare (w : List Char) : String × List Char := (String.ofList w, w)
  let forms := bare name :: front.map bare ++
    (String.ofList text, Writer.quoted quote text) :: behind.map bare
  have hbare : ∀ w, Writer.IsBare w → Writer.Word (bare w).1.toList (bare w).2 := by
    intro w hw
    rw [String.toList_ofList]
    exact .plain hw.isPlain
  have hforms : ∀ x ∈ forms, Writer.Word x.1.toList x.2 := by
    intro x hx
    simp only [forms, List.mem_append, List.mem_cons, List.mem_map] at hx
    rcases hx with (rfl | ⟨w, hw, rfl⟩) | rfl | ⟨w, hw, rfl⟩
    · exact hbare name hname
    · exact hbare w (hfront w hw)
    · rw [String.toList_ofList]
      exact .quoted hquote hquotable
    · exact hbare w (hbehind w hw)
  have hwords := Writer.words_intercalate (by simp [forms]) hforms
  simpa [forms, bare, Function.comp_def] using hwords

/-- The tokens of a statement with a quoted text are its words and a `;`. -/
theorem texts_of_quoted (file : String) (hname : Writer.IsBare name)
    (hfront : ∀ w ∈ front, Writer.IsBare w) (hbehind : ∀ w ∈ behind, Writer.IsBare w)
    (hquote : Lexer.isQuote quote = true) (hquotable : Writer.Quotable quote text) :
    (tokenize file (Utf8.encode (Writer.quotedStatement name front quote text behind))).map
        Token.text = (name :: front ++ text :: behind).map String.ofList ++ [";"] := by
  let statement : Statement := ⟨(name :: front ++ text :: behind).map String.ofList, "", 0⟩
  have hwords : Writer.Words statement.params _ :=
    words_of_quoted hname hfront hbehind hquote hquotable
  have hwritten : Writer.Written ([statement].map .simple) _ := .simple hwords .nil
  have htexts := texts_of_written file hwritten
  rw [texts_tokensAll_simple, List.flatMap_singleton] at htexts
  exact htexts

/-- A statement of bare words and a quoted text is read as one statement, and the
quoted text is a word of it, whatever its characters are, as long as it is not a
`;` or `{` by itself. -/
theorem parse_quoted (t : FileTree) (hname : Writer.IsBare name)
    (hinclude : name ≠ "include".toList) (hfront : ∀ w ∈ front, Writer.IsBare w)
    (hbehind : ∀ w ∈ behind, Writer.IsBare w) (hquote : Lexer.isQuote quote = true)
    (hquotable : Writer.Quotable quote text) (hmark : text ≠ [';'] ∧ text ≠ ['\x7b'])
    (hsize : (Utf8.encode (Writer.quotedStatement name front quote text behind)).length ≤
      s.limits.fileSize)
    (htokens : (tokenize s.sourceName
      (Utf8.encode (Writer.quotedStatement name front quote text behind))).length ≤
      s.limits.tokens) :
    ∃ head : Statement,
      parse t s (Utf8.encode (Writer.quotedStatement name front quote text behind)) =
        .ok [.simple head] ∧
      head.params = (name :: front ++ text :: behind).map String.ofList := by
  let statement : Statement := ⟨(name :: front ++ text :: behind).map String.ofList, "", 0⟩
  have hargs : ∀ w ∈ front ++ text :: behind, w ≠ [';'] ∧ w ≠ ['\x7b'] := by
    intro w hw
    rcases List.mem_append.mp hw with hw | hw
    · exact ne_marks_of_isBare hfront w hw
    · rcases List.mem_cons.mp hw with rfl | hw
      · exact hmark
      · exact ne_marks_of_isBare hbehind w hw
  have hheads : ∀ head ∈ [statement], Directive.isReadableHead head = true :=
    List.forall_mem_singleton.mpr (isReadableHead_of_isBare hname hinclude hargs)
  have htexts := texts_of_quoted s.sourceName hname hfront hbehind hquote hquotable
  obtain ⟨heads, hparse, hparams⟩ := parse_of_heads (t := t) hheads
    (by rw [htexts, List.flatMap_singleton]) hsize htokens
  obtain ⟨head, rfl, hhead⟩ := List.map_eq_singleton_iff.mp hparams
  exact ⟨head, hparse, hhead⟩

/-- A text with marks, a comment sign, a quote and backslashes in it. -/
def formatText : List Char := "a; # \x7bb\x7d \x27 \\\\".toList

/-- Between quotes, this text is one word. -/
theorem parse_quoted_formatText :
    Writer.IsBare "log_format".toList ∧ Writer.Quotable '\x27' formatText ∧
      ∃ head : Statement,
        parse .empty {} (Utf8.encode
          (Writer.quotedStatement "log_format".toList ["x".toList] '\x27' formatText [])) =
          .ok [.simple head] ∧
        head.params = ["log_format", "x", String.ofList formatText] := by
  have hname : Writer.IsBare "log_format".toList := by decide
  have hfront : ∀ w ∈ ["x".toList], Writer.IsBare w := List.forall_mem_singleton.mpr (by decide)
  have hbehind : ∀ w ∈ ([] : List (List Char)), Writer.IsBare w := by simp
  have hquotable : Writer.Quotable '\x27' formatText := by decide
  exact ⟨hname, hquotable, parse_quoted .empty hname (by decide) hfront hbehind rfl hquotable
    (by decide) (by cbv) (by cbv)⟩

/-- A quoted `;` ends the statement that it stands in, and what is behind it is a
statement of its own. -/
theorem parse_quoted_semicolon (t : FileTree) {word : List Char} (hname : Writer.IsBare name)
    (hinclude : name ≠ "include".toList) (hfront : ∀ w ∈ front, Writer.IsBare w)
    (hword : Writer.IsBare word) (hinclude' : word ≠ "include".toList)
    (hbehind : ∀ w ∈ behind, Writer.IsBare w) (hquote : Lexer.isQuote quote = true)
    (hsize : (Utf8.encode (Writer.quotedStatement name front quote [';'] (word :: behind))).length ≤
      s.limits.fileSize)
    (htokens : (tokenize s.sourceName
      (Utf8.encode (Writer.quotedStatement name front quote [';'] (word :: behind)))).length ≤
      s.limits.tokens) :
    ∃ first second : Statement,
      parse t s (Utf8.encode (Writer.quotedStatement name front quote [';'] (word :: behind))) =
        .ok [.simple first, .simple second] ∧
      first.params = (name :: front).map String.ofList ∧
      second.params = (word :: behind).map String.ofList := by
  let first : Statement := ⟨(name :: front).map String.ofList, "", 0⟩
  let second : Statement := ⟨(word :: behind).map String.ofList, "", 0⟩
  have hheads : ∀ head ∈ [first, second], Directive.isReadableHead head = true :=
    List.forall_mem_cons.mpr
      ⟨isReadableHead_of_isBare hname hinclude (ne_marks_of_isBare hfront),
        List.forall_mem_singleton.mpr
          (isReadableHead_of_isBare hword hinclude' (ne_marks_of_isBare hbehind))⟩
  have hquotable : Writer.Quotable quote [';'] :=
    (Writer.Quotable.cons_iff (by decide)).mpr .nil
  have hwords : ∀ w ∈ word :: behind, Writer.IsBare w :=
    List.forall_mem_cons.mpr ⟨hword, hbehind⟩
  -- The tokens are those of two statements.
  have htexts := texts_of_quoted s.sourceName hname hfront hwords hquote hquotable
  have htwo : (name :: front ++ [';'] :: word :: behind).map String.ofList ++ [";"] =
      [first, second].flatMap fun head => head.params ++ [";"] := by
    simp [first, second]
  obtain ⟨heads, hparse, hparams⟩ :=
    parse_of_heads (t := t) hheads (htexts.trans htwo) hsize htokens
  obtain ⟨first', rest, rfl, hfirst, hrest⟩ := List.map_eq_cons_iff.mp hparams
  obtain ⟨second', rfl, hsecond⟩ := List.map_eq_singleton_iff.mp hrest
  exact ⟨first', second', hparse, hfirst, hsecond⟩

/-- Quoted marks are read as marks: neither of these texts is one statement. -/
theorem parse_quoted_marks :
    (Writer.IsBare ['n'] ∧ Writer.IsBare ['b'] ∧ ['n'] ≠ "include".toList ∧
      Writer.Quotable '\x22' [';'] ∧ Writer.Quotable '\x22' ['\x7b']) ∧
    parse .empty {} (Utf8.encode (Writer.quotedStatement ['n'] [] '\x22' [';'] [['b']])) =
      .ok [.simple ⟨["n"], "nginx.conf", 1⟩, .simple ⟨["b"], "nginx.conf", 1⟩] ∧
    parse .empty {} (Utf8.encode (Writer.quotedStatement ['n'] [] '\x22' ['\x7b'] [['b']])) =
      .ok [.block ⟨["n"], "nginx.conf", 1⟩ [.simple ⟨["b"], "nginx.conf", 1⟩]] := by
  let token (text : String) : Token := ⟨"nginx.conf", 1, text⟩
  have hhead : ∀ text, (token text).isMark = false → Grammar.IsHead (token text) [] :=
    fun text h => ⟨h, by simp⟩
  have hstatement : Grammar.Items [token "b", token ";"] [.simple ⟨["b"], "nginx.conf", 1⟩] :=
    .simple (hhead "b" rfl) rfl .nil
  refine ⟨by decide, ?_, ?_⟩
  · have htokens : tokenize "nginx.conf" (Utf8.encode
        (Writer.quotedStatement ['n'] [] '\x22' [';'] [['b']])) =
        [token "n", token ";", token "b", token ";"] := by cbv
    have hcut : Grammar.Cut [token "n", token ";", token "b", token ";"] _ :=
      .items (.simple (hhead "n" rfl) rfl hstatement)
    rw [parse, if_neg (by cbv)]
    dsimp only
    rw [htokens]
    exact hcut.parseFrom_eq rfl (by decide) (by decide)
  · have htokens : tokenize "nginx.conf" (Utf8.encode
        (Writer.quotedStatement ['n'] [] '\x22' ['\x7b'] [['b']])) =
        [token "n", token "\x7b", token "b", token ";"] := by cbv
    -- The block breaks off at the end of the text.
    have hcut : Grammar.Cut [token "n", token "\x7b", token "b", token ";"] _ :=
      .block .nil (hhead "n" rfl) rfl (.items hstatement)
    rw [parse, if_neg (by cbv)]
    dsimp only
    rw [htokens]
    exact hcut.parseFrom_eq rfl (by decide) (by decide)

end Quoted

end ConfTree
