import ConfTree.Dump
import ConfTree.Proofs.Directive.Normal
import ConfTree.Proofs.Writer.RoundTrip

/-!
# What is shown is read back

A shown tree has a comment behind every statement, which names a place and so may
hold anything but a line end. The parser skips the comments and the indentation.

1. `Statement.IsShowable`: statements that are shown as they would be written.
2. `IsBetween.statement`, `IsBehind.origin`: the two parts of a line.
   `IsBetween.linesAll`: all lines of a tree.
3. `parse_treeText`: a shown tree is read as the tree.
-/

namespace ConfTree

open Directive (Everywhere EverywhereAll heightAll outline tokensAll unplacedAll)

/-! ## 1. Statements -/

/-- The statement is shown by words that are read again, and by a place that fits on
its line.

* `named`: there is a first word.
* `plain`: no word needs quotes.
* `name_ne`: the first word is neither a brace nor an include.
* `args_ne`: no other word opens a block.
* `file_line`: the name of the file has no line end. -/
structure Statement.IsShowable (head : Statement) : Prop where
  named : head.params ≠ []
  plain : ∀ p ∈ head.params, Writer.isPlain p.toList = true
  name_ne : ∀ name ∈ head.params.head?, name ≠ "\x7b" ∧ name ≠ "\x7d" ∧ name ≠ "include"
  args_ne : ∀ arg ∈ head.params.tail, arg ≠ "\x7b"
  file_line : '\n' ∉ head.file.toList

instance (head : Statement) : Decidable head.IsShowable :=
  decidable_of_iff
    (head.params ≠ [] ∧ (∀ p ∈ head.params, Writer.isPlain p.toList = true) ∧
      (∀ name ∈ head.params.head?, name ≠ "\x7b" ∧ name ≠ "\x7d" ∧ name ≠ "include") ∧
      (∀ arg ∈ head.params.tail, arg ≠ "\x7b") ∧ '\n' ∉ head.file.toList)
    ⟨fun ⟨hnamed, hplain, hname, hargs, hfile⟩ => ⟨hnamed, hplain, hname, hargs, hfile⟩,
      fun h => ⟨h.named, h.plain, h.name_ne, h.args_ne, h.file_line⟩⟩

theorem Statement.IsShowable.ne_semicolon {head : Statement} (h : head.IsShowable) {p : String}
    (hp : p ∈ head.params) : p ≠ ";" := by
  rintro rfl
  exact absurd (h.plain _ hp) (by decide)

theorem Statement.IsShowable.isNormal {head : Statement} (h : head.IsShowable) :
    head.IsNormal where
  named := h.named
  name_ne name hname := ⟨h.ne_semicolon (List.mem_of_head? hname), h.name_ne name hname⟩
  args_ne arg harg := ⟨h.ne_semicolon (List.mem_of_mem_tail harg), h.args_ne arg harg⟩

/-! ## 2. Lines -/

namespace Dump

theorem toList_unlines_append (these those : List String) :
    (unlines (these ++ those)).toList = (unlines these).toList ++ (unlines those).toList := by
  simp [unlines, String.toList_join]

theorem toList_unlines_singleton (line : String) :
    (unlines [line]).toList = line.toList ++ ['\n'] := by
  simp [unlines]

theorem isBlank_of_mem_spaces {n : Nat} {c : Char} (h : c ∈ (spaces n).toList) :
    isBlank c = true := by
  rw [spaces, String.toList_ofList] at h
  rw [List.eq_of_mem_replicate h]
  decide

/-- What stands behind a statement is a comment. -/
theorem toList_origin (head : Statement) :
    (origin head).toList =
      [' ', ' ', ' ', ' '] ++
        '#' :: ' ' :: (head.file.toList ++ ':' :: Nat.toDigits 10 head.line) := by
  have hjoin : origin head = "    # " ++ head.file ++ ":" ++ toString head.line := rfl
  rw [hjoin]
  simp

theorem line_not_mem_toDigits (n : Nat) : '\n' ∉ Nat.toDigits 10 n := by
  intro hmem
  exact absurd (Nat.isDigit_of_mem_toDigits (by decide) (by decide) hmem) (by decide)

end Dump

namespace Scan

open Dump Writer

variable {texts : List String} {s : Scan} {head : Statement}

/-- The words of a statement, behind their indentation. -/
theorem IsBetween.statement (h : s.IsBetween texts) (hhead : head.IsShowable) (indent : Nat) :
    (s.pushAll (spaces indent ++ " ".intercalate head.params).toList).IsBehind
      (texts ++ head.params) := by
  let forms := head.params.map fun p => (p, p.toList)
  have hforms : forms ≠ [] := by simpa [forms] using hhead.named
  have hplain : ∀ x ∈ forms, Word x.1.toList x.2 := by
    intro x hx
    obtain ⟨p, hp, rfl⟩ := List.mem_map.mp hx
    exact .plain (hhead.plain p hp)
  have hwords := words_intercalate hforms hplain
  have hspaces := h.pushAll_blanks fun c hc => isBlank_of_mem_spaces (n := indent) hc
  rw [String.toList_append, pushAll_append, String.toList_intercalate]
  simpa [forms, Function.comp_def] using hspaces.words hwords

/-- The comment behind a statement, up to the end of the line. -/
theorem IsBehind.origin (h : s.IsBehind texts) (hhead : head.IsShowable) :
    (s.pushAll ((Dump.origin head).toList ++ ['\n'])).IsBetween texts := by
  have hgap : Gap [' ', ' ', ' ', ' '] := ⟨by simp; decide, ' ', by simp, by decide⟩
  have hline : '\n' ∉ ' ' :: (head.file.toList ++ ':' :: Nat.toDigits 10 head.line) := by
    simp [hhead.file_line, line_not_mem_toDigits]
  rw [toList_origin, List.append_assoc, pushAll_append]
  exact (h.pushAll_gap hgap).pushAll_comment hline

mutual

/-- The lines of a directive are read as its tokens. -/
theorem IsBetween.lines (d : Directive) (hshow : Everywhere Statement.IsShowable d) (indent : Nat)
    {texts : List String} {s : Scan} (h : s.IsBetween texts) :
    (s.pushAll (unlines (Dump.lines indent d)).toList).IsBetween
      (texts ++ d.tokens.map Token.text) := by
  cases d with
  | simple head =>
    have hstatement := (h.statement hshow indent).push_semicolon.toIsBehind.origin hshow
    rw [Dump.lines, toList_unlines_singleton]
    simpa [pushAll_append, pushAll_cons, Directive.tokens, Directive.token, Function.comp_def] using hstatement
  | block head body =>
    obtain ⟨hhead, hbody⟩ := hshow
    have hspace : Gap [' '] := .single (by decide) (by decide)
    have hline : Gap ['\n'] := .single (by decide) (by decide)
    have hleft : isPlain ['\x7b'] = true := by decide
    have hright : isPlain ['\x7d'] = true := by decide
    have hopen := ((h.statement hhead indent).pushAll_gap hspace).word (.plain hleft)
    have hinner := IsBetween.linesAll body hbody (indent + indentStep) (hopen.origin hhead)
    have hclose := hinner.pushAll_blanks fun c hc => isBlank_of_mem_spaces (n := indent) hc
    have hclosed := (hclose.word (.plain hright)).pushAll_gap hline
    have hopening : " \x7b".toList = [' '] ++ ['\x7b'] := rfl
    have hclosing : "\x7d".toList = ['\x7d'] := rfl
    rw [Dump.lines, toList_unlines_append, toList_unlines_append, toList_unlines_singleton,
      toList_unlines_singleton]
    simp only [String.toList_append, hopening, hclosing, pushAll_append] at hclosed ⊢
    simpa [Directive.tokens, Directive.token, Function.comp_def] using hclosed

theorem IsBetween.linesAll (ds : List Directive) (hshow : EverywhereAll Statement.IsShowable ds)
    (indent : Nat) {texts : List String} {s : Scan} (h : s.IsBetween texts) :
    (s.pushAll (unlines (Dump.linesAll indent ds)).toList).IsBetween
      (texts ++ (tokensAll ds).map Token.text) := by
  cases ds with
  | nil => simpa [Dump.linesAll, unlines, tokensAll, pushAll] using h
  | cons d ds =>
    have hall := IsBetween.linesAll ds hshow.2 indent (IsBetween.lines d hshow.1 indent h)
    rw [Dump.linesAll, toList_unlines_append, pushAll_append]
    simpa [tokensAll] using hall

end

end Scan

/-! ## 3. Trees -/

/-- The tokens of a shown tree say what those of the tree say. -/
theorem texts_of_treeText (file : String) {ds : List Directive}
    (h : EverywhereAll Statement.IsShowable ds) :
    (tokenize file (Utf8.encode (Dump.treeText ds).toList)).map Token.text =
      (tokensAll ds).map Token.text := by
  rw [tokenize_encode]
  exact (Scan.IsBetween.linesAll ds h 0 (.start file)).texts_eq

/-- A shown tree is read as the tree, places apart, whatever the names of its files are,
if its blocks are no deeper than allowed and its text keeps the limits on bytes and
tokens. -/
theorem parse_treeText (t : FileTree) {s : Settings} {ds : List Directive}
    (hshow : ∀ x ∈ outline ds, x.2.head.IsShowable) (hheight : heightAll ds ≤ s.limits.blockDepth)
    (hsize : (Utf8.encode (Dump.treeText ds).toList).length ≤ s.limits.fileSize)
    (htokens : (tokenize s.sourceName (Utf8.encode (Dump.treeText ds).toList)).length ≤
      s.limits.tokens) :
    ∃ es, parse t s (Utf8.encode (Dump.treeText ds).toList) = .ok es ∧
      unplacedAll es = unplacedAll ds := by
  have hnormal : ∀ x ∈ outline ds, x.2.head.IsNormal := fun x hx => (hshow x hx).isNormal
  have hreadable : Directive.isReadableAll ds = true :=
    (Directive.isReadableAll_iff ds).mpr (Directive.everywhereAll_iff_outline.mpr hnormal)
  have htexts := texts_of_treeText s.sourceName (Directive.everywhereAll_iff_outline.mpr hshow)
  exact parse_of_texts hreadable hheight htexts hsize htokens

/-- A tree from files whose names look like anything but a comment. -/
def namesTree : List Directive :=
  [.block ⟨["location", "~", "\\.php$", "\x7d"], "a # \"b\" \x7b\r", 3⟩
    [.simple ⟨["größe", "5\"", "include"], "it\x27s; \x7d", 12⟩, .block ⟨["\x7b\x7d"], "", 0⟩ []],
   .simple ⟨["a\\"], "#", 7⟩]

/-- How the tree is shown. -/
def namesText : String :=
  "location ~ \\.php$ \x7d \x7b    # a # \"b\" \x7b\r:3\n" ++
    "    größe 5\" include;    # it\x27s; \x7d:12\n" ++
    "    \x7b\x7d \x7b    # :0\n" ++
    "    \x7d\n" ++
    "\x7d\n" ++
    "a\\;    # #:7\n"

/-- This tree is shown and read back. -/
theorem parse_treeText_namesTree :
    (∀ x ∈ outline namesTree, x.2.head.IsShowable) ∧ Dump.treeText namesTree = namesText ∧
      ∃ es, parse .empty {} (Utf8.encode namesText.toList) = .ok es ∧
        unplacedAll es = unplacedAll namesTree := by
  have hshow : ∀ x ∈ outline namesTree, x.2.head.IsShowable := by decide
  have htext : Dump.treeText namesTree = namesText := by cbv
  have hsize : (Utf8.encode namesText.toList).length = 118 := by cbv
  have hcount : (tokenize "nginx.conf" (Utf8.encode namesText.toList)).length = 15 := by cbv
  refine ⟨hshow, htext, ?_⟩
  rw [← htext] at hsize hcount ⊢
  exact parse_treeText .empty hshow (by decide) (by rw [hsize]; decide)
    (le_of_eq_of_le hcount (by decide))

end ConfTree
