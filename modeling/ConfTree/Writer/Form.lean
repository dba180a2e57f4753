import ConfTree.Writer

/-!
# Written forms

A tree can be written in many ways: a plain word may stand between quotes, words
may stand any distance apart, and so may statements. `Written` tells them all, as
long as braces are set off by blanks. The writer takes one of them.
-/

namespace ConfTree.Writer

/-- Wherever an odd number of backslashes stand together in the text, another
character than the quote is right behind them. -/
def Quotable (quote : Char) (text : List Char) : Prop :=
  ∀ front n behind, text = front ++ List.replicate n '\\' ++ behind →
    front.getLast? ≠ some '\\' → behind.head? ≠ some '\\' → n % 2 = 1 →
    ∃ c, behind.head? = some c ∧ c ≠ quote

/-- `Spelled quote text form`: between two of these quotes, `text` is written as `form`.

* `plain`: any character but the quote and a backslash is written as it is.
* `quote`: the quote is written behind a backslash.
* `pair`: a backslash and another character than the quote behind it are written as
  they are. -/
inductive Spelled (quote : Char) : List Char → List Char → Prop
  | nil : Spelled quote [] []
  | plain {c : Char} {text form : List Char} : c ≠ '\\' → c ≠ quote → Spelled quote text form →
      Spelled quote (c :: text) (c :: form)
  | quote {text form : List Char} : Spelled quote text form →
      Spelled quote (quote :: text) ('\\' :: quote :: form)
  | pair {c : Char} {text form : List Char} : c ≠ quote → Spelled quote text form →
      Spelled quote ('\\' :: c :: text) ('\\' :: c :: form)

/-- The text can be written as a word. -/
def IsWord (text : List Char) : Prop :=
  isPlain text = true ∨ ∃ quote, Lexer.isQuote quote = true ∧ Quotable quote text

/-- The text is a word without any character that means something in particular. -/
structure IsBare (text : List Char) : Prop where
  nonempty : text ≠ []
  ordinary : ∀ c ∈ text, isBlank c = false ∧ Lexer.isQuote c = false ∧ c ≠ '#' ∧ c ≠ ';' ∧
    c ≠ '\x7b' ∧ c ≠ '\x7d'

/-- A statement with a quoted text among its words, which are set apart by spaces. -/
def quotedStatement (name : List Char) (front : List (List Char)) (quote : Char)
    (text : List Char) (behind : List (List Char)) : List Char :=
  [' '].intercalate (name :: front ++ quoted quote text :: behind) ++ [';']

/-- `Word text form`: the word `text` is written as `form`.

* `plain`: as it is.
* `quoted`: between quotes. -/
inductive Word (text : List Char) : List Char → Prop
  | plain : isPlain text = true → Word text text
  | quoted {quote : Char} : Lexer.isQuote quote = true → Quotable quote text →
      Word text (quoted quote text)

/-- The characters set words apart. A carriage return alone does not. -/
structure Gap (text : List Char) : Prop where
  blank : ∀ c ∈ text, isBlank c = true
  parts : ∃ c ∈ text, c ≠ '\r'

/-- `Words params text`: the words are written as `text`, with gaps between them. -/
inductive Words : List String → List Char → Prop
  | last {p : String} {form : List Char} : Word p.toList form → Words [p] form
  | cons {p : String} {ps : List String} {form gap rest : List Char} :
      Word p.toList form → Gap gap → Words ps rest → Words (p :: ps) (form ++ gap ++ rest)

/-- `Written ds text`: the directives are written as `text`.

* `blank`: blanks may stand in front of every directive, and at the end.
* `simple`: a statement ends in a `;`.
* `block`: a brace has gaps on both sides. -/
inductive Written : List Directive → List Char → Prop
  | nil : Written [] []
  | blank {c : Char} {ds : List Directive} {text : List Char} :
      isBlank c = true → Written ds text → Written ds (c :: text)
  | simple {head : Statement} {ds : List Directive} {words rest : List Char} :
      Words head.params words → Written ds rest →
      Written (.simple head :: ds) (words ++ ';' :: rest)
  | block {head : Statement} {body ds : List Directive}
      {words before opened inner closed rest : List Char} :
      Words head.params words → Gap before → Gap opened → Written body inner → Gap closed →
      Written ds rest →
      Written (.block head body :: ds)
        (words ++ before ++ '\x7b' :: opened ++ inner ++ '\x7d' :: closed ++ rest)

mutual

/-- All words of the directive can be written. -/
def IsWritable : Directive → Prop
  | .simple head => ∀ p ∈ head.params, IsWord p.toList
  | .block head body => (∀ p ∈ head.params, IsWord p.toList) ∧ IsWritableAll body

/-- All words of the directives can be written. -/
def IsWritableAll : List Directive → Prop
  | [] => True
  | d :: ds => IsWritable d ∧ IsWritableAll ds

end

end ConfTree.Writer
