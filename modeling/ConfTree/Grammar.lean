import ConfTree.Directive

/-!
# The grammar of configurations

A configuration without includes is a list of statements. A statement is a word
and its arguments, and either a `;` or a block; a `;` by itself is nothing. A
word is any token but the three marks, and an argument any token but `;` and
`{`.

`Items` is the grammar of a complete text. `Cut` is that of a text that may break
off: the `;` of the last statement and the ends of all open blocks may be
missing.
-/

namespace ConfTree.Grammar

/-- The tokens can be the words of a statement. -/
structure IsHead (first : Token) (args : List Token) : Prop where
  /-- A statement does not start with a mark. -/
  first_isMark : first.isMark = false
  /-- No argument ends the statement or opens its block. -/
  args_plain : ∀ a ∈ args, a.endsStatement = false ∧ a.opensBlock = false

/-- The statement that the tokens are the words of. -/
def head (first : Token) (args : List Token) : Statement :=
  { params := first.text :: args.map Token.text, file := first.file, line := first.line }

/-- `Items ts ds`: the tokens `ts` are a complete text for the directives `ds`.

* `blank`: a `;` by itself.
* `simple`: a statement that ends in a `;`.
* `block`: a statement with a block. -/
inductive Items : List Token → List Directive → Prop
  | nil : Items [] []
  | blank {mark : Token} {ts : List Token} {ds : List Directive} :
      mark.endsStatement = true → Items ts ds → Items (mark :: ts) ds
  | simple {first mark : Token} {args ts : List Token} {ds : List Directive} :
      IsHead first args → mark.endsStatement = true → Items ts ds →
      Items (first :: args ++ mark :: ts) (.simple (head first args) :: ds)
  | block {first opening closing : Token} {args inner ts : List Token}
      {body ds : List Directive} :
      IsHead first args → opening.opensBlock = true → Items inner body →
      closing.closesBlock = true → Items ts ds →
      Items (first :: args ++ opening :: inner ++ closing :: ts)
        (.block (head first args) body :: ds)

/-- `Cut ts ds`: the tokens `ts` are a text for the directives `ds` that may
break off at its end.

* `items`: it does not break off, or only between statements.
* `simple`: it breaks off in a statement.
* `block`: it breaks off in a block. -/
inductive Cut : List Token → List Directive → Prop
  | items {ts : List Token} {ds : List Directive} : Items ts ds → Cut ts ds
  | simple {first : Token} {args ts : List Token} {ds : List Directive} :
      Items ts ds → IsHead first args →
      Cut (ts ++ first :: args) (ds ++ [.simple (head first args)])
  | block {first opening : Token} {args inner ts : List Token} {body ds : List Directive} :
      Items ts ds → IsHead first args → opening.opensBlock = true → Cut inner body →
      Cut (ts ++ first :: args ++ opening :: inner) (ds ++ [.block (head first args) body])

end ConfTree.Grammar
