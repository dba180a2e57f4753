import ConfTree.Proofs.Grammar.Recognition

/-!
# The grammar of the tokens of a tree

The tokens of a tree that can be read are a text of the grammar for it. Of tokens
only what they say matters for the shape of a tree, so all texts that say the same
give the same tree, places apart.

1. `items_tokensAll`: the tokens of a tree.
2. `Items.of_texts`, `isFlat_of_texts`: texts that say the same.
3. `parseFrom_of_texts`: texts that say what the tokens of a tree say.
-/

namespace ConfTree.Grammar

open Directive (isReadable isReadableAll isReadableHead tokens tokensAll unplaced unplacedAll
  heightAll)

/-! ## 1. The tokens of a tree -/

/-- A statement that can be read is made of its own tokens. -/
theorem exists_isHead {statement : Statement} (h : isReadableHead statement = true) :
    ∃ first args, statement.params.map (Directive.token statement) = first :: args ∧
      IsHead first args ∧ first.isInclude = false ∧ head first args = statement := by
  obtain ⟨params, file, line⟩ := statement
  cases params with
  | nil => cases h
  | cons name params =>
    simp only [isReadableHead, List.map_cons, Bool.and_eq_true, Bool.not_eq_true', List.all_eq_true,
      and_assoc] at h
    obtain ⟨hmark, hinc, hargs⟩ := h
    refine ⟨_, _, rfl, ⟨hmark, hargs⟩, hinc, ?_⟩
    simp [head, Directive.token, Function.comp_def]

mutual

theorem items_tokens (d : Directive) (h : isReadable d = true) {ts : List Token}
    {ds : List Directive} (hts : Items ts ds) : Items (tokens d ++ ts) (d :: ds) := by
  cases d with
  | simple statement =>
    obtain ⟨first, args, hparams, hhead, _, rfl⟩ := exists_isHead h
    have hsemi : (Directive.token (head first args) ";").endsStatement = true := rfl
    rw [tokens, hparams, List.append_assoc, List.singleton_append]
    exact .simple hhead hsemi hts
  | block statement body =>
    rw [isReadable, Bool.and_eq_true] at h
    obtain ⟨first, args, hparams, hhead, _, rfl⟩ := exists_isHead h.1
    have hopen : (Directive.token (head first args) "\x7b").opensBlock = true := rfl
    have hclose : (Directive.token (head first args) "\x7d").closesBlock = true := rfl
    have hblock := Items.block hhead hopen (items_tokensAll body h.2) hclose hts
    rw [tokens, hparams]
    simpa using hblock

/-- The tokens of a tree that can be read are a text for it. -/
theorem items_tokensAll (ds : List Directive) (h : isReadableAll ds = true) :
    Items (tokensAll ds) ds := by
  cases ds with
  | nil => exact .nil
  | cons d ds =>
    rw [isReadableAll, Bool.and_eq_true] at h
    exact items_tokens d h.1 (items_tokensAll ds h.2)

end

/-- Behind the words of a statement and the mark at its end, a text is as flat as
by itself. -/
theorem IsHead.isFlat {first mark : Token} {args ts : List Token} (h : IsHead first args)
    (hinc : first.isInclude = false) (hmark : mark.endsStatement = true ∨ mark.opensBlock = true)
    (hts : Include.isFlat true ts = true) :
    Include.isFlat true (first :: args ++ mark :: ts) = true := by
  -- A parser with room for a block takes the statement.
  have hwords : Parser.TakesAll 1 (first :: args) (Parser.ofTokens .empty "" []) _ :=
    h.takesAll hinc rfl
  refine Include.isFlat_append.mpr ⟨hwords.isFlat, ?_⟩
  have hinside := hwords.isNone_draft
  rw [Parser.draft_ofTokens, Option.isNone_none] at hinside
  rw [← hinside]
  refine Include.isFlat_cons.mpr ⟨rfl, ?_⟩
  rcases hmark with hmark | hmark <;> simpa [Include.startsBehind, hmark] using hts

mutual

theorem isFlat_tokens (d : Directive) (h : isReadable d = true) {ts : List Token}
    (hts : Include.isFlat true ts = true) : Include.isFlat true (tokens d ++ ts) = true := by
  cases d with
  | simple statement =>
    obtain ⟨first, args, hparams, hhead, hinc, rfl⟩ := exists_isHead h
    rw [tokens, hparams, List.append_assoc, List.singleton_append]
    exact hhead.isFlat hinc (.inl rfl) hts
  | block statement body =>
    rw [isReadable, Bool.and_eq_true] at h
    obtain ⟨first, args, hparams, hhead, hinc, rfl⟩ := exists_isHead h.1
    have hclose : Include.isFlat true (Directive.token (head first args) "\x7d" :: ts) = true :=
      Include.isFlat_cons.mpr ⟨rfl, hts⟩
    have hbody := isFlat_tokensAll body h.2 hclose
    have hopen : (Directive.token (head first args) "\x7b").opensBlock = true := rfl
    have hblock := hhead.isFlat hinc (.inr hopen) hbody
    rw [tokens, hparams]
    simpa using hblock

/-- No include stands where a statement starts in the tokens of a tree that can be
read. -/
theorem isFlat_tokensAll (ds : List Directive) (h : isReadableAll ds = true) {ts : List Token}
    (hts : Include.isFlat true ts = true) : Include.isFlat true (tokensAll ds ++ ts) = true := by
  cases ds with
  | nil => exact hts
  | cons d ds =>
    rw [isReadableAll, Bool.and_eq_true] at h
    rw [tokensAll, List.append_assoc]
    exact isFlat_tokens d h.1 (isFlat_tokensAll ds h.2 hts)

end

/-! ## 2. Texts that say the same -/

section Texts

variable {ts us : List Token}

/-- Whether a text is flat depends on what its tokens say. -/
theorem isFlat_of_texts {atStart : Bool} (htexts : us.map Token.text = ts.map Token.text)
    (h : Include.isFlat atStart ts = true) : Include.isFlat atStart us = true := by
  induction ts generalizing us atStart with
  | nil =>
    rw [List.map_nil, List.map_eq_nil_iff] at htexts
    rw [htexts]
    rfl
  | cons t ts ih =>
    obtain ⟨u, us, rfl, hu, hus⟩ := List.map_eq_cons_iff.mp htexts
    obtain ⟨hinc, hrest⟩ := Include.isFlat_cons.mp h
    refine Include.isFlat_cons.mpr ⟨?_, ih hus ?_⟩
    · simpa [Token.isInclude, hu] using hinc
    · simpa [Include.startsBehind, Token.endsStatement, Token.opensBlock, Token.closesBlock, hu]
        using hrest

/-- Words that say the same make the same statement, its place apart. -/
theorem IsHead.of_texts {first : Token} {args : List Token} (h : IsHead first args)
    (htexts : us.map Token.text = (first :: args).map Token.text) :
    ∃ first' args', us = first' :: args' ∧ IsHead first' args' ∧
      (head first' args').params = (head first args).params := by
  obtain ⟨first', args', rfl, hfirst, hargs⟩ := List.map_eq_cons_iff.mp htexts
  refine ⟨first', args', rfl, ⟨?_, fun a ha => ?_⟩, by simp [head, hfirst, hargs]⟩
  · have hmark := h.first_isMark
    rw [Token.isMark_eq_false_iff] at hmark ⊢
    simpa [Token.endsStatement, Token.opensBlock, Token.closesBlock, hfirst] using hmark
  · have hmem : a.text ∈ args.map Token.text := hargs ▸ List.mem_map_of_mem ha
    obtain ⟨b, hb, hab⟩ := List.mem_map.mp hmem
    have hplain := h.args_plain b hb
    simpa [Token.endsStatement, Token.opensBlock, hab] using hplain

/-- Texts that say the same are texts of the grammar for the same tree, places
apart. -/
theorem Items.of_texts {ds : List Directive} (h : Items ts ds)
    (htexts : us.map Token.text = ts.map Token.text) :
    ∃ es, Items us es ∧ unplacedAll es = unplacedAll ds := by
  induction h generalizing us with
  | nil =>
    rw [List.map_nil, List.map_eq_nil_iff] at htexts
    subst htexts
    exact ⟨[], .nil, rfl⟩
  | blank hmark _ ih =>
    obtain ⟨u, us, rfl, hu, hus⟩ := List.map_eq_cons_iff.mp htexts
    obtain ⟨es, hes, hsame⟩ := ih hus
    refine ⟨es, .blank ?_ hes, hsame⟩
    simpa [Token.endsStatement, hu] using hmark
  | simple hhead hmark _ ih =>
    rw [List.map_append] at htexts
    obtain ⟨words, rest, rfl, hwords, hrest⟩ := List.map_eq_append_iff.mp htexts
    obtain ⟨first, args, rfl, hhead', hparams⟩ := hhead.of_texts hwords
    obtain ⟨mark, us, rfl, hu, hus⟩ := List.map_eq_cons_iff.mp hrest
    obtain ⟨es, hes, hsame⟩ := ih hus
    have hmark' : mark.endsStatement = true := by simpa [Token.endsStatement, hu] using hmark
    refine ⟨_, .simple hhead' hmark' hes, ?_⟩
    simp [unplacedAll, unplaced, hparams, hsame]
  | block hhead ho _ hc _ ihInner ih =>
    rw [List.map_append, List.map_append] at htexts
    obtain ⟨front, rest, rfl, hfront, hrest⟩ := List.map_eq_append_iff.mp htexts
    obtain ⟨words, inside, rfl, hwords, hinside⟩ := List.map_eq_append_iff.mp hfront
    obtain ⟨first, args, rfl, hhead', hparams⟩ := hhead.of_texts hwords
    obtain ⟨opening, inner, rfl, hopening, hinner⟩ := List.map_eq_cons_iff.mp hinside
    obtain ⟨closing, us, rfl, hclosing, hus⟩ := List.map_eq_cons_iff.mp hrest
    obtain ⟨body, hbody, hsameBody⟩ := ihInner hinner
    obtain ⟨es, hes, hsame⟩ := ih hus
    have ho' : opening.opensBlock = true := by simpa [Token.opensBlock, hopening] using ho
    have hc' : closing.closesBlock = true := by simpa [Token.closesBlock, hclosing] using hc
    refine ⟨_, .block hhead' ho' hbody hc' hes, ?_⟩
    simp [unplacedAll, unplaced, hparams, hsameBody, hsame]

end Texts

/-! ## 3. Texts that say what a tree says -/

/-- A text of the grammar is read if the tree is not too high and the text not too
long. -/
theorem Cut.parseFrom_eq {t : FileTree} {s : Settings} {source : String} {ts : List Token}
    {ds : List Directive} (h : Cut ts ds) (hflat : Include.isFlat true ts = true)
    (htokens : ts.length ≤ s.limits.tokens) (hheight : heightAll ds ≤ s.limits.blockDepth) :
    parseFrom t s source ts = .ok ds := by
  rw [parseFrom_eq_run, if_neg (Nat.not_lt.mpr htokens)]
  obtain ⟨q, hq, rfl⟩ := h.takesAll_ofTokens t source hflat hheight
  exact Parser.run_of_takesAll (by simpa using hq)

/-- A text that says what the tokens of a tree say is read as the tree, places
apart. -/
theorem parseFrom_of_texts {t : FileTree} {s : Settings} {source : String} {ts : List Token}
    {ds : List Directive} (hreadable : isReadableAll ds = true)
    (htexts : ts.map Token.text = (tokensAll ds).map Token.text)
    (htokens : ts.length ≤ s.limits.tokens) (hheight : heightAll ds ≤ s.limits.blockDepth) :
    ∃ es, parseFrom t s source ts = .ok es ∧ unplacedAll es = unplacedAll ds := by
  obtain ⟨es, hes, hsame⟩ := (items_tokensAll ds hreadable).of_texts htexts
  have hflat : Include.isFlat true (tokensAll ds) = true := by
    simpa using isFlat_tokensAll ds hreadable (Include.isFlat_nil true)
  refine ⟨es, (Cut.items hes).parseFrom_eq (isFlat_of_texts htexts hflat) htokens ?_, hsame⟩
  rw [← Directive.heightAll_unplacedAll, hsame, Directive.heightAll_unplacedAll]
  exact hheight

end ConfTree.Grammar
