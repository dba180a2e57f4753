import Mathlib
import ConfTree.Proofs.Grammar.Tokens
import ConfTree.Proofs.Include.Parts

/-!
# Includes are modular

What an include adds to a tree is what its files hold by themselves, as long as
each file and the text in front end between two statements, with all blocks
closed.

1. `EndsClosed`, `items_of_endsClosed`: texts that end with all blocks closed.
2. `Items.endsClosed`, `parseFrom_tokensAll`: the tokens of a tree are such a text.
3. `parseTokens_of_importTokens`: an include between complete texts can be read.
4. `parseTokens_include`: a text with an include is read part by part.
-/

namespace ConfTree

open Directive (tokensAll)
open Grammar (Items Cut Builds)

/-! ## 1. Texts that end with all blocks closed -/

/-- Expanded, the text named `source` ends between two statements, and all its
blocks are closed there. -/
def Include.EndsClosed (t : FileTree) (s : Settings) (source : String) (tokens : List Token) :
    Prop :=
  ∃ flat, expand t s (Parser.ofTokens t source tokens).pending = some flat ∧
    Level.behindAll {} (flat.map Tracked.token) = {}

/-- By itself, the file is read as `ds`, and ends with all blocks closed. -/
structure Include.StandsAlone (t : FileTree) (s : Settings) (p : Path) (ds : List Directive) :
    Prop where
  parseFile_eq : parseFile t s p = .ok ds
  endsClosed : ∃ tokens, load t s.limits p = .ok tokens ∧ EndsClosed t s p.text tokens

/-- A parser that has built nothing, and has nothing to read. -/
def Parser.blank : Parser := { pending := [], total := 0 }

/-- Where a parser is between two statements and all blocks are closed, its tokens
are a complete text. -/
theorem Grammar.Builds.items {read : List Token} {p : Parser} (h : Builds read p)
    (hlevel : p.level = {}) : Items read p.result := by
  have hdraft : p.draft = none := Option.isNone_iff_eq_none.mp (congrArg Level.atStart hlevel)
  have hblocks : p.blocks = [] := List.length_eq_zero_iff.mp (congrArg Level.blocks hlevel)
  cases h with
  | inside hd _ _ => simp [hdraft] at hd
  | between hd hh =>
    rw [hblocks] at hh
    cases hh with
    | top hitems => simpa [Parser.result, hd, hblocks, Parser.close] using hitems

section Texts

variable {t : FileTree} {s : Settings} {source : String} {tokens : List Token}
  {ds : List Directive}

/-- A text that is read is expanded, and the expanded text is taken. -/
theorem takesAll_of_parseFrom (h : parseFrom t s source tokens = .ok ds) :
    tokens.length ≤ s.limits.tokens ∧ ∃ flat q,
      Include.expandOnto t s [] true (Parser.ofTokens t source tokens).pending = some flat ∧
      Parser.TakesAll s.limits.blockDepth (flat.map Tracked.token) .blank q ∧ ds = q.result := by
  rw [parseFrom_eq_run] at h
  split at h
  · cases h
  · next hlen =>
    have hle : tokens.length ≤ s.limits.tokens := Nat.not_lt.mp hlen
    obtain ⟨flat, hexpand, hread⟩ := Parser.expandOnto_of_run _ [] (by simp) h
    obtain ⟨_, rfl, hflat, _⟩ := Include.flat_of_expandOnto (by simpa using hle) hexpand
    obtain ⟨q, hq, rfl⟩ := Parser.takesAll_of_run hflat hread
    exact ⟨hle, _, _, hexpand, hq.withStream [] 0, rfl⟩

/-- A text is read if it can be expanded and the expanded text is taken. -/
theorem parseFrom_of_takesAll {flat : List Tracked} {q : Parser}
    (hle : tokens.length ≤ s.limits.tokens)
    (hexpand : Include.expandOnto t s [] true (Parser.ofTokens t source tokens).pending = some flat)
    (h : Parser.TakesAll s.limits.blockDepth (flat.map Tracked.token) .blank q) :
    parseFrom t s source tokens = .ok q.result := by
  rw [parseFrom_eq_run, if_neg (Nat.not_lt.mpr hle)]
  have hread : Parser.run t s { Parser.blank with pending := flat, total := 0 } = .ok _ :=
    Parser.run_of_takesAll (h.withStream flat 0)
  exact Parser.run_of_expandOnto _ [] flat (by simp) hle hexpand hread

/-- A text that is read and ends with all blocks closed is expanded to a complete
text. -/
theorem items_of_endsClosed (h : parseFrom t s source tokens = .ok ds)
    (hends : Include.EndsClosed t s source tokens) :
    ∃ flat,
      Include.expandOnto t s [] true (Parser.ofTokens t source tokens).pending = some flat ∧
      Items (flat.map Tracked.token) ds ∧
      Level.behindAll {} (flat.map Tracked.token) = {} := by
  obtain ⟨hle, flat, q, hexpand, hq, rfl⟩ := takesAll_of_parseFrom h
  obtain ⟨flat', hexpand', hlevel⟩ := hends
  rw [Include.expand, if_neg (by simpa using hle), hexpand] at hexpand'
  cases hexpand'
  have hbuilds : Builds [] Parser.blank := .between rfl (.top .nil)
  refine ⟨flat, hexpand, (hbuilds.takesAll hq).items ?_, hlevel⟩
  rw [hq.level_eq]
  exact hlevel

end Texts

/-! ## 2. The tokens of a tree -/

section Complete

variable {t : FileTree} {s : Settings} {source : String} {tokens : List Token}
  {ds : List Directive}

/-- Behind a complete text without includes all blocks are closed. -/
theorem Grammar.Items.behindAll_eq (h : Items tokens ds)
    (hflat : Include.isFlat true tokens = true) : Level.behindAll {} tokens = {} := by
  have htakes : Parser.TakesAll _ tokens .blank _ := h.takesAll rfl hflat (Nat.le_refl _)
  exact htakes.level_eq.symm

theorem Grammar.Items.endsClosed (h : Items tokens ds)
    (hflat : Include.isFlat true tokens = true) (hle : tokens.length ≤ s.limits.tokens) :
    Include.EndsClosed t s source tokens := by
  refine ⟨(Parser.ofTokens t source tokens).pending, ?_, ?_⟩
  · rw [Include.expand, if_neg (by simpa using hle), ← List.append_nil (Parser.pending _),
      Include.expandOnto_of_isFlat (by simpa using hflat), Include.expandOnto_nil]
    simp
  · rw [Parser.map_pending_ofTokens]
    exact h.behindAll_eq hflat

/-- The tokens of a tree that can be read are read as the tree, and all blocks are
closed behind them. -/
theorem parseFrom_tokensAll (hreadable : Directive.isReadableAll ds = true)
    (htokens : (tokensAll ds).length ≤ s.limits.tokens)
    (hheight : Directive.heightAll ds ≤ s.limits.blockDepth) :
    parseFrom t s source (tokensAll ds) = .ok ds ∧
      Include.EndsClosed t s source (tokensAll ds) := by
  have hitems := Grammar.items_tokensAll ds hreadable
  have hflat : Include.isFlat true (tokensAll ds) = true := by
    simpa using Grammar.isFlat_tokensAll ds hreadable (Include.isFlat_nil true)
  exact ⟨(Cut.items hitems).parseFrom_eq hflat htokens hheight, hitems.endsClosed hflat htokens⟩

/-- A file that holds the tokens of a tree stands alone. -/
theorem Include.standsAlone_of_load {p : Path}
    (hload : load t s.limits p = .ok (tokensAll ds))
    (hreadable : Directive.isReadableAll ds = true)
    (htokens : (tokensAll ds).length ≤ s.limits.tokens)
    (hheight : Directive.heightAll ds ≤ s.limits.blockDepth) : StandsAlone t s p ds := by
  obtain ⟨hread, hends⟩ := parseFrom_tokensAll hreadable htokens hheight
  refine ⟨?_, _, hload, hends⟩
  rw [parseFile, hload]
  exact hread

end Complete

/-! ## 3. An include that can be read -/

section Modularity

variable {t : FileTree} {s : Settings}

/-- An include between complete texts is read if its files can be imported and hold
no includes themselves. -/
theorem parseTokens_of_importTokens {inc argument mark : Token} {front behind : List Token}
    {new : List Tracked} {ds fs es : List Directive}
    (hinc : inc.isInclude = true) (hargument : argument.isMark = false)
    (hmark : mark.endsStatement = true)
    (hnew : Include.importTokens t s argument.text (Trail.ofSource t ⟨s.sourceName⟩) = .ok new)
    (hfront : Items front ds) (himported : Items (new.map Tracked.token) fs)
    (hbehind : Items behind es)
    (hflat : Include.isFlat true (front ++ (new.map Tracked.token ++ mark :: behind)) = true)
    (hle : (front ++ [inc, argument, mark] ++ behind).length ≤ s.limits.tokens)
    (hfits : (front ++ (new.map Tracked.token ++ mark :: behind)).length ≤ s.limits.tokens)
    (hheight : Directive.heightAll (ds ++ (fs ++ es)) ≤ s.limits.blockDepth) :
    parseTokens t s (front ++ [inc, argument, mark] ++ behind) = .ok (ds ++ (fs ++ es)) := by
  let tracked (token : Token) : Tracked := ⟨token, Trail.ofSource t ⟨s.sourceName⟩⟩
  have htokens (tokens : List Token) : (tokens.map tracked).map Tracked.token = tokens := by
    simp [tracked, Function.comp_def]
  obtain ⟨hflatFront, hflatNew⟩ := Include.isFlat_append.mp hflat
  have hstart := Level.startsBehind_of_behindAll (hfront.behindAll_eq hflatFront)
  have hreplace : Include.replacement? t s (tracked inc)
      (tracked argument :: (mark :: behind).map tracked) =
        some (new, (mark :: behind).map tracked) :=
    Include.replacement?_eq_some_iff.mpr ⟨_, rfl, hargument, hnew⟩
  let whole : List Token := front ++ [inc, argument, mark] ++ behind
  have hexpand : Include.expandOnto t s [] true (Parser.ofTokens t s.sourceName whole).pending =
      some (front.map tracked ++ (new ++ (mark :: behind).map tracked)) := by
    have hpending : (Parser.ofTokens t s.sourceName whole).pending =
        front.map tracked ++ tracked inc :: tracked argument :: (mark :: behind).map tracked := by
      simp [whole, tracked, Parser.ofTokens]
    rw [hpending, Include.expandOnto_of_isFlat (by rwa [htokens]), htokens, hstart,
      Include.expandOnto_of_replacement hinc hreplace (by simpa using hfits),
      ← List.append_nil (new ++ _), Include.expandOnto_of_isFlat, Include.expandOnto_nil]
    · simp
    · rw [List.map_append, htokens]
      rwa [hstart] at hflatNew
  have hitems := hfront.append (himported.append (.blank hmark hbehind))
  obtain ⟨q, hq, hresult⟩ := (Cut.items hitems).takesAll (p := .blank) rfl hflat
    (by simpa [Parser.blank] using hheight)
  rw [parseTokens, parseFrom_of_takesAll hle hexpand (by simpa [htokens] using hq), hresult]
  simp [Parser.blank, Parser.close]

/-! ## 4. A text with an include -/

/-- A stream that ends with all blocks closed when it is expanded alone is expanded
alike in front of another one, which starts a statement then. -/
theorem expandOnto_of_closed {pending pending' behind read flat flatAll : List Tracked}
    (h : Include.expandOnto t s [] true pending = some flat)
    (hlevel : Level.behindAll {} (flat.map Tracked.token) = {})
    (hsame : pending'.map Tracked.token = pending.map Tracked.token)
    (hall : Include.expandOnto t s read true (pending' ++ behind) = some flatAll) :
    ∃ mid : List Tracked, mid.map Tracked.token = flat.map Tracked.token ∧
      Include.expandOnto t s (mid.reverse ++ read) true behind = some flatAll := by
  obtain ⟨_, mid, rfl, hmid, hall⟩ := Include.expandOnto_append h hsame hall
  rw [Level.startsBehind_of_behindAll hlevel] at hall
  exact ⟨mid, hmid, hall⟩

/-- The files of an include are expanded one behind the other, each as it is by
itself. -/
theorem expandOnto_importFiles {c : Trail} {files : List Path} {forest : Path → List Directive}
    {new read behind flat : List Tracked}
    (hforest : ∀ p ∈ files, Include.StandsAlone t s p (forest p))
    (hnew : Include.importFiles t s.limits c files = .ok new)
    (h : Include.expandOnto t s read true (new ++ behind) = some flat) :
    ∃ mid : List Tracked, Items (mid.map Tracked.token) (files.flatMap forest) ∧
      Level.behindAll {} (mid.map Tracked.token) = {} ∧
      Include.expandOnto t s (mid.reverse ++ read) true behind = some flat := by
  induction files generalizing new read with
  | nil =>
    cases hnew
    exact ⟨[], .nil, rfl, h⟩
  | cons p files ih =>
    obtain ⟨halone, hrest⟩ := List.forall_mem_cons.mp hforest
    have hparse := halone.parseFile_eq
    obtain ⟨tokens, hload, hends⟩ := halone.endsClosed
    obtain ⟨these, hp, hnew⟩ := bind_eq_ok_iff.mp hnew
    obtain ⟨those, hfiles, hnew⟩ := bind_eq_ok_iff.mp hnew
    cases hnew
    rw [parseFile, hload] at hparse
    obtain ⟨alone, hexpand, hitems, hlevel⟩ := items_of_endsClosed hparse hends
    have hsame : these.map Tracked.token =
        (Parser.ofTokens t p.text tokens).pending.map Tracked.token := by
      rw [Parser.map_pending_ofTokens]
      exact Except.ok.inj ((Include.load_of_importFile hp).symm.trans hload)
    rw [List.append_assoc] at h
    obtain ⟨mid, hmid, h⟩ := expandOnto_of_closed hexpand hlevel hsame h
    obtain ⟨mids, hmids, hlevels, h⟩ := ih hrest hfiles h
    refine ⟨mid ++ mids, ?_, ?_, by simpa using h⟩
    · rw [List.map_append, List.flatMap_cons, hmid]
      exact hitems.append hmids
    · rw [List.map_append, Level.behindAll_append, hmid, hlevel, hlevels]

/-- A stream with an include is expanded part by part. -/
theorem expandOnto_around {front behind flat flatFront : List Tracked}
    {first argument mark : Tracked} {files : List Path} {forest : Path → List Directive}
    (h : Include.expandOnto t s [] true (front ++ first :: argument :: mark :: behind) = some flat)
    (hinc : first.token.isInclude = true) (hmark : mark.token.endsStatement = true)
    (hfiles : Include.resolve t s.layout argument.token.text = .ok files)
    (hforest : ∀ p ∈ files, Include.StandsAlone t s p (forest p))
    (hfront : Include.expandOnto t s [] true front = some flatFront)
    (hlevel : Level.behindAll {} (flatFront.map Tracked.token) = {}) :
    ∃ mids flatBehind : List Tracked,
      flat.map Tracked.token = flatFront.map Tracked.token ++ mids.map Tracked.token ++
        mark.token :: flatBehind.map Tracked.token ∧
      Items (mids.map Tracked.token) (files.flatMap forest) ∧
      Level.behindAll {} (mids.map Tracked.token) = {} ∧
      Include.expandOnto t s [] true behind = some flatBehind := by
  obtain ⟨mid, hmid, h⟩ := expandOnto_of_closed hfront hlevel rfl h
  obtain ⟨_, _, new, hsplit, _, hnew, _, h⟩ := Include.expandOnto_include_eq_some hinc h
  cases hsplit
  have himport := Include.importFiles_of_importTokens hfiles hnew
  obtain ⟨mids, hmids, hlevels, h⟩ := expandOnto_importFiles hforest himport h
  have hother : (true && mark.token.isInclude) = false := by
    simp only [Token.endsStatement, beq_iff_eq] at hmark
    simp [Token.isInclude, hmark]
  have hstart : Include.startsBehind true mark.token = true := by
    simp [Include.startsBehind, hmark]
  rw [Include.expandOnto_of_other hother, hstart] at h
  obtain ⟨flatBehind, rfl, hbehind⟩ := Include.expandOnto_of_shorter [] h (Nat.zero_le _)
  refine ⟨mids, flatBehind, ?_, hmids, hlevels, hbehind⟩
  simp [hmid]

/-- A text with an include is read part by part: what is in front, what each file
holds by itself, and what is behind, in this order and with all places. This needs
that the text in front and each file end with all blocks closed once their own
includes are expanded; what is behind may end anywhere. -/
theorem parseTokens_include {inc argument mark : Token} {front behind : List Token}
    {files : List Path} {forest : Path → List Directive} {ds whole : List Directive}
    (hinc : inc.isInclude = true) (hmark : mark.endsStatement = true)
    (hfiles : Include.resolve t s.layout argument.text = .ok files)
    (hfront : parseTokens t s front = .ok ds)
    (hfrontEnds : Include.EndsClosed t s s.sourceName front)
    (hforest : ∀ p ∈ files, Include.StandsAlone t s p (forest p))
    (hwhole : parseTokens t s (front ++ [inc, argument, mark] ++ behind) = .ok whole) :
    ∃ es, parseTokens t s behind = .ok es ∧ whole = ds ++ files.flatMap forest ++ es := by
  obtain ⟨hle, flat, q, hall, hq, rfl⟩ := takesAll_of_parseFrom hwhole
  obtain ⟨flatFront, hexpand, hitems, hlevel⟩ := items_of_endsClosed hfront hfrontEnds
  let tracked (token : Token) : Tracked := ⟨token, Trail.ofSource t ⟨s.sourceName⟩⟩
  have hpending : (Parser.ofTokens t s.sourceName
      (front ++ [inc, argument, mark] ++ behind)).pending =
        (Parser.ofTokens t s.sourceName front).pending ++ tracked inc :: tracked argument ::
          tracked mark :: (Parser.ofTokens t s.sourceName behind).pending := by
    simp [tracked, Parser.ofTokens]
  rw [hpending] at hall
  obtain ⟨mids, flatBehind, hflat, hmids, hlevels, hbehind⟩ :=
    expandOnto_around hall hinc hmark hfiles hforest hexpand hlevel
  -- The text in front of what is behind is complete, so a parser has all blocks closed there.
  let before : List Token := flatFront.map Tracked.token ++ mids.map Tracked.token ++ [mark]
  have hbefore : Items before (ds ++ files.flatMap forest ++ []) :=
    (hitems.append hmids).append (.blank hmark .nil)
  have hclosed : Level.behindAll {} before = {} := by
    rw [Level.behindAll_append, Level.behindAll_append, hlevel, hlevels]
    exact Level.behind_of_endsStatement hmark
  have htokens : flat.map Tracked.token = before ++ flatBehind.map Tracked.token := by
    simp [hflat, before, tracked]
  rw [htokens] at hq
  obtain ⟨r, hr, hrest⟩ := hq.split
  obtain ⟨r', hr'⟩ := hrest.of_level (r := .blank) (by rw [hr.level_eq]; exact hclosed.symm)
  have hlen : behind.length ≤ s.limits.tokens := by
    simp only [List.length_append] at hle
    omega
  refine ⟨r'.result, parseFrom_of_takesAll hlen hbehind hr', ?_⟩
  -- The grammar gives the whole text one tree only.
  have hbuilds : Builds [] Parser.blank := .between rfl (.top .nil)
  have hcut := hbefore.append_cut (hbuilds.takesAll hr').cut
  rw [List.append_nil] at hcut
  exact Cut.unique hq.isFlat (hbuilds.takesAll hq).cut hcut

/-- Two files in the root, that hold `b;` and `d { e; }`. -/
def twoFiles : FileTree where
  nodes := [([⟨"a", by decide⟩], .file (.ofBytes [0x62, 0x3b]) false),
    ([⟨"c", by decide⟩], .file (.ofBytes [0x64, 0x20, 0x7b, 0x20, 0x65, 0x3b, 0x20, 0x7d]) false)]
  nodup := by decide
  workingDir := []

/-- Includes are looked for in the root. -/
def rootSettings : Settings where
  sourceName := "top"
  layout := { root := ⟨"/"⟩, subdirs := [], standardFiles := [] }

/-- A statement of one word on the first line of a file. -/
def oneWord (file word : String) : Statement := { params := [word], file, line := 1 }

/-- What the two files hold. -/
def twoFilesForest (p : Path) : List Directive :=
  if p = ⟨"/a"⟩ then [.simple (oneWord "/a" "b")]
  else [.block (oneWord "/c" "d") [.simple (oneWord "/c" "e")]]

theorem load_twoFiles {p : Path} (hp : p = ⟨"/a"⟩ ∨ p = ⟨"/c"⟩) :
    load twoFiles rootSettings.limits p = .ok (tokensAll (twoFilesForest p)) := by
  rcases hp with rfl | rfl <;> cbv

theorem standsAlone_twoFiles {p : Path} (hp : p = ⟨"/a"⟩ ∨ p = ⟨"/c"⟩) :
    Include.StandsAlone twoFiles rootSettings p (twoFilesForest p) := by
  rcases hp with rfl | rfl
  · exact Include.standsAlone_of_load (load_twoFiles (.inl rfl)) rfl (by decide) (by decide)
  · exact Include.standsAlone_of_load (load_twoFiles (.inr rfl)) rfl (by decide) (by decide)

theorem importFile_twoFiles {p : Path} (hp : p = ⟨"/a"⟩ ∨ p = ⟨"/c"⟩) :
    ∃ new, Include.importFile twoFiles rootSettings.limits (.ofSource twoFiles ⟨"top"⟩) p =
      .ok new ∧ new.map Tracked.token = tokensAll (twoFilesForest p) := by
  refine ⟨_, Include.importFile_eq_ok ?_ (by decide) (load_twoFiles hp), ?_⟩
  · rcases hp with rfl | rfl <;> cbv
  · simp [Function.comp_def]

theorem resolve_twoFiles :
    Include.resolve twoFiles rootSettings.layout "*" = .ok [⟨"/a"⟩, ⟨"/c"⟩] := by
  cbv

theorem importTokens_twoFiles :
    ∃ new, Include.importTokens twoFiles rootSettings "*" (.ofSource twoFiles ⟨"top"⟩) = .ok new ∧
      new.map Tracked.token = tokensAll ([⟨"/a"⟩, ⟨"/c"⟩].flatMap twoFilesForest) := by
  obtain ⟨these, hthese, hs⟩ := importFile_twoFiles (.inl rfl)
  obtain ⟨those, hthose, hs'⟩ := importFile_twoFiles (.inr rfl)
  refine ⟨these ++ (those ++ []), ?_, ?_⟩
  · rw [Include.importTokens, resolve_twoFiles]
    change Include.importFiles _ _ _ _ = _
    rw [Include.importFiles, hthese, Include.importFiles, hthose]
    rfl
  · rw [List.map_append, List.append_nil, hs, hs']
    rfl

/-- An include of both files is read between `x;` and `y;`. -/
theorem parseTokens_include_twoFiles :
    parseTokens twoFiles rootSettings (tokensAll [.simple (oneWord "top" "x")] ++
        [⟨"top", 1, "include"⟩, ⟨"top", 1, "*"⟩, ⟨"top", 1, ";"⟩] ++
        tokensAll [.simple (oneWord "top" "y")]) =
      .ok [.simple (oneWord "top" "x"), .simple (oneWord "/a" "b"),
        .block (oneWord "/c" "d") [.simple (oneWord "/c" "e")], .simple (oneWord "top" "y")] ∧
    ∃ es, parseTokens twoFiles rootSettings (tokensAll [.simple (oneWord "top" "y")]) = .ok es ∧
      [.simple (oneWord "top" "x"), .simple (oneWord "/a" "b"),
          .block (oneWord "/c" "d") [.simple (oneWord "/c" "e")], .simple (oneWord "top" "y")] =
        [.simple (oneWord "top" "x")] ++ [⟨"/a"⟩, ⟨"/c"⟩].flatMap twoFilesForest ++ es := by
  let word (text : String) : Token := ⟨"top", 1, text⟩
  obtain ⟨new, hnew, htokens⟩ := importTokens_twoFiles
  have hitems (ds : List Directive) (h : Directive.isReadableAll ds = true) :
      Items (tokensAll ds) ds := Grammar.items_tokensAll ds h
  obtain ⟨hfront, hends⟩ : parseTokens twoFiles rootSettings
        (tokensAll [.simple (oneWord "top" "x")]) = .ok [.simple (oneWord "top" "x")] ∧
      Include.EndsClosed twoFiles rootSettings "top" (tokensAll [.simple (oneWord "top" "x")]) :=
    parseFrom_tokensAll rfl (by decide) (by decide)
  have hwhole : parseTokens twoFiles rootSettings (tokensAll [.simple (oneWord "top" "x")] ++
      [word "include", word "*", word ";"] ++ tokensAll [.simple (oneWord "top" "y")]) = .ok _ :=
    parseTokens_of_importTokens rfl rfl rfl hnew (hitems [.simple (oneWord "top" "x")] rfl)
      (htokens ▸ hitems ([(⟨"/a"⟩ : Path), ⟨"/c"⟩].flatMap twoFilesForest) rfl)
      (hitems [.simple (oneWord "top" "y")] rfl)
      (by rw [htokens]; rfl) (by decide) (by rw [htokens]; decide) (by decide)
  have hfiles : Include.resolve twoFiles rootSettings.layout (word "*").text = _ :=
    resolve_twoFiles
  have hinc : (word "include").isInclude = true := rfl
  have hmark : (word ";").endsStatement = true := rfl
  refine ⟨hwhole, parseTokens_include hinc hmark hfiles hfront hends (fun p hp => ?_) hwhole⟩
  exact standsAlone_twoFiles (by simpa using hp)

end Modularity

end ConfTree
