import Mathlib
import ConfTree.Proofs.Include.Cycles

/-!
# Where faults are laid to

A statement keeps the place where it stands, and takes note of it anew whenever an include
in front of its first word has been replaced. The faults of an include arise far from the
text that asks for it, and get their place from the statement and their context when the
include is replaced. Whatever was spliced in before, this is the place of the `include` in
front of the stream. So every fault of a text is laid to a token of the stream, or to an
included file that is too long.

1. `Cause.message_ne_endOfInput`: only one fault speaks of the end of the input.
2. `Tracked.IsPlaced`: a token has a file, the last on its trail.
   `Goes.isPlaced`: a step keeps to it. `isPlaced_of_reaches`: so does a run.
3. `Begins`: where a statement that has a word begins, which is where it stands.
   `Goes.begins`: a step keeps to it. `begins_of_reaches`: so does a run.
4. `Blames`: the ways in which a step fails. That a statement is asked for at the end of
   the stream is none of them.
   `Goes.blames`, `Blames.exists_goes`: a step fails in one of these ways, and whenever
   there is something to blame.
   `Blames.file_ne_empty`, `Blames.message_ne_endOfInput`: what all of them share.
5. `parse_blames`: the same for the reading of a text.
-/

namespace ConfTree

/-! ## 1. Messages -/

/-- Only the fault of a statement that is asked for at the end of the stream speaks of the
end of the input, unless a caller words another so. -/
theorem Cause.message_ne_endOfInput {cause : Cause} (hend : cause ≠ .unexpectedEnd)
    (h : ∀ kind message, cause ≠ .reported kind message) :
    cause.message ≠ "unexpected end of input" := by
  intro hmessage
  unfold message at hmessage
  cases cause with
  | unexpectedEnd => exact hend rfl
  | reported kind message => exact h kind message rfl
  | alreadyIncluded path trail key =>
    -- This message starts with a path, which may be anything.
    have hcolon : ':' ∈ "unexpected end of input".toList := by
      rw [← hmessage]
      simp [toString]
    simp at hcolon
  | isDirectory path =>
    have hlast := congrArg (·.toList.getLast?) hmessage
    simp [toString, List.getLast?_append] at hlast
  | unexpectedClose => exact absurd hmessage (by decide)
  | _ =>
    have hhead := congrArg (·.toList.head?) hmessage
    simp [toString] at hhead

/-! ## 2. Tokens and their files -/

/-- The token is one of a file that has a name, and this is the last file on its
trail: the innermost that is being expanded. -/
structure Tracked.IsPlaced (t : FileTree) (x : Tracked) : Prop where
  file_ne_empty : x.token.file ≠ ""
  innermost : x.trail.files.getLast? = some (t.identity ⟨x.token.file⟩)

namespace FileTree

variable {t : FileTree} {p : Path}

/-- A path that leads somewhere has a text. -/
theorem text_ne_empty_of_stat {node : Node} (h : t.stat p = .ok node) : p.text ≠ "" := by
  intro hempty
  obtain ⟨loc, hlocate, _⟩ := bind_eq_ok_iff.mp h
  have hrefused : refusal? p = some .notFound := by
    simp [refusal?, hempty]
  simp [locate, hrefused] at hlocate

/-- A path that leads to some bytes has a text. -/
theorem text_ne_empty_of_lt_size {n : Nat} (h : n < t.size p) : p.text ≠ "" := by
  unfold size at h
  split at h
  · next hstat => exact text_ne_empty_of_stat hstat
  · cases h

end FileTree

namespace Descent

variable {t : FileTree} {s : Settings} {o x y : Descent} {f : Fault}

/-- The tokens of the text that is read first are placed if it has a name. -/
theorem isPlaced_ofTokens {source : String} {bytes : List UInt8} (hname : source ≠ "")
    {z : Tracked} (hz : z ∈ (ofTokens t source (tokenize source bytes)).pending) :
    z.IsPlaced t := by
  obtain ⟨token, htoken, rfl⟩ := List.mem_map.mp hz
  have hfile : token.file = source := file_of_mem_tokenize htoken
  refine ⟨?_, ?_⟩
  · rwa [hfile]
  · rw [hfile]
    rfl

/-- The tokens that take the place of an include are placed. -/
theorem isPlaced_of_importTokens {argument : String} {c : Trail} {new : List Tracked}
    (h : Include.importTokens t s argument c = .ok new) {z : Tracked} (hz : z ∈ new) :
    z.IsPlaced t := by
  obtain ⟨_, _, horigin⟩ := Include.origin_of_mem_importTokens h
  obtain ⟨file, _, tokens, henter, hload, htoken⟩ := horigin z hz
  obtain ⟨_, _, htrail⟩ := Trail.enter_eq_ok_iff.mp henter
  obtain ⟨_, _, hstat, _⟩ := readTokens_of_load hload
  have hfile : z.token.file = file.text := file_of_mem_load hload htoken
  refine ⟨?_, ?_⟩
  · rw [hfile]
    exact FileTree.text_ne_empty_of_stat hstat
  · rw [hfile, htrail, Trail.files_extend, List.getLast?_concat]

/-- A step keeps the tokens of the stream placed. -/
theorem Goes.isPlaced (h : Goes t s x y) (hx : ∀ z ∈ x.pending, z.IsPlaced t) :
    ∀ z ∈ y.pending, z.IsPlaced t := by
  intro z hz
  rcases h.pending_cases with hy | ⟨first, hp⟩ | ⟨first, argument, behind, new, hp, hnew, hy⟩
  · exact hx z (hy ▸ hz)
  · rw [hp] at hx
    exact hx z (List.mem_cons_of_mem _ hz)
  · rw [hp] at hx
    rw [hy] at hz
    rcases List.mem_append.mp hz with hz | hz
    · exact isPlaced_of_importTokens hnew hz
    · exact hx z (List.mem_cons_of_mem _ (List.mem_cons_of_mem _ hz))

/-- All tokens in the stream of a text with a name are placed. -/
theorem isPlaced_of_reaches {source : String} {bytes : List UInt8} (hname : source ≠ "")
    (h : Reaches t s (ofTokens t source (tokenize source bytes)) x) :
    ∀ z ∈ x.pending, z.IsPlaced t := by
  induction h with
  | refl => exact fun z hz => isPlaced_ofTokens hname hz
  | tail _ hstep ih => exact (step_eq_some_iff.mp hstep).isPlaced ih

/-! ## 3. Where a statement begins -/

/-- `Begins t s o x first`: the statement that `x` reads is made of the tokens
`first :: words`, and stands where the first of them does. On the way from `o` they stood
in front of what `x` has yet to read, before the first word of a statement. -/
def Begins (t : FileTree) (s : Settings) (o x : Descent) (first : Tracked) : Prop :=
  ∃ w words, Reaches t s o w ∧ w.turn = .words ∧ w.params = [] ∧ w.blocks = x.blocks ∧
    w.pending = first :: words ++ x.pending ∧
    first.token.isMark = false ∧ first.token.isInclude = false ∧
    x.params = ((first :: words).map fun z => z.token.text).reverse ∧
    x.place = first.token.place

/-- A step keeps to where a statement begins. -/
theorem Goes.begins (h : Goes t s x y) (hx : Reaches t s o x) (horder : x.IsOrderly s)
    (hbegins : x.turn = .words → x.params ≠ [] → ∃ first, Begins t s o x first) :
    y.turn = .words → y.params ≠ [] → ∃ first, Begins t s o y first := by
  intro hturn hne
  cases h with
  | splice _ hi _ => exact absurd hi.2.1 hne
  | @word first rest hr hp he ho hfirst =>
    by_cases hn : x.params = []
    · obtain ⟨hc, hinc⟩ := hfirst hn
      exact ⟨first, x, [], hx, hr, hn, rfl, hp, Token.isMark_eq_false_iff.mpr ⟨he, ho, hc⟩, hinc,
        by simp [hn], horder.place_eq hr hn hp⟩
    · obtain ⟨head, w, words, hw, hwr, hwn, hblocks, hpending, hmark, hinc, hparams, hplace⟩ :=
        hbegins hr hn
      refine ⟨head, w, words ++ [first], hw, hwr, hwn, hblocks, ?_, hmark, hinc, ?_, hplace⟩
      · rw [hpending, hp]
        simp [consume]
      · simp [hparams]
  | start | stop | finish | enter | nameless | tooDeep | refuse | stray | exhausted | goOn | close
    | back => simp_all
  | leave =>
    unfold consumeClose at hturn
    split at hturn
    · cases hturn
    · split at hturn <;> cases hturn
  | unwind hf _ => exact absurd (hf.symm.trans hturn) nofun

/-- A statement that has a word begins at a token of the stream. -/
theorem begins_of_reaches (ho : o.IsOrderly s) (hn : o.params = []) (h : Reaches t s o x) :
    x.turn = .words → x.params ≠ [] → ∃ first, Begins t s o x first := by
  induction h with
  | refl => exact fun _ hne => absurd hn hne
  | tail hx hstep ih =>
    exact (step_eq_some_iff.mp hstep).begins hx (Reaches.isOrderly hx ho) ih

/-! ## 4. How a step fails -/

/-- `Blames t s o x f`: the reading that started at `o` has come to `x` and fails there with
`f`. Of these faults only the last two have a context.

* `noName`: a `{` stands in front of the first word.
* `noBlock`: the outermost call has come to a `}`.
* `tooDeep`: the block of the statement that begins at `first` is too deep.
* `noArgument`: the stream ends behind `include`, or a mark stands there.
* `tooManyTokens`: the tokens that take the place of the `include` are too many.
* `notImported`: the `include` cannot be replaced.
* `tooLong`: a file that the `include` stands for is too long. It is laid to the
  file, without a line. -/
inductive Blames (t : FileTree) (s : Settings) (o x : Descent) : Fault → Prop
  | noName {first : Tracked} {rest : List Tracked} :
      x.turn = .words → x.pending = first :: rest → x.params = [] →
      first.token.text = "\x7b" →
      Blames t s o x { cause := .blockWithoutName, place := first.token.place }
  | noBlock {first : Tracked} {rest : List Tracked} :
      x.turn = .leave → x.pending = first :: rest → first.token.text = "\x7d" → x.blocks = [] →
      Blames t s o x { cause := .unexpectedClose, place := first.token.place }
  | tooDeep {first brace : Tracked} {rest : List Tracked} :
      x.turn = .words → x.pending = brace :: rest → x.params ≠ [] →
      brace.token.text = "\x7b" → s.limits.blockDepth ≤ x.blocks.length →
      Begins t s o x first →
      Blames t s o x
        { cause := .blocksTooDeep s.limits.blockDepth, place := first.token.place }
  | noArgument {first : Tracked} {rest : List Tracked} :
      x.pending = first :: rest → x.AtInclude first.token →
      (∀ argument ∈ rest.head?, argument.token.isMark = true) →
      Blames t s o x { cause := .includeWithoutArgument, place := first.token.place }
  | tooManyTokens {first argument : Tracked} {behind new : List Tracked} :
      x.pending = first :: argument :: behind → x.AtInclude first.token →
      argument.token.isMark = false →
      Include.importTokens t s argument.token.text first.trail = .ok new →
      s.limits.tokens < x.total - 2 + new.length →
      Blames t s o x
        { cause := .tooManyTokens (x.total - 2 + new.length) s.limits.tokens
          place := first.token.place }
  | notImported {first argument : Tracked} {behind : List Tracked} {cause : Cause} :
      x.pending = first :: argument :: behind → x.AtInclude first.token →
      argument.token.isMark = false → cause.blamesInclude = true →
      Include.importTokens t s argument.token.text first.trail = .error { cause } →
      Blames t s o x
        { cause
          place := first.token.place
          context := some s!"while including {argument.token.text}" }
  | tooLong {first argument : Tracked} {behind : List Tracked} {files : List Path} {file : Path} :
      x.pending = first :: argument :: behind → x.AtInclude first.token →
      argument.token.isMark = false →
      Include.resolve t s.layout argument.token.text = .ok files → file ∈ files →
      s.limits.fileSize < t.size file →
      Include.importTokens t s argument.token.text first.trail =
        .error { cause := .readTooLong s.limits.fileSize, place := { file := file.text } } →
      Blames t s o x
        { cause := .readTooLong s.limits.fileSize
          place := { file := file.text, line := 0 }
          context := some s!"while including {argument.token.text}" }

/-- The fault of a file that is too long has its place already. -/
theorem orAt_tooLong {file : Path} (h : s.limits.fileSize < t.size file) (place : Place) :
    ({ cause := .readTooLong s.limits.fileSize, place := { file := file.text } } : Fault).orAt place =
      { cause := .readTooLong s.limits.fileSize, place := { file := file.text } } := by
  have hknown : ({ file := file.text } : Place).isKnown = true := by
    simp [Place.isKnown, FileTree.text_ne_empty_of_lt_size h]
  exact if_pos hknown

/-- An include that cannot be replaced fails with its argument, its import or the
length of the stream. -/
theorem blames_of_expand {first : Tracked} {rest : List Tracked} (hp : x.pending = first :: rest)
    (hi : x.AtInclude first.token)
    (h : Parser.expand t s first.token.place first.trail rest x.total = .error f) :
    Blames t s o x f := by
  unfold Parser.expand at h
  split at h
  · cases h
    exact .noArgument hp hi (by simp)
  · next argument behind =>
    split at h
    · next hmark =>
      cases h
      exact .noArgument hp hi (by simpa using hmark)
    · next hmark =>
      rw [Bool.not_eq_true] at hmark
      split at h
      · next g hg =>
        cases h
        rcases Include.importTokens_error_cases hg with
          ⟨cause, hcause, rfl⟩ | ⟨files, hfiles, file, hfile, hsize, rfl⟩
        · -- The fault comes without a place and gets that of the include.
          exact .notImported hp hi hmark hcause hg
        · rw [orAt_tooLong hsize]
          exact .tooLong hp hi hmark hfiles hfile hsize hg
      · next new hnew =>
        dsimp only at h
        split at h
        · next hlong =>
          cases h
          exact .tooManyTokens hp hi hmark hnew hlong
        · cases h

/-- A step that fails is to blame in one of these ways. -/
theorem Goes.blames (h : Goes t s x y) (ho : o.IsOrderly s) (hn : o.params = [])
    (hx : Reaches t s o x) (hnone : x.turn.fault? = none) (hy : y.turn = .fail f) :
    Blames t s o x f := by
  have horder := hx.isOrderly ho
  cases h with
  | exhausted hr hp => exact absurd hp (horder.pending_ne_nil hr)
  | nameless hr hp hnil hopen =>
    cases hy
    rw [horder.place_eq hr hnil hp]
    exact .noName hr hp hnil (beq_iff_eq.mp hopen)
  | tooDeep hr hp hne hopen hge =>
    cases hy
    obtain ⟨head, hbegins⟩ := begins_of_reaches ho hn hx hr hne
    obtain ⟨_, _, _, _, _, _, _, _, _, _, hplace⟩ := id hbegins
    rw [hplace]
    exact .tooDeep hr hp hne (beq_iff_eq.mp hopen) (horder.depth_eq ▸ hge) hbegins
  | refuse hp hi hex =>
    cases hy
    rw [horder.place_eq hi.1 hi.2.1 hp] at hex
    exact blames_of_expand hp hi hex
  | @stray first rest hl hb hp =>
    cases hy
    have hc : first.token.closesBlock = true := by
      simpa [atBlockEnd, hp] using (horder.expects hl).2
    exact .noBlock hl hp (beq_iff_eq.mp hc) hb
  | goOn | close | start | enter | back => cases hy
  | stop | finish =>
    rw [finish_turn] at hy
    cases hy
  | splice _ hi _ => cases hi.1.symm.trans hy
  | word hr => cases hr.symm.trans hy
  | leave =>
    unfold consumeClose at hy
    split at hy
    · cases hy
    · split at hy <;> cases hy
  | unwind hf _ =>
    rw [hf] at hnone
    cases hnone

/-- And where something is to blame, a step fails. -/
theorem Blames.exists_goes (h : Blames t s o x f) (horder : x.IsOrderly s) :
    ∃ y, Goes t s x y ∧ y.turn = .fail f := by
  have hplaced {first : Tracked} {rest : List Tracked} (hp : x.pending = first :: rest)
      (hi : x.AtInclude first.token) : x.place = first.token.place :=
    horder.place_eq hi.1 hi.2.1 hp
  cases h with
  | noName hr hp hnil hopen =>
    rw [← horder.place_eq hr hnil hp]
    exact ⟨_, .nameless hr hp hnil (beq_iff_eq.mpr hopen), rfl⟩
  | noBlock hl hp _ hb => exact ⟨_, .stray hl hb hp, rfl⟩
  | tooDeep hr hp hne hopen hdeep hbegins =>
    obtain ⟨_, _, _, _, _, _, _, _, _, _, hplace⟩ := hbegins
    rw [← hplace]
    exact ⟨_, .tooDeep hr hp hne (beq_iff_eq.mpr hopen) (horder.depth_eq ▸ hdeep), rfl⟩
  | @noArgument first rest hp hi hmark =>
    refine ⟨_, .refuse hp hi ?_, rfl⟩
    rw [hplaced hp hi]
    cases rest with
    | nil => rfl
    | cons argument behind => simp [Parser.expand, hmark argument rfl]
  | tooManyTokens hp hi hmark hnew hlong =>
    refine ⟨_, .refuse hp hi ?_, rfl⟩
    rw [hplaced hp hi]
    simp [Parser.expand, hmark, hnew, hlong]
  | notImported hp hi hmark _ himport =>
    refine ⟨_, .refuse hp hi ?_, rfl⟩
    rw [hplaced hp hi, Parser.expand_of_import_error _ _ _ hmark himport]
    rfl
  | tooLong hp hi hmark _ _ hsize himport =>
    refine ⟨_, .refuse hp hi ?_, rfl⟩
    rw [hplaced hp hi, Parser.expand_of_import_error _ _ _ hmark himport, orAt_tooLong hsize]
    rfl

/-- What is blamed has a file, if the tokens of the stream have one. -/
theorem Blames.file_ne_empty (h : Blames t s o x f) (hx : Reaches t s o x)
    (hplaced : ∀ w, Reaches t s o w → ∀ z ∈ w.pending, z.IsPlaced t) : f.place.file ≠ "" := by
  have hfirst : ∀ {first : Tracked} {rest : List Tracked}, x.pending = first :: rest →
      first.token.file ≠ "" := fun hp => (hplaced x hx _ (by simp [hp])).file_ne_empty
  cases h with
  | noName _ hp _ _ => exact hfirst hp
  | noBlock _ hp _ _ => exact hfirst hp
  | noArgument hp _ _ => exact hfirst hp
  | tooManyTokens hp _ _ _ _ => exact hfirst hp
  | notImported hp _ _ _ _ => exact hfirst hp
  | tooDeep _ _ _ _ _ hbegins =>
    obtain ⟨w, words, hw, _, _, _, hpending, _⟩ := hbegins
    exact (hplaced w hw _ (by simp [hpending])).file_ne_empty
  | tooLong _ _ _ _ _ hsize _ => exact FileTree.text_ne_empty_of_lt_size hsize

/-- No fault of a step speaks of the end of the input. -/
theorem Blames.message_ne_endOfInput (h : Blames t s o x f) :
    f.message ≠ "unexpected end of input" := by
  refine Cause.message_ne_endOfInput ?_ fun kind message hreported => ?_
  · cases h with
    | notImported _ _ _ hcause _ =>
      rintro rfl
      cases hcause
    | _ => exact nofun
  · cases h with
    | notImported _ _ _ hcause _ =>
      dsimp only at hreported
      rw [hreported] at hcause
      cases hcause
    | _ => cases hreported

/-- A fault was raised by a step that was not on the way back from one. -/
theorem exists_raised (h : Reaches t s o x) (ho : o.turn.fault? = none) (hx : x.turn = .fail f) :
    ∃ w y, Reaches t s o w ∧ w.turn.fault? = none ∧ Goes t s w y ∧ y.turn = .fail f := by
  induction h with
  | refl =>
    rw [hx] at ho
    cases ho
  | @tail w y hw hstep ih =>
    have hgoes := step_eq_some_iff.mp hstep
    cases hnone : w.turn.fault? with
    | none => exact ⟨w, y, hw, hnone, hgoes, hx⟩
    | some g =>
      have hg : w.turn = .fail g := by
        cases hturn : w.turn <;> simp_all [Turn.fault?]
      refine ih ?_
      cases hgoes with
      | unwind => exact hx
      | _ => simp_all [AtInclude]

/-! ## 5. Texts -/

/-- Every fault of a text with a name that is itself within the limits points at its cause,
and never at the end of the input.

It is raised in one of the ways above. Whatever was spliced in, a statement without a word
stands where the token at the front does, if there is one, and any other where its first
word does. And a statement is asked for only where there is a token. -/
theorem parse_blames {bytes : List UInt8} (hname : s.sourceName ≠ "")
    (hbytes : bytes.length ≤ s.limits.fileSize)
    (htokens : (tokenize s.sourceName bytes).length ≤ s.limits.tokens)
    (h : parse t s bytes = .error f) :
    let o := ofTokens t s.sourceName (tokenize s.sourceName bytes)
    f.place.file ≠ "" ∧ f.message ≠ "unexpected end of input" ∧
      (∃ x y, Reaches t s o x ∧ step t s x = some y ∧ y.turn = .fail f ∧
        (∀ z ∈ x.pending, z.IsPlaced t) ∧ Blames t s o x f) ∧
      (∀ x, Reaches t s o x → x.turn = .words →
        (x.params = [] → ∀ first ∈ x.pending.head?, x.place = first.token.place) ∧
          (x.params ≠ [] → ∃ first, Begins t s o x first)) ∧
      ∀ x, Reaches t s o x → x.turn = .statement → x.pending ≠ [] := by
  intro o
  have ho : o.IsOrderly s := isOrderly_ofTokens
  have hanswer : (run t s o).answer = .error f := by
    rw [parse, if_neg (Nat.not_lt.mpr hbytes), parseFrom, if_neg (Nat.not_lt.mpr htokens)] at h
    exact h
  have hturn : (run t s o).turn = .fail f := by
    unfold answer at hanswer
    split at hanswer
    · next g hg =>
      cases hanswer
      cases hrun : (run t s o).turn <;> simp_all [Turn.fault?]
    · cases hanswer
  obtain ⟨x, y, hx, hnone, hgoes, hy⟩ := exists_raised (reaches_run t s o) rfl hturn
  have hblames := hgoes.blames ho rfl hx hnone hy
  refine ⟨hblames.file_ne_empty hx fun w => isPlaced_of_reaches hname,
    hblames.message_ne_endOfInput,
    ⟨x, y, hx, step_of_goes hgoes, hy, isPlaced_of_reaches hname hx, hblames⟩,
    fun w hw hr => ⟨(hw.isOrderly ho).expects hr, begins_of_reaches ho rfl hw hr⟩,
    fun w hw hr => (hw.isOrderly ho).pending_ne_nil hr⟩

/-- A file with nothing but a closing brace. -/
def closingTree : FileTree where
  nodes := [([⟨"e", by decide⟩], .file (.ofBytes [0x7d]) false)]
  nodup := by decide
  workingDir := []

/-- A text that includes it: `include e`. -/
def closingBytes : List UInt8 := [0x69, 0x6e, 0x63, 0x6c, 0x75, 0x64, 0x65, 0x20, 0x65]

/-- The brace is blamed where it stands, in the included file. -/
theorem parse_blames_closingBytes :
    let s : Settings :=
      { sourceName := "top", layout := { root := ⟨"/"⟩, subdirs := [], standardFiles := [] } }
    let f : Fault := { cause := .unexpectedClose, place := { file := "/e", line := 1 } }
    let o := ofTokens closingTree "top" (tokenize "top" closingBytes)
    parse closingTree s closingBytes = .error f ∧ f.place.file ≠ "" ∧
      f.message ≠ "unexpected end of input" ∧
      ∃ x, Reaches closingTree s o x ∧ (∀ z ∈ x.pending, z.IsPlaced closingTree) ∧
        Blames closingTree s o x f := by
  intro s f o
  have htokens : tokenize "top" closingBytes = [⟨"top", 1, "include"⟩, ⟨"top", 1, "e"⟩] := by cbv
  have hfiles : Include.resolve closingTree s.layout "e" = .ok [⟨"/e"⟩] := by cbv
  have hload : load closingTree s.limits ⟨"/e"⟩ = .ok [⟨"/e", 1, "\x7d"⟩] := by cbv
  let c := Trail.ofSource closingTree ⟨"top"⟩
  have henter : c.enter closingTree ⟨"/e"⟩ s.limits.includeDepth = .ok _ :=
    Trail.enter_eq_ok_iff.mpr ⟨by cbv, by decide, rfl⟩
  have hnew : Include.importTokens closingTree s "e" c =
      .ok [{ token := ⟨"/e", 1, "\x7d"⟩, trail := c.extend (closingTree.identity ⟨"/e"⟩) }] := by
    rw [Include.importTokens, hfiles]
    change Include.importFiles _ _ _ _ = _
    rw [Include.importFiles, Include.importFile, henter, hload]
    rfl
  have hparse : parse closingTree s closingBytes = .error f := by
    have hmove : Parser.Move closingTree s
        (Parser.ofTokens closingTree "top" [⟨"top", 1, "include"⟩, ⟨"top", 1, "e"⟩]) _ :=
      .splice rfl ⟨rfl, rfl⟩ rfl hnew (by decide)
    have hrun := (Parser.run_of_move hmove).trans
      (Parser.run_of_refuses rfl (.noBlock rfl rfl rfl))
    have hread : parse closingTree s closingBytes =
        parseTokens closingTree s (tokenize "top" closingBytes) := rfl
    rw [hread, htokens]
    exact (parseTokens_eq_run (by decide)).trans hrun
  obtain ⟨hfile, hmessage, ⟨x, y, hx, -, -, hplaced, hblames⟩, -⟩ :=
    parse_blames (by decide) (by decide) (by rw [htokens]; decide) hparse
  exact ⟨hparse, hfile, hmessage, x, hx, hplaced, hblames⟩

end Descent

end ConfTree
