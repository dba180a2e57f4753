import ConfTree.Proofs.Grammar.Level
import ConfTree.Proofs.Include.Expansion

/-!
# Streams are read part by part

What is made of a part of a stream depends on little of what stands around it: the
trails of its tokens do not matter for the tokens that its includes stand for, and
what was read before matters only as far as a statement starts or blocks are open.

1. `importFile_eq_ok`, `map_token_importTokens`: imported tokens say the same from
   every trail.
2. `expandOnto_append`: a stream is expanded alike alone and in front of others,
   whatever its trails. `expandOnto_of_shorter`: and behind others.
3. `TakesAll.of_level`: what is taken depends on the level.
-/

namespace ConfTree

/-! ## 1. Imported tokens -/

namespace Include

section Imports

variable {t : FileTree} {limits : Limits} {c d : Trail} {new new' : List Tracked}

/-- A file that can be entered and read is imported. -/
theorem importFile_eq_ok {p : Path} {tokens : List Token}
    (hnew : c.mentions (t.identity p) = false) (hdepth : c.depth < limits.includeDepth)
    (hload : load t limits p = .ok tokens) :
    importFile t limits c p =
      .ok (tokens.map fun token => { token, trail := c.extend (t.identity p) }) := by
  have henter : c.enter t p limits.includeDepth = .ok _ :=
    Trail.enter_eq_ok_iff.mpr ⟨hnew, hdepth, rfl⟩
  rw [importFile, henter, hload]
  rfl

/-- The tokens of a file are those it is read into. -/
theorem load_of_importFile {p : Path} (h : importFile t limits c p = .ok new) :
    load t limits p = .ok (new.map Tracked.token) := by
  obtain ⟨inner, _, h⟩ := bind_eq_ok_iff.mp h
  obtain ⟨tokens, hload, h⟩ := bind_eq_ok_iff.mp h
  cases h
  rw [hload, List.map_map]
  exact congrArg Except.ok (List.map_id tokens).symm

theorem map_token_importFiles {ps : List Path} (h : importFiles t limits c ps = .ok new)
    (h' : importFiles t limits d ps = .ok new') :
    new.map Tracked.token = new'.map Tracked.token := by
  induction ps generalizing new new' with
  | nil =>
    cases h
    cases h'
    rfl
  | cons p ps ih =>
    obtain ⟨these, hp, h⟩ := bind_eq_ok_iff.mp h
    obtain ⟨those, hps, h⟩ := bind_eq_ok_iff.mp h
    obtain ⟨these', hp', h'⟩ := bind_eq_ok_iff.mp h'
    obtain ⟨those', hps', h'⟩ := bind_eq_ok_iff.mp h'
    cases h
    cases h'
    have hthese := (load_of_importFile hp).symm.trans (load_of_importFile hp')
    rw [List.map_append, List.map_append, ih hps hps', Except.ok.inj hthese]

/-- The files of an include that can be imported are imported. -/
theorem importFiles_of_importTokens {s : Settings} {argument : String} {files : List Path}
    (hfiles : resolve t s.layout argument = .ok files)
    (h : importTokens t s argument c = .ok new) :
    importFiles t s.limits c files = .ok new := by
  obtain ⟨files', hfiles', h⟩ := bind_eq_ok_iff.mp h
  rw [hfiles] at hfiles'
  cases hfiles'
  split at h
  · cases h
  · exact h

/-- The tokens of an include do not depend on its trail. -/
theorem map_token_importTokens {s : Settings} {argument : String}
    (h : importTokens t s argument c = .ok new) (h' : importTokens t s argument d = .ok new') :
    new.map Tracked.token = new'.map Tracked.token := by
  obtain ⟨files, hfiles, _⟩ := bind_eq_ok_iff.mp h
  exact map_token_importFiles (importFiles_of_importTokens hfiles h)
    (importFiles_of_importTokens hfiles h')

end Imports

/-! ## 2. Expanding part by part -/

section Expanding

variable {t : FileTree} {s : Settings} {atStart : Bool}
  {read read' pending pending' behind flat flatAll : List Tracked}

/-- An include that can be replaced is, if there is room for its tokens. -/
theorem expandOnto_of_replacement {first : Tracked} {rest new : List Tracked}
    (hinc : first.token.isInclude = true)
    (hreplace : replacement? t s first rest = some (new, behind))
    (hle : read.length + (new ++ behind).length ≤ s.limits.tokens) :
    expandOnto t s read true (first :: rest) = expandOnto t s read true (new ++ behind) := by
  rw [expandOnto_of_include hinc, hreplace]
  exact if_neg (Nat.not_lt.mpr hle)

/-- An expansion that goes on behind an include has replaced it. -/
theorem expandOnto_include_eq_some {first : Tracked} {rest : List Tracked}
    (hinc : first.token.isInclude = true)
    (h : expandOnto t s read true (first :: rest) = some flat) :
    ∃ argument behind new, rest = argument :: behind ∧ argument.token.isMark = false ∧
      importTokens t s argument.token.text first.trail = .ok new ∧
      read.length + (new ++ behind).length ≤ s.limits.tokens ∧
      expandOnto t s read true (new ++ behind) = some flat := by
  rw [expandOnto_of_include hinc] at h
  split at h
  · cases h
  · next new behind hreplace =>
    obtain ⟨argument, rfl, hm, hnew⟩ := replacement?_eq_some_iff.mp hreplace
    split at h
    · cases h
    · next hle => exact ⟨argument, behind, new, rfl, hm, hnew, Nat.not_lt.mp hle, h⟩

/-- A flat part of a stream is expanded already. -/
theorem expandOnto_of_isFlat {front : List Tracked}
    (h : isFlat atStart (front.map Tracked.token) = true) :
    expandOnto t s read atStart (front ++ behind) =
      expandOnto t s (front.reverse ++ read)
        ((front.map Tracked.token).foldl startsBehind atStart) behind := by
  induction front generalizing read atStart with
  | nil => rfl
  | cons first rest ih =>
    obtain ⟨hother, hrest⟩ := isFlat_cons.mp h
    rw [List.cons_append, expandOnto_of_other hother, ih hrest]
    simp

/-- A stream that can be expanded alone is expanded alike in front of another one,
whatever trails its tokens have. -/
theorem expandOnto_append (h : expandOnto t s read atStart pending = some flat)
    (hsame : pending'.map Tracked.token = pending.map Tracked.token)
    (hall : expandOnto t s read' atStart (pending' ++ behind) = some flatAll) :
    ∃ front mid : List Tracked, flat = read.reverse ++ front ∧
      mid.map Tracked.token = front.map Tracked.token ∧
      expandOnto t s (mid.reverse ++ read')
        ((front.map Tracked.token).foldl startsBehind atStart) behind = some flatAll := by
  fun_induction expandOnto t s read atStart pending generalizing read' pending' with
  | case1 read =>
    cases h
    rw [List.map_nil, List.map_eq_nil_iff] at hsame
    subst hsame
    exact ⟨[], [], by simp, rfl, hall⟩
  | case2 => cases h
  | case3 => cases h
  | case4 read atStart first rest hinc new behind₀ hreplace _ ih =>
    obtain ⟨argument, rfl, _, hnew⟩ := replacement?_eq_some_iff.mp hreplace
    obtain ⟨rfl, hinc⟩ := Bool.and_eq_true_iff.mp hinc
    obtain ⟨first', rest', rfl, hfirst, hrest⟩ := List.map_eq_cons_iff.mp hsame
    obtain ⟨argument', behind', rfl, hargument, hbehind⟩ := List.map_eq_cons_iff.mp hrest
    have hinc' : first'.token.isInclude = true := by rwa [hfirst]
    -- Around other tokens the include has another trail, and the same argument.
    obtain ⟨_, _, new', hsplit, _, hnew', _, hall⟩ := expandOnto_include_eq_some hinc' hall
    cases hsplit
    rw [hargument] at hnew'
    refine ih h ?_ (by rwa [List.append_assoc])
    rw [List.map_append, List.map_append, hbehind, map_token_importTokens hnew' hnew]
  | case5 read atStart first rest hinc ih =>
    obtain ⟨first', rest', rfl, hfirst, hrest⟩ := List.map_eq_cons_iff.mp hsame
    have hother : (atStart && first'.token.isInclude) = false := by
      rw [hfirst]
      simpa using hinc
    rw [List.cons_append, expandOnto_of_other hother, hfirst] at hall
    obtain ⟨front, mid, rfl, hmid, hall⟩ := ih h hrest hall
    refine ⟨first :: front, first' :: mid, by simp, by simp [hmid, hfirst], ?_⟩
    simpa using hall

/-- What was read before a stream does not matter, as long as it is not longer. -/
theorem expandOnto_of_shorter (read' : List Tracked)
    (h : expandOnto t s read atStart pending = some flat) (hle : read'.length ≤ read.length) :
    ∃ front, flat = read.reverse ++ front ∧
      expandOnto t s read' atStart pending = some (read'.reverse ++ front) := by
  fun_induction expandOnto t s read atStart pending generalizing read' with
  | case1 read =>
    cases h
    exact ⟨[], by simp, by simp [expandOnto_nil]⟩
  | case2 => cases h
  | case3 => cases h
  | case4 read atStart first rest hinc new behind hreplace hlen ih =>
    obtain ⟨rfl, hinc⟩ := Bool.and_eq_true_iff.mp hinc
    obtain ⟨front, hflat, hexpand⟩ := ih read' h hle
    refine ⟨front, hflat, ?_⟩
    rw [expandOnto_of_replacement hinc hreplace (by omega)]
    exact hexpand
  | case5 read atStart first rest hinc ih =>
    obtain ⟨front, rfl, hexpand⟩ := ih (first :: read') h (Nat.succ_le_succ hle)
    refine ⟨first :: front, by simp, ?_⟩
    rw [expandOnto_of_other (by simpa using hinc), hexpand]
    simp

end Expanding

end Include

/-! ## 3. Taking depends on the level -/

namespace Level

theorem behindAll_append (l : Level) (front behind : List Token) :
    l.behindAll (front ++ behind) = (l.behindAll front).behindAll behind := by
  simp [behindAll]

/-- A `;` where a statement starts changes nothing. -/
theorem behind_of_endsStatement {token : Token} (h : token.endsStatement = true) :
    behind {} token = {} := by
  simp [behind, Include.startsBehind, h]

/-- Whether a statement starts behind tokens does not depend on the blocks. -/
theorem atStart_behindAll (l : Level) (tokens : List Token) :
    (l.behindAll tokens).atStart = tokens.foldl Include.startsBehind l.atStart := by
  induction tokens generalizing l with
  | nil => rfl
  | cons token tokens ih => exact ih (l.behind token)

/-- A statement starts behind tokens that close all blocks. -/
theorem startsBehind_of_behindAll {tokens : List Token} (h : behindAll {} tokens = {}) :
    tokens.foldl Include.startsBehind true = true := by
  have hstart := atStart_behindAll {} tokens
  rw [h] at hstart
  exact hstart.symm

end Level

namespace Parser

variable {maxDepth : Nat} {token : Token} {tokens : List Token} {p q r : Parser}

/-- What is taken at a place is taken at every place of the same level. -/
theorem Takes.of_level (h : Takes maxDepth token p q) (hr : r.level = p.level) :
    ∃ r', Takes maxDepth token r r' ∧ r'.level = q.level := by
  have hdraft : r.draft.isNone = p.draft.isNone := congrArg Level.atStart hr
  have hblocks : r.blocks.length = p.blocks.length := congrArg Level.blocks hr
  have hinc : ¬ r.AtInclude token := by
    rw [atInclude_iff, hdraft, ← atInclude_iff]
    exact h.not_atInclude
  have htaken : ∃ r', Takes maxDepth token r r' := by
    refine (takes_or_refuses maxDepth hinc).resolve_right ?_
    rintro ⟨f, hf⟩
    have hex := h.excludes_eq_false
    rw [← hr] at hex
    cases hf with
    | noName hd ho => simp [Level.excludes, level, hd, ho] at hex
    | noBlock hd hc hb => simp [Level.excludes, level, hd, hc, hb] at hex
    | tooDeep hd ho hge =>
      -- Only a statement can be in front of the block.
      cases h with
      | blank hd' _ | leave hd' _ _ | start hd' _ _ => simp [hd, hd'] at hdraft
      | finish _ he => simp [Token.opensBlock_of_endsStatement he] at ho
      | word _ _ ho' => simp [ho'] at ho
      | enter _ _ hlt => omega
  obtain ⟨r', hr'⟩ := htaken
  exact ⟨r', hr', by rw [hr'.level_eq, hr, h.level_eq]⟩

theorem TakesAll.of_level (h : TakesAll maxDepth tokens p q) (hr : r.level = p.level) :
    ∃ r', TakesAll maxDepth tokens r r' := by
  induction h generalizing r with
  | nil => exact ⟨r, .nil⟩
  | cons ht _ ih =>
    obtain ⟨r₁, hr₁, hlevel⟩ := ht.of_level hr
    obtain ⟨r₂, hr₂⟩ := ih hlevel
    exact ⟨r₂, .cons hr₁ hr₂⟩

/-- Tokens that are taken are taken part by part. -/
theorem TakesAll.split {front behind : List Token} (h : TakesAll maxDepth (front ++ behind) p r) :
    ∃ q, TakesAll maxDepth front p q ∧ TakesAll maxDepth behind q r := by
  induction front generalizing p with
  | nil => exact ⟨p, .nil, h⟩
  | cons token front ih =>
    cases h with
    | cons ht h =>
      obtain ⟨q, hq, hr⟩ := ih h
      exact ⟨q, .cons ht hq, hr⟩

/-- A flat stream that is read is taken. -/
theorem takesAll_of_run {t : FileTree} {s : Settings} {ds : List Directive}
    (hflat : Include.isFlat p.draft.isNone (p.pending.map Tracked.token) = true)
    (h : run t s p = .ok ds) :
    ∃ q, TakesAll s.limits.blockDepth (p.pending.map Tracked.token) p q ∧ ds = q.result := by
  rcases takesAll_or_refused s.limits.blockDepth hflat with
    ⟨q, hq⟩ | ⟨front, token, behind, q, f, htokens, hq, hf⟩
  · rw [run_of_takesAll hq] at h
    cases h
    exact ⟨q, hq, rfl⟩
  · rw [run_of_takesAll_refuses htokens hq hf] at h
    cases h

end Parser

end ConfTree
