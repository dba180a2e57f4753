import ConfTree.Proofs.Include.Faults
import ConfTree.Proofs.Include.Limits
import ConfTree.Proofs.Include.Trails
import ConfTree.Proofs.Lexer.Scan

/-!
# Cycles of includes

The trail of a token is the way on which its file was included: the text that was
read first, and behind it, file by file, what an include in the file before stood
for. A path is refused exactly if its identity is on the trail of its own include, so
files may be included as often as one likes, but not from within themselves. The guard
is as good as identities are: a file that lies too deep to have a canonical path is
only known again by the path that was taken.

1. `file_of_mem_load`, `FileTree.apart_of_not_same`: files and their identities.
   `Trail.entered_extend_cases`: the files of a trail that leads one file further.
2. `Includes`, `IsTraced`: what a trail says, and where.
   `Move.isTraced`: a step keeps to it. `isTraced_of_reaches`: so does a run.
3. `revisits_of_cycle`, `Revisits.step_eq_failed`: when a step is blamed for a cycle.
   `kind_ne_cycle_of_repeat`: what was included once can be included again.
4. `cycle_guard`: the same for all ways of reading a text.
-/

namespace ConfTree

/-! ## 1. Files and trails -/

/-- The tokens of a file carry its path. -/
theorem file_of_mem_load {t : FileTree} {limits : Limits} {p : Path} {tokens : List Token}
    {token : Token} (h : load t limits p = .ok tokens) (htoken : token ∈ tokens) :
    token.file = p.text := by
  obtain ⟨content, _, _, hread⟩ := readTokens_of_load h
  obtain ⟨_, _, rfl⟩ := readTokens_eq_ok_iff.mp hread
  exact file_of_mem_tokenize htoken

/-- Where a path that goes by `k` and one that goes by `l` lead to one place, one of the
two paths has no canonical path. -/
def FileTree.Apart (t : FileTree) (k l : Path) : Prop :=
  ∀ a b loc, (t.identity a).same k = true → (t.identity b).same l = true →
    t.locate a = .ok loc → t.locate b = .ok loc → t.canonical? a = none ∨ t.canonical? b = none

/-- Different identities are those of different places, whatever links and spellings lead
there, unless canonical paths are missing. -/
theorem FileTree.apart_of_not_same {t : FileTree} {k l : Path} (h : k.same l = false) :
    t.Apart k l := by
  intro a b loc hk hl ha hb
  rcases canonical?_of_locate ha with hca | hca
  · rcases canonical?_of_locate hb with hcb | hcb
    · rw [identity, hca, Option.getD_some] at hk
      rw [identity, hcb, Option.getD_some] at hl
      simp only [Path.same, beq_iff_eq] at hk hl
      simp [Path.same, ← hk, hl] at h
    · exact .inr hcb
  · exact .inl hca

/-- None are missing where no place lies too deep. -/
theorem FileTree.Apart.locate_ne {t : FileTree} {k l a b : Path} {loc : Location}
    (h : t.Apart k l) (ht : t.IsShallow) (hk : (t.identity a).same k = true)
    (hl : (t.identity b).same l = true) (ha : t.locate a = .ok loc) : t.locate b ≠ .ok loc := by
  intro hb
  rcases h a b loc hk hl ha hb with hnone | hnone
  · simp [ht.canonical?_of_locate ha] at hnone
  · simp [ht.canonical?_of_locate hb] at hnone

/-- On a trail that leads one file further, this file is the last, and the others
were on the trail before. -/
theorem Trail.entered_extend_cases {c : Trail} {key k : Path} {front behind : List Path}
    (h : (c.extend key).entered = front ++ k :: behind) :
    c.entered = front ∧ k = key ∨ ∃ init, c.entered = front ++ k :: init := by
  rw [extend] at h
  rcases List.eq_nil_or_concat behind with rfl | ⟨init, last, rfl⟩
  · obtain ⟨hfront, hkey⟩ := List.append_inj' h rfl
    cases hkey
    exact .inl ⟨hfront, rfl⟩
  · have hconcat : c.entered ++ [key] = (front ++ k :: init) ++ [last] := by simpa using h
    exact .inr ⟨init, (List.append_inj' hconcat rfl).1⟩

namespace Parser

variable {t : FileTree} {s : Settings} {p q : Parser}

/-! ## 2. What a trail says -/

/-- `Includes t s p c files`: an include is next, with the trail `c`, and its
argument stands for these files. -/
inductive Includes (t : FileTree) (s : Settings) : Parser → Trail → List Path → Prop
  | next {p : Parser} {first argument : Tracked} {behind : List Tracked} {files : List Path} :
      p.pending = first :: argument :: behind → p.AtInclude first.token →
      argument.token.isMark = false →
      Include.resolve t s.layout argument.token.text = .ok files →
      Includes t s p first.trail files

/-- `IsTraced t s source p q x`: in the stream of `q`, which the reading of a text
named `source` leads to from `p`, the token `x` has a trail that tells how its file
was included.

* `source_eq`: the trail starts at the text that was read first.
* `entered_from`: every file behind is one that an include stood for, which was
  expanded on the way to `q` and whose own trail led up to there.
* `distinct`: no identity is on the trail twice, and so no file is, whatever links and
  spellings led to it, unless a path that led to it has no canonical path.
* `depth_le`: the trail is not too long.
* `last_eq`: unless the token is one of the first text, the trail ends at its
  file. -/
structure IsTraced (t : FileTree) (s : Settings) (source : String) (p q : Parser)
    (x : Tracked) : Prop where
  source_eq : x.trail.source = t.identity ⟨source⟩
  entered_from : ∀ front key behind, x.trail.entered = front ++ key :: behind →
    ∃ r r' files file, Reaches t s p r ∧ Includes t s r { x.trail with entered := front } files ∧
      step t s r = .more r' ∧ Reaches t s r' q ∧ file ∈ files ∧ key = t.identity file
  distinct : x.trail.files.Pairwise fun k l => k.same l = false ∧ t.Apart k l
  depth_le : x.trail.depth ≤ s.limits.includeDepth
  last_eq : ∀ key, x.trail.entered.getLast? = some key → key = t.identity ⟨x.token.file⟩

namespace IsTraced

variable {source : String} {x : Tracked}

theorem next {r : Parser} (h : IsTraced t s source p q x) (hs : step t s q = .more r) :
    IsTraced t s source p r x where
  source_eq := h.source_eq
  entered_from front key behind hentered := by
    obtain ⟨r₁, r₂, files, file, hr₁, hincludes, hstep, hr₂, hfile, hkey⟩ :=
      h.entered_from front key behind hentered
    exact ⟨r₁, r₂, files, file, hr₁, hincludes, hstep, hr₂.next hs, hfile, hkey⟩
  distinct := h.distinct
  depth_le := h.depth_le
  last_eq := h.last_eq

/-- The tokens of the text that is read first have its trail. -/
theorem ofTokens {tokens : List Token} (hx : x ∈ (Parser.ofTokens t source tokens).pending) :
    IsTraced t s source p q x := by
  obtain ⟨token, _, rfl⟩ := List.mem_map.mp hx
  exact
    { source_eq := rfl
      entered_from := fun front key behind hentered => by
        cases front <;> cases hentered
      distinct := List.pairwise_singleton _ _
      depth_le := Nat.zero_le _
      last_eq := fun key hkey => by cases hkey }

/-- The tokens that take the place of an include have its trail, which leads one
file further. -/
theorem splice {first argument : Tracked} {behind new : List Tracked} {r : Parser}
    (h : IsTraced t s source p q first) (hq : Reaches t s p q) (hs : step t s q = .more r)
    (hp : q.pending = first :: argument :: behind) (hinc : q.AtInclude first.token)
    (hm : argument.token.isMark = false)
    (hnew : Include.importTokens t s argument.token.text first.trail = .ok new) (hx : x ∈ new) :
    IsTraced t s source p r x := by
  obtain ⟨files, hfiles, horigin⟩ := Include.origin_of_mem_importTokens hnew
  obtain ⟨file, hfile, tokens, henter, hload, htoken⟩ := horigin x hx
  obtain ⟨hfresh, hdepth, htrail⟩ := Trail.enter_eq_ok_iff.mp henter
  refine ⟨?_, fun front key behind hsplit => ?_, ?_, ?_, fun key hlast => ?_⟩
  · rw [htrail]
    exact h.source_eq
  · have houter : { x.trail with entered := front } = { first.trail with entered := front } := by
      rw [htrail, Trail.extend]
    rw [htrail] at hsplit
    rw [houter]
    rcases Trail.entered_extend_cases hsplit with ⟨rfl, hkey⟩ | ⟨init, hinit⟩
    · exact ⟨q, r, files, file, hq, .next hp hinc hm hfiles, hs, .refl, hfile, hkey⟩
    · -- The file was on the trail of the include.
      obtain ⟨r₁, r₂, files₁, file₁, hr₁, hincludes, hstep, hr₂, hfile₁, hkey⟩ :=
        h.entered_from front key init hinit
      exact ⟨r₁, r₂, files₁, file₁, hr₁, hincludes, hstep, hr₂.next hs, hfile₁, hkey⟩
  · have hkeys := Trail.distinct_extend (h.distinct.imp And.left) hfresh
    rw [htrail]
    exact hkeys.imp fun hkl => ⟨hkl, FileTree.apart_of_not_same hkl⟩
  · rw [htrail, Trail.depth_extend]
    exact hdepth
  · rw [htrail, Trail.extend, List.getLast?_concat] at hlast
    cases hlast
    rw [file_of_mem_load hload htoken]

end IsTraced

/-- A step keeps to what trails say. -/
theorem Move.isTraced {source : String} {r : Parser} (h : Move t s q r) (hq : Reaches t s p q)
    (htraced : ∀ x ∈ q.pending, IsTraced t s source p q x) :
    ∀ x ∈ r.pending, IsTraced t s source p r x := by
  have hs : step t s q = .more r := step_eq_more_iff.mpr h
  intro x hx
  cases h with
  | take hp _ =>
    rw [hp] at htraced
    exact (htraced x (List.mem_cons_of_mem _ hx)).next hs
  | splice hp hinc hm hnew _ =>
    rw [hp] at htraced
    rcases List.mem_append.mp hx with hx | hx
    · exact (htraced _ List.mem_cons_self).splice hq hs hp hinc hm hnew hx
    · exact (htraced x (List.mem_cons_of_mem _ (List.mem_cons_of_mem _ hx))).next hs

/-- All tokens in the stream of a parser that reads a text are traced. -/
theorem isTraced_of_reaches {source : String} {tokens : List Token}
    (h : Reaches t s (ofTokens t source tokens) q) :
    ∀ x ∈ q.pending, IsTraced t s source (ofTokens t source tokens) q x := by
  induction h with
  | refl => exact fun x hx => .ofTokens hx
  | next hq hs ih => exact (step_eq_more_iff.mp hs).isTraced hq ih

/-! ## 3. Steps that are blamed for a cycle -/

/-- `Revisits t s p c file`: an include is next, with the trail `c`. One of the
files that it stands for is `file`, which is on the trail, and all files in front
of this one can be imported. -/
def Revisits (t : FileTree) (s : Settings) (p : Parser) (c : Trail) (file : Path) : Prop :=
  ∃ before after new, Includes t s p c (before ++ file :: after) ∧
    (before ++ file :: after).length ≤ s.limits.includeFiles ∧
    Include.importFiles t s.limits c before = .ok new ∧ c.mentions (t.identity file) = true

/-- A step is blamed for a cycle only if it enters a file again. -/
theorem revisits_of_cycle {f : Fault} (h : step t s p = .failed f) (hkind : f.kind = .cycle) :
    ∃ c file, Revisits t s p c file ∧
      f.cause = .alreadyIncluded file c.describe (t.identity file) := by
  obtain ⟨first, rest, hp, hf | ⟨hinc, hexpand⟩⟩ := step_eq_failed_iff.mp h
  · cases hf <;> cases hkind
  · unfold expand at hexpand
    split at hexpand
    · cases hexpand
      cases hkind
    · next argument rest =>
      split at hexpand
      · cases hexpand
        cases hkind
      · next hm =>
        split at hexpand
        · next g hg =>
          cases hexpand
          obtain ⟨before, file, after, new, hfiles, hle, hbefore, hmention, rfl⟩ :=
            Include.importTokens_eq_cycle_iff.mp ⟨hg, by simpa using hkind⟩
          exact ⟨first.trail, file,
            ⟨before, after, new, .next hp hinc (by simpa using hm) hfiles, hle, hbefore, hmention⟩,
            rfl⟩
        · dsimp only at hexpand
          split at hexpand
          · cases hexpand
            cases hkind
          · cases hexpand

/-- An include fails with its import, at its own place unless the fault has one. -/
theorem expand_of_import_error {trail : Trail} {argument : Tracked} {f : Fault} (place : Place)
    (total : Nat) (behind : List Tracked) (hm : argument.token.isMark = false)
    (h : Include.importTokens t s argument.token.text trail = .error f) :
    expand t s place trail (argument :: behind) total =
      .error ((f.orAt place).within s!"while including {argument.token.text}") := by
  simp [expand, hm, h]

/-- A step that enters a file again is blamed for a cycle. -/
theorem Revisits.step_eq_failed {c : Trail} {file : Path} (h : Revisits t s p c file) :
    ∃ f, step t s p = .failed f ∧ f.kind = .cycle := by
  obtain ⟨before, after, new, hincludes, hle, hbefore, hmention⟩ := h
  cases hincludes with
  | @next first argument behind _ hp hinc hm hfiles =>
    obtain ⟨himport, hkind⟩ := Include.importTokens_eq_cycle_iff.mpr
      ⟨before, file, after, new, hfiles, hle, hbefore, hmention, rfl⟩
    have hexpand := expand_of_import_error first.token.place p.total behind hm himport
    refine ⟨_, step_eq_failed_iff.mpr ⟨first, _, hp, .inr ⟨hinc, hexpand⟩⟩, ?_⟩
    simpa using hkind

/-- There is one next include at most. -/
theorem Includes.unique {c d : Trail} {files others : List Path} (h : Includes t s p c files)
    (h' : Includes t s p d others) : c = d ∧ files = others := by
  cases h with
  | next hp _ _ hfiles =>
    cases h' with
    | next hp' _ _ hfiles' =>
      rw [hp] at hp'
      cases hp'
      rw [hfiles] at hfiles'
      cases hfiles'
      exact ⟨rfl, rfl⟩

/-- An include is replaced only if none of its files is on its trail. -/
theorem Includes.mentions_eq_false {c : Trail} {files : List Path} (h : Includes t s p c files)
    (hs : step t s p = .more q) : ∀ file ∈ files, c.mentions (t.identity file) = false := by
  cases h with
  | next hp hinc _ hfiles =>
    cases step_eq_more_iff.mp hs with
    | take hp' ht =>
      rw [hp] at hp'
      cases hp'
      exact absurd hinc ht.not_atInclude
    | splice hp' _ _ hnew _ =>
      rw [hp] at hp'
      cases hp'
      obtain ⟨others, hothers, himport⟩ := bind_eq_ok_iff.mp hnew
      rw [hfiles] at hothers
      cases hothers
      split at himport
      · cases himport
      · exact Include.mentions_eq_false_of_importFiles himport

/-- What an include has led to once can be included again from the same trail. -/
theorem kind_ne_cycle_of_repeat {r r' : Parser} {c : Trail} {files again : List Path} {f : Fault}
    (hincludes : Includes t s r c files) (hs : step t s r = .more r')
    (hagain : Includes t s q c again)
    (hknown : ∀ file ∈ again, ∃ other ∈ files, t.identity file = t.identity other)
    (h : step t s q = .failed f) : f.kind ≠ .cycle := by
  intro hkind
  obtain ⟨d, file, ⟨before, after, _, hrevisited, _, _, hmention⟩, _⟩ := revisits_of_cycle h hkind
  obtain ⟨rfl, rfl⟩ := hagain.unique hrevisited
  obtain ⟨other, hother, hid⟩ := hknown file (by simp)
  rw [hid, hincludes.mentions_eq_false hs other hother] at hmention
  cases hmention

/-! ## 4. Texts -/

/-- The guard against cycles. Whatever text is read, all tokens in the stream are
traced. In a tree where no place lies too deep, no place is on a trail twice, by whatever
paths; but a file that lies too deep is entered again by every path that is not on the
trail. A text is refused for a cycle only at an include of a file that is on the
trail of the include; so the same files may be included one after the other. And
a file on the trail is always refused for a cycle, however long trails may be. -/
theorem cycle_guard (t : FileTree) (s : Settings) :
    (∀ source tokens q, Reaches t s (ofTokens t source tokens) q →
      ∀ x ∈ q.pending, IsTraced t s source (ofTokens t source tokens) q x) ∧
    (t.IsShallow → ∀ source tokens q, Reaches t s (ofTokens t source tokens) q →
      ∀ x ∈ q.pending, x.trail.files.Pairwise fun k l =>
        ∀ a b loc, (t.identity a).same k = true → (t.identity b).same l = true →
          t.locate a = .ok loc → t.locate b ≠ .ok loc) ∧
    (∀ (c : Trail) p loc maxDepth, FileTree.bytesTo t.workingDir < FileTree.maxPathBytes →
      t.locate p = .ok loc → FileTree.maxPathBytes ≤ FileTree.bytesTo loc →
      c.mentions p = false → c.depth < maxDepth → c.enter t p maxDepth = .ok (c.extend p)) ∧
    (∀ source tokens f, parseFrom t s source tokens = .error f → f.kind = .cycle →
      ∃ q c file, Reaches t s (ofTokens t source tokens) q ∧ step t s q = .failed f ∧
        Revisits t s q c file ∧ f.cause = .alreadyIncluded file c.describe (t.identity file)) ∧
    (∀ bytes f, parse t s bytes = .error f → f.kind = .cycle →
      parseFrom t s s.sourceName (tokenize s.sourceName bytes) = .error f) ∧
    (∀ p f, parseFile t s p = .error f → f.kind = .cycle →
      ∃ tokens, load t s.limits p = .ok tokens ∧ parseFrom t s p.text tokens = .error f) ∧
    (∀ q r r' c files again, Includes t s r c files → step t s r = .more r' →
      Includes t s q c again →
      (∀ file ∈ again, ∃ other ∈ files, t.identity file = t.identity other) →
      ∀ f, step t s q = .failed f → f.kind ≠ .cycle) ∧
    (∀ (c : Trail) p maxDepth, c.mentions (t.identity p) = true →
      ∃ f, c.enter t p maxDepth = .error f ∧ f.kind = .cycle) ∧
    ∀ p q c file, Reaches t s p q → Revisits t s q c file →
      ∃ f, run t s p = .error f ∧ f.kind = .cycle := by
  refine ⟨fun _ _ _ => isTraced_of_reaches, fun ht source tokens q hq x hx => ?_,
    fun c p loc maxDepth hdir hlocate hdeep hnew hdepth =>
      Trail.enter_of_deep hdir hlocate hdeep hnew hdepth,
    fun source tokens f h hkind => ?_,
    fun bytes f h hkind => ?_, fun p f h hkind => ?_,
    fun q r r' c files again hr hs hq hknown f => kind_ne_cycle_of_repeat hr hs hq hknown,
    fun c p maxDepth hm => ?_, fun p q c file hq h => ?_⟩
  · have hdistinct := (isTraced_of_reaches hq x hx).distinct
    refine hdistinct.imp ?_
    intro k l hkl a b loc hk hl ha
    exact hkl.2.locate_ne ht hk hl ha
  · rw [parseFrom_eq_run] at h
    split at h
    · cases h
      cases hkind
    · obtain ⟨q, hq, hs⟩ := run_eq_error_iff.mp h
      obtain ⟨c, file, hrevisits, hcause⟩ := revisits_of_cycle hs hkind
      exact ⟨q, c, file, hq, hs, hrevisits, hcause⟩
  · unfold parse at h
    split at h
    · cases h
      cases hkind
    · exact h
  · rcases bind_eq_error_iff.mp h with h | hread
    · rcases kind_of_load h with h | h <;> simp [h] at hkind
    · exact hread
  · exact ⟨_, Trail.enter_eq_error_iff.mpr (.inl ⟨hm, rfl⟩), rfl⟩
  · obtain ⟨f, hs, hkind⟩ := h.step_eq_failed
    exact ⟨f, run_eq_error_iff.mpr ⟨q, hq, hs⟩, hkind⟩

end Parser

end ConfTree
