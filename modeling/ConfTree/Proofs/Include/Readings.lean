import ConfTree.Include.Reading
import ConfTree.Proofs.Include.Limits
import ConfTree.Proofs.Include.Parts
import ConfTree.Proofs.Lexer.Lines

/-!
# Tokens keep the order of their readings

However files are included one in the other, the tokens of an expanded stream that come
from one reading stand in the order in which they were read.

1. `exists_unfolds`: whatever can be expanded can be expanded with numbers.
2. `KeepsOrder`, `Unfolds.keepsOrder`: the tokens of a reading that are left stand in the
   order of the reading.
3. `Reading.orders_of_sublist`: directives that start with tokens of a reading, in this
   order, are in order.
-/

namespace ConfTree.Include

variable {t : FileTree} {s : Settings} {made new all : List Reading} {atStart : Bool}
  {pending flat : List Numbered}

/-! ## 1. Numbers -/

theorem ofFile?_of_load {limits : Limits} {p : Path} {tokens : List Token}
    (h : load t limits p = .ok tokens) :
    ∃ r, Reading.ofFile? t p = some r ∧ r.tokens = tokens := by
  obtain ⟨content, executable, hstat, hread⟩ := readTokens_of_load h
  obtain ⟨-, -, htokens⟩ := readTokens_eq_ok_iff.mp hread
  refine ⟨⟨p.text, content.bytes⟩, ?_, htokens.symm⟩
  rw [Reading.ofFile?, hstat]

theorem map_token_number (first : Nat) (rs : List Reading) :
    (number first rs).map Numbered.token = rs.flatMap Reading.tokens := by
  induction rs generalizing first with
  | nil => rfl
  | cons r rs ih =>
    rw [number, List.map_append, ih, List.flatMap_cons, List.map_map]
    exact congrArg (· ++ _) (List.map_id _)

/-- The files of an include are read one after the other. -/
theorem readings_of_importFiles {limits : Limits} {c : Trail} {files : List Path}
    {imported : List Tracked} (h : importFiles t limits c files = .ok imported) :
    ∃ new, files.mapM (Reading.ofFile? t) = some new ∧
      imported.map Tracked.token = new.flatMap Reading.tokens := by
  induction files generalizing imported with
  | nil =>
    cases h
    exact ⟨[], rfl, rfl⟩
  | cons p files ih =>
    obtain ⟨these, hp, h⟩ := bind_eq_ok_iff.mp h
    obtain ⟨those, hfiles, h⟩ := bind_eq_ok_iff.mp h
    cases h
    obtain ⟨r, hr, htokens⟩ := ofFile?_of_load (load_of_importFile hp)
    obtain ⟨new, hnew, hthose⟩ := ih hfiles
    refine ⟨r :: new, ?_, ?_⟩
    · rw [List.mapM_cons, hr, hnew]
      rfl
    · rw [List.map_append, List.flatMap_cons, htokens, hthose]

theorem expandOnto_of_expand {tracked expanded : List Tracked}
    (h : expand t s tracked = some expanded) : expandOnto t s [] true tracked = some expanded := by
  unfold expand at h
  split at h
  · cases h
  · exact h

/-- Whatever can be expanded can be expanded with numbers. -/
theorem exists_unfolds {read tracked expanded : List Tracked}
    (h : expandOnto t s read atStart tracked = some expanded)
    (hsame : pending.map Numbered.token = tracked.map Tracked.token) (made : List Reading) :
    ∃ all flat, Unfolds t s made atStart pending all flat ∧
      expanded.map Tracked.token = (read.map Tracked.token).reverse ++ flat.map Numbered.token := by
  fun_induction expandOnto t s read atStart tracked generalizing pending made with
  | case1 read =>
    cases h
    rw [List.map_nil, List.map_eq_nil_iff] at hsame
    subst hsame
    exact ⟨made, [], .nil, by simp⟩
  | case2 => cases h
  | case3 => cases h
  | case4 read atStart first rest hinc new behind hreplace _ ih =>
    obtain ⟨argument, rfl, hmark, hnew⟩ := replacement?_eq_some_iff.mp hreplace
    obtain ⟨rfl, hinc⟩ := Bool.and_eq_true_iff.mp hinc
    obtain ⟨first', pending, rfl, hfirst, hsame⟩ := List.map_eq_cons_iff.mp hsame
    obtain ⟨argument', rest', rfl, hargument, hbehind⟩ := List.map_eq_cons_iff.mp hsame
    obtain ⟨files, hfiles, -⟩ := bind_eq_ok_iff.mp hnew
    obtain ⟨readings, hreadings, htokens⟩ :=
      readings_of_importFiles (importFiles_of_importTokens hfiles hnew)
    have hspliced : (number made.length readings ++ rest').map Numbered.token =
        (new ++ behind).map Tracked.token := by
      rw [List.map_append, List.map_append, map_token_number, htokens, hbehind]
    obtain ⟨all, flat, hunfolds, hflat⟩ := ih h hspliced (made ++ readings)
    exact ⟨all, flat, .splice (hfirst ▸ hinc) (hargument ▸ hmark) (hargument ▸ hfiles) hreadings
      hunfolds, hflat⟩
  | case5 read atStart first rest hinc ih =>
    obtain ⟨first', rest', rfl, hfirst, hrest⟩ := List.map_eq_cons_iff.mp hsame
    have hother : (atStart && first'.token.isInclude) = false := by
      rw [hfirst]
      simpa using hinc
    obtain ⟨all, flat, hunfolds, hflat⟩ := ih h hrest made
    refine ⟨all, first' :: flat, .pass hother (hfirst ▸ hunfolds), ?_⟩
    rw [hflat, List.map_cons, List.map_cons, hfirst]
    simp

/-! ## 2. Order -/

/-- The tokens that come from the reading with the number `n`. -/
def ofReading (n : Nat) (xs : List Numbered) : List Numbered :=
  xs.filter fun x => x.reading == n

theorem ofReading_append (n : Nat) (xs ys : List Numbered) :
    ofReading n (xs ++ ys) = ofReading n xs ++ ofReading n ys :=
  List.filter_append ..

theorem reading_of_mem_number {first : Nat} {rs : List Reading} {x : Numbered}
    (h : x ∈ number first rs) : first ≤ x.reading ∧ x.reading < first + rs.length := by
  induction rs generalizing first with
  | nil => cases h
  | cons r rs ih =>
    rw [number, List.mem_append] at h
    rw [List.length_cons]
    rcases h with h | h
    · obtain ⟨token, -, rfl⟩ := List.mem_map.mp h
      exact ⟨Nat.le_refl _, by dsimp only; omega⟩
    · have hrest := ih h
      omega

theorem ofReading_eq_nil {n : Nat} {xs : List Numbered} (h : ∀ x ∈ xs, x.reading ≠ n) :
    ofReading n xs = [] :=
  List.filter_eq_nil_iff.mpr fun x hx => by simpa using h x hx

/-- The tokens of each of several readings. -/
theorem map_token_ofReading_number {first n : Nat} {rs : List Reading} {r : Reading}
    (h : rs[n]? = some r) :
    (ofReading (first + n) (number first rs)).map Numbered.token = r.tokens := by
  induction rs generalizing first n with
  | nil => simp at h
  | cons other rs ih =>
    rw [number, ofReading_append, List.map_append]
    cases n with
    | zero =>
      cases h
      have hrest : ofReading (first + 0) (number (first + 1) rs) = [] :=
        ofReading_eq_nil fun x hx => by have := reading_of_mem_number hx; omega
      rw [hrest, List.map_nil, List.append_nil, ofReading, List.filter_eq_self.mpr, List.map_map]
      · exact List.map_id _
      · intro x hx
        obtain ⟨token, -, rfl⟩ := List.mem_map.mp hx
        simp
    | succ n =>
      have hfirst : ofReading (first + (n + 1))
          (other.tokens.map fun token => { token, reading := first }) = [] := by
        refine ofReading_eq_nil fun x hx => ?_
        obtain ⟨token, -, rfl⟩ := List.mem_map.mp hx
        dsimp only
        omega
      rw [hfirst, List.map_nil, List.nil_append, Nat.add_comm n 1, ← Nat.add_assoc]
      exact ih h

theorem exists_ofFile?_of_mapM {files : List Path} {r : Reading}
    (h : files.mapM (Reading.ofFile? t) = some new) (hr : r ∈ new) :
    ∃ p ∈ files, Reading.ofFile? t p = some r := by
  induction files generalizing new with
  | nil =>
    cases h
    cases hr
  | cons p files ih =>
    rw [List.mapM_cons] at h
    obtain ⟨first, hfirst, h⟩ := Option.bind_eq_some_iff.mp h
    obtain ⟨others, hothers, h⟩ := Option.bind_eq_some_iff.mp h
    cases h
    rcases List.mem_cons.mp hr with rfl | hr
    · exact ⟨p, List.mem_cons_self, hfirst⟩
    · obtain ⟨q, hq, hread⟩ := ih hothers hr
      exact ⟨q, List.mem_cons_of_mem _ hq, hread⟩

/-- What is true of the readings that a stream is expanded with, when the readings `made`
have been made and `pending` is expanded to `flat`.

* `files`: all later ones are readings of files.
* `made_lt`: every token that is left comes from one of the readings.
* `old`: of a reading that has been made, some of the tokens that were pending are left.
* `new`: of a later one, some of its tokens. -/
structure KeepsOrder (t : FileTree) (made later : List Reading) (pending flat : List Numbered) :
    Prop where
  files : ∀ r ∈ later, ∃ p, Reading.ofFile? t p = some r
  made_lt : ∀ x ∈ flat, x.reading < (made ++ later).length
  old : ∀ n < made.length, (ofReading n flat).Sublist (ofReading n pending)
  new : ∀ n r, later[n]? = some r →
    ((ofReading (made.length + n) flat).map Numbered.token).Sublist r.tokens

namespace KeepsOrder

variable {later rest : List Reading} {first argument : Numbered} {behind : List Numbered}

/-- A token that stays keeps its place. -/
theorem pass (h : KeepsOrder t made later behind flat) (hfirst : first.reading < made.length) :
    KeepsOrder t made later (first :: behind) (first :: flat) where
  files := h.files
  made_lt := by
    refine List.forall_mem_cons.mpr ⟨?_, h.made_lt⟩
    rw [List.length_append]
    exact Nat.lt_add_right _ hfirst
  old n hn := by
    have hbehind := h.old n hn
    unfold ofReading at hbehind ⊢
    rw [List.filter_cons, List.filter_cons]
    split
    · exact hbehind.cons_cons first
    · exact hbehind
  new n r hr := by
    have hfront :
        ofReading (made.length + n) (first :: flat) = ofReading (made.length + n) flat := by
      refine List.filter_cons_of_neg ?_
      rw [beq_iff_eq]
      omega
    rw [hfront]
    exact h.new n r hr

/-- The tokens of files that are read take the place of an include. -/
theorem splice (h : KeepsOrder t (made ++ new) later (number made.length new ++ behind) flat)
    (hfiles : ∀ r ∈ new, ∃ p, Reading.ofFile? t p = some r)
    (hmade : ∀ x ∈ behind, x.reading < made.length) :
    KeepsOrder t made (new ++ later) (first :: argument :: behind) flat where
  files := List.forall_mem_append.mpr ⟨hfiles, h.files⟩
  made_lt := by
    rw [← List.append_assoc]
    exact h.made_lt
  old n hn := by
    have hold := h.old n (by rw [List.length_append]; omega)
    have hnone : ofReading n (number made.length new) = [] :=
      ofReading_eq_nil fun x hx => by have := reading_of_mem_number hx; omega
    rw [ofReading_append, hnone, List.nil_append] at hold
    exact hold.trans ((List.sublist_append_right [first, argument] behind).filter _)
  new n r hr := by
    rw [List.getElem?_append] at hr
    split at hr
    · next hlt =>
      have hold := h.old (made.length + n) (by rw [List.length_append]; omega)
      have hnone : ofReading (made.length + n) behind = [] :=
        ofReading_eq_nil fun x hx => by have := hmade x hx; omega
      rw [ofReading_append, hnone, List.append_nil] at hold
      rw [← map_token_ofReading_number hr]
      exact hold.map _
    · next hge =>
      have hnew := h.new (n - new.length) r hr
      have hn : (made ++ new).length + (n - new.length) = made.length + n := by
        rw [List.length_append]
        omega
      rwa [hn] at hnew

end KeepsOrder

/-- What a stream is expanded to keeps the order of the readings. -/
theorem Unfolds.keepsOrder (h : Unfolds t s made atStart pending all flat)
    (hmade : ∀ x ∈ pending, x.reading < made.length) :
    ∃ later, all = made ++ later ∧ KeepsOrder t made later pending flat := by
  induction h with
  | nil => exact ⟨[], by simp, by simp, by simp, fun _ _ => .refl _, by simp⟩
  | pass _ _ ih =>
    obtain ⟨hfirst, hrest⟩ := List.forall_mem_cons.mp hmade
    obtain ⟨later, hall, hkeeps⟩ := ih hrest
    exact ⟨later, hall, hkeeps.pass hfirst⟩
  | @splice made new all first argument rest flat files _ _ _ hnew _ ih =>
    have hrest : ∀ x ∈ rest, x.reading < made.length :=
      (List.forall_mem_cons.mp (List.forall_mem_cons.mp hmade).2).2
    have hspliced : ∀ x ∈ number made.length new ++ rest, x.reading < (made ++ new).length := by
      rw [List.length_append]
      refine List.forall_mem_append.mpr ⟨fun x hx => (reading_of_mem_number hx).2, fun x hx => ?_⟩
      exact Nat.lt_add_right _ (hrest x hx)
    obtain ⟨later, rfl, hkeeps⟩ := ih hspliced
    refine ⟨new ++ later, List.append_assoc .., hkeeps.splice (fun r hr => ?_) hrest⟩
    obtain ⟨p, -, hp⟩ := exists_ofFile?_of_mapM hnew hr
    exact ⟨p, hp⟩

/-! ## 3. Lines -/

/-- Tokens carry lines of their text. -/
theorem line_of_mem_tokenize {file : String} {bytes : List UInt8} {token : Token}
    (h : token ∈ tokenize file bytes) : 1 ≤ token.line ∧ token.line ≤ 1 + bytes.count 0x0A := by
  obtain ⟨before, after, htokens⟩ := List.append_of_mem h
  obtain ⟨front, c, behind, htext, -, -, -, hline⟩ := exists_opens htokens
  have hcount : front.count '\n' ≤ bytes.count 0x0A := by
    rw [← Utf8.count_decode, htext, List.count_append]
    exact Nat.le_add_right _ _
  omega

/-- Directives that start with tokens of a reading, in their order, are in order. -/
theorem Reading.orders_of_sublist {r : Reading} {ds : List Directive}
    (h : (ds.map Directive.opening).Sublist r.tokens) : r.Orders ds := by
  have hmem : ∀ d ∈ ds, d.opening ∈ r.tokens := fun d hd => h.subset (List.mem_map_of_mem hd)
  refine ⟨?_, fun d hd => ?_, fun d hd => ?_, fun d hd => ?_⟩
  · have hsorted : r.tokens.Pairwise fun first second => first.line ≤ second.line :=
      (Lexer.tokens_sorted _).2
    have hpairs := List.pairwise_map.mp (hsorted.sublist h)
    exact hpairs
  · exact file_of_mem_tokenize (hmem d hd)
  · exact (line_of_mem_tokenize (hmem d hd)).1
  · exact (line_of_mem_tokenize (hmem d hd)).2

end ConfTree.Include
