import ConfTree.Proofs.Include.Readings
import ConfTree.Proofs.Parser.Census

/-!
# Directives come in the order of their texts

On a walk, directives are visited in the order in which their first words stand in the
expanded stream. The words that come from one reading of a file stand there in the order
of that file, and so do their lines, whatever was included between them.

1. `visits_append`, `visits_block`: what is visited of a tree.
2. `starters_append`: what starts statements in two streams, one behind the other.
   `Grammar.Cut.starters_eq`: visits and first words.
3. `Include.Reading.Orders.around`: the order around a directive.
   `parse_in_order`: the order of all directives of a text.
-/

namespace ConfTree

open Include
  (Numbered Reading Unfolds isFlat number ofReading starters startsBehind visitsOf)

/-! ## 1. Visits -/

namespace Directive

/-- What is visited does not depend on what stands around. -/
theorem visits_eq (c : Surroundings) (ds : List Directive) :
    (eventsAll c ds).filterMap Event.visited? = visits ds := by
  have hvisits : visits ds = (eventsAll {} ds).filterMap Event.visited? := by
    rw [visits, treeEvents, List.filterMap_append, List.filterMap_append]
    exact List.append_nil _
  rw [hvisits]
  have hsame := (visited_eventsAll ds c []).trans (visited_eventsAll ds {} []).symm
  exact (List.map_inj_right fun _ _ => Option.some.inj).mp hsame

theorem visits_cons (d : Directive) (ds : List Directive) :
    visits (d :: ds) = d :: (visits d.body ++ visits ds) := by
  rw [← visits_eq {}, eventsAll, List.filterMap_append, visits_eq]
  cases d with
  | simple head => rfl
  | block head body =>
    have hbody := visits_eq (Surroundings.inside {} (block head body).name) body
    have hstart : [Event.visit (block head body) {}, .beginBlock (block head body) {}].filterMap
        Event.visited? = [block head body] := rfl
    have hend : [Event.endBlock (block head body) {}].filterMap Event.visited? = [] := rfl
    rw [events, List.filterMap_append, List.filterMap_append, hbody, hstart, hend, List.append_nil]
    rfl

theorem visits_append (ds es : List Directive) : visits (ds ++ es) = visits ds ++ visits es := by
  induction ds with
  | nil => rfl
  | cons d ds ih => rw [List.cons_append, visits_cons, visits_cons, ih]; simp

theorem visits_block (head : Statement) (body : List Directive) :
    visits [block head body] = block head body :: visits body := by
  rw [visits_cons]
  exact congrArg _ (List.append_nil _)

end Directive

/-! ## 2. First words -/

namespace Include

variable {α : Type} {token : α → Token} {atStart : Bool}

theorem starters_append (front behind : List α) :
    starters token atStart (front ++ behind) =
      starters token atStart front ++
        starters token ((front.map token).foldl startsBehind atStart) behind := by
  induction front generalizing atStart with
  | nil => rfl
  | cons x front ih =>
    rw [List.cons_append, starters, starters, ih, List.map_cons, List.foldl_cons]
    split <;> rfl

theorem starters_sublist (xs : List α) : (starters token atStart xs).Sublist xs := by
  induction xs generalizing atStart with
  | nil => exact .slnil
  | cons x xs ih =>
    rw [starters]
    split
    · exact ih.cons_cons x
    · exact ih.cons x

/-- What starts a statement is told by the tokens alone. -/
theorem map_starters (xs : List α) :
    (starters token atStart xs).map token = starters id atStart (xs.map token) := by
  induction xs generalizing atStart with
  | nil => rfl
  | cons x xs ih =>
    have hid : id (token x) = token x := rfl
    rw [List.map_cons, starters, starters, ← ih, hid]
    split <;> rfl

/-- A mark starts no statement. -/
theorem starters_of_isMark {x : α} (h : (token x).isMark = true) (xs : List α) :
    starters token atStart (x :: xs) = starters token (startsBehind atStart (token x)) xs := by
  rw [starters, h]
  exact if_neg (by simp)

end Include

namespace Grammar

variable {ts args rest : List Token} {ds : List Directive} {first mark : Token}

/-- Plain words inside a statement start none and do not end it. -/
theorem starters_of_plain (hplain : ∀ a ∈ args, a.endsStatement = false ∧ a.opensBlock = false) :
    starters id false args = [] ∧ args.foldl startsBehind false = false := by
  induction args with
  | nil => exact ⟨rfl, rfl⟩
  | cons a args ih =>
    obtain ⟨⟨he, ho⟩, hrest⟩ := List.forall_mem_cons.mp hplain
    have hbehind : startsBehind false a = false := by simp [startsBehind, he, ho]
    simpa [starters, hbehind] using ih hrest

/-- Of the words of a statement only the first starts one. -/
theorem IsHead.starters_eq (h : IsHead first args) :
    starters id true (first :: args) = [first] ∧
      (first :: args).foldl startsBehind true = false := by
  obtain ⟨he, ho, hc⟩ := Token.isMark_eq_false_iff.mp h.first_isMark
  have hbehind : startsBehind true first = false := by simp [startsBehind, he, ho, hc]
  simpa [starters, hbehind, h.first_isMark] using starters_of_plain h.args_plain

/-- Behind a statement and its mark a statement starts. -/
theorem IsHead.starters_mark (h : IsHead first args)
    (hmark : mark.endsStatement = true ∨ mark.opensBlock = true) (rest : List Token) :
    starters id true (first :: args ++ mark :: rest) = first :: starters id true rest ∧
      (first :: args ++ mark :: rest).foldl startsBehind true = rest.foldl startsBehind true := by
  obtain ⟨hstart, hinside⟩ := h.starters_eq
  have hbehind : startsBehind false mark = true := by
    rcases hmark with h | h <;> simp [startsBehind, h]
  have hisMark : (id mark).isMark = true := by
    rcases hmark with h | h <;> simp [Token.isMark, h]
  constructor
  · rw [Include.starters_append, List.map_id, hstart, hinside, Include.starters_of_isMark hisMark,
      id_eq, hbehind]
    rfl
  · rw [List.foldl_append, hinside, List.foldl_cons, hbehind]

/-- The statements of a complete text start with the first words of its directives, in
the order in which these are visited. -/
theorem Items.starters_eq (h : Items ts ds) :
    starters id true ts = (Directive.visits ds).map Directive.opening ∧
      ts.foldl startsBehind true = true := by
  induction h with
  | nil => exact ⟨rfl, rfl⟩
  | @blank mark ts ds hmark _ ih =>
    have hbehind : startsBehind true mark = true := by simp [startsBehind, hmark]
    simpa [starters, Token.isMark, hmark, hbehind] using ih
  | @simple first mark args ts ds hhead hmark _ ih =>
    obtain ⟨hstart, hend⟩ := hhead.starters_mark (.inl hmark) ts
    rw [hstart, hend, ih.1, Directive.visits_cons]
    exact ⟨rfl, ih.2⟩
  | @block first opening closing args inner ts body ds hhead ho _ hc _ ihInner ih =>
    have hleave : startsBehind true closing = true := by simp [startsBehind, hc]
    have hmark : (id closing).isMark = true := by simp [Token.isMark, hc]
    obtain ⟨hstart, hend⟩ := hhead.starters_mark (.inr ho) (inner ++ closing :: ts)
    have hshape : first :: args ++ opening :: inner ++ closing :: ts =
        first :: args ++ opening :: (inner ++ closing :: ts) := by simp
    rw [hshape, hstart, hend, Include.starters_append, List.map_id, List.foldl_append, ihInner.1,
      ihInner.2, Include.starters_of_isMark hmark, List.foldl_cons, id_eq, hleave, ih.1, ih.2,
      Directive.visits_cons, ← List.map_append]
    exact ⟨rfl, rfl⟩

/-- So do those of a text that breaks off. -/
theorem Cut.starters_eq (h : Cut ts ds) :
    starters id true ts = (Directive.visits ds).map Directive.opening := by
  induction h with
  | items h => exact h.starters_eq.1
  | simple h hhead =>
    obtain ⟨hstart, hend⟩ := h.starters_eq
    rw [Include.starters_append, List.map_id, hend, hstart, hhead.starters_eq.1,
      Directive.visits_append, List.map_append]
    rfl
  | @block first opening args inner ts body ds h hhead ho _ ih =>
    obtain ⟨hstart, hend⟩ := h.starters_eq
    rw [List.append_assoc, Include.starters_append, List.map_id, hend, hstart,
      (hhead.starters_mark (.inr ho) inner).1, ih, Directive.visits_append, Directive.visits_block,
      List.map_append]
    rfl

end Grammar

/-! ## 3. Texts -/

/-- In order, what stands in front of a directive, with all that is in its blocks, comes no
later than the directive, and what is in its own block no earlier. -/
theorem Include.Reading.Orders.around {r : Reading} {front behind : List Directive}
    {d : Directive} (h : r.Orders (Directive.visits (front ++ d :: behind))) :
    (∀ e ∈ Directive.visits front, e.line ≤ d.line) ∧
      (∀ e ∈ Directive.visits d.body, d.line ≤ e.line) ∧
      r.Orders (Directive.visits front) ∧ r.Orders (Directive.visits d.body) := by
  have hvisits : Directive.visits (front ++ d :: behind) =
      Directive.visits front ++ d :: (Directive.visits d.body ++ Directive.visits behind) := by
    rw [Directive.visits_append, Directive.visits_cons]
  have hpart {ds : List Directive}
      (hds : ds.Sublist (Directive.visits (front ++ d :: behind))) : r.Orders ds :=
    ⟨h.sorted.sublist hds, fun e he => h.file_eq e (hds.subset he),
      fun e he => h.line_pos e (hds.subset he), fun e he => h.line_le e (hds.subset he)⟩
  have hsorted := h.sorted
  rw [hvisits] at hpart hsorted
  obtain ⟨-, hinside, hacross⟩ := List.pairwise_append.mp hsorted
  refine ⟨fun e he => hacross e he d List.mem_cons_self, fun e he => ?_,
    hpart (List.sublist_append_left ..), hpart ?_⟩
  · exact (List.pairwise_cons.mp hinside).1 e (List.mem_append_left _ he)
  · exact ((List.sublist_append_left ..).trans (List.sublist_cons_self ..)).trans
      (List.sublist_append_right ..)

section Texts

open Directive (visits opening)

variable {t : FileTree} {s : Settings} {bytes : List UInt8} {flat : List Numbered}
  {ds : List Directive}

/-- Of directives that start with the tokens of a stream, those that come from one reading
start with tokens of this reading. -/
theorem map_opening_visitsOf (n : Nat)
    (h : (visits ds).map opening = (starters Numbered.token true flat).map Numbered.token) :
    (visitsOf n flat ds).map opening =
      (ofReading n (starters Numbered.token true flat)).map Numbered.token := by
  unfold visitsOf ofReading
  generalize visits ds = visited at h ⊢
  generalize starters Numbered.token true flat = starting at h ⊢
  induction visited generalizing starting with
  | nil => simp_all
  | cons d visited ih =>
    obtain ⟨x, rest, rfl, hx, hrest⟩ := List.map_eq_cons_iff.mp h.symm
    rw [List.zip_cons_cons, List.filter_cons, List.filter_cons]
    split
    · rw [List.map_cons, List.map_cons, List.map_cons, ih rest hrest.symm, hx]
    · exact ih rest hrest.symm

/-- All tokens of a text come from the text. -/
theorem ofReading_number_singleton (r : Reading) :
    ofReading 0 (number 0 [r]) = number 0 [r] := by
  refine List.filter_eq_self.mpr fun x hx => ?_
  have hlt := (Include.reading_of_mem_number hx).2
  rw [beq_iff_eq]
  exact Nat.lt_one_iff.mp hlt

/-- What an expanded text with directives that start with its tokens says about each of
its readings. -/
theorem Include.KeepsOrder.orders {source r : Reading} {later : List Reading} {n : Nat}
    (hkeeps : KeepsOrder t [source] later (number 0 [source]) flat)
    (hopenings : (visits ds).map opening =
      (starters Numbered.token true flat).map Numbered.token)
    (hr : (source :: later)[n]? = some r) : r.Orders (visitsOf n flat ds) := by
  refine Reading.orders_of_sublist ?_
  rw [map_opening_visitsOf n hopenings]
  have hpart : ((ofReading n (starters Numbered.token true flat)).map Numbered.token).Sublist
      ((ofReading n flat).map Numbered.token) :=
    ((Include.starters_sublist flat).filter _).map _
  refine hpart.trans ?_
  cases n with
  | zero =>
    cases hr
    have hold := (hkeeps.old 0 Nat.one_pos).map Numbered.token
    rwa [ofReading_number_singleton, map_token_number, List.flatMap_singleton] at hold
  | succ n =>
    rw [Nat.add_comm]
    exact hkeeps.new n r hr

/-- The text of a stream without includes stays as it is. -/
theorem Include.expand_of_isFlat {source : String} {tokens : List Token} {expanded : List Tracked}
    (hflat : isFlat true tokens = true)
    (h : Include.expand t s (Parser.ofTokens t source tokens).pending = some expanded) :
    expanded.map Tracked.token = tokens := by
  have hpending : (Parser.ofTokens t source tokens).pending.map Tracked.token = tokens := by
    simp [Parser.ofTokens, Function.comp_def]
  have honto := expandOnto_of_expand h
  rw [← List.append_nil (Parser.pending _), expandOnto_of_isFlat (by rwa [hpending]),
    expandOnto_nil] at honto
  rw [← Option.some.inj honto]
  simp

/-- The directives of a text come in the order of the text. When no include is expanded,
all of them have lines of the text, go by its name, and on a walk are visited in the order
of their lines. With includes, each directive starts with a token of the expanded stream,
which comes from one reading of the text or of a file that is included; and those that
come from one reading have lines of this file, go by its name and are visited in the order
of their lines. -/
theorem parse_in_order (h : parse t s bytes = .ok ds) :
    (isFlat true (tokenize s.sourceName bytes) = true →
      Reading.Orders ⟨s.sourceName, bytes⟩ (visits ds)) ∧
    ∃ included flat expanded,
      Unfolds t s [⟨s.sourceName, bytes⟩] true (number 0 [⟨s.sourceName, bytes⟩])
        (⟨s.sourceName, bytes⟩ :: included) flat ∧
      Include.expand t s
          (Parser.ofTokens t s.sourceName (tokenize s.sourceName bytes)).pending =
        some expanded ∧
      expanded.map Tracked.token = flat.map Numbered.token ∧
      (∀ r ∈ included, ∃ p, Reading.ofFile? t p = some r) ∧
      (∀ x ∈ flat, x.reading < included.length + 1) ∧
      (visits ds).map opening = (starters Numbered.token true flat).map Numbered.token ∧
      ∀ (n : Nat) (r : Reading), (⟨s.sourceName, bytes⟩ :: included)[n]? = some r →
        r.Orders (visitsOf n flat ds) := by
  let source : Reading := ⟨s.sourceName, bytes⟩
  have hread : parseTokens t s source.tokens = .ok ds := parseFrom_of_parse h
  obtain ⟨expanded, hexpand, hcut⟩ := cut_of_parseTokens hread
  refine ⟨fun hflat => ?_, ?_⟩
  · refine Reading.orders_of_sublist (r := source) ?_
    rw [← hcut.starters_eq, Include.expand_of_isFlat hflat hexpand]
    exact Include.starters_sublist _
  · have hsame : (number 0 [source]).map Numbered.token =
        (Parser.ofTokens t s.sourceName source.tokens).pending.map Tracked.token := by
      rw [Include.map_token_number]
      simp [Parser.ofTokens, Function.comp_def]
    obtain ⟨all, flat, hunfolds, hflat⟩ :=
      Include.exists_unfolds (Include.expandOnto_of_expand hexpand) hsame [source]
    obtain ⟨included, rfl, hkeeps⟩ :=
      hunfolds.keepsOrder fun x hx => (Include.reading_of_mem_number hx).2
    have hopenings : (visits ds).map opening =
        (starters Numbered.token true flat).map Numbered.token := by
      rw [Include.map_starters, ← hcut.starters_eq, hflat]
      rfl
    refine ⟨included, flat, expanded, hunfolds, hexpand, hflat, hkeeps.files,
      fun x hx => ?_, hopenings, fun n r hr => hkeeps.orders hopenings hr⟩
    have hlt := hkeeps.made_lt x hx
    rwa [List.length_append, Nat.add_comm] at hlt

/-- The bytes of `include o y`. -/
def openBytes : List UInt8 := [0x69, 0x6e, 0x63, 0x6c, 0x75, 0x64, 0x65, 0x20, 0x6f, 0x20, 0x79]

open IsParsed (openFile openText openTree parseTokens_openText) in
/-- The two directives of `include o y`, one of which comes from the file `/o`, and those of
the text `y`, which includes nothing. -/
theorem parse_in_order_openBytes :
    parse openFile rootSettings openBytes = .ok openTree ∧
      (∃ included flat,
        Unfolds openFile rootSettings [⟨"top", openBytes⟩] true (number 0 [⟨"top", openBytes⟩])
          (⟨"top", openBytes⟩ :: included) flat ∧
        (∀ r ∈ included, ∃ p, Reading.ofFile? openFile p = some r) ∧
        (visits openTree).map opening = (starters Numbered.token true flat).map Numbered.token ∧
        ∀ (n : Nat) (r : Reading), (⟨"top", openBytes⟩ :: included)[n]? = some r →
          r.Orders (visitsOf n flat openTree)) ∧
      parse openFile rootSettings [0x79] = .ok [.simple (oneWord "top" "y")] ∧
      Reading.Orders ⟨"top", [0x79]⟩ (visits [.simple (oneWord "top" "y")]) := by
  have htokens : tokenize "top" openBytes = openText := by cbv
  have hparse : parse openFile rootSettings openBytes = .ok openTree := by
    have hsize : ¬ rootSettings.limits.fileSize < openBytes.length := by decide
    rw [parse, if_neg hsize]
    exact htokens ▸ parseTokens_openText
  have hplain : parse openFile rootSettings [0x79] = .ok [.simple (oneWord "top" "y")] := by cbv
  obtain ⟨included, flat, -, hunfolds, -, -, hfiles, -, hopenings, horders⟩ :=
    (parse_in_order hparse).2
  exact ⟨hparse, ⟨included, flat, hunfolds, hfiles, hopenings, horders⟩, hplain,
    (parse_in_order hplain).1 (by cbv)⟩

end Texts

end ConfTree
