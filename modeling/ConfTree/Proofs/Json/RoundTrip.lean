import ConfTree.Json
import ConfTree.Proofs.Directive.Normal

/-!
# Trees as values and back

A value speaks of a directive by its parts, whatever else it holds: the fields of an
object that go by certain keys, or the items of a list in the same places. What these
parts say is all that counts when the value is read, and all that is left of it when the
directive is written again.

1. `part?`, `directive?_eq`: a value is read part by part.
2. `Describes`, `directive?_eq_some_iff`: a value is read as the directive that it
   describes, and as no other.
3. `describes_ofDirective_iff`, `ofDirective_inj`: what is written describes what it is
   written from, as long as its lines fit.
4. `Agree`, `Describes.agree_iff`: values say the same if they describe one directive.
   `json_round_trip`: trees and values, back and forth.
-/

namespace ConfTree.Json

open Directive (Everywhere EverywhereAll)

variable {v w : Json} {items vs ws : List Json} {head : Statement} {d : Directive}

/-! ## 1. Parts -/

/-- The parts of a directive, in the order in which a list has them. -/
def directiveKeys : List String := ["params", "block", "file", "line"]

/-- The part of the value that goes by the key. A list must have all parts and no more. -/
def part? (key : String) : Json → Option Json
  | object fields => field? fields key
  | array items =>
    if items.length = directiveKeys.length then field? (directiveKeys.zip items) key else none
  | _ => none

/-- The statement that the parts of the value are read as. -/
def head? (v : Json) : Option Statement := do
  statementOfParts? (← v.part? "params") (← v.part? "file") (← v.part? "line")

/-- The block that the parts of the value are read as. -/
def body? (v : Json) : Option (Option (List Directive)) :=
  match v.part? "block" with
  | none => some none
  | some value => block? value

theorem blockField?_eq (fields : List (String × Json)) :
    blockField? fields =
      match field? fields "block" with
      | none => some none
      | some value => block? value := by
  induction fields with
  | nil => rw [blockField?, field?, List.lookup_nil]
  | cons field fields ih =>
    obtain ⟨key, value⟩ := field
    rw [blockField?, field?, List.lookup_cons]
    by_cases hkey : key = "block"
    · subst hkey
      simp
    · have hne : ("block" == key) = false := by
        rw [beq_eq_false_iff_ne]
        exact Ne.symm hkey
      rw [if_neg hkey, hne, ih, field?]

/-- A value is read part by part, and only its parts are read. -/
theorem directive?_eq (v : Json) :
    directive? v = v.head?.bind fun head => v.body?.bind fun body => some (.ofBody? head body) := by
  cases v with
  | object fields =>
    simp [directive?, head?, body?, part?, blockField?_eq, Option.bind_assoc]
  | array items =>
    match items with
    | [params, block, file, line] =>
      simp [directive?, head?, body?, part?, directiveKeys, field?, List.lookup_cons]
    | [] | [_] | [_, _] | [_, _, _] | _ :: _ :: _ :: _ :: _ :: _ =>
      simp [directive?, head?, part?, directiveKeys]
  | null | bool _ | integer _ | decimal _ | string _ => simp [directive?, head?, part?]

/-! ## 2. What is read -/

/-- The parts of the value are those of the statement, whose line can be read. -/
structure HasHead (v : Json) (head : Statement) : Prop where
  params_eq : v.part? "params" = some (ofTexts head.params)
  file_eq : v.part? "file" = some (string head.file)
  line_eq : v.part? "line" = some (integer head.line)
  line_le : head.line ≤ maxLine

/-- The value has no block: it says so, or it says nothing. -/
def HasNoBlock (v : Json) : Prop := v.part? "block" = none ∨ v.part? "block" = some null

mutual

/-- `Describes v d`: the value `v` has the parts of the directive `d`.

* `simple`: those of its statement, and no block.
* `block`: those of its statement, and a block that holds values for the directives of
  its block, in the same order. -/
inductive Describes : Json → Directive → Prop
  | simple {v : Json} {head : Statement} : v.HasHead head → v.HasNoBlock →
      Describes v (.simple head)
  | block {v : Json} {head : Statement} {items : List Json} {body : List Directive} :
      v.HasHead head → v.part? "block" = some (array items) → DescribesAll items body →
      Describes v (.block head body)

/-- Each of the values describes the directive in its place. -/
inductive DescribesAll : List Json → List Directive → Prop
  | nil : DescribesAll [] []
  | cons {v : Json} {vs : List Json} {d : Directive} {ds : List Directive} :
      Describes v d → DescribesAll vs ds → DescribesAll (v :: vs) (d :: ds)

end

theorem text?_eq_some_iff {text : String} : v.text? = some text ↔ v = string text := by
  cases v <;> simp [text?]

theorem line?_eq_some_iff {line : Nat} :
    v.line? = some line ↔ v = integer line ∧ line ≤ maxLine := by
  unfold line?
  split
  · next n =>
    have hn : Json.integer (Int.ofNat n) = integer line ↔ n = line := by
      rw [Json.integer.injEq]
      exact Int.natCast_inj
    rw [Option.ite_none_right_eq_some, Option.some.injEq, hn, and_comm]
    exact and_congr_right fun h => by rw [h]
  · next hno =>
    refine ⟨fun h => (nomatch h), fun h => ?_⟩
    exact absurd h.1 (hno line)

theorem mapM_text?_eq_some_iff {texts : List String} :
    items.mapM text? = some texts ↔ items = texts.map string := by
  induction items generalizing texts with
  | nil => cases texts <;> simp
  | cons item items ih =>
    cases texts <;> simp [List.mapM_cons, Option.bind_eq_some_iff, text?_eq_some_iff, ih]

theorem texts?_eq_some_iff {texts : List String} :
    v.texts? = some texts ↔ v = ofTexts texts := by
  cases v <;> simp [texts?, ofTexts, mapM_text?_eq_some_iff]

theorem head?_eq_some_iff : v.head? = some head ↔ v.HasHead head := by
  obtain ⟨params, file, line⟩ := head
  constructor
  · intro h
    simp only [head?, statementOfParts?, Option.bind_eq_bind, Option.bind_eq_some_iff,
      text?_eq_some_iff, texts?_eq_some_iff, line?_eq_some_iff] at h
    obtain ⟨_, hparams, _, hfile, _, hline, _, rfl, _, rfl, _, ⟨rfl, hle⟩, h⟩ := h
    cases h
    exact ⟨hparams, hfile, hline, hle⟩
  · rintro ⟨hparams, hfile, hline, hle⟩
    simp only [head?, hparams, hfile, hline, statementOfParts?, Option.bind_eq_bind,
      Option.bind_some, texts?_eq_some_iff.mpr rfl, text?_eq_some_iff.mpr rfl,
      line?_eq_some_iff.mpr ⟨rfl, hle⟩]
    rfl

theorem body?_eq_none_iff : v.body? = some none ↔ v.HasNoBlock := by
  unfold body? HasNoBlock
  cases hpart : v.part? "block" with
  | none => simp
  | some value => cases value <;> simp [block?]

theorem body?_eq_some_iff {body : List Directive} :
    v.body? = some (some body) ↔
      ∃ items, v.part? "block" = some (array items) ∧ directives? items = some body := by
  unfold body?
  cases hpart : v.part? "block" with
  | none => simp
  | some value => cases value <;> simp [block?]

theorem directive?_eq_simple_iff :
    directive? v = some (.simple head) ↔ v.HasHead head ∧ v.HasNoBlock := by
  rw [directive?_eq, Option.bind_eq_some_iff, ← body?_eq_none_iff, ← head?_eq_some_iff]
  constructor
  · rintro ⟨other, hhead, h⟩
    obtain ⟨body, hbody, h⟩ := Option.bind_eq_some_iff.mp h
    cases body with
    | none =>
      cases h
      exact ⟨hhead, hbody⟩
    | some body => cases h
  · rintro ⟨hhead, hbody⟩
    exact ⟨head, hhead, by rw [hbody]; rfl⟩

theorem directive?_eq_block_iff {body : List Directive} :
    directive? v = some (.block head body) ↔
      v.HasHead head ∧ ∃ items, v.part? "block" = some (array items) ∧
        directives? items = some body := by
  rw [directive?_eq, Option.bind_eq_some_iff, ← body?_eq_some_iff, ← head?_eq_some_iff]
  constructor
  · rintro ⟨other, hhead, h⟩
    obtain ⟨inner, hinner, h⟩ := Option.bind_eq_some_iff.mp h
    cases inner with
    | none => cases h
    | some inner =>
      cases h
      exact ⟨hhead, hinner⟩
  · rintro ⟨hhead, hbody⟩
    exact ⟨head, hhead, by rw [hbody]; rfl⟩

mutual

/-- A value is read as the directive that it describes. -/
theorem directive?_eq_some_iff (d : Directive) (v : Json) :
    directive? v = some d ↔ Describes v d := by
  cases d with
  | simple head =>
    rw [directive?_eq_simple_iff]
    constructor
    · rintro ⟨hhead, hblock⟩
      exact .simple hhead hblock
    · rintro (⟨hhead, hblock⟩ | _)
      exact ⟨hhead, hblock⟩
  | block head body =>
    rw [directive?_eq_block_iff]
    constructor
    · rintro ⟨hhead, items, hblock, hitems⟩
      exact .block hhead hblock ((directives?_eq_some_iff body items).mp hitems)
    · intro h
      cases h with
      | @block _ _ items _ hhead hblock hitems =>
        exact ⟨hhead, items, hblock, (directives?_eq_some_iff body items).mpr hitems⟩

theorem directives?_eq_some_iff (ds : List Directive) (items : List Json) :
    directives? items = some ds ↔ DescribesAll items ds := by
  cases ds with
  | nil =>
    cases items with
    | nil => exact ⟨fun _ => .nil, fun _ => by rw [directives?]⟩
    | cons v vs =>
      refine ⟨fun h => ?_, fun h => by cases h⟩
      simp [directives?, Option.bind_eq_some_iff] at h
  | cons d ds =>
    cases items with
    | nil =>
      refine ⟨fun h => ?_, fun h => by cases h⟩
      simp [directives?] at h
    | cons v vs =>
      have hcons : directives? (v :: vs) = some (d :: ds) ↔
          directive? v = some d ∧ directives? vs = some ds := by
        simp [directives?, Option.bind_eq_some_iff]
      rw [hcons, directive?_eq_some_iff d v, directives?_eq_some_iff ds vs]
      constructor
      · rintro ⟨hv, hvs⟩
        exact .cons hv hvs
      · rintro (_ | ⟨hv, hvs⟩)
        exact ⟨hv, hvs⟩

end

/-! ## 3. What is written -/

/-- The line of the statement fits a machine word. -/
def Fits (head : Statement) : Prop := head.line ≤ maxLine

theorem part?_ofDirective (key : String) :
    (ofDirective d).part? key =
      field? [("params", ofTexts d.params),
        ("block", match d.body? with
          | none => null
          | some body => array (ofDirectives body)),
        ("file", string d.file), ("line", integer d.line)] key := by
  cases d <;> rfl

theorem hasHead_ofDirective (h : Fits d.head) : (ofDirective d).HasHead d.head where
  params_eq := by rw [part?_ofDirective]; rfl
  file_eq := by rw [part?_ofDirective]; rfl
  line_eq := by rw [part?_ofDirective]; rfl
  line_le := h

mutual

/-- What is written describes what it is written from, if all its lines fit. -/
theorem describes_ofDirective (d : Directive) (h : Everywhere Fits d) :
    Describes (ofDirective d) d := by
  cases d with
  | simple head =>
    rw [Everywhere] at h
    exact .simple (hasHead_ofDirective h) (.inr (part?_ofDirective "block"))
  | block head body =>
    rw [Everywhere] at h
    exact .block (hasHead_ofDirective h.1) (part?_ofDirective "block")
      (describesAll_ofDirectives body h.2)

theorem describesAll_ofDirectives (ds : List Directive) (h : EverywhereAll Fits ds) :
    DescribesAll (ofDirectives ds) ds := by
  cases ds with
  | nil => exact .nil
  | cons d ds =>
    rw [EverywhereAll] at h
    exact .cons (describes_ofDirective d h.1) (describesAll_ofDirectives ds h.2)

end

mutual

/-- The lines of what is described fit. -/
theorem Describes.fits (d : Directive) {v : Json} (h : Describes v d) : Everywhere Fits d := by
  cases h with
  | simple hhead _ => exact hhead.line_le
  | @block _ head items body hhead _ hitems => exact ⟨hhead.line_le, hitems.fits body⟩

theorem DescribesAll.fits (ds : List Directive) {vs : List Json} (h : DescribesAll vs ds) :
    EverywhereAll Fits ds := by
  cases h with
  | nil => exact trivial
  | @cons v vs d ds hv hvs => exact ⟨hv.fits d, hvs.fits ds⟩

end

theorem ofTexts_inj {a b : List String} : ofTexts a = ofTexts b ↔ a = b := by
  rw [ofTexts, ofTexts, array.injEq]
  exact List.map_inj_right fun _ _ h => Json.string.inj h

mutual

/-- Different directives are written differently: an empty block is not taken for none. -/
theorem ofDirective_inj (d e : Directive) : ofDirective d = ofDirective e ↔ d = e := by
  have hline {a b : Nat} : Json.integer a = integer b ↔ a = b := by
    rw [Json.integer.injEq]
    exact Int.natCast_inj
  cases d with
  | simple head =>
    obtain ⟨params, file, line⟩ := head
    cases e with
    | simple other => cases other; simp [ofDirective, ofTexts_inj, hline]
    | block other body => simp [ofDirective]
  | block head body =>
    obtain ⟨params, file, line⟩ := head
    cases e with
    | simple other => simp [ofDirective]
    | block other inner =>
      cases other
      simp [ofDirective, ofTexts_inj, hline, ofDirectives_inj body, and_assoc, and_comm,
        and_left_comm]

theorem ofDirectives_inj (ds es : List Directive) :
    ofDirectives ds = ofDirectives es ↔ ds = es := by
  cases ds with
  | nil => cases es <;> simp [ofDirectives]
  | cons d ds => cases es <;> simp [ofDirectives, ofDirective_inj d, ofDirectives_inj ds]

end

/-! ## 4. Values that say the same -/

/-- The values have the same words and the same place. -/
def SameHead (v w : Json) : Prop :=
  v.part? "params" = w.part? "params" ∧ v.part? "file" = w.part? "file" ∧
    v.part? "line" = w.part? "line"

mutual

/-- `Agree v w`: the values have the same parts, whatever else they hold.

* `simple`: neither has a block, be it null or missing.
* `block`: both have a block, and its items agree one by one. -/
inductive Agree : Json → Json → Prop
  | simple {v w : Json} : SameHead v w → v.HasNoBlock → w.HasNoBlock → Agree v w
  | block {v w : Json} {vs ws : List Json} : SameHead v w →
      v.part? "block" = some (array vs) → w.part? "block" = some (array ws) → AgreeAll vs ws →
      Agree v w

/-- The values agree one by one. -/
inductive AgreeAll : List Json → List Json → Prop
  | nil : AgreeAll [] []
  | cons {v w : Json} {vs ws : List Json} : Agree v w → AgreeAll vs ws →
      AgreeAll (v :: vs) (w :: ws)

end

/-- Values have the same words and the same place if they are those of one statement. -/
theorem HasHead.sameHead_iff {other : Statement} (hv : v.HasHead head) (hw : w.HasHead other) :
    SameHead v w ↔ head = other := by
  obtain ⟨params, file, line⟩ := head
  obtain ⟨params', file', line'⟩ := other
  simp only [SameHead, hv.params_eq, hw.params_eq, hv.file_eq, hw.file_eq, hv.line_eq,
    hw.line_eq, Option.some.injEq, ofTexts_inj, Json.string.injEq, Json.integer.injEq,
    Int.natCast_inj, Statement.mk.injEq]

theorem HasNoBlock.part?_ne (h : v.HasNoBlock) : v.part? "block" ≠ some (array items) := by
  rcases h with h | h <;> simp [h]

theorem agree_iff_of_hasNoBlock (hv : v.HasNoBlock) (hw : w.HasNoBlock) :
    Agree v w ↔ SameHead v w := by
  refine ⟨fun h => ?_, fun h => .simple h hv hw⟩
  cases h with
  | simple hsame _ _ => exact hsame
  | block hsame _ _ _ => exact hsame

theorem agree_iff_of_blocks (hv : v.part? "block" = some (array vs))
    (hw : w.part? "block" = some (array ws)) : Agree v w ↔ SameHead v w ∧ AgreeAll vs ws := by
  refine ⟨fun h => ?_, fun h => .block h.1 hv hw h.2⟩
  cases h with
  | simple _ hblock _ => exact absurd hv hblock.part?_ne
  | block hsame hvs hws hall =>
    rw [hv] at hvs
    rw [hw] at hws
    cases hvs
    cases hws
    exact ⟨hsame, hall⟩

/-- A value with a block does not agree with one without. -/
theorem Agree.hasNoBlock_iff (h : Agree v w) : v.HasNoBlock ↔ w.HasNoBlock := by
  cases h with
  | simple _ hv hw => exact iff_of_true hv hw
  | block _ hv hw _ => exact iff_of_false (fun h => h.part?_ne hv) fun h => h.part?_ne hw

mutual

/-- Values that are read agree if they are read as the same directive. -/
theorem Describes.agree_iff (d e : Directive) {v w : Json} (hv : Describes v d)
    (hw : Describes w e) : Agree v w ↔ d = e := by
  cases hv with
  | simple hhead hblock =>
    cases hw with
    | simple hother hnone =>
      rw [agree_iff_of_hasNoBlock hblock hnone, hhead.sameHead_iff hother, Directive.simple.injEq]
    | block _ hitems _ =>
      exact iff_of_false (fun h => (h.hasNoBlock_iff.mp hblock).part?_ne hitems) nofun
  | @block _ _ _ body hhead hitems hbody =>
    cases hw with
    | simple _ hnone =>
      exact iff_of_false (fun h => (h.hasNoBlock_iff.mpr hnone).part?_ne hitems) nofun
    | @block _ _ _ inner hother hothers hinner =>
      rw [agree_iff_of_blocks hitems hothers, hhead.sameHead_iff hother,
        hbody.agreeAll_iff body inner hinner, Directive.block.injEq]

theorem DescribesAll.agreeAll_iff (ds es : List Directive) {vs ws : List Json}
    (hvs : DescribesAll vs ds) (hws : DescribesAll ws es) : AgreeAll vs ws ↔ ds = es := by
  cases hvs with
  | nil =>
    cases hws with
    | nil => exact iff_of_true .nil rfl
    | cons _ _ => exact iff_of_false nofun nofun
  | @cons v vs d ds hv hvs =>
    cases hws with
    | nil => exact iff_of_false nofun nofun
    | @cons w ws e es hw hws =>
      rw [List.cons.injEq, ← hv.agree_iff d e hw, ← hvs.agreeAll_iff ds es hws]
      constructor
      · rintro (_ | ⟨hfirst, hrest⟩)
        exact ⟨hfirst, hrest⟩
      · rintro ⟨hfirst, hrest⟩
        exact .cons hfirst hrest

end

theorem token?_ofToken_iff {token : Token} :
    token? (ofToken token) = some token ↔ token.line ≤ maxLine := by
  obtain ⟨file, line, text⟩ := token
  have hread : token? (ofToken ⟨file, line, text⟩) =
      (line? (integer line)).map fun line => ⟨file, line, text⟩ := by
    cases hline : line? (integer line) <;>
      simp [token?, ofToken, field?, List.lookup_cons, tokenOfParts?, text?, hline]
  rw [hread, Option.map_eq_some_iff]
  constructor
  · rintro ⟨other, hline, h⟩
    obtain ⟨-, hle⟩ := line?_eq_some_iff.mp hline
    cases h
    exact hle
  · intro h
    exact ⟨line, line?_eq_some_iff.mpr ⟨rfl, h⟩, rfl⟩

/-- Tokens and directives are read back from what they are written as, exactly if all their
lines fit a machine word, and what is written tells whether a block is empty or missing,
however deep it lies. A value is read as the directive that it describes. What is written
of this directive is read as the directive again, and of two values that are read it is the
same exactly if they agree. -/
theorem json_round_trip :
    (∀ token : Token, token? (ofToken token) = some token ↔ token.line ≤ maxLine) ∧
    (∀ d : Directive, directive? (ofDirective d) = some d ↔ Everywhere Fits d) ∧
    (∀ d e : Directive, ofDirective d = ofDirective e ↔ d = e) ∧
    ∀ v d, (directive? v = some d ↔ Describes v d) ∧
      (directive? v = some d → directive? (ofDirective d) = some d ∧
        ∀ w e, directive? w = some e → (ofDirective d = ofDirective e ↔ Agree v w)) := by
  have hback (d : Directive) : directive? (ofDirective d) = some d ↔ Everywhere Fits d := by
    rw [directive?_eq_some_iff]
    exact ⟨Describes.fits d, describes_ofDirective d⟩
  refine ⟨fun _ => token?_ofToken_iff, hback, ofDirective_inj, fun v d =>
    ⟨directive?_eq_some_iff d v, fun hv => ?_⟩⟩
  have hd := (directive?_eq_some_iff d v).mp hv
  refine ⟨(hback d).mpr (hd.fits d), fun w e hw => ?_⟩
  rw [ofDirective_inj, hd.agree_iff d e ((directive?_eq_some_iff e w).mp hw)]

/-- A block with one statement, which has a field too many and none for its block. -/
def looseValue : Json :=
  object [("line", integer 1), ("file", string "f"), ("params", ofTexts ["a"]),
    ("block", array [object [("note", bool true), ("params", ofTexts ["b"]),
      ("file", string "f"), ("line", integer 2)]])]

/-- The same as a list, with the block of the inner statement said to be none. -/
def tightValue : Json :=
  array [ofTexts ["a"], array [array [ofTexts ["b"], null, string "f", integer 2]], string "f",
    integer 1]

/-- Both values are read as `a { b; }`, and so they agree. -/
theorem json_round_trip_looseValue :
    directive? looseValue = some (.block ⟨["a"], "f", 1⟩ [.simple ⟨["b"], "f", 2⟩]) ∧
      directive? tightValue = some (.block ⟨["a"], "f", 1⟩ [.simple ⟨["b"], "f", 2⟩]) ∧
      Agree looseValue tightValue := by
  have hloose : directive? looseValue =
      some (.block ⟨["a"], "f", 1⟩ [.simple ⟨["b"], "f", 2⟩]) := by decide
  have htight : directive? tightValue =
      some (.block ⟨["a"], "f", 1⟩ [.simple ⟨["b"], "f", 2⟩]) := by decide
  obtain ⟨-, -, -, hread⟩ := json_round_trip
  obtain ⟨-, hsame⟩ := (hread looseValue _).2 hloose
  exact ⟨hloose, htight, (hsame tightValue _ htight).mp rfl⟩

end ConfTree.Json
