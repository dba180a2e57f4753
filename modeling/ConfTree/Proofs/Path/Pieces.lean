import ConfTree.Path.Stack

/-!
# The pieces of a path

What stands between the separators of a path fixes its text, so all about a path
can be read off its pieces. A piece that is empty or `.` moves nowhere; every other
piece is a move, one up or one down.

1. `Component.IsMove`: the components that move, and their texts.
2. `ofPieces_pieces`, `isAbsolute_iff`: what the pieces of a path say.
3. `act_eq`: a path moves from the root, or from where one is.
4. `exists_pieces_join`, `moves_join`, `pieces_extend`, `pieces_ofComponents`: the pieces of
   a path that is put together.
-/

namespace ConfTree

/-! ## 1. Moves -/

namespace Name

variable (n : Name)

theorem isName_iff {text : String} :
    ConfTree.isName text = true ↔ text ≠ "" ∧ text ≠ "." ∧ text ≠ ".." ∧ '/' ∉ text.toList := by
  simp [ConfTree.isName, and_assoc]

/-- One character, over and over, is a name. -/
theorem isName_replicate {k : Nat} {c : Char} (hk : 2 < k) (hc : c ≠ '/') :
    ConfTree.isName (String.ofList (List.replicate k c)) = true := by
  have hne (text : String) (htext : text.length ≤ 2) :
      String.ofList (List.replicate k c) ≠ text := by
    rintro rfl
    rw [String.length_ofList, List.length_replicate] at htext
    omega
  refine isName_iff.mpr ⟨hne _ (by decide), hne _ (by decide), hne _ (by decide), ?_⟩
  rw [String.toList_ofList, List.mem_replicate]
  exact fun h => hc h.2.symm

theorem eq_of_text {a b : Name} (h : a.text = b.text) : a = b := by
  cases a
  cases b
  rw [Name.mk.injEq]
  exact h

theorem text_ne_empty : n.text ≠ "" := (isName_iff.mp n.isName).1

theorem text_ne_here : n.text ≠ "." := (isName_iff.mp n.isName).2.1

theorem text_ne_up : n.text ≠ ".." := (isName_iff.mp n.isName).2.2.1

theorem slash_not_mem : '/' ∉ n.text.toList := (isName_iff.mp n.isName).2.2.2

theorem toList_ne_nil : n.text.toList ≠ [] := by
  intro h
  exact n.text_ne_empty (String.toList_inj.mp (by simpa using h))

end Name

namespace Component

variable (place : List Name)

@[simp] theorem act_root : Component.root.act place = [] := rfl

@[simp] theorem act_here : Component.here.act place = place := rfl

@[simp] theorem act_up : Component.up.act place = place.tail := rfl

@[simp] theorem act_name (n : Name) : (Component.name n).act place = n :: place := rfl

/-- The component leads one up or one down. -/
inductive IsMove : Component → Prop
  | up : IsMove .up
  | name (n : Name) : IsMove (.name n)

theorem isMove_of_mem_names {names : List Name} {c : Component} (h : c ∈ names.map Component.name) :
    c.IsMove := by
  obtain ⟨n, -, rfl⟩ := List.mem_map.mp h
  exact .name n

namespace IsMove

variable {c : Component}

theorem slash_not_mem (h : c.IsMove) : '/' ∉ c.text.toList := by
  cases h with
  | up => decide
  | name n => exact n.slash_not_mem

theorem toList_ne_nil (h : c.IsMove) : c.text.toList ≠ [] := by
  cases h with
  | up => decide
  | name n => exact n.toList_ne_nil

/-- A move is read back from its text. -/
theorem ofPiece?_text (h : c.IsMove) : ofPiece? c.text.toList = some c := by
  cases h with
  | up => decide
  | name n => simp [ofPiece?, text, n.text_ne_up, Name.ofString?_text]

end IsMove

/-- A piece that is a component is the text of a move. -/
theorem isMove_of_ofPiece? {piece : List Char} {c : Component} (h : ofPiece? piece = some c) :
    c.IsMove ∧ c.text.toList = piece := by
  unfold ofPiece? at h
  split at h
  · next hup =>
    cases h
    exact ⟨.up, by rw [text, ← hup, String.toList_ofList]⟩
  · obtain ⟨n, hn, rfl⟩ := Option.map_eq_some_iff.mp h
    exact ⟨.name n, by rw [text, Name.text_of_ofString? hn, String.toList_ofList]⟩

end Component

namespace Path

/-! ## 2. What the pieces say -/

/-- The path with these pieces. -/
def ofPieces (pieces : List (List Char)) : Path := ⟨String.ofList (['/'].intercalate pieces)⟩

theorem ofPieces_pieces (p : Path) : ofPieces p.pieces = p := by
  rw [ofPieces, pieces, List.intercalate_splitOn, String.ofList_toList]

theorem pieces_ofPieces {pieces : List (List Char)} (hne : pieces ≠ [])
    (h : ∀ piece ∈ pieces, '/' ∉ piece) : (ofPieces pieces).pieces = pieces := by
  rw [Path.pieces, ofPieces, String.toList_ofList, List.splitOn_intercalate '/' h hne]

theorem eq_of_pieces {p q : Path} (h : p.pieces = q.pieces) : p = q := by
  rw [← p.ofPieces_pieces, h, q.ofPieces_pieces]

theorem pieces_ne_nil (p : Path) : p.pieces ≠ [] := List.splitOn_ne_nil _ _

theorem slash_not_mem_of_mem_pieces {p : Path} {piece : List Char} (h : piece ∈ p.pieces) :
    '/' ∉ piece := by
  unfold pieces at h
  generalize p.text.toList = text at h
  induction text generalizing piece with
  | nil =>
    rw [List.splitOn_nil, List.mem_singleton] at h
    simp [h]
  | cons c text ih =>
    rw [List.splitOn_cons_eq_if_modifyHead] at h
    obtain ⟨first, rest, htext⟩ := List.exists_cons_of_ne_nil (List.splitOn_ne_nil '/' text)
    rw [htext] at h ih
    split at h
    · rcases List.mem_cons.mp h with rfl | h
      · simp
      · exact ih h
    · next hc =>
      rw [List.modifyHead_cons, List.mem_cons] at h
      rcases h with rfl | h
      · have hne : '/' ≠ c := fun heq => hc (beq_iff_eq.mpr heq.symm)
        simpa [hne] using ih List.mem_cons_self
      · exact ih (List.mem_cons_of_mem _ h)

/-- An absolute path starts with an empty piece in front of a separator. -/
theorem isAbsolute_iff {p : Path} :
    p.isAbsolute = true ↔ ∃ piece rest, p.pieces = [] :: piece :: rest := by
  constructor
  · intro h
    obtain ⟨cs, hcs⟩ : ∃ cs, p.text.toList = '/' :: cs := by
      cases htext : p.text.toList with
      | nil => simp [isAbsolute, htext] at h
      | cons c cs =>
        simp only [isAbsolute, htext, List.head?_cons, beq_iff_eq, Option.some.injEq] at h
        exact ⟨cs, by rw [h]⟩
    cases hrest : cs.splitOn '/' with
    | nil => exact absurd hrest (List.splitOn_ne_nil _ _)
    | cons piece rest =>
      refine ⟨piece, rest, ?_⟩
      rw [pieces, hcs, List.splitOn_cons_eq_if_modifyHead, if_pos (beq_self_eq_true '/'), hrest]
  · rintro ⟨piece, rest, h⟩
    rw [← p.ofPieces_pieces, h]
    simp [isAbsolute, ofPieces]

theorem isAbsolute_eq_false_iff {p : Path} :
    p.isAbsolute = false ↔ ∀ piece rest, p.pieces ≠ [] :: piece :: rest := by
  rw [← Bool.not_eq_true, isAbsolute_iff]
  simp

/-! ## 3. Where a path leads -/

/-- The moves that the path prescribes behind its start. -/
def moves (p : Path) : List Component := p.pieces.filterMap Component.ofPiece?

theorem isMove_of_mem_moves {p : Path} {c : Component} (h : c ∈ p.moves) : c.IsMove := by
  obtain ⟨piece, -, hpiece⟩ := List.mem_filterMap.mp h
  exact (Component.isMove_of_ofPiece? hpiece).1

theorem components_of_isAbsolute {p : Path} (h : p.isAbsolute = true) :
    p.components = .root :: p.moves := by
  simp [components, h, moves]

/-- A `.` counts only in front. -/
theorem components_of_relative {p : Path} (h : p.isAbsolute = false) :
    p.components = p.moves ∨ ['.'] ∈ p.pieces ∧ p.components = .here :: p.moves := by
  unfold components
  simp only [h, Bool.false_eq_true, ↓reduceIte]
  split
  · next hhead => exact .inr ⟨List.mem_of_head? hhead, rfl⟩
  · exact .inl rfl

/-- The moves start from the root or from where one is; no other piece leads
anywhere. -/
theorem act_eq (p : Path) (place : List Name) :
    p.act place =
      p.moves.foldl (fun place c => c.act place) (if p.isAbsolute then [] else place) := by
  cases h : p.isAbsolute with
  | true => simp [act, components_of_isAbsolute h]
  | false => rcases components_of_relative h with hc | ⟨-, hc⟩ <;> simp [act, hc]

/-! ## 4. Paths that are put together -/

variable {base child : Path}

/-- The text of the path goes on behind its last separator. -/
def IsOpen (base : Path) : Prop := base.pieces.getLast? ≠ some []

theorem join_empty (child : Path) : (⟨""⟩ : Path).join child = child := by
  simp [join]

/-- Behind a separator no other one is put. -/
theorem join_of_slash {text : List Char} (hbase : base.text.toList = text ++ ['/'])
    (h : child.isAbsolute = false) :
    (base.join child).text.toList = text ++ '/' :: child.text.toList := by
  have hne : base.text ≠ "" := by
    intro hempty
    simp [hempty] at hbase
  simp [join, h, hne, hbase]

theorem join_of_isOpen (hbase : base.IsOpen) (h : child.isAbsolute = false) :
    (base.join child).text.toList = base.text.toList ++ '/' :: child.text.toList := by
  have hne : base.text ≠ "" := by
    intro hempty
    simp [IsOpen, pieces, hempty] at hbase
  have hlast : base.text.toList.getLast? ≠ some '/' := by
    intro hlast
    obtain ⟨text, htext⟩ := List.getLast?_eq_some_iff.mp hlast
    rw [IsOpen, pieces, htext, List.splitOn_append_cons_self] at hbase
    simp at hbase
  simp [join, h, hne, hlast]

theorem pieces_join (hbase : base.IsOpen) (h : child.isAbsolute = false) :
    (base.join child).pieces = base.pieces ++ child.pieces := by
  rw [pieces, join_of_isOpen hbase h, List.splitOn_append_cons_self]
  rfl

theorem intercalate_concat {sep last : List Char} {front : List (List Char)} (h : front ≠ []) :
    sep.intercalate (front ++ [last]) = sep.intercalate front ++ sep ++ last := by
  induction front with
  | nil => exact absurd rfl h
  | cons piece front ih =>
    cases front with
    | nil => simp
    | cons next front =>
      have hrest := ih (List.cons_ne_nil _ _)
      simp only [List.cons_append, List.intercalate_cons_cons] at hrest ⊢
      simp [hrest]

/-- A path has no text, or ends in a separator, or goes on behind the last one. -/
theorem join_cases (base : Path) :
    base = ⟨""⟩ ∨ (∃ text, base.text.toList = text ++ ['/']) ∨ base.IsOpen := by
  by_cases hopen : base.IsOpen
  · exact .inr (.inr hopen)
  · obtain ⟨front, hfront⟩ := List.getLast?_eq_some_iff.mp (Classical.not_not.mp hopen)
    have htext : base.text.toList = ['/'].intercalate (front ++ [[]]) := by
      rw [← hfront, pieces, List.intercalate_splitOn]
    cases front with
    | nil => exact .inl (eq_of_pieces hfront)
    | cons piece front =>
      refine .inr (.inl ⟨['/'].intercalate (piece :: front), ?_⟩)
      rw [htext, intercalate_concat (List.cons_ne_nil _ _), List.append_nil]

/-- A path that is joined to another goes on behind its pieces, but for an empty one
behind the last separator. -/
theorem exists_pieces_join (base : Path) (h : child.isAbsolute = false) :
    ∃ front, (base.pieces = front ∨ base.pieces = front ++ [[]]) ∧
      (base.join child).pieces = front ++ child.pieces := by
  rcases base.join_cases with rfl | ⟨text, htext⟩ | hopen
  · exact ⟨[], .inr (by decide), by rw [join_empty, List.nil_append]⟩
  · refine ⟨text.splitOn '/', .inr ?_, ?_⟩
    · rw [pieces, htext, List.splitOn_append_cons_self]
      rfl
    · rw [pieces, join_of_slash htext h, List.splitOn_append_cons_self]
      rfl
  · exact ⟨base.pieces, .inl rfl, pieces_join hopen h⟩

/-- A path that is joined to another starts where the other starts. -/
theorem isAbsolute_join (h : child.isAbsolute = false) :
    (base.join child).isAbsolute = base.isAbsolute := by
  rcases base.join_cases with rfl | ⟨text, htext⟩ | hopen
  · rw [join_empty, h]
    rfl
  · simp only [isAbsolute, join_of_slash htext h, htext]
    cases text <;> rfl
  · simp only [isAbsolute, join_of_isOpen hopen h]
    cases hbase : base.text.toList with
    | nil => simp [IsOpen, pieces, hbase] at hopen
    | cons c cs => rfl

/-- A path that is joined to another moves on from where the other leads. -/
theorem moves_join (h : child.isAbsolute = false) :
    (base.join child).moves = base.moves ++ child.moves := by
  rcases base.join_cases with rfl | ⟨text, htext⟩ | hopen
  · rw [join_empty]
    rfl
  · -- The empty piece behind the separator is no move.
    simp only [moves, pieces, join_of_slash htext h, htext, List.splitOn_append_cons_self]
    simp [Component.ofPiece?, Name.ofString?, isName]
  · rw [moves, pieces_join hopen h, List.filterMap_append]
    rfl

theorem act_join (h : child.isAbsolute = false) (place : List Name) :
    (base.join child).act place = child.act (base.act place) := by
  rw [act_eq, act_eq child, act_eq base, isAbsolute_join h, moves_join h, List.foldl_append, h]
  rfl

variable {cs : List Component}

theorem pieces_of_isMove {c : Component} (h : c.IsMove) :
    (Path.mk c.text).pieces = [c.text.toList] :=
  List.splitOn_eq_singleton h.slash_not_mem

theorem isAbsolute_of_isMove {c : Component} (h : c.IsMove) :
    (Path.mk c.text).isAbsolute = false := by
  rw [isAbsolute_eq_false_iff]
  intro piece rest hpieces
  rw [pieces_of_isMove h] at hpieces
  simp at hpieces

theorem isOpen_of_isMove {c : Component} (h : c.IsMove) : (Path.mk c.text).IsOpen := by
  rw [IsOpen, pieces_of_isMove h]
  simpa using h.toList_ne_nil

/-- Every move that a path goes on by is a piece of its own. -/
theorem pieces_extend (hbase : base.IsOpen) (hcs : ∀ c ∈ cs, c.IsMove) :
    (base.extend cs).pieces = base.pieces ++ cs.map fun c => c.text.toList := by
  induction cs generalizing base with
  | nil => simp [extend]
  | cons c cs ih =>
    obtain ⟨hc, hcs⟩ := List.forall_mem_cons.mp hcs
    have hpieces : (base.join ⟨c.text⟩).pieces = base.pieces ++ [c.text.toList] := by
      rw [pieces_join hbase (isAbsolute_of_isMove hc), pieces_of_isMove hc]
    have hopen : (base.join ⟨c.text⟩).IsOpen := by
      rw [IsOpen, hpieces]
      simpa using hc.toList_ne_nil
    have hrest := ih hopen hcs
    rw [hpieces] at hrest
    simpa [extend] using hrest

/-- The pieces of a relative path are its moves. -/
theorem pieces_ofComponents (hne : cs ≠ []) (hcs : ∀ c ∈ cs, c.IsMove) :
    (ofComponents cs).pieces = cs.map fun c => c.text.toList := by
  cases cs with
  | nil => exact absurd rfl hne
  | cons c cs =>
    obtain ⟨hc, hcs⟩ := List.forall_mem_cons.mp hcs
    have hstart : ofComponents (c :: cs) = extend ⟨c.text⟩ cs := by
      simp [ofComponents, extend, join_empty]
    rw [hstart, pieces_extend (isOpen_of_isMove hc) hcs, pieces_of_isMove hc]
    rfl

/-- The pieces of an absolute path are its moves behind an empty one. -/
theorem pieces_ofComponents_root (hne : cs ≠ []) (hcs : ∀ c ∈ cs, c.IsMove) :
    (ofComponents (.root :: cs)).pieces = [] :: cs.map fun c => c.text.toList := by
  cases cs with
  | nil => exact absurd rfl hne
  | cons c cs =>
    obtain ⟨hc, hcs⟩ := List.forall_mem_cons.mp hcs
    have hslash : (⟨"/"⟩ : Path).text.toList = [] ++ ['/'] := by decide
    have hpieces : (join ⟨"/"⟩ ⟨c.text⟩).pieces = [[], c.text.toList] := by
      rw [pieces, join_of_slash hslash (isAbsolute_of_isMove hc), List.splitOn_append_cons_self,
        List.splitOn_eq_singleton hc.slash_not_mem]
      rfl
    have hopen : (join ⟨"/"⟩ ⟨c.text⟩).IsOpen := by
      rw [IsOpen, hpieces]
      simpa using hc.toList_ne_nil
    have hstart : ofComponents (.root :: c :: cs) = extend (join ⟨"/"⟩ ⟨c.text⟩) cs := by
      simp [ofComponents, extend, join_empty, Component.text]
    rw [hstart, pieces_extend hopen hcs, hpieces]
    rfl

/-- The texts of moves are read back as these moves. -/
theorem filterMap_ofPiece? {cs : List Component} (hcs : ∀ c ∈ cs, c.IsMove) :
    (cs.map fun c => c.text.toList).filterMap Component.ofPiece? = cs := by
  induction cs with
  | nil => rfl
  | cons c cs ih =>
    obtain ⟨hc, hcs⟩ := List.forall_mem_cons.mp hcs
    rw [List.map_cons, List.filterMap_cons_some hc.ofPiece?_text, ih hcs]

/-- A path that is put together from moves is relative. -/
theorem isAbsolute_ofComponents (hcs : ∀ c ∈ cs, c.IsMove) :
    (ofComponents cs).isAbsolute = false := by
  cases cs with
  | nil => rfl
  | cons c cs =>
    refine isAbsolute_eq_false_iff.mpr fun piece rest h => ?_
    rw [pieces_ofComponents (List.cons_ne_nil _ _) hcs] at h
    exact (hcs c List.mem_cons_self).toList_ne_nil (List.cons.inj h).1

theorem isAbsolute_ofComponents_root (hcs : ∀ c ∈ cs, c.IsMove) :
    (ofComponents (.root :: cs)).isAbsolute = true := by
  cases cs with
  | nil => decide
  | cons c cs =>
    exact isAbsolute_iff.mpr ⟨_, _, pieces_ofComponents_root (List.cons_ne_nil _ _) hcs⟩

/-- A path that is put together from moves moves so. -/
theorem moves_ofComponents (hcs : ∀ c ∈ cs, c.IsMove) : (ofComponents cs).moves = cs := by
  cases cs with
  | nil => decide
  | cons c cs =>
    rw [moves, pieces_ofComponents (List.cons_ne_nil _ _) hcs, filterMap_ofPiece? hcs]

theorem moves_ofComponents_root (hcs : ∀ c ∈ cs, c.IsMove) :
    (ofComponents (.root :: cs)).moves = cs := by
  cases cs with
  | nil => decide
  | cons c cs =>
    rw [moves, pieces_ofComponents_root (List.cons_ne_nil _ _) hcs,
      List.filterMap_cons_none (by decide), filterMap_ofPiece? hcs]

end Path

end ConfTree
