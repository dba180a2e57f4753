import ConfTree.FileTree
import ConfTree.Proofs.Path.Clean

/-!
# Absolute paths by their pieces

A search goes down from the root piece by piece. So absolute paths are told by the
pieces behind their root, and other paths by the pieces that they add.

1. `IsPiece`, `ofPiece_cases`: what can stand between two separators.
2. `fromRoot`, `join_fromRoot`: the absolute paths, and what goes on behind them.
3. `ofLocation_eq`, `join_ofLocation`, `act_ofLocation`: the paths of locations.
4. `stripRoot_clean_cases`, `pieces_stripRoot_clean`: a cleaned path as seen from a
   directory.
   `stripRoot_name`: a name as seen from one.
-/

namespace ConfTree

/-! ## 1. Pieces -/

/-- The step that a piece prescribes to one who looks a path up. -/
def Component.ofPiece (piece : List Char) : Component := (ofPiece? piece).getD .here

theorem Component.ofPiece?_name (n : Name) : ofPiece? n.text.toList = some (.name n) :=
  (IsMove.name n).ofPiece?_text

theorem Component.ofPiece_name (n : Name) : ofPiece n.text.toList = .name n := by
  rw [ofPiece, ofPiece?_name]
  rfl

namespace Path

variable {piece : List Char} {ps qs : List (List Char)}

/-- What can stand between two separators of a path, and does not end it. -/
structure IsPiece (piece : List Char) : Prop where
  ne_nil : piece ≠ []
  slash_not_mem : '/' ∉ piece

theorem isPiece_text {c : Component} (h : c.IsMove) : IsPiece c.text.toList :=
  ⟨h.toList_ne_nil, h.slash_not_mem⟩

theorem isPiece_name (n : Name) : IsPiece n.text.toList := ⟨n.toList_ne_nil, n.slash_not_mem⟩

theorem forall_slash_not_mem (hps : ∀ x ∈ ps, IsPiece x) : ∀ x ∈ ps, '/' ∉ x := fun x hx =>
  (hps x hx).slash_not_mem

theorem getLast?_ne_of_isPiece (hps : ∀ x ∈ ps, IsPiece x) : ps.getLast? ≠ some [] := fun hlast =>
  (hps _ (List.mem_of_getLast? hlast)).ne_nil rfl

theorem forall_isPiece_concat (hps : ∀ x ∈ ps, IsPiece x) (hpiece : IsPiece piece) :
    ∀ x ∈ ps ++ [piece], IsPiece x :=
  List.forall_mem_append.mpr ⟨hps, List.forall_mem_singleton.mpr hpiece⟩

/-- What stands between two separators is a dot, two dots or a name. -/
theorem ofPiece_cases (h : IsPiece piece) :
    piece = ['.'] ∨ piece = ['.', '.'] ∨
      ∃ n : Name, n.text.toList = piece ∧ Component.ofPiece piece = .name n := by
  by_cases hname : isName (String.ofList piece) = true
  · have hup : String.ofList piece ≠ ".." := (Name.isName_iff.mp hname).2.2.1
    refine .inr (.inr ⟨⟨String.ofList piece, hname⟩, String.toList_ofList, ?_⟩)
    simp [Component.ofPiece, Component.ofPiece?, hup, Name.ofString?, hname]
  · have hdots : String.ofList piece = "." ∨ String.ofList piece = ".." := by
      rw [Name.isName_iff, String.toList_ofList] at hname
      have hne : String.ofList piece ≠ "" := by
        intro hempty
        have hnil := congrArg String.toList hempty
        exact h.ne_nil (by simpa using hnil)
      have hslash := h.slash_not_mem
      by_cases hhere : String.ofList piece = "."
      · exact .inl hhere
      · by_cases hup : String.ofList piece = ".."
        · exact .inr hup
        · exact absurd ⟨hne, hhere, hup, hslash⟩ hname
    rcases hdots with hdot | hdot
    · exact .inl (by simpa using congrArg String.toList hdot)
    · exact .inr (.inl (by simpa using congrArg String.toList hdot))

theorem pieces_name (n : Name) : (Path.mk n.text).pieces = [n.text.toList] :=
  List.splitOn_eq_singleton n.slash_not_mem

theorem isAbsolute_name (n : Name) : (Path.mk n.text).isAbsolute = false := by
  rw [isAbsolute_eq_false_iff, pieces_name]
  simp

theorem mem_intercalate {s c : Char} (hc : c ∈ piece) (hpiece : piece ∈ ps) :
    c ∈ [s].intercalate ps := by
  induction ps with
  | nil => cases hpiece
  | cons first ps ih =>
    cases ps with
    | nil => simpa [← List.mem_singleton.mp hpiece] using hc
    | cons second ps =>
      rw [List.intercalate_cons_cons, List.mem_append]
      rcases List.mem_cons.mp hpiece with rfl | hpiece
      · exact .inl (List.mem_append_left _ hc)
      · exact .inr (ih hpiece)

/-! ## 2. Absolute paths -/

/-- A path is told by its characters. -/
theorem eq_of_toList {p q : Path} (h : p.text.toList = q.text.toList) : p = q := by
  cases p
  cases q
  rw [Path.mk.injEq]
  exact String.toList_inj.mp h

/-- The absolute path with these pieces behind its root. -/
def fromRoot (ps : List (List Char)) : Path := ⟨String.ofList ('/' :: ['/'].intercalate ps)⟩

theorem toList_fromRoot (ps : List (List Char)) :
    (fromRoot ps).text.toList = '/' :: ['/'].intercalate ps := by
  rw [fromRoot, String.toList_ofList]

theorem isAbsolute_fromRoot (ps : List (List Char)) : (fromRoot ps).isAbsolute = true := by
  simp [isAbsolute, toList_fromRoot]

theorem fromRoot_eq_ofPieces (hne : ps ≠ []) : fromRoot ps = ofPieces ([] :: ps) := by
  cases ps with
  | nil => exact absurd rfl hne
  | cons piece ps => rw [fromRoot, ofPieces, List.intercalate_cons_cons]; rfl

theorem pieces_fromRoot (hne : ps ≠ []) (hps : ∀ piece ∈ ps, '/' ∉ piece) :
    (fromRoot ps).pieces = [] :: ps := by
  rw [fromRoot_eq_ofPieces hne]
  exact pieces_ofPieces (List.cons_ne_nil _ _) (List.forall_mem_cons.mpr ⟨by simp, hps⟩)

theorem steps_fromRoot (hne : ps ≠ []) (hps : ∀ piece ∈ ps, '/' ∉ piece) :
    (fromRoot ps).steps = .here :: ps.map Component.ofPiece := by
  rw [steps, pieces_fromRoot hne hps]
  rfl

/-- An absolute path is told by its pieces. -/
theorem eq_fromRoot {p : Path} (hp : p.pieces = [] :: ps) (hne : ps ≠ []) : p = fromRoot ps := by
  rw [fromRoot_eq_ofPieces hne, ← hp, ofPieces_pieces]

/-- A relative path goes on behind the pieces of an absolute one. -/
theorem join_fromRoot (hps : ∀ piece ∈ ps, IsPiece piece) {child : Path}
    (hchild : child.isAbsolute = false) :
    (fromRoot ps).join child = fromRoot (ps ++ child.pieces) := by
  by_cases hne : ps = []
  · subst hne
    have hslash : (fromRoot []).text.toList = [] ++ ['/'] := by decide
    apply eq_of_toList
    rw [join_of_slash hslash hchild, toList_fromRoot, List.nil_append, List.nil_append, pieces,
      List.intercalate_splitOn]
  · have hpieces : (fromRoot ps).pieces = [] :: ps :=
      pieces_fromRoot hne (forall_slash_not_mem hps)
    have hopen : (fromRoot ps).IsOpen := by
      intro hlast
      rw [hpieces, List.getLast?_cons_of_ne_nil hne] at hlast
      exact getLast?_ne_of_isPiece hps hlast
    refine eq_fromRoot ?_ (by simp [hne])
    rw [pieces_join hopen hchild, hpieces, List.cons_append]

theorem join_piece (hps : ∀ x ∈ ps, IsPiece x) (hpiece : IsPiece piece) :
    (fromRoot ps).join ⟨String.ofList piece⟩ = .fromRoot (ps ++ [piece]) := by
  have hpieces : (Path.mk (String.ofList piece)).pieces = [piece] := by
    rw [pieces, String.toList_ofList, List.splitOn_eq_singleton hpiece.slash_not_mem]
  have hrelative : (Path.mk (String.ofList piece)).isAbsolute = false := by
    rw [isAbsolute_eq_false_iff, hpieces]
    simp
  rw [join_fromRoot hps hrelative, hpieces]

theorem join_name (hps : ∀ x ∈ ps, IsPiece x) (n : Name) :
    (fromRoot ps).join ⟨n.text⟩ = .fromRoot (ps ++ [n.text.toList]) := by
  rw [join_fromRoot hps (isAbsolute_name n), pieces_name]

/-- A path with more pieces has a longer text. -/
theorem exists_text_fromRoot_append (ps qs : List (List Char)) :
    ∃ rest, (fromRoot (ps ++ qs)).text = (fromRoot ps).text ++ rest := by
  induction qs generalizing ps with
  | nil => exact ⟨"", by simp⟩
  | cons q qs ih =>
    obtain ⟨rest, hrest⟩ := ih (ps ++ [q])
    have hnext : ∃ front, (fromRoot (ps ++ [q])).text = (fromRoot ps).text ++ front := by
      cases ps with
      | nil =>
        refine ⟨String.ofList q, String.toList_inj.mp ?_⟩
        simp [toList_fromRoot]
      | cons p ps =>
        refine ⟨String.ofList ('/' :: q), String.toList_inj.mp ?_⟩
        rw [String.toList_append, toList_fromRoot, toList_fromRoot, String.toList_ofList,
          intercalate_concat (List.cons_ne_nil _ _)]
        simp
    obtain ⟨front, hfront⟩ := hnext
    refine ⟨front ++ rest, ?_⟩
    rw [← String.append_assoc, ← hfront, ← hrest]
    simp

/-! ## 3. Locations -/

/-- The names on the way to a location as pieces of a path. -/
def piecesTo (loc : Location) : List (List Char) := loc.reverse.map fun n => n.text.toList

theorem isPiece_of_mem_piecesTo {loc : Location} : ∀ piece ∈ piecesTo loc, IsPiece piece := by
  intro piece hpiece
  obtain ⟨n, _, rfl⟩ := List.mem_map.mp hpiece
  exact isPiece_name n

theorem ofLocation_eq (loc : Location) : ofLocation loc = fromRoot (piecesTo loc) := by
  apply eq_of_toList
  rw [ofLocation, String.toList_append, String.toList_intercalate, toList_fromRoot, List.map_map]
  rfl

/-- An entry of a directory is a location again. -/
theorem join_ofLocation (loc : Location) (n : Name) :
    (ofLocation loc).join ⟨n.text⟩ = ofLocation (n :: loc) := by
  rw [ofLocation_eq, ofLocation_eq, join_name isPiece_of_mem_piecesTo]
  simp [piecesTo]

/-- A name behind a path leads one down. -/
theorem act_join_name (base : Path) (n : Name) (place : List Name) :
    (base.join ⟨n.text⟩).act place = n :: base.act place := by
  have hmoves : (Path.mk n.text).moves = [.name n] := by
    rw [moves, pieces_name]
    exact List.filterMap_cons_some (Component.ofPiece?_name n)
  rw [act_join (isAbsolute_name n), act_eq, isAbsolute_name, hmoves]
  rfl

theorem act_ofLocation (loc : Location) (place : List Name) : (ofLocation loc).act place = loc := by
  induction loc with
  | nil =>
    have hcomponents : (ofLocation []).components = [.root] := by decide
    rw [act, hcomponents]
    rfl
  | cons n loc ih => rw [← join_ofLocation, act_join_name, ih]

/-- Locations are told apart by their paths. -/
theorem ofLocation_inj {loc loc' : Location} (h : ofLocation loc = ofLocation loc') :
    loc = loc' := by
  rw [← act_ofLocation loc [], h, act_ofLocation]

/-! ## 4. Cleaned paths -/

/-- A cleaned path as seen from a directory: it is made of pieces, unless it is the
root, and is the path itself without the root. -/
theorem stripRoot_clean_cases (p : Path) :
    p.clean.stripRoot.isAbsolute = false ∧
      (p.clean.stripRoot = ⟨""⟩ ∨ ∀ x ∈ p.clean.stripRoot.pieces, IsPiece x) ∧
      p.clean = if p.isAbsolute then (fromRoot []).join p.clean.stripRoot else p.clean.stripRoot := by
  obtain ⟨ups, names, -, hp⟩ := p.exists_settled
  by_cases hne : route ups names = []
  · rw [hne, List.append_nil] at hp
    rw [clean_of_still hp]
    cases p.isAbsolute with
    | true => exact ⟨by decide, .inl (by decide), by decide⟩
    | false =>
      have hdot : stripRoot ⟨"."⟩ = ⟨"."⟩ := by decide
      have hpieces : (Path.mk ".").pieces = [['.']] := by decide
      refine ⟨by decide, .inr ?_, hdot.symm⟩
      rw [if_neg Bool.false_ne_true, hdot, hpieces]
      exact List.forall_mem_singleton.mpr ⟨by simp, by decide⟩
  · have hmoves : ∀ c ∈ route ups names, c.IsMove := fun _ => isMove_of_mem_route
    have hnoRoot : (route ups names).filter (· != .root) = route ups names := by
      rw [List.filter_eq_self]
      intro c hc
      cases hmoves c hc <;> rfl
    have hstrip : p.clean.stripRoot = ofComponents (route ups names) := by
      cases habs : p.isAbsolute with
      | true =>
        rw [stripRoot, components_of_isAbsolute ((isAbsolute_clean p).trans habs), moves_clean hp,
          List.filter_cons_of_neg (by simp), hnoRoot]
      | false =>
        rcases components_of_relative ((isAbsolute_clean p).trans habs) with hc | ⟨hhere, -⟩
        · rw [stripRoot, hc, moves_clean hp, hnoRoot]
        · have hstill := moves_clean hp
          rw [clean_of_mem_here hhere] at hstill
          exact absurd (hstill.symm.trans (by decide : (Path.mk ".").moves = [])) hne
    have hpieces := pieces_ofComponents hne hmoves
    rw [hstrip]
    refine ⟨isAbsolute_ofComponents hmoves, .inr fun x hx => ?_, ?_⟩
    · rw [hpieces] at hx
      obtain ⟨c, hc, rfl⟩ := List.mem_map.mp hx
      exact isPiece_text (hmoves c hc)
    · rw [clean_of_moves hp hne]
      cases p.isAbsolute with
      | false => rfl
      | true =>
        have hroot := pieces_ofComponents_root hne hmoves
        rw [if_pos rfl, join_fromRoot (by simp) (isAbsolute_ofComponents hmoves), hpieces]
        exact eq_fromRoot hroot (by simp [hne])

/-- What a cleaned path adds to a directory: nothing, a single dot, or some steps up and
then names. -/
theorem pieces_stripRoot_clean (p : Path) :
    p.clean.stripRoot.pieces = [[]] ∨ p.clean.stripRoot.pieces = [['.']] ∨
      ∃ names : List Name, p.clean.stripRoot.pieces =
        List.replicate p.clean.ups ['.', '.'] ++ names.map fun n => n.text.toList := by
  have hclean := p.isClean_clean
  unfold stripRoot ups
  generalize p.clean.components = cs at hclean
  cases hclean with
  | here => exact .inr (.inl (by decide))
  | absolute names =>
    have hmoves : ∀ c ∈ names.map Component.name, c.IsMove := fun _ => Component.isMove_of_mem_names
    have hroot : (.root :: names.map Component.name).filter (· != .root) = names.map .name := by
      simp [List.filter_eq_self]
    have hups : (.root :: names.map Component.name).count .up = 0 := by
      simp [List.count_eq_zero]
    rw [hroot, hups]
    by_cases hne : names = []
    · subst hne
      exact .inl (by decide)
    · refine .inr (.inr ⟨names, ?_⟩)
      rw [pieces_ofComponents (by simpa using hne) hmoves, List.map_map]
      rfl
  | relative ups names hpos =>
    have hmoves : ∀ c ∈ route ups names, c.IsMove := fun _ => isMove_of_mem_route
    have hroot : (route ups names).filter (· != .root) = route ups names := by
      rw [List.filter_eq_self]
      intro c hc
      cases hmoves c hc <;> rfl
    have hups : (route ups names).count .up = ups := by
      simp [route, List.count_eq_zero]
    have hne : route ups names ≠ [] := (IsClean.relative ups names hpos).ne_nil
    refine .inr (.inr ⟨names, ?_⟩)
    change (ofComponents ((route ups names).filter _)).pieces =
      List.replicate ((route ups names).count .up) _ ++ _
    rw [hroot, hups, pieces_ofComponents hne hmoves, route, List.map_append, List.map_replicate,
      List.map_map]
    rfl

/-- A name is a path by itself. -/
theorem stripRoot_name (n : Name) : (Path.mk n.text).stripRoot = ⟨n.text⟩ := by
  have hmoves : (Path.mk n.text).moves = [.name n] := by
    simp [moves, pieces_name, Component.ofPiece?_name]
  have hcomponents : (Path.mk n.text).components = [.name n] := by
    rcases components_of_relative (isAbsolute_name n) with hc | ⟨hhere, -⟩
    · exact hc.trans hmoves
    · rw [pieces_name, List.mem_singleton] at hhere
      exact absurd (String.toList_inj.mp hhere.symm) n.text_ne_here
  rw [stripRoot, hcomponents]
  exact join_empty _

end Path

end ConfTree
