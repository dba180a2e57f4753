import ConfTree.Proofs.Path.Pieces

/-!
# Cleaned paths are normal forms

Cleaning a path resolves its dots without looking at any file. The result leads to
the same place as the path, wherever one is, and it is the only text that does so
and has been cleaned. So paths can be compared by cleaning them.

1. `foldl_act_settled`: resolving dots keeps to the place that is led to.
2. `exists_settled`: what is left are names behind the root or behind `..`.
3. `pieces_clean`, `isAbsolute_clean`, `moves_clean`: the text that is left.
4. `clean_eq_of_act`: paths that lead to one place from far enough inside are
   cleaned alike.
5. `clean_canonical`: cleaned paths are normal forms.
-/

namespace ConfTree

namespace Path

/-! ## 1. Places -/

/-- Taking one more component keeps to the place that it leads to. -/
theorem foldl_act_settle (kept : List Component) (c : Component) (place : List Name) :
    (settle kept c).reverse.foldl (fun place c => c.act place) place =
      c.act (kept.reverse.foldl (fun place c => c.act place) place) := by
  cases c with
  | root => simp [settle]
  | here => rfl
  | name n => simp [settle]
  | up =>
    cases kept with
    | nil => rfl
    | cons last before => cases last <;> simp [settle]

theorem foldl_act_settled (p : Path) (place : List Name) :
    p.settled.foldl (fun place c => c.act place) place = p.act place := by
  have hrun : ∀ cs kept : List Component,
      (cs.foldl settle kept).reverse.foldl (fun place c => c.act place) place =
        cs.foldl (fun place c => c.act place)
          (kept.reverse.foldl (fun place c => c.act place) place) := by
    intro cs
    induction cs with
    | nil => exact fun _ => rfl
    | cons c cs ih => exact fun kept => by rw [List.foldl_cons, ih, foldl_act_settle]; rfl
  exact hrun p.components []

/-! ## 2. What is left of a path -/

/-- Some steps up, and then the names of a way down. -/
def route (ups : Nat) (names : List Name) : List Component :=
  List.replicate ups .up ++ names.map .name

theorem isMove_of_mem_route {ups : Nat} {names : List Name} {c : Component}
    (h : c ∈ route ups names) : c.IsMove := by
  rcases List.mem_append.mp h with h | h
  · rw [List.eq_of_mem_replicate h]
    exact .up
  · exact Component.isMove_of_mem_names h

theorem foldl_act_route (ups : Nat) (names : List Name) (place : List Name) :
    (route ups names).foldl (fun place c => c.act place) place =
      names.reverse ++ place.drop ups := by
  have hups : (List.replicate ups Component.up).foldl (fun place c => c.act place) place =
      place.drop ups := by
    induction ups generalizing place with
    | zero => rfl
    | succ ups ih => rw [List.replicate_succ, List.foldl_cons, ih, Component.act_up, List.drop_tail]
  have hnames : ∀ place : List Name,
      (names.map Component.name).foldl (fun place c => c.act place) place =
        names.reverse ++ place := by
    induction names with
    | nil => exact fun _ => rfl
    | cons n names ih => exact fun place => by simp [ih]
  rw [route, List.foldl_append, hups, hnames]

/-- The root, if the path starts there. -/
def foot (absolute : Bool) : List Component := if absolute then [.root] else []

/-- One more move keeps names behind steps up, and no steps up behind the root. -/
theorem settle_route {absolute : Bool} {ups : Nat} {names : List Name} {c : Component}
    (hups : absolute = true → ups = 0) (hc : c.IsMove) :
    ∃ ups' names', (absolute = true → ups' = 0) ∧
      settle (foot absolute ++ route ups names).reverse c =
        (foot absolute ++ route ups' names').reverse := by
  cases hc with
  | name n =>
    refine ⟨ups, names ++ [n], hups, ?_⟩
    simp [settle, route]
  | up =>
    rcases List.eq_nil_or_concat names with rfl | ⟨names, n, rfl⟩
    · cases absolute with
      | true => exact ⟨0, [], fun _ => rfl, by simp [hups rfl, foot, route, settle]⟩
      | false =>
        have hkept : ∀ k, (foot false ++ route k []).reverse = List.replicate k .up := by
          simp [foot, route]
        refine ⟨ups + 1, [], by simp, ?_⟩
        rw [hkept, hkept]
        cases ups <;> rfl
    · exact ⟨ups, names, hups, by simp [settle, route]⟩

theorem exists_settled (p : Path) :
    ∃ ups names, (p.isAbsolute = true → ups = 0) ∧
      p.settled = foot p.isAbsolute ++ route ups names := by
  have hrun : ∀ (cs : List Component) (ups : Nat) (names : List Name),
      (∀ c ∈ cs, c.IsMove) → (p.isAbsolute = true → ups = 0) →
      ∃ ups' names', (p.isAbsolute = true → ups' = 0) ∧
        cs.foldl settle (foot p.isAbsolute ++ route ups names).reverse =
          (foot p.isAbsolute ++ route ups' names').reverse := by
    intro cs
    induction cs with
    | nil => exact fun ups names _ hups => ⟨ups, names, hups, rfl⟩
    | cons c cs ih =>
      intro ups names hcs hups
      obtain ⟨hc, hcs⟩ := List.forall_mem_cons.mp hcs
      obtain ⟨ups₁, names₁, hups₁, hstep⟩ := settle_route hups hc
      rw [List.foldl_cons, hstep]
      exact ih ups₁ names₁ hcs hups₁
  obtain ⟨ups, names, hups, hmoves⟩ :=
    hrun p.moves 0 [] (fun _ => isMove_of_mem_moves) (fun _ => rfl)
  refine ⟨ups, names, hups, ?_⟩
  -- Nothing is kept of a `.`, and the root is kept in front of the moves.
  have hstart : p.components.foldl settle [] =
      p.moves.foldl settle (foot p.isAbsolute ++ route 0 []).reverse := by
    cases h : p.isAbsolute with
    | true => rw [components_of_isAbsolute h]; rfl
    | false => rcases components_of_relative h with hc | ⟨-, hc⟩ <;> rw [hc] <;> rfl
  rw [settled, hstart, hmoves, List.reverse_reverse]

/-! ## 3. The text that is left -/

section Settled

variable {p : Path} {ups : Nat} {names : List Name}

theorem clean_of_moves (h : p.settled = foot p.isAbsolute ++ route ups names)
    (hne : route ups names ≠ []) :
    p.clean = ofComponents (foot p.isAbsolute ++ route ups names) := by
  rw [clean, h, if_neg (by simp [hne])]

/-- A path that is left with moves is these moves, and nothing that leads nowhere. -/
theorem pieces_clean (h : p.settled = foot p.isAbsolute ++ route ups names)
    (hne : route ups names ≠ []) :
    p.clean.pieces =
      (if p.isAbsolute then [[]] else []) ++ (route ups names).map fun c => c.text.toList := by
  rw [clean_of_moves h hne]
  cases p.isAbsolute with
  | true => exact pieces_ofComponents_root hne fun _ => isMove_of_mem_route
  | false => exact pieces_ofComponents hne fun _ => isMove_of_mem_route

/-- Of a path that moves nowhere, its start is left. -/
theorem clean_of_still (h : p.settled = foot p.isAbsolute) :
    p.clean = if p.isAbsolute then ⟨"/"⟩ else ⟨"."⟩ := by
  cases habs : p.isAbsolute with
  | true => simp [clean, h, habs, foot, ofComponents, extend, join_empty, Component.text]
  | false => simp [clean, h, habs, foot]

theorem moves_clean (h : p.settled = foot p.isAbsolute ++ route ups names) :
    p.clean.moves = route ups names := by
  by_cases hne : route ups names = []
  · rw [hne, List.append_nil] at h
    rw [clean_of_still h, hne]
    cases p.isAbsolute <;> decide
  · rw [clean_of_moves h hne]
    cases p.isAbsolute with
    | true => exact moves_ofComponents_root fun _ => isMove_of_mem_route
    | false => exact moves_ofComponents fun _ => isMove_of_mem_route

end Settled

/-- Cleaning keeps a path absolute, or relative. -/
theorem isAbsolute_clean (p : Path) : p.clean.isAbsolute = p.isAbsolute := by
  obtain ⟨ups, names, -, h⟩ := p.exists_settled
  by_cases hne : route ups names = []
  · rw [hne, List.append_nil] at h
    rw [clean_of_still h]
    cases p.isAbsolute <;> rfl
  · rw [clean_of_moves h hne]
    cases p.isAbsolute with
    | true => exact isAbsolute_ofComponents_root fun _ => isMove_of_mem_route
    | false => exact isAbsolute_ofComponents fun _ => isMove_of_mem_route

/-- A cleaned path leads to the same place as the path, wherever one is. -/
theorem act_clean (p : Path) (place : List Name) : p.clean.act place = p.act place := by
  obtain ⟨ups, names, -, h⟩ := p.exists_settled
  rw [act_eq, isAbsolute_clean, moves_clean h, ← foldl_act_settled p, h, List.foldl_append]
  cases p.isAbsolute <;> rfl

/-! ## 4. One normal form for each way -/

theorem exists_fresh (names : List Name) : ∃ n : Name, n ∉ names := by
  have hbound : ∃ bound, ∀ n ∈ names, n.text.length < bound := by
    induction names with
    | nil => exact ⟨0, fun n hn => absurd hn List.not_mem_nil⟩
    | cons n names ih =>
      obtain ⟨bound, hbound⟩ := ih
      refine ⟨max (n.text.length + 1) bound, List.forall_mem_cons.mpr ⟨by omega, fun m hm => ?_⟩⟩
      have hm := hbound m hm
      omega
  obtain ⟨bound, hbound⟩ := hbound
  -- A name that is longer than all of them.
  have hname : isName (String.ofList (List.replicate (bound + 3) 'a')) = true :=
    Name.isName_replicate (by omega) (by decide)
  refine ⟨⟨_, hname⟩, fun hmem => ?_⟩
  have hlength := hbound _ hmem
  simp only [String.length_ofList, List.length_replicate] at hlength
  omega

/-- Where all names are alike, a path shows how far up it leads and by which names
down. -/
theorem act_replicate {p : Path} {ups : Nat} {names : List Name}
    (h : p.settled = foot p.isAbsolute ++ route ups names) (length : Nat) (n : Name) :
    p.act (List.replicate length n) =
      names.reverse ++ List.replicate (if p.isAbsolute then 0 else length - ups) n := by
  rw [← foldl_act_settled, h, List.foldl_append, foldl_act_route]
  cases p.isAbsolute <;> simp [foot]

theorem clean_congr {p q : Path} (h : p.settled = q.settled) : p.clean = q.clean := by
  simp only [clean, h]

/-- Paths that lead to one place, wherever there is room enough, are cleaned alike. -/
theorem clean_eq_of_act {p q : Path} {depth : Nat}
    (h : ∀ place : List Name, depth ≤ place.length → p.act place = q.act place) :
    p.clean = q.clean := by
  obtain ⟨ups, names, hups, hp⟩ := p.exists_settled
  obtain ⟨ups', names', hups', hq⟩ := q.exists_settled
  obtain ⟨n, hn⟩ := exists_fresh (names ++ names')
  obtain ⟨hn, hn'⟩ := not_or.mp (mt List.mem_append.mpr hn)
  -- Deep enough for both, and by a name that neither path mentions.
  have hact := h (List.replicate (depth + ups + ups' + 1) n) (by rw [List.length_replicate]; omega)
  rw [act_replicate hp, act_replicate hq] at hact
  have hcount := congrArg (List.count n) hact
  simp only [List.count_append, List.count_reverse, List.count_replicate_self,
    List.count_eq_zero.mpr hn, List.count_eq_zero.mpr hn', Nat.zero_add] at hcount
  have hnames : names = names' := by
    rw [hcount] at hact
    exact List.reverse_inj.mp (List.append_cancel_right hact)
  have hstart : p.isAbsolute = q.isAbsolute ∧ ups = ups' := by
    cases hpabs : p.isAbsolute <;> cases hqabs : q.isAbsolute <;>
      simp only [hpabs, hqabs, Bool.false_eq_true, ↓reduceIte] at hcount
    · exact ⟨rfl, by omega⟩
    · omega
    · omega
    · exact ⟨rfl, (hups hpabs).trans (hups' hqabs).symm⟩
  exact clean_congr (by rw [hp, hq, hstart.1, hstart.2, hnames])

/-- Wherever two paths have room for their `..` they are deep enough. -/
theorem Agree.exists_depth {p q : Path} (h : p.Agree q) :
    ∃ depth, ∀ place : List Name, depth ≤ place.length → p.act place = q.act place :=
  ⟨max p.ups q.ups, fun place hplace =>
    h place (Nat.le_trans (Nat.le_max_left _ _) hplace)
      (Nat.le_trans (Nat.le_max_right _ _) hplace)⟩

/-- Cleaning tells paths apart exactly if they lead to different places. -/
theorem clean_eq_clean_iff {p q : Path} : p.clean = q.clean ↔ p.Agree q := by
  constructor
  · intro h place _ _
    rw [← act_clean p, h, act_clean q]
  · intro h
    obtain ⟨depth, hdepth⟩ := h.exists_depth
    exact clean_eq_of_act hdepth

theorem clean_clean (p : Path) : p.clean.clean = p.clean := by
  have hagree : p.clean.Agree p := fun place _ _ => act_clean p place
  exact clean_eq_clean_iff.mpr hagree

/-! ## 5. What a cleaned path is written with -/

theorem toList_ne_of_ne {text other : String} (h : text ≠ other) :
    text.toList ≠ other.toList := fun heq => h (String.toList_inj.mp heq)

/-- A `.` is left only of a path that leads nowhere. -/
theorem clean_of_mem_here {p : Path} (h : ['.'] ∈ p.clean.pieces) : p.clean = ⟨"."⟩ := by
  obtain ⟨ups, names, -, hp⟩ := p.exists_settled
  by_cases hne : route ups names = []
  · rw [hne, List.append_nil] at hp
    rw [clean_of_still hp] at h ⊢
    cases habs : p.isAbsolute with
    | true => rw [habs] at h; exact absurd h (by decide)
    | false => rfl
  · rw [pieces_clean hp hne] at h
    rcases List.mem_append.mp h with h | h
    · cases p.isAbsolute <;> simp at h
    · -- Moves are not written as a single dot.
      obtain ⟨c, hc, htext⟩ := List.mem_map.mp h
      cases isMove_of_mem_route hc with
      | up => exact absurd htext (by decide)
      | name n => exact absurd htext (toList_ne_of_ne n.text_ne_here)

/-- Only `..` are left in front of a `..`, and none behind the root. -/
theorem up_of_pieces_clean {p : Path} {front behind : List (List Char)}
    (h : p.clean.pieces = front ++ ['.', '.'] :: behind) :
    p.clean.isAbsolute = false ∧ ∀ piece ∈ front, piece = ['.', '.'] := by
  obtain ⟨ups, names, hups, hp⟩ := p.exists_settled
  have hname : ['.', '.'] ∉ names.map fun n => n.text.toList := by
    intro hmem
    obtain ⟨n, -, htext⟩ := List.mem_map.mp hmem
    exact toList_ne_of_ne n.text_ne_up htext
  have htexts : (route ups names).map (fun c => c.text.toList) =
      List.replicate ups ['.', '.'] ++ names.map fun n => n.text.toList := by
    simp only [route, List.map_append, List.map_replicate, List.map_map]
    rfl
  by_cases hne : route ups names = []
  · rw [hne, List.append_nil] at hp
    have hmem : ['.', '.'] ∈ p.clean.pieces := by simp [h]
    rw [clean_of_still hp] at hmem
    cases habs : p.isAbsolute <;> rw [habs] at hmem <;> exact absurd hmem (by decide)
  · rw [pieces_clean hp hne, htexts] at h
    rw [isAbsolute_clean]
    cases habs : p.isAbsolute with
    | true =>
      have hmem : ['.', '.'] ∈ front ++ ['.', '.'] :: behind := by simp
      rw [← h, habs, hups habs] at hmem
      simp at hmem
      exact absurd hmem (by simpa using hname)
    | false =>
      refine ⟨rfl, fun piece hpiece => ?_⟩
      simp only [habs, Bool.false_eq_true, ↓reduceIte, List.nil_append] at h
      rcases List.append_eq_append_iff.mp h with ⟨between, -, hnames⟩ | ⟨between, hreplicate, -⟩
      · exact absurd (by simp [hnames]) hname
      · exact List.eq_of_mem_replicate (hreplicate ▸ List.mem_append_left _ hpiece)

theorem isClean_clean (p : Path) : IsClean p.clean.components := by
  obtain ⟨ups, names, hups, hp⟩ := p.exists_settled
  cases habs : p.isAbsolute with
  | true =>
    rw [components_of_isAbsolute ((isAbsolute_clean p).trans habs), moves_clean hp, hups habs]
    exact .absolute names
  | false =>
    rcases components_of_relative ((isAbsolute_clean p).trans habs) with hc | ⟨hhere, -⟩
    · by_cases hne : route ups names = []
      · rw [hne, List.append_nil] at hp
        rw [clean_of_still hp, habs]
        exact .here
      · rw [hc, moves_clean hp]
        refine .relative ups names (Nat.pos_of_ne_zero fun hzero => hne ?_)
        obtain ⟨rfl, hnames⟩ := Nat.add_eq_zero_iff.mp hzero
        rw [List.eq_nil_of_length_eq_zero hnames]
        rfl
    · rw [clean_of_mem_here hhere]
      exact .here

theorem IsClean.ne_nil {cs : List Component} (h : IsClean cs) : cs ≠ [] := by
  cases h with
  | here => simp
  | absolute names => simp
  | relative ups names hpos =>
    intro hnil
    have hlength := congrArg List.length hnil
    simp only [List.length_append, List.length_replicate, List.length_map, List.length_nil]
      at hlength
    omega

/-- A cleaned path has a text. -/
theorem clean_ne_empty (p : Path) : p.clean ≠ ⟨""⟩ := by
  intro hempty
  have hne := p.isClean_clean.ne_nil
  rw [hempty] at hne
  exact hne (by decide)

/-- Behind the root of a cleaned path are names only. -/
theorem stripRoot_clean {p : Path} (h : p.isAbsolute = true) :
    ∃ names : List Name, p.clean.stripRoot = ofComponents (names.map .name) := by
  obtain ⟨ups, names, hups, hp⟩ := p.exists_settled
  refine ⟨names, ?_⟩
  have hcomponents : p.clean.components = .root :: names.map .name := by
    rw [components_of_isAbsolute ((isAbsolute_clean p).trans h), moves_clean hp, hups h]
    rfl
  have hnames : (names.map Component.name).filter (· != .root) = names.map .name := by
    simp [List.filter_eq_self]
  rw [stripRoot, hcomponents, List.filter_cons_of_neg (by simp), hnames]

/-- Names behind a path stay below the place that it leads to. -/
theorem act_join_names (root : Path) (names : List Name) (place : List Name) :
    (root.join (ofComponents (names.map .name))).act place =
      names.reverse ++ root.act place := by
  have hmoves : ∀ c ∈ names.map Component.name, c.IsMove := fun _ => Component.isMove_of_mem_names
  rw [act_join (isAbsolute_ofComponents hmoves), act_eq, isAbsolute_ofComponents hmoves,
    moves_ofComponents hmoves]
  exact foldl_act_route 0 names _

theorem up_not_mem_names (names : List Name) :
    ['.', '.'] ∉ (ofComponents (names.map .name)).pieces := by
  cases names with
  | nil => decide
  | cons n names =>
    have hmoves : ∀ c ∈ (n :: names).map Component.name, c.IsMove := fun _ =>
      Component.isMove_of_mem_names
    rw [pieces_ofComponents (by simp) hmoves]
    intro hmem
    obtain ⟨c, hc, htext⟩ := List.mem_map.mp hmem
    obtain ⟨m, -, rfl⟩ := List.mem_map.mp hc
    exact toList_ne_of_ne m.text_ne_up htext

/-- Cleaned paths are normal forms.

A cleaned path leads to the same place as the path, wherever one is, and is absolute
if the path is. It is written as a single `.`, or as names behind the root, or as names
behind `..`; no other `.` is left, and no `..` but in front of a relative path. Cleaning
it again changes nothing, and two paths are cleaned alike exactly if they lead to the
same place from wherever there is room for their `..`, or only from all places that are
deep enough.

So what is left of an absolute path behind its root has no `..`, and wherever it is
joined to a root it leads to that root or below it. -/
theorem clean_canonical (p q : Path) :
    (∀ place, p.clean.act place = p.act place) ∧
    p.clean.isAbsolute = p.isAbsolute ∧
    IsClean p.clean.components ∧
    (['.'] ∈ p.clean.pieces → p.clean = ⟨"."⟩) ∧
    (∀ front behind, p.clean.pieces = front ++ ['.', '.'] :: behind →
      p.clean.isAbsolute = false ∧ ∀ piece ∈ front, piece = ['.', '.']) ∧
    p.clean.clean = p.clean ∧
    (p.clean = q.clean ↔ p.Agree q) ∧
    (p.Agree q ↔ ∃ depth, ∀ place, depth ≤ place.length → p.act place = q.act place) ∧
    (p.isAbsolute = true →
      ['.', '.'] ∉ p.clean.stripRoot.pieces ∧
      ∀ (root : Path) (place : List Name),
        root.act place <:+ (root.join p.clean.stripRoot).act place) := by
  refine ⟨act_clean p, isAbsolute_clean p, isClean_clean p, clean_of_mem_here,
    fun _ _ => up_of_pieces_clean, clean_clean p, clean_eq_clean_iff, ?_, fun habs => ?_⟩
  · exact ⟨Agree.exists_depth, fun ⟨_, h⟩ => clean_eq_clean_iff.mp (clean_eq_of_act h)⟩
  · obtain ⟨names, hnames⟩ := stripRoot_clean habs
    rw [hnames]
    refine ⟨up_not_mem_names names, fun root place => ?_⟩
    rw [act_join_names]
    exact List.suffix_append _ _

/-- An absolute path that climbs above the root, a relative one that climbs above where
it starts, and one that leads nowhere. -/
theorem clean_canonical_climbing :
    let absolute : Path := ⟨"/a/../../b//./c/"⟩
    let relative : Path := ⟨"./a/../.././../b"⟩
    absolute.clean = Path.clean ⟨"/b/c"⟩ ∧
    ['.', '.'] ∉ absolute.clean.stripRoot.pieces ∧
    (Path.act ⟨"/etc/nginx"⟩ [] <:+ (Path.join ⟨"/etc/nginx"⟩ absolute.clean.stripRoot).act []) ∧
    relative.clean.pieces = [['.', '.']] ++ ['.', '.'] :: [['b']] ∧
    relative.clean.isAbsolute = false ∧ (['.', '.'] : List Char) = ['.', '.'] ∧
    ['.'] ∈ (Path.clean ⟨"a/./.."⟩).pieces ∧ Path.clean ⟨"a/./.."⟩ = ⟨"."⟩ := by
  intro absolute relative
  obtain ⟨-, -, -, -, -, -, hiff, hagree, hroot⟩ := clean_canonical absolute ⟨"/b/c"⟩
  obtain ⟨-, -, -, -, hup, -⟩ := clean_canonical relative ⟨"../../b"⟩
  obtain ⟨-, -, -, hhere, -⟩ := clean_canonical ⟨"a/./.."⟩ ⟨"."⟩
  have hact : ∀ place, absolute.act place = Path.act ⟨"/b/c"⟩ place := fun place => by
    have hcomponents : absolute.components =
        [.root, .name ⟨"a", by decide⟩, .up, .up, .name ⟨"b", by decide⟩,
          .name ⟨"c", by decide⟩] := by decide
    have hdirect : Path.components ⟨"/b/c"⟩ =
        [.root, .name ⟨"b", by decide⟩, .name ⟨"c", by decide⟩] := by decide
    rw [act, act, hcomponents, hdirect]
    rfl
  have hsame : absolute.Agree ⟨"/b/c"⟩ := hagree.mpr ⟨0, fun place _ => hact place⟩
  obtain ⟨hnone, hbelow⟩ := hroot (by decide)
  have hpieces : relative.clean.pieces = [['.', '.']] ++ ['.', '.'] :: [['b']] := by decide
  obtain ⟨hrelative, hfront⟩ := hup _ _ hpieces
  have hmem : ['.'] ∈ (Path.clean ⟨"a/./.."⟩).pieces := by decide
  exact ⟨hiff.mpr hsame, hnone, hbelow _ _, hpieces, hrelative,
    hfront _ List.mem_cons_self, hmem, hhere hmem⟩

end Path

end ConfTree
