import ConfTree.Census
import ConfTree.Proofs.Directive.Walk

/-!
# What a census finds

A census is taken on a walk, which tells about a block in the middle of what it tells
about the tree. What comes of it can be said without the walk: it counts the directives
at all positions of the tree.

1. `ofTree_eq`: a census adds the directives of the outline one after the other.
2. `insertFile_sorted`, `eq_of_same_files`: the files are listed once, in ascending
   order.
3. `directives_foldl_add` and those behind it: what comes of adding several directives.
4. `map_told_outline`: the outline lists the directives at all positions.
   `IsCensus`, `isCensus_ofTree`: the counts of a tree.
   `maxDepth_ofTree_le`: no directive is deeper than the tree is high.
5. `ofTree_append`: the counts of two lists of directives, one behind the other.
   `ofTree_simple`, `ofTree_block`: the counts of one directive.
-/

namespace ConfTree

namespace Census

open Directive
  (at? heightAll outline outlineAllOnto outlineOnto positions positionsAll walk walkAll)

variable {c d : Census} {ds es : List Directive} {file other : String} {files : List String}

/-! ## 1. A census adds up an outline -/

/-- Adds a directive, with the number of blocks around it, and its block if there is
one. -/
def add (c : Census) (x : Nat × Directive) : Census :=
  let counted := c.addDirective x.2 x.1
  if x.2.isBlock then counted.addBlock else counted

mutual

theorem foldl_add_outlineOnto (around : Surroundings) (c : Census) (rest : List (Nat × Directive))
    (d : Directive) :
    (outlineOnto around.depth rest d).foldl add c =
      rest.foldl add ((walk visitor around d).run c).2 := by
  cases d with
  | simple head => rfl
  | block head body =>
    exact foldl_add_outlineAllOnto (around.inside (Directive.block head body).name)
      (c.add (around.depth, .block head body)) rest body

/-- Walking through directives adds those of their outline in turn. -/
theorem foldl_add_outlineAllOnto (around : Surroundings) (c : Census)
    (rest : List (Nat × Directive)) (ds : List Directive) :
    (outlineAllOnto around.depth rest ds).foldl add c =
      rest.foldl add ((walkAll visitor around ds).run c).2 := by
  cases ds with
  | nil => rfl
  | cons d ds =>
    rw [outlineAllOnto, foldl_add_outlineOnto around c _ d,
      foldl_add_outlineAllOnto around _ rest ds]
    rfl

end

/-- A census adds the directives of the outline one after the other. -/
theorem ofTree_eq (ds : List Directive) : ofTree ds = (outline ds).foldl add {} :=
  (foldl_add_outlineAllOnto {} {} [] ds).symm

/-! ## 2. Files -/

theorem mem_insertFile : file ∈ insertFile other files ↔ file = other ∨ file ∈ files := by
  induction files with
  | nil => simp [insertFile]
  | cons first files ih =>
    unfold insertFile
    split
    · next heq => simp [heq]
    · split
      · exact List.mem_cons
      · rw [List.mem_cons, List.mem_cons, ih]
        exact or_left_comm

/-- One more file leaves the list in ascending order. -/
theorem insertFile_sorted (h : files.Pairwise (· < ·)) :
    (insertFile other files).Pairwise (· < ·) := by
  induction files with
  | nil => exact List.pairwise_singleton _ _
  | cons first files ih =>
    obtain ⟨hfirst, hfiles⟩ := List.pairwise_cons.mp h
    unfold insertFile
    split
    · exact h
    · next hne =>
      split
      · next hlt =>
        refine .cons (List.forall_mem_cons.mpr ⟨hlt, fun file hfile => ?_⟩) h
        exact String.lt_trans hlt (hfirst file hfile)
      · next hge =>
        have hlt : first < other := String.not_le.mp fun hle =>
          hne (String.le_antisymm hle (String.not_lt.mp hge))
        refine .cons (fun file hfile => ?_) (ih hfiles)
        rcases mem_insertFile.mp hfile with rfl | hfile
        · exact hlt
        · exact hfirst file hfile

/-- Of two lists in ascending order, no text of which is missing in the other, each is
the other. -/
theorem eq_of_same_files {others : List String} (h : files.Pairwise (· < ·))
    (h' : others.Pairwise (· < ·)) (hsame : ∀ file, file ∈ files ↔ file ∈ others) :
    files = others := by
  have hnodup : ∀ {l : List String}, l.Pairwise (· < ·) → l.Nodup := by
    intro l hl
    refine hl.imp fun {a b} hlt heq => ?_
    rw [heq] at hlt
    exact String.lt_irrefl _ hlt
  have hperm := (List.perm_ext_iff_of_nodup (hnodup h) (hnodup h')).mpr hsame
  exact hperm.eq_of_pairwise (fun _ _ _ _ hab hba => absurd hba (String.lt_asymm hab)) h h'

/-! ## 3. Adding several directives -/

section Adding

variable (c : Census) (x : Nat × Directive) (l : List (Nat × Directive))

theorem directives_add : (c.add x).directives = c.directives + 1 := by
  unfold add
  dsimp only
  split <;> rfl

theorem blocks_add : (c.add x).blocks = c.blocks + if x.2.isBlock then 1 else 0 := by
  unfold add
  dsimp only
  split <;> rfl

theorem maxDepth_add : (c.add x).maxDepth = max c.maxDepth x.1 := by
  unfold add
  dsimp only
  split <;> rfl

theorem files_add : (c.add x).files = insertFile x.2.file c.files := by
  unfold add
  dsimp only
  split <;> rfl

theorem directives_foldl_add : (l.foldl add c).directives = c.directives + l.length := by
  induction l generalizing c with
  | nil => rfl
  | cons x l ih =>
    rw [List.foldl_cons, ih, directives_add, List.length_cons]
    omega

theorem blocks_foldl_add :
    (l.foldl add c).blocks = c.blocks + l.countP fun x => x.2.isBlock := by
  induction l generalizing c with
  | nil => rfl
  | cons x l ih =>
    rw [List.foldl_cons, ih, blocks_add, List.countP_cons]
    omega

/-- The depth found is the least that is not less than any. -/
theorem maxDepth_foldl_add_le_iff {n : Nat} :
    (l.foldl add c).maxDepth ≤ n ↔ c.maxDepth ≤ n ∧ ∀ x ∈ l, x.1 ≤ n := by
  induction l generalizing c with
  | nil => simp
  | cons x l ih =>
    rw [List.foldl_cons, ih, maxDepth_add, Nat.max_le, List.forall_mem_cons, and_assoc]

theorem mem_files_foldl_add :
    file ∈ (l.foldl add c).files ↔ file ∈ c.files ∨ ∃ x ∈ l, x.2.file = file := by
  induction l generalizing c with
  | nil => simp
  | cons x l ih =>
    simp only [List.foldl_cons, ih, files_add, mem_insertFile, List.mem_cons, exists_eq_or_imp,
      or_assoc, or_left_comm]
    exact or_congr_right (or_congr_left eq_comm)

theorem files_foldl_add_sorted (h : c.files.Pairwise (· < ·)) :
    (l.foldl add c).files.Pairwise (· < ·) := by
  induction l generalizing c with
  | nil => exact h
  | cons x l ih =>
    refine ih (c.add x) ?_
    rw [files_add]
    exact insertFile_sorted h

end Adding

/-! ## 4. The directives at all positions -/

mutual

theorem outlineOnto_append (depth : Nat) (rest more : List (Nat × Directive)) (d : Directive) :
    outlineOnto depth (rest ++ more) d = outlineOnto depth rest d ++ more := by
  cases d with
  | simple head => rfl
  | block head body =>
    rw [outlineOnto, outlineOnto, outlineAllOnto_append (depth + 1) rest more body]
    rfl

theorem outlineAllOnto_append (depth : Nat) (rest more : List (Nat × Directive))
    (ds : List Directive) :
    outlineAllOnto depth (rest ++ more) ds = outlineAllOnto depth rest ds ++ more := by
  cases ds with
  | nil => rfl
  | cons d ds =>
    rw [outlineAllOnto, outlineAllOnto, outlineAllOnto_append depth rest more ds,
      outlineOnto_append depth _ more d]

end

/-- What an outline tells of a directive, where there might be none. -/
def told (x : Nat × Directive) : Nat × Option Directive := (x.1, some x.2)

mutual

theorem map_told_outlineOnto (depth : Nat) (d : Directive) :
    (outlineOnto depth [] d).map told =
      (depth, some d) :: (positions d).map fun p => (depth + p.length, at? d.body p) := by
  cases d with
  | simple head => rfl
  | block head body =>
    have hbody := map_told_outlineAllOnto (depth + 1) [] body
    have hdepth : ∀ p ∈ positionsAll 0 body, depth + 1 + (p.length - 1) = depth + p.length := by
      intro p hp
      have hpos := List.length_pos_iff.mpr (Directive.positionsAll_ne_nil 0 body p hp)
      omega
    rw [outlineOnto, List.map_cons, hbody]
    refine congrArg _ (List.map_congr_left fun p hp => ?_)
    rw [hdepth p hp]
    rfl

/-- An outline lists the directives at the positions, in order. -/
theorem map_told_outlineAllOnto (depth : Nat) (before ds : List Directive) :
    (outlineAllOnto depth [] ds).map told =
      (positionsAll before.length ds).map fun p =>
        (depth + (p.length - 1), at? (before ++ ds) p) := by
  cases ds with
  | nil => rfl
  | cons d ds =>
    have hfirst := map_told_outlineOnto depth d
    have hrest := map_told_outlineAllOnto depth (before ++ [d]) ds
    have hd : (before ++ d :: ds)[before.length]? = some d := by simp
    have hinner : (positions d).map (fun p => (depth + p.length, at? d.body p)) =
        ((positions d).map (before.length :: ·)).map fun p =>
          (depth + (p.length - 1), at? (before ++ d :: ds) p) := by
      rw [List.map_map]
      refine List.map_congr_left fun p hp => ?_
      rw [Function.comp_apply, Directive.at?_cons hd (Directive.positions_ne_nil d p hp)]
      rfl
    rw [List.length_append, List.length_singleton, List.append_assoc, List.singleton_append]
      at hrest
    rw [outlineAllOnto, ← List.nil_append (outlineAllOnto depth [] ds), outlineOnto_append,
      List.map_append, hfirst, hrest, hinner, positionsAll, List.map_cons, List.map_append,
      List.cons_append, at?, hd]
    rfl

end

theorem outline_append (ds es : List Directive) :
    outline (ds ++ es) = outline ds ++ outline es := by
  have hfront :
      outlineAllOnto 0 [] (ds ++ es) = outlineAllOnto 0 (outlineAllOnto 0 [] es) ds := by
    induction ds with
    | nil => rfl
    | cons d ds ih => rw [List.cons_append, outlineAllOnto, ih, outlineAllOnto]
  rw [outline, hfront, ← List.nil_append (outlineAllOnto 0 [] es), outlineAllOnto_append]
  rfl

/-- The census counts what stands at the positions of the directives `ds`.

* `positions`: all positions at which a directive stands, and in ascending order, so
  that there are as many directives as positions.
* `depth_le`, `depth_eq`: the depth of a directive is one less than the length of its
  position. None is deeper than the depth found, and one is as deep.
* `files_sorted`, `mem_files`: the files are those of the directives, each once. -/
structure IsCensus (ds : List Directive) (c : Census) : Prop where
  positions : ∃ positions : List (List Nat), positions.Pairwise (· < ·) ∧
    (∀ p, p ∈ positions ↔ (at? ds p).isSome = true) ∧
    c.directives = positions.length ∧
    c.blocks = positions.countP fun p => (at? ds p).any Directive.isBlock
  depth_le : ∀ p, (at? ds p).isSome = true → p.length ≤ c.maxDepth + 1
  depth_eq : if ds = [] then c.maxDepth = 0
    else ∃ p, (at? ds p).isSome = true ∧ p.length = c.maxDepth + 1
  files_sorted : c.files.Pairwise (· < ·)
  mem_files : ∀ file, file ∈ c.files ↔ ∃ p d, at? ds p = some d ∧ d.file = file

theorem mem_positionsAll_zero_iff {p : List Nat} :
    p ∈ positionsAll 0 ds ↔ (at? ds p).isSome = true :=
  Directive.mem_positions_iff (d := .block default ds)

/-- What the outline tells is what stands at the positions. -/
theorem map_told_outline (ds : List Directive) :
    (outline ds).map told = (positionsAll 0 ds).map fun p => (p.length - 1, at? ds p) := by
  have hmap := map_told_outlineAllOnto 0 [] ds
  simp only [Nat.zero_add, List.nil_append] at hmap
  exact hmap

theorem length_eq_of_at? {p : List Nat} (h : (at? ds p).isSome = true) :
    p.length = p.length - 1 + 1 := by
  have hne := Directive.positionsAll_ne_nil 0 ds p (mem_positionsAll_zero_iff.mpr h)
  have hpos := List.length_pos_iff.mpr hne
  omega

theorem mem_outline_iff {depth : Nat} {d : Directive} :
    (depth, d) ∈ outline ds ↔ ∃ p, at? ds p = some d ∧ p.length = depth + 1 := by
  constructor
  · intro h
    have hmem : told (depth, d) ∈ (outline ds).map told := List.mem_map_of_mem h
    rw [map_told_outline] at hmem
    obtain ⟨p, hp, heq⟩ := List.mem_map.mp hmem
    obtain ⟨rfl, hd⟩ := Prod.mk.inj heq
    exact ⟨p, hd, length_eq_of_at? (mem_positionsAll_zero_iff.mp hp)⟩
  · rintro ⟨p, hd, hlength⟩
    have hp : p ∈ positionsAll 0 ds := mem_positionsAll_zero_iff.mpr (by simp [hd])
    have hmem : (p.length - 1, at? ds p) ∈ (outline ds).map told := by
      rw [map_told_outline]
      exact List.mem_map_of_mem hp
    obtain ⟨⟨m, e⟩, hme, heq⟩ := List.mem_map.mp hmem
    rw [hlength, hd] at heq
    cases heq
    exact hme

/-- How many directives of a kind the outline lists. -/
theorem countP_outline (test : Directive → Bool) :
    ((outline ds).countP fun x => test x.2) =
      (positionsAll 0 ds).countP fun p => (at? ds p).any test := by
  have hcount := congrArg (List.countP fun y : Nat × Option Directive => y.2.any test)
    (map_told_outline ds)
  rwa [List.countP_map, List.countP_map] at hcount

theorem maxDepth_ofTree_le_iff {n : Nat} :
    (ofTree ds).maxDepth ≤ n ↔ ∀ x ∈ outline ds, x.1 ≤ n := by
  rw [ofTree_eq, maxDepth_foldl_add_le_iff]
  exact and_iff_right (Nat.zero_le n)

/-- There is a directive at the depth that is found. -/
theorem exists_mem_outline_maxDepth (hne : ds ≠ []) :
    ∃ d, ((ofTree ds).maxDepth, d) ∈ outline ds := by
  obtain ⟨d, es, rfl⟩ := List.exists_cons_of_ne_nil hne
  have hfirst : (0, d) ∈ outline (d :: es) := mem_outline_iff.mpr ⟨[0], rfl, rfl⟩
  -- Were no directive as deep, a smaller number would do.
  refine Classical.byContradiction fun hnone => ?_
  have hless : ∀ x ∈ outline (d :: es), x.1 < (ofTree (d :: es)).maxDepth := by
    intro x hx
    have hle := maxDepth_ofTree_le_iff.mp (Nat.le_refl _) x hx
    exact Nat.lt_of_le_of_ne hle fun heq => hnone ⟨x.2, heq ▸ hx⟩
  have hpos := hless _ hfirst
  have hsmaller := maxDepth_ofTree_le_iff.mpr fun x hx => Nat.le_sub_one_of_lt (hless x hx)
  omega

/-- A census counts all directives of a tree, wherever they stand in it. -/
theorem isCensus_ofTree (ds : List Directive) : IsCensus ds (ofTree ds) := by
  have hlength : (outline ds).length = (positionsAll 0 ds).length := by
    simpa using congrArg List.length (map_told_outline ds)
  refine ⟨⟨positionsAll 0 ds, Directive.positionsAll_sorted 0 ds,
    fun _ => mem_positionsAll_zero_iff, ?_, ?_⟩, fun p hp => ?_, ?_, ?_, fun file => ?_⟩
  · rw [ofTree_eq, directives_foldl_add, hlength]
    exact Nat.zero_add _
  · rw [ofTree_eq, blocks_foldl_add, countP_outline]
    exact Nat.zero_add _
  · obtain ⟨d, hd⟩ := Option.isSome_iff_exists.mp hp
    have hmem : (p.length - 1, d) ∈ outline ds := mem_outline_iff.mpr ⟨p, hd, length_eq_of_at? hp⟩
    have hdepth := maxDepth_ofTree_le_iff.mp (Nat.le_refl _) _ hmem
    rw [length_eq_of_at? hp]
    exact Nat.succ_le_succ hdepth
  · split
    · next hnil =>
      subst hnil
      rfl
    · next hne =>
      obtain ⟨d, hmem⟩ := exists_mem_outline_maxDepth hne
      obtain ⟨p, hd, hp⟩ := mem_outline_iff.mp hmem
      exact ⟨p, Option.isSome_of_eq_some hd, hp⟩
  · rw [ofTree_eq]
    exact files_foldl_add_sorted _ _ .nil
  · rw [ofTree_eq, mem_files_foldl_add, or_iff_right List.not_mem_nil]
    constructor
    · rintro ⟨⟨depth, d⟩, hmem, rfl⟩
      obtain ⟨p, hd, -⟩ := mem_outline_iff.mp hmem
      exact ⟨p, d, hd, rfl⟩
    · rintro ⟨p, d, hd, rfl⟩
      have hstands : (at? ds p).isSome = true := Option.isSome_of_eq_some hd
      exact ⟨(p.length - 1, d), mem_outline_iff.mpr ⟨p, hd, length_eq_of_at? hstands⟩, rfl⟩

mutual

theorem depth_le_of_mem_outlineOnto (depth : Nat) (rest : List (Nat × Directive)) (d : Directive) :
    ∀ x ∈ outlineOnto depth rest d, x.1 ≤ depth + Directive.height d ∨ x ∈ rest := by
  cases d with
  | simple head =>
    refine List.forall_mem_cons.mpr ⟨.inl (Nat.le_add_right _ _), fun _ hx => .inr hx⟩
  | block head body =>
    refine List.forall_mem_cons.mpr ⟨.inl (Nat.le_add_right _ _), fun x hx => ?_⟩
    rw [Directive.height]
    exact (depth_le_of_mem_outlineAllOnto (depth + 1) rest body x hx).imp_left (by omega)

/-- No directive stands in more blocks than the tree is high. -/
theorem depth_le_of_mem_outlineAllOnto (depth : Nat) (rest : List (Nat × Directive))
    (ds : List Directive) :
    ∀ x ∈ outlineAllOnto depth rest ds, x.1 ≤ depth + heightAll ds ∨ x ∈ rest := by
  cases ds with
  | nil => exact fun _ hx => .inr hx
  | cons d ds =>
    intro x hx
    rw [heightAll]
    rcases depth_le_of_mem_outlineOnto depth _ d x hx with hfirst | hx
    · exact .inl (by omega)
    · exact (depth_le_of_mem_outlineAllOnto depth rest ds x hx).imp_left (by omega)

end

theorem maxDepth_ofTree_le (ds : List Directive) : (ofTree ds).maxDepth ≤ heightAll ds := by
  refine maxDepth_ofTree_le_iff.mpr fun x hx => ?_
  have hdepth := depth_le_of_mem_outlineAllOnto 0 [] ds x hx
  simpa using hdepth

/-! ## 5. Lists of directives -/

/-- The counts of two lists of directives, one behind the other, are the sums of theirs,
the greater depth, and the files of both. -/
theorem ofTree_append (ds es : List Directive) :
    (ofTree (ds ++ es)).directives = (ofTree ds).directives + (ofTree es).directives ∧
      (ofTree (ds ++ es)).blocks = (ofTree ds).blocks + (ofTree es).blocks ∧
      (ofTree (ds ++ es)).maxDepth = max (ofTree ds).maxDepth (ofTree es).maxDepth ∧
      ∀ file, file ∈ (ofTree (ds ++ es)).files ↔
        file ∈ (ofTree ds).files ∨ file ∈ (ofTree es).files := by
  refine ⟨?_, ?_, ?_, fun file => ?_⟩
  · simp only [ofTree_eq, outline_append, directives_foldl_add, List.length_append]
    omega
  · simp only [ofTree_eq, outline_append, blocks_foldl_add, List.countP_append]
    omega
  · have hle : ∀ n, (ofTree (ds ++ es)).maxDepth ≤ n ↔
        max (ofTree ds).maxDepth (ofTree es).maxDepth ≤ n := by
      intro n
      rw [Nat.max_le, maxDepth_ofTree_le_iff, maxDepth_ofTree_le_iff, maxDepth_ofTree_le_iff,
        outline_append, List.forall_mem_append]
    exact Nat.le_antisymm ((hle _).mpr (Nat.le_refl _)) ((hle _).mp (Nat.le_refl _))
  · simp only [ofTree_eq, outline_append, mem_files_foldl_add, List.mem_append, or_and_right,
      exists_or]
    grind

/-- The order of the two does not matter. -/
theorem ofTree_append_comm (ds es : List Directive) : ofTree (ds ++ es) = ofTree (es ++ ds) := by
  obtain ⟨hdirectives, hblocks, hdepth, hfiles⟩ := ofTree_append ds es
  obtain ⟨hdirectives', hblocks', hdepth', hfiles'⟩ := ofTree_append es ds
  have hsame : (ofTree (ds ++ es)).files = (ofTree (es ++ ds)).files :=
    eq_of_same_files (isCensus_ofTree _).files_sorted (isCensus_ofTree _).files_sorted
      fun file => by rw [hfiles, hfiles', or_comm]
  have heq : ∀ {c d : Census}, c.directives = d.directives → c.blocks = d.blocks →
      c.maxDepth = d.maxDepth → c.files = d.files → c = d := by
    rintro ⟨⟩ ⟨⟩ rfl rfl rfl rfl
    rfl
  refine heq ?_ ?_ ?_ hsame
  · rw [hdirectives, hdirectives', Nat.add_comm]
  · rw [hblocks, hblocks', Nat.add_comm]
  · rw [hdepth, hdepth', Nat.max_comm]

/-- A directive without a block counts for one. -/
theorem ofTree_simple (head : Statement) :
    (ofTree [.simple head]).directives = 1 ∧ (ofTree [.simple head]).blocks = 0 := ⟨rfl, rfl⟩

/-- A directive with a block counts for one more than what is in the block, and so does
the block. -/
theorem ofTree_block (head : Statement) (body : List Directive) :
    (ofTree [.block head body]).directives = (ofTree body).directives + 1 ∧
      (ofTree [.block head body]).blocks = (ofTree body).blocks + 1 := by
  have hinner : (outlineAllOnto 1 [] body).map Prod.snd = (outline body).map Prod.snd := by
    have hsome : ∀ depth, ((outlineAllOnto depth [] body).map Prod.snd).map some =
        (positionsAll 0 body).map (at? body) := by
      intro depth
      have hmap := congrArg (List.map Prod.snd) (map_told_outlineAllOnto depth [] body)
      simpa [told, Function.comp_def] using hmap
    exact List.map_inj_right (fun _ _ => Option.some.inj) |>.mp ((hsome 1).trans (hsome 0).symm)
  have hlength := congrArg List.length hinner
  have hcount := congrArg (List.countP Directive.isBlock) hinner
  simp only [List.length_map, List.countP_map, Function.comp_def] at hlength hcount
  have houtline : outline [.block head body] = (0, .block head body) :: outlineAllOnto 1 [] body :=
    rfl
  simp only [ofTree_eq, houtline, directives_foldl_add, blocks_foldl_add, List.length_cons,
    List.countP_cons, hlength, hcount]
  exact ⟨rfl, rfl⟩

end Census

end ConfTree
