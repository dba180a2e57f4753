import ConfTree.Walk.Trace

/-!
# A walk is a fold over the events of a tree

1. `tells_walkTree`: a walk tells the events of the tree one after the other, whatever
   the visitor does, and ends at the first failure.
2. `closes_eventsAll`: the events are well bracketed, and each names the blocks around
   its directive.
3. `visited_eventsAll`: each directive is visited once, before those in its block.
4. `alike_of_cues`: names and blocks can be read off the events.
5. `walk_is_fold`: all of it together.
-/

namespace ConfTree

namespace Visitor

variable {σ ε : Type} {v : Visitor (ExceptT ε (StateM σ))}

/-! ## 1. Walking -/

/-- What goes on behind something that was told, unless it failed. -/
def resume (behind : σ → Except ε Unit × σ) : Except ε Unit × σ → Except ε Unit × σ
  | (.ok (), state) => behind state
  | (.error failure, state) => (.error failure, state)

theorem tellAll_append (events more : List Event) (state : σ) :
    v.tellAll (events ++ more) state = resume (v.tellAll more) (v.tellAll events state) := by
  induction events generalizing state with
  | nil => rfl
  | cons event events ih =>
    rw [List.cons_append, tellAll, tellAll]
    match (v.handle event).run.run state with
    | (.ok (), state) => exact ih state
    | (.error failure, state) => rfl

theorem run_bind (first second : ExceptT ε (StateM σ) Unit) (state : σ) :
    (do first; second : ExceptT ε (StateM σ) Unit).run.run state =
      resume second.run.run (first.run.run state) := by
  rw [ExceptT.run_bind, StateT.run_bind]
  match first.run.run state with
  | (.ok (), state) => rfl
  | (.error failure, state) => rfl

/-- From every state, the action does what comes of telling the visitor the events. -/
def Tells (v : Visitor (ExceptT ε (StateM σ))) (action : ExceptT ε (StateM σ) Unit)
    (events : List Event) : Prop :=
  ∀ state, action.run.run state = v.tellAll events state

theorem tells_handle (event : Event) : v.Tells (v.handle event) [event] := by
  intro state
  rw [tellAll]
  match (v.handle event).run.run state with
  | (.ok (), state) => rfl
  | (.error failure, state) => rfl

theorem Tells.bind {first second : ExceptT ε (StateM σ) Unit} {events more : List Event}
    (h : v.Tells first events) (h' : v.Tells second more) :
    v.Tells (do first; second) (events ++ more) := by
  intro state
  rw [run_bind, h state, tellAll_append]
  match v.tellAll events state with
  | (.ok (), state) => exact h' state
  | (.error failure, state) => rfl

mutual

theorem tells_walk (c : Surroundings) (d : Directive) :
    v.Tells (Directive.walk v c d) (d.events c) := by
  cases d with
  | simple head => exact tells_handle (.visit (.simple head) c)
  | block head body =>
    have hbody := (tells_walkAll (c.inside (Directive.block head body).name) body).bind
      (tells_handle (.endBlock (.block head body) c))
    exact (tells_handle (.visit (.block head body) c)).bind
      ((tells_handle (.beginBlock (.block head body) c)).bind hbody)

theorem tells_walkAll (c : Surroundings) (ds : List Directive) :
    v.Tells (Directive.walkAll v c ds) (Directive.eventsAll c ds) := by
  cases ds with
  | nil => exact fun _ => rfl
  | cons d ds => exact (tells_walk c d).bind (tells_walkAll c ds)

end

/-- A walk tells the events of the tree in order. -/
theorem tells_walkTree (ds : List Directive) :
    v.Tells (Directive.walkTree v ds) (Directive.treeEvents ds) := by
  have hwalk := (tells_walkAll (v := v) {} ds).bind (tells_handle (.endTree ds))
  exact (tells_handle (.beginTree ds)).bind hwalk

end Visitor

namespace Directive

/-! ## 2. Brackets -/

/-- One more name, and one more to the depth. -/
theorem names_inside {c : Surroundings} {opened : List Directive} {d : Directive}
    (h : c.Names opened) : (c.inside d.name).Names (d :: opened) where
  path_eq := by simp [Surroundings.inside, h.path_eq]
  depth_eq := by simp [Surroundings.inside, h.depth_eq]

mutual

theorem closes_events {opened : List Directive} {c : Surroundings} {more : List Event}
    (d : Directive) (h : c.Names opened) (hmore : Closes opened more) :
    Closes opened (d.events c ++ more) := by
  cases d with
  | simple head => exact .visit h rfl hmore
  | block head body =>
    have hleave : Closes (block head body :: opened) (.endBlock (block head body) c :: more) :=
      .leave h hmore
    have hbody := closes_eventsAll body (names_inside h) hleave
    simpa [events] using Closes.enter h rfl hbody

/-- The events of some directives close the blocks that they open. -/
theorem closes_eventsAll {opened : List Directive} {c : Surroundings} {more : List Event}
    (ds : List Directive) (h : c.Names opened) (hmore : Closes opened more) :
    Closes opened (eventsAll c ds ++ more) := by
  cases ds with
  | nil => exact hmore
  | cons d ds =>
    rw [eventsAll, List.append_assoc]
    exact closes_events d h (closes_eventsAll ds h hmore)

end

/-! ## 3. Visits -/

theorem at?_cons {ds : List Directive} {d : Directive} {position : Nat} {positions : List Nat}
    (h : ds[position]? = some d) (hne : positions ≠ []) :
    at? ds (position :: positions) = at? d.body positions := by
  cases positions with
  | nil => exact absurd rfl hne
  | cons next positions => simp [at?, h]

mutual

theorem positions_ne_nil (d : Directive) : ∀ position ∈ d.positions, position ≠ [] := by
  cases d with
  | simple head => simp [positions]
  | block head body => exact positionsAll_ne_nil 0 body

theorem positionsAll_ne_nil (first : Nat) (ds : List Directive) :
    ∀ position ∈ positionsAll first ds, position ≠ [] := by
  cases ds with
  | nil => simp [positionsAll]
  | cons d ds =>
    have hrest := positionsAll_ne_nil (first + 1) ds
    intro position hposition
    simp only [positionsAll, List.mem_cons, List.mem_append, List.mem_map] at hposition
    rcases hposition with rfl | ⟨position, -, rfl⟩ | hposition
    · exact List.cons_ne_nil _ _
    · exact List.cons_ne_nil _ _
    · exact hrest position hposition

end

mutual

/-- The directives in a block are visited behind its directive. -/
theorem visited_events (d : Directive) (c : Surroundings) :
    ((d.events c).filterMap Event.visited?).map some = some d :: d.positions.map (at? d.body) := by
  cases d with
  | simple head => rfl
  | block head body =>
    have hbody := visited_eventsAll body (c.inside (block head body).name) []
    have hstart : [Event.visit (block head body) c, .beginBlock (block head body) c].filterMap
        Event.visited? = [block head body] := rfl
    have hend : [Event.endBlock (block head body) c].filterMap Event.visited? = [] := rfl
    rw [events, List.filterMap_append, List.filterMap_append, hstart, hend, List.append_nil,
      List.singleton_append, List.map_cons, hbody]
    rfl

/-- The directives that are visited are those at the positions, in order. -/
theorem visited_eventsAll (ds : List Directive) (c : Surroundings) (before : List Directive) :
    ((eventsAll c ds).filterMap Event.visited?).map some =
      (positionsAll before.length ds).map (at? (before ++ ds)) := by
  cases ds with
  | nil => rfl
  | cons d ds =>
    have hfirst := visited_events d c
    have hrest := visited_eventsAll ds c (before ++ [d])
    have hd : (before ++ d :: ds)[before.length]? = some d := by simp
    have hinner : (d.positions.map (before.length :: ·)).map (at? (before ++ d :: ds)) =
        d.positions.map (at? d.body) := by
      rw [List.map_map]
      exact List.map_congr_left fun position hposition =>
        at?_cons hd (positions_ne_nil d position hposition)
    rw [List.length_append, List.length_singleton, List.append_assoc, List.singleton_append]
      at hrest
    rw [eventsAll, List.filterMap_append, List.map_append, hfirst, hrest, positionsAll,
      List.map_cons, List.map_append, hinner, at?, hd]
    rfl

end

theorem at?_nil (position : List Nat) : at? [] position = none := by
  match position with
  | [] => rfl
  | [index] => rfl
  | index :: next :: rest => rfl

theorem at?_succ (d : Directive) (ds : List Directive) (index : Nat) (rest : List Nat) :
    at? (d :: ds) ((index + 1) :: rest) = at? ds (index :: rest) := by
  cases rest <;> rfl

mutual

theorem mem_positions_iff {d : Directive} {position : List Nat} :
    position ∈ d.positions ↔ (at? d.body position).isSome = true := by
  cases d with
  | simple head => simp [positions, body, body?, at?_nil]
  | block head body =>
    rw [positions, mem_positionsAll_iff]
    constructor
    · rintro ⟨index, rest, rfl, h⟩
      rwa [Nat.zero_add]
    · intro h
      cases position with
      | nil => cases h
      | cons index rest => exact ⟨index, rest, by rw [Nat.zero_add], h⟩

/-- Where there is a directive there is a position for it. -/
theorem mem_positionsAll_iff {first : Nat} {ds : List Directive} {position : List Nat} :
    position ∈ positionsAll first ds ↔
      ∃ index rest, position = (first + index) :: rest ∧
        (at? ds (index :: rest)).isSome = true := by
  cases ds with
  | nil => simp [positionsAll, at?_nil]
  | cons d ds =>
    rw [positionsAll, List.mem_cons, List.mem_append, List.mem_map, mem_positionsAll_iff]
    constructor
    · rintro (rfl | ⟨inner, hinner, rfl⟩ | ⟨index, rest, rfl, h⟩)
      · exact ⟨0, [], rfl, rfl⟩
      · refine ⟨0, inner, rfl, ?_⟩
        rw [at?_cons rfl (positions_ne_nil d inner hinner)]
        exact mem_positions_iff.mp hinner
      · exact ⟨index + 1, rest, by rw [Nat.add_right_comm]; rfl, by rwa [at?_succ]⟩
    · rintro ⟨index, rest, rfl, h⟩
      cases index with
      | zero =>
        cases rest with
        | nil => exact .inl rfl
        | cons next rest =>
          rw [at?_cons rfl (List.cons_ne_nil _ _)] at h
          exact .inr (.inl ⟨next :: rest, mem_positions_iff.mpr h, rfl⟩)
      | succ index =>
        rw [at?_succ] at h
        exact .inr (.inr ⟨index, rest, by rw [Nat.add_right_comm]; rfl, h⟩)

end

mutual

theorem positions_sorted (d : Directive) : d.positions.Pairwise (· < ·) := by
  cases d with
  | simple head => exact .nil
  | block head body => exact positionsAll_sorted 0 body

/-- A directive comes before those in its block, and these before the next one. -/
theorem positionsAll_sorted (first : Nat) (ds : List Directive) :
    (positionsAll first ds).Pairwise (· < ·) := by
  cases ds with
  | nil => exact .nil
  | cons d ds =>
    have hinner : (d.positions.map (first :: ·)).Pairwise (· < ·) := by
      rw [List.pairwise_map]
      exact (positions_sorted d).imp fun h => List.cons_lt_cons_iff.mpr (.inr ⟨rfl, h⟩)
    have hlater : ∀ position ∈ positionsAll (first + 1) ds, ∀ rest, first :: rest < position := by
      intro position hposition rest
      obtain ⟨index, _, rfl, -⟩ := mem_positionsAll_iff.mp hposition
      exact List.cons_lt_cons_iff.mpr (.inl (by omega))
    rw [positionsAll, List.pairwise_cons, List.pairwise_append]
    refine ⟨fun position hposition => ?_, hinner, positionsAll_sorted (first + 1) ds, ?_⟩
    · rcases List.mem_append.mp hposition with hposition | hposition
      · obtain ⟨inner, hmem, rfl⟩ := List.mem_map.mp hposition
        obtain ⟨index, rest, rfl⟩ := List.exists_cons_of_ne_nil (positions_ne_nil d inner hmem)
        exact List.cons_lt_cons_iff.mpr (.inr ⟨rfl, List.nil_lt_cons _ _⟩)
      · exact hlater position hposition []
    · intro position hposition later hmem
      obtain ⟨inner, -, rfl⟩ := List.mem_map.mp hposition
      exact hlater later hmem inner

end

/-! ## 4. Names and blocks -/

/-- The cues do not go on with a visit or with a block. -/
def Ends (cues : List Cue) : Prop :=
  ∀ name rest, cues ≠ .visit name :: rest ∧ cues ≠ .beginBlock name :: rest

theorem cues_cons_simple (c : Surroundings) (head : Statement) (ds : List Directive) :
    (eventsAll c (simple head :: ds)).map Event.cue =
      .visit (simple head).name :: (eventsAll c ds).map Event.cue := by
  rfl

theorem cues_cons_block (c : Surroundings) (head : Statement) (body ds : List Directive) :
    (eventsAll c (block head body :: ds)).map Event.cue =
      .visit (block head body).name :: .beginBlock (block head body).name ::
        ((eventsAll (c.inside (block head body).name) body).map Event.cue ++
          .endBlock (block head body).name :: (eventsAll c ds).map Event.cue) := by
  simp [eventsAll, events, Event.cue]

/-- A visit of a directive without a block is not followed by the beginning of one. -/
theorem cues_ne_beginBlock (c : Surroundings) (ds : List Directive) {more : List Cue}
    (hmore : Ends more) (name : String) (rest : List Cue) :
    (eventsAll c ds).map Event.cue ++ more ≠ .beginBlock name :: rest := by
  cases ds with
  | nil => exact (hmore name rest).2
  | cons d ds =>
    cases d with
    | simple head => simp [cues_cons_simple]
    | block head body => simp [cues_cons_block]

/-- The cues of a tree, in front of what ends it, tell its names and blocks. -/
theorem alike_of_cues {ds es : List Directive} {c c' : Surroundings} {more more' : List Cue}
    (hmore : Ends more) (hmore' : Ends more')
    (h : (eventsAll c ds).map Event.cue ++ more = (eventsAll c' es).map Event.cue ++ more') :
    Alike ds es ∧ more = more' := by
  match ds, es with
  | [], [] => exact ⟨.nil, h⟩
  | [], simple head :: es => exact absurd h (hmore _ _).1
  | [], block head body :: es =>
    rw [cues_cons_block] at h
    exact absurd h (hmore _ _).1
  | simple head :: ds, [] => exact absurd h.symm (hmore' _ _).1
  | block head body :: ds, [] =>
    rw [cues_cons_block] at h
    exact absurd h.symm (hmore' _ _).1
  | simple head :: ds, simple head' :: es =>
    rw [cues_cons_simple, cues_cons_simple] at h
    obtain ⟨hname, h⟩ := List.cons.inj h
    obtain ⟨hrest, heq⟩ := alike_of_cues hmore hmore' h
    exact ⟨.simple (Cue.visit.inj hname) hrest, heq⟩
  | simple head :: ds, block head' body' :: es =>
    rw [cues_cons_simple, cues_cons_block] at h
    exact absurd (List.cons.inj h).2 (cues_ne_beginBlock c ds hmore _ _)
  | block head body :: ds, simple head' :: es =>
    rw [cues_cons_simple, cues_cons_block] at h
    exact absurd (List.cons.inj h).2.symm (cues_ne_beginBlock c' es hmore' _ _)
  | block head body :: ds, block head' body' :: es =>
    rw [cues_cons_block, cues_cons_block] at h
    simp only [List.cons_append, List.append_assoc, List.cons.injEq] at h
    obtain ⟨hname, -, h⟩ := h
    obtain ⟨hbody, hend⟩ := alike_of_cues (by simp [Ends]) (by simp [Ends]) h
    obtain ⟨hrest, heq⟩ := alike_of_cues hmore hmore' (List.cons.inj hend).2
    exact ⟨.block (Cue.visit.inj hname) hbody hrest, heq⟩

/-- Trees that are alike have the same cues. -/
theorem cues_of_alike {ds es : List Directive} (h : Alike ds es) (c c' : Surroundings) :
    (eventsAll c ds).map Event.cue = (eventsAll c' es).map Event.cue := by
  induction h generalizing c c' with
  | nil => rfl
  | simple hname _ ih => rw [cues_cons_simple, cues_cons_simple, hname, ih c c']
  | block hname _ _ ihbody ih =>
    rw [cues_cons_block, cues_cons_block, hname, ih c c', ihbody]

/-! ## 5. Trees -/

theorem cues_treeEvents_eq_iff {ds es : List Directive} :
    (treeEvents ds).map Event.cue = (treeEvents es).map Event.cue ↔ Alike ds es := by
  have hcues : ∀ ds, (treeEvents ds).map Event.cue =
      .beginTree :: ((eventsAll {} ds).map Event.cue ++ [.endTree]) := by
    simp [treeEvents, Event.cue]
  rw [hcues, hcues]
  constructor
  · intro h
    exact (alike_of_cues (by simp [Ends]) (by simp [Ends]) (List.cons.inj h).2).1
  · intro h
    rw [cues_of_alike h {} {}]

/-- A walk through a tree is a fold over its events, from the left and up to the first
failure.

The events are those of the directives, between the beginning of the tree and its end.
They are well bracketed, and each tells the names of the blocks around its directive,
from the outside inwards, and how many there are. Each directive of the tree is visited
once, before those in its block and these before the next one: the visits are those of
the directives at all positions, in the order of these positions. And trees have the
same events, told by kind and name only, exactly if they have the same names and
blocks. -/
theorem walk_is_fold (ds : List Directive) :
    (∀ (σ ε : Type) (v : Visitor (ExceptT ε (StateM σ))) (state : σ),
      (walkTree v ds).run.run state = v.tellAll (treeEvents ds) state) ∧
    (∃ events, treeEvents ds = .beginTree ds :: (events ++ [.endTree ds]) ∧ Closes [] events) ∧
    (∃ positions : List (List Nat), positions.Pairwise (· < ·) ∧
      (∀ position, position ∈ positions ↔ (at? ds position).isSome = true) ∧
      ((treeEvents ds).filterMap Event.visited?).map some = positions.map (at? ds)) ∧
    ∀ es, (treeEvents ds).map Event.cue = (treeEvents es).map Event.cue ↔ Alike ds es := by
  refine ⟨fun _ _ v => Visitor.tells_walkTree (v := v) ds,
    ⟨eventsAll {} ds, rfl, ?_⟩, ⟨positionsAll 0 ds, positionsAll_sorted 0 ds, ?_, ?_⟩,
    fun _ => cues_treeEvents_eq_iff⟩
  · have hnames : ({} : Surroundings).Names [] := ⟨rfl, rfl⟩
    simpa using closes_eventsAll ds hnames .nil
  · exact fun position => mem_positions_iff (d := block default ds)
  · have hvisits : (treeEvents ds).filterMap Event.visited? =
        (eventsAll {} ds).filterMap Event.visited? := by
      rw [treeEvents, List.filterMap_append, List.filterMap_append]
      exact List.append_nil _
    rw [hvisits]
    exact visited_eventsAll ds {} []

end Directive

end ConfTree
