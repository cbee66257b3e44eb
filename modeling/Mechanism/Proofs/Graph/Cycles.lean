import Mathlib.Data.List.Chain
import Mechanism.Proofs.Graph.Countdown
import Mechanism.Proofs.Graph.Reachability

/-!
What the search for levels reports. There are levels exactly when no live equation relies on itself,
and each equation then stands one level after the deepest one that it relies on. What is reported
otherwise is a cycle: the walk along the equations that are stuck may begin before the cycle, and
what lies before it is cut off.
-/

open Relation (TransGen)

namespace Mechanism.Graph

/-- One or more distinct items, each of which steps to the next one, and the last one to the
first. -/
structure Circuit {α : Type} (step : α → α → Prop) (items : List α) : Prop where
  nodup : items.Nodup
  chain : items.IsChain step
  closes : ∃ first ∈ items.head?, ∃ last ∈ items.getLast?, step last first

section Circuits

variable {α : Type} {step : α → α → Prop} {items : List α}

theorem Circuit.imp {other : α → α → Prop} (circuit : Circuit step items)
    (implies : ∀ first second, step first second → other first second) : Circuit other items where
  nodup := circuit.nodup
  chain := circuit.chain.imp implies
  closes := by
    obtain ⟨first, isFirst, last, isLast, closes⟩ := circuit.closes
    exact ⟨first, isFirst, last, isLast, implies last first closes⟩

theorem Circuit.map {β : Type} {other : β → β → Prop} {rename : α → β}
    (circuit : Circuit step items)
    (implies : ∀ first second, step first second → other (rename first) (rename second))
    (injective : ∀ first ∈ items, ∀ second ∈ items, rename first = rename second → first = second) :
    Circuit other (items.map rename) where
  nodup := circuit.nodup.map_on injective
  chain := (List.isChain_map rename).mpr (circuit.chain.imp implies)
  closes := by
    obtain ⟨first, isFirst, last, isLast, closes⟩ := circuit.closes
    refine ⟨rename first, ?_, rename last, ?_, implies last first closes⟩
    · rw [List.head?_map, isFirst]
      rfl
    · rw [List.getLast?_map, isLast]
      rfl

theorem Circuit.exists_step (circuit : Circuit step items) {item : α} (member : item ∈ items) :
    ∃ next, step item next := by
  obtain ⟨before, after, rfl⟩ := List.append_of_mem member
  cases after with
  | nil =>
      obtain ⟨first, _, last, isLast, closes⟩ := circuit.closes
      rw [List.getLast?_concat] at isLast
      cases isLast
      exact ⟨first, closes⟩
  | cons next rest =>
      exact ⟨next, (List.isChain_cons_cons.mp circuit.chain.right_of_append).1⟩

theorem Circuit.exists_loop (circuit : Circuit step items) :
    ∃ item ∈ items, TransGen step item item := by
  obtain ⟨first, isFirst, last, isLast, closes⟩ := circuit.closes
  cases items with
  | nil => cases isFirst
  | cons head tail =>
      cases isFirst
      have ends : (first :: tail).getLast (List.cons_ne_nil first tail) = last := by
        rw [List.getLast?_eq_getLast_of_ne_nil (List.cons_ne_nil first tail)] at isLast
        exact Option.some.inj isLast
      have path := List.relationReflTransGen_of_exists_isChain_cons tail circuit.chain ends
      exact ⟨first, List.mem_cons_self, TransGen.tail' path closes⟩

/-- A walk that comes to an item again has gone around a circuit, which begins at that item. -/
theorem circuit_dropWhile [BEq α] [LawfulBEq α] {last next : α} (unique : items.Nodup)
    (chain : items.IsChain step) (isLast : items.getLast? = some last) (steps : step last next)
    (again : next ∈ items) : Circuit step (items.dropWhile fun other => other != next) := by
  obtain ⟨before, after, rfl, fresh⟩ := List.eq_append_cons_of_mem again
  have cut : (before ++ next :: after).dropWhile (fun other => other != next) = next :: after := by
    rw [List.dropWhile_append_of_pos fun other member => ?_, List.dropWhile_cons_of_neg (by simp)]
    exact bne_iff_ne.mpr fun same => fresh (same ▸ member)
  rw [cut]
  refine ⟨unique.of_append_right, chain.right_of_append, next, rfl, last, ?_, steps⟩
  rw [List.getLast?_append_of_ne_nil _ (List.cons_ne_nil next after)] at isLast
  exact isLast

end Circuits

variable {dependencies : Nat → List Nat} {stuck : List Nat}

theorem traceWith_circuit (held : ∀ index ∈ stuck, ∃ other ∈ dependencies index, other ∈ stuck)
    {fuel : Nat} {walk : List Nat} {current : Nat} (unique : walk.Nodup)
    (among : ∀ index ∈ walk, index ∈ stuck)
    (chain : walk.IsChain fun index other => index ∈ stuck ∧ other ∈ dependencies index)
    (isLast : walk.getLast? = some current) (enough : stuck.length < fuel + walk.length) :
    Circuit (fun index other => index ∈ stuck ∧ other ∈ dependencies index)
      (traceWith dependencies stuck fuel walk current) := by
  induction fuel generalizing walk current with
  | zero =>
      have short := (unique.subperm among).length_le
      omega
  | succ fuel ih =>
      have currentStuck : current ∈ stuck := among current (List.mem_of_getLast? isLast)
      obtain ⟨next, found⟩ : ∃ next, (dependencies current).find? stuck.contains = some next := by
        obtain ⟨other, depends, isStuck⟩ := held current currentStuck
        exact Option.isSome_iff_exists.mp
          (List.find?_isSome.mpr ⟨other, depends, List.contains_iff_mem.mpr isStuck⟩)
      have depends : next ∈ dependencies current := List.mem_of_find?_eq_some found
      have nextStuck : next ∈ stuck := List.contains_iff_mem.mp (List.find?_some found)
      rw [traceWith, found]
      simp only
      split
      · rename_i again
        exact circuit_dropWhile unique chain isLast ⟨currentStuck, depends⟩
          (List.contains_iff_mem.mp again)
      · rename_i fresh
        have isFresh : next ∉ walk := fun again => fresh (List.contains_iff_mem.mpr again)
        refine ih ?_ ?_ ?_ List.getLast?_concat ?_
        · rw [← List.concat_eq_append]
          exact (List.nodup_concat walk next).mpr ⟨isFresh, unique⟩
        · intro index member
          rcases List.mem_append.mp member with old | new
          · exact among index old
          · rwa [List.mem_singleton.mp new]
        · refine chain.append (List.isChain_singleton next) fun last ends first begins => ?_
          rw [isLast] at ends
          cases ends
          cases begins
          exact ⟨currentStuck, depends⟩
        · rw [List.length_append, List.length_singleton]
          omega

theorem traceCycle_circuit {κ : Type} [Scalar κ] (graph : Graph κ) (nonempty : stuck ≠ [])
    (held : ∀ index ∈ stuck, ∃ other ∈ graph.dependencies index, other ∈ stuck) :
    Circuit (fun index other => index ∈ stuck ∧ other ∈ graph.dependencies index)
      (graph.traceCycle stuck) := by
  cases stuck with
  | nil => exact absurd rfl nonempty
  | cons head tail =>
      refine traceWith_circuit held (List.nodup_singleton head) ?_ (List.isChain_singleton head) rfl
        (by rw [List.length_singleton]; exact Nat.lt_succ_self _)
      intro index member
      rw [List.mem_singleton.mp member]
      exact List.mem_cons_self

def place (levels : List (List Nat)) (index : Nat) : Nat :=
  levels.findIdx fun level => level.contains index

/-- The levels are those of a height: none is empty, and each lists its equations in order. -/
structure Seated (levels : List (List Nat)) (height : Nat → Nat) : Prop where
  found : ∀ level ∈ levels, level ≠ []
  sorted : ∀ level ∈ levels, level.Pairwise (· < ·)
  height : ∀ (number : Nat) (level : List Nat), levels[number]? = some level →
    ∀ index ∈ level, height index = number

variable {items remaining : List Nat} {levels : List (List Nat)} {height : Nat → Nat}

theorem Seated.place_eq (seated : Seated levels height) {index : Nat}
    (member : index ∈ levels.flatten) : place levels index = height index := by
  obtain ⟨level, among, inside⟩ := List.mem_flatten.mp member
  have bound : place levels index < levels.length :=
    List.findIdx_lt_length.mpr ⟨level, among, List.contains_iff_mem.mpr inside⟩
  have here : levels[place levels index].contains index = true :=
    List.findIdx_getElem (p := fun level : List Nat => level.contains index) (w := bound)
  exact (seated.height _ _ (List.getElem?_eq_getElem bound) index
    (List.contains_iff_mem.mp here)).symm

theorem Filling.round_seated (filling : Filling dependencies items levels remaining height)
    (unique : items.Nodup) (seated : Seated levels height)
    (nonempty : ready dependencies remaining ≠ []) :
    Seated (levels ++ [ready dependencies remaining])
      (raise height levels.length (ready dependencies remaining)) := by
  have either : ∀ level ∈ levels ++ [ready dependencies remaining],
      level ∈ levels ∨ level = ready dependencies remaining := by
    intro level member
    rwa [List.mem_append, List.mem_singleton] at member
  refine ⟨fun level member => ?_, fun level member => ?_, fun number level here index inside => ?_⟩
  · rcases either level member with old | rfl
    · exact seated.found level old
    · exact nonempty
  · rcases either level member with old | rfl
    · exact seated.sorted level old
    · exact filling.sorted.sublist List.filter_sublist
  · rcases lt_or_ge number levels.length with before | after
    · rw [List.getElem?_append_left before] at here
      have full : index ∈ levels.flatten :=
        List.mem_flatten.mpr ⟨level, List.mem_of_getElem? here, inside⟩
      rw [filling.raise_full unique full]
      exact seated.height number level here index inside
    · rw [List.getElem?_append_right after, List.getElem?_singleton] at here
      split at here
      · cases here
        rw [raise, if_pos inside]
        omega
      · cases here

theorem levelsWith_seated (fuel : Nat) (unique : items.Nodup)
    (inside : ∀ index, ∀ other ∈ dependencies index, other ∈ items)
    (filling : Filling dependencies items levels remaining height)
    (seated : Seated levels height) :
    ∃ final, Filling dependencies items (levelsWith dependencies fuel remaining levels).1
        (levelsWith dependencies fuel remaining levels).2 final ∧
      Seated (levelsWith dependencies fuel remaining levels).1 final := by
  induction fuel generalizing levels remaining height with
  | zero => exact ⟨height, filling, seated⟩
  | succ fuel ih =>
      rw [levelsWith_succ]
      split
      · exact ⟨height, filling, seated⟩
      · rename_i some
        exact ih (filling.round unique inside)
          (filling.round_seated unique seated (by simpa using some))

variable {κ : Type} [Scalar κ] {limit : Nat} {graph : Graph κ} {simplifier : Simplifier κ}
  {session : Session κ}

/-- The first number is that of a live equation that reads the symbol of the second one, which is
live as well. -/
def Relies (graph : Graph κ) (index other : Nat) : Prop :=
  ∃ node target, graph.node? index = some node ∧ graph.node? other = some target ∧
    target.symbol ∈ node.reads

theorem relies_iff (lawful : graph.Lawful limit) {index other : Nat} :
    graph.Relies index other ↔ index ∈ graph.liveIndices ∧ other ∈ graph.dependencies index := by
  constructor
  · rintro ⟨node, target, live, targetLive, member⟩
    exact ⟨mem_liveIndices.mpr ⟨node, live⟩,
      (mem_dependencies live).mpr ⟨target.symbol, member, lawful.liveIndex?_eq targetLive⟩⟩
  · rintro ⟨isLive, depends⟩
    obtain ⟨node, live⟩ := mem_liveIndices.mp isLive
    obtain ⟨target, targetLive⟩ := mem_liveIndices.mp (dependencies_live depends)
    obtain ⟨read, member, found⟩ := (mem_dependencies live).mp depends
    have symbol : target.symbol = read :=
      lawful.symbol_of_definition (liveIndex?_eq_some.mp found).1 targetLive
    exact ⟨node, target, live, targetLive, symbol ▸ member⟩

/-- The live equations level by level, and each of them as deep as it must stand. -/
structure Levelling (graph : Graph κ) (levels : List (List Nat)) : Prop where
  perm : levels.flatten.Perm graph.liveIndices
  found : ∀ level ∈ levels, level ≠ []
  sorted : ∀ level ∈ levels, level.Pairwise (· < ·)
  lowest : ∀ index ∈ graph.liveIndices, (∀ other, ¬graph.Relies index other) →
    place levels index = 0
  above : ∀ index other, graph.Relies index other → ∃ deepest, graph.Relies index deepest ∧
    (∀ another, graph.Relies index another → place levels another ≤ place levels deepest) ∧
      place levels index = place levels deepest + 1

theorem findLevels_levelling (lawful : graph.Lawful limit)
    (found : graph.findLevels = .ok levels) : graph.Levelling levels := by
  obtain ⟨height, filling, seated⟩ := levelsWith_seated graph.liveIndices.length
    (nodup_liveIndices graph) (fun _ _ => dependencies_live) (filling_start graph)
    ⟨by simp, by simp, by simp⟩
  rw [findLevels_eq_ok.mp found] at filling seated
  have perm : levels.flatten.Perm graph.liveIndices := by simpa using filling.perm
  have place_eq : ∀ index ∈ graph.liveIndices, place levels index = height index :=
    fun index live => seated.place_eq (perm.mem_iff.mpr live)
  have tight := fun index live => filling.isLevel.tight index (perm.mem_iff.mpr live)
  have below : ∀ index other, graph.Relies index other →
      place levels other < place levels index := by
    intro index other relies
    obtain ⟨live, depends⟩ := (relies_iff lawful).mp relies
    rw [place_eq index live, place_eq other (dependencies_live depends)]
    exact filling.isLevel.above index (perm.mem_iff.mpr live) other depends
  refine ⟨perm, seated.found, seated.sorted, fun index live free => ?_,
    fun index other relies => ?_⟩
  · rw [place_eq index live]
    rcases tight index live with zero | ⟨other, depends, _⟩
    · exact zero
    · exact absurd ((relies_iff lawful).mpr ⟨live, depends⟩) (free other)
  · have live := ((relies_iff lawful).mp relies).1
    rcases tight index live with zero | ⟨deepest, depends, next⟩
    · have positive := below index other relies
      rw [place_eq index live, zero] at positive
      cases positive
    · rw [← place_eq index live, ← place_eq deepest (dependencies_live depends)] at next
      refine ⟨deepest, (relies_iff lawful).mpr ⟨live, depends⟩, fun another relies => ?_, next⟩
      have under := below index another relies
      omega

theorem findLevels_circuit (lawful : graph.Lawful limit) {cycle : List Nat}
    (found : graph.findLevels = .error cycle) : Circuit graph.Relies cycle := by
  have held := graph.exists_stuck_dependency
  obtain ⟨_, filling⟩ := levelsWith_spec graph.liveIndices.length (nodup_liveIndices graph)
    (fun _ _ => dependencies_live) (filling_start graph)
  unfold findLevels at found
  simp only at found
  split at found
  · cases found
  · rename_i levels stuck nonempty same
    cases found
    rw [same] at held filling
    have live : ∀ index ∈ stuck, index ∈ graph.liveIndices := fun index member =>
      filling.perm.mem_iff.mp (List.mem_append_right _ member)
    refine (traceCycle_circuit graph nonempty held).imp ?_
    rintro index other ⟨isStuck, depends⟩
    exact (relies_iff lawful).mpr ⟨live index isStuck, depends⟩

theorem Levelling.loopless (levelling : graph.Levelling levels) (index : Nat) :
    ¬TransGen graph.Relies index index := by
  have below : ∀ first second, TransGen graph.Relies first second →
      place levels second < place levels first := by
    intro first second relies
    induction relies with
    | single step =>
        obtain ⟨deepest, _, highest, next⟩ := levelling.above _ _ step
        have le := highest _ step
        omega
    | tail _ step ih =>
        obtain ⟨deepest, _, highest, next⟩ := levelling.above _ _ step
        have le := highest _ step
        omega
  exact fun loop => lt_irrefl _ (below index index loop)

/-- There are levels exactly if no live equation relies on itself. Then every live equation stands
on one of them: on the lowest one if it reads no live equation, and otherwise one after the deepest
that it reads. Where there are none, a circuit of live equations is reported. The counters by which
the levels can be found never go below zero, and give the same levels and the same circuit. -/
theorem levels_decided (tame : simplifier.Tame) (reachable : Reachable simplifier session) :
    ((∃ levels, session.graph.findLevels = .ok levels) ↔
      ∀ index, ¬TransGen session.graph.Relies index index) ∧
    (∀ levels, session.graph.findLevels = .ok levels → session.graph.Levelling levels) ∧
    (∀ cycle, session.graph.findLevels = .error cycle → Circuit session.graph.Relies cycle) ∧
    session.graph.countLevels = some session.graph.findLevels := by
  have lawful := (reachable.fit tame).valid.toLawful
  refine ⟨⟨?_, fun loopless => ?_⟩, fun _ => findLevels_levelling lawful,
    fun _ => findLevels_circuit lawful, countLevels_eq _⟩
  · rintro ⟨levels, found⟩
    exact (findLevels_levelling lawful found).loopless
  · rcases found : session.graph.findLevels with cycle | levels
    · obtain ⟨index, _, loop⟩ := (findLevels_circuit lawful found).exists_loop
      exact absurd loop (loopless index)
    · exact ⟨levels, rfl⟩

namespace Looped

def a : Symbol := ⟨1, "a", .scalar, .real⟩

def b : Symbol := ⟨2, "b", .scalar, .real⟩

def c : Symbol := ⟨3, "c", .scalar, .real⟩

/-- The symbols `a` and `b` read each other, and `c` reads one of them. -/
noncomputable def registered : Session RealNumber :=
  (Command.register "b" b (.ofSymbol a) (.only .state)).apply
    ((Command.register "a" a (.ofSymbol b) (.only .state)).apply
      ((Command.register "c" c (.ofSymbol a) (.only .state)).apply
        ⟨ofSettings .standard Simplifier.keep, ⟨4⟩⟩))

theorem reachable : Reachable Simplifier.keep registered := by
  refine Reachable.step _ (Reachable.step _ (Reachable.step _
    (Reachable.start ⟨4⟩ new_standard) ?_) ?_) ?_
  · exact ⟨(by decide : 3 < 4), Tensor.regular_ofSymbol (by decide : 1 < 4)⟩
  · exact ⟨(by decide : 1 < 4), Tensor.regular_ofSymbol (by decide : 2 < 4)⟩
  · exact ⟨(by decide : 2 < 4), Tensor.regular_ofSymbol (by decide : 1 < 4)⟩

end Looped

theorem levels_decided_looped :
    (Chained.registered.graph.findLevels = .ok [[0], [1]] ∧
      Chained.registered.graph.Levelling [[0], [1]]) ∧
    Looped.registered.graph.findLevels = .error [1, 2] ∧
      Circuit Looped.registered.graph.Relies [1, 2] := by
  obtain ⟨_, levelling, _, _⟩ := levels_decided Simplifier.keep_tame Chained.reachable
  obtain ⟨_, _, circuit, _⟩ := levels_decided Simplifier.keep_tame Looped.reachable
  have levels : Chained.registered.graph.findLevels = .ok [[0], [1]] := by with_unfolding_all decide
  have cycle : Looped.registered.graph.findLevels = .error [1, 2] := by with_unfolding_all decide
  exact ⟨⟨levels, levelling _ levels⟩, cycle, circuit _ cycle⟩

end Mechanism.Graph
