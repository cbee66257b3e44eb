import Mathlib.Data.List.Nodup
import Mechanism.Proofs.Graph.Levels
import Mechanism.Proofs.Grouping

/-!
Levels by counting down. Every live equation has a counter, of the live equations that it depends on
and that stand on no level yet. Each equation that is put on a level counts its readers down, and
those that come to zero stand on the next level. No counter is counted down at zero, and the levels
are those that are found round by round.
-/

namespace Mechanism.Graph

/-- One equation fewer to wait for, and another one that is ready if that was the last one. There is
no result if the equation has not been waiting for any. -/
def countDown (state : (Nat → Nat) × List Nat) (index : Nat) : Option ((Nat → Nat) × List Nat) :=
  match state.1 index with
  | 0 => none
  | count + 1 =>
    some (fun other => if other = index then count else state.1 other,
      if count = 0 then state.2 ++ [index] else state.2)

/-- Level by level, the equations whose counters have come to zero, and the counters at the end. -/
def countLevelsWith (readers : Nat → List Nat) :
    Nat → (Nat → Nat) → List Nat → List (List Nat) → Option (List (List Nat) × (Nat → Nat))
  | 0, _, _, _ => none
  | fuel + 1, counts, current, levels =>
    if current.isEmpty then some (levels, counts)
    else do
      let level := current.mergeSort
      let (counts, next) ← (level.flatMap readers).foldlM countDown (counts, [])
      countLevelsWith readers fuel counts next (levels ++ [level])

def readersIn (dependencies : Nat → List Nat) (live : List Nat) (index : Nat) : List Nat :=
  live.filter fun reader => (dependencies reader).contains index

/-- The levels, or the members of a cycle among the equations whose counters stay above zero. -/
def countLevels {κ : Type} [Scalar κ] (graph : Graph κ) :
    Option (Except (List Nat) (List (List Nat))) := do
  let live := graph.liveIndices
  let counts := fun index => (Grouping.distinct (graph.dependencies index)).length
  let (levels, counts) ← countLevelsWith (readersIn graph.dependencies live) (live.length + 1)
    counts (live.filter fun index => counts index = 0) []
  if levels.flatten.length = live.length then some (.ok levels)
  else some (.error (graph.traceCycle (live.filter fun index => 0 < counts index)))

theorem countDown_of_pos {counts : Nat → Nat} {index : Nat} (waits : 0 < counts index)
    (ready : List Nat) :
    countDown (counts, ready) index =
      some (fun other => counts other - [index].count other,
        ready ++ if counts index = 1 then [index] else []) := by
  obtain ⟨count, isCount⟩ := Nat.exists_eq_succ_of_ne_zero (Nat.ne_of_gt waits)
  have lowered : (fun other => if other = index then count else counts other) =
      fun other => counts other - [index].count other := by
    funext other
    rw [List.count_singleton]
    by_cases same : other = index
    · simp [same, isCount]
    · simp [same, Ne.symm same]
  simp only [countDown, isCount, lowered, Nat.succ_eq_add_one, Nat.add_eq_right]
  split <;> simp

theorem foldlM_countDown {events : List Nat} {counts : Nat → Nat}
    (enough : ∀ index, events.count index ≤ counts index) (ready : List Nat) :
    ∃ next, events.foldlM countDown (counts, ready) =
        some (fun index => counts index - events.count index, ready ++ next) ∧
      next.Nodup ∧
        ∀ index, index ∈ next ↔ 0 < counts index ∧ events.count index = counts index := by
  induction events generalizing counts ready with
  | nil =>
      refine ⟨[], by simp, List.nodup_nil, fun index => ?_⟩
      simp only [List.not_mem_nil, List.count_nil, false_iff]
      omega
  | cons head tail ih =>
      have parts : ∀ index, (head :: tail).count index = [head].count index + tail.count index := by
        intro index
        rw [← List.count_append, List.singleton_append]
      have one : [head].count head = 1 := List.count_singleton_self
      have waits : 0 < counts head := by
        have total := enough head
        rw [parts, one] at total
        omega
      have lowered : ∀ index, tail.count index ≤ counts index - [head].count index := by
        intro index
        have total := enough index
        rw [parts] at total
        omega
      -- an equation becomes ready here or later on, and never twice
      obtain ⟨next, rest, unique, members⟩ :=
        ih lowered (ready ++ if counts head = 1 then [head] else [])
      refine ⟨(if counts head = 1 then [head] else []) ++ next, ?_, ?_, fun index => ?_⟩
      · rw [List.foldlM_cons, countDown_of_pos waits]
        change tail.foldlM countDown _ = _
        simp only [rest, List.append_assoc, Nat.sub_sub, parts]
      · split
        · rename_i last
          refine List.nodup_cons.mpr ⟨fun member => ?_, unique⟩
          have waiting := ((members head).mp member).1
          omega
        · exact unique
      · rw [List.mem_append, members, parts]
        by_cases same : index = head
        · subst same
          have fewer := lowered index
          rw [one] at fewer ⊢
          split
          · simp only [List.mem_singleton, true_or, true_iff]
            omega
          · simp only [List.not_mem_nil, false_or]
            omega
        · have none : [head].count index = 0 :=
            List.count_eq_zero.mpr fun member => same (List.mem_singleton.mp member)
          rw [none]
          split <;> simp [same]

/-- Each live equation counts those that it depends on among the ones that remain. -/
def Awaits (dependencies : Nat → List Nat) (live remaining : List Nat) (counts : Nat → Nat) :
    Prop :=
  ∀ index ∈ live, counts index = (remaining.filter (dependencies index).contains).length

def Cleared (dependencies : Nat → List Nat) (live remaining : List Nat) : Prop :=
  ∀ index ∈ live, index ∈ remaining ∨ ∀ other ∈ dependencies index, other ∉ remaining

variable {dependencies : Nat → List Nat} {live remaining : List Nat} {counts : Nat → Nat}

theorem Awaits.eq_zero (counted : Awaits dependencies live remaining counts) {index : Nat}
    (member : index ∈ live) :
    counts index = 0 ↔ ∀ other ∈ dependencies index, other ∉ remaining := by
  rw [counted index member, List.length_eq_zero_iff, List.filter_eq_nil_iff]
  constructor
  · intro none other depends left
    exact none other left (List.contains_iff_mem.mpr depends)
  · intro none other left depends
    exact none other (List.contains_iff_mem.mp depends) left

theorem pairwise_mergeSort_le (items : List Nat) : items.mergeSort.Pairwise (· ≤ ·) := by
  have transitive : ∀ first second third : Nat, decide (first ≤ second) = true →
      decide (second ≤ third) = true → decide (first ≤ third) = true := by
    simpa using fun _ _ _ => le_trans
  have total : ∀ first second : Nat,
      (decide (first ≤ second) || decide (second ≤ first)) = true := by
    simpa using le_total
  exact (List.pairwise_mergeSort transitive total items).imp of_decide_eq_true

theorem mergeSort_eq {first second : List Nat} (perm : first.Perm second)
    (sorted : second.Pairwise (· < ·)) : first.mergeSort = second :=
  List.Perm.eq_of_pairwise (fun _ _ _ _ => le_antisymm) (pairwise_mergeSort_le first)
    (sorted.imp le_of_lt) ((List.mergeSort_perm first _).trans perm)

/-- How often an equation is counted down: once for each one on the level that it depends on. -/
theorem count_flatMap_readers (level : List Nat) {index : Nat} (member : index ∈ live)
    (unique : live.Nodup) :
    (level.flatMap (readersIn dependencies live)).count index =
      (level.filter (dependencies index).contains).length := by
  induction level with
  | nil => rfl
  | cons head tail ih =>
      rw [List.flatMap_cons, List.count_append, ih, List.filter_cons, readersIn]
      have once : live.count index = 1 := List.count_eq_one_of_mem unique member
      by_cases depends : (dependencies index).contains head = true
      · rw [List.count_filter (by exact depends), once, if_pos depends, List.length_cons,
          Nat.add_comm]
      · have absent : index ∉ live.filter fun reader => (dependencies reader).contains head :=
          fun among => depends (List.mem_filter.mp among).2
        rw [List.count_eq_zero.mpr absent, if_neg depends, Nat.zero_add]

theorem Cleared.stuck (cleared : Cleared dependencies live remaining) :
    Cleared dependencies live (stuck dependencies remaining) := by
  intro index member
  by_cases left : index ∈ Graph.stuck dependencies remaining
  · exact Or.inl left
  refine Or.inr fun other depends stays => ?_
  have otherLeft := (mem_stuck.mp stays).1
  rcases cleared index member with remains | done
  · have isReady : index ∈ ready dependencies remaining := by
      by_contra notReady
      exact left (mem_stuck.mpr ⟨remains, notReady⟩)
    exact (mem_ready.mp isReady).2 other depends otherLeft
  · exact done other depends otherLeft

theorem Awaits.split (counted : Awaits dependencies live remaining counts) (unique : live.Nodup)
    {index : Nat} (member : index ∈ live) :
    counts index =
      ((ready dependencies remaining).flatMap (readersIn dependencies live)).count index +
        ((stuck dependencies remaining).filter (dependencies index).contains).length := by
  rw [counted index member, count_flatMap_readers _ member unique, ← List.length_append,
    ← List.filter_append]
  exact ((ready_append_stuck dependencies remaining).symm.filter _).length_eq

theorem Awaits.round (counted : Awaits dependencies live remaining counts)
    (cleared : Cleared dependencies live remaining) (unique : live.Nodup)
    (within : ∀ index ∈ remaining, index ∈ live) :
    ∃ next later, ((ready dependencies remaining).flatMap (readersIn dependencies live)).foldlM
        countDown (counts, []) = some (later, next) ∧
      next.Nodup ∧
      (∀ index, index ∈ next ↔ index ∈ ready dependencies (stuck dependencies remaining)) ∧
      Awaits dependencies live (stuck dependencies remaining) later := by
  have split := fun index (member : index ∈ live) => counted.split unique member
  have foreign : ∀ index ∉ live,
      ((ready dependencies remaining).flatMap (readersIn dependencies live)).count index = 0 := by
    intro index dead
    refine List.count_eq_zero.mpr fun member => ?_
    obtain ⟨_, _, among⟩ := List.mem_flatMap.mp member
    exact dead (List.mem_filter.mp among).1
  generalize (ready dependencies remaining).flatMap (readersIn dependencies live) = events
    at split foreign ⊢
  have enough : ∀ index, events.count index ≤ counts index := by
    intro index
    by_cases member : index ∈ live
    · rw [split index member]
      exact Nat.le_add_right _ _
    · rw [foreign index member]
      exact Nat.zero_le _
  obtain ⟨next, ran, nodup, members⟩ := foldlM_countDown enough []
  have later : Awaits dependencies live (stuck dependencies remaining) fun index =>
      counts index - events.count index := by
    intro index member
    exact Nat.sub_eq_of_eq_add' (split index member)
  refine ⟨next, _, ran, nodup, fun index => ?_, later⟩
  rw [members]
  constructor
  · rintro ⟨waits, last⟩
    have member : index ∈ live := by
      by_contra dead
      rw [foreign index dead] at last
      omega
    have free := (later.eq_zero member).mp (by omega)
    have held : ¬∀ other ∈ dependencies index, other ∉ remaining := by
      rw [← counted.eq_zero member]
      omega
    have remains : index ∈ remaining := (cleared index member).resolve_right held
    exact mem_ready.mpr
      ⟨mem_stuck.mpr ⟨remains, fun isReady => held (mem_ready.mp isReady).2⟩, free⟩
  · intro isReady
    obtain ⟨stays, free⟩ := mem_ready.mp isReady
    obtain ⟨remains, notReady⟩ := mem_stuck.mp stays
    have member := within index remains
    have waits : counts index ≠ 0 := fun zero =>
      notReady (mem_ready.mpr ⟨remains, (counted.eq_zero member).mp zero⟩)
    have zero : counts index - events.count index = 0 := (later.eq_zero member).mpr free
    exact ⟨Nat.pos_of_ne_zero waits, le_antisymm (enough index) (Nat.le_of_sub_eq_zero zero)⟩

theorem countLevelsWith_succ {readers : Nat → List Nat} {current next : List Nat}
    {later : Nat → Nat} (nonempty : current ≠ [])
    (ran : (current.mergeSort.flatMap readers).foldlM countDown (counts, []) = some (later, next))
    (fuel : Nat) (levels : List (List Nat)) :
    countLevelsWith readers (fuel + 1) counts current levels =
      countLevelsWith readers fuel later next (levels ++ [current.mergeSort]) := by
  rw [countLevelsWith, if_neg (by simpa using nonempty)]
  simp only [ran, Option.bind_eq_bind, Option.bind_some]

theorem countLevelsWith_eq {fuel : Nat} (unique : live.Nodup) (short : remaining.length ≤ fuel)
    (within : ∀ index ∈ remaining, index ∈ live) (sorted : remaining.Pairwise (· < ·))
    (counted : Awaits dependencies live remaining counts)
    (cleared : Cleared dependencies live remaining) {current : List Nat}
    (isReady : current.Perm (ready dependencies remaining)) (levels : List (List Nat)) :
    ∃ last, countLevelsWith (readersIn dependencies live) (fuel + 1) counts current levels =
        some ((levelsWith dependencies fuel remaining levels).1, last) ∧
      Awaits dependencies live (levelsWith dependencies fuel remaining levels).2 last ∧
      Cleared dependencies live (levelsWith dependencies fuel remaining levels).2 := by
  induction fuel generalizing remaining counts current levels with
  | zero =>
      obtain rfl := List.length_eq_zero_iff.mp (Nat.le_zero.mp short)
      obtain rfl := List.Perm.eq_nil isReady
      exact ⟨counts, rfl, counted, cleared⟩
  | succ fuel ih =>
      rw [levelsWith_succ]
      by_cases done : (ready dependencies remaining).isEmpty = true
      · rw [List.isEmpty_iff.mp done] at isReady
        obtain rfl := List.Perm.eq_nil isReady
        rw [if_pos done]
        exact ⟨counts, rfl, counted, cleared⟩
      · have found : ready dependencies remaining ≠ [] := by simpa using done
        have nonempty : current ≠ [] := by
          rintro rfl
          exact found (List.Perm.nil_eq isReady).symm
        have level_eq : current.mergeSort = ready dependencies remaining :=
          mergeSort_eq isReady (sorted.sublist List.filter_sublist)
        rw [if_neg done]
        obtain ⟨next, later, ran, nodup, members, laterCounted⟩ :=
          counted.round cleared unique within
        have length := (ready_append_stuck dependencies remaining).length_eq
        have positive : 0 < (ready dependencies remaining).length := List.length_pos_iff.mpr found
        rw [List.length_append] at length
        have sortedLater : (stuck dependencies remaining).Pairwise (· < ·) :=
          sorted.sublist List.filter_sublist
        have perm : next.Perm (ready dependencies (stuck dependencies remaining)) := by
          refine (List.perm_ext_iff_of_nodup nodup ?_).mpr members
          exact (sortedLater.imp ne_of_lt).sublist List.filter_sublist
        obtain ⟨last, rest, lastCounted, lastCleared⟩ := ih (by omega)
          (fun index member => within index (mem_stuck.mp member).1) sortedLater laterCounted
          cleared.stuck perm (levels ++ [ready dependencies remaining])
        refine ⟨last, ?_, lastCounted, lastCleared⟩
        rw [countLevelsWith_succ nonempty (level_eq ▸ ran), level_eq]
        exact rest

theorem levelsWith_stuck {fuel : Nat} (enough : remaining.length ≤ fuel) (levels : List (List Nat))
    {index : Nat} (member : index ∈ (levelsWith dependencies fuel remaining levels).2) :
    ∃ other ∈ dependencies index, other ∈ (levelsWith dependencies fuel remaining levels).2 := by
  induction fuel generalizing remaining levels with
  | zero =>
      rw [List.length_eq_zero_iff.mp (Nat.le_zero.mp enough)] at member
      cases member
  | succ fuel ih =>
      rw [levelsWith_succ] at member ⊢
      split at member
      · rename_i none
        rw [if_pos none]
        by_contra free
        have isReady : index ∈ ready dependencies remaining :=
          mem_ready.mpr ⟨member, fun other depends left => free ⟨other, depends, left⟩⟩
        rw [List.isEmpty_iff.mp none] at isReady
        cases isReady
      · rename_i found
        rw [if_neg found]
        have length := (ready_append_stuck dependencies remaining).length_eq
        have positive : 0 < (ready dependencies remaining).length :=
          List.length_pos_iff.mpr (by simpa using found)
        rw [List.length_append] at length
        have shorter : (stuck dependencies remaining).length ≤ fuel := by omega
        exact ih shorter _ member

theorem exists_stuck_dependency {κ : Type} [Scalar κ] (graph : Graph κ) :
    ∀ index ∈ (levelsWith graph.dependencies graph.liveIndices.length graph.liveIndices []).2,
      ∃ other ∈ graph.dependencies index, other ∈
        (levelsWith graph.dependencies graph.liveIndices.length graph.liveIndices []).2 :=
  fun _ member => levelsWith_stuck le_rfl [] member

theorem awaits_start {κ : Type} [Scalar κ] (graph : Graph κ) :
    Awaits graph.dependencies graph.liveIndices graph.liveIndices fun index =>
      (Grouping.distinct (graph.dependencies index)).length := by
  intro index _
  apply List.Perm.length_eq
  refine (List.perm_ext_iff_of_nodup (Grouping.nodup_distinct _)
    ((nodup_liveIndices graph).filter _)).mpr fun other => ?_
  rw [Grouping.mem_distinct, List.mem_filter, List.contains_iff_mem]
  exact ⟨fun depends => ⟨dependencies_live depends, depends⟩, And.right⟩

theorem Awaits.filter_pos (counted : Awaits dependencies live remaining counts)
    (cleared : Cleared dependencies live remaining)
    (stays : ∀ index ∈ remaining, ∃ other ∈ dependencies index, other ∈ remaining)
    (within : ∀ index ∈ remaining, index ∈ live) (sorted : live.Pairwise (· < ·))
    (sortedLeft : remaining.Pairwise (· < ·)) :
    (live.filter fun index => 0 < counts index) = remaining := by
  have asymmetric : ∀ first second : Nat, first ∈ live.filter (fun index => 0 < counts index) →
      second ∈ remaining → first < second → second < first → first = second :=
    fun _ _ _ _ less more => absurd less (lt_asymm more)
  refine List.Perm.eq_of_pairwise asymmetric (sorted.sublist List.filter_sublist) sortedLeft ?_
  refine (List.perm_ext_iff_of_nodup ((sorted.imp ne_of_lt).filter _)
    (sortedLeft.imp ne_of_lt)).mpr fun index => ?_
  rw [List.mem_filter, decide_eq_true_iff, Nat.pos_iff_ne_zero]
  constructor
  · rintro ⟨member, waits⟩
    rw [ne_eq, counted.eq_zero member] at waits
    exact (cleared index member).resolve_right waits
  · intro member
    refine ⟨within index member, fun zero => ?_⟩
    obtain ⟨other, depends, remains⟩ := stays index member
    exact (counted.eq_zero (within index member)).mp zero other depends remains

theorem countLevels_eq {κ : Type} [Scalar κ] (graph : Graph κ) :
    graph.countLevels = some graph.findLevels := by
  have unique := nodup_liveIndices graph
  have sorted := pairwise_liveIndices graph
  obtain ⟨height, filling⟩ := levelsWith_spec graph.liveIndices.length unique
    (fun _ _ => dependencies_live) (filling_start graph)
  have counted := graph.awaits_start
  have isReady : (graph.liveIndices.filter fun index =>
      (Grouping.distinct (graph.dependencies index)).length = 0).Perm
        (ready graph.dependencies graph.liveIndices) := by
    refine List.Perm.of_eq (List.filter_congr fun index member => ?_)
    have zero := counted.eq_zero member
    rw [Bool.eq_iff_iff, decide_eq_true_iff, zero]
    simp
  obtain ⟨last, found, lastCounted, cleared⟩ := countLevelsWith_eq unique le_rfl
    (fun _ => id) sorted counted (fun _ => Or.inl) isReady []
  have stays := graph.exists_stuck_dependency
  unfold countLevels findLevels
  simp only [found, Option.bind_eq_bind, Option.bind_some]
  rcases same : levelsWith graph.dependencies graph.liveIndices.length graph.liveIndices [] with
    ⟨levels, left⟩
  rw [same] at filling lastCounted cleared stays
  have length := filling.perm.length_eq
  rw [List.length_append] at length
  have among : ∀ index ∈ left, index ∈ graph.liveIndices := fun index member =>
    filling.perm.mem_iff.mp (List.mem_append_right _ member)
  have left_eq := lastCounted.filter_pos cleared stays among sorted filling.sorted
  cases left with
  | nil =>
      rw [if_pos (by simpa using length)]
  | cons head tail =>
      rw [List.length_cons] at length
      have fewer : ¬levels.flatten.length = graph.liveIndices.length := by
        dsimp only at length
        omega
      rw [if_neg fewer, left_eq]

end Mechanism.Graph
