import Mathlib.Data.List.Perm.Subperm
import Mathlib.Logic.Relation
import Mechanism.Graph.Basic
import Mechanism.Proofs.Grouping

/-!
The search finds what can be reached, and nothing else, when it may take as many steps as there
are items to be found.
-/

open Relation (ReflTransGen TransGen)

namespace Mechanism.Search

open Mechanism.Graph (closureWith)

variable {α : Type} [BEq α] (next : α → List α)

def Step (source target : α) : Prop := target ∈ next source

variable {next}

theorem closureWith_succ (fuel : Nat) (reached frontier : List α) :
    closureWith next (fuel + 1) reached frontier =
      match (Grouping.distinct (frontier.flatMap next)).filter
        fun item => !reached.contains item with
      | [] => reached
      | fresh => closureWith next fuel (reached ++ fresh) fresh := rfl

theorem subset_closureWith {fuel : Nat} {reached frontier : List α} {item : α}
    (member : item ∈ reached) : item ∈ closureWith next fuel reached frontier := by
  induction fuel generalizing reached frontier with
  | zero => exact member
  | succ fuel ih =>
      rw [closureWith_succ]
      split
      · exact member
      · exact ih (List.mem_append_left _ member)

variable [LawfulBEq α]

theorem mem_fresh {reached frontier : List α} {item : α} :
    item ∈ ((Grouping.distinct (frontier.flatMap next)).filter fun item => !reached.contains item) ↔
      (∃ source ∈ frontier, item ∈ next source) ∧ item ∉ reached := by
  simp [Grouping.mem_distinct]

theorem closureWith_sound {fuel : Nat} {reached frontier : List α} {item : α}
    (member : item ∈ closureWith next fuel reached frontier) :
    item ∈ reached ∨ ∃ source ∈ frontier, TransGen (Step next) source item := by
  induction fuel generalizing reached frontier with
  | zero => exact Or.inl member
  | succ fuel ih =>
      rw [closureWith_succ] at member
      split at member
      · exact Or.inl member
      · rename_i fresh _ _
        rcases ih member with known | ⟨middle, found, path⟩
        · rcases List.mem_append.mp known with old | new
          · exact Or.inl old
          · obtain ⟨⟨source, among, step⟩, _⟩ := mem_fresh.mp new
            exact Or.inr ⟨source, among, TransGen.single step⟩
        · obtain ⟨⟨source, among, step⟩, _⟩ := mem_fresh.mp found
          exact Or.inr ⟨source, among, TransGen.head step path⟩

theorem nodup_append_fresh {reached frontier : List α} (unique : reached.Nodup) :
    (reached ++ (Grouping.distinct (frontier.flatMap next)).filter
      fun item => !reached.contains item).Nodup := by
  apply List.nodup_append.mpr
  refine ⟨unique, (Grouping.nodup_distinct _).filter _, ?_⟩
  intro item old other new same
  subst same
  exact (mem_fresh.mp new).2 old

theorem nodup_closureWith {fuel : Nat} {reached frontier : List α} (unique : reached.Nodup) :
    (closureWith next fuel reached frontier).Nodup := by
  induction fuel generalizing reached frontier with
  | zero => exact unique
  | succ fuel ih =>
      rw [closureWith_succ]
      split
      · exact unique
      · exact ih (nodup_append_fresh unique)

def Expanded (next : α → List α) (reached frontier : List α) : Prop :=
  ∀ item ∈ reached, item ∈ frontier ∨ ∀ target ∈ next item, target ∈ reached

theorem closureWith_closed {all : List α} (bounded : ∀ item, ∀ target ∈ next item, target ∈ all)
    {fuel : Nat} {reached frontier : List α} (unique : reached.Nodup)
    (within : ∀ item ∈ reached, item ∈ all) (expanded : Expanded next reached frontier)
    (enough : all.length < fuel + reached.length) :
    ∀ item, item ∈ closureWith next fuel reached frontier ∨ item ∈ frontier →
      ∀ target ∈ next item, target ∈ closureWith next fuel reached frontier := by
  induction fuel generalizing reached frontier with
  | zero =>
      have short : reached.length ≤ all.length := (unique.subperm within).length_le
      omega
  | succ fuel ih =>
      rw [closureWith_succ]
      split
      · rename_i nothing
        have known : ∀ item ∈ frontier, ∀ target ∈ next item, target ∈ reached := by
          intro item among target step
          by_contra unknown
          have fresh := mem_fresh.mpr ⟨⟨item, among, step⟩, unknown⟩
          rw [nothing] at fresh
          exact absurd fresh List.not_mem_nil
        intro item member target step
        rcases member with old | among
        · rcases expanded item old with among | closed
          · exact known item among target step
          · exact closed target step
        · exact known item among target step
      · rename_i fresh nonempty
        have grown : ∀ item, item ∈ reached ∨ item ∈ frontier → item ∈ frontier ∨
            (∀ target ∈ next item, target ∈ reached) := by
          rintro item (old | among)
          · exact expanded item old
          · exact Or.inl among
        have followed : ∀ item, item ∈ reached ∨ item ∈ frontier → ∀ target ∈ next item,
            target ∈ reached ++ (Grouping.distinct (frontier.flatMap next)).filter
              fun item => !reached.contains item := by
          intro item member target step
          by_cases known : target ∈ reached
          · exact List.mem_append_left _ known
          · rcases grown item member with among | closed
            · exact List.mem_append_right _ (mem_fresh.mpr ⟨⟨item, among, step⟩, known⟩)
            · exact absurd (closed target step) known
        have length : 0 < ((Grouping.distinct (frontier.flatMap next)).filter
            fun item => !reached.contains item).length :=
          List.length_pos_iff.mpr nonempty
        have inner := ih (nodup_append_fresh unique) (by
            intro item member
            rcases List.mem_append.mp member with old | new
            · exact within item old
            · obtain ⟨⟨source, _, step⟩, _⟩ := mem_fresh.mp new
              exact bounded source item step) (by
            intro item member
            rcases List.mem_append.mp member with old | new
            · exact Or.inr (followed item (Or.inl old))
            · exact Or.inl new) (by rw [List.length_append]; omega)
        intro item member target step
        rcases member with found | among
        · exact inner item (Or.inl found) target step
        · exact subset_closureWith (followed item (Or.inr among) target step)

theorem mem_closureWith_roots {all roots : List α}
    (bounded : ∀ item, ∀ target ∈ next item, target ∈ all) (unique : roots.Nodup)
    (within : ∀ item ∈ roots, item ∈ all) (item : α) :
    item ∈ closureWith next (all.length + 1) roots roots ↔
      ∃ root ∈ roots, ReflTransGen (Step next) root item := by
  constructor
  · intro member
    rcases closureWith_sound member with root | ⟨root, among, path⟩
    · exact ⟨item, root, ReflTransGen.refl⟩
    · exact ⟨root, among, path.to_reflTransGen⟩
  · rintro ⟨root, among, path⟩
    induction path with
    | refl => exact subset_closureWith among
    | tail _ step ih =>
        exact closureWith_closed bounded unique within (fun _ => Or.inl) (by omega) _ (Or.inl ih)
          _ step

theorem mem_closureWith_start {all : List α}
    (bounded : ∀ item, ∀ target ∈ next item, target ∈ all) (start item : α) :
    item ∈ closureWith next (all.length + 1) [] [start] ↔ TransGen (Step next) start item := by
  have closed : ∀ item, item ∈ closureWith next (all.length + 1) [] [start] ∨ item ∈ [start] →
      ∀ target ∈ next item, target ∈ closureWith next (all.length + 1) [] [start] :=
    closureWith_closed bounded List.nodup_nil (by simp)
      (fun _ none => absurd none List.not_mem_nil) (by simp)
  constructor
  · intro member
    rcases closureWith_sound member with nowhere | ⟨source, among, path⟩
    · exact absurd nowhere List.not_mem_nil
    · rwa [List.mem_singleton.mp among] at path
  · intro path
    induction path with
    | single step => exact closed _ (Or.inr (List.mem_singleton_self _)) _ step
    | tail _ step ih => exact closed _ (Or.inl ih) _ step

section

variable {β : Type} {onward : β → Option β}

/-- So many steps from the first item to the last one, from which there is no step. -/
inductive Path (onward : β → Option β) : Nat → β → β → Prop
  | stop {item : β} (final : onward item = none) : Path onward 0 item item
  | step {count : Nat} {item other last : β} (next : onward item = some other)
      (rest : Path onward count other last) : Path onward (count + 1) item last

theorem Path.final {count : Nat} {first last : β} (path : Path onward count first last) :
    onward last = none := by
  induction path with
  | stop final => exact final
  | step _ _ ih => exact ih

theorem Path.unique {count number : Nat} {first last other : β}
    (left : Path onward count first last) (right : Path onward number first other) :
    count = number ∧ last = other := by
  induction left generalizing number with
  | stop final =>
      cases right with
      | stop _ => exact ⟨rfl, rfl⟩
      | step next _ => rw [final] at next; cases next
  | step next _ ih =>
      cases right with
      | stop final => rw [final] at next; cases next
      | step again rest =>
          rw [next, Option.some.injEq] at again
          subst again
          obtain ⟨same, equal⟩ := ih rest
          exact ⟨congrArg _ same, equal⟩

theorem Path.exists_visited {count : Nat} {first last : β} (path : Path onward count first last) :
    ∃ visited : List β, visited.length = count ∧ visited.Nodup ∧
      ∀ item ∈ visited, onward item ≠ none ∧ ∃ steps ≤ count, Path onward steps item last := by
  induction path with
  | stop _ => exact ⟨[], rfl, List.nodup_nil, nofun⟩
  | @step count item other last next rest ih =>
      obtain ⟨visited, length, unique, leads⟩ := ih
      refine ⟨item :: visited, congrArg _ length, List.nodup_cons.mpr ⟨?_, unique⟩, ?_⟩
      · intro member
        obtain ⟨_, steps, fewer, path⟩ := leads item member
        have same := (path.unique (Path.step next rest)).1
        omega
      · intro visitor member
        rcases List.mem_cons.mp member with rfl | later
        · exact ⟨by simp [next], count + 1, Nat.le_refl _, Path.step next rest⟩
        · obtain ⟨goes, steps, fewer, path⟩ := leads visitor later
          exact ⟨goes, steps, Nat.le_succ_of_le fewer, path⟩

theorem Path.le_length {count : Nat} {first last : β} (path : Path onward count first last)
    {keys : List β} (inside : ∀ item, onward item ≠ none → item ∈ keys) : count ≤ keys.length := by
  obtain ⟨visited, rfl, unique, leads⟩ := path.exists_visited
  apply List.Subperm.length_le
  apply List.subperm_of_subset unique
  intro item member
  exact inside item (leads item member).1

theorem exists_path (founded : WellFounded fun other item => onward item = some other) (first : β) :
    ∃ count last, Path onward count first last := by
  induction first using founded.induction with
  | h first ih =>
      cases next : onward first with
      | none => exact ⟨0, first, Path.stop next⟩
      | some other =>
          obtain ⟨count, last, rest⟩ := ih other next
          exact ⟨count + 1, last, Path.step next rest⟩

end

end Mechanism.Search
