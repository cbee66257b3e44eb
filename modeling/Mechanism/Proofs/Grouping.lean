import Mathlib.Algebra.BigOperators.Group.List.Basic
import Mechanism.Grouping

/-!
What grouping keeps: every pair stands under its own key, and nothing is added or lost.
-/

namespace Mechanism.Grouping

variable {α β : Type}

/-- The first item occurs in a part of the list in which the second one does not occur yet. -/
def Before (items : List α) (first second : α) : Prop :=
  ∃ left right, items = left ++ right ∧ first ∈ left ∧ second ∉ left

theorem Before.append {items : List α} {first second : α} (before : Before items first second)
    (more : List α) : Before (items ++ more) first second := by
  obtain ⟨left, right, rfl, inside, outside⟩ := before
  exact ⟨left, right ++ more, List.append_assoc _ _ _, inside, outside⟩

theorem Before.of_filter {items : List α} {wanted : α → Bool} {first second : α}
    (isWanted : wanted second = true) (before : Before (items.filter wanted) first second) :
    Before items first second := by
  obtain ⟨left, right, same, inside, outside⟩ := before
  obtain ⟨start, rest, rfl, rfl, _⟩ := List.filter_eq_append_iff.mp same
  refine ⟨start, rest, rfl, (List.mem_filter.mp inside).1, ?_⟩
  intro member
  exact outside (List.mem_filter.mpr ⟨member, isWanted⟩)

theorem foldl_source (property : β → Prop) {cause : α → Prop} {step : β → α → β}
    (source : ∀ state item, property (step state item) → property state ∨ cause item)
    (items : List α) {start : β} (holds : property (items.foldl step start)) :
    property start ∨ ∃ item ∈ items, cause item := by
  induction items generalizing start with
  | nil => exact Or.inl holds
  | cons head tail ih =>
      rcases ih holds with stepped | ⟨item, member, brought⟩
      · rcases source start head stepped with before | brought
        · exact Or.inl before
        · exact Or.inr ⟨head, List.mem_cons_self, brought⟩
      · exact Or.inr ⟨item, List.mem_cons_of_mem _ member, brought⟩

theorem foldl_related (good : List α → β → Prop) (related : β → β → Prop) {step : β → α → β}
    (refl : ∀ state, good [] state → related state state)
    (trans : ∀ {first second third}, related first second → related second third →
      related first third)
    (each : ∀ head tail state, good (head :: tail) state →
      good tail (step state head) ∧ related state (step state head))
    (items : List α) (state : β) (start : good items state) :
    related state (items.foldl step state) := by
  induction items generalizing state with
  | nil => exact refl state start
  | cons head tail ih =>
      obtain ⟨rest, first⟩ := each head tail state start
      exact trans first (ih _ rest)

variable [BEq α] [LawfulBEq α]

theorem extend_eq_append (seen items : List α) :
    ∃ fresh, extend seen items = seen ++ fresh ∧ fresh.Sublist items := by
  induction items generalizing seen with
  | nil => exact ⟨[], by simp [extend], List.Sublist.refl _⟩
  | cons head tail ih =>
      have step : extend seen (head :: tail) =
          extend (if seen.contains head then seen else seen ++ [head]) tail := rfl
      rw [step]
      by_cases known : seen.contains head = true
      · rw [if_pos known]
        obtain ⟨fresh, extended, sublist⟩ := ih seen
        exact ⟨fresh, extended, sublist.cons head⟩
      · rw [if_neg known]
        obtain ⟨fresh, extended, sublist⟩ := ih (seen ++ [head])
        exact ⟨head :: fresh, by simp [extended], sublist.cons_cons head⟩

theorem distinct_sublist (items : List α) : (distinct items).Sublist items := by
  obtain ⟨fresh, extended, sublist⟩ := extend_eq_append [] items
  rw [distinct, extended]
  exact sublist

theorem nodup_extend {seen : List α} (unique : seen.Nodup) (items : List α) :
    (extend seen items).Nodup := by
  induction items generalizing seen with
  | nil => exact unique
  | cons head tail ih =>
      have step : extend seen (head :: tail) =
          extend (if seen.contains head then seen else seen ++ [head]) tail := rfl
      rw [step]
      apply ih
      by_cases known : head ∈ seen
      · simpa [known] using unique
      · simp only [List.contains_iff_mem, known, ↓reduceIte]
        exact List.nodup_append.mpr ⟨unique, by simp, by
          intro item member other single same
          rw [List.mem_singleton.mp single] at same
          exact known (same ▸ member)⟩

theorem nodup_distinct (items : List α) : (distinct items).Nodup :=
  nodup_extend List.nodup_nil items

theorem pairwise_extend {seen passed : List α} (items : List α)
    (ordered : seen.Pairwise (Before passed)) (same : ∀ item, item ∈ seen ↔ item ∈ passed) :
    (extend seen items).Pairwise (Before (passed ++ items)) := by
  induction items generalizing seen passed with
  | nil => simpa [extend] using ordered
  | cons head tail ih =>
      have step : extend seen (head :: tail) =
          extend (if seen.contains head then seen else seen ++ [head]) tail := rfl
      rw [step, List.append_cons]
      have kept := ordered.imp fun before => before.append [head]
      by_cases known : head ∈ seen
      · rw [if_pos (by simpa using known)]
        apply ih kept
        intro item
        rw [same, List.mem_append, List.mem_singleton, iff_self_or]
        rintro rfl
        exact (same _).mp known
      · rw [if_neg (by simpa using known)]
        refine ih (List.pairwise_append.mpr ⟨kept, List.pairwise_singleton _ _, ?_⟩) fun item => ?_
        · intro item member other single
          rw [List.mem_singleton.mp single]
          exact ⟨passed, [head], rfl, (same item).mp member,
            fun member => known ((same _).mpr member)⟩
        · rw [List.mem_append, List.mem_append, same]

theorem pairwise_distinct (items : List α) : (distinct items).Pairwise (Before items) :=
  pairwise_extend items List.Pairwise.nil fun _ => Iff.rfl

theorem map_valuesOf (key : α) (pairs : List (α × β)) :
    (valuesOf key pairs).map (Prod.mk key) = pairs.filter fun pair => pair.1 == key := by
  induction pairs with
  | nil => rfl
  | cons head tail ih =>
      obtain ⟨other, value⟩ := head
      by_cases same : other = key
      · subst same
        simpa [valuesOf] using ih
      · simpa [valuesOf, same] using ih

theorem flatMap_filter_perm {keys : List α} (unique : keys.Nodup) (pairs : List (α × β))
    (covered : ∀ pair ∈ pairs, pair.1 ∈ keys) :
    (keys.flatMap fun key => pairs.filter fun pair => pair.1 == key).Perm pairs := by
  induction keys generalizing pairs with
  | nil =>
      cases pairs with
      | nil => exact List.Perm.refl _
      | cons head tail => simpa using covered head (by simp)
  | cons key keys ih =>
      obtain ⟨fresh, rest⟩ := List.nodup_cons.mp unique
      have others : ∀ other ∈ keys, (pairs.filter fun pair => pair.1 == other) =
          (pairs.filter fun pair => !pair.1 == key).filter fun pair => pair.1 == other := by
        intro other member
        rw [List.filter_filter]
        apply List.filter_congr
        intro pair _
        by_cases same : pair.1 = other
        · have differs : other ≠ key := fun this => fresh (this ▸ member)
          simp [same, differs]
        · simp [same]
      rw [List.flatMap_cons, List.flatMap_congr others]
      have remaining := ih rest (pairs.filter fun pair => !pair.1 == key) (by
        intro pair member
        rw [List.mem_filter] at member
        rcases List.mem_cons.mp (covered pair member.1) with same | later
        · simp [same] at member
        · exact later)
      exact (remaining.append_left _).trans (List.filter_append_perm _ pairs)

theorem groups_perm (pairs : List (α × β)) :
    ((distinct (pairs.map (·.1))).flatMap fun key =>
      (valuesOf key pairs).map (Prod.mk key)).Perm pairs := by
  simp only [map_valuesOf]
  apply flatMap_filter_perm (nodup_distinct _)
  intro pair member
  exact mem_distinct.mpr (List.mem_map_of_mem member)

def valuesIn (groups : List (α × List β)) (key : α) : List β :=
  ((groups.find? fun entry => entry.1 == key).map (·.2)).getD []

theorem valuesIn_insert (key wanted : α) (value : β) (groups : List (α × List β)) :
    valuesIn (insert key value groups) wanted =
      if key == wanted then valuesIn groups wanted ++ [value] else valuesIn groups wanted := by
  induction groups with
  | nil => by_cases same : key = wanted <;> simp [valuesIn, insert, same]
  | cons head tail ih =>
      obtain ⟨other, values⟩ := head
      unfold insert
      by_cases here : key = other
      · subst here
        by_cases same : key = wanted <;> simp [valuesIn, same]
      · simp only [beq_iff_eq, here, if_false]
        by_cases found : other = wanted
        · subst found
          simp [valuesIn, here]
        · simpa [valuesIn, found] using ih

theorem valuesIn_ofPairs [Hashable α] (pairs : List (α × β)) (key : α) :
    valuesIn (ofPairs pairs) key = valuesOf key pairs := by
  rw [ofPairs_eq, valuesIn]
  by_cases present : key ∈ distinct (pairs.map (·.1))
  · have found : ((distinct (pairs.map (·.1))).map fun key => (key, valuesOf key pairs)).find?
        (fun entry => entry.1 == key) = some (key, valuesOf key pairs) := by
      generalize distinct (pairs.map (·.1)) = keys at present
      induction keys with
      | nil => cases present
      | cons head tail ih =>
          by_cases here : head = key
          · simp [here]
          · have later : key ∈ tail := (List.mem_cons.mp present).resolve_left (Ne.symm here)
            simp [here, ih later]
    rw [found, Option.map_some, Option.getD_some]
  · have absent : key ∉ pairs.map (·.1) := fun member => present (mem_distinct.mpr member)
    rw [valuesOf_eq_nil absent, List.find?_eq_none.mpr]
    · rfl
    · intro entry member same
      obtain ⟨other, among, rfl⟩ := List.mem_map.mp member
      exact present (eq_of_beq same ▸ among)

theorem mem_valuesOf {key : α} {value : β} {pairs : List (α × β)} :
    value ∈ valuesOf key pairs ↔ (key, value) ∈ pairs := by
  simp only [valuesOf, List.mem_filterMap]
  constructor
  · rintro ⟨⟨other, found⟩, member, taken⟩
    split at taken
    · rename_i same
      cases taken
      rwa [← eq_of_beq same]
    · cases taken
  · intro member
    exact ⟨(key, value), member, by simp⟩

theorem sum_map_flatMap {γ δ M : Type} [AddMonoid M] (items : List γ) (expand : γ → List δ)
    (weight : δ → M) :
    ((items.flatMap expand).map weight).sum =
      (items.map fun item => ((expand item).map weight).sum).sum := by
  induction items with
  | nil => rfl
  | cons head tail ih => simp [ih]

theorem prod_map_flatMap {γ δ M : Type} [Monoid M] (items : List γ) (expand : γ → List δ)
    (weight : δ → M) :
    ((items.flatMap expand).map weight).prod =
      (items.map fun item => ((expand item).map weight).prod).prod := by
  induction items with
  | nil => rfl
  | cons head tail ih => simp [ih]

theorem sum_groups {M : Type} [AddCommMonoid M] (pairs : List (α × β)) (weight : α × β → M) :
    ((distinct (pairs.map (·.1))).map fun key =>
      ((valuesOf key pairs).map fun value => weight (key, value)).sum).sum =
      (pairs.map weight).sum := by
  rw [← ((groups_perm pairs).map weight).sum_eq, sum_map_flatMap]
  simp [Function.comp_def]

theorem prod_groups {M : Type} [CommMonoid M] (pairs : List (α × β)) (weight : α × β → M) :
    ((distinct (pairs.map (·.1))).map fun key =>
      ((valuesOf key pairs).map fun value => weight (key, value)).prod).prod =
      (pairs.map weight).prod := by
  rw [← ((groups_perm pairs).map weight).prod_eq, prod_map_flatMap]
  simp [Function.comp_def]

end Mechanism.Grouping
