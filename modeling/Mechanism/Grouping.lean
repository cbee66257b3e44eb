import Std.Data.HashMap

/-!
Values collected by key, and distinct items. Keys and items come in the order of their first
occurrence, and the values of a key in the order in which they came.

Groups are collected in a hash table, so that a key is found without looking at the others;
`ofPairs_eq` says what the table amounts to.
-/

namespace Mechanism.Grouping

variable {α β : Type} [BEq α]

def extend (seen items : List α) : List α :=
  items.foldl (fun seen item => if seen.contains item then seen else seen ++ [item]) seen

def distinct (items : List α) : List α := extend [] items

/-- The values that come with a key, in the order in which they come. -/
def valuesOf (key : α) (pairs : List (α × β)) : List β :=
  pairs.filterMap fun pair => if pair.1 == key then some pair.2 else none

theorem extend_append (seen left right : List α) :
    extend seen (left ++ right) = extend (extend seen left) right := by
  simp [extend]

theorem valuesOf_append (key : α) (left right : List (α × β)) :
    valuesOf key (left ++ right) = valuesOf key left ++ valuesOf key right :=
  List.filterMap_append

section

variable [LawfulBEq α]

theorem mem_extend {seen items : List α} {item : α} :
    item ∈ extend seen items ↔ item ∈ seen ∨ item ∈ items := by
  induction items generalizing seen with
  | nil => simp [extend]
  | cons head tail ih =>
    have step : extend seen (head :: tail) =
        extend (if seen.contains head then seen else seen ++ [head]) tail := rfl
    rw [step, ih]
    split <;> simp_all <;> grind

theorem extend_eq_self {seen items : List α} (known : ∀ item ∈ items, item ∈ seen) :
    extend seen items = seen := by
  induction items with
  | nil => rfl
  | cons head tail ih =>
    have step : extend seen (head :: tail) =
        extend (if seen.contains head then seen else seen ++ [head]) tail := rfl
    have present : head ∈ seen := known head List.mem_cons_self
    rw [step, if_pos (List.contains_iff_mem.2 present)]
    exact ih fun item member => known item (List.mem_cons_of_mem _ member)

theorem mem_distinct {items : List α} {item : α} : item ∈ distinct items ↔ item ∈ items := by
  simp [distinct, mem_extend]

theorem valuesOf_eq_nil {key : α} {pairs : List (α × β)} (absent : key ∉ pairs.map (·.1)) :
    valuesOf key pairs = [] := by
  simp only [valuesOf, List.filterMap_eq_nil_iff]
  intro pair member
  rw [if_neg]
  intro same
  exact absent (List.mem_map.2 ⟨pair, member, eq_of_beq same⟩)

end

def insert (key : α) (value : β) : List (α × List β) → List (α × List β)
  | [] => [(key, [value])]
  | (other, values) :: rest =>
    if key == other then (other, values ++ [value]) :: rest
    else (other, values) :: insert key value rest

variable [Hashable α]

structure Groups (α β : Type) [BEq α] [Hashable α] where
  keys : List α
  values : Std.HashMap α (List β)

def Groups.add (groups : Groups α β) (pair : α × β) : Groups α β :=
  match groups.values[pair.1]? with
  | some values => ⟨groups.keys, groups.values.insert pair.1 (pair.2 :: values)⟩
  | none => ⟨pair.1 :: groups.keys, groups.values.insert pair.1 [pair.2]⟩

def Groups.toList (groups : Groups α β) : List (α × List β) :=
  groups.keys.reverse.map fun key => (key, (groups.values.getD key []).reverse)

def ofPairs (pairs : List (α × β)) : List (α × List β) :=
  match pairs with
  | [] => []
  | [(key, value)] => [(key, [value])]
  | _ => (pairs.foldl Groups.add ⟨[], .emptyWithCapacity pairs.length⟩).toList

variable [LawfulBEq α]

structure Groups.Holds (groups : Groups α β) (pairs : List (α × β)) : Prop where
  keys_eq : groups.keys.reverse = distinct (pairs.map (·.1))
  values_eq : ∀ key, groups.values[key]? =
    if key ∈ pairs.map (·.1) then some (valuesOf key pairs).reverse else none

theorem Groups.Holds.add {groups : Groups α β} {pairs : List (α × β)} (holds : groups.Holds pairs)
    (pair : α × β) : (groups.add pair).Holds (pairs ++ [pair]) := by
  have found := holds.values_eq pair.1
  have keys : distinct ((pairs ++ [pair]).map (·.1)) =
      extend (distinct (pairs.map (·.1))) [pair.1] := by
    simp [distinct, extend_append]
  have others : ∀ key, pair.1 ≠ key →
      (key ∈ (pairs ++ [pair]).map (·.1) ↔ key ∈ pairs.map (·.1)) ∧
        valuesOf key (pairs ++ [pair]) = valuesOf key pairs := fun key differ => by
    refine ⟨?_, ?_⟩
    · rw [List.map_append, List.mem_append]
      simp [Ne.symm differ]
    · rw [valuesOf_append]
      simp [valuesOf, differ]
  have own : pair.1 ∈ (pairs ++ [pair]).map (·.1) ∧
      valuesOf pair.1 (pairs ++ [pair]) = valuesOf pair.1 pairs ++ [pair.2] := by
    rw [valuesOf_append]
    simp [valuesOf]
  by_cases present : pair.1 ∈ pairs.map (·.1)
  · rw [if_pos present] at found
    have seen : pair.1 ∈ distinct (pairs.map (·.1)) := mem_distinct.2 present
    refine ⟨?_, fun key => ?_⟩
    · rw [keys, extend_eq_self (by simpa using seen), ← holds.keys_eq]
      simp [Groups.add, found]
    · simp only [Groups.add, found, Std.HashMap.getElem?_insert]
      by_cases same : pair.1 = key
      · subst same
        simp [own.2]
      · rw [if_neg (by simpa using same), holds.values_eq, (others key same).2]
        simp only [(others key same).1]
  · rw [if_neg present] at found
    have unseen : pair.1 ∉ distinct (pairs.map (·.1)) := fun seen => present (mem_distinct.1 seen)
    refine ⟨?_, fun key => ?_⟩
    · rw [keys]
      simp only [Groups.add, found, List.reverse_cons, holds.keys_eq]
      simp [extend, unseen]
    · simp only [Groups.add, found, Std.HashMap.getElem?_insert]
      by_cases same : pair.1 = key
      · subst same
        simp [own.2, valuesOf_eq_nil present]
      · rw [if_neg (by simpa using same), holds.values_eq, (others key same).2]
        simp only [(others key same).1]

theorem Groups.Holds.addAll {groups : Groups α β} {seen : List (α × β)} (holds : groups.Holds seen)
    (pairs : List (α × β)) : (pairs.foldl Groups.add groups).Holds (seen ++ pairs) := by
  induction pairs generalizing groups seen with
  | nil => simpa using holds
  | cons pair pairs ih => simpa using ih (holds.add pair)

theorem Groups.Holds.toList_eq {groups : Groups α β} {pairs : List (α × β)}
    (holds : groups.Holds pairs) :
    groups.toList = (distinct (pairs.map (·.1))).map fun key => (key, valuesOf key pairs) := by
  rw [Groups.toList, holds.keys_eq]
  refine List.map_congr_left fun key member => ?_
  rw [Std.HashMap.getD_eq_getD_getElem?, holds.values_eq, if_pos (mem_distinct.1 member)]
  simp

theorem ofPairs_eq (pairs : List (α × β)) :
    ofPairs pairs = (distinct (pairs.map (·.1))).map fun key => (key, valuesOf key pairs) := by
  have start : (⟨[], .emptyWithCapacity pairs.length⟩ : Groups α β).Holds [] := ⟨rfl, by simp⟩
  unfold ofPairs
  split
  · rfl
  · simp [distinct, extend, valuesOf]
  · simpa using (start.addAll pairs).toList_eq

end Mechanism.Grouping
