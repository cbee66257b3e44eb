import Mathlib.Data.List.Basic
import Mathlib.Data.Prod.Basic
import Mechanism.Ordering
import Mechanism.Plane
import Mechanism.Table
import Mechanism.Chain.Basic
import Mechanism.Graph.Basic

/-!
Moving the numbers of symbols. All symbols in a piece of data get numbers that are higher by the
same amount, and nothing else about them changes; so symbols that were different stay different.

A function is indifferent to the numbers when it may be applied before or after they are moved. Such
an equation is stated beside each function, with the moving on the outside, so that `simp` takes the
numbers through whatever is composed of these functions.
-/

namespace Mechanism

/-- Data in which symbols may occur, the numbers of which can be moved. -/
class Numbered (α : Type) where
  shift (offset : Nat) : α → α

export Numbered (shift)

/-- Data that the moving of numbers keeps apart. -/
class Faithful (α : Type) [Numbered α] : Prop where
  injective : ∀ offset, Function.Injective (shift offset : α → α)

class Plain (α : Type) [Numbered α] : Prop where
  shift_eq : ∀ offset, (shift offset : α → α) = id

variable {α β ε : Type} [Numbered α] [Numbered β] [Numbered ε] (offset : Nat)

@[simp] theorem shift_plain [Plain α] : (shift offset : α → α) = id := Plain.shift_eq offset

instance [Plain α] : Faithful α := ⟨fun offset => by
  rw [shift_plain]
  exact Function.injective_id⟩

@[simp] theorem shift_inj [Faithful α] {left right : α} :
    shift offset left = shift offset right ↔ left = right :=
  (Faithful.injective offset).eq_iff

@[simp] theorem shift_beq [DecidableEq α] [Faithful α] (left right : α) :
    (shift offset left == shift offset right) = (left == right) := by
  rw [Bool.eq_iff_iff, beq_iff_eq, beq_iff_eq, shift_inj]

@[simp] theorem shift_ite (condition : Prop) [Decidable condition] (left right : α) :
    shift offset (if condition then left else right) =
      if condition then shift offset left else shift offset right :=
  apply_ite _ _ _ _

instance : Numbered Nat := ⟨fun _ => id⟩
instance : Plain Nat := ⟨fun _ => rfl⟩
instance : Numbered Bool := ⟨fun _ => id⟩
instance : Plain Bool := ⟨fun _ => rfl⟩
instance : Numbered String := ⟨fun _ => id⟩
instance : Plain String := ⟨fun _ => rfl⟩
instance : Numbered Unit := ⟨fun _ => id⟩
instance : Plain Unit := ⟨fun _ => rfl⟩
instance : Numbered Shape := ⟨fun _ => id⟩
instance : Plain Shape := ⟨fun _ => rfl⟩
instance : Numbered Axis := ⟨fun _ => id⟩
instance : Plain Axis := ⟨fun _ => rfl⟩
instance : Numbered CategorySet := ⟨fun _ => id⟩
instance : Plain CategorySet := ⟨fun _ => rfl⟩
instance : Numbered AlgebraError := ⟨fun _ => id⟩
instance : Plain AlgebraError := ⟨fun _ => rfl⟩
instance : Numbered SimplifyError := ⟨fun _ => id⟩
instance : Plain SimplifyError := ⟨fun _ => rfl⟩
instance : Numbered JointId := ⟨fun _ => id⟩
instance : Plain JointId := ⟨fun _ => rfl⟩
instance : Numbered ChainError := ⟨fun _ => id⟩
instance : Plain ChainError := ⟨fun _ => rfl⟩

instance (priority := low) {κ : Type} [Scalar κ] : Numbered κ := ⟨fun _ => id⟩
instance (priority := low) {κ : Type} [Scalar κ] : Plain κ := ⟨fun _ => rfl⟩
instance {κ : Type} : Numbered (Direction κ) := ⟨fun _ => id⟩
instance {κ : Type} : Plain (Direction κ) := ⟨fun _ => rfl⟩
instance {κ : Type} [Scalar κ] : Numbered (Motion κ) := ⟨fun _ => id⟩
instance {κ : Type} [Scalar κ] : Plain (Motion κ) := ⟨fun _ => rfl⟩

instance : Numbered (α × β) := ⟨fun offset => Prod.map (shift offset) (shift offset)⟩

@[simp] theorem shift_pair (pair : α × β) :
    shift offset pair = (shift offset pair.1, shift offset pair.2) := rfl

instance [Plain α] [Plain β] : Plain (α × β) := ⟨fun offset => by
  funext pair
  simp⟩

instance [Faithful α] [Faithful β] : Faithful (α × β) :=
  ⟨fun offset =>
    Function.Injective.prodMap (Faithful.injective offset) (Faithful.injective offset)⟩

instance : Numbered (List α) := ⟨fun offset => List.map (shift offset)⟩

@[simp] theorem shift_list (items : List α) : shift offset items = items.map (shift offset) := rfl

instance [Faithful α] : Faithful (List α) :=
  ⟨fun offset => List.map_injective_iff.mpr (Faithful.injective offset)⟩

instance [Plain α] : Plain (List α) := ⟨fun offset => by
  funext items
  simp⟩

instance : Numbered (Option α) := ⟨fun offset => Option.map (shift offset)⟩

@[simp] theorem shift_option (item : Option α) :
    shift offset item = item.map (shift offset) := rfl

instance [Plain α] : Plain (Option α) := ⟨fun offset => by
  funext item
  simp⟩

instance [Faithful α] : Faithful (Option α) :=
  ⟨fun offset => Option.map_injective (Faithful.injective offset)⟩

instance : Numbered (Except ε α) := ⟨fun offset outcome =>
  match outcome with
  | .ok value => .ok (shift offset value)
  | .error error => .error (shift offset error)⟩

@[simp] theorem shift_ok (value : α) :
    shift offset (.ok value : Except ε α) = .ok (shift offset value) := rfl

@[simp] theorem shift_error (error : ε) :
    shift offset (.error error : Except ε α) = .error (shift offset error) := rfl

@[simp] theorem toOption_shift (outcome : Except ε α) :
    (shift offset outcome).toOption = outcome.toOption.map (shift offset) := by
  cases outcome <;> rfl

instance [Plain ε] [Plain α] : Plain (Except ε α) := ⟨fun offset => by
  funext outcome
  cases outcome <;> simp⟩

theorem bind_shift {first first' : Except ε α} {next next' : α → Except ε β}
    (start : first' = shift offset first)
    (rest : ∀ value, next' (shift offset value) = shift offset (next value)) :
    (first' >>= next') = shift offset (first >>= next) := by
  subst start
  cases first with
  | error error => rfl
  | ok value => exact rest value

theorem guard_shift {condition : Prop} [Decidable condition] {refusal refusal' : Except ε Unit}
    {rest rest' : Except ε β} (refused : refusal' = shift offset refusal)
    (goesOn : rest' = shift offset rest) :
    (if condition then refusal' >>= fun _ => rest' else rest') =
      shift offset (if condition then refusal >>= fun _ => rest else rest) := by
  rw [shift_ite]
  exact ite_congr rfl (fun _ => bind_shift offset refused fun _ => goesOn) fun _ => goesOn

theorem mapM_moved {γ : Type} {change change' : γ → Except ε β} (items : List γ)
    (each : ∀ item ∈ items, change' item = shift offset (change item)) :
    items.mapM change' = shift offset (items.mapM change) := by
  induction items with
  | nil => rfl
  | cons head tail ih =>
      rw [List.mapM_cons, List.mapM_cons]
      refine bind_shift offset (each head List.mem_cons_self) fun first => ?_
      refine bind_shift offset (ih fun item member => each item (List.mem_cons_of_mem _ member))
        fun rest => ?_
      rfl

theorem mapM_shift {change change' : α → Except ε β} (items : List α)
    (each : ∀ item ∈ items, change' (shift offset item) = shift offset (change item)) :
    (items.map (shift offset)).mapM change' = shift offset (items.mapM change) := by
  rw [List.mapM_map]
  exact mapM_moved offset items each

theorem flatMap_shift {parts parts' : α → List β} (items : List α)
    (each : ∀ item ∈ items, parts' (shift offset item) = (parts item).map (shift offset)) :
    (items.map (shift offset)).flatMap parts' = (items.flatMap parts).map (shift offset) := by
  rw [List.flatMap_map, List.map_flatMap, List.flatMap_congr each]

theorem foldl_related {σ τ γ δ : Type} (related : σ → τ → Prop) {carry : γ → δ}
    {step : σ → δ → σ} {step' : τ → γ → τ}
    (each : ∀ left right item, related left right →
      related (step left (carry item)) (step' right item))
    (items : List γ) {left : σ} {right : τ} (start : related left right) :
    related ((items.map carry).foldl step left) (items.foldl step' right) := by
  induction items generalizing left right with
  | nil => exact start
  | cons head tail ih => exact ih (each left right head start)

theorem foldl_keeps {σ τ γ : Type} (part : σ → τ) {step : σ → γ → σ}
    (keeps : ∀ state item, part (step state item) = part state) (items : List γ) (start : σ) :
    part (items.foldl step start) = part start := by
  induction items generalizing start with
  | nil => rfl
  | cons head tail ih => exact (ih _).trans (keeps start head)

theorem foldl_shift {step step' : β → α → β}
    (same : ∀ state item,
      step' (shift offset state) (shift offset item) = shift offset (step state item))
    (items : List α) (start : β) :
    (items.map (shift offset)).foldl step' (shift offset start) =
      shift offset (items.foldl step start) := by
  refine foldl_related (fun moved state => moved = shift offset state) ?_ items rfl
  rintro _ state item rfl
  exact same state item

instance : Numbered (Table α β) := ⟨fun offset table => ⟨table.entries.map (shift offset)⟩⟩

namespace Table

@[simp] theorem shift_entries (table : Table α β) :
    (shift offset table).entries = table.entries.map (shift offset) := rfl

@[simp] theorem shift_mk (entries : List (α × β)) :
    shift offset (Table.mk entries) = ⟨entries.map (shift offset)⟩ := rfl

@[simp] theorem shift_empty : shift offset (∅ : Table α β) = ∅ := rfl

@[simp] theorem keys_shift (table : Table α β) :
    (shift offset table).keys = table.keys.map (shift offset) := by
  simp [keys, Function.comp_def]

@[simp] theorem size_shift (table : Table α β) : (shift offset table).size = table.size := by
  simp [size]

@[simp] theorem isEmpty_shift (table : Table α β) :
    (shift offset table).isEmpty = table.isEmpty := by
  simp [isEmpty]

variable [DecidableEq α] [Faithful α] (table : Table α β) (key : α)

@[simp] theorem find?_shift :
    (shift offset table).find? (shift offset key) = (table.find? key).map (shift offset) := by
  simp [find?, List.find?_map, Function.comp_def]

@[simp] theorem contains_shift :
    (shift offset table).contains (shift offset key) = table.contains key := by
  simp [contains]

@[simp] theorem insert_shift (value : β) :
    (shift offset table).insert (shift offset key) (shift offset value) =
      shift offset (table.insert key value) := by
  have entries : ∀ entries : List (α × β),
      insertInto (shift offset key) (shift offset value) (entries.map (shift offset)) =
        (insertInto key value entries).map (shift offset) := by
    intro entries
    induction entries with
    | nil => rfl
    | cons head tail ih =>
        by_cases same : head.1 = key
        · simp [insertInto, same]
        · simp [insertInto, same, ih]
  simp [insert, entries]

theorem insert_plain [Plain β] (value : β) :
    (shift offset table).insert (shift offset key) value =
      shift offset (table.insert key value) := by
  simpa using insert_shift offset table key value

@[simp] theorem erase_shift :
    (shift offset table).erase (shift offset key) = shift offset (table.erase key) := by
  simp [erase, List.filter_map, Function.comp_def]

end Table

@[simp] theorem contains_map_shift [DecidableEq α] [Faithful α] (items : List α) (item : α) :
    (items.map (shift offset)).contains (shift offset item) = items.contains item := by
  rw [Bool.eq_iff_iff]
  simp

@[simp] theorem sort_shift {before before' : α → α → Bool}
    (same : ∀ left right, before' (shift offset left) (shift offset right) = before left right)
    (items : List α) :
    Ordering.sort before' (items.map (shift offset)) =
      (Ordering.sort before items).map (shift offset) := by
  have place : ∀ (item : α) (items : List α),
      Ordering.place before' (shift offset item) (items.map (shift offset)) =
        (Ordering.place before item items).map (shift offset) := by
    intro item items
    induction items with
    | nil => rfl
    | cons head tail ih =>
        simp only [List.map_cons, Ordering.place, same, ih]
        split <;> rfl
  induction items with
  | nil => rfl
  | cons head tail ih => rw [List.map_cons, Ordering.sort, ih, place, Ordering.sort]

namespace Grouping

variable [DecidableEq α] [Faithful α]

@[simp] theorem extend_shift (seen items : List α) :
    extend (seen.map (shift offset)) (items.map (shift offset)) =
      (extend seen items).map (shift offset) := by
  induction items generalizing seen with
  | nil => rfl
  | cons head tail ih =>
      have grown : (if (seen.map (shift offset)).contains (shift offset head) then
          seen.map (shift offset) else seen.map (shift offset) ++ [shift offset head]) =
            (if seen.contains head then seen else seen ++ [head]).map (shift offset) := by
        rw [contains_map_shift]
        split <;> simp
      change extend (if _ then _ else _) (tail.map (shift offset)) = _
      rw [grown, ih]
      rfl

@[simp] theorem distinct_shift (items : List α) :
    distinct (items.map (shift offset)) = (distinct items).map (shift offset) :=
  extend_shift offset [] items

@[simp] theorem valuesOf_shift (key : α) (pairs : List (α × β)) :
    valuesOf (shift offset key) (pairs.map (shift offset)) =
      (valuesOf key pairs).map (shift offset) := by
  induction pairs with
  | nil => rfl
  | cons head tail ih =>
      by_cases same : head.1 = key <;> simp_all [valuesOf]

@[simp] theorem insert_shift (key : α) (value : β) (groups : List (α × List β)) :
    insert (shift offset key) (shift offset value) (groups.map (shift offset)) =
      (insert key value groups).map (shift offset) := by
  induction groups with
  | nil => rfl
  | cons head tail ih =>
      by_cases same : key = head.1 <;> simp_all [insert]

@[simp] theorem ofPairs_shift [Hashable α] (pairs : List (α × β)) :
    ofPairs (pairs.map (shift offset)) = (ofPairs pairs).map (shift offset) := by
  have keys : (pairs.map (shift offset)).map (·.1) = (pairs.map (·.1)).map (shift offset) := by
    simp [Function.comp_def]
  rw [ofPairs_eq, ofPairs_eq, keys, distinct_shift, List.map_map, List.map_map]
  exact List.map_congr_left fun key _ => by simp

end Grouping

instance : Numbered Symbol := ⟨fun offset symbol => { symbol with number := symbol.number + offset }⟩

namespace Symbol

variable (symbol : Symbol)

@[simp] theorem shift_name : (shift offset symbol).name = symbol.name := rfl

@[simp] theorem shift_shape : (shift offset symbol).shape = symbol.shape := rfl

@[simp] theorem shift_domain : (shift offset symbol).domain = symbol.domain := rfl

end Symbol

instance : Faithful Symbol := ⟨fun offset left right same => by
  cases left
  cases right
  simpa [shift] using same⟩

instance : Numbered Atom := ⟨fun offset atom =>
  match atom with
  | .whole symbol => .whole (shift offset symbol)
  | .entry symbol row column => .entry (shift offset symbol) row column⟩

namespace Atom

@[simp] theorem shift_whole (symbol : Symbol) :
    shift offset (Atom.whole symbol) = .whole (shift offset symbol) := rfl

@[simp] theorem shift_entry (symbol : Symbol) (row column : Nat) :
    shift offset (Atom.entry symbol row column) = .entry (shift offset symbol) row column := rfl

variable (atom : Atom)

@[simp] theorem symbol_shift : (shift offset atom).symbol = shift offset atom.symbol := by
  cases atom <;> rfl

@[simp] theorem flatIndex_shift : (shift offset atom).flatIndex = atom.flatIndex := by
  cases atom <;> rfl

@[simp] theorem fingerprint_shift : (shift offset atom).fingerprint = atom.fingerprint := by
  cases atom <;> rfl

@[simp] theorem text_shift : (shift offset atom).text = atom.text := by
  cases atom <;> rfl

end Atom

instance : Faithful Atom := ⟨fun offset left right same => by
  cases left <;> cases right <;> simp_all⟩

namespace Symbol

variable (symbol : Symbol)

@[simp] theorem atomAt_shift (row column : Nat) :
    (shift offset symbol).atomAt row column = shift offset (symbol.atomAt row column) := by
  simp only [atomAt, shift_shape]
  split <;> rfl

@[simp] theorem atoms_shift : (shift offset symbol).atoms = symbol.atoms.map (shift offset) := by
  simp [atoms]

end Symbol

instance : Numbered SymbolSupply := ⟨fun offset supply => ⟨supply.next + offset⟩⟩

@[simp] theorem SymbolSupply.fresh_shift (supply : SymbolSupply) (name : String) (shape : Shape)
    (domain : Domain) :
    (shift offset supply).fresh name shape domain =
      shift offset (supply.fresh name shape domain) := by
  simp [fresh, shift, Nat.add_right_comm]

end Mechanism
