import Mathlib.Data.List.Forall2
import Mechanism.Graph.Sharing
import Mechanism.Proofs.Tensor.Matrices

/-!
What the sharing of subexpressions makes of an expression: some parts are replaced by the symbols
that stand for them, and the rest is built again around them. A symbol stands for an expression
when its own value is that expression, shared below the root.
-/

namespace Mechanism.Graph

variable {κ α β : Type} [Scalar κ]

abbrev Naming (κ : Type) [Scalar κ] := Expr κ → Symbol → Prop

def Naming.Within (named more : Naming κ) : Prop :=
  ∀ expr symbol, named expr symbol → more expr symbol

inductive Shared (named : Naming κ) : Expr κ → Expr κ → Prop where
  | symbol {expr : Expr κ} {symbol : Symbol} (isNamed : named expr symbol) :
      Shared named expr (.atom (.whole symbol))
  | rebuilt {expr : Expr κ} {operands : List (Expr κ)}
      (parts : List.Forall₂ (Shared named) expr.children operands) :
      Shared named expr (expr.rebuild operands)

def SharedBelow (named : Naming κ) (expr result : Expr κ) : Prop :=
  ∃ operands, List.Forall₂ (Shared named) expr.children operands ∧ result = expr.rebuild operands

theorem SharedBelow.shared {named : Naming κ} {expr result : Expr κ}
    (below : SharedBelow named expr result) : Shared named expr result := by
  obtain ⟨operands, parts, rfl⟩ := below
  exact Shared.rebuilt parts

theorem Shared.mono {named more : Naming κ} (within : named.Within more) {expr result : Expr κ}
    (shared : Shared named expr result) : Shared more expr result := by
  induction expr using Expr.induct generalizing result with
  | step expr ih =>
      cases shared with
      | symbol isNamed => exact Shared.symbol (within _ _ isNamed)
      | rebuilt parts =>
          apply Shared.rebuilt
          have inside := (List.forall₂_and_left _ _).mpr ⟨fun _ member => member, parts⟩
          exact inside.imp fun child result part => ih child part.1 part.2

theorem SharedBelow.mono {named more : Naming κ} (within : named.Within more)
    {expr result : Expr κ} (below : SharedBelow named expr result) :
    SharedBelow more expr result := by
  obtain ⟨operands, parts, rfl⟩ := below
  exact ⟨operands, parts.imp fun _ _ shared => shared.mono within, rfl⟩

/-- Entry by entry; the entry of a scalar keeps its root. -/
structure SharedTensor (named : Naming κ) (tensor result : Tensor κ) : Prop where
  shape_eq : result.shape = tensor.shape
  entries : List.Forall₂ (Shared named) tensor.entries result.entries
  below : tensor.shape.isScalar = true →
    List.Forall₂ (SharedBelow named) tensor.entries result.entries

theorem SharedTensor.mono {named more : Naming κ} (within : named.Within more)
    {tensor result : Tensor κ} (shared : SharedTensor named tensor result) :
    SharedTensor more tensor result where
  shape_eq := shared.shape_eq
  entries := shared.entries.imp fun _ _ shared => shared.mono within
  below := fun scalar => (shared.below scalar).imp fun _ _ below => below.mono within

/-- The names that a run of sharing has given and the values that it has made for them. -/
structure Hoisted (start : Hoisting κ) (good : Atom → Prop) (named : Naming κ)
    (state : Hoisting κ) : Prop where
  known : ∀ {expr : Expr κ} {symbol : Symbol}, state.named[expr]? = some symbol → named expr symbol
  source : ∀ {expr : Expr κ} {symbol : Symbol}, named expr symbol →
    start.named[expr]? = some symbol ∨
      ∃ value, (symbol, value) ∈ state.temporaries ∧ SharedBelow named expr value
  reads : ∀ {expr : Expr κ} {symbol : Symbol}, named expr symbol →
    ∀ atom ∈ expr.occurrences, good atom
  made : ∀ entry ∈ state.temporaries, ∃ expr, named expr entry.1 ∧ SharedBelow named expr entry.2
  scalar : ∀ entry ∈ state.temporaries, entry.1.shape = .scalar
  fresh : ∀ entry ∈ state.temporaries,
    start.supply.next ≤ entry.1.number ∧ entry.1.number < state.supply.next
  nodup : (state.temporaries.map (·.1)).Nodup
  le : start.supply.next ≤ state.supply.next

namespace Hoist

def perform (action : Hoist κ α) (state : Hoisting κ) : α × Hoisting κ := action.run state

variable (start : Hoisting κ) (good : Atom → Prop)

/-- Whatever has been named before, the result is as described by the names that there are then. -/
def Yields (action : Hoist κ α) (post : Naming κ → α → Prop) : Prop :=
  ∀ named state, Hoisted start good named state → ∃ more, Naming.Within named more ∧
    Hoisted start good more (action.perform state).2 ∧ post more (action.perform state).1

variable {start good}

theorem yields_pure {value : α} {post : Naming κ → α → Prop} (holds : ∀ named, post named value) :
    Yields start good (pure value) post :=
  fun named _ hoisted => ⟨named, fun _ _ isNamed => isNamed, hoisted, holds named⟩

theorem Yields.bind {action : Hoist κ α} {next : α → Hoist κ β} {post : Naming κ → α → Prop}
    {last : Naming κ → β → Prop} (first : Yields start good action post)
    (mono : ∀ named more value, Naming.Within named more → post named value → post more value)
    (second : ∀ value, Yields start good (next value) fun named result =>
      post named value → last named result) :
    Yields start good (action >>= next) last := by
  intro named state hoisted
  obtain ⟨middle, grown, after, holds⟩ := first named state hoisted
  obtain ⟨more, further, final, result⟩ := second _ middle _ after
  refine ⟨more, fun expr symbol isNamed => further _ _ (grown _ _ isNamed), final, ?_⟩
  exact result (mono middle more _ further holds)

theorem yields_mapM {items : List α} {step : α → Hoist κ β} {post : Naming κ → α → β → Prop}
    (each : ∀ item ∈ items, Yields start good (step item) fun named result => post named item result)
    (mono : ∀ named more item result, Naming.Within named more → post named item result →
      post more item result) :
    Yields start good (items.mapM step) fun named results =>
      List.Forall₂ (post named) items results := by
  induction items with
  | nil =>
      rw [List.mapM_nil]
      exact yields_pure fun _ => List.Forall₂.nil
  | cons head tail ih =>
      rw [List.mapM_cons]
      refine (each head List.mem_cons_self).bind
        (fun named more result within holds => mono named more head result within holds) ?_
      intro result
      refine (ih fun item member => each item (List.mem_cons_of_mem _ member)).bind
        (fun named more results within holds => holds.imp fun item result =>
          mono named more item result within) ?_
      intro results
      exact yields_pure fun _ rest first => List.Forall₂.cons first rest

end Hoist

open Hoist

theorem shareAll_eq (repeated : Expr κ → Bool) (exprs : List (Expr κ)) :
    shareAll repeated exprs = exprs.mapM (shareIn repeated) := by
  induction exprs with
  | nil => rw [shareAll, List.mapM_nil]
  | cons head tail ih => rw [shareAll, ih, List.mapM_cons]

theorem shareIn_eq (repeated : Expr κ → Bool) (expr : Expr κ) :
    shareIn repeated expr = shareAs repeated expr (shareBelow repeated expr) := by
  unfold shareBelow
  cases expr <;> simp [shareIn, shareAll, shareAs, isHoistable, Expr.children, Expr.rebuild]

variable {start : Hoisting κ} {good : Atom → Prop} {repeated : Expr κ → Bool}

theorem perform_nameTemporary (expr value : Expr κ) (state : Hoisting κ) :
    (nameTemporary expr value).perform state =
      (.atom (.whole (state.supply.fresh (temporaryName state.nextName) .scalar).1),
        { named := state.named.insert expr
            (state.supply.fresh (temporaryName state.nextName) .scalar).1
          temporaries := state.temporaries ++
            [((state.supply.fresh (temporaryName state.nextName) .scalar).1, value)]
          nextName := state.nextName + 1
          supply := (state.supply.fresh (temporaryName state.nextName) .scalar).2 }) := rfl

theorem yields_nameTemporary {expr : Expr κ} (reads : ∀ atom ∈ expr.occurrences, good atom)
    {named : Naming κ} {state : Hoisting κ} (hoisted : Hoisted start good named state)
    {value : Expr κ} (below : SharedBelow named expr value) :
    ∃ more, Naming.Within named more ∧
      Hoisted start good more ((nameTemporary expr value).perform state).2 ∧
        Shared more expr ((nameTemporary expr value).perform state).1 := by
  rw [perform_nameTemporary]
  let symbol := (state.supply.fresh (temporaryName state.nextName) .scalar).1
  let more : Naming κ := fun other name => named other name ∨ other = expr ∧ name = symbol
  have within : Naming.Within named more := fun _ _ isNamed => Or.inl isNamed
  have own : SharedBelow more expr value := below.mono within
  refine ⟨more, within, ?_, Shared.symbol (Or.inr ⟨rfl, rfl⟩)⟩
  have cases_of_mem : ∀ {property : Symbol × Expr κ → Prop},
      (∀ entry ∈ state.temporaries, property entry) → property (symbol, value) →
        ∀ entry ∈ state.temporaries ++ [(symbol, value)], property entry := by
    intro property old new entry member
    rcases List.mem_append.mp member with before | last
    · exact old entry before
    · rw [List.mem_singleton.mp last]
      exact new
  constructor
  · intro other name found
    rw [Std.HashMap.getElem?_insert] at found
    split at found
    · rename_i same
      cases found
      exact Or.inr ⟨(eq_of_beq same).symm, rfl⟩
    · exact Or.inl (hoisted.known found)
  · rintro other name (old | ⟨rfl, rfl⟩)
    · rcases hoisted.source old with first | ⟨made, member, shared⟩
      · exact Or.inl first
      · exact Or.inr ⟨made, List.mem_append_left _ member, shared.mono within⟩
    · exact Or.inr ⟨value, List.mem_append_right _ (List.mem_singleton_self _), own⟩
  · rintro other name (old | ⟨rfl, rfl⟩)
    · exact hoisted.reads old
    · exact reads
  · apply cases_of_mem
    · intro entry member
      obtain ⟨other, isNamed, shared⟩ := hoisted.made entry member
      exact ⟨other, Or.inl isNamed, shared.mono within⟩
    · exact ⟨expr, Or.inr ⟨rfl, rfl⟩, own⟩
  · exact cases_of_mem hoisted.scalar rfl
  · apply cases_of_mem
    · intro entry member
      obtain ⟨lower, upper⟩ := hoisted.fresh entry member
      exact ⟨lower, Nat.lt_succ_of_lt upper⟩
    · exact ⟨hoisted.le, Nat.lt_succ_self _⟩
  · rw [List.map_append]
    apply List.nodup_append.mpr
    refine ⟨hoisted.nodup, by simp, ?_⟩
    intro name member other single same
    obtain ⟨entry, among, rfl⟩ := List.mem_map.mp member
    have number : entry.1.number < symbol.number := (hoisted.fresh entry among).2
    rw [same, List.mem_singleton.mp single] at number
    exact absurd number (lt_irrefl _)
  · exact Nat.le_succ_of_le hoisted.le

theorem perform_shareAs (expr : Expr κ) (rebuild : Hoist κ (Expr κ)) (state : Hoisting κ) :
    (shareAs repeated expr rebuild).perform state =
      if isHoistable expr && repeated expr then
        match state.named[expr]? with
        | some symbol => (.atom (.whole symbol), state)
        | none => (nameTemporary expr (rebuild.perform state).1).perform (rebuild.perform state).2
      else rebuild.perform state := by
  unfold shareAs
  split
  · change ((match state.named[expr]? with
      | some symbol => return .atom (.whole symbol)
      | none => do
        let value ← rebuild
        nameTemporary expr value : Hoist κ (Expr κ))).perform state = _
    cases state.named[expr]? <;> rfl
  · rfl

theorem yields_shareAs {expr : Expr κ} (reads : ∀ atom ∈ expr.occurrences, good atom)
    {rebuild : Hoist κ (Expr κ)}
    (rebuilds : Yields start good rebuild fun named result => SharedBelow named expr result) :
    Yields start good (shareAs repeated expr rebuild) fun named result =>
      Shared named expr result := by
  intro named state hoisted
  rw [perform_shareAs]
  split
  · cases found : state.named[expr]? with
    | some symbol =>
        exact ⟨named, fun _ _ isNamed => isNamed, hoisted, Shared.symbol (hoisted.known found)⟩
    | none =>
        obtain ⟨middle, grown, after, below⟩ := rebuilds named state hoisted
        obtain ⟨more, further, final, shared⟩ := yields_nameTemporary reads after below
        exact ⟨more, fun expr symbol isNamed => further _ _ (grown _ _ isNamed), final, shared⟩
  · obtain ⟨more, grown, after, below⟩ := rebuilds named state hoisted
    exact ⟨more, grown, after, below.shared⟩

theorem yields_operands {expr : Expr κ}
    (each : ∀ child ∈ expr.children, Yields start good (shareIn repeated child) fun named result =>
      Shared named child result) :
    Yields start good (shareBelow repeated expr) fun named result =>
      SharedBelow named expr result := by
  unfold shareBelow
  rw [shareAll_eq]
  refine (yields_mapM each fun _ _ _ _ within shared => shared.mono within).bind
    (fun _ _ _ within parts => parts.imp fun _ _ shared => shared.mono within) ?_
  intro operands
  exact yields_pure fun _ parts => ⟨operands, parts, rfl⟩

theorem yields_shareIn (expr : Expr κ) (reads : ∀ atom ∈ expr.occurrences, good atom) :
    Yields start good (shareIn repeated expr) fun named result => Shared named expr result := by
  induction expr using Expr.induct with
  | step expr ih =>
      rw [shareIn_eq]
      apply yields_shareAs reads
      apply yields_operands
      intro child member
      apply ih child member
      intro atom occurs
      exact reads atom (Expr.occurrences_of_child member occurs)

theorem yields_shareBelow (expr : Expr κ) (reads : ∀ atom ∈ expr.occurrences, good atom) :
    Yields start good (shareBelow repeated expr) fun named result =>
      SharedBelow named expr result := by
  apply yields_operands
  intro child member
  apply yields_shareIn
  intro atom occurs
  exact reads atom (Expr.occurrences_of_child member occurs)

theorem yields_shareValue (value : Tensor κ) (reads : ∀ atom ∈ value.atoms, good atom) :
    Yields start good (shareValue repeated value) fun named result =>
      SharedTensor named value result := by
  have entry : ∀ entry ∈ value.entries, ∀ atom ∈ entry.occurrences, good atom :=
    fun entry among atom occurs => reads atom (Tensor.mem_atoms.mpr ⟨entry, among, occurs⟩)
  unfold shareValue
  split
  · refine (yields_mapM (fun item member => yields_shareBelow item (entry item member))
      fun _ _ _ _ within below => below.mono within).bind
      (fun _ _ _ within parts => parts.imp fun _ _ below => below.mono within) ?_
    intro entries
    exact yields_pure fun _ parts =>
      ⟨rfl, parts.imp fun _ _ below => below.shared, fun _ => parts⟩
  · rename_i notScalar
    refine (yields_mapM (fun item member => yields_shareIn item (entry item member))
      fun _ _ _ _ within shared => shared.mono within).bind
      (fun _ _ _ within parts => parts.imp fun _ _ shared => shared.mono within) ?_
    intro entries
    exact yields_pure fun _ parts => ⟨rfl, parts, fun scalar => absurd scalar notScalar⟩

end Mechanism.Graph
