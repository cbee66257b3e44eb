import Mechanism.Proofs.Graph.Lawful
import Mechanism.Proofs.Tensor.Matrices

/-!
The value of a symbol when numbers are given to the inputs: that of its definition, in which every
symbol has in turn the value of its own one. A symbol that cannot be unfolded down to the inputs
has no value.
-/

namespace Mechanism.Graph

variable {κ : Type} [Scalar κ]

/-- What a symbol stands for: the value of its live definition, or else what a removed symbol was
replaced by. -/
def content? (graph : Graph κ) (symbol : Symbol) : Option (Tensor κ) :=
  match graph.nodeOf? symbol with
  | some node => some node.value
  | none => graph.aliases.find? symbol

variable [Exact κ]

/-- The entry of a symbol has a value, found by unfolding definitions down to the inputs. -/
inductive Unfolds (graph : Graph κ) (inputs : Symbol → Nat → ℝ) : Symbol → Nat → ℝ → Prop where
  | input {symbol : Symbol} {index : Nat} (isInput : graph.isInput symbol = true) :
      Unfolds graph inputs symbol index (inputs symbol index)
  | content {symbol : Symbol} {index : Nat} {value : ℝ} {tensor : Tensor κ}
      (noInput : graph.isInput symbol = false) (found : graph.content? symbol = some tensor)
      (environment : Environment)
      (unfolded : ∀ other position number, environment other position = some number →
        Unfolds graph inputs other position number)
      (means : tensor.MeansAt environment index value) : Unfolds graph inputs symbol index value

/-- An environment in which no definition is without the value that its parts give it. -/
structure Solves (graph : Graph κ) (inputs : Symbol → Nat → ℝ) (environment : Environment) :
    Prop where
  input : ∀ {symbol : Symbol} (index : Nat), graph.isInput symbol = true →
    environment symbol index = some (inputs symbol index)
  content : ∀ {symbol : Symbol} {index : Nat} {value : ℝ} {tensor : Tensor κ},
    graph.isInput symbol = false → graph.content? symbol = some tensor →
      tensor.MeansAt environment index value → environment symbol index = some value

variable {graph : Graph κ} {inputs : Symbol → Nat → ℝ}

theorem Solves.of_unfolds {environment : Environment} (solves : graph.Solves inputs environment)
    {symbol : Symbol} {index : Nat} {value : ℝ} (unfolds : graph.Unfolds inputs symbol index value) :
    environment symbol index = some value := by
  induction unfolds with
  | input isInput => exact solves.input _ isInput
  | content noInput found inner _ means ih =>
      exact solves.content noInput found
        (means.mono fun atom _ value known => ih atom.symbol atom.flatIndex value known)

theorem Unfolds.unique {symbol : Symbol} {index : Nat} {x y : ℝ}
    (left : graph.Unfolds inputs symbol index x) (right : graph.Unfolds inputs symbol index y) :
    x = y := by
  induction left generalizing y with
  | input isInput =>
      cases right with
      | input => rfl
      | content noInput =>
          rw [isInput] at noInput
          cases noInput
  | @content symbol index value tensor noInput found inner _ means ih =>
      cases right with
      | input isInput =>
          rw [isInput] at noInput
          cases noInput
      | content _ again other unfolded others =>
          rw [found, Option.some.injEq] at again
          subst again
          -- the two environments agree wherever both have a value
          let joined : Environment := fun symbol index => (inner symbol index).or (other symbol index)
          have left : tensor.MeansAt joined index value := means.mono fun atom _ number known => by
            simp [joined, Environment.read] at known ⊢
            simp [known]
          have right : tensor.MeansAt joined index y := others.mono fun atom _ number known => by
            simp only [joined, Environment.read] at known ⊢
            cases first : inner atom.symbol atom.flatIndex with
            | none => simpa using known
            | some first =>
                have same := ih _ _ _ first (unfolded _ _ _ known)
                simp [same]
          exact left.unique right

open Classical in
noncomputable def unfolding (graph : Graph κ) (inputs : Symbol → Nat → ℝ) : Environment :=
  fun symbol index =>
    if found : ∃ value, graph.Unfolds inputs symbol index value then some found.choose else none

theorem unfolding_eq_some {symbol : Symbol} {index : Nat} {value : ℝ} :
    graph.unfolding inputs symbol index = some value ↔ graph.Unfolds inputs symbol index value := by
  unfold unfolding
  exact Environment.choose_eq_some Unfolds.unique

theorem unfolding_solves (graph : Graph κ) (inputs : Symbol → Nat → ℝ) :
    graph.Solves inputs (graph.unfolding inputs) where
  input := fun _ isInput => unfolding_eq_some.mpr (Unfolds.input isInput)
  content := by
    intro symbol index value tensor noInput found means
    exact unfolding_eq_some.mpr (Unfolds.content noInput found (graph.unfolding inputs)
      (fun _ _ _ known => unfolding_eq_some.mp known) means)

/-- The second graph gives kept symbols at least the values that the first one gives them. -/
def Refines (kept : Symbol → Prop) (before after : Graph κ) : Prop :=
  ∀ inputs environment, after.Solves inputs environment → ∃ former, before.Solves inputs former ∧
    ∀ symbol, kept symbol → ∀ index value, former symbol index = some value →
      environment symbol index = some value

theorem Refines.unfolds {kept : Symbol → Prop} {before after : Graph κ}
    (refines : Refines kept before after) {symbol : Symbol} (isKept : kept symbol) {index : Nat}
    {value : ℝ} (unfolds : before.Unfolds inputs symbol index value) :
    after.Unfolds inputs symbol index value := by
  obtain ⟨former, solves, same⟩ := refines inputs _ (unfolding_solves after inputs)
  exact unfolding_eq_some.mp (same symbol isKept index value (solves.of_unfolds unfolds))

theorem Refines.of_solves {kept : Symbol → Prop} {before after : Graph κ}
    (solves : ∀ inputs environment, after.Solves inputs environment →
      before.Solves inputs environment) : Refines kept before after :=
  fun inputs environment solved => ⟨environment, solves inputs environment solved,
    fun _ _ _ _ known => known⟩

theorem Refines.trans {kept : Symbol → Prop} {first second third : Graph κ}
    (left : Refines kept first second) (right : Refines kept second third) :
    Refines kept first third := by
  intro inputs environment solved
  obtain ⟨middle, middleSolves, fromMiddle⟩ := right inputs environment solved
  obtain ⟨former, formerSolves, fromFormer⟩ := left inputs middle middleSolves
  exact ⟨former, formerSolves, fun symbol isKept index value known =>
    fromMiddle symbol isKept index value (fromFormer symbol isKept index value known)⟩

theorem Refines.refl (kept : Symbol → Prop) (graph : Graph κ) : Refines kept graph graph :=
  Refines.of_solves fun _ _ solves => solves

end Mechanism.Graph
