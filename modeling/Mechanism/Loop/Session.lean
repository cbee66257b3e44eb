import Mechanism.Graph.Session
import Mechanism.Loop.Error

/-!
How loops are checked, and their actions on a graph. What an action has changed before it fails
stays changed.
-/

namespace Mechanism.Loop

structure Settings (κ : Type) where
  /-- Whether the current configuration is checked where it is known in numbers. -/
  checkSingularity : Bool
  /-- A determinant up to this size counts as zero. -/
  tolerance : κ

namespace Settings

variable {κ : Type} [Scalar κ]

def standard : Settings κ := ⟨true, 1 / Scalar.ofInt (Nat.pow 10 10)⟩

def fault? [ScalarText κ] (settings : Settings κ) : Option String :=
  if Scalar.isFinite settings.tolerance && Scalar.isLess 0 settings.tolerance then none
  else
    some ("singularity_tolerance must be positive and finite, got " ++
      ScalarText.full settings.tolerance)

end Settings

variable {κ : Type} [Scalar κ]

abbrev Action (κ : Type) [Scalar κ] := ExceptT (LoopError κ) (StateM (Graph.Session κ))

namespace Action

def onGraph {α : Type} (action : Graph.Action κ α) : Action κ α := do
  match ← (action.run : StateM (Graph.Session κ) (Except (GraphError κ) α)) with
  | .ok value => return value
  | .error error => throw (.graph error)

def ofAlgebra {α : Type} : Except AlgebraError α → Action κ α
  | .ok value => return value
  | .error error => throw (.algebra error)

end Action

end Mechanism.Loop
