import Mechanism.Table
import Mechanism.Tensor.Basic

/-!
The values that a graph knows: what its inputs are bound to, and a cache of evaluated definitions.
Each cached value carries the revision of the bindings at which it was computed.
-/

namespace Mechanism.Graph

structure Cached (κ : Type) [Scalar κ] where
  value : Tensor κ
  revision : Nat

structure Store (κ : Type) [Scalar κ] where
  bindings : Table Symbol (Tensor κ)
  cache : Table Symbol (Cached κ)
  revision : Nat
  evaluations : Nat

namespace Store

variable {κ : Type} [Scalar κ]

def empty : Store κ := ⟨∅, ∅, 0, 0⟩

def binding? (store : Store κ) (symbol : Symbol) : Option (Tensor κ) := store.bindings.find? symbol

def cached? (store : Store κ) (symbol : Symbol) : Option (Tensor κ) :=
  (store.cache.find? symbol).map Cached.value

def cachedRevision? (store : Store κ) (symbol : Symbol) : Option Nat :=
  (store.cache.find? symbol).map Cached.revision

def isCached (store : Store κ) (symbol : Symbol) : Bool := store.cache.contains symbol

def bind (store : Store κ) (symbol : Symbol) (value : Tensor κ) : Store κ :=
  { store with bindings := store.bindings.insert symbol value, revision := store.revision + 1 }

def insert (store : Store κ) (symbol : Symbol) (value : Tensor κ) : Store κ :=
  { store with
    cache := store.cache.insert symbol ⟨value, store.revision⟩
    evaluations := store.evaluations + 1 }

def evict (store : Store κ) (symbol : Symbol) : Store κ :=
  { store with cache := store.cache.erase symbol }

def clearCache (store : Store κ) : Store κ := { store with cache := ∅ }

/-- The current entry for an atom: of its binding, or else of its cached value. -/
def lookup (store : Store κ) (atom : Atom) : Option (Expr κ) := do
  let value ← (store.binding? atom.symbol).or (store.cached? atom.symbol)
  (value.entryAt atom.flatIndex).toOption

end Store

end Mechanism.Graph
