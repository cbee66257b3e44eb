import Mechanism.Fingerprint
import Mechanism.Shape

/-!
Named unknowns. Two symbols with one name are different symbols; the number that tells them apart
enters no text and no fingerprint.
-/

namespace Mechanism

inductive Domain where
  | real | nonNegative | positive
  deriving DecidableEq, Hashable, Repr

structure Symbol where
  number : Nat
  name : String
  shape : Shape
  domain : Domain
  deriving DecidableEq, Hashable, Repr

/-- What an expression reads: a scalar symbol or one entry of a larger one. -/
inductive Atom where
  | whole (symbol : Symbol)
  | entry (symbol : Symbol) (row column : Nat)
  deriving DecidableEq, Repr

namespace Symbol

def atomAt (symbol : Symbol) (row column : Nat) : Atom :=
  if symbol.shape.isScalar then .whole symbol else .entry symbol row column

def atoms (symbol : Symbol) : List Atom :=
  symbol.shape.places.map fun (row, column) => symbol.atomAt row column

end Symbol

namespace Atom

def symbol : Atom → Symbol
  | whole symbol => symbol
  | entry symbol _ _ => symbol

def flatIndex : Atom → Nat
  | whole _ => 0
  | entry symbol row column => symbol.shape.flatIndex row column

def fingerprint (atom : Atom) : UInt64 :=
  let named := Fingerprint.mixText (Fingerprint.tagged "a") atom.symbol.name
  match atom with
  | whole _ => named
  | entry _ row column => Fingerprint.mixWords named [row.toUInt64, column.toUInt64]

def text : Atom → String
  | whole symbol => symbol.name
  | entry symbol row column =>
    match symbol.shape with
    | .matrix .. => symbol.name ++ "[" ++ toString row ++ "," ++ toString column ++ "]"
    | _ => symbol.name ++ "[" ++ toString row ++ "]"

end Atom

structure SymbolSupply where
  next : Nat
  deriving DecidableEq, Repr

namespace SymbolSupply

def start : SymbolSupply := ⟨1⟩

def fresh (supply : SymbolSupply) (name : String) (shape : Shape) (domain : Domain := .real) :
    Symbol × SymbolSupply :=
  (⟨supply.next, name, shape, domain⟩, ⟨supply.next + 1⟩)

end SymbolSupply

end Mechanism
