import Mechanism.Axis
import Mechanism.Expr.Text

/-!
Chains of joints. A chain is a tree: each joint moves its frame by one coordinate relative to its
parent joint, or to the root, which is fixed.
-/

namespace Mechanism

structure Coordinate where
  name : String
  position : Symbol
  velocity : Symbol
  acceleration : Symbol
  deriving DecidableEq, Repr

namespace Coordinate

def fresh (supply : SymbolSupply) (name : String) : Coordinate × SymbolSupply :=
  let (position, supply) := supply.fresh name .scalar
  let (velocity, supply) := supply.fresh (name ++ "_d") .scalar
  let (acceleration, supply) := supply.fresh (name ++ "_dd") .scalar
  (⟨name, position, velocity, acceleration⟩, supply)

def atom (coordinate : Coordinate) : Atom := .whole coordinate.position

variable {κ : Type} [Scalar κ]

def positionExpr (coordinate : Coordinate) : Expr κ := .atom coordinate.atom

def velocityExpr (coordinate : Coordinate) : Expr κ := .atom (.whole coordinate.velocity)

def accelerationExpr (coordinate : Coordinate) : Expr κ := .atom (.whole coordinate.acceleration)

end Coordinate

structure JointId where
  index : Nat
  deriving DecidableEq, Repr

def JointId.text (joint : JointId) : String := "joint#" ++ toString joint.index

inductive Motion (κ : Type) [Scalar κ] where
  | revolute (axis : Axis)
  /-- A slide along a direction of the parent's frame. -/
  | prismatic (direction : Direction κ)

structure Joint (κ : Type) [Scalar κ] where
  name : String
  motion : Motion κ
  coordinate : Coordinate
  parent : Option JointId
  /-- The origin of the joint in the parent's frame. -/
  anchor : Tensor κ

/-- A point that moves with a joint, or stays with the root. -/
structure Frame (κ : Type) [Scalar κ] where
  name : String
  body : Option JointId
  position : Tensor κ

structure Chain (κ : Type) [Scalar κ] where
  joints : List (Joint κ)

inductive ChainError where
  | duplicateJoint (joint : String)
  | unknownParent (joint : String) (parent : JointId)
  | unknownJoint (joint : JointId)
  | noDirection (joint : String)
  | notAnOffset (owner : String) (shape : Shape)
  deriving DecidableEq, Repr

def ChainError.message : ChainError → String
  | .duplicateJoint joint => "duplicate joint " ++ joint
  | .unknownParent joint parent => "joint " ++ joint ++ " has unknown parent " ++ parent.text
  | .unknownJoint joint => "unknown joint " ++ joint.text
  | .noDirection joint => "prismatic joint " ++ joint ++ " needs a non-zero direction"
  | .notAnOffset owner shape => owner ++ ": expected a 3-vector offset, found " ++ shape.text

def checkOffset {κ : Type} [Scalar κ] (owner : String) (offset : Tensor κ) :
    Except ChainError Unit :=
  if offset.shape = .vector 3 then .ok () else .error (.notAnOffset owner offset.shape)

namespace Chain

variable {κ : Type} [Scalar κ]

def empty : Chain κ := ⟨[]⟩

def length (chain : Chain κ) : Nat := chain.joints.length

def joint? (chain : Chain κ) (id : JointId) : Option (Joint κ) := chain.joints[id.index]?

def joint (chain : Chain κ) (id : JointId) : Except ChainError (Joint κ) :=
  match chain.joint? id with
  | some joint => .ok joint
  | none => .error (.unknownJoint id)

def find? (chain : Chain κ) (name : String) : Option JointId :=
  (chain.joints.findIdx? fun joint => joint.name == name).map JointId.mk

def ids (chain : Chain κ) : List JointId := (List.range chain.length).map JointId.mk

def ascend (chain : Chain κ) : Nat → Option JointId → Except ChainError (List JointId)
  | _, none => .ok []
  | 0, some id => .error (.unknownJoint id)
  | fuel + 1, some id => do
    let joint ← chain.joint id
    let rest ← chain.ascend fuel joint.parent
    return id :: rest

def path (chain : Chain κ) (body : Option JointId) : Except ChainError (List JointId) := do
  let ascent ← chain.ascend (chain.length + 1) body
  return ascent.reverse

def dropShared : List JointId → List JointId → List JointId × List JointId
  | a :: restA, b :: restB => if a = b then dropShared restA restB else (a :: restA, b :: restB)
  | restA, restB => (restA, restB)

def branches (chain : Chain κ) (a b : Option JointId) :
    Except ChainError (List JointId × List JointId) := do
  let pathA ← chain.path a
  let pathB ← chain.path b
  return dropShared pathA pathB

def normalize (joint : String) : Motion κ → Except ChainError (Motion κ)
  | .revolute axis => .ok (.revolute axis)
  | .prismatic direction =>
    let norm := direction.norm
    if !Scalar.isFinite norm || Scalar.isLess norm Scalar.alignmentTolerance then
      .error (.noDirection joint)
    else
      .ok (.prismatic ⟨direction.x / norm, direction.y / norm, direction.z / norm⟩)

def add (chain : Chain κ) (joint : Joint κ) : Except ChainError (JointId × Chain κ) := do
  if (chain.find? joint.name).isSome then throw (.duplicateJoint joint.name)
  match joint.parent with
  | some parent => if chain.length ≤ parent.index then throw (.unknownParent joint.name parent)
  | none => pure ()
  checkOffset joint.name joint.anchor
  let motion ← normalize joint.name joint.motion
  return (⟨chain.length⟩, ⟨chain.joints ++ [{ joint with motion := motion }]⟩)

end Chain

end Mechanism
