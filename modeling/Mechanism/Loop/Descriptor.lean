import Mechanism.Loop.Registration
import Mechanism.Loop.Regularity
import Mechanism.Loop.Solution

/-!
A loop on its way into a graph. It is solved, differentiated twice and registered. Each stage keeps
what it has derived, so that a failed attempt can be made again from where it stopped, and a loop
that is registered stays as it is.
-/

namespace Mechanism.Loop

variable {κ : Type} [Scalar κ]

inductive Progress (κ : Type) [Scalar κ] where
  | unresolved
  | geometrySolved (geometry : Geometry κ)
  | linearizedOnce (geometry : Geometry κ) (jacobians : Jacobians κ)
  | linearizedTwice (derivation : Derivation κ)
  | registered (derivation : Derivation κ) (artifacts : Artifacts κ)

def Progress.name : Progress κ → String
  | unresolved => "Unresolved"
  | geometrySolved _ => "GeometrySolved"
  | linearizedOnce .. => "LinearizedOnce"
  | linearizedTwice _ => "LinearizedTwice"
  | registered .. => "Registered"

structure Descriptor (κ : Type) [Scalar κ] where
  problem : Problem κ
  settings : Settings κ
  progress : Progress κ

namespace Descriptor

def name (descriptor : Descriptor κ) : String := descriptor.problem.request.name

def artifacts? (descriptor : Descriptor κ) : Option (Artifacts κ) :=
  match descriptor.progress with
  | .registered _ artifacts => some artifacts
  | _ => none

def enter (descriptor : Descriptor κ) (progress : Progress κ) : Descriptor κ :=
  { descriptor with progress := progress }

def movingFrames (request : Request κ) : List (Frame κ) :=
  if request.topology.allowsFixedFrame then [request.frameB] else [request.frameA, request.frameB]

def new [ScalarText κ] (request : Request κ) (chain : Chain κ) (settings : Settings κ) :
    Answer κ (Descriptor κ) :=
  match settings.fault? with
  | some reason => .error (.invalidSettings reason)
  | none =>
    match (movingFrames request).find? fun frame => frame.body.isNone with
    | some frame => .error (.worldConnection request.name frame.name)
    | none => .ok ⟨⟨chain, request⟩, settings, .unresolved⟩

def linearizeTwice (descriptor : Descriptor κ) (geometry : Geometry κ) (jacobians : Jacobians κ) :
    Answer κ (Derivation κ) × Descriptor κ :=
  match geometry.drift with
  | .error error => (.error (.algebra error), descriptor)
  | .ok drift =>
    let derivation := ⟨geometry, jacobians, drift⟩
    (.ok derivation, descriptor.enter (.linearizedTwice derivation))

def linearizeOnce (descriptor : Descriptor κ) (geometry : Geometry κ) :
    Answer κ (Derivation κ) × Descriptor κ :=
  match geometry.jacobians with
  | .error error => (.error (.algebra error), descriptor)
  | .ok jacobians =>
    (descriptor.enter (.linearizedOnce geometry jacobians)).linearizeTwice geometry jacobians

/-- Goes through the stages that need no graph, from the one that has been reached. -/
def derive (descriptor : Descriptor κ) : Answer κ (Derivation κ) × Descriptor κ :=
  match descriptor.progress with
  | .unresolved =>
    match descriptor.problem.solve with
    | .error error => (.error error, descriptor)
    | .ok geometry => (descriptor.enter (.geometrySolved geometry)).linearizeOnce geometry
  | .geometrySolved geometry => descriptor.linearizeOnce geometry
  | .linearizedOnce geometry jacobians => descriptor.linearizeTwice geometry jacobians
  | .linearizedTwice derivation => (.ok derivation, descriptor)
  | .registered derivation _ => (.ok derivation, descriptor)

def insert (descriptor : Descriptor κ) (derivation : Derivation κ) : Action κ (Artifacts κ) := do
  if descriptor.settings.checkSingularity then
    checkRegularity descriptor.name descriptor.settings derivation
  register descriptor.name derivation

/-- The outcome of an attempt, with the loop and the graph as it leaves them. -/
structure Attempt (κ : Type) [Scalar κ] where
  outcome : Answer κ (Artifacts κ)
  descriptor : Descriptor κ
  session : Graph.Session κ

/-- Brings the loop into the graph. A loop that is registered already changes nothing. -/
def close (descriptor : Descriptor κ) (session : Graph.Session κ) : Attempt κ :=
  match descriptor.progress with
  | .registered _ artifacts => ⟨.ok artifacts, descriptor, session⟩
  | _ =>
    match descriptor.derive with
    | (.error error, descriptor) => ⟨.error error, descriptor, session⟩
    | (.ok derivation, descriptor) =>
      match (descriptor.insert derivation).run.run session with
      | (.error error, session) => ⟨.error error, descriptor, session⟩
      | (.ok artifacts, session) =>
        ⟨.ok artifacts, descriptor.enter (.registered derivation artifacts), session⟩

def verify (descriptor : Descriptor κ) : Action κ Unit :=
  match descriptor.settings.checkSingularity, descriptor.progress with
  | true, .registered derivation _ =>
    checkRegularity descriptor.name descriptor.settings derivation
  | _, _ => return

end Descriptor

end Mechanism.Loop
