import Mechanism.Chain.Kinematics
import Mechanism.Loop.Error
import Mechanism.Proofs.Numbering.Tensor

/-!
Errors, and chains of joints, whose numbers are moved. The messages are the same, joints are accepted
and refused alike, and the positions of frames are the moved ones.
-/

namespace Mechanism

variable {κ : Type} [Scalar κ]

instance : Numbered (Graph.Role κ) := ⟨fun offset role =>
  match role with
  | .definition name entries => .definition name (entries.map (shift offset))
  | other => other⟩

instance : Numbered (GraphError κ) := ⟨fun offset error =>
  match error with
  | .duplicateSymbol symbol existing requested =>
    .duplicateSymbol symbol (shift offset existing) (shift offset requested)
  | other => other⟩

instance : Numbered (LoopError κ) := ⟨fun offset error =>
  match error with
  | .graph error => .graph (shift offset error)
  | other => other⟩

section Messages

variable [ScalarText κ] (offset : Nat)

@[simp] theorem Graph.Role.text_shift (role : Graph.Role κ) :
    (shift offset role).text = role.text := by
  cases role with
  | definition name entries =>
      change name ++ " = [" ++ String.intercalate ", " ((entries.map (shift offset)).map Expr.text) ++
        "]" = _
      simp [text, Function.comp_def]
  | _ => rfl

@[simp] theorem GraphError.message_shift (error : GraphError κ) :
    (shift offset error).message = error.message := by
  cases error with
  | duplicateSymbol symbol existing requested =>
      change "symbol " ++ symbol ++ " is already defined (" ++ (shift offset existing).text ++
        "); cannot redefine as " ++ (shift offset requested).text = _
      rw [Graph.Role.text_shift, Graph.Role.text_shift]
      rfl
  | _ => rfl

@[simp] theorem LoopError.message_shift (error : LoopError κ) :
    (shift offset error).message = error.message := by
  cases error with
  | graph error => exact GraphError.message_shift offset error
  | _ => rfl

end Messages

instance : Numbered Coordinate := ⟨fun offset coordinate =>
  ⟨coordinate.name, shift offset coordinate.position, shift offset coordinate.velocity,
    shift offset coordinate.acceleration⟩⟩

instance : Faithful Coordinate := ⟨fun offset left right same => by
  obtain ⟨leftName, leftPosition, leftVelocity, leftAcceleration⟩ := left
  obtain ⟨rightName, rightPosition, rightVelocity, rightAcceleration⟩ := right
  obtain rfl : leftName = rightName := congrArg Coordinate.name same
  obtain rfl := (shift_inj offset).mp (congrArg Coordinate.position same)
  obtain rfl := (shift_inj offset).mp (congrArg Coordinate.velocity same)
  obtain rfl := (shift_inj offset).mp (congrArg Coordinate.acceleration same)
  rfl⟩

namespace Coordinate

variable (offset : Nat) (coordinate : Coordinate)

@[simp] theorem shift_name : (shift offset coordinate).name = coordinate.name := rfl

@[simp] theorem shift_position :
    (shift offset coordinate).position = shift offset coordinate.position := rfl

@[simp] theorem shift_velocity :
    (shift offset coordinate).velocity = shift offset coordinate.velocity := rfl

@[simp] theorem shift_acceleration :
    (shift offset coordinate).acceleration = shift offset coordinate.acceleration := rfl

@[simp] theorem atom_shift : (shift offset coordinate).atom = shift offset coordinate.atom := rfl

@[simp] theorem positionExpr_shift :
    ((shift offset coordinate).positionExpr : Expr κ) = shift offset coordinate.positionExpr := by
  simp [positionExpr]

@[simp] theorem velocityExpr_shift :
    ((shift offset coordinate).velocityExpr : Expr κ) = shift offset coordinate.velocityExpr := by
  simp [velocityExpr]

@[simp] theorem accelerationExpr_shift :
    ((shift offset coordinate).accelerationExpr : Expr κ) =
      shift offset coordinate.accelerationExpr := by
  simp [accelerationExpr]

@[simp] theorem fresh_shift (supply : SymbolSupply) (name : String) :
    fresh (shift offset supply) name = shift offset (fresh supply name) := by
  simp only [fresh, SymbolSupply.fresh_shift, shift_pair]
  rfl

end Coordinate

instance : Numbered (Joint κ) := ⟨fun offset joint =>
  ⟨joint.name, joint.motion, shift offset joint.coordinate, joint.parent,
    shift offset joint.anchor⟩⟩

instance : Numbered (Frame κ) := ⟨fun offset frame =>
  ⟨frame.name, frame.body, shift offset frame.position⟩⟩

instance : Numbered (Chain κ) := ⟨fun offset chain => ⟨chain.joints.map (shift offset)⟩⟩

section Parts

variable (offset : Nat) (joint : Joint κ) (frame : Frame κ) (chain : Chain κ)

@[simp] theorem Joint.shift_name : (shift offset joint).name = joint.name := rfl

@[simp] theorem Joint.shift_motion : (shift offset joint).motion = joint.motion := rfl

@[simp] theorem Joint.shift_coordinate :
    (shift offset joint).coordinate = shift offset joint.coordinate := rfl

@[simp] theorem Joint.shift_parent : (shift offset joint).parent = joint.parent := rfl

@[simp] theorem Joint.shift_anchor : (shift offset joint).anchor = shift offset joint.anchor := rfl

@[simp] theorem Frame.shift_name : (shift offset frame).name = frame.name := rfl

@[simp] theorem Frame.shift_body : (shift offset frame).body = frame.body := rfl

@[simp] theorem Frame.shift_position :
    (shift offset frame).position = shift offset frame.position := rfl

@[simp] theorem Chain.shift_joints :
    (shift offset chain).joints = chain.joints.map (shift offset) := rfl

@[simp] theorem Chain.shift_mk (joints : List (Joint κ)) :
    shift offset (Chain.mk joints) = ⟨joints.map (shift offset)⟩ := rfl

end Parts

@[simp] theorem Axis.rotation_shift (offset : Nat) (axis : Axis) (angle : Expr κ) :
    axis.rotation (shift offset angle) = shift offset (axis.rotation angle) := by
  cases axis <;> simp [rotation]

@[simp] theorem checkOffset_shift (offset : Nat) (owner : String) (tensor : Tensor κ) :
    checkOffset owner (shift offset tensor) = checkOffset owner tensor := rfl

instance : Numbered (Pose κ) := ⟨fun offset pose =>
  ⟨shift offset pose.position, shift offset pose.rotation⟩⟩

namespace Pose

variable (offset : Nat) (pose : Pose κ)

@[simp] theorem shift_position : (shift offset pose).position = shift offset pose.position := rfl

@[simp] theorem shift_rotation : (shift offset pose).rotation = shift offset pose.rotation := rfl

@[simp] theorem shift_mk (position rotation : Tensor κ) :
    shift offset (Pose.mk position rotation) = ⟨shift offset position, shift offset rotation⟩ := rfl

@[simp] theorem shift_start : shift offset (start : Pose κ) = start := by
  simp only [start, shift_mk, Tensor.shift_zeros, Tensor.shift_identity]

@[simp] theorem locate_shift (tensor : Tensor κ) :
    (shift offset pose).locate (shift offset tensor) = shift offset (pose.locate tensor) := by
  simp [locate]

@[simp] theorem slide_shift (direction : Direction κ) (distance : Expr κ) :
    slide direction (shift offset distance) = shift offset (slide direction distance) := by
  have fixed : shift offset (Tensor.ofColumn (direction.toList.map Expr.number)) =
      Tensor.ofColumn (direction.toList.map Expr.number) := by
    rw [← Tensor.ofColumn_shift]
    simp [Function.comp_def]
  rw [slide, slide, ← Tensor.scale_shift, fixed]

@[simp] theorem moveBy_shift (joint : Joint κ) :
    (shift offset pose).moveBy (shift offset joint) = shift offset (pose.moveBy joint) := by
  simp only [moveBy, Joint.shift_motion, Joint.shift_anchor, Joint.shift_coordinate, locate_shift,
    Coordinate.positionExpr_shift, shift_rotation]
  cases joint.motion with
  | revolute axis => simp
  | prismatic direction =>
      have moved := locate_shift offset ⟨pose.locate joint.anchor, pose.rotation⟩
        (slide direction joint.coordinate.positionExpr)
      rw [← slide_shift] at moved
      exact congrArg (Pose.mk · _) moved

end Pose

namespace Chain

variable (offset : Nat) (chain : Chain κ)

@[simp] theorem shift_empty : shift offset (empty : Chain κ) = empty := rfl

@[simp] theorem length_shift : (shift offset chain).length = chain.length := by
  simp [length]

@[simp] theorem joint?_shift (id : JointId) :
    (shift offset chain).joint? id = (chain.joint? id).map (shift offset) := by
  simp [joint?]

@[simp] theorem joint_shift (id : JointId) :
    (shift offset chain).joint id = shift offset (chain.joint id) := by
  rw [joint, joint?_shift, joint]
  cases chain.joint? id <;> rfl

@[simp] theorem find?_shift (name : String) : (shift offset chain).find? name = chain.find? name := by
  simp [find?, List.findIdx?_map, Function.comp_def]

@[simp] theorem ids_shift : (shift offset chain).ids = chain.ids := by
  simp [ids]

@[simp] theorem ascend_shift (fuel : Nat) (body : Option JointId) :
    (shift offset chain).ascend fuel body = shift offset (chain.ascend fuel body) := by
  induction fuel generalizing body with
  | zero => cases body <;> rfl
  | succ fuel ih =>
      cases body with
      | none => rfl
      | some id =>
          refine bind_shift offset (joint_shift offset chain id) fun joint => ?_
          exact bind_shift offset (ih joint.parent) fun rest => by simp [pure, Except.pure]

@[simp] theorem path_shift (body : Option JointId) :
    (shift offset chain).path body = shift offset (chain.path body) := by
  refine bind_shift offset ?_ fun ascent => by simp [pure, Except.pure]
  rw [length_shift, ascend_shift]

@[simp] theorem branches_shift (a b : Option JointId) :
    (shift offset chain).branches a b = shift offset (chain.branches a b) := by
  refine bind_shift offset (path_shift offset chain a) fun pathA => ?_
  exact bind_shift offset (path_shift offset chain b) fun pathB => by simp [pure, Except.pure]

@[simp] theorem add_shift (joint : Joint κ) :
    (shift offset chain).add (shift offset joint) = shift offset (chain.add joint) := by
  have appended : (do
      checkOffset joint.name (shift offset joint.anchor)
      let motion ← normalize joint.name joint.motion
      return (⟨chain.length⟩, ⟨chain.joints.map (shift offset) ++ [⟨joint.name, motion,
        shift offset joint.coordinate, joint.parent, shift offset joint.anchor⟩]⟩) :
        Except ChainError (JointId × Chain κ)) =
      shift offset (do
        checkOffset joint.name joint.anchor
        let motion ← normalize joint.name joint.motion
        return (⟨chain.length⟩, ⟨chain.joints ++ [{ joint with motion := motion }]⟩)) := by
    refine bind_shift offset (by simp) fun _ => ?_
    refine bind_shift offset (by simp) fun motion => ?_
    simp only [pure, Except.pure, shift_ok, shift_pair, shift_mk, List.map_append]
    rfl
  unfold add
  simp only [Joint.shift_name, find?_shift, length_shift, Joint.shift_parent, Joint.shift_anchor,
    Joint.shift_motion, Joint.shift_coordinate, shift_joints, appended]
  split
  · rfl
  · cases joint.parent with
    | none => rfl
    | some parent =>
        rw [shift_ite]
        rfl

@[simp] theorem positionOf_shift (branch : List JointId) (frame : Frame κ) :
    (shift offset chain).positionOf branch (shift offset frame) =
      shift offset (chain.positionOf branch frame) := by
  refine bind_shift offset (by simp) fun _ => ?_
  refine bind_shift offset ?_ fun joints => ?_
  · exact mapM_moved offset branch fun id _ => joint_shift offset chain id
  · have poses := foldl_shift offset (Pose.moveBy_shift offset) joints Pose.start
    rw [Pose.shift_start] at poses
    simp [poses, pure, Except.pure]

end Chain

end Mechanism
