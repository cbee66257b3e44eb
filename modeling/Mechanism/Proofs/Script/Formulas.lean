import Mechanism.Proofs.Script.Desk

/-!
Expressions and tensors that are made of what is at hand, and what can be asked of it. None of this
depends on the numbers of symbols.
-/

namespace Mechanism

namespace Script

variable {κ : Type} [Scalar κ] {offset : Nat}

abbrev FairSimplifier (κ : Type) [Scalar κ] := {simplifier : Simplifier κ // simplifier.Blind}

namespace FairSimplifier

def keep : FairSimplifier κ := ⟨.keep, Simplifier.keep_blind⟩

def basic (limit : Nat) : FairSimplifier κ := ⟨.basic limit, Simplifier.basic_blind limit⟩

end FairSimplifier

inductive Gathering where
  | sum | product

def Gathering.apply (gathering : Gathering) (operands : List (Expr κ)) : Expr κ :=
  match gathering with
  | sum => .sum operands
  | product => .product operands

@[simp] theorem Gathering.apply_shift (gathering : Gathering) (operands : List (Expr κ)) :
    gathering.apply (operands.map (shift offset)) = shift offset (gathering.apply operands) := by
  cases gathering <;> simp [apply]

inductive Pairing where
  | difference | quotient | power | angle

def Pairing.apply (pairing : Pairing) (left right : Expr κ) : Expr κ :=
  match pairing with
  | difference => left - right
  | quotient => left / right
  | power => .power left right
  | angle => .angleOf left right

@[simp] theorem Pairing.apply_shift (pairing : Pairing) (left right : Expr κ) :
    pairing.apply (shift offset left) (shift offset right) =
      shift offset (pairing.apply left right) := by
  cases pairing <;> simp [apply]

inductive Change where
  | negate
  | reciprocal
  | powerOf (exponent : Int)
  | call (function : Elementary)
  | callBelow (function : Elementary)

def Change.apply (change : Change) (expr : Expr κ) : Expr κ :=
  match change with
  | negate => -expr
  | reciprocal => expr.reciprocal
  | powerOf exponent => expr.powerOf exponent
  | call function => .apply function expr
  | callBelow function => expr.mapChildren (.apply function)

@[simp] theorem Change.apply_shift (change : Change) (expr : Expr κ) :
    change.apply (shift offset expr) = shift offset (change.apply expr) := by
  cases change with
  | callBelow function => exact Expr.mapChildren_shift offset (Expr.apply_shift offset function) expr
  | _ => simp [apply]

/-- The parts of a symbol or of a tensor that are expressions. -/
inductive Part where
  | whole
  | place (index : Nat)
  | entry (row column : Nat)

def Part.ofSymbol (part : Part) (symbol : Symbol) : Except AlgebraError (Expr κ) :=
  match part with
  | whole => symbol.toExpr
  | place index => symbol.entryAt index
  | entry row column => symbol.entry row column

def Part.ofTensor (part : Part) (tensor : Tensor κ) : Except AlgebraError (Expr κ) :=
  match part with
  | whole => tensor.toExpr
  | place index => tensor.entryAt index
  | entry row column => tensor.entry row column

@[simp] theorem Part.ofSymbol_shift (part : Part) (symbol : Symbol) :
    (part.ofSymbol (shift offset symbol) : Except AlgebraError (Expr κ)) =
      shift offset (part.ofSymbol symbol) := by
  cases part <;> simp [ofSymbol]

@[simp] theorem Part.ofTensor_shift (part : Part) (tensor : Tensor κ) :
    part.ofTensor (shift offset tensor) = shift offset (part.ofTensor tensor) := by
  cases part <;> simp [ofTensor]

/-- The first replacement of an unknown. -/
def replacement {β : Type} (pairs : List (Atom × β)) (atom : Atom) : Option β :=
  (pairs.find? fun pair => pair.1 = atom).map (·.2)

theorem replacement_shift {β : Type} [Numbered β] (pairs : List (Atom × β)) (atom : Atom) :
    replacement (pairs.map (shift offset)) (shift offset atom) =
      (replacement pairs atom).map (shift offset) := by
  simp [replacement, List.find?_map, Function.comp_def]

inductive Formula (κ : Type) [Scalar κ] where
  | number (value : κ)
  | gather (gathering : Gathering) (operands : List Handle)
  | pair (pairing : Pairing) (left right : Handle)
  | change (way : Change) (expr : Handle)
  | choose (relation : Relation) (left right chosen otherwise : Handle)
  | ofSymbol (part : Part) (symbol : Handle)
  | ofTensor (part : Part) (tensor : Handle)
  | determinant (tensor : Handle)
  | norm (tensor : Handle)
  | dot (left right : Handle)
  | derivative (expr unknown : Handle)
  | substitute (expr : Handle) (pairs : List (Handle × Handle))
  | simplify (simplifier : FairSimplifier κ) (expr : Handle)
  | operand (expr : Handle) (place : Nat)
  | rest (expr : Handle)

namespace Desk

def replacements (pairs : List (Handle × Handle)) : Desk κ (List (Atom × Expr κ)) :=
  pairs.mapM fun (unknown, expr) => do
    let atom ← pick Item.atom? unknown
    let expr ← pick Item.expr? expr
    return (atom, expr)

theorem replacements_conforms (pairs : List (Handle × Handle)) :
    Conforms offset (replacements pairs : Desk κ _) (replacements pairs) := by
  refine .mapM_moved pairs fun (unknown, expr) _ => ?_
  refine (pick_conforms (Item.atom?_shift offset) unknown).bind fun atom => ?_
  refine (pick_conforms (Item.expr?_shift offset) expr).bind fun expr => ?_
  exact .pure (atom, expr)

end Desk

open Desk

def Formula.make : Formula κ → Desk κ (Expr κ)
  | number value => return .number value
  | gather gathering operands => do return gathering.apply (← pickAll Item.expr? operands)
  | pair pairing left right => do
    let left ← pick Item.expr? left
    let right ← pick Item.expr? right
    return pairing.apply left right
  | .change way expr => do return way.apply (← pick Item.expr? expr)
  | choose relation left right chosen otherwise => do
    let left ← pick Item.expr? left
    let right ← pick Item.expr? right
    let chosen ← pick Item.expr? chosen
    let otherwise ← pick Item.expr? otherwise
    return .choose relation left right chosen otherwise
  | ofSymbol part symbol => do ofAlgebra (part.ofSymbol (← pick Item.symbol? symbol))
  | ofTensor part tensor => do ofAlgebra (part.ofTensor (← pick Item.tensor? tensor))
  | determinant tensor => do ofAlgebra (← pick Item.tensor? tensor).determinant
  | norm tensor => do ofAlgebra (← pick Item.tensor? tensor).norm
  | dot left right => do
    let left ← pick Item.tensor? left
    let right ← pick Item.tensor? right
    ofAlgebra (left.dot right)
  | derivative expr unknown => do
    let expr ← pick Item.expr? expr
    let unknown ← pick Item.atom? unknown
    return expr.derivative unknown
  | substitute expr pairs => do
    let expr ← pick Item.expr? expr
    let pairs ← replacements pairs
    return expr.substitute (replacement pairs)
  | simplify simplifier expr => do
    let expr ← pick Item.expr? expr
    orRefuse Refusal.ofSimplifier (simplifier.val expr)
  | operand expr place => pick (fun item => item.expr? >>= fun expr => expr.children[place]?) expr
  | rest expr => do return (← pick Item.expr? expr).splitCoefficient.2

theorem Formula.make_conforms (formula : Formula κ) :
    Conforms offset formula.make formula.make := by
  cases formula with
  | number value => exact .returns rfl
  | gather gathering operands =>
      refine (pickAll_conforms (Item.expr?_shift offset) operands).bind fun operands => ?_
      exact .returns (gathering.apply_shift operands)
  | pair pairing left right =>
      refine (expr_conforms left).bind fun left => (expr_conforms right).bind fun right => ?_
      exact .returns (pairing.apply_shift left right)
  | change way expr => exact (expr_conforms expr).bind fun expr => .returns (way.apply_shift expr)
  | choose relation left right chosen otherwise =>
      refine (expr_conforms left).bind fun left => (expr_conforms right).bind fun right => ?_
      refine (expr_conforms chosen).bind fun chosen => ?_
      refine (expr_conforms otherwise).bind fun otherwise => ?_
      exact .returns (Expr.choose_shift offset relation left right chosen otherwise)
  | ofSymbol part symbol =>
      refine (symbol_conforms symbol).bind fun symbol => ?_
      exact ofAlgebra_conforms (part.ofSymbol_shift (κ := κ) symbol)
  | ofTensor part tensor =>
      refine (tensor_conforms tensor).bind fun tensor => ?_
      exact ofAlgebra_conforms (part.ofTensor_shift tensor)
  | determinant tensor =>
      refine (tensor_conforms tensor).bind fun tensor => ?_
      exact ofAlgebra_conforms (tensor.determinant_shift offset)
  | norm tensor =>
      refine (tensor_conforms tensor).bind fun tensor => ?_
      exact ofAlgebra_conforms (tensor.norm_shift offset)
  | dot left right =>
      refine (tensor_conforms left).bind fun left => (tensor_conforms right).bind fun right => ?_
      exact ofAlgebra_conforms (Tensor.dot_shift offset left right)
  | derivative expr unknown =>
      refine (expr_conforms expr).bind fun expr => (atom_conforms unknown).bind fun unknown => ?_
      exact .returns (Expr.derivative_shift offset unknown expr)
  | substitute expr pairs =>
      refine (expr_conforms expr).bind fun expr => (replacements_conforms pairs).bind fun pairs => ?_
      exact .returns (Expr.substitute_shift offset (replacement_shift pairs) expr)
  | simplify simplifier expr =>
      refine (expr_conforms expr).bind fun expr => ?_
      exact orRefuse_conforms (fun _ => rfl) (simplifier.property offset expr)
  | operand expr place =>
      refine pick_conforms (fun item => ?_) expr
      rw [Item.expr?_shift]
      cases item.expr? <;> simp
  | rest expr => exact (expr_conforms expr).bind fun expr => .returns (by simp)

inductive Combination where
  | add | sub | matmul | cross

def Combination.apply (combination : Combination) (left right : Tensor κ) :
    Except AlgebraError (Tensor κ) :=
  match combination with
  | add => left.add right
  | sub => left.sub right
  | matmul => left.matmul right
  | cross => left.cross right

@[simp] theorem Combination.apply_shift (combination : Combination) (left right : Tensor κ) :
    combination.apply (shift offset left) (shift offset right) =
      shift offset (combination.apply left right) := by
  cases combination <;> simp [apply]

inductive Reshaping where
  | negate
  | transpose
  | inverse
  | select (indices : List Nat)
  | columns (first last : Nat)

def Reshaping.apply (reshaping : Reshaping) (tensor : Tensor κ) : Except AlgebraError (Tensor κ) :=
  match reshaping with
  | negate => .ok tensor.negate
  | transpose => .ok tensor.transpose
  | inverse => tensor.inverse
  | select indices => tensor.select indices
  | columns first last => tensor.columnRange first last

@[simp] theorem Reshaping.apply_shift (reshaping : Reshaping) (tensor : Tensor κ) :
    reshaping.apply (shift offset tensor) = shift offset (reshaping.apply tensor) := by
  cases reshaping <;> simp [apply]

inductive Constant (κ : Type) where
  | numbers (shape : Shape) (values : List κ)
  | zeros (rows columns : Nat)
  | identity (size : Nat)

def Constant.make : Constant κ → Except AlgebraError (Tensor κ)
  | numbers shape values => Tensor.ofNumbers shape values
  | zeros rows columns => .ok (.zeros rows columns)
  | identity size => .ok (.identity size)

@[simp] theorem Constant.shift_make (constant : Constant κ) :
    shift offset constant.make = constant.make := by
  cases constant <;> simp [make]

inductive Figure (κ : Type) [Scalar κ] where
  | constant (value : Constant κ)
  | ofExpr (expr : Handle)
  | column (entries : List Handle)
  | matrix (rows columns : Nat) (entries : List Handle)
  | ofRows (lines : List (List Handle))
  | ofSymbol (symbol : Handle)
  | rotation (axis : Axis) (angle : Handle)
  | combine (combination : Combination) (left right : Handle)
  | reshape (reshaping : Reshaping) (tensor : Handle)
  | scale (tensor factor : Handle)
  | vstack (parts : List Handle)
  | jacobian (tensor : Handle) (unknowns : List Handle)
  | substitute (tensor : Handle) (pairs : List (Handle × Handle))
  | simplify (simplifier : FairSimplifier κ) (tensor : Handle)

def Figure.make : Figure κ → Desk κ (Tensor κ)
  | constant value => ofAlgebra value.make
  | ofExpr expr => do return .ofExpr (← pick Item.expr? expr)
  | column entries => do return .ofColumn (← pickAll Item.expr? entries)
  | matrix rows columns entries => do
    ofAlgebra (Tensor.matrix rows columns (← pickAll Item.expr? entries))
  | ofRows lines => do ofAlgebra (Tensor.ofRows (← lines.mapM (pickAll Item.expr?)))
  | ofSymbol symbol => do return .ofSymbol (← pick Item.symbol? symbol)
  | rotation axis angle => do return axis.rotation (← pick Item.expr? angle)
  | combine combination left right => do
    let left ← pick Item.tensor? left
    let right ← pick Item.tensor? right
    ofAlgebra (combination.apply left right)
  | reshape reshaping tensor => do ofAlgebra (reshaping.apply (← pick Item.tensor? tensor))
  | scale tensor factor => do
    let tensor ← pick Item.tensor? tensor
    let factor ← pick Item.expr? factor
    return tensor.scale factor
  | vstack parts => do ofAlgebra (Tensor.vstack (← pickAll Item.tensor? parts))
  | jacobian tensor unknowns => do
    let tensor ← pick Item.tensor? tensor
    let unknowns ← pickAll Item.atom? unknowns
    ofAlgebra (tensor.jacobian unknowns)
  | substitute tensor pairs => do
    let tensor ← pick Item.tensor? tensor
    let pairs ← replacements pairs
    return tensor.substitute (replacement pairs)
  | simplify simplifier tensor => do
    let tensor ← pick Item.tensor? tensor
    orRefuse Refusal.ofSimplifier (simplifier.val.onTensor tensor)

theorem Figure.make_conforms (figure : Figure κ) : Conforms offset figure.make figure.make := by
  cases figure with
  | constant value =>
      exact ofAlgebra_conforms value.shift_make.symm
  | ofExpr expr => exact (expr_conforms expr).bind fun expr => .returns (Tensor.ofExpr_shift offset expr)
  | column entries =>
      refine (pickAll_conforms (Item.expr?_shift offset) entries).bind fun entries => ?_
      exact .returns (Tensor.ofColumn_shift offset entries)
  | matrix rows columns entries =>
      refine (pickAll_conforms (Item.expr?_shift offset) entries).bind fun entries => ?_
      exact ofAlgebra_conforms (Tensor.matrix_shift offset rows columns entries)
  | ofRows lines =>
      refine Conforms.bind (.mapM_moved lines fun line _ =>
        pickAll_conforms (Item.expr?_shift offset) line) fun lines => ?_
      exact ofAlgebra_conforms (Tensor.ofRows_shift offset lines)
  | ofSymbol symbol =>
      exact (symbol_conforms symbol).bind fun symbol => .returns (Tensor.ofSymbol_shift offset symbol)
  | rotation axis angle =>
      exact (expr_conforms angle).bind fun angle => .returns (by simp)
  | combine combination left right =>
      refine (tensor_conforms left).bind fun left => (tensor_conforms right).bind fun right => ?_
      exact ofAlgebra_conforms (combination.apply_shift left right)
  | reshape reshaping tensor =>
      refine (tensor_conforms tensor).bind fun tensor => ?_
      exact ofAlgebra_conforms (reshaping.apply_shift tensor)
  | scale tensor factor =>
      refine (tensor_conforms tensor).bind fun tensor => (expr_conforms factor).bind fun factor => ?_
      exact .returns (Tensor.scale_shift offset tensor factor)
  | vstack parts =>
      refine (pickAll_conforms (Item.tensor?_shift offset) parts).bind fun parts => ?_
      exact ofAlgebra_conforms (Tensor.vstack_shift offset parts)
  | jacobian tensor unknowns =>
      refine (tensor_conforms tensor).bind fun tensor => ?_
      refine (pickAll_conforms (Item.atom?_shift offset) unknowns).bind fun unknowns => ?_
      exact ofAlgebra_conforms (Tensor.jacobian_shift offset tensor unknowns)
  | substitute tensor pairs =>
      refine (tensor_conforms tensor).bind fun tensor => ?_
      refine (replacements_conforms pairs).bind fun pairs => ?_
      exact .returns (Tensor.substitute_shift offset tensor (replacement_shift pairs))
  | simplify simplifier tensor =>
      refine (tensor_conforms tensor).bind fun tensor => ?_
      exact orRefuse_conforms (fun _ => rfl) (Graph.onTensor_shift offset simplifier.property tensor)

/-- What is asked of what is at hand without making anything of it. -/
inductive Question (κ : Type) where
  | sameSymbol (left right : Handle)
  | sameExpr (left right : Handle)
  | sameTensor (left right : Handle)
  | sameCoordinate (left right : Handle)
  | reads (expr unknown : Handle)
  | flatIndex (unknown : Handle)
  | evaluate (tensor : Handle) (values : List (Handle × κ))
  | inspect (item : Handle)

def truth (value : Bool) : Reply κ := ⟨.bool value, []⟩

def sameItem {α : Type} [DecidableEq α] (read : Item κ → Option α) (left right : Handle) :
    Desk κ (Reply κ) := do
  let left ← pick read left
  let right ← pick read right
  return truth (left == right)

def ofNumbers? (numbers : Option (List κ)) : Reply κ := ⟨.bool numbers.isSome, numbers.getD []⟩

def Question.answer [ScalarText κ] : Question κ → Desk κ (Reply κ)
  | sameSymbol left right => sameItem Item.symbol? left right
  | sameExpr left right => sameItem Item.expr? left right
  | sameTensor left right => sameItem Item.tensor? left right
  | sameCoordinate left right => sameItem Item.coordinate? left right
  | reads expr unknown => do
    let expr ← pick Item.expr? expr
    let unknown ← pick Item.atom? unknown
    return truth (expr.reads unknown)
  | flatIndex unknown => do return ⟨.nat (← pick Item.atom? unknown).flatIndex, []⟩
  | evaluate tensor values => do
    let tensor ← pick Item.tensor? tensor
    let pairs ← values.mapM fun (unknown, value) => do
      let atom ← pick Item.atom? unknown
      return (atom, value)
    return ofNumbers? (tensor.evaluate (replacement pairs))
  | inspect item => pick (fun item => some item.reply) item

theorem sameItem_conforms {α : Type} [DecidableEq α] [Numbered α] [Faithful α]
    {read : Item κ → Option α}
    (same : ∀ item, read (shift offset item) = (read item).map (shift offset))
    (left right : Handle) :
    Conforms offset (sameItem read left right) (sameItem read left right) := by
  refine (pick_conforms same left).bind fun left => (pick_conforms same right).bind fun right => ?_
  refine .returns ?_
  rw [shift_beq, shift_plain, id_eq]

theorem Question.answer_conforms [ScalarText κ] (question : Question κ) :
    Conforms offset question.answer question.answer := by
  cases question with
  | sameSymbol left right => exact sameItem_conforms (Item.symbol?_shift offset) left right
  | sameExpr left right => exact sameItem_conforms (Item.expr?_shift offset) left right
  | sameTensor left right => exact sameItem_conforms (Item.tensor?_shift offset) left right
  | sameCoordinate left right => exact sameItem_conforms (Item.coordinate?_shift offset) left right
  | reads expr unknown =>
      refine (expr_conforms expr).bind fun expr => (atom_conforms unknown).bind fun unknown => ?_
      exact .returns (by simp)
  | flatIndex unknown => exact (atom_conforms unknown).bind fun unknown => .returns (by simp)
  | evaluate tensor values =>
      refine (tensor_conforms tensor).bind fun tensor => ?_
      refine Conforms.bind (.mapM_moved values fun (unknown, value) _ =>
        (atom_conforms unknown).bind fun atom => .pure (atom, value)) fun pairs => ?_
      have same : ∀ atom, replacement (shift offset pairs) (shift offset atom) =
          replacement pairs atom := fun atom => by simp [replacement_shift]
      refine .returns ?_
      rw [Tensor.evaluate_shift offset tensor same, shift_plain, id_eq]
  | inspect item =>
      exact pick_conforms (fun item => by simp [Item.reply_shift]) item

end Script

end Mechanism
