import Mechanism.Expr.Canonical
import Mechanism.Expr.Fold

/-!
Partial derivatives. The derivative of a node follows from its operands and their derivatives
(`rate`), so a part that occurs many times is differentiated once.
-/

namespace Mechanism.Expr

variable {κ : Type} [Scalar κ]

def slope (function : Elementary) (argument : Expr κ) : Expr κ :=
  match function with
  | .sin => argument.cos
  | .cos => -argument.sin
  | .tan => one + (apply .tan argument).square
  | .asin => (one - argument.square).squareRoot.reciprocal
  | .acos => -(one - argument.square).squareRoot.reciprocal
  | .atan => (one + argument.square).reciprocal
  | .sqrt => number Scalar.half * argument.squareRoot.reciprocal
  | .abs => apply .sign argument
  | .sign => zero
  | .exp => apply .exp argument
  | .ln => argument.reciprocal

def productRule (before : List (Expr κ)) : List (Expr κ × Expr κ) → List (Expr κ)
  | [] => []
  | (factor, rate) :: rest =>
    let later := productRule (before ++ [factor]) rest
    if rate.isZero then later
    else product (before ++ rest.map (·.1) ++ [rate]) :: later

def powerRule (base exponent baseRate exponentRate : Expr κ) : Expr κ :=
  if exponentRate.isZero then
    if baseRate.isZero then zero
    else product [exponent, power base (exponent - one), baseRate]
  else
    pow base exponent *
      (exponentRate * apply .ln base + exponent * baseRate / base)

def angleRule (y x yRate xRate : Expr κ) : Expr κ :=
  if yRate.isZero && xRate.isZero then zero
  else (x * yRate - y * xRate) / (x.square + y.square)

def rate (unknown : Atom) (expr : Expr κ) (rates : List (Expr κ)) : Expr κ :=
  match expr, rates with
  | atom symbol, _ => if symbol = unknown then one else zero
  | add _, _ => sum rates
  | mul operands, _ => sum (productRule [] (operands.zip rates))
  | pow base exponent, [baseRate, exponentRate] => powerRule base exponent baseRate exponentRate
  | call function argument, [argumentRate] =>
    if argumentRate.isZero then zero else slope function argument * argumentRate
  | angle y x, [yRate, xRate] => angleRule y x yRate xRate
  | cond relation left right _ _, [_, _, chosenRate, otherwiseRate] =>
    choose relation left right chosenRate otherwiseRate
  | _, _ => zero

def derivative (unknown : Atom) (expr : Expr κ) : Expr κ := fold (rate unknown) expr

theorem derivative_eq (unknown : Atom) (expr : Expr κ) :
    expr.derivative unknown = rate unknown expr (expr.children.map (derivative unknown)) :=
  fold_eq (rate unknown) expr

end Mechanism.Expr
