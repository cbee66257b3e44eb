import Mathlib.Analysis.Calculus.Deriv.Abs
import Mathlib.Analysis.Calculus.Deriv.ZPow
import Mathlib.Analysis.SpecialFunctions.Complex.LogDeriv
import Mathlib.Analysis.SpecialFunctions.Pow.Deriv
import Mathlib.Analysis.SpecialFunctions.Sqrt
import Mathlib.Analysis.SpecialFunctions.Trigonometric.ArctanDeriv
import Mathlib.Analysis.SpecialFunctions.Trigonometric.InverseDeriv
import Mechanism.Proofs.Exact

/-!
Where the operations on real numbers are smooth, and what their derivatives are there.
-/

namespace Mechanism

open Filter Topology

namespace Elementary

/-- The places around which the function is defined and has a derivative. -/
def SmoothAt : Elementary → ℝ → Prop
  | tan, value => Real.cos value ≠ 0
  | asin, value => -1 < value ∧ value < 1
  | acos, value => -1 < value ∧ value < 1
  | sqrt, value => 0 < value
  | ln, value => 0 < value
  | abs, value => value ≠ 0
  | sign, value => value ≠ 0
  | _, _ => True

noncomputable def realSlope : Elementary → ℝ → ℝ
  | sin, value => Real.cos value
  | cos, value => -Real.sin value
  | tan, value => 1 + Real.tan value ^ 2
  | asin, value => (Real.sqrt (1 - value ^ 2))⁻¹
  | acos, value => -(Real.sqrt (1 - value ^ 2))⁻¹
  | atan, value => (1 + value ^ 2)⁻¹
  | sqrt, value => 1 / (1 + 1) * (Real.sqrt value)⁻¹
  | abs, value => Real.sign value
  | sign, _ => 0
  | exp, value => Real.exp value
  | ln, value => value⁻¹

theorem eventually_definedAt {function : Elementary} {value : ℝ}
    (smooth : function.SmoothAt value) : ∀ᶠ near in 𝓝 value, function.DefinedAt near := by
  cases function with
  | tan => exact Real.continuous_cos.continuousAt.eventually_ne smooth
  | asin | acos =>
      filter_upwards [Ioo_mem_nhds smooth.1 smooth.2] with near between
      exact ⟨between.1.le, between.2.le⟩
  | sqrt => exact (eventually_gt_nhds smooth).mono fun near positive => positive.le
  | ln => exact eventually_gt_nhds smooth
  | sin | cos | atan | abs | sign | exp => exact Eventually.of_forall fun near => trivial

theorem eventually_smoothAt {function : Elementary} {value : ℝ}
    (smooth : function.SmoothAt value) : ∀ᶠ near in 𝓝 value, function.SmoothAt near := by
  cases function with
  | tan => exact Real.continuous_cos.continuousAt.eventually_ne smooth
  | asin | acos => exact Ioo_mem_nhds smooth.1 smooth.2
  | sqrt | ln => exact eventually_gt_nhds smooth
  | abs | sign => exact eventually_ne_nhds smooth
  | sin | cos | atan | exp => exact Eventually.of_forall fun near => trivial

theorem hasDerivAt_sign {value : ℝ} (nonzero : value ≠ 0) : HasDerivAt Real.sign 0 value := by
  rcases nonzero.lt_or_gt with negative | positive
  · apply (hasDerivAt_const value (-1 : ℝ)).congr_of_eventuallyEq
    exact (eventually_lt_nhds negative).mono fun near => Real.sign_of_neg
  · apply (hasDerivAt_const value (1 : ℝ)).congr_of_eventuallyEq
    exact (eventually_gt_nhds positive).mono fun near => Real.sign_of_pos

theorem hasDerivAt_real {function : Elementary} {value : ℝ} (smooth : function.SmoothAt value) :
    HasDerivAt function.real (function.realSlope value) value := by
  cases function with
  | sin => exact Real.hasDerivAt_sin value
  | cos => exact Real.hasDerivAt_cos value
  | tan =>
      apply (Real.hasDerivAt_tan smooth).congr_deriv
      rw [realSlope, one_div, ← Real.inv_one_add_tan_sq smooth, inv_inv]
  | asin =>
      apply (Real.hasDerivAt_arcsin smooth.1.ne' smooth.2.ne).congr_deriv
      rw [realSlope, one_div]
  | acos =>
      apply (Real.hasDerivAt_arccos smooth.1.ne' smooth.2.ne).congr_deriv
      rw [realSlope, one_div]
  | atan => exact Real.hasDerivAt_arctan' value
  | sqrt =>
      have positive : 0 < value := smooth
      apply (Real.hasDerivAt_sqrt positive.ne').congr_deriv
      rw [realSlope, one_add_one_eq_two, ← one_div (Real.sqrt value), one_div_mul_one_div]
  | abs =>
      rcases smooth.lt_or_gt with negative | positive
      · rw [realSlope, Real.sign_of_neg negative]
        exact hasDerivAt_abs_neg negative
      · rw [realSlope, Real.sign_of_pos positive]
        exact hasDerivAt_abs_pos positive
  | sign => exact hasDerivAt_sign smooth
  | exp => exact Real.hasDerivAt_exp value
  | ln =>
      have positive : 0 < value := smooth
      exact Real.hasDerivAt_log positive.ne'

end Elementary

/-- The point does not lie on the closed negative half of the axis along which angles jump. -/
def OffCut (y x : ℝ) : Prop := ¬ (y = 0 ∧ x ≤ 0)

theorem OffCut.positive {y x : ℝ} (off : OffCut y x) : 0 < x ^ 2 + y ^ 2 := by
  by_cases level : y = 0
  · have right : 0 < x := lt_of_not_ge fun left => off ⟨level, left⟩
    positivity
  · positivity

theorem offCut_iff {y x : ℝ} : OffCut y x ↔ (x + y * Complex.I : ℂ) ∈ Complex.slitPlane := by
  have parts : (x + y * Complex.I : ℂ).re = x ∧ (x + y * Complex.I : ℂ).im = y := by simp
  rw [Complex.mem_slitPlane_iff, parts.1, parts.2, OffCut, not_and_or, not_le, or_comm]

theorem hasDerivAt_realAngle {y x : ℝ → ℝ} {yRate xRate time : ℝ}
    (first : HasDerivAt y yRate time) (second : HasDerivAt x xRate time)
    (off : OffCut (y time) (x time)) :
    HasDerivAt (fun t => realAngle (y t) (x t))
      ((x time * yRate - y time * xRate) / (x time ^ 2 + y time ^ 2)) time := by
  have moving : HasDerivAt (fun t => (x t + y t * Complex.I : ℂ))
      (xRate + yRate * Complex.I) time :=
    second.ofReal_comp.add (first.ofReal_comp.mul_const Complex.I)
  have inside := offCut_iff.mp off
  -- The angle is the imaginary part of the logarithm.
  have angle := Complex.imCLM.hasFDerivAt.comp_hasDerivAt time (moving.clog_real inside)
  apply (angle.congr_of_eventuallyEq (Eventually.of_forall fun t => ?_)).congr_deriv
  · have parts (a b : ℝ) : (a + b * Complex.I : ℂ).re = a ∧ (a + b * Complex.I : ℂ).im = b := by
      simp
    rw [Complex.imCLM_apply, Complex.div_im, Complex.normSq_apply, (parts _ _).1, (parts _ _).2,
      (parts _ _).1, (parts _ _).2]
    ring
  · simp [realAngle, Complex.log_im, Complex.mk_eq_add_mul_I]

theorem differentiableAt_realAngle {E : Type} [NormedAddCommGroup E] [NormedSpace ℝ E]
    {y x : E → ℝ} {here : E} (first : DifferentiableAt ℝ y here)
    (second : DifferentiableAt ℝ x here) (off : OffCut (y here) (x here)) :
    DifferentiableAt ℝ (fun near => realAngle (y near) (x near)) here := by
  have real {f : E → ℝ} (differentiable : DifferentiableAt ℝ f here) :
      DifferentiableAt ℝ (fun near => (f near : ℂ)) here :=
    Complex.ofRealCLM.differentiableAt.comp here differentiable
  have moving : DifferentiableAt ℝ (fun near => (x near + y near * Complex.I : ℂ)) here :=
    (real second).add ((real first).mul_const Complex.I)
  have logarithm := ((Complex.differentiableAt_log (offCut_iff.mp off)).restrictScalars ℝ).comp
    here moving
  apply (Complex.imCLM.differentiableAt.comp here logarithm).congr_of_eventuallyEq
  refine Eventually.of_forall fun near => ?_
  simp [realAngle, Complex.log_im, Complex.mk_eq_add_mul_I]

theorem eventually_offCut {α : Type} [TopologicalSpace α] {y x : α → ℝ} {here : α}
    (first : ContinuousAt y here) (second : ContinuousAt x here)
    (off : OffCut (y here) (x here)) : ∀ᶠ near in 𝓝 here, OffCut (y near) (x near) := by
  have moving : ContinuousAt (fun near => (x near + y near * Complex.I : ℂ)) here :=
    (Complex.continuous_ofReal.continuousAt.comp second).add
      ((Complex.continuous_ofReal.continuousAt.comp first).mul continuousAt_const)
  have around := moving.eventually (Complex.isOpen_slitPlane.mem_nhds (offCut_iff.mp off))
  exact around.mono fun near => offCut_iff.mpr

end Mechanism
