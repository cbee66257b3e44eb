import Mechanism.Expr.Fold
import Mechanism.Proofs.Expr.Uses
import Mechanism.Tensor.Basic

/-!
Expressions of which some parts are known by symbols. Such a part is not written out but gives way
to its symbol, and the rest is built again around the symbols. A part without a symbol is written
out as a root and as an operand of what is written out.
-/

namespace Mechanism

namespace Expr

variable {κ : Type} [Scalar κ]

def render (names : Expr κ → Option Symbol) : Expr κ → Expr κ :=
  recurse fun expr operands =>
    match names expr with
    | some symbol => .atom (.whole symbol)
    | none => expr.rebuild operands

def renderBelow (names : Expr κ → Option Symbol) (expr : Expr κ) : Expr κ :=
  expr.rebuild (expr.children.map (render names))

def written (names : Expr κ → Option Symbol) : Expr κ → List (Expr κ) :=
  recurse fun expr below => if (names expr).isSome then [] else expr :: below.flatten

def writtenBelow (names : Expr κ → Option Symbol) (expr : Expr κ) : List (Expr κ) :=
  expr :: expr.children.flatMap (written names)

/-- All parts, as often as they occur. -/
def parts : Expr κ → List (Expr κ) := written fun _ => none

variable {names : Expr κ → Option Symbol} {expr part parent child : Expr κ}

theorem render_eq (names : Expr κ → Option Symbol) (expr : Expr κ) :
    expr.render names =
      match names expr with
      | some symbol => .atom (.whole symbol)
      | none => expr.renderBelow names :=
  recurse_eq _ expr

theorem written_eq (names : Expr κ → Option Symbol) (expr : Expr κ) :
    expr.written names = if (names expr).isSome then [] else expr.writtenBelow names := by
  rw [written, recurse_eq, ← List.flatMap_def]
  rfl

theorem written_unnamed (unnamed : names expr = none) :
    expr.written names = expr.writtenBelow names := by
  rw [written_eq, unnamed]
  rfl

theorem parts_eq (expr : Expr κ) : expr.parts = expr :: expr.children.flatMap parts :=
  written_unnamed rfl

theorem unnamed_of_written (member : part ∈ expr.written names) : names part = none := by
  induction expr using induct with
  | step expr ih =>
      rw [written_eq] at member
      split at member
      · cases member
      · rename_i unnamed
        rcases List.mem_cons.mp member with rfl | inside
        · simpa using unnamed
        · obtain ⟨operand, among, inside⟩ := List.mem_flatMap.mp inside
          exact ih operand among inside

theorem mem_written_of_unnamed (unnamed : names expr = none) : expr ∈ expr.written names := by
  rw [written_unnamed unnamed]
  exact List.mem_cons_self

theorem child_mem_writtenBelow
    (operands : ∀ operand ∈ expr.children, parent ∈ operand.written names →
      (names child).isSome ∨ child ∈ operand.written names)
    (among : child ∈ parent.children) (member : parent ∈ expr.writtenBelow names) :
    (names child).isSome ∨ child ∈ expr.writtenBelow names := by
  have inside : ∀ operand ∈ expr.children, child ∈ operand.written names →
      child ∈ expr.writtenBelow names := fun operand place below =>
    List.mem_cons_of_mem _ (List.mem_flatMap.mpr ⟨operand, place, below⟩)
  rcases List.mem_cons.mp member with rfl | below
  · cases known : names child with
    | some symbol => exact Or.inl rfl
    | none => exact Or.inr (inside child among (mem_written_of_unnamed known))
  · obtain ⟨operand, place, below⟩ := List.mem_flatMap.mp below
    exact (operands operand place below).imp_right (inside operand place)

theorem child_mem_written (among : child ∈ parent.children)
    (member : parent ∈ expr.written names) :
    (names child).isSome ∨ child ∈ expr.written names := by
  induction expr using induct with
  | step expr ih =>
      cases known : names expr with
      | some symbol =>
          rw [written_eq, known] at member
          cases member
      | none =>
          rw [written_unnamed known] at member ⊢
          exact child_mem_writtenBelow ih among member

theorem parts_induction {property : Expr κ → Prop} (root : property expr)
    (children : ∀ {parent child : Expr κ}, property parent → child ∈ parent.children →
      property child) : ∀ part ∈ expr.parts, property part := by
  induction expr using induct with
  | step expr ih =>
      rw [parts_eq]
      refine List.forall_mem_cons.mpr ⟨root, fun part member => ?_⟩
      obtain ⟨operand, among, inside⟩ := List.mem_flatMap.mp member
      exact ih operand among (children root among) part inside

theorem mem_parts_of_writtenBelow
    (operands : ∀ operand ∈ expr.children, part ∈ operand.written names → part ∈ operand.parts)
    (member : part ∈ expr.writtenBelow names) : part ∈ expr.parts := by
  rw [parts_eq]
  rcases List.mem_cons.mp member with rfl | below
  · exact List.mem_cons_self
  · obtain ⟨operand, among, inside⟩ := List.mem_flatMap.mp below
    exact List.mem_cons_of_mem _ (List.mem_flatMap.mpr
      ⟨operand, among, operands operand among inside⟩)

theorem mem_parts_of_written (member : part ∈ expr.written names) : part ∈ expr.parts := by
  induction expr using induct with
  | step expr ih =>
      rw [written_eq] at member
      split at member
      · cases member
      · exact mem_parts_of_writtenBelow ih member

theorem count_writtenBelow (named : (names part).isSome) (expr : Expr κ) :
    (expr.writtenBelow names).count part = [expr].count part := by
  have absent : part ∉ expr.children.flatMap (written names) := by
    intro member
    obtain ⟨operand, _, inside⟩ := List.mem_flatMap.mp member
    rw [unnamed_of_written inside] at named
    cases named
  rw [writtenBelow, List.count_cons, List.count_eq_zero.mpr absent, List.count_singleton,
    Nat.zero_add]

theorem count_flatMap_writtenBelow (named : (names part).isSome) (exprs : List (Expr κ)) :
    (exprs.flatMap (writtenBelow names)).count part = exprs.count part := by
  induction exprs with
  | nil => rfl
  | cons head tail ih =>
      rw [List.flatMap_cons, List.count_append, count_writtenBelow named, ih, ← List.count_append]
      rfl

/-- What is listed are the roots and the operands of what is listed, as far as one part goes. -/
def Tallies (part : Expr κ) (roots listed : List (Expr κ)) : Prop :=
  listed.count part = roots.count part +
    (listed.map fun parent => parent.children.count part).sum

theorem tallies_flatMap {α : Type} {items : List α} {roots listed : α → List (Expr κ)}
    (each : ∀ item ∈ items, Tallies part (roots item) (listed item)) :
    Tallies part (items.flatMap roots) (items.flatMap listed) := by
  induction items with
  | nil => rfl
  | cons head tail ih =>
      have first := each head List.mem_cons_self
      have rest := ih fun item member => each item (List.mem_cons_of_mem _ member)
      unfold Tallies at first rest ⊢
      simp only [List.flatMap_cons, List.count_append, List.map_append, List.sum_append]
      omega

theorem tallies_exprs {exprs : List (Expr κ)} {listed : Expr κ → List (Expr κ)}
    (each : ∀ expr ∈ exprs, Tallies part [expr] (listed expr)) :
    Tallies part exprs (exprs.flatMap listed) := by
  have all : Tallies part (exprs.flatMap fun expr => [expr]) (exprs.flatMap listed) :=
    tallies_flatMap each
  rwa [List.flatMap_singleton'] at all

theorem tallies_writtenBelow
    (operands : ∀ child ∈ expr.children, Tallies part [child] (child.written names)) :
    Tallies part [expr] (expr.writtenBelow names) := by
  have below := tallies_exprs operands
  unfold Tallies at below ⊢
  rw [writtenBelow, List.count_cons, List.map_cons, List.sum_cons, List.count_singleton]
  omega

theorem tallies_written (unnamed : names part = none) (expr : Expr κ) :
    Tallies part [expr] (expr.written names) := by
  induction expr using induct with
  | step expr ih =>
      cases known : names expr with
      | some symbol =>
          have differ : expr ≠ part := by
            rintro rfl
            rw [unnamed] at known
            cases known
          simp [Tallies, written_eq, known, differ]
      | none =>
          rw [written_unnamed known]
          exact tallies_writtenBelow ih

end Expr

namespace Tensor

variable {κ : Type} [Scalar κ]

def render (names : Expr κ → Option Symbol) (tensor : Tensor κ) : Tensor κ :=
  ⟨tensor.shape, tensor.entries.map
    (if tensor.shape.isScalar then Expr.renderBelow names else Expr.render names)⟩

def written (names : Expr κ → Option Symbol) (tensor : Tensor κ) : List (Expr κ) :=
  tensor.entries.flatMap
    (if tensor.shape.isScalar then Expr.writtenBelow names else Expr.written names)

variable {names : Expr κ → Option Symbol} {tensor : Tensor κ} {expr part parent child : Expr κ}

theorem written_ofExpr (names : Expr κ → Option Symbol) (expr : Expr κ) :
    (ofExpr expr).written names = expr.writtenBelow names := by
  simp [written, ofExpr, Shape.isScalar]

theorem mem_written_of_entry (among : expr ∈ tensor.entries) :
    (names expr).isSome ∨ expr ∈ tensor.written names := by
  unfold written
  split
  · exact Or.inr (List.mem_flatMap.mpr ⟨expr, among, List.mem_cons_self⟩)
  · cases known : names expr with
    | some symbol => exact Or.inl rfl
    | none => exact Or.inr (List.mem_flatMap.mpr
        ⟨expr, among, Expr.mem_written_of_unnamed known⟩)

theorem child_mem_written (among : child ∈ parent.children)
    (member : parent ∈ tensor.written names) :
    (names child).isSome ∨ child ∈ tensor.written names := by
  unfold written at member ⊢
  obtain ⟨expr, place, inside⟩ := List.mem_flatMap.mp member
  split at inside
  · rename_i scalar
    rw [if_pos scalar]
    exact (Expr.child_mem_writtenBelow (fun _ _ => Expr.child_mem_written among) among
      inside).imp_right fun below => List.mem_flatMap.mpr ⟨expr, place, below⟩
  · rename_i notScalar
    rw [if_neg notScalar]
    exact (Expr.child_mem_written among inside).imp_right fun below =>
      List.mem_flatMap.mpr ⟨expr, place, below⟩

theorem mem_parts_of_written (member : part ∈ tensor.written names) :
    ∃ entry ∈ tensor.entries, part ∈ entry.parts := by
  unfold written at member
  obtain ⟨entry, among, inside⟩ := List.mem_flatMap.mp member
  split at inside
  · exact ⟨entry, among,
      Expr.mem_parts_of_writtenBelow (fun _ _ => Expr.mem_parts_of_written) inside⟩
  · exact ⟨entry, among, Expr.mem_parts_of_written inside⟩

theorem tallies_written (unnamed : names part = none) (tensor : Tensor κ) :
    Expr.Tallies part tensor.entries (tensor.written names) := by
  unfold written
  apply Expr.tallies_exprs
  intro expr _
  split
  · exact Expr.tallies_writtenBelow fun child _ => Expr.tallies_written unnamed child
  · exact Expr.tallies_written unnamed expr

end Tensor

end Mechanism
