import Mechanism.Graph.Sharing
import Mechanism.Proofs.Expr.Uses

/-!
What the counting of subexpressions comes to. The operands of a part are counted when the part is
met for the first time, so its count is the number of its places: those among the values, and those
among the operands of the distinct parts that have been met.
-/

namespace Mechanism.Graph

variable {κ : Type} [Scalar κ]

theorem countOf_increment (expr other : Expr κ) (counts : Counts κ) :
    countOf (increment expr counts) other =
      countOf counts other + if expr = other then 1 else 0 := by
  rw [countOf, increment, Std.HashMap.getD_insert]
  by_cases same : expr = other
  · simp [same]
  · simp [same, countOf]

@[simp] theorem countOf_empty (expr : Expr κ) : countOf (∅ : Counts κ) expr = 0 :=
  Std.HashMap.getD_empty

theorem countIn_leaf {expr : Expr κ} (leaf : expr.isLeaf = true) (counts : Counts κ) :
    countIn counts expr = counts := by
  cases expr with
  | num _ => rfl
  | atom _ => rfl
  | _ => cases leaf

theorem countIn_compound {expr : Expr κ} (compound : expr.isLeaf = false) (counts : Counts κ) :
    countIn counts expr =
      enter expr (fun counted => countAll counted expr.children) counts := by
  cases expr with
  | num _ => cases compound
  | atom _ => cases compound
  | _ => simp [countIn, countAll, Expr.children]

theorem countAll_append (left right : List (Expr κ)) (counts : Counts κ) :
    countAll counts (left ++ right) = countAll (countAll counts left) right := by
  induction left generalizing counts with
  | nil => rfl
  | cons head tail ih => exact ih _

/-- How the counts come from others by the counting of expressions, and the parts that are met for
the first time then. -/
structure Counted (before : Counts κ) (exprs met : List (Expr κ)) (after : Counts κ) : Prop where
  unique : met.Nodup
  compound : ∀ part ∈ met, part.isLeaf = false
  unmet : ∀ part ∈ met, countOf before part = 0
  places : ∀ part : Expr κ, part.isLeaf = false → countOf after part =
    countOf before part + exprs.count part + (met.map fun parent => parent.children.count part).sum
  seen : ∀ part, countOf after part ≠ 0 ↔ countOf before part ≠ 0 ∨ part ∈ met

namespace Counted

variable {before middle after : Counts κ} {expr : Expr κ} {left right met more : List (Expr κ)}

theorem refl (counts : Counts κ) {exprs : List (Expr κ)}
    (leaves : ∀ expr ∈ exprs, expr.isLeaf = true) : Counted counts exprs [] counts where
  unique := List.nodup_nil
  compound := nofun
  unmet := nofun
  places := by
    intro part compound
    have absent : part ∉ exprs := by
      intro member
      rw [leaves part member] at compound
      cases compound
    simp [List.count_eq_zero.mpr absent]
  seen := by simp

theorem append (first : Counted before left met middle) (second : Counted middle right more after) :
    Counted before (left ++ right) (met ++ more) after where
  unique := by
    refine List.nodup_append.mpr ⟨first.unique, second.unique, ?_⟩
    rintro part former other latter rfl
    exact (first.seen part).mpr (Or.inr former) (second.unmet part latter)
  compound := by
    intro part member
    exact (List.mem_append.mp member).elim (first.compound part) (second.compound part)
  unmet := by
    intro part member
    rcases List.mem_append.mp member with former | latter
    · exact first.unmet part former
    · have places := first.places part (second.compound part latter)
      have unmet := second.unmet part latter
      omega
  places := by
    intro part compound
    rw [second.places part compound, first.places part compound, List.count_append,
      List.map_append, List.sum_append]
    omega
  seen := by
    intro part
    rw [second.seen, first.seen, List.mem_append, or_assoc]

theorem enter (compound : expr.isLeaf = false) (unmet : countOf before expr = 0)
    (operands : Counted (increment expr before) expr.children met after) :
    Counted before [expr] (expr :: met) after where
  unique := by
    refine List.nodup_cons.mpr ⟨fun member => ?_, operands.unique⟩
    have again := operands.unmet expr member
    rw [countOf_increment, if_pos rfl] at again
    omega
  compound := List.forall_mem_cons.mpr ⟨compound, operands.compound⟩
  unmet := by
    refine List.forall_mem_cons.mpr ⟨unmet, fun part member => ?_⟩
    have again := operands.unmet part member
    rw [countOf_increment] at again
    omega
  places := by
    intro part isCompound
    rw [operands.places part isCompound, countOf_increment, List.map_cons, List.sum_cons,
      List.count_singleton]
    simp only [beq_iff_eq]
    omega
  seen := by
    intro part
    rw [operands.seen, countOf_increment, List.mem_cons]
    by_cases same : expr = part
    · simp [same]
    · simp [same, Ne.symm same]

end Counted

theorem exists_counted_all (exprs : List (Expr κ))
    (each : ∀ expr ∈ exprs, ∀ counts, ∃ met, Counted counts [expr] met (countIn counts expr))
    (counts : Counts κ) : ∃ met, Counted counts exprs met (countAll counts exprs) := by
  induction exprs generalizing counts with
  | nil => exact ⟨[], Counted.refl counts nofun⟩
  | cons head tail ih =>
      obtain ⟨met, first⟩ := each head List.mem_cons_self counts
      obtain ⟨more, second⟩ := ih (fun expr member => each expr (List.mem_cons_of_mem _ member))
        (countIn counts head)
      exact ⟨met ++ more, first.append second⟩

theorem exists_counted (expr : Expr κ) (counts : Counts κ) :
    ∃ met, Counted counts [expr] met (countIn counts expr) := by
  induction expr using Expr.induct generalizing counts with
  | step expr ih =>
      cases leaf : expr.isLeaf with
      | true =>
          rw [countIn_leaf leaf]
          exact ⟨[], Counted.refl counts fun other member => List.mem_singleton.mp member ▸ leaf⟩
      | false =>
          rw [countIn_compound leaf, Graph.enter]
          have count := countOf_increment expr expr counts
          rw [if_pos rfl] at count
          by_cases unmet : countOf counts expr = 0
          · obtain ⟨met, operands⟩ := exists_counted_all expr.children ih (increment expr counts)
            rw [if_pos (by omega)]
            exact ⟨expr :: met, Counted.enter leaf unmet operands⟩
          · rw [if_neg (by omega)]
            refine ⟨[], List.nodup_nil, nofun, nofun, ?_, ?_⟩
            · intro part _
              simp [countOf_increment, List.count_singleton]
            · intro part
              rw [countOf_increment]
              by_cases same : expr = part
              · simp [← same, unmet]
              · simp [same]

def counts (graph : Graph κ) : Counts κ :=
  graph.equations.foldl (fun counts equation => countAll counts equation.value.entries) ∅

def entries (graph : Graph κ) : List (Expr κ) :=
  graph.equations.flatMap fun equation => equation.value.entries

theorem counts_eq (graph : Graph κ) : graph.counts = countAll ∅ graph.entries := by
  have walk : ∀ (equations : List (Equation κ)) (counts : Counts κ),
      equations.foldl (fun counts equation => countAll counts equation.value.entries) counts =
        countAll counts (equations.flatMap fun equation => equation.value.entries) := by
    intro equations
    induction equations with
    | nil => exact fun _ => rfl
    | cons head tail ih =>
        intro counts
        rw [List.foldl_cons, ih, List.flatMap_cons, countAll_append]
  exact walk graph.equations ∅

theorem exists_counted_graph (graph : Graph κ) :
    ∃ met, Counted ∅ graph.entries met graph.counts := by
  rw [counts_eq]
  exact exists_counted_all _ (fun expr _ => exists_counted expr) ∅

end Mechanism.Graph
