import Mathlib.Algebra.Order.BigOperators.Group.Finset
import Mechanism.Proofs.Graph.Counting
import Mechanism.Proofs.Graph.Rendering
import Mechanism.Proofs.Graph.Inlining

/-!
How often the parts of the values of a graph are written out when some of them are known by symbols.
A part with a symbol is written out once, as the value of that symbol. A part without one is written
out at most as often as it has been counted, unless a part around it is written out repeatedly.
-/

namespace Mechanism

variable {κ : Type} [Scalar κ]

namespace Expr

theorem children_leaf {expr : Expr κ} (leaf : expr.isLeaf = true) : expr.children = [] := by
  cases expr with
  | num _ => rfl
  | atom _ => rfl
  | _ => cases leaf

theorem compound_of_child {parent child : Expr κ} (among : child ∈ parent.children) :
    parent.isLeaf = false := by
  rw [← Bool.not_eq_true]
  intro leaf
  rw [children_leaf leaf] at among
  cases among

theorem operations_child_le {parent child : Expr κ} (among : child ∈ parent.children) :
    child.operations ≤ parent.operations := by
  have below : child.operations ≤ total (parent.children.map operations) := by
    rw [total_eq]
    exact List.le_sum_of_mem (List.mem_map_of_mem among)
  rw [operations_eq parent]
  cases parent with
  | num _ => cases among
  | atom _ => cases among
  | _ =>
      simp only [operationsAt]
      omega

/-- What stands around a part is larger, and what is listed is bounded: so what passes from all
listed expressions around a part to the part holds of every part. -/
theorem induct_outward {motive : Expr κ → Prop} (listed : List (Expr κ))
    (step : ∀ part, (∀ parent ∈ listed, part ∈ parent.children → motive parent) → motive part)
    (part : Expr κ) : motive part := by
  have bounded : ∀ (room : Nat) (part : Expr κ),
      (∀ other ∈ listed, sizeOf other < sizeOf part + room) → motive part := by
    intro room
    induction room with
    | zero =>
        intro part bound
        refine step part fun parent member among => ?_
        have larger := sizeOf_lt_of_mem_children among
        have smaller := bound parent member
        omega
    | succ room ih =>
        intro part bound
        refine step part fun parent member among => ih parent fun other inside => ?_
        have larger := sizeOf_lt_of_mem_children among
        have smaller := bound other inside
        omega
  refine bounded ((listed.map sizeOf).sum + 1) part fun other member => ?_
  have summand : sizeOf other ≤ (listed.map sizeOf).sum :=
    List.le_sum_of_mem (List.mem_map_of_mem member)
  omega

end Expr

namespace Graph

theorem compound_of_hoistable {expr : Expr κ} (hoistable : isHoistable expr = true) :
    expr.isLeaf = false := by
  cases expr with
  | num _ => cases hoistable
  | atom _ => cases hoistable
  | _ => rfl

theorem hoistable_of_child {parent child : Expr κ} (among : child ∈ parent.children)
    (hoistable : isHoistable child = true) : isHoistable parent = true := by
  have compound := compound_of_hoistable hoistable
  unfold isHoistable
  split
  · cases among
  · cases among
  · rename_i first second
    rcases List.mem_pair.mp among with rfl | rfl
    · cases child <;> first | rfl | cases compound
    · simp [compound]
  · rfl

def IsWork (expr : Expr κ) : Prop := isHoistable expr = true ∧ expr.operations ≠ 0

theorem IsWork.of_child {parent child : Expr κ} (among : child ∈ parent.children)
    (work : IsWork child) : IsWork parent :=
  ⟨hoistable_of_child among work.1, fun none =>
    work.2 (Nat.eq_zero_of_le_zero (none ▸ Expr.operations_child_le among))⟩

variable {graph : Graph κ} {names : Expr κ → Option Symbol} {made : List (Expr κ)}
  {part : Expr κ}

def isRepeated (graph : Graph κ) (expr : Expr κ) : Bool :=
  graph.settings.minOccurrences ≤ countOf graph.counts expr

/-- All that is written out in the live values and in the values of new symbols. -/
def writtenOut (graph : Graph κ) (names : Expr κ → Option Symbol) (made : List (Expr κ)) :
    List (Expr κ) :=
  graph.equations.flatMap (fun equation => equation.value.written names) ++
    made.flatMap (Expr.writtenBelow names)

/-- Names for the expressions that occur often enough: those of equations whose whole values they
are, and new ones for the expressions `made`. -/
structure Distributed (graph : Graph κ) (names : Expr κ → Option Symbol) (made : List (Expr κ)) :
    Prop where
  apart : graph.equations.Pairwise fun first second =>
    first.value = second.value → first.value.operations = 0
  unique : made.Nodup
  marked : ∀ {expr : Expr κ}, (names expr).isSome → isMarked graph.isRepeated expr = true
  known : ∀ {expr : Expr κ}, (names expr).isSome ↔ expr ∈ made ∨
    isMarked graph.isRepeated expr = true ∧
      ∃ equation ∈ graph.equations, equation.value = .ofExpr expr
  fresh : ∀ expr ∈ made, ∀ equation ∈ graph.equations, equation.value ≠ .ofExpr expr
  clear : ∀ equation ∈ graph.equations, ∀ part ∈ equation.value.written names,
    isMarked graph.isRepeated part = true → equation.value = .ofExpr part
  clearMade : ∀ expr ∈ made, ∀ part ∈ expr.children.flatMap (Expr.written names),
    isMarked graph.isRepeated part = false

theorem mem_entries {equation : Equation κ} {entry : Expr κ} (among : equation ∈ graph.equations)
    (member : entry ∈ equation.value.entries) : entry ∈ graph.entries :=
  List.mem_flatMap.mpr ⟨equation, among, member⟩

theorem countOf_of_entry (compound : part.isLeaf = false) (member : part ∈ graph.entries) :
    countOf graph.counts part ≠ 0 := by
  obtain ⟨met, counted⟩ := exists_counted_graph graph
  have places := counted.places part compound
  have occurs := List.count_pos_iff.mpr member
  omega

theorem countOf_of_child {parent : Expr κ} (compound : part.isLeaf = false)
    (counted : countOf graph.counts parent ≠ 0) (among : part ∈ parent.children) :
    countOf graph.counts part ≠ 0 := by
  obtain ⟨met, counts⟩ := exists_counted_graph graph
  have member : parent ∈ met := ((counts.seen parent).mp counted).resolve_left (by simp)
  have places := counts.places part compound
  have occurs := List.count_pos_iff.mpr among
  have summand : parent.children.count part ≤
      (met.map fun parent => parent.children.count part).sum :=
    List.le_sum_of_mem (List.mem_map_of_mem member)
  omega

theorem countOf_part {expr : Expr κ}
    (root : expr.isLeaf = true ∨ countOf graph.counts expr ≠ 0) :
    ∀ part ∈ expr.parts, part.isLeaf = true ∨ countOf graph.counts part ≠ 0 := by
  refine Expr.parts_induction root ?_
  intro parent child counted among
  cases leaf : child.isLeaf with
  | true => exact Or.inl rfl
  | false =>
      refine Or.inr (countOf_of_child leaf (counted.resolve_left ?_) among)
      rw [Expr.compound_of_child among]
      exact Bool.false_ne_true

theorem mem_parts_of_counted (counted : countOf graph.counts part ≠ 0) :
    ∃ entry ∈ graph.entries, part ∈ entry.parts := by
  obtain ⟨met, counts⟩ := exists_counted_graph graph
  have isMet : ∀ part, countOf graph.counts part ≠ 0 ↔ part ∈ met := by simp [counts.seen]
  revert counted
  refine Expr.induct_outward met (motive := fun part => countOf graph.counts part ≠ 0 →
    ∃ entry ∈ graph.entries, part ∈ entry.parts) (fun part parents counted => ?_) part
  by_cases root : part ∈ graph.entries
  · exact ⟨part, root, Expr.mem_written_of_unnamed rfl⟩
  · have places := counts.places part (counts.compound part ((isMet part).mp counted))
    rw [countOf_empty, List.count_eq_zero.mpr root, Nat.zero_add] at places
    obtain ⟨parent, member, occurs⟩ := List.exists_mem_ne_zero_of_sum_ne_zero (places ▸ counted)
    obtain ⟨parent, among, rfl⟩ := List.mem_map.mp member
    have child : part ∈ parent.children := List.count_pos_iff.mp (Nat.pos_of_ne_zero occurs)
    obtain ⟨entry, inside, below⟩ := parents parent among child ((isMet parent).mpr among)
    exact ⟨entry, inside, (Expr.child_mem_written child below).resolve_left (by simp)⟩

theorem sum_map_le {α : Type} [DecidableEq α] {left right : List α} {weight : α → Nat}
    (le : ∀ item ∈ left, weight item ≠ 0 → left.count item ≤ right.count item) :
    (left.map weight).sum ≤ (right.map weight).sum := by
  rw [Finset.sum_list_map_count, Finset.sum_list_map_count]
  calc
    ∑ item ∈ left.toFinset, left.count item • weight item
    _ ≤ ∑ item ∈ left.toFinset, right.count item • weight item := by
      apply Finset.sum_le_sum
      intro item member
      by_cases none : weight item = 0
      · simp [none]
      · exact Nat.mul_le_mul_right _ (le item (List.mem_toFinset.mp member) none)
    _ ≤ ∑ item ∈ right.toFinset, right.count item • weight item := by
      apply Finset.sum_le_sum_of_ne_zero
      intro item _ occurs
      rw [List.mem_toFinset, ← List.count_pos_iff]
      exact Nat.pos_of_ne_zero fun none => occurs (by simp [none])

theorem countP_le_one {α : Type} {holds : α → Bool} {items : List α}
    (apart : items.Pairwise fun first second => holds first = true → holds second = false) :
    items.countP holds ≤ 1 := by
  induction items with
  | nil => simp
  | cons head tail ih =>
      obtain ⟨first, rest⟩ := List.pairwise_cons.mp apart
      rw [List.countP_cons]
      cases here : holds head with
      | true =>
          have none : tail.countP holds = 0 :=
            List.countP_eq_zero.mpr fun item member => by simp [first item member here]
          simp [none]
      | false => simpa using ih rest

namespace Distributed

variable (distributed : Distributed graph names made)

include distributed

theorem mem_writtenOut_of_named (named : (names part).isSome) :
    part ∈ graph.writtenOut names made := by
  rcases distributed.known.mp named with member | ⟨_, equation, among, value⟩
  · exact List.mem_append_right _ (List.mem_flatMap.mpr ⟨part, member, List.mem_cons_self⟩)
  · refine List.mem_append_left _ (List.mem_flatMap.mpr ⟨equation, among, ?_⟩)
    rw [value]
    exact List.mem_flatMap.mpr ⟨part, List.mem_singleton_self _, List.mem_cons_self⟩

theorem child_mem {parent child : Expr κ} (member : parent ∈ graph.writtenOut names made)
    (among : child ∈ parent.children) : child ∈ graph.writtenOut names made := by
  have inside : (names child).isSome ∨ child ∈ graph.writtenOut names made := by
    rcases List.mem_append.mp member with old | new
    · obtain ⟨equation, place, below⟩ := List.mem_flatMap.mp old
      exact (Tensor.child_mem_written among below).imp_right fun written =>
        List.mem_append_left _ (List.mem_flatMap.mpr ⟨equation, place, written⟩)
    · obtain ⟨expr, place, below⟩ := List.mem_flatMap.mp new
      exact (Expr.child_mem_writtenBelow (fun _ _ => Expr.child_mem_written among) among
        below).imp_right fun written =>
          List.mem_append_right _ (List.mem_flatMap.mpr ⟨expr, place, written⟩)
  exact inside.elim distributed.mem_writtenOut_of_named id

theorem part_mem {entry : Expr κ} (among : entry ∈ graph.entries) (member : part ∈ entry.parts) :
    part ∈ graph.writtenOut names made := by
  refine Expr.parts_induction ?_ distributed.child_mem part member
  obtain ⟨equation, place, inside⟩ := List.mem_flatMap.mp among
  rcases Tensor.mem_written_of_entry inside with named | written
  · exact distributed.mem_writtenOut_of_named named
  · exact List.mem_append_left _ (List.mem_flatMap.mpr ⟨equation, place, written⟩)

theorem isSome_iff (written : part ∈ graph.writtenOut names made) :
    (names part).isSome ↔ isMarked graph.isRepeated part = true := by
  refine ⟨distributed.marked, fun marked => ?_⟩
  rcases List.mem_append.mp written with old | new
  · obtain ⟨equation, place, below⟩ := List.mem_flatMap.mp old
    exact distributed.known.mpr
      (Or.inr ⟨marked, equation, place, distributed.clear equation place part below marked⟩)
  · obtain ⟨expr, place, below⟩ := List.mem_flatMap.mp new
    rcases List.mem_cons.mp below with rfl | inside
    · exact distributed.known.mpr (Or.inl place)
    · rw [distributed.clearMade expr place part inside] at marked
      cases marked

theorem count_value (named : (names part).isSome) {equation : Equation κ}
    (among : equation ∈ graph.equations) :
    (equation.value.written names).count part =
      if equation.value = .ofExpr part then 1 else 0 := by
  by_cases whole : equation.value = .ofExpr part
  · rw [if_pos whole, whole, Tensor.written_ofExpr, Expr.count_writtenBelow named]
    simp
  · rw [if_neg whole, List.count_eq_zero]
    exact fun member => whole (distributed.clear equation among part member
      (distributed.marked named))

theorem count_equations (named : (names part).isSome) :
    (graph.equations.flatMap fun equation => equation.value.written names).count part =
      graph.equations.countP fun equation => equation.value = .ofExpr part := by
  have each : ∀ equation ∈ graph.equations, (equation.value.written names).count part =
      if equation.value = .ofExpr part then 1 else 0 :=
    fun equation among => distributed.count_value named among
  generalize graph.equations = equations at each
  induction equations with
  | nil => rfl
  | cons head tail ih =>
      rw [List.flatMap_cons, List.count_append, List.countP_cons, each head List.mem_cons_self,
        ih fun equation member => each equation (List.mem_cons_of_mem _ member)]
      simp only [decide_eq_true_eq]
      omega

theorem count_named (named : (names part).isSome) (operations : part.operations ≠ 0) :
    (graph.writtenOut names made).count part = 1 := by
  rw [writtenOut, List.count_append, distributed.count_equations named,
    Expr.count_flatMap_writtenBelow named]
  rcases distributed.known.mp named with member | ⟨_, equation, among, value⟩
  · have none : graph.equations.countP (fun equation => equation.value = .ofExpr part) = 0 :=
      List.countP_eq_zero.mpr fun equation among => by
        simpa using distributed.fresh part member equation among
    rw [none, List.count_eq_one_of_mem distributed.unique member]
  · have absent : part ∉ made := fun member => distributed.fresh part member equation among value
    have least : 0 < graph.equations.countP fun equation => equation.value = .ofExpr part :=
      List.countP_pos_iff.mpr ⟨equation, among, by simpa using value⟩
    have most : graph.equations.countP (fun equation => equation.value = .ofExpr part) ≤ 1 := by
      apply countP_le_one
      refine distributed.apart.imp fun {first second} apart whole => ?_
      rw [decide_eq_true_eq] at whole
      rw [decide_eq_false_iff_not]
      intro again
      apply operations
      have none := apart (whole.trans again.symm)
      rw [whole] at none
      simpa [Tensor.operations, Tensor.ofExpr, total] using none
    rw [List.count_eq_zero.mpr absent]
    omega

theorem tallies (unnamed : names part = none) :
    Expr.Tallies part graph.entries (graph.writtenOut names made) := by
  have values : Expr.Tallies part graph.entries
      (graph.equations.flatMap fun equation => equation.value.written names) :=
    Expr.tallies_flatMap fun equation _ => Tensor.tallies_written unnamed equation.value
  have news : Expr.Tallies part made (made.flatMap (Expr.writtenBelow names)) :=
    Expr.tallies_exprs fun expr _ => Expr.tallies_writtenBelow fun child _ =>
      Expr.tallies_written unnamed child
  have absent : part ∉ made := by
    intro member
    have named := distributed.known.mpr (Or.inl member)
    rw [unnamed] at named
    cases named
  unfold Expr.Tallies at values news ⊢
  rw [writtenOut, List.count_append, List.map_append, List.sum_append, values, news,
    List.count_eq_zero.mpr absent]
  omega

theorem counted_of_written (positive : 0 < graph.settings.minOccurrences)
    (member : part ∈ graph.writtenOut names made) :
    part.isLeaf = true ∨ countOf graph.counts part ≠ 0 := by
  rcases List.mem_append.mp member with old | new
  · obtain ⟨equation, among, written⟩ := List.mem_flatMap.mp old
    obtain ⟨entry, inside, isPart⟩ := Tensor.mem_parts_of_written written
    refine countOf_part ?_ part isPart
    cases leaf : entry.isLeaf with
    | true => exact Or.inl rfl
    | false => exact Or.inr (countOf_of_entry leaf (mem_entries among inside))
  · obtain ⟨expr, among, written⟩ := List.mem_flatMap.mp new
    refine countOf_part (Or.inr ?_) part (Expr.mem_parts_of_writtenBelow
      (fun _ _ => Expr.mem_parts_of_written) written)
    have marked := distributed.marked (distributed.known.mpr (Or.inl among))
    rw [isMarked, Bool.and_eq_true, isRepeated, decide_eq_true_eq] at marked
    omega

theorem count_le_countOf (positive : 0 < graph.settings.minOccurrences)
    (compound : part.isLeaf = false) (unnamed : names part = none)
    (parents : ∀ parent ∈ graph.writtenOut names made, part ∈ parent.children →
      (graph.writtenOut names made).count parent ≤ 1) :
    (graph.writtenOut names made).count part ≤ countOf graph.counts part := by
  obtain ⟨met, counted⟩ := exists_counted_graph graph
  have summands : ((graph.writtenOut names made).map fun parent =>
      parent.children.count part).sum ≤ (met.map fun parent => parent.children.count part).sum := by
    apply sum_map_le
    intro parent member occurs
    have among : part ∈ parent.children := List.count_pos_iff.mp (Nat.pos_of_ne_zero occurs)
    have seen : countOf graph.counts parent ≠ 0 :=
      (distributed.counted_of_written positive member).resolve_left (by
        simp [Expr.compound_of_child among])
    have isMet : parent ∈ met := ((counted.seen parent).mp seen).resolve_left (by simp)
    exact (parents parent member among).trans (List.count_pos_iff.mpr isMet)
  have places := counted.places part compound
  have tallies := distributed.tallies unnamed
  unfold Expr.Tallies at tallies
  rw [countOf_empty] at places
  omega

/-- A part of which no part around it is written out repeatedly is written out less often than would
get it a name. -/
theorem count_lt (atLeast : 2 ≤ graph.settings.minOccurrences) (work : IsWork part)
    (parents : ∀ parent ∈ graph.writtenOut names made, part ∈ parent.children →
      (graph.writtenOut names made).count parent ≤ 1) :
    (graph.writtenOut names made).count part < graph.settings.minOccurrences := by
  cases known : names part with
  | some symbol =>
      rw [distributed.count_named (by rw [known]; rfl) work.2]
      omega
  | none =>
      by_cases written : part ∈ graph.writtenOut names made
      · have bound := distributed.count_le_countOf (by omega) (compound_of_hoistable work.1)
          known parents
        have unmarked : isMarked graph.isRepeated part = false := by
          rw [← Bool.not_eq_true, ← distributed.isSome_iff written, known]
          exact Bool.false_ne_true
        rw [isMarked, work.1, Bool.true_and, isRepeated, decide_eq_false_iff_not] at unmarked
        omega
      · rw [List.count_eq_zero.mpr written]
        omega

theorem count_le_one (two : graph.settings.minOccurrences = 2) (work : IsWork part) :
    (graph.writtenOut names made).count part ≤ 1 := by
  refine Expr.induct_outward (motive := fun part => IsWork part →
    (graph.writtenOut names made).count part ≤ 1) (graph.writtenOut names made) ?_ part work
  intro part parents work
  have few := distributed.count_lt two.ge work fun parent member among =>
    parents parent member among (work.of_child among)
  omega

/-- Sharing does not repeat work: no part is written out more often than there are places for it. -/
theorem count_le_parts (positive : 0 < graph.settings.minOccurrences)
    (operations : part.operations ≠ 0) :
    (graph.writtenOut names made).count part ≤ (graph.entries.flatMap Expr.parts).count part := by
  revert operations
  refine Expr.induct_outward (graph.writtenOut names made) (motive := fun part =>
    part.operations ≠ 0 → (graph.writtenOut names made).count part ≤
      (graph.entries.flatMap Expr.parts).count part) (fun part parents operations => ?_) part
  cases known : names part with
  | some symbol =>
      have named : (names part).isSome := by simp [known]
      have marked := distributed.marked named
      rw [isMarked, Bool.and_eq_true, isRepeated, decide_eq_true_eq] at marked
      have counted : countOf graph.counts part ≠ 0 := by omega
      obtain ⟨entry, among, inside⟩ := mem_parts_of_counted counted
      rw [distributed.count_named named operations]
      exact List.count_pos_iff.mpr (List.mem_flatMap.mpr ⟨entry, among, inside⟩)
  | none =>
      have written := distributed.tallies known
      have places : Expr.Tallies part graph.entries (graph.entries.flatMap Expr.parts) :=
        Expr.tallies_exprs fun entry _ => Expr.tallies_written rfl entry
      unfold Expr.Tallies at written places
      rw [written, places]
      refine Nat.add_le_add_left (sum_map_le fun parent member occurs => ?_) _
      have among : part ∈ parent.children := List.count_pos_iff.mp (Nat.pos_of_ne_zero occurs)
      refine parents parent member among fun none => operations ?_
      exact Nat.eq_zero_of_le_zero (none ▸ Expr.operations_child_le among)

end Distributed

end Graph

end Mechanism
