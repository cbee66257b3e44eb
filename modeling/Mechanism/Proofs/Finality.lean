import Mathlib.Logic.Function.Iterate
import Mechanism.Proofs.Pythagoras
import Mechanism.Proofs.Expr.Commutation
import Mechanism.Proofs.Expr.Numerals

/-!
What a pass of the basic simplifier leaves to the next one. The loop leaves no two terms that add up,
but the sum of what it leaves is taken once, and merging can bring two such terms together. A result
that is canonical is final exactly if none of its sums holds such a pair; and a pass that finds one
takes out a function, so passes come to an end.
-/

namespace Mechanism.Simplifier

open Mechanism.Expr

variable {κ : Type} [Scalar κ]

def OfSums (property : List (Expr κ) → Prop) (expr : Expr κ) : Prop :=
  ∀ terms, add terms ∈ expr.parts → property terms

/-- No sum has two terms that add up. -/
def PairFree : Expr κ → Prop := OfSums fun terms => ¬ AddsUp terms

def Collected : Expr κ → Prop := OfSums fun terms => collectOnce? terms = none

def Stable (expr : Expr κ) : Prop := ∀ node ∈ expr.parts, node.rebuild node.children = node

theorem collectOnce?_perm {terms others : List (Expr κ)} (perm : terms.Perm others) :
    collectOnce? terms = none ↔ collectOnce? others = none := by
  simp only [collectOnce?_eq_none, perm.mem_iff]

theorem ofSums_iff {property : List (Expr κ) → Prop} {expr : Expr κ} : OfSums property expr ↔
    (∀ terms, expr = add terms → property terms) ∧
      ∀ child ∈ expr.children, OfSums property child := by
  constructor
  · refine fun holds => ⟨?_, fun child member terms inside => holds terms ?_⟩
    · rintro terms rfl
      exact holds terms (parts_eq (add terms) ▸ List.mem_cons_self)
    · rw [parts_eq]
      exact List.mem_cons_of_mem _ (List.mem_flatMap.mpr ⟨child, member, inside⟩)
  · intro ⟨here, below⟩ terms inside
    rw [parts_eq] at inside
    rcases List.mem_cons.mp inside with same | deeper
    · exact here terms same.symm
    · obtain ⟨child, member, among⟩ := List.mem_flatMap.mp deeper
      exact below child member terms among

theorem collected_iff {expr : Expr κ} : Collected expr ↔
    (∀ terms, expr = add terms → collectOnce? terms = none) ∧
      ∀ child ∈ expr.children, Collected child := ofSums_iff

theorem collected_number (value : κ) : Collected (num value) :=
  collected_iff.mpr ⟨nofun, nofun⟩

theorem collected_atom (symbol : Atom) : Collected (atom symbol : Expr κ) :=
  collected_iff.mpr ⟨nofun, nofun⟩

theorem collected_square {function : Elementary} {angle : Expr κ} (collected : Collected angle) :
    Collected (squareOf function angle) :=
  collected_iff.mpr ⟨nofun, List.forall_mem_cons.mpr
    ⟨collected_iff.mpr ⟨nofun, List.forall_mem_singleton.mpr collected⟩,
      List.forall_mem_singleton.mpr (collected_number _)⟩⟩

theorem Stable.child {expr child : Expr κ} (stable : Stable expr)
    (member : child ∈ expr.children) : Stable child := by
  intro node inside
  refine stable node ?_
  rw [parts_eq]
  exact List.mem_cons_of_mem _ (List.mem_flatMap.mpr ⟨child, member, inside⟩)

theorem Stable.rebuild_eq {expr : Expr κ} (stable : Stable expr) :
    expr.rebuild expr.children = expr :=
  stable expr (parts_eq expr ▸ List.mem_cons_self)

theorem canonical_of_mem_parts {expr node : Expr κ} (canonical : expr.Canonical)
    (member : node ∈ expr.parts) : node.Canonical :=
  parts_induction canonical (fun parent among => parent.child among) node member

theorem stable_of_canonical [Neutral κ] {expr : Expr κ} (canonical : expr.Canonical) :
    Stable expr :=
  fun _ member => (canonical_of_mem_parts canonical member).rebuild_eq

theorem pairFree_iff_collected [Squares κ] {expr : Expr κ} (canonical : expr.Canonical) :
    PairFree expr ↔ Collected expr := by
  refine forall_congr' fun terms => forall_congr' fun member => ?_
  have inside := canonical_of_mem_parts canonical member
  show ¬ AddsUp terms ↔ collectOnce? terms = none
  rw [addsUp_iff (merged_of_settled inside.settled) fun term among => inside.child among, not_not]

/-! ### What the loop leaves -/

theorem Collects.nothing_left {terms left : List (Expr κ)} (run : Collects terms left) :
    collectOnce? left = none := by
  induction run with
  | done nothing => exact nothing
  | round _ _ ih => exact ih

theorem collectWith_eq_self {terms : List (Expr κ)} (nothing : collectOnce? terms = none) :
    collectWith terms.length terms = terms :=
  (collects_collectWith terms.length terms le_rfl).unique (.done nothing)

theorem Collects.degenerate [Squares κ] {terms left : List (Expr κ)} (run : Collects terms left)
    {rest angle first second : Expr κ} (pair : Pythagorean rest angle first second)
    (inside : [first, second].Subperm left) : rest.isZero = true ∨ angle.sin ≠ call .sin angle := by
  by_contra both
  push Not at both
  obtain ⟨others, member⟩ := pair.mem_partners (Bool.not_eq_true _ ▸ both.1) both.2
  exact collectOnce?_eq_none.mp run.nothing_left first (inside.subset List.mem_cons_self) _ member
    (inside.subset (by simp))

/-! ### Functions -/

def ownApplications : Expr κ → Nat
  | .call .. | .angle .. | .cond .. => 1
  | _ => 0

/-- Functions, angles and choices, wherever they stand. -/
def applications : Expr κ → Nat :=
  recurse fun node below => ownApplications node + below.sum

theorem applications_eq (expr : Expr κ) :
    applications expr = ownApplications expr + weightIn applications expr.children :=
  recurse_eq _ expr

theorem applications_steady : SteadyWeight (applications (κ := κ)) where
  num _ := applications_eq _
  add _ := (applications_eq _).trans (Nat.zero_add _)
  mul _ := (applications_eq _).trans (Nat.zero_add _)
  pow base exponent := by
    rw [applications_eq]
    simp [ownApplications, children]
  call_mono lighter := by
    rw [applications_eq, applications_eq (call ..)]
    simpa [ownApplications, children] using lighter
  angle_mono first second := by
    rw [applications_eq, applications_eq (angle ..)]
    simp only [ownApplications, children, weightIn_cons]
    omega
  cond_mono first second third fourth := by
    rw [applications_eq, applications_eq (Expr.cond ..)]
    simp only [ownApplications, children, weightIn_cons]
    omega
  branches_le relation left right chosen otherwise := by
    rw [applications_eq (Expr.cond ..)]
    simp only [ownApplications, children, weightIn_cons]
    omega

theorem applications_rebuild_le {expr : Expr κ} {operands : List (Expr κ)}
    (arity : operands.length = expr.children.length) :
    applications (expr.rebuild operands) ≤
      ownApplications expr + weightIn applications operands := by
  have laws := applications_steady (κ := κ)
  cases expr with
  | num value => exact (applications_eq (num value)).trans_le (Nat.le_add_right ..)
  | atom symbol => exact (applications_eq (atom symbol)).trans_le (Nat.le_add_right ..)
  | add => exact (laws.sum_le operands).trans (Nat.le_add_left ..)
  | mul => exact (laws.product_le operands).trans (Nat.le_add_left ..)
  | pow =>
      obtain ⟨base, exponent, rfl⟩ := List.length_eq_two.mp arity
      simpa [rebuild, ownApplications] using laws.power_le base exponent
  | call function =>
      obtain ⟨argument, rfl⟩ := List.length_eq_one_iff.mp arity
      exact (laws.apply_le function argument).trans_eq (applications_eq _)
  | angle =>
      obtain ⟨y, x, rfl⟩ := List.length_eq_two.mp arity
      exact (laws.angleOf_le y x).trans_eq (applications_eq _)
  | cond relation =>
      obtain ⟨left, right, chosen, otherwise, rfl⟩ := length_eq_four arity
      exact (laws.choose_le relation left right chosen otherwise).trans_eq (applications_eq _)

theorem collect_lt {terms : List (Expr κ)} (pair : collectOnce? terms ≠ none) :
    applications (collect (add terms)) < applications (add terms) := by
  have laws := applications_steady (κ := κ)
  have run := collects_collectWith terms.length terms le_rfl
  rw [laws.sum_eq]
  refine (laws.sum_le _).trans_lt ?_
  generalize collectWith terms.length terms = left at run
  cases run with
  | done nothing => exact absurd nothing pair
  | round collected later =>
      obtain ⟨argument, _, _, two, rfl⟩ := collectOnce?_eq_some collected
      have fewer := two.weight_le laws.toWeight
      have least := later.weight_le laws.toWeight
      have sine : 0 < applications (call .sin argument) := by
        rw [applications_eq]
        exact Nat.add_pos_left Nat.one_pos _
      omega

/-! ### Passes -/

theorem Stable.collectIn_eq {expr : Expr κ} (stable : Stable expr)
    (fixed : ∀ child ∈ expr.children, collectIn child = child) : collectIn expr = collect expr := by
  have same : expr.children.map collectIn = expr.children :=
    (List.map_congr_left fixed).trans (List.map_id' _)
  rw [Simplifier.collectIn_eq, same, stable.rebuild_eq]

theorem Collected.collectIn_eq_self {expr : Expr κ} (collected : Collected expr) (stable : Stable expr) :
    collectIn expr = expr := by
  induction expr using induct with
  | step expr ih =>
      obtain ⟨here, below⟩ := collected_iff.mp collected
      rw [stable.collectIn_eq fun child member =>
        ih child member (below child member) (stable.child member)]
      cases expr with
      | add terms =>
          rw [collect, collectWith_eq_self (here terms rfl)]
          exact stable.rebuild_eq
      | _ => rfl

theorem Stable.collectIn_of_collected {expr : Expr κ} (stable : Stable expr)
    (below : ∀ child ∈ expr.children, Collected child) : collectIn expr = collect expr :=
  stable.collectIn_eq fun child member =>
    (below child member).collectIn_eq_self (stable.child member)

theorem collectIn_lt {expr : Expr κ} (stable : Stable expr) (pair : ¬ Collected expr) :
    applications (collectIn expr) < applications expr := by
  have laws := applications_steady (κ := κ)
  induction expr using induct with
  | step expr ih =>
      by_cases below : ∀ child ∈ expr.children, Collected child
      · -- The pair stands in the sum at the root, which the pass finds as it is.
        have root : ∃ terms, expr = add terms ∧ collectOnce? terms ≠ none := by
          by_contra none
          push Not at none
          exact pair (collected_iff.mpr ⟨none, below⟩)
        obtain ⟨terms, rfl, two⟩ := root
        rw [stable.collectIn_of_collected below]
        exact collect_lt two
      · simp only [not_forall] at below
        obtain ⟨child, member, notFree⟩ := below
        rw [collectIn_eq]
        refine (collect_le laws.toWeight _).trans_lt ?_
        refine (applications_rebuild_le (List.length_map _)).trans_lt ?_
        rw [applications_eq expr, weightIn, weightIn, List.map_map]
        refine Nat.add_lt_add_left (List.sum_lt_sum _ _ ?_ ?_) _
        · exact fun child _ => collectIn_le laws child
        · exact ⟨child, member, ih child member (stable.child member) notFree⟩

theorem collectIn_eq_self_iff {expr : Expr κ} (stable : Stable expr) :
    collectIn expr = expr ↔ Collected expr := by
  refine ⟨fun same => ?_, fun collected => collected.collectIn_eq_self stable⟩
  by_contra pair
  have fewer := collectIn_lt stable pair
  rw [same] at fewer
  exact lt_irrefl _ fewer

/-- As long as results come back when they are built again, passes end within as many as there are
functions. -/
theorem exists_final {expr : Expr κ} {bound : Nat} (few : applications expr ≤ bound)
    (stable : ∀ passes, Stable (collectIn^[passes] expr)) :
    ∃ passes ≤ bound, Collected (collectIn^[passes] expr) := by
  induction bound generalizing expr with
  | zero =>
      refine ⟨0, le_rfl, ?_⟩
      by_contra pair
      have fewer := collectIn_lt (stable 0) pair
      exact absurd few (Nat.not_le.mpr (Nat.zero_lt_of_lt fewer))
  | succ bound ih =>
      by_cases free : Collected expr
      · exact ⟨0, Nat.zero_le _, free⟩
      · have fewer := collectIn_lt (stable 0) free
        obtain ⟨passes, within, final⟩ := @ih (collectIn expr)
          (Nat.le_of_lt_succ (fewer.trans_le few)) fun passes => stable (passes + 1)
        exact ⟨passes + 1, Nat.succ_le_succ within, final⟩

/-- At every node that is built again as a sum, the loop leaves no two terms `T * sin(x)^2` and
`T * cos(x)^2`, if `T` is not zero and the sine is no number, and the node becomes the sum of what is
left; so it holds no such pair if that sum is made of just these terms. A canonical result is left as
it is by another pass exactly if none of its sums holds such a pair. If one does, passes that are
repeated come to an end, for each takes out a function; and the last result holds none. -/
theorem basic_finishes [Squares κ] {limit : Nat} {expr result : Expr κ}
    (simplified : basic limit expr = .ok result) :
    (∀ node ∈ expr.parts, ∀ terms, node.rebuild (node.children.map collectIn) = add terms →
      ∃ left, Collects terms left ∧ collectIn node = sum left ∧
        (∀ rest angle first second, Pythagorean rest angle first second →
          [first, second].Subperm left → rest.isZero = true ∨ angle.sin ≠ call .sin angle) ∧
        ∀ sums, collectIn node = add sums → sums.Perm left → (add sums).Canonical →
          ¬ AddsUp sums) ∧
    (result.Canonical → result.operations ≤ limit →
      (basic limit result = .ok result ↔ PairFree result)) ∧
    ((∀ passes, (collectIn^[passes] result).Canonical) →
      ∃ passes ≤ applications result, PairFree (collectIn^[passes] result) ∧
        collectIn (collectIn^[passes] result) = collectIn^[passes] result) := by
  obtain ⟨_, rfl⟩ := basic_eq_ok.mp simplified
  refine ⟨?_, ?_, ?_⟩
  · intro node _ terms rebuilt
    have run := collects_collectWith terms.length terms le_rfl
    refine ⟨_, run, ?_, fun _ _ _ _ pair inside => run.degenerate pair inside, ?_⟩
    · rw [collectIn_eq, rebuilt, collect]
    · intro sums _ perm canonical
      rw [addsUp_iff (merged_of_settled canonical.settled) fun term among => canonical.child among,
        not_not, collectOnce?_perm perm]
      exact run.nothing_left
  · intro canonical within
    rw [basic_eq_ok, collectIn_eq_self_iff (stable_of_canonical canonical),
      pairFree_iff_collected canonical]
    exact and_iff_right within
  · intro canonical
    have stable := fun passes => stable_of_canonical (canonical passes)
    obtain ⟨passes, within, collected⟩ := exists_final le_rfl stable
    exact ⟨passes, within, (pairFree_iff_collected (canonical passes)).mpr collected,
      collected.collectIn_eq_self (stable passes)⟩

/-! ### A pair that comes about by merging -/

theorem constantIn_one {terms : List (Expr RealNumber)} (only : numbersIn terms = [1]) :
    constantIn terms = [num 1] := by
  rw [constantIn, only, List.foldl_cons, List.foldl_nil, Neutral.zero_add _ (unsigned_real 1),
    Neutral.isZero_one, if_neg Bool.false_ne_true, number_of_nonzero Neutral.isZero_one]

namespace Merging

noncomputable def x : Expr RealNumber := atom (.whole ⟨1, "x", .scalar, .real⟩)

noncomputable def squared (function : Elementary) : Expr RealNumber :=
  pow (call function x) (num (Scalar.ofInt 2))

noncomputable def inner : Expr RealNumber := add [num 1, squared .cos]

noncomputable def timesInner (function : Elementary) : Expr RealNumber :=
  mul [squared function, inner]

/-- `sin(x)^2 + cos(x)^2 * (1 + cos(x)^2) + sin(x)^2 * (1 + cos(x)^2)`. -/
noncomputable def expr : Expr RealNumber :=
  add [squared .sin, timesInner .sin, timesInner .cos]

noncomputable def left : Expr RealNumber := add [num 1, squared .cos, squared .sin]

theorem canonical_wave (function : Elementary) : (call function x).Canonical :=
  canonical_call (canonical_leaf trivial rfl) rfl

theorem canonical_squared (function : Elementary) : (squared function).Canonical :=
  canonical_squareOf (canonical_wave function)

theorem canonical_inner : inner.Canonical := by
  refine .node ⟨by simp, ?_, by simp [label, squared], by simp [numbersIn, asNumber?, squared], ?_,
    List.nodup_singleton _⟩ ?_
  · exact List.pairwise_pair.mpr (precedes_weak.asymm (precedes_symbolic 1 rfl))
  · simp [numbersIn, asNumber?, squared, Neutral.isZero_one]
  · exact List.forall_mem_cons.mpr
      ⟨canonical_one, List.forall_mem_singleton.mpr (canonical_squared .cos)⟩

theorem canonical_timesInner (function : Elementary) : (timesInner function).Canonical := by
  have none : numbersIn [squared function, inner] = [] := rfl
  refine .node ⟨by simp, ?_, by simp [label, squared, inner], none ▸ Nat.zero_le 1, ?_, ?_⟩ ?_
  · exact List.pairwise_pair.mpr rfl
  · simp [none]
  · simp [symbolicIn, asNumber?, squared, inner, baseAndExponent]
  · exact List.forall_mem_cons.mpr
      ⟨canonical_squared function, List.forall_mem_singleton.mpr canonical_inner⟩

theorem squared_ne : squared .sin ≠ squared .cos := by simp [squared]

theorem timesInner_ne : timesInner .sin ≠ timesInner .cos := by simp [timesInner, squared]

theorem canonical_expr : expr.Canonical := by
  have none : numbersIn [squared .sin, timesInner .sin, timesInner .cos] = [] := rfl
  refine .node ⟨by simp, ?_, by simp [label, squared, timesInner], none ▸ Nat.zero_le 1, ?_, ?_⟩ ?_
  · have later : precedes (timesInner .cos) (timesInner .sin) = false := by decide +kernel
    exact List.pairwise_cons.mpr ⟨List.forall_mem_cons.mpr ⟨rfl, List.forall_mem_singleton.mpr rfl⟩,
      List.pairwise_pair.mpr later⟩
  · simp [none]
  · simp [symbolicIn, asNumber?, squared, timesInner, splitCoefficient]
  · exact List.forall_mem_cons.mpr ⟨canonical_squared .sin, List.forall_mem_cons.mpr
      ⟨canonical_timesInner .sin, List.forall_mem_singleton.mpr (canonical_timesInner .cos)⟩⟩

theorem sorted_left : Sorted [num 1, squared .cos, squared .sin] := by
  have later : precedes (squared .sin) (squared .cos) = false := by with_unfolding_all decide
  exact List.pairwise_cons.mpr ⟨List.forall_mem_cons.mpr
    ⟨precedes_weak.asymm (precedes_symbolic 1 rfl), List.forall_mem_singleton.mpr
      (precedes_weak.asymm (precedes_symbolic 1 rfl))⟩, List.pairwise_pair.mpr later⟩

theorem canonical_terms : ∀ term ∈ [num 1, squared .cos, squared .sin], term.Canonical :=
  List.forall_mem_cons.mpr ⟨canonical_one, List.forall_mem_cons.mpr
    ⟨canonical_squared .cos, List.forall_mem_singleton.mpr (canonical_squared .sin)⟩⟩

theorem canonical_left : left.Canonical := by
  have one : numbersIn [num 1, squared .cos, squared .sin] = [1] := rfl
  refine .node ⟨by simp, sorted_left, by simp [label, squared], one ▸ le_rfl, ?_, ?_⟩
    canonical_terms
  · simp [one, Neutral.isZero_one]
  · simp [symbolicIn, asNumber?, squared, splitCoefficient]

theorem product_symbolic {factors : List (Expr RealNumber)}
    (canonical : ∀ factor ∈ factors, factor.Canonical)
    (symbolic : ∀ factor ∈ factors, factor.asNumber? = none)
    (flat : ∀ factor ∈ factors, factor.label ≠ .mul)
    (unlike : (factors.map fun factor => factor.baseAndExponent.1).Nodup) :
    product factors = ofFactors 1 factors := by
  rw [product_unlike canonical (by rwa [factorsOf_eq_self flat, symbolicIn_eq_self symbolic]),
    factorsOf_eq_self flat, symbolicIn_eq_self symbolic, numbersIn_eq_nil symbolic, List.foldl_nil]

theorem product_single {factor : Expr RealNumber} (canonical : factor.Canonical)
    (symbolic : factor.asNumber? = none) (flat : factor.label ≠ .mul) :
    product [factor] = factor := by
  have whole := canonical.product_factors symbolic
  rwa [factors_eq_self flat] at whole

theorem product_inner_cos : product [inner, squared .cos] = timesInner .cos := by
  have order : precedes (squared .cos) inner = true := rfl
  have sorted : arrange [inner, squared .cos] = [squared .cos, inner] := by
    simp [arrange, Ordering.sort, Ordering.place, order]
  rw [product_symbolic]
  · simp [ofFactors, sorted, timesInner, Neutral.isZero_one, Neutral.isOne_one]
  · simp [canonical_inner, canonical_squared]
  · simp [inner, squared, asNumber?]
  · simp [inner, squared, label]
  · simp [inner, squared, baseAndExponent]

theorem squaredSine_sine : squaredSine? (squared .sin) = some x := by
  exact squaredSine?_eq_some.mpr ⟨_, (Squares.isTwo_iff _).mpr rfl, rfl⟩

theorem cosine_square : x.cos.square = squared .cos := square_call .cos x

theorem partners_sine : partners (squared .sin) = [([], squared .cos)] := by
  have alone : Simplifier.factorsOf (squared .sin) = [squared .sin] := rfl
  simp [partners, alone, squaredSine_sine, cosine_square,
    product_single (canonical_squared .cos) rfl nofun]

theorem partners_timesInner : partners (timesInner .sin) = [([inner], timesInner .cos)] := by
  have two : Simplifier.factorsOf (timesInner .sin) = [squared .sin, inner] := rfl
  have none : squaredSine? inner = none := rfl
  simp [partners, two, none, squaredSine_sine, cosine_square, product_inner_cos]

theorem timesInner_ne_squared (function other : Elementary) :
    timesInner function ≠ squared other := nofun

/-- The loop finds the two products. It does not see that what they add up to is a sum with
`cos(x)^2` in it. -/
theorem collects_expr : Collects [squared .sin, timesInner .sin, timesInner .cos]
    [squared .sin, inner] := by
  have single := product_single canonical_inner rfl nofun
  have first : collectOnce? [squared .sin, timesInner .sin, timesInner .cos] =
      some [squared .sin, inner] := by
    simp [collectOnce?, partners_sine, partners_timesInner, single, List.findIdx?_cons,
      squared_ne, timesInner_ne, timesInner_ne_squared, (timesInner_ne_squared _ _).symm]
  refine .round first (.done (collectOnce?_eq_none.mpr ?_))
  intro term member pair partner again
  simp only [List.mem_cons, List.not_mem_nil, or_false] at member
  rcases member with rfl | rfl
  · rw [partners_sine, List.mem_singleton] at partner
    simp [partner, squared, inner] at again
  · cases partner

theorem arrange_left : arrange [squared .sin, squared .cos, num 1] =
    [num 1, squared .cos, squared .sin] := by
  have sine : precedes (squared .cos) (squared .sin) = true := by with_unfolding_all decide
  have one (function : Elementary) : precedes (num 1) (squared function) = true :=
    precedes_symbolic 1 rfl
  simp [arrange, Ordering.sort, Ordering.place, sine, one]

theorem sum_left : sum [squared .sin, inner] = left := by
  have canonical : ∀ term ∈ [squared .sin, inner], term.Canonical := by
    simp [canonical_squared, canonical_inner]
  have terms : ∀ term ∈ [squared .sin, num 1, squared .cos], term.Canonical :=
    fun term member => canonical_terms term (by simp at member ⊢; tauto)
  have symbols : symbolicIn [squared .sin, num 1, squared .cos] = [squared .sin, squared .cos] := rfl
  have numbers : constantIn [squared .sin, num 1, squared .cos] = [num 1] := constantIn_one rfl
  calc sum [squared .sin, inner] = sum [squared .sin, num 1, squared .cos] := by
        rw [sum_canonical canonical, sum_canonical terms]
        rfl
    _ = ofTerms [squared .sin, squared .cos, num 1] := by
        have unlike : ([squared .sin, squared .cos].map fun term => term.splitCoefficient.2).Nodup :=
          by simp [splitCoefficient, squared]
        rw [sum_unlike terms (by simp [squared, label]) (symbols ▸ unlike), symbols, numbers]
        rfl
    _ = left := congrArg add arrange_left

theorem operations_expr : expr.operations ≤ defaultLimit := by
  simp [expr, timesInner, inner, squared, x, operations_eq, operationsAt, children,
    total, defaultLimit]

theorem collected_squared (function : Elementary) : Collected (squared function) :=
  collected_square (collected_atom _)

theorem collected_inner : Collected inner := by
  refine collected_iff.mpr ⟨?_, List.forall_mem_cons.mpr
    ⟨collected_number 1, List.forall_mem_singleton.mpr (collected_squared .cos)⟩⟩
  rintro terms ⟨⟩
  rfl

theorem collected_timesInner (function : Elementary) : Collected (timesInner function) :=
  collected_iff.mpr ⟨nofun, List.forall_mem_cons.mpr
    ⟨collected_squared function, List.forall_mem_singleton.mpr collected_inner⟩⟩

theorem collectIn_expr : collectIn expr = left := by
  have free : ∀ child ∈ expr.children, Collected child :=
    List.forall_mem_cons.mpr ⟨collected_squared .sin, List.forall_mem_cons.mpr
      ⟨collected_timesInner .sin, List.forall_mem_singleton.mpr (collected_timesInner .cos)⟩⟩
  have run := collects_collectWith 3 [squared .sin, timesInner .sin, timesInner .cos] le_rfl
  rw [(stable_of_canonical canonical_expr).collectIn_of_collected free, expr, collect, ← sum_left]
  exact congrArg sum (run.unique collects_expr)

theorem collectOnce?_left :
    collectOnce? [num 1, squared .cos, squared .sin] = some [num 1, num 1] := by
  have nothing : product [] = (num 1 : Expr RealNumber) := by
    rw [product_symbolic (List.forall_mem_nil _) (List.forall_mem_nil _) (List.forall_mem_nil _)
      List.nodup_nil, ofFactors, Neutral.isZero_one, if_neg Bool.false_ne_true]
    exact number_of_nonzero Neutral.isZero_one
  have one : partners (num 1 : Expr RealNumber) = [] := rfl
  have cosine : partners (squared .cos) = [] := rfl
  have apart : num 1 ≠ squared .cos := fun same => by cases same
  simp [collectOnce?, one, cosine, partners_sine, List.findIdx?_cons, apart, nothing]

/-- The sum that the first pass comes to holds a pair again, which a second pass adds up. -/
theorem left_unfinished : basic defaultLimit expr = .ok left ∧ left.Canonical ∧ ¬ PairFree left ∧
    basic defaultLimit left ≠ .ok left := by
  have pair : ¬ Collected left := by
    intro collected
    have nothing := (collected_iff.mp collected).1 _ rfl
    rw [collectOnce?_left] at nothing
    cases nothing
  refine ⟨basic_eq_ok.mpr ⟨operations_expr, collectIn_expr⟩, canonical_left, ?_, fun again => ?_⟩
  · rwa [pairFree_iff_collected canonical_left]
  · exact pair ((collectIn_eq_self_iff (stable_of_canonical canonical_left)).mp
      (basic_eq_ok.mp again).2)

theorem sum_ones : sum [num 1, num 1] = number (0 + 1 + 1 : RealNumber) := by
  have canonical : ∀ term ∈ [num (1 : RealNumber), num 1], term.Canonical :=
    List.forall_mem_cons.mpr ⟨canonical_one, List.forall_mem_singleton.mpr canonical_one⟩
  have symbols : symbolicIn [num (1 : RealNumber), num 1] = [] := rfl
  have numbers : numbersIn [num 1, num 1] = [(1 : RealNumber), 1] := rfl
  have nonzero : Scalar.isZero (0 + 1 + 1 : RealNumber) = false :=
    decide_eq_false (show (0 + 1 + 1 : ℝ) ≠ 0 by norm_num)
  rw [sum_unlike canonical (by simp [label]) (symbols ▸ List.nodup_nil), symbols, constantIn,
    numbers, List.foldl_cons, List.foldl_cons, List.foldl_nil, nonzero, if_neg Bool.false_ne_true]
  rfl

theorem collectIn_left : collectIn left = number (0 + 1 + 1) := by
  have free : ∀ child ∈ left.children, Collected child :=
    List.forall_mem_cons.mpr ⟨collected_number 1, List.forall_mem_cons.mpr
      ⟨collected_squared .cos, List.forall_mem_singleton.mpr (collected_squared .sin)⟩⟩
  have ended : Collects [num 1, squared .cos, squared .sin] [num 1, num 1] :=
    .round collectOnce?_left (.done rfl)
  have run := collects_collectWith 3 [num 1, squared .cos, squared .sin] le_rfl
  rw [(stable_of_canonical canonical_left).collectIn_of_collected free, left, collect]
  exact (congrArg sum (run.unique ended)).trans sum_ones

theorem canonical_passes (passes : Nat) : (collectIn^[passes] left).Canonical := by
  have two := canonical_number (0 + 1 + 1 : RealNumber)
  cases passes with
  | zero => exact canonical_left
  | succ passes =>
      rw [Function.iterate_succ_apply, collectIn_left, Function.iterate_fixed]
      · exact two
      · exact (collected_number _).collectIn_eq_self (stable_of_canonical two)

/-- Passes end all the same. -/
theorem basic_finishes_left_over : basic defaultLimit expr = .ok left ∧
    (∀ passes, (collectIn^[passes] left).Canonical) ∧
    ∃ passes ≤ applications left, PairFree (collectIn^[passes] left) ∧
      collectIn (collectIn^[passes] left) = collectIn^[passes] left := by
  have simplified : basic defaultLimit expr = .ok left :=
    basic_eq_ok.mpr ⟨operations_expr, collectIn_expr⟩
  exact ⟨simplified, canonical_passes, (basic_finishes simplified).2.2 canonical_passes⟩

end Merging

/-! ### Pairs with a power of the sine -/

namespace Cubed

open Merging

noncomputable def wave : Expr RealNumber := call .sin x

noncomputable def cube : Expr RealNumber :=
  pow wave (number (0 + 1 + Scalar.ofInt 2))

noncomputable def mixed : Expr RealNumber := mul [squared .cos, wave]

theorem three_proper : Scalar.isZero (0 + 1 + Scalar.ofInt 2 : RealNumber) = false ∧
    Scalar.isOne (0 + 1 + Scalar.ofInt 2 : RealNumber) = false ∧
      Scalar.isEqual (0 + 1 + Scalar.ofInt 2 : RealNumber) (Scalar.ofInt 2) = false :=
  ⟨decide_eq_false (show 0 + 1 + ((2 : ℤ) : ℝ) ≠ 0 by norm_num),
    decide_eq_false (show 0 + 1 + ((2 : ℤ) : ℝ) ≠ 1 by norm_num),
    decide_eq_false (show 0 + 1 + ((2 : ℤ) : ℝ) ≠ (2 : ℤ) by norm_num)⟩

theorem settled_cube : SettledPower wave (number (0 + 1 + Scalar.ofInt 2)) where
  kept := by rintro (passes | passes) <;> cases passes
  notOne := rfl
  exponentZero := by
    rw [number_of_nonzero three_proper.1]
    exact three_proper.1
  exponentOne := by
    rw [number_of_nonzero three_proper.1]
    exact three_proper.2.1
  unfolded := rfl

theorem product_sine : product [wave, x.sin.square] = cube := by
  have square : x.sin.square = squared .sin := square_call .sin x
  have likes : likeBases [wave, squared .sin] = [(wave, [one, num (Scalar.ofInt 2)])] := by
    rw [likeBases, Grouping.ofPairs_eq]
    simp [Grouping.distinct, Grouping.extend, Grouping.valuesOf, baseAndExponent, squared, wave]
  have exponent : sum [one, num (Scalar.ofInt 2)] = number (0 + 1 + Scalar.ofInt 2 : RealNumber) :=
    sum_numbers [1, Scalar.ofInt 2]
  have raised : power wave (number (0 + 1 + Scalar.ofInt 2)) = cube :=
    powerWith_settled _ settled_cube
  have step := Call.result_step (.product [wave, squared .sin])
  have leaves : Expr.factorsOf [wave, squared .sin] = [wave, squared .sin] := rfl
  have symbols : symbolicIn [wave, squared .sin] = [wave, squared .sin] := rfl
  have numbers : numbersIn [wave, squared .sin] = [] := rfl
  simp only [Call.step, leaves, symbols, numbers, likes, List.map_cons, List.map_nil,
    List.foldl_nil, Neutral.isZero_one, Bool.false_eq_true, ↓reduceIte] at step
  have inner : (Call.power wave (Call.sum [one, num (Scalar.ofInt 2)]).result).result = cube := by
    change power wave (sum _) = cube
    rw [exponent, raised]
  rw [inner] at step
  rw [square]
  exact step.trans (ofFactors_single cube)

theorem cosine_first : precedes (squared .cos) wave = true := by with_unfolding_all decide

theorem product_cosine : product [wave, x.cos.square] = mixed := by
  have sorted : arrange [wave, squared .cos] = [squared .cos, wave] := by
    simp [arrange, Ordering.sort, Ordering.place, cosine_first]
  rw [cosine_square, product_symbolic, ofFactors, sorted, Neutral.isZero_one, Neutral.isOne_one]
  · rfl
  · simp [wave, canonical_wave, canonical_squared]
  · simp [wave, squared, asNumber?]
  · simp [wave, squared, label]
  · simp [wave, squared, baseAndExponent]

theorem canonical_cube : cube.Canonical :=
  .node settled_cube (List.forall_mem_cons.mpr
    ⟨canonical_wave .sin, List.forall_mem_singleton.mpr (canonical_number _)⟩)

theorem canonical_mixed : mixed.Canonical := by
  have none : numbersIn [squared .cos, wave] = [] := rfl
  refine .node ⟨by simp, List.pairwise_pair.mpr (precedes_weak.asymm cosine_first), ?_,
    none ▸ Nat.zero_le 1, ?_, ?_⟩ ?_
  · simp [squared, wave, label]
  · simp [none]
  · simp [symbolicIn, asNumber?, squared, wave, baseAndExponent]
  · exact List.forall_mem_cons.mpr
      ⟨canonical_squared .cos, List.forall_mem_singleton.mpr (canonical_wave .sin)⟩

theorem canonical_sum_cube : (add [cube, mixed]).Canonical := by
  have none : numbersIn [cube, mixed] = [] := rfl
  refine .node ⟨by simp, List.pairwise_pair.mpr rfl, ?_, none ▸ Nat.zero_le 1, ?_, ?_⟩ ?_
  · simp [cube, mixed, label]
  · simp [none]
  · simp [symbolicIn, asNumber?, cube, mixed, squared, splitCoefficient]
  · exact List.forall_mem_cons.mpr
      ⟨canonical_cube, List.forall_mem_singleton.mpr canonical_mixed⟩

theorem collectOnce?_cube : collectOnce? [cube, mixed] = none := by
  have three : squaredSine? cube = none := by
    rw [cube, number_of_nonzero three_proper.1]
    exact if_neg (Bool.not_eq_true _ ▸ three_proper.2.2)
  have alone : Simplifier.factorsOf cube = [cube] := rfl
  have first : partners cube = [] := by simp [partners, alone, three]
  have second : partners mixed = [] := rfl
  simp [collectOnce?, first, second]

theorem collected_wave : Collected wave :=
  collected_iff.mpr ⟨nofun, List.forall_mem_singleton.mpr (collected_atom _)⟩

theorem collected_sum_cube : Collected (add [cube, mixed]) := by
  have first : Collected cube := collected_iff.mpr ⟨nofun, List.forall_mem_cons.mpr
    ⟨collected_wave, List.forall_mem_singleton.mpr (collected_number _)⟩⟩
  have second : Collected mixed := collected_iff.mpr ⟨nofun, List.forall_mem_cons.mpr
    ⟨collected_squared .cos, List.forall_mem_singleton.mpr collected_wave⟩⟩
  refine collected_iff.mpr ⟨?_, List.forall_mem_cons.mpr ⟨first, List.forall_mem_singleton.mpr second⟩⟩
  rintro terms ⟨⟩
  exact collectOnce?_cube

theorem cube_kept : basic defaultLimit
    (add [product [wave, x.sin.square], product [wave, x.cos.square]]) =
      .ok (add [product [wave, x.sin.square], product [wave, x.cos.square]]) := by
  rw [product_sine, product_cosine, basic_eq_ok]
  refine ⟨?_, collected_sum_cube.collectIn_eq_self (stable_of_canonical canonical_sum_cube)⟩
  simp [cube, mixed, squared, wave, x, number, operations_eq, operationsAt, children, total,
    defaultLimit]

end Cubed

/-! ### A sum that is left over -/

namespace Nested

open LeftOver

noncomputable def bare : Expr RealNumber := add [num 1, atom x]

noncomputable def squared (function : Elementary) : Expr RealNumber :=
  pow (call function (atom x)) (num (Scalar.ofInt 2))

noncomputable def twice (function : Elementary) : Expr RealNumber :=
  mul [num (Scalar.ofInt 2), squared function, bare]

/-- `y - (1 + x) + 2 * cos(x)^2 * (1 + x) + 2 * sin(x)^2 * (1 + x)`. -/
noncomputable def expr : Expr RealNumber :=
  add [atom y, scaledBy (-1) bare, twice .cos, twice .sin]

theorem cosine_square : (atom x : Expr RealNumber).cos.square = squared .cos :=
  square_call .cos (atom x)

theorem canonical_squared (function : Elementary) : (squared function).Canonical :=
  canonical_squareOf (canonical_call (canonical_atom x) rfl)

theorem squared_first (function : Elementary) : precedes (squared function) bare = true := rfl

theorem canonical_twice (function : Elementary) : (twice function).Canonical := by
  have two : numbersIn [num (Scalar.ofInt 2), squared function, bare] = [Scalar.ofInt 2] := rfl
  refine .node ⟨by simp, ?_, by simp [label, squared, bare], two ▸ le_rfl, ?_, ?_⟩ ?_
  · exact List.pairwise_cons.mpr ⟨List.forall_mem_cons.mpr
      ⟨rfl, List.forall_mem_singleton.mpr rfl⟩, List.pairwise_pair.mpr rfl⟩
  · simp [two, Squares.isZero_two, Squares.isOne_two]
  · simp [symbolicIn, asNumber?, squared, bare, baseAndExponent]
  · exact List.forall_mem_cons.mpr ⟨canonical_leaf (unsigned_of_nonzero Squares.isZero_two) rfl,
      List.forall_mem_cons.mpr ⟨canonical_squared function,
        List.forall_mem_singleton.mpr canonical_inner⟩⟩

theorem minus_one : Scalar.isZero (-1 : RealNumber) = false ∧ Scalar.isOne (-1 : RealNumber) = false :=
  ⟨decide_eq_false (show (-1 : ℝ) ≠ 0 by norm_num), decide_eq_false (show (-1 : ℝ) ≠ 1 by norm_num)⟩

theorem canonical_scaled : (scaledBy (-1) bare).Canonical ∧
    (scaledBy (Scalar.ofInt 2) bare).Canonical :=
  ⟨canonical_scaledBy unscaled_inner minus_one.1 minus_one.2,
    canonical_scaledBy unscaled_inner Squares.isZero_two Squares.isOne_two⟩

theorem canonical_terms :
    ∀ term ∈ [atom y, scaledBy (-1) bare, twice .cos, twice .sin], term.Canonical := by
  simp [canonical_atom, canonical_scaled, canonical_twice]

theorem canonical_expr : expr.Canonical := by
  have none : numbersIn [atom y, scaledBy (-1) bare, twice .cos, twice .sin] = [] := rfl
  have first : precedes (scaledBy (-1) bare) (twice .cos) = true := by decide +kernel
  have second : precedes (scaledBy (-1) bare) (twice .sin) = true := by decide +kernel
  have third : precedes (twice .cos) (twice .sin) = true := by decide +kernel
  refine .node ⟨by simp, ?_, by simp [label, scaledBy, twice], none ▸ Nat.zero_le 1, ?_, ?_⟩
    canonical_terms
  · refine List.pairwise_cons.mpr ⟨List.forall_mem_cons.mpr ⟨rfl, List.forall_mem_cons.mpr
      ⟨rfl, List.forall_mem_singleton.mpr rfl⟩⟩, List.pairwise_cons.mpr
        ⟨List.forall_mem_cons.mpr ⟨precedes_weak.asymm first, List.forall_mem_singleton.mpr
          (precedes_weak.asymm second)⟩, List.pairwise_pair.mpr (precedes_weak.asymm third)⟩⟩
  · simp [none]
  · simp [symbolicIn, asNumber?, scaledBy, twice, splitCoefficient, bare, squared, factors]

theorem product_twice : product [num (Scalar.ofInt 2), bare, squared .cos] = twice .cos := by
  have leaves : Expr.factorsOf [num (Scalar.ofInt 2), bare, squared .cos] =
    [num (Scalar.ofInt 2), bare, squared .cos] := rfl
  have symbols : symbolicIn [num (Scalar.ofInt 2), bare, squared .cos] = [bare, squared .cos] := rfl
  have numbers : numbersIn [num (Scalar.ofInt 2), bare, squared .cos] = [Scalar.ofInt 2] := rfl
  have sorted : arrange [bare, squared .cos] = [squared .cos, bare] := by
    simp [arrange, Ordering.sort, Ordering.place, squared_first]
  rw [product_unlike, leaves, symbols, numbers, foldl_mul_single, ofFactors, sorted,
    Squares.isZero_two, Squares.isOne_two, if_neg Bool.false_ne_true,
    number_of_nonzero Squares.isZero_two]
  · rfl
  · exact List.forall_mem_cons.mpr ⟨canonical_leaf (unsigned_of_nonzero Squares.isZero_two) rfl,
      List.forall_mem_cons.mpr ⟨canonical_inner,
        List.forall_mem_singleton.mpr (canonical_squared .cos)⟩⟩
  · rw [leaves, symbols]
    simp [squared, bare, baseAndExponent]

theorem partners_twice : partners (twice .sin) = [([num (Scalar.ofInt 2), bare], twice .cos)] := by
  have three : Simplifier.factorsOf (twice .sin) = [num (Scalar.ofInt 2), squared .sin, bare] := rfl
  have number : squaredSine? (num (Scalar.ofInt 2) : Expr RealNumber) = none := rfl
  have none : squaredSine? bare = none := rfl
  have sine : squaredSine? (squared .sin) = some (atom x) :=
    squaredSine?_eq_some.mpr ⟨_, (Squares.isTwo_iff _).mpr rfl, rfl⟩
  simp [partners, three, number, none, sine, cosine_square, product_twice]

theorem collects_expr : Collects [atom y, scaledBy (-1) bare, twice .cos, twice .sin]
    [atom y, scaledBy (-1) bare, scaledBy (Scalar.ofInt 2) bare] := by
  have whole : product [num (Scalar.ofInt 2), bare] = scaledBy (Scalar.ofInt 2) bare := by
    have rebuilt : product [number (Scalar.ofInt 2), inner] = _ :=
      product_inner Squares.isZero_two Squares.isOne_two
    rwa [number_of_nonzero Squares.isZero_two, inner_eq] at rebuilt
  have none : partners (atom y : Expr RealNumber) = [] := rfl
  have scaled (value : RealNumber) : partners (scaledBy value bare) = [] := rfl
  have cosine : partners (twice .cos) = [] := rfl
  have apart : atom y ≠ twice .cos ∧ scaledBy (-1) bare ≠ twice .cos := by
    simp [twice, scaledBy, bare, factors]
  refine .round ?_ (.done ?_)
  · simp [collectOnce?, none, scaled, cosine, partners_twice, List.findIdx?_cons, apart, whole]
  · simp [collectOnce?, none, scaled]

theorem outer_terms : outer = add [atom y, bare] := outer_eq

theorem sum_left : sum [atom y, scaledBy (-1) bare, scaledBy (Scalar.ofInt 2) bare] = outer := by
  have written : outer = sum [scaledBy (Scalar.ofInt 2) bare, scaledBy (-1) bare, atom y] := by
    rw [outer, product_inner Squares.isZero_two Squares.isOne_two,
      product_inner minus_one.1 minus_one.2, bare]
  have perm (first second third : Expr RealNumber) :
      [first, second, third].Perm [third, second, first] :=
    (List.reverse_perm [first, second, third]).symm
  rw [written]
  refine (sum_perm (perm _ _ _) ?_).symm
  rw [← written, outer_terms]
  exact told_of_ranks (by simp [children, rank, bare])

theorem collected_bare : Collected bare := by
  refine collected_iff.mpr ⟨?_, List.forall_mem_cons.mpr
    ⟨collected_number 1, List.forall_mem_singleton.mpr (collected_atom x)⟩⟩
  rintro terms ⟨⟩
  rfl

theorem collected_terms :
    ∀ term ∈ [atom y, scaledBy (-1) bare, twice .cos, twice .sin], Collected term := by
  have twice (function : Elementary) : Collected (twice function) :=
    collected_iff.mpr ⟨nofun, List.forall_mem_cons.mpr ⟨collected_number _, List.forall_mem_cons.mpr
      ⟨collected_square (collected_atom x), List.forall_mem_singleton.mpr collected_bare⟩⟩⟩
  exact List.forall_mem_cons.mpr ⟨collected_atom y, List.forall_mem_cons.mpr
    ⟨collected_iff.mpr ⟨nofun, List.forall_mem_cons.mpr
      ⟨collected_number _, List.forall_mem_singleton.mpr collected_bare⟩⟩,
      List.forall_mem_cons.mpr ⟨twice .cos, List.forall_mem_singleton.mpr (twice .sin)⟩⟩⟩

theorem collectIn_expr : collectIn expr = outer := by
  have run := collects_collectWith 4 [atom y, scaledBy (-1) bare, twice .cos, twice .sin] le_rfl
  rw [(stable_of_canonical canonical_expr).collectIn_of_collected collected_terms, expr, collect,
    ← sum_left]
  exact congrArg sum (run.unique collects_expr)

theorem canonical_outer_terms : ∀ term ∈ [atom y, bare], term.Canonical :=
  List.forall_mem_cons.mpr ⟨canonical_atom y, List.forall_mem_singleton.mpr canonical_inner⟩

theorem pairFree_outer : PairFree outer := by
  rw [outer_terms]
  refine ofSums_iff.mpr ⟨?_, List.forall_mem_cons.mpr ⟨?_, List.forall_mem_singleton.mpr ?_⟩⟩
  · rintro terms ⟨⟩
    have merged : Merged [(atom y : Expr RealNumber), bare] := by
      refine ⟨Nat.zero_le 1, ?_, ?_⟩
      · simp [numbersIn, asNumber?, bare]
      · simp [symbolicIn, asNumber?, splitCoefficient, bare]
    rw [addsUp_iff merged canonical_outer_terms, not_not]
    rfl
  · exact (pairFree_iff_collected (canonical_atom y)).mpr (collected_atom y)
  · exact (pairFree_iff_collected canonical_inner).mpr collected_bare

theorem collectIn_outer : collectIn outer ≠ outer := by
  have fixed : collectIn (atom y : Expr RealNumber) = atom y ∧ collectIn bare = bare :=
    ⟨(collected_atom y).collectIn_eq_self (stable_of_canonical (canonical_atom y)),
      collected_bare.collectIn_eq_self (stable_of_canonical canonical_inner)⟩
  have rebuilt : collectIn outer = collect (sum [atom y, bare]) := by
    rw [outer_terms, collectIn_eq]
    simp only [children, List.map_cons, List.map_nil, fixed]
    rfl
  have leaves : addendsOf [atom y, bare] = [atom y, num 1, atom x] := rfl
  have symbols : symbolicIn [(atom y : Expr RealNumber), num 1, atom x] = [atom y, atom x] := rfl
  have unlike : ((symbolicIn (addendsOf [atom y, bare])).map fun leaf =>
      leaf.splitCoefficient.2).Nodup := by
    rw [leaves, symbols]
    simp [splitCoefficient, x, y]
  have inside : ∀ leaf ∈ addendsOf [atom y, bare], leaf.Canonical := fun leaf member =>
    (canonical_addendsOf canonical_outer_terms leaf member).1
  have whole : sum [atom y, bare] = add (arrange [atom y, atom x, num 1]) := by
    rw [sum_canonical canonical_outer_terms, collectedIn_unlike inside unlike, leaves, symbols,
      constantIn_one rfl]
    rfl
  have canonical := canonical_sum canonical_outer_terms
    (merges_of_unlike canonical_outer_terms unlike)
  have nothing : collectOnce? (arrange [atom y, atom x, (num 1 : Expr RealNumber)]) = none :=
    (collectOnce?_perm (arrange_perm _)).mpr rfl
  intro same
  rw [rebuilt, whole, collect, collectWith_eq_self nothing] at same
  rw [whole] at canonical
  have again : sum (arrange [atom y, atom x, num 1]) =
      (add (arrange [atom y, atom x, num 1]) : Expr RealNumber) :=
    canonical.rebuild_eq
  rw [again, outer_terms] at same
  have length := congrArg List.length (add.inj same)
  rw [(arrange_perm _).length_eq] at length
  cases length

theorem outer_comes_apart : basic defaultLimit expr = .ok outer ∧ PairFree outer ∧
    basic defaultLimit outer ≠ .ok outer := by
  refine ⟨basic_eq_ok.mpr ⟨?_, collectIn_expr⟩, pairFree_outer, fun again =>
    collectIn_outer (basic_eq_ok.mp again).2⟩
  simp [expr, twice, scaledBy, bare, factors, squared, operations_eq, operationsAt, children, total,
    defaultLimit]

end Nested

/-- A result of which another pass makes something else, and which holds a pair; a pair that is not
found, since the rest has a power of the sine; and a result without a pair of which another pass makes
something else, since a collected term is a sum. -/
theorem basic_unfinished :
    (basic defaultLimit Merging.expr = .ok Merging.left ∧ Merging.left.Canonical ∧
      ¬ PairFree Merging.left ∧ basic defaultLimit Merging.left ≠ .ok Merging.left) ∧
    basic defaultLimit (add [product [Cubed.wave, Merging.x.sin.square],
      product [Cubed.wave, Merging.x.cos.square]]) =
        .ok (add [product [Cubed.wave, Merging.x.sin.square],
          product [Cubed.wave, Merging.x.cos.square]]) ∧
    basic defaultLimit Nested.expr = .ok LeftOver.outer ∧ PairFree LeftOver.outer ∧
      basic defaultLimit LeftOver.outer ≠ .ok LeftOver.outer :=
  ⟨Merging.left_unfinished, Cubed.cube_kept, Nested.outer_comes_apart⟩

end Mechanism.Simplifier
