import Mechanism.Proofs.Expr.Weights

/-!
Which atoms an expression reads, counted with repetition. The canonical constructors neither
invent an occurrence nor repeat one, and substitution reads what the replacements read.
-/

namespace Mechanism

theorem total_eq (counts : List Nat) : total counts = counts.sum := by
  induction counts with
  | nil => rfl
  | cons head tail ih => rw [total, ih, List.sum_cons]

namespace Expr

variable {κ : Type} [Scalar κ]

def uses (wanted : Atom → Bool) (expr : Expr κ) : Nat := expr.occurrences.countP wanted

variable (wanted : Atom → Bool)

def usesIn (exprs : List (Expr κ)) : Nat := (exprs.map (uses wanted)).sum

@[simp] theorem usesIn_nil : usesIn wanted ([] : List (Expr κ)) = 0 := rfl

@[simp] theorem usesIn_cons (head : Expr κ) (tail : List (Expr κ)) :
    usesIn wanted (head :: tail) = uses wanted head + usesIn wanted tail := by
  simp [usesIn]

@[simp] theorem usesIn_append (left right : List (Expr κ)) :
    usesIn wanted (left ++ right) = usesIn wanted left + usesIn wanted right := by
  simp [usesIn]

@[simp] theorem uses_num (value : κ) : uses wanted (num value) = 0 := rfl

@[simp] theorem uses_number (value : κ) : uses wanted (number value) = 0 := rfl

@[simp] theorem uses_one : uses wanted (one : Expr κ) = 0 := rfl

@[simp] theorem uses_zero : uses wanted (zero : Expr κ) = 0 := rfl

@[simp] theorem uses_atom (symbol : Atom) :
    uses wanted (atom symbol : Expr κ) = if wanted symbol then 1 else 0 := by
  simp [uses, occurrences, List.countP_cons]

theorem countP_occurrencesIn (exprs : List (Expr κ)) :
    (occurrencesIn exprs).countP wanted = usesIn wanted exprs := by
  induction exprs with
  | nil => rfl
  | cons head tail ih => simp [occurrencesIn, ih, uses]

@[simp] theorem uses_add (terms : List (Expr κ)) : uses wanted (add terms) = usesIn wanted terms := by
  rw [uses, occurrences, countP_occurrencesIn]

@[simp] theorem uses_mul (operands : List (Expr κ)) :
    uses wanted (mul operands) = usesIn wanted operands := by
  rw [uses, occurrences, countP_occurrencesIn]

@[simp] theorem uses_pow (base exponent : Expr κ) :
    uses wanted (pow base exponent) = uses wanted base + uses wanted exponent := by
  simp [uses, occurrences]

theorem asAtom?_eq_some {expr : Expr κ} {symbol : Atom} :
    expr.asAtom? = some symbol ↔ expr = atom symbol := by
  cases expr <;> simp [asAtom?]

theorem uses_compound (expr : Expr κ) (compound : expr.asAtom? = none) :
    uses wanted expr = usesIn wanted expr.children := by
  rw [uses, occurrences_eq expr compound, ← occurrencesIn_eq, countP_occurrencesIn]

theorem uses_weight : Weight (uses (κ := κ) wanted) where
  num := uses_num wanted
  add := uses_add wanted
  mul := uses_mul wanted
  pow := uses_pow wanted

/-- One round of the canonical constructors reads no more than their operands. -/
structure Sparing (fuel : Nat) : Prop where
  sum : ∀ terms : List (Expr κ), uses wanted (sumWith fuel terms) ≤ usesIn wanted terms
  product : ∀ operands : List (Expr κ),
    uses wanted (productWith fuel operands) ≤ usesIn wanted operands
  power : ∀ base exponent : Expr κ,
    uses wanted (powerWith fuel base exponent) ≤ uses wanted base + uses wanted exponent

theorem sparing (fuel : Nat) : Sparing (κ := κ) wanted fuel :=
  let bounds := (uses_weight wanted).bounds fuel
  ⟨bounds.sum, bounds.product, bounds.power⟩

theorem uses_sum_le (terms : List (Expr κ)) : uses wanted (sum terms) ≤ usesIn wanted terms :=
  (sparing wanted _).sum terms

theorem uses_product_le (operands : List (Expr κ)) :
    uses wanted (product operands) ≤ usesIn wanted operands :=
  (sparing wanted _).product operands

theorem uses_power_le (base exponent : Expr κ) :
    uses wanted (power base exponent) ≤ uses wanted base + uses wanted exponent :=
  (sparing wanted _).power base exponent

theorem uses_apply_le (function : Elementary) (argument : Expr κ) :
    uses wanted (apply function argument) ≤ uses wanted argument := by
  unfold apply
  simp only
  split
  · simp
  · rw [uses_compound wanted (call function argument) rfl]
    simp [children]

theorem uses_angleOf_le (y x : Expr κ) :
    uses wanted (angleOf y x) ≤ uses wanted y + uses wanted x := by
  unfold angleOf
  split
  · simp
  · rw [uses_compound wanted (angle y x) rfl]
    simp [children]

theorem uses_choose_le (relation : Relation) (left right chosen otherwise : Expr κ) :
    uses wanted (choose relation left right chosen otherwise) ≤
      usesIn wanted [left, right, chosen, otherwise] := by
  unfold choose
  split
  · split <;> simp
  · split
    · simp only [usesIn_cons]
      omega
    · rw [uses_compound wanted (cond relation left right chosen otherwise) rfl]
      simp [children]

theorem uses_rebuild_le {expr : Expr κ} (compound : expr.isLeaf = false)
    {operands : List (Expr κ)} (arity : operands.length = expr.children.length) :
    uses wanted (expr.rebuild operands) ≤ usesIn wanted operands := by
  cases expr with
  | num => simp [isLeaf] at compound
  | atom => simp [isLeaf] at compound
  | add => exact uses_sum_le wanted operands
  | mul => exact uses_product_le wanted operands
  | pow =>
      obtain ⟨base, exponent, rfl⟩ := List.length_eq_two.mp arity
      simpa [rebuild] using uses_power_le wanted base exponent
  | call function =>
      obtain ⟨argument, rfl⟩ := List.length_eq_one_iff.mp arity
      simpa [rebuild] using uses_apply_le wanted function argument
  | angle =>
      obtain ⟨y, x, rfl⟩ := List.length_eq_two.mp arity
      simpa [rebuild] using uses_angleOf_le wanted y x
  | cond relation =>
      obtain ⟨left, right, chosen, otherwise, rfl⟩ := length_eq_four arity
      exact uses_choose_le wanted relation left right chosen otherwise

theorem rebuild_leaf {expr : Expr κ} (leaf : expr.isLeaf = true) (operands : List (Expr κ)) :
    expr.rebuild operands = expr := by
  cases expr <;> simp_all [isLeaf, rebuild]

def replacementOf (replacement : Atom → Option (Expr κ)) (symbol : Atom) : Expr κ :=
  (replacement symbol).getD (atom symbol)

theorem substitute_atom (replacement : Atom → Option (Expr κ)) (symbol : Atom) :
    (atom symbol).substitute replacement = replacementOf replacement symbol := by
  rw [substitute_eq]
  rfl

theorem substitute_compound (replacement : Atom → Option (Expr κ)) {expr : Expr κ}
    (compound : expr.asAtom? = none) :
    expr.substitute replacement =
      expr.rebuild (expr.children.map (substitute replacement)) := by
  rw [substitute_eq]
  cases expr <;> simp_all [replace, asAtom?]

theorem uses_substitute_le (replacement : Atom → Option (Expr κ)) (expr : Expr κ) :
    uses wanted (expr.substitute replacement) ≤
      usesIn wanted (expr.occurrences.map (replacementOf replacement)) := by
  induction expr using induct with
  | step expr ih =>
      cases found : expr.asAtom? with
      | some symbol =>
          have shape : expr = atom symbol := by
            cases expr <;> simp_all [asAtom?]
          subst shape
          rw [substitute_atom]
          simp [occurrences]
      | none =>
          rw [substitute_compound replacement found]
          by_cases leaf : expr.isLeaf = true
          · rw [rebuild_leaf leaf, uses_compound wanted expr found]
            cases expr <;> simp_all [isLeaf, asAtom?, children]
          · refine (uses_rebuild_le wanted (by simpa using leaf) (by simp)).trans ?_
            rw [occurrences_eq expr found, List.map_flatMap, usesIn, usesIn, Grouping.sum_map_flatMap,
              List.map_map]
            apply List.sum_le_sum
            intro child member
            exact ih child member

theorem substitute_congr {first second : Atom → Option (Expr κ)} (expr : Expr κ)
    (agree : ∀ symbol ∈ expr.occurrences, first symbol = second symbol) :
    expr.substitute first = expr.substitute second := by
  induction expr using induct with
  | step expr ih =>
      cases found : expr.asAtom? with
      | some symbol =>
          obtain rfl := asAtom?_eq_some.mp found
          rw [substitute_atom, substitute_atom, replacementOf, replacementOf,
            agree symbol (by simp [occurrences])]
      | none =>
          rw [substitute_compound first found, substitute_compound second found]
          congr 1
          apply List.map_congr_left
          intro child member
          apply ih child member
          intro symbol reads
          apply agree
          rw [occurrences_eq expr found]
          exact List.mem_flatMap.mpr ⟨child, member, reads⟩

theorem occurrences_of_child {expr child : Expr κ} (member : child ∈ expr.children) {symbol : Atom}
    (occurs : symbol ∈ child.occurrences) : symbol ∈ expr.occurrences := by
  have compound : expr.asAtom? = none := by
    cases expr <;> simp_all [asAtom?, children]
  rw [occurrences_eq expr compound]
  exact List.mem_flatMap.mpr ⟨child, member, occurs⟩

theorem uses_pos {expr : Expr κ} :
    0 < uses wanted expr ↔ ∃ symbol ∈ expr.occurrences, wanted symbol := by
  rw [uses, List.countP_pos_iff]

theorem usesIn_pos {exprs : List (Expr κ)} :
    0 < usesIn wanted exprs ↔ ∃ expr ∈ exprs, 0 < uses wanted expr := by
  induction exprs with
  | nil => simp
  | cons head tail ih =>
      simp only [usesIn_cons, List.mem_cons, exists_eq_or_imp, ← ih]
      omega

theorem mem_occurrences_of_uses_le {expr : Expr κ} {operands : List (Expr κ)} {symbol : Atom}
    (bound : ∀ wanted, uses wanted expr ≤ usesIn wanted operands)
    (member : symbol ∈ expr.occurrences) : ∃ operand ∈ operands, symbol ∈ operand.occurrences := by
  have used : 0 < uses (· == symbol) expr := (uses_pos _).mpr ⟨symbol, member, by simp⟩
  obtain ⟨operand, among, positive⟩ := (usesIn_pos _).mp (used.trans_le (bound _))
  obtain ⟨other, reads, same⟩ := (uses_pos _).mp positive
  exact ⟨operand, among, by rwa [← eq_of_beq same]⟩

theorem mem_occurrences_rebuild {expr : Expr κ} (compound : expr.isLeaf = false)
    {operands : List (Expr κ)} (arity : operands.length = expr.children.length) {symbol : Atom}
    (member : symbol ∈ (expr.rebuild operands).occurrences) :
    ∃ operand ∈ operands, symbol ∈ operand.occurrences :=
  mem_occurrences_of_uses_le (fun wanted => uses_rebuild_le wanted compound arity) member

theorem mem_occurrences_substitute {replacement : Atom → Option (Expr κ)} {expr : Expr κ}
    {symbol : Atom} (member : symbol ∈ (expr.substitute replacement).occurrences) :
    ∃ replaced ∈ expr.occurrences,
      symbol ∈ (replacementOf replacement replaced).occurrences := by
  obtain ⟨operand, among, reads⟩ :=
    mem_occurrences_of_uses_le (fun wanted => uses_substitute_le wanted replacement expr) member
  obtain ⟨replaced, occurs, rfl⟩ := List.mem_map.mp among
  exact ⟨replaced, occurs, reads⟩

end Expr

end Mechanism
