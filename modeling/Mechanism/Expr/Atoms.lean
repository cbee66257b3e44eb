import Mechanism.Expr.Equality
import Mechanism.Grouping

/-!
The atoms and symbols that expressions read.

`occurrences` lists every occurrence. `atoms` lists each atom once, and passes over the parts that
it has met before: they are kept under the addresses of their nodes, together with the fact that
all they read is listed already. `atoms_eq` says that nothing is lost by that.
-/

namespace Mechanism.Expr

variable {κ : Type} [Scalar κ]

mutual
def occurrences : Expr κ → List Atom
  | num _ => []
  | atom symbol => [symbol]
  | add terms => occurrencesIn terms
  | mul operands => occurrencesIn operands
  | pow base exponent => occurrences base ++ occurrences exponent
  | call _ argument => occurrences argument
  | angle y x => occurrences y ++ occurrences x
  | cond _ left right chosen otherwise =>
    occurrences left ++ occurrences right ++ occurrences chosen ++ occurrences otherwise
def occurrencesIn : List (Expr κ) → List Atom
  | [] => []
  | head :: tail => occurrences head ++ occurrencesIn tail
end

theorem occurrencesIn_eq (exprs : List (Expr κ)) :
    occurrencesIn exprs = exprs.flatMap occurrences := by
  induction exprs with
  | nil => rfl
  | cons head tail ih => simp [occurrencesIn, ih]

theorem occurrences_eq (expr : Expr κ) (compound : expr.asAtom? = none) :
    expr.occurrences = expr.children.flatMap occurrences := by
  cases expr <;> simp_all [asAtom?, occurrences, occurrencesIn_eq, children]

/-- Parts by the addresses of their nodes, all of whose atoms are among the given ones. -/
structure Met (κ : Type) [Scalar κ] (listed : List Atom) where
  table : Std.HashMap USize (Expr κ)
  covered : ∀ (address : USize) (expr : Expr κ), table[address]? = some expr →
    ∀ atom ∈ expr.occurrences, atom ∈ listed

namespace Met

def empty (listed : List Atom) : Met κ listed := ⟨∅, by simp⟩

def widen {listed more : List Atom} (met : Met κ listed) (subset : ∀ atom ∈ listed, atom ∈ more) :
    Met κ more :=
  ⟨met.table, fun address expr found atom member =>
    subset atom (met.covered address expr found atom member)⟩

def insert {listed : List Atom} (met : Met κ listed) (address : USize) (expr : Expr κ)
    (covered : ∀ atom ∈ expr.occurrences, atom ∈ listed) : Met κ listed :=
  ⟨met.table.insert address expr, fun other part found => by
    rw [Std.HashMap.getElem?_insert] at found
    split at found
    · cases found; exact covered
    · exact met.covered other part found⟩

end Met

/-- A list of atoms extended by those of a part, and the parts met by then. -/
structure Reached (κ : Type) [Scalar κ] (listed reads : List Atom) where
  atoms : List Atom
  atoms_eq : atoms = Grouping.extend listed reads
  met : Squash (Met κ atoms)

instance {listed reads : List Atom} : Subsingleton (Reached κ listed reads) where
  allEq := fun ⟨_, left, _⟩ ⟨_, right, _⟩ => by
    subst left right
    congr
    exact Subsingleton.elim _ _

namespace Reached

variable {listed : List Atom}

def nothing {reads : List Atom} (met : Squash (Met κ listed))
    (covered : ∀ atom ∈ reads, atom ∈ listed) : Reached κ listed reads :=
  ⟨listed, (Grouping.extend_eq_self covered).symm, met⟩

def ofReads (reads : List Atom) (met : Squash (Met κ listed)) : Reached κ listed reads :=
  ⟨Grouping.extend listed reads, rfl,
    met.lift fun met => Squash.mk (met.widen fun _ member => Grouping.mem_extend.2 (.inl member))⟩

def keep {expr : Expr κ} (address : USize) (reached : Reached κ listed expr.occurrences) :
    Reached κ listed expr.occurrences :=
  ⟨reached.atoms, reached.atoms_eq, reached.met.lift fun met =>
    Squash.mk (met.insert address expr fun _ member =>
      reached.atoms_eq ▸ Grouping.mem_extend.2 (.inr member))⟩

def all : (exprs : List (Expr κ)) → {listed : List Atom} → Squash (Met κ listed) →
    ((expr : Expr κ) → expr ∈ exprs → (listed : List Atom) → Squash (Met κ listed) →
      Reached κ listed expr.occurrences) →
    Reached κ listed (exprs.flatMap occurrences)
  | [], _, met, _ => nothing met (by simp)
  | head :: tail, listed, met, visit =>
    let first := visit head List.mem_cons_self listed met
    let rest := all tail first.met fun expr member => visit expr (List.mem_cons_of_mem _ member)
    ⟨rest.atoms, by
      rw [rest.atoms_eq, first.atoms_eq, List.flatMap_cons, Grouping.extend_append], rest.met⟩

end Reached

def reach (expr : Expr κ) {listed : List Atom} (met : Squash (Met κ listed)) :
    Reached κ listed expr.occurrences :=
  if leaf : expr.isLeaf then .ofReads expr.occurrences met
  else
    withPtrAddr expr (fun address =>
      met.lift fun met =>
        if known : met.table[address]? = some expr then
          .nothing (Squash.mk met) (met.covered address expr known)
        else
          have reads : expr.occurrences = expr.children.flatMap occurrences :=
            occurrences_eq expr (by cases expr <;> simp_all [asAtom?, isLeaf])
          .keep address (reads ▸
            Reached.all expr.children (Squash.mk met) fun child _ _ met => reach child met))
      (fun _ _ => Subsingleton.elim _ _)
termination_by sizeOf expr
decreasing_by all_goals exact sizeOf_lt_of_mem_children ‹_›

def atoms (expr : Expr κ) : List Atom := (reach expr (Squash.mk (Met.empty []))).atoms

theorem atoms_eq (expr : Expr κ) : expr.atoms = Grouping.distinct expr.occurrences :=
  (reach expr (Squash.mk (Met.empty []))).atoms_eq

theorem mem_atoms {expr : Expr κ} {atom : Atom} : atom ∈ expr.atoms ↔ atom ∈ expr.occurrences := by
  rw [atoms_eq, Grouping.mem_distinct]

def symbols (expr : Expr κ) : List Symbol := Grouping.distinct (expr.atoms.map Atom.symbol)

noncomputable def sizes (exprs : List (Expr κ)) : Nat :=
  exprs.foldr (fun expr total => sizeOf expr + total) 0

theorem sizes_cons (head : Expr κ) (tail : List (Expr κ)) :
    sizes (head :: tail) = sizeOf head + sizes tail := rfl

theorem sizes_append (left right : List (Expr κ)) :
    sizes (left ++ right) = sizes left + sizes right := by
  induction left with
  | nil => exact (Nat.zero_add _).symm
  | cons head tail ih => rw [List.cons_append, sizes_cons, sizes_cons, ih, Nat.add_assoc]

theorem sizes_reverse (exprs : List (Expr κ)) : sizes exprs.reverse = sizes exprs := by
  induction exprs with
  | nil => rfl
  | cons head tail ih =>
      rw [List.reverse_cons, sizes_append, ih, sizes_cons, Nat.add_comm]
      rfl

theorem sizes_lt_sizeOf (exprs : List (Expr κ)) : sizes exprs < sizeOf exprs := by
  induction exprs with
  | nil => simp [sizes]
  | cons head tail ih =>
      rw [sizes_cons, List.cons.sizeOf_spec]
      omega

theorem sizes_children_lt (expr : Expr κ) : sizes expr.children < sizeOf expr := by
  cases expr with
  | add terms =>
      have within := sizes_lt_sizeOf terms
      rw [add.sizeOf_spec]
      simp only [children]
      omega
  | mul factors =>
      have within := sizes_lt_sizeOf factors
      rw [mul.sizeOf_spec]
      simp only [children]
      omega
  | num value => simp [children, sizes]
  | _ => simp [children, sizes] <;> omega

/-- Whether an atom occurs in one of several expressions, the operands of one being looked through
before the next. -/
def searchFor (wanted : Atom) : List (Expr κ) → Bool
  | [] => false
  | expr :: later =>
    if expr.asAtom? = some wanted then true
    else searchFor wanted (expr.children.reverse ++ later)
termination_by exprs => sizes exprs
decreasing_by
  have := expr.sizes_children_lt
  rw [sizes_append, sizes_reverse, sizes_cons]
  omega

theorem searchFor_iff {wanted : Atom} {exprs : List (Expr κ)} :
    searchFor wanted exprs = true ↔ ∃ expr ∈ exprs, wanted ∈ expr.occurrences := by
  induction exprs using searchFor.induct wanted with
  | case1 => simp [searchFor]
  | case2 expr later same =>
    have occurs : wanted ∈ expr.occurrences := by
      cases expr <;> simp_all [asAtom?, occurrences]
    simp [searchFor, same, occurs]
  | case3 expr later other ih =>
    have below : (∃ child ∈ expr.children, wanted ∈ child.occurrences) ↔
        wanted ∈ expr.occurrences := by
      cases compound : expr.asAtom? with
      | none => rw [occurrences_eq expr compound, List.mem_flatMap]
      | some symbol =>
        cases expr <;> cases compound
        have apart : wanted ≠ symbol := fun same => other (congrArg some same.symm)
        simp [occurrences, children, apart]
    rw [searchFor, if_neg other, ih]
    simp [or_and_right, exists_or, below]

def reads (expr : Expr κ) (wanted : Atom) : Bool := searchFor wanted [expr]

theorem reads_iff {expr : Expr κ} {wanted : Atom} :
    expr.reads wanted = true ↔ wanted ∈ expr.atoms := by
  rw [reads, searchFor_iff, mem_atoms]
  simp

end Mechanism.Expr
