import Mechanism.Proofs.Expr.Reads
import Mechanism.Proofs.Tensor.Determinant

/-!
Tensors with an entry for every place that read no other atoms than the allowed ones. Products,
Jacobians and inverses bring in no atoms.
-/

namespace Mechanism.Tensor

open Mechanism.Expr

variable {κ : Type} [Scalar κ] {allowed : Atom → Prop}

/-- An entry for every place, and no atoms but the allowed ones. -/
structure ReadsOnly (allowed : Atom → Prop) (tensor : Tensor κ) : Prop where
  length_eq : tensor.entries.length = tensor.shape.size
  entries : ∀ entry ∈ tensor.entries, entry.ReadsOnly allowed

variable {left right tensor result : Tensor κ}

theorem ReadsOnly.mono (reads : tensor.ReadsOnly allowed) {more : Atom → Prop}
    (le : ∀ atom, allowed atom → more atom) : tensor.ReadsOnly more :=
  ⟨reads.length_eq, fun entry member => (reads.entries entry member).mono le⟩

theorem ReadsOnly.atoms (reads : tensor.ReadsOnly allowed) {atom : Atom}
    (member : atom ∈ tensor.atoms) : allowed atom := by
  obtain ⟨entry, among, occurs⟩ := mem_atoms.mp member
  exact reads.entries entry among atom occurs

theorem Regular.readsOnly {limit : Nat} (regular : tensor.Regular limit) :
    tensor.ReadsOnly fun atom => atom.Regular limit ∧ atom ∈ tensor.atoms :=
  ⟨regular.length_eq, fun entry member atom occurs =>
    ⟨regular.entries entry member atom occurs, mem_atoms.mpr ⟨entry, member, occurs⟩⟩⟩

theorem ReadsOnly.regular {limit : Nat} (reads : tensor.ReadsOnly (Atom.Regular limit)) :
    tensor.Regular limit := ⟨reads.length_eq, reads.entries⟩

theorem readsOnly_ofExpr {expr : Expr κ} (reads : expr.ReadsOnly allowed) :
    (ofExpr expr).ReadsOnly allowed := ⟨rfl, List.forall_mem_singleton.mpr reads⟩

theorem readsOnly_ofColumn {exprs : List (Expr κ)} (reads : ∀ expr ∈ exprs, expr.ReadsOnly allowed) :
    (ofColumn exprs).ReadsOnly allowed :=
  ⟨by simp [ofColumn, Shape.column], reads⟩

theorem readsOnly_ofSymbol {symbol : Symbol}
    (reads : ∀ atom : Atom, atom.symbol = symbol → atom.Within → allowed atom) :
    (ofSymbol symbol : Tensor κ).ReadsOnly allowed := by
  refine ⟨length_ofSymbol symbol, fun entry member atom occurs => ?_⟩
  obtain ⟨same, within⟩ := mem_atoms_ofSymbol (mem_atoms.mpr ⟨entry, member, occurs⟩)
  exact reads atom same within

theorem ReadsOnly.negate (reads : tensor.ReadsOnly allowed) : tensor.negate.ReadsOnly allowed :=
  ⟨by simpa [Tensor.negate, Tensor.map] using reads.length_eq,
    List.forall_mem_map.mpr fun entry member => readsOnly_negate (reads.entries entry member)⟩

theorem ReadsOnly.add (first : left.ReadsOnly allowed) (second : right.ReadsOnly allowed)
    (added : left.add right = .ok result) : result.ReadsOnly allowed := by
  unfold Tensor.add zipWith at added
  split at added
  · rename_i same
    cases added
    constructor
    · rw [List.length_zipWith, first.length_eq, second.length_eq, same, Nat.min_self]
    · intro entry member
      obtain ⟨index, bound, rfl⟩ := List.getElem_of_mem member
      rw [List.getElem_zipWith]
      exact readsOnly_plus (first.entries _ (List.getElem_mem _)) (second.entries _ (List.getElem_mem _))
  · cases added

theorem ReadsOnly.matmul (first : left.ReadsOnly allowed) (second : right.ReadsOnly allowed)
    (multiplied : left.matmul right = .ok result) : result.ReadsOnly allowed := by
  refine ⟨?_, forall_matmul readsOnly_zero readsOnly_times readsOnly_sum first.entries
    second.entries multiplied⟩
  unfold Tensor.matmul at multiplied
  split at multiplied
  · cases multiplied
    simpa [scale, Tensor.map] using second.length_eq
  split at multiplied
  · cases multiplied
    simpa [scale, Tensor.map] using first.length_eq
  split at multiplied
  · cases multiplied
  · cases multiplied
    simp [multiply]

theorem ReadsOnly.transpose (reads : tensor.ReadsOnly allowed) :
    tensor.transpose.ReadsOnly allowed := by
  refine ⟨by simp [Tensor.transpose], fun entry member => ?_⟩
  obtain ⟨row, _, inside⟩ := List.mem_flatMap.mp member
  obtain ⟨column, _, rfl⟩ := List.mem_map.mp inside
  simp only [Grid.entry]
  cases found : tensor.grid.table[tensor.grid.shape.flatIndex column row]? with
  | none => exact readsOnly_zero
  | some entry =>
      exact reads.entries entry (List.mem_toArray.mp (Array.mem_of_getElem? found))

theorem readsOnly_matrix {rows columns : Nat} {entries : List (Expr κ)}
    (reads : ∀ entry ∈ entries, entry.ReadsOnly allowed)
    (made : matrix rows columns entries = .ok result) : result.ReadsOnly allowed := by
  unfold matrix at made
  split at made
  · rename_i length
    cases made
    exact ⟨by rw [length, Shape.size_ofDimensions], reads⟩
  · cases made

theorem ReadsOnly.jacobian (reads : tensor.ReadsOnly allowed) {unknowns : List Atom}
    (made : tensor.jacobian unknowns = .ok result) : result.ReadsOnly allowed := by
  refine ⟨?_, forall_jacobian (fun entry member => (reads.entries entry member).derivative) made⟩
  rw [jacobian_eq_ok made]
  simp [List.length_flatMap]

theorem readsOnly_alternately {contribution : Bool → Nat → Option (Expr κ)} {items : List Nat}
    (reads : ∀ positive, ∀ item ∈ items, ∀ term ∈ contribution positive item, term.ReadsOnly allowed)
    (positive : Bool) : ∀ term ∈ alternately contribution positive items, term.ReadsOnly allowed := by
  induction items generalizing positive with
  | nil => nofun
  | cons head tail ih =>
      rw [alternately, List.forall_mem_append]
      refine ⟨fun term member => ?_, ih (fun positive item member =>
        reads positive item (List.mem_cons_of_mem _ member)) _⟩
      exact reads positive head List.mem_cons_self term (Option.mem_toList.mp member)

theorem readsOnly_minor {entryOf : Nat → Nat → Option (Expr κ)}
    (reads : ∀ row column, ∀ entry ∈ entryOf row column, entry.ReadsOnly allowed)
    (rows columns : List Nat) : (minor entryOf rows columns).ReadsOnly allowed := by
  induction rows generalizing columns with
  | nil => exact readsOnly_one
  | cons row rows ih =>
      rw [minor]
      refine readsOnly_sum (readsOnly_alternately (fun positive column _ term member => ?_) true)
      obtain ⟨entry, found, rfl⟩ := Option.mem_map.mp member
      exact readsOnly_product (by simp [readsOnly_number, reads row column entry found, ih])

theorem ReadsOnly.support (reads : tensor.ReadsOnly allowed) (row column : Nat) :
    ∀ entry ∈ tensor.support.entry row column, entry.ReadsOnly allowed := by
  intro entry found
  simp only [Support.entry, Tensor.support, Option.mem_def, Option.join_eq_some_iff,
    List.getElem?_toArray, List.getElem?_map, Option.map_eq_some_iff] at found
  obtain ⟨expr, here, same⟩ := found
  split at same
  · cases same
  · cases same
    exact reads.entries entry (List.mem_of_getElem? here)

theorem ReadsOnly.inverse (reads : tensor.ReadsOnly allowed)
    (inverted : tensor.inverse = .ok result) : result.ReadsOnly allowed := by
  rw [inverse_eq_ok inverted rfl]
  refine ⟨by simp, ?_⟩
  rw [entries_build]
  refine List.forall_mem_map.mpr fun place _ => readsOnly_product ?_
  have minors := readsOnly_minor reads.support
  simp [readsOnly_number, minors, readsOnly_reciprocal]

end Mechanism.Tensor
