import Mechanism.Model.Dynamics
import Mechanism.Proofs.Model.Session

/-!
Reduced equations of motion. The row of a coordinate is made up from the rows of the coordinates
that drive its loop, and reads only what relates the rates of the loops.
-/

namespace Mechanism.Model

open Mechanism.Expr

variable {κ : Type} [Scalar κ] {model : Model κ} {independent : List Coordinate}

namespace ClosureRow

def combine (start : ClosureRow κ) (ratios : List (Expr κ)) (drivers : List (ClosureRow κ)) :
    ClosureRow κ :=
  (ratios.zip drivers).foldl (fun row entry => row.addMultiple entry.1 entry.2) start

/-- A row that reads no other atoms than the allowed ones. -/
structure ReadsOnly (allowed : Atom → Prop) (row : ClosureRow κ) : Prop where
  coefficients : ∀ coefficient ∈ row.coefficients, coefficient.ReadsOnly allowed
  offset : row.offset.ReadsOnly allowed

variable {allowed : Atom → Prop} {row driver : ClosureRow κ}

theorem readsOnly_unit (count place : Nat) : (unit count place : ClosureRow κ).ReadsOnly allowed := by
  refine ⟨fun coefficient member => ?_, readsOnly_zero⟩
  rcases List.mem_or_eq_of_mem_set member with among | rfl
  · obtain ⟨_, rfl⟩ := List.mem_replicate.mp among
    exact readsOnly_zero
  · exact readsOnly_one

theorem readsOnly_start {offset : Expr κ} (count : Nat) (reads : offset.ReadsOnly allowed) :
    (start count offset).ReadsOnly allowed := by
  refine ⟨fun coefficient member => ?_, reads⟩
  obtain ⟨_, rfl⟩ := List.mem_replicate.mp member
  exact readsOnly_zero

theorem ReadsOnly.addMultiple {ratio : Expr κ} (reads : row.ReadsOnly allowed)
    (ratioReads : ratio.ReadsOnly allowed) (driverReads : driver.ReadsOnly allowed) :
    (row.addMultiple ratio driver).ReadsOnly allowed := by
  refine ⟨fun coefficient member => ?_,
    readsOnly_plus reads.offset (readsOnly_times ratioReads driverReads.offset)⟩
  obtain ⟨index, bound, rfl⟩ := List.getElem_of_mem member
  simp only [ClosureRow.addMultiple, List.getElem_zipWith]
  exact readsOnly_plus (reads.coefficients _ (List.getElem_mem _))
    (readsOnly_times ratioReads (driverReads.coefficients _ (List.getElem_mem _)))

theorem ReadsOnly.combine {ratios : List (Expr κ)} {drivers : List (ClosureRow κ)}
    (reads : row.ReadsOnly allowed) (ratiosRead : ∀ ratio ∈ ratios, ratio.ReadsOnly allowed)
    (driversRead : ∀ driver ∈ drivers, driver.ReadsOnly allowed) :
    (row.combine ratios drivers).ReadsOnly allowed := by
  induction ratios generalizing row drivers with
  | nil => exact reads
  | cons ratio ratios ih =>
      cases drivers with
      | nil => exact reads
      | cons driver drivers =>
          rw [List.forall_mem_cons] at ratiosRead driversRead
          exact ih (reads.addMultiple ratiosRead.1 driversRead.1) ratiosRead.2 driversRead.2

end ClosureRow

/-- How the row of a coordinate that a loop determines is made up. -/
structure Follows (model : Model κ) (independent : List Coordinate) (fuel : Nat)
    (artifacts : Loop.Artifacts κ) (place : Nat) (row : ClosureRow κ) : Prop where
  made : ∃ offset ratios drivers,
    artifacts.bPrime.entryAt place = .ok offset ∧
      List.Forall₂ (fun index ratio => artifacts.bvu.entry place index = .ok ratio)
        (List.range artifacts.independent.length) ratios ∧
      List.Forall₂ (fun driver row => model.closureRow independent fuel driver = .ok row)
        artifacts.independent drivers ∧
      row = (ClosureRow.start independent.length offset).combine ratios drivers

theorem mapError_eq_ok {ε ε' α : Type} {result : Except ε α} {change : ε → ε'} {value : α} :
    result.mapError change = .ok value ↔ result = .ok value := by
  cases result <;> simp [Except.mapError]

theorem foldlM_drivers {fuel place : Nat} {artifacts : Loop.Artifacts κ} {start row : ClosureRow κ}
    {drivers : List Coordinate} {first : Nat}
    (made : (drivers.zipIdx first).foldlM (fun row (driver, index) => do
      let ratio ← (artifacts.bvu.entry place index).mapError ModelError.algebra
      return row.addMultiple ratio (← model.closureRow independent fuel driver)) start = .ok row) :
    ∃ ratios rows, List.Forall₂ (fun index ratio => artifacts.bvu.entry place index = .ok ratio)
        (List.range' first drivers.length) ratios ∧
      List.Forall₂ (fun driver row => model.closureRow independent fuel driver = .ok row)
        drivers rows ∧ row = start.combine ratios rows := by
  induction drivers generalizing first start with
  | nil =>
      cases made
      exact ⟨[], [], .nil, .nil, rfl⟩
  | cons head tail ih =>
      rw [List.zipIdx_cons, List.foldlM_cons] at made
      simp only [bind_eq_ok, mapError_eq_ok] at made
      obtain ⟨_, ⟨ratio, found, driver, composed, same⟩, rest⟩ := made
      cases same
      obtain ⟨ratios, rows, entries, drivers, rfl⟩ := ih rest
      exact ⟨ratio :: ratios, driver :: rows, .cons found entries, .cons composed drivers, rfl⟩

theorem closureRow_eq_ok {fuel : Nat} {coordinate : Coordinate} {row : ClosureRow κ}
    (made : model.closureRow independent fuel coordinate = .ok row) :
    (model.closedBy.find? coordinate.name = none ∧ ∃ place,
      (independent.findIdx? fun other => other.position = coordinate.position) = some place ∧
        row = .unit independent.length place) ∨
    ∃ loop artifacts place less, model.closedBy.find? coordinate.name = some loop ∧
      model.artifacts? loop = some artifacts ∧
      (artifacts.dependent.findIdx? fun other => other = coordinate) = some place ∧
      fuel = less + 1 ∧ model.Follows independent less artifacts place row := by
  unfold closureRow at made
  split at made
  · rename_i free
    split at made
    · rename_i place found
      cases made
      exact .inl ⟨free, place, found, rfl⟩
    · cases made
  · rename_i loop closed
    split at made
    · rename_i less artifacts known
      split at made
      · cases made
      · rename_i place found
        simp only [bind_eq_ok, mapError_eq_ok] at made
        obtain ⟨offset, at_, rest⟩ := made
        obtain ⟨ratios, drivers, entries, rows, rfl⟩ := foldlM_drivers rest
        rw [← List.range_eq_range'] at entries
        exact .inr ⟨loop, artifacts, place, less, closed, known, found, rfl, offset, ratios,
          drivers, at_, entries, rows, rfl⟩
    · cases made

/-- The atoms of the symbols by which the loops of the model relate rates. -/
def RelatesRates (model : Model κ) (atom : Atom) : Prop :=
  atom.Within ∧ ∃ loop artifacts, model.artifacts? loop = some artifacts ∧
    (atom.symbol = artifacts.bvu ∨ atom.symbol = artifacts.bPrime)

theorem readsOnly_entry {allowed : Atom → Prop} {symbol : Symbol} {row column : Nat}
    {expr : Expr κ} (found : symbol.entry row column = .ok expr)
    (reads : ∀ atom : Atom, atom.symbol = symbol → atom.Within → allowed atom) :
    expr.ReadsOnly allowed := by
  unfold Symbol.entry at found
  split at found
  · rename_i inside
    cases found
    refine readsOnly_atom.mpr (reads _ (Symbol.symbol_atomAt ..) ?_)
    rw [Atom.Within, Symbol.flatIndex_atomAt inside, Symbol.symbol_atomAt]
    obtain ⟨rows, columns⟩ := Shape.contains_iff.mp inside
    exact Tensor.flatIndex_lt ⟨row, rows⟩ ⟨column, columns⟩
  · cases found

theorem forall_mem_of_forall₂ {α β : Type} {relation : α → β → Prop} {property : β → Prop}
    {left : List α} {right : List β} (related : List.Forall₂ relation left right)
    (each : ∀ first second, relation first second → property second) :
    ∀ second ∈ right, property second := by
  induction related with
  | nil => exact nofun
  | cons head _ ih => exact List.forall_mem_cons.mpr ⟨each _ _ head, ih⟩

theorem closureRow_reads {fuel : Nat} {coordinate : Coordinate} {row : ClosureRow κ}
    (made : model.closureRow independent fuel coordinate = .ok row) :
    row.ReadsOnly model.RelatesRates := by
  induction fuel generalizing coordinate row with
  | zero =>
      rcases closureRow_eq_ok made with ⟨_, _, _, rfl⟩ | ⟨_, _, _, _, _, _, _, none, _⟩
      · exact ClosureRow.readsOnly_unit ..
      · cases none
  | succ fuel ih =>
      rcases closureRow_eq_ok made with
        ⟨_, _, _, rfl⟩ | ⟨loop, artifacts, place, less, _, known, _, same, follows⟩
      · exact ClosureRow.readsOnly_unit ..
      · obtain rfl : fuel = less := Nat.succ.inj same
        obtain ⟨offset, ratios, drivers, at_, entries, rows, rfl⟩ := follows
        refine (ClosureRow.readsOnly_start _ (readsOnly_entry at_ fun atom same within => ?_)).combine
          (forall_mem_of_forall₂ entries fun index ratio found => ?_)
          (forall_mem_of_forall₂ rows fun driver row made => ih made)
        · exact ⟨within, loop, artifacts, known, .inr same⟩
        · exact readsOnly_entry found fun atom same within =>
            ⟨within, loop, artifacts, known, .inl same⟩

/-- Equations of motion that read issued symbols only. -/
structure Motion.Regular (limit : Nat) (motion : Motion κ) : Prop where
  mass : motion.mass.Regular limit
  bias : motion.bias.Regular limit
  forces : motion.forces.Regular limit

theorem accelerationMap_eq_ok {coordinates : List Coordinate} {jacobian offset : Tensor κ}
    (made : model.accelerationMap coordinates independent = .ok (jacobian, offset)) :
    ∃ rows, List.Forall₂ (fun coordinate row =>
        model.closureRow independent (model.closedBy.size + 1) coordinate = .ok row)
          coordinates rows ∧
      Tensor.matrix rows.length independent.length (rows.flatMap ClosureRow.coefficients) =
        .ok jacobian ∧
      Tensor.matrix rows.length 1 (rows.map ClosureRow.offset) = .ok offset := by
  simp only [accelerationMap, bind_eq_ok, mapError_eq_ok] at made
  obtain ⟨rows, composed, _, first, _, second, same⟩ := made
  cases same
  exact ⟨rows, Simplifier.mapM_eq_ok composed, first, second⟩

theorem reducedMotion_eq_ok {coordinates : List Coordinate} {motion reduced : Motion κ}
    (made : model.reducedMotion coordinates motion = .ok (independent, reduced)) :
    motion.fault? coordinates.length = none ∧ model.checkListed [] coordinates = .ok () ∧
      independent = coordinates.filter (fun coordinate => !model.isClosed coordinate) ∧
        ∃ jacobian offset, model.accelerationMap coordinates independent = .ok (jacobian, offset) ∧
          motion.reduce jacobian offset = .ok reduced := by
  unfold reducedMotion at made
  cases done : model.dynamics.isSome with
  | true =>
      simp only [done, if_true] at made
      cases made
  | false =>
  cases fits : motion.fault? coordinates.length with
  | some fault =>
      simp only [done, Bool.false_eq_true, if_false, fits] at made
      cases made
  | none =>
      simp only [done, Bool.false_eq_true, if_false, fits, bind_eq_ok,
        mapError_eq_ok] at made
      obtain ⟨_, listed, ⟨jacobian, offset⟩, composed, _, multiplied, same⟩ := made
      cases same
      exact ⟨rfl, listed, rfl, jacobian, offset, composed, multiplied⟩

theorem Motion.Regular.reduce {limit : Nat} {motion reduced : Motion κ} {jacobian offset : Tensor κ}
    (regular : motion.Regular limit) (jacobianReads : jacobian.ReadsOnly (Atom.Regular limit))
    (offsetReads : offset.ReadsOnly (Atom.Regular limit))
    (made : motion.reduce jacobian offset = .ok reduced) : reduced.Regular limit := by
  simp only [Motion.reduce, bind_eq_ok] at made
  obtain ⟨moved, first, mass, second, shifted, third, sum, added, bias, fourth, forces, fifth, same⟩ :=
    made
  cases same
  have massReads : motion.mass.ReadsOnly (Atom.Regular limit) := ⟨regular.mass.1, regular.mass.2⟩
  have biasReads : motion.bias.ReadsOnly (Atom.Regular limit) := ⟨regular.bias.1, regular.bias.2⟩
  have forcesRead : motion.forces.ReadsOnly (Atom.Regular limit) :=
    ⟨regular.forces.1, regular.forces.2⟩
  have transposed := jacobianReads.transpose
  exact {
    mass := (transposed.matmul (massReads.matmul jacobianReads first) second).regular
    bias := (transposed.matmul ((massReads.matmul offsetReads third).add biasReads added)
      fourth).regular
    forces := (transposed.matmul forcesRead fifth).regular }

variable {session : Session κ} {simplifier : Simplifier κ}

theorem Fit.relatesRates (fit : Fit simplifier session) {atom : Atom}
    (relates : session.model.RelatesRates atom) : atom.Regular session.supply.next := by
  obtain ⟨within, loop, artifacts, known, either⟩ := relates
  simp only [artifacts?, Option.bind_eq_bind, Option.bind_eq_some_iff] at known
  obtain ⟨descriptor, found, same⟩ := known
  obtain ⟨_, _, derivation, stored, registered, _, issued⟩ := fit.loops found
  rw [Loop.Descriptor.artifacts?, registered, Option.some.injEq] at same
  subst same
  refine ⟨within, ?_⟩
  rcases either with same | same <;> rw [same]
  · exact issued.1
  · exact issued.2

theorem Fit.reducedMotion (fit : Fit simplifier session) {coordinates : List Coordinate}
    {motion reduced : Motion κ} (regular : motion.Regular session.supply.next)
    (made : session.model.reducedMotion coordinates motion = .ok (independent, reduced)) :
    reduced.Regular session.supply.next := by
  obtain ⟨_, _, _, jacobian, offset, composed, reducedMade⟩ := reducedMotion_eq_ok made
  obtain ⟨rows, made, first, second⟩ := accelerationMap_eq_ok composed
  have reads := forall_mem_of_forall₂ made fun _ row made => closureRow_reads made
  refine regular.reduce (Tensor.readsOnly_matrix ?_ first) (Tensor.readsOnly_matrix ?_ second)
    reducedMade
  · intro entry member
    obtain ⟨row, among, inside⟩ := List.mem_flatMap.mp member
    exact ((reads row among).coefficients entry inside).mono fun _ => fit.relatesRates
  · intro entry member
    obtain ⟨row, among, rfl⟩ := List.mem_map.mp member
    exact (reads row among).offset.mono fun _ => fit.relatesRates

end Mechanism.Model
