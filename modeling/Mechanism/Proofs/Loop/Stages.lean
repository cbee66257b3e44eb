import Mechanism.Proofs.Loop.Attempts

/-!
The stages of a loop over any use of it: it is closed and verified in any order, and in between its
graph is changed in any way. A loop only goes forward, what a stage has stored is never made again,
and a loop that has been registered stays as it is.
-/

namespace Mechanism.Loop

variable {κ : Type} [Scalar κ]

inductive Stage where
  | unresolved
  | geometrySolved
  | linearizedOnce
  | linearizedTwice
  | registered
  deriving DecidableEq, Repr

namespace Stage

def rank : Stage → Nat
  | unresolved => 0
  | geometrySolved => 1
  | linearizedOnce => 2
  | linearizedTwice => 3
  | registered => 4

theorem rank_injective : Function.Injective rank := by
  intro first second same
  cases first <;> cases second <;> first | rfl | cases same

instance : LinearOrder Stage := LinearOrder.lift' rank rank_injective

theorem le_iff {first second : Stage} : first ≤ second ↔ first.rank ≤ second.rank := Iff.rfl

variable {first second stage : Stage}

theorem eq_of_between (reached : first ≤ stage) (short : ¬second ≤ stage)
    (next : second.rank = first.rank + 1) : stage = first := by
  rw [le_iff] at reached short
  exact rank_injective (by omega)

theorem iff_next {stored : Prop} (known : stage ≤ first ↔ stored)
    (next : second.rank = first.rank + 1) (other : stage ≠ second) : stage ≤ second ↔ stored := by
  have apart : stage.rank ≠ second.rank := fun same => other (rank_injective same)
  rw [← known, le_iff, le_iff]
  omega

theorem registered_le_iff : registered ≤ stage ↔ stage = registered := by
  constructor
  · intro reached
    have last : stage.rank ≤ registered.rank := by cases stage <;> decide
    exact rank_injective (last.antisymm reached)
  · rintro rfl
    exact le_rfl

end Stage

/-- A loop with its stage beside what it has stored, each part on its own. -/
structure Record (κ : Type) [Scalar κ] where
  problem : Problem κ
  settings : Settings κ
  stage : Stage
  geometry : Option (Geometry κ)
  jacobians : Option (Jacobians κ)
  drift : Option (Tensor κ)
  artifacts : Option (Artifacts κ)

namespace Record

/-- What is stored is what the stage says. -/
structure Consistent (record : Record κ) : Prop where
  geometry : .geometrySolved ≤ record.stage ↔ record.geometry.isSome
  jacobians : .linearizedOnce ≤ record.stage ↔ record.jacobians.isSome
  drift : .linearizedTwice ≤ record.stage ↔ record.drift.isSome
  artifacts : record.stage = .registered ↔ record.artifacts.isSome

/-- The second record is as far as the first one or farther, and still has what that one has. -/
structure Continues (before after : Record κ) : Prop where
  problem : after.problem = before.problem
  settings : after.settings = before.settings
  stage : before.stage ≤ after.stage
  geometry : ∀ geometry, before.geometry = some geometry → after.geometry = some geometry
  jacobians : ∀ jacobians, before.jacobians = some jacobians → after.jacobians = some jacobians
  drift : ∀ drift, before.drift = some drift → after.drift = some drift
  artifacts : ∀ artifacts, before.artifacts = some artifacts → after.artifacts = some artifacts

namespace Continues

variable {before middle after : Record κ}

theorem refl (record : Record κ) : Continues record record where
  problem := rfl
  settings := rfl
  stage := le_rfl
  geometry := fun _ stored => stored
  jacobians := fun _ stored => stored
  drift := fun _ stored => stored
  artifacts := fun _ stored => stored

theorem trans (first : Continues before middle) (second : Continues middle after) :
    Continues before after where
  problem := second.problem.trans first.problem
  settings := second.settings.trans first.settings
  stage := first.stage.trans second.stage
  geometry := fun _ stored => second.geometry _ (first.geometry _ stored)
  jacobians := fun _ stored => second.jacobians _ (first.jacobians _ stored)
  drift := fun _ stored => second.drift _ (first.drift _ stored)
  artifacts := fun _ stored => second.artifacts _ (first.artifacts _ stored)

end Continues

end Record

structure Method (κ : Type) [Scalar κ] where
  solve : Problem κ → Answer κ (Geometry κ)
  jacobians : Geometry κ → Except AlgebraError (Jacobians κ)
  drift : Geometry κ → Except AlgebraError (Tensor κ)
  insert : Problem κ → Settings κ → Derivation κ → Action κ (Artifacts κ)

namespace Method

def standard : Method κ where
  solve := Problem.solve
  jacobians := Geometry.jacobians
  drift := Geometry.drift
  insert := fun problem settings derivation =>
    (⟨problem, settings, .linearizedTwice derivation⟩ : Descriptor κ).insert derivation

/-- Two methods that may differ only in how they make what a record has stored. -/
structure AgreesBeyond (record : Record κ) (method other : Method κ) : Prop where
  solve : record.geometry = none → method.solve = other.solve
  jacobians : record.jacobians = none → method.jacobians = other.jacobians
  drift : record.drift = none → method.drift = other.drift
  insert : record.artifacts = none → method.insert = other.insert

end Method

namespace Record

/-- What is stored is taken as it is; anything else is made, and stored once it has been made. -/
def reuse {α : Type} (record : Record κ) (stored : Option α) (make : Answer κ α)
    (store : α → Record κ) : Answer κ α × Record κ :=
  match stored with
  | some value => (.ok value, record)
  | none =>
    match make with
    | .ok value => (.ok value, store value)
    | .error error => (.error error, record)

def solveBy (method : Method κ) (record : Record κ) : Answer κ (Geometry κ) × Record κ :=
  record.reuse record.geometry (method.solve record.problem) fun geometry =>
    { record with geometry := some geometry, stage := .geometrySolved }

def linearizeOnceBy (method : Method κ) (record : Record κ) (geometry : Geometry κ) :
    Answer κ (Jacobians κ) × Record κ :=
  record.reuse record.jacobians (ofAlgebra (method.jacobians geometry)) fun jacobians =>
    { record with jacobians := some jacobians, stage := .linearizedOnce }

def linearizeTwiceBy (method : Method κ) (record : Record κ) (geometry : Geometry κ) :
    Answer κ (Tensor κ) × Record κ :=
  record.reuse record.drift (ofAlgebra (method.drift geometry)) fun drift =>
    { record with drift := some drift, stage := .linearizedTwice }

/-- Goes through the stages that need no graph, each with the record that the last one left. -/
def deriveBy (method : Method κ) (record : Record κ) : Answer κ (Derivation κ) × Record κ :=
  match record.solveBy method with
  | (.error error, record) => (.error error, record)
  | (.ok geometry, record) =>
    match record.linearizeOnceBy method geometry with
    | (.error error, record) => (.error error, record)
    | (.ok jacobians, record) =>
      match record.linearizeTwiceBy method geometry with
      | (.error error, record) => (.error error, record)
      | (.ok drift, record) => (.ok ⟨geometry, jacobians, drift⟩, record)

def closeBy (method : Method κ) (record : Record κ) (session : Graph.Session κ) :
    Answer κ (Artifacts κ) × Record κ × Graph.Session κ :=
  match record.artifacts with
  | some artifacts => (.ok artifacts, record, session)
  | none =>
    match record.deriveBy method with
    | (.error error, record) => (.error error, record, session)
    | (.ok derivation, record) =>
      match (method.insert record.problem record.settings derivation).perform session with
      | (.error error, session) => (.error error, record, session)
      | (.ok artifacts, session) =>
        (.ok artifacts, { record with artifacts := some artifacts, stage := .registered }, session)

structure Advances (before after : Record κ) : Prop where
  continues : before.Continues after
  consistent : after.Consistent

variable {record before middle after : Record κ} {method : Method κ}

theorem Advances.refl (consistent : record.Consistent) : Advances record record :=
  ⟨.refl record, consistent⟩

theorem Advances.trans (first : Advances before middle) (second : Advances middle after) :
    Advances before after :=
  ⟨first.continues.trans second.continues, second.consistent⟩

namespace Consistent

variable (consistent : record.Consistent)
include consistent

theorem unresolved (vacant : record.geometry = none) : record.stage = .unresolved :=
  Stage.eq_of_between (Nat.zero_le _)
    (fun solved => nomatch vacant ▸ consistent.geometry.mp solved) rfl

theorem geometrySolved (solved : record.geometry.isSome) (vacant : record.jacobians = none) :
    record.stage = .geometrySolved :=
  Stage.eq_of_between (consistent.geometry.mpr solved)
    (fun linearized => nomatch vacant ▸ consistent.jacobians.mp linearized) rfl

theorem linearizedOnce (linearized : record.jacobians.isSome) (vacant : record.drift = none) :
    record.stage = .linearizedOnce :=
  Stage.eq_of_between (consistent.jacobians.mpr linearized)
    (fun again => nomatch vacant ▸ consistent.drift.mp again) rfl

theorem linearizedTwice (linearized : record.drift.isSome) (vacant : record.artifacts = none) :
    record.stage = .linearizedTwice :=
  Stage.eq_of_between (consistent.drift.mpr linearized)
    (fun last => nomatch vacant ▸ consistent.artifacts.mp (Stage.registered_le_iff.mp last)) rfl

end Consistent

section

variable {α : Type} {stored : Option α} {make : Answer κ α} {store : α → Record κ} {value : α}

theorem advances_reuse (consistent : record.Consistent)
    (stores : stored = none → ∀ value, Advances record (store value)) :
    Advances record (record.reuse stored make store).2 := by
  cases stored with
  | some value => exact .refl consistent
  | none =>
      cases make with
      | error error => exact .refl consistent
      | ok value => exact stores rfl value

theorem reuse_ok (answered : record.reuse stored make store = (.ok value, after)) :
    stored = some value ∧ after = record ∨ after = store value := by
  cases stored with
  | some known =>
      cases answered
      exact .inl ⟨rfl, rfl⟩
  | none =>
      cases make with
      | error error => cases answered
      | ok made =>
          cases answered
          exact .inr rfl

end

variable {geometry : Geometry κ} {jacobians : Jacobians κ} {drift : Tensor κ}

variable (method) in
theorem advances_solveBy (consistent : record.Consistent) :
    Advances record (record.solveBy method).2 := by
  refine advances_reuse consistent fun vacant geometry => ?_
  have stage := consistent.unresolved vacant
  constructor
  · refine { Continues.refl record with stage := ?_, geometry := fun _ stored => ?_ }
    · exact stage ▸ (by decide : Stage.unresolved ≤ .geometrySolved)
    · cases vacant.symm.trans stored
  · obtain ⟨_, jacobians, drift, artifacts⟩ := consistent
    rw [stage] at jacobians drift artifacts
    exact ⟨iff_of_true le_rfl rfl, Stage.iff_next jacobians rfl nofun,
      Stage.iff_next drift rfl nofun, ⟨nofun, fun stored => nomatch artifacts.mpr stored⟩⟩

theorem solveBy_ok (solved : record.solveBy method = (.ok geometry, after)) :
    after.geometry = some geometry := by
  obtain ⟨stored, rfl⟩ | rfl := reuse_ok solved
  · exact stored
  · rfl

variable (method geometry) in
theorem advances_linearizeOnceBy (consistent : record.Consistent)
    (solved : record.geometry.isSome) :
    Advances record (record.linearizeOnceBy method geometry).2 := by
  refine advances_reuse consistent fun vacant jacobians => ?_
  have stage := consistent.geometrySolved solved vacant
  constructor
  · refine { Continues.refl record with stage := ?_, jacobians := fun _ stored => ?_ }
    · exact stage ▸ (by decide : Stage.geometrySolved ≤ .linearizedOnce)
    · cases vacant.symm.trans stored
  · obtain ⟨geometry, _, drift, artifacts⟩ := consistent
    rw [stage] at geometry drift artifacts
    exact ⟨Stage.iff_next geometry rfl nofun, iff_of_true le_rfl rfl,
      Stage.iff_next drift rfl nofun, ⟨nofun, fun stored => nomatch artifacts.mpr stored⟩⟩

theorem linearizeOnceBy_ok
    (linearized : record.linearizeOnceBy method geometry = (.ok jacobians, after)) :
    after.jacobians = some jacobians := by
  obtain ⟨stored, rfl⟩ | rfl := reuse_ok linearized
  · exact stored
  · rfl

variable (method geometry) in
theorem advances_linearizeTwiceBy (consistent : record.Consistent)
    (linearized : record.jacobians.isSome) :
    Advances record (record.linearizeTwiceBy method geometry).2 := by
  refine advances_reuse consistent fun vacant drift => ?_
  have stage := consistent.linearizedOnce linearized vacant
  constructor
  · refine { Continues.refl record with stage := ?_, drift := fun _ stored => ?_ }
    · exact stage ▸ (by decide : Stage.linearizedOnce ≤ .linearizedTwice)
    · cases vacant.symm.trans stored
  · obtain ⟨geometry, jacobians, _, artifacts⟩ := consistent
    rw [stage] at geometry jacobians artifacts
    exact ⟨Stage.iff_next geometry rfl nofun, Stage.iff_next jacobians rfl nofun,
      iff_of_true le_rfl rfl, ⟨nofun, fun stored => nomatch artifacts.mpr stored⟩⟩

theorem linearizeTwiceBy_ok
    (linearized : record.linearizeTwiceBy method geometry = (.ok drift, after)) :
    after.drift = some drift := by
  obtain ⟨stored, rfl⟩ | rfl := reuse_ok linearized
  · exact stored
  · rfl

variable (method) in
theorem advances_deriveBy (consistent : record.Consistent) :
    Advances record (record.deriveBy method).2 := by
  have first := advances_solveBy method consistent
  unfold deriveBy
  rcases solve : record.solveBy method with ⟨_ | geometry, solved⟩ <;> rw [solve] at first
  · exact first
  have stored : solved.geometry.isSome := by rw [solveBy_ok solve, Option.isSome_some]
  have second := first.trans
    (advances_linearizeOnceBy method geometry first.consistent stored)
  rcases linearize : solved.linearizeOnceBy method geometry with ⟨_ | jacobians, linearized⟩ <;>
    rw [linearize] at second <;> simp only [linearize]
  · exact second
  have stored : linearized.jacobians.isSome := by
    rw [linearizeOnceBy_ok linearize, Option.isSome_some]
  have third := second.trans
    (advances_linearizeTwiceBy method geometry second.consistent stored)
  rcases again : linearized.linearizeTwiceBy method geometry with ⟨_ | drift, final⟩ <;>
    rw [again] at third <;> exact third

theorem deriveBy_ok {derivation : Derivation κ}
    (derived : record.deriveBy method = (.ok derivation, after)) :
    after.geometry = some derivation.geometry ∧ after.jacobians = some derivation.jacobians ∧
      after.drift = some derivation.drift ∧ after.artifacts = record.artifacts := by
  unfold deriveBy at derived
  rcases solve : record.solveBy method with ⟨_ | geometry, solved⟩ <;>
    simp only [solve] at derived
  · cases derived
  rcases linearize : solved.linearizeOnceBy method geometry with ⟨_ | jacobians, linearized⟩ <;>
    simp only [linearize] at derived
  · cases derived
  rcases again : linearized.linearizeTwiceBy method geometry with ⟨_ | drift, final⟩ <;>
    simp only [again] at derived <;> cases derived
  have first := solveBy_ok solve
  have second := linearizeOnceBy_ok linearize
  have third := linearizeTwiceBy_ok again
  have same : solved.artifacts = record.artifacts := by
    obtain ⟨_, rfl⟩ | rfl := reuse_ok solve <;> rfl
  obtain ⟨_, rfl⟩ | rfl := reuse_ok linearize <;> obtain ⟨_, rfl⟩ | rfl := reuse_ok again <;>
    exact ⟨first, second, third, same⟩

theorem advances_register (consistent : record.Consistent) (derived : record.drift.isSome)
    (vacant : record.artifacts = none) (artifacts : Artifacts κ) :
    Advances record { record with artifacts := some artifacts, stage := .registered } := by
  have stage := consistent.linearizedTwice derived vacant
  constructor
  · refine { Continues.refl record with stage := ?_, artifacts := fun _ stored => ?_ }
    · exact stage ▸ (by decide : Stage.linearizedTwice ≤ .registered)
    · cases vacant.symm.trans stored
  · obtain ⟨geometry, jacobians, drift, _⟩ := consistent
    rw [stage] at geometry jacobians drift
    exact ⟨Stage.iff_next geometry rfl nofun, Stage.iff_next jacobians rfl nofun,
      Stage.iff_next drift rfl nofun, iff_of_true rfl rfl⟩

variable (method) in
theorem advances_closeBy (consistent : record.Consistent) (session : Graph.Session κ) :
    Advances record (record.closeBy method session).2.1 := by
  unfold closeBy
  cases vacant : record.artifacts with
  | some artifacts => exact .refl consistent
  | none =>
      have derived := advances_deriveBy method consistent
      rcases derive : record.deriveBy method with ⟨_ | derivation, later⟩ <;>
        rw [derive] at derived
      · exact derived
      simp only
      split
      · exact derived
      · obtain ⟨_, _, stored, same⟩ := deriveBy_ok derive
        exact derived.trans
          (advances_register derived.consistent (stored ▸ rfl) (same.trans vacant) _)

theorem closeBy_registered {artifacts : Artifacts κ} (stored : record.artifacts = some artifacts)
    (session : Graph.Session κ) : record.closeBy method session = (.ok artifacts, record, session) := by
  simp only [closeBy, stored]

theorem closeBy_ok {artifacts : Artifacts κ} {session : Graph.Session κ}
    (closed : (record.closeBy method session).1 = .ok artifacts) :
    (record.closeBy method session).2.1.artifacts = some artifacts := by
  unfold closeBy at closed ⊢
  split
  · rename_i known stored
    simp only [stored] at closed
    cases closed
    exact stored
  · rename_i vacant
    simp only [vacant] at closed
    split
    · rename_i derive
      simp only [derive] at closed
      cases closed
    · rename_i derive
      simp only [derive] at closed
      split
      · rename_i insert
        simp only [insert] at closed
        cases closed
      · rename_i insert
        simp only [insert] at closed
        cases closed
        rfl

variable {other : Method κ}

theorem vacant_of_continues {α : Type} {earlier later : Option α}
    (kept : ∀ value, earlier = some value → later = some value) (vacant : later = none) :
    earlier = none := by
  rw [Option.eq_none_iff_forall_ne_some]
  intro value stored
  cases vacant.symm.trans (kept value stored)

theorem Continues.agrees (continues : before.Continues after)
    (agrees : Method.AgreesBeyond before method other) :
    Method.AgreesBeyond after method other where
  solve := fun vacant => agrees.solve (vacant_of_continues continues.geometry vacant)
  jacobians := fun vacant => agrees.jacobians (vacant_of_continues continues.jacobians vacant)
  drift := fun vacant => agrees.drift (vacant_of_continues continues.drift vacant)
  insert := fun vacant => agrees.insert (vacant_of_continues continues.artifacts vacant)

theorem solveBy_agrees (agrees : Method.AgreesBeyond record method other) :
    record.solveBy method = record.solveBy other := by
  unfold solveBy
  cases vacant : record.geometry with
  | some geometry => rfl
  | none => rw [agrees.solve vacant]

theorem linearizeOnceBy_agrees (agrees : Method.AgreesBeyond record method other) :
    record.linearizeOnceBy method geometry = record.linearizeOnceBy other geometry := by
  unfold linearizeOnceBy
  cases vacant : record.jacobians with
  | some jacobians => rfl
  | none => rw [agrees.jacobians vacant]

theorem linearizeTwiceBy_agrees (agrees : Method.AgreesBeyond record method other) :
    record.linearizeTwiceBy method geometry = record.linearizeTwiceBy other geometry := by
  unfold linearizeTwiceBy
  cases vacant : record.drift with
  | some drift => rfl
  | none => rw [agrees.drift vacant]

theorem deriveBy_agrees (consistent : record.Consistent)
    (agrees : Method.AgreesBeyond record method other) :
    record.deriveBy method = record.deriveBy other := by
  have first := advances_solveBy other consistent
  unfold deriveBy
  rw [solveBy_agrees agrees]
  rcases solve : record.solveBy other with ⟨_ | geometry, solved⟩ <;> rw [solve] at first
  have stored : solved.geometry.isSome := by rw [solveBy_ok solve, Option.isSome_some]
  have second := first.trans
    (advances_linearizeOnceBy other geometry first.consistent stored)
  simp only [linearizeOnceBy_agrees (first.continues.agrees agrees)]
  rcases linearize : solved.linearizeOnceBy other geometry with ⟨_ | jacobians, linearized⟩ <;>
    rw [linearize] at second
  simp only [linearizeTwiceBy_agrees (second.continues.agrees agrees)]

theorem closeBy_agrees (consistent : record.Consistent)
    (agrees : Method.AgreesBeyond record method other) (session : Graph.Session κ) :
    record.closeBy method session = record.closeBy other session := by
  unfold closeBy
  cases vacant : record.artifacts with
  | some artifacts => rfl
  | none => rw [deriveBy_agrees consistent agrees, agrees.insert vacant]

end Record

namespace Descriptor

def stage (descriptor : Descriptor κ) : Stage :=
  match descriptor.progress with
  | .unresolved => .unresolved
  | .geometrySolved _ => .geometrySolved
  | .linearizedOnce .. => .linearizedOnce
  | .linearizedTwice _ => .linearizedTwice
  | .registered .. => .registered

def geometry? (descriptor : Descriptor κ) : Option (Geometry κ) :=
  match descriptor.progress with
  | .unresolved => none
  | .geometrySolved geometry => some geometry
  | .linearizedOnce geometry _ => some geometry
  | .linearizedTwice derivation => some derivation.geometry
  | .registered derivation _ => some derivation.geometry

def jacobians? (descriptor : Descriptor κ) : Option (Jacobians κ) :=
  match descriptor.progress with
  | .unresolved => none
  | .geometrySolved _ => none
  | .linearizedOnce _ jacobians => some jacobians
  | .linearizedTwice derivation => some derivation.jacobians
  | .registered derivation _ => some derivation.jacobians

def drift? (descriptor : Descriptor κ) : Option (Tensor κ) :=
  match descriptor.progress with
  | .linearizedTwice derivation => some derivation.drift
  | .registered derivation _ => some derivation.drift
  | _ => none

def record (descriptor : Descriptor κ) : Record κ :=
  ⟨descriptor.problem, descriptor.settings, descriptor.stage, descriptor.geometry?,
    descriptor.jacobians?, descriptor.drift?, descriptor.artifacts?⟩

variable {descriptor : Descriptor κ}

theorem consistent_record (descriptor : Descriptor κ) : descriptor.record.Consistent := by
  obtain ⟨problem, settings, progress⟩ := descriptor
  cases progress <;> constructor <;>
    simp [record, stage, geometry?, jacobians?, drift?, artifacts?, Stage.le_iff, Stage.rank]

theorem registered_of_artifacts {artifacts : Artifacts κ}
    (stored : descriptor.artifacts? = some artifacts) :
    ∃ derivation, descriptor.progress = .registered derivation artifacts := by
  unfold artifacts? at stored
  split at stored
  · rename_i derivation _ stage
    cases stored
    exact ⟨derivation, stage⟩
  · cases stored

theorem close_registered_again {artifacts : Artifacts κ}
    (stored : descriptor.artifacts? = some artifacts)
    (session : Graph.Session κ) : descriptor.close session = ⟨.ok artifacts, descriptor, session⟩ := by
  obtain ⟨derivation, stage⟩ := registered_of_artifacts stored
  simp only [close, stage]

theorem record_linearizeTwice {geometry : Geometry κ} {jacobians : Jacobians κ}
    (stage : descriptor.progress = .linearizedOnce geometry jacobians) :
    descriptor.record.deriveBy .standard =
      ((descriptor.linearizeTwice geometry jacobians).1,
        (descriptor.linearizeTwice geometry jacobians).2.record) := by
  obtain ⟨problem, settings, _⟩ := descriptor
  obtain rfl : _ = Progress.linearizedOnce geometry jacobians := stage
  cases made : geometry.drift <;>
    simp only [Record.deriveBy, Record.solveBy, Record.linearizeOnceBy, Record.linearizeTwiceBy,
      Record.reuse, record, geometry?, jacobians?, drift?, Method.standard, linearizeTwice, made] <;>
    rfl

theorem record_linearizeOnce {geometry : Geometry κ}
    (stage : descriptor.progress = .geometrySolved geometry) :
    descriptor.record.deriveBy .standard =
      ((descriptor.linearizeOnce geometry).1, (descriptor.linearizeOnce geometry).2.record) := by
  obtain ⟨problem, settings, _⟩ := descriptor
  obtain rfl : _ = Progress.geometrySolved geometry := stage
  cases made : geometry.jacobians with
  | error error =>
      simp only [Record.deriveBy, Record.solveBy, Record.linearizeOnceBy, Record.reuse, record,
        geometry?, jacobians?, Method.standard, linearizeOnce, made]
      rfl
  | ok jacobians =>
      simp only [linearizeOnce, made]
      rw [← record_linearizeTwice rfl]
      simp only [Record.deriveBy, Record.solveBy, Record.linearizeOnceBy, Record.reuse, record,
        geometry?, jacobians?, Method.standard, made]
      rfl

theorem record_derive (descriptor : Descriptor κ) :
    descriptor.record.deriveBy .standard = (descriptor.derive.1, descriptor.derive.2.record) := by
  obtain ⟨problem, settings, progress⟩ := descriptor
  cases progress with
  | unresolved =>
      cases made : problem.solve with
      | error error =>
          simp only [Record.deriveBy, Record.solveBy, Record.reuse, record, geometry?,
            Method.standard, derive, made]
      | ok geometry =>
          simp only [derive, made]
          rw [← record_linearizeOnce rfl]
          simp only [Record.deriveBy, Record.solveBy, Record.reuse, record, geometry?,
            Method.standard, made]
          rfl
  | geometrySolved geometry => exact record_linearizeOnce rfl
  | linearizedOnce geometry jacobians => exact record_linearizeTwice rfl
  | linearizedTwice derivation => rfl
  | registered derivation artifacts => rfl

theorem record_close (descriptor : Descriptor κ) (session : Graph.Session κ) :
    descriptor.record.closeBy .standard session =
      ((descriptor.close session).outcome, (descriptor.close session).descriptor.record,
        (descriptor.close session).session) := by
  cases stored : descriptor.artifacts? with
  | some artifacts =>
      rw [Record.closeBy_registered stored, close_registered_again stored]
  | none =>
      have vacant : descriptor.record.artifacts = none := stored
      rw [close_unregistered stored]
      rcases derive : descriptor.derive with ⟨_ | derivation, later⟩ <;>
        have derived := record_derive descriptor <;> rw [derive] at derived
      · simp only [Record.closeBy, vacant, derived]
      obtain ⟨geometry, jacobians, drift, _⟩ := Record.deriveBy_ok derived
      rcases insert : (later.insert derivation).perform session with ⟨_ | artifacts, final⟩ <;>
        have inserted : (Method.standard.insert later.record.problem later.record.settings
          derivation).perform session = _ := insert
      · simp only [Record.closeBy, vacant, derived, insert, inserted]
      · simp only [Record.closeBy, vacant, derived, insert, inserted, geometry, jacobians, drift]
        rfl

end Descriptor

/-- A loop and the graph it is brought into. -/
structure Situation (κ : Type) [Scalar κ] where
  descriptor : Descriptor κ
  session : Graph.Session κ

/-- What is done to a situation. Anything may be done to the graph. -/
inductive Use (κ : Type) [Scalar κ] where
  | close
  | verify
  | change (edit : Graph.Session κ → Graph.Session κ)

namespace Situation

def step (situation : Situation κ) : Use κ → Situation κ
  | .close =>
    let attempt := situation.descriptor.close situation.session
    ⟨attempt.descriptor, attempt.session⟩
  | .verify => ⟨situation.descriptor, (situation.descriptor.verify.perform situation.session).2⟩
  | .change edit => ⟨situation.descriptor, edit situation.session⟩

def run (situation : Situation κ) (uses : List (Use κ)) : Situation κ := uses.foldl step situation

theorem step_continues (situation : Situation κ) (use : Use κ) :
    situation.descriptor.record.Continues (situation.step use).descriptor.record := by
  cases use with
  | close =>
      have advances := Record.advances_closeBy .standard
        situation.descriptor.consistent_record situation.session
      rw [Descriptor.record_close] at advances
      exact advances.continues
  | verify => exact .refl _
  | change edit => exact .refl _

theorem run_continues (situation : Situation κ) (uses : List (Use κ)) :
    situation.descriptor.record.Continues (situation.run uses).descriptor.record := by
  induction uses generalizing situation with
  | nil => exact .refl _
  | cons use rest ih => exact (step_continues situation use).trans (ih (situation.step use))

end Situation

namespace Descriptor

variable {descriptor : Descriptor κ} {artifacts : Artifacts κ}

theorem stored_of_closed {session : Graph.Session κ}
    (closed : (descriptor.close session).outcome = .ok artifacts) :
    (descriptor.close session).descriptor.artifacts? = some artifacts := by
  have answered : (descriptor.record.closeBy .standard session).1 = .ok artifacts := by
    rw [record_close, closed]
  have stored := Record.closeBy_ok answered
  rwa [record_close] at stored

theorem verify_unregistered (early : descriptor.stage ≠ .registered) (session : Graph.Session κ) :
    descriptor.verify.perform session = (.ok (), session) := by
  unfold verify
  split
  · rename_i stage
    exact absurd (by simp only [Descriptor.stage, stage]) early
  · rfl

end Descriptor

/-- The stages of a loop in any use of it. Its stage says what is stored; it does not go back, and
what is stored stays as it is, whatever is done next. How the stored parts would be made does not
matter to an attempt, and a loop that is not registered is verified without a look at the graph.
After an attempt that succeeds, every other one gives the same artifacts and changes nothing. -/
theorem stages_of_uses (start : Situation κ) (past future : List (Use κ)) :
    let now := start.run past
    let later := now.run future
    now.descriptor.record.Consistent ∧
      now.descriptor.record.Continues later.descriptor.record ∧
      (∀ method : Method κ, method.AgreesBeyond now.descriptor.record .standard →
        now.descriptor.record.closeBy method now.session =
          ((now.descriptor.close now.session).outcome,
            (now.descriptor.close now.session).descriptor.record,
            (now.descriptor.close now.session).session)) ∧
      (now.descriptor.stage ≠ .registered →
        now.descriptor.verify.perform now.session = (.ok (), now.session)) ∧
      ∀ artifacts, (now.descriptor.close now.session).outcome = .ok artifacts →
        let again := (now.step .close).run future
        again.descriptor.close again.session = ⟨.ok artifacts, again.descriptor, again.session⟩ := by
  intro now later
  refine ⟨now.descriptor.consistent_record, now.run_continues future, fun method agrees => ?_,
    fun early => Descriptor.verify_unregistered early _, fun artifacts closed => ?_⟩
  · rw [Record.closeBy_agrees now.descriptor.consistent_record agrees, Descriptor.record_close]
  · have stored := Descriptor.stored_of_closed closed
    exact Descriptor.close_registered_again
      (((now.step .close).run_continues future).artifacts _ stored) _

namespace GuardedSquare

noncomputable def unused : Situation RealNumber := ⟨descriptor, session⟩

/-- It is verified at first without a look at the graph, and after it has been closed it stays so,
also over the graph in which its acceleration is an input. -/
theorem unused_closed_again : ∃ artifacts,
    descriptor.verify.perform session = (.ok (), session) ∧
      (descriptor.close session).outcome = .ok artifacts ∧
      let again := (unused.step .close).run [.verify, .change fun _ => taken]
      again.descriptor.close taken = ⟨.ok artifacts, again.descriptor, taken⟩ := by
  obtain ⟨artifacts, closed⟩ := closes
  obtain ⟨_, _, _, verified, again⟩ :=
    stages_of_uses unused [] [.verify, .change fun _ => taken]
  exact ⟨artifacts, verified (by decide), closed, again artifacts closed⟩

end GuardedSquare

end Mechanism.Loop
