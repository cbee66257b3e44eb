import Mechanism.Proofs.Loop.Regularity
import Mechanism.Proofs.Model.Refusals

/-!
Values at regular configurations. Once all loops have been checked they are not checked again at the
same bindings, so the note of the check has to stand for what it found: it does, unless a symbol
that a check reads gets numbers without a new binding.
-/

open Relation (ReflTransGen)

namespace Mechanism.Model

open Mechanism.Model.Action

variable {κ α : Type} [Scalar κ] {simplifier : Simplifier κ}
  {session before middle after : Session κ}

/-! ### Sessions with the same loops -/

/-- No loop has been closed in between, and no check of the loops has been noted. -/
structure KeepsLoops (before after : Session κ) : Prop where
  settings : after.model.settings = before.model.settings
  loops : after.model.loops = before.model.loops
  checked : after.model.checkedRevision = before.model.checkedRevision

theorem KeepsLoops.refl (session : Session κ) : KeepsLoops session session := ⟨rfl, rfl, rfl⟩

theorem KeepsLoops.trans (left : KeepsLoops before middle) (right : KeepsLoops middle after) :
    KeepsLoops before after :=
  ⟨right.settings.trans left.settings, right.loops.trans left.loops,
    right.checked.trans left.checked⟩

theorem Declares.keepsLoops {symbols : List Symbol} (declares : Declares symbols before after) :
    KeepsLoops before after where
  settings := by rw [declares.model]
  loops := by rw [declares.model]
  checked := by rw [declares.model]

theorem Step.keepsLoops (step : Step before after) (tame : simplifier.Tame)
    (fit : Fit simplifier before) : KeepsLoops before after := by
  cases step with
  | work | input | coordinate | joint | hold | build | project => exact ⟨rfl, rfl, rfl⟩
  | declare known =>
      exact (declareCoordinate_declares (fun symbol member => (fit.symbols known symbol member).2)
        tame fit).keepsLoops

theorem Steps.keepsLoops (steps : Steps before after) (tame : simplifier.Tame)
    (fit : Fit simplifier before) : KeepsLoops before after := by
  induction steps with
  | refl => exact .refl before
  | tail earlier last ih => exact ih.trans (last.keepsLoops tame (Steps.fit earlier tame fit))

theorem Steps.later (steps : Steps before after) (tame : simplifier.Tame)
    (fit : Fit simplifier before) : Graph.Later (graphSession before) (graphSession after) :=
  (Steps.advances steps tame fit).later tame fit.graph

/-! ### Sessions in which nothing is defined -/

/-- Nothing has been defined in between, no loop closed, and no check noted. -/
structure Idles (before after : Session κ) : Prop where
  rests : Graph.Rests (graphSession before) (graphSession after)
  later : Graph.Later (graphSession before) (graphSession after)
  loops : KeepsLoops before after

theorem Idles.refl (session : Session κ) : Idles session session :=
  ⟨.refl _, .refl _, .refl session⟩

theorem Idles.trans (left : Idles before middle) (right : Idles middle after) :
    Idles before after :=
  ⟨left.rests.trans right.rests, left.later.trans right.later, left.loops.trans right.loops⟩

theorem idles_give {command : Graph.Command κ} (quiet : command.Quiet)
    (admissible : command.Admissible session.supply) (tame : simplifier.Tame)
    (fit : Fit simplifier session) : Idles session (session.give command) :=
  ⟨quiet.rests _, (fit.graph.fit tame).later tame.toModest command admissible.issued, ⟨rfl, rfl, rfl⟩⟩

theorem idles_of_evaluates {work : Graph.Session κ}
    (evaluates : ReflTransGen Graph.Evaluates (graphSession session) work) :
    Idles session (session.withGraph work) :=
  ⟨Graph.rests_of_evaluates evaluates, Graph.later_of_evaluates evaluates, ⟨rfl, rfl, rfl⟩⟩

theorem Prepares.idles (prepares : Prepares before after) (tame : simplifier.Tame)
    (fit : Fit simplifier before) : Idles before after := by
  obtain ⟨_, declares⟩ := prepares.declares
  refine ⟨Graph.Leads.rests (declares.leads.mono ?_), prepares.graph_later tame fit,
    declares.keepsLoops⟩
  rintro _ _ ⟨_, _, _, _, rfl⟩
  trivial

theorem idles_input (session : Session κ) (name : String) (shape : Shape)
    (categories : CategorySet) (initial : Option (Tensor κ)) (tame : simplifier.Tame)
    (fit : Fit simplifier session) :
    Idles session ((session.give (.issue name shape .real)).give
      (.declareInput (session.supply.fresh name shape).1 categories initial)) := by
  have issue : (Graph.Command.issue name shape .real : Graph.Command κ).Quiet := trivial
  have issued := idles_give issue trivial tame fit
  have issuedFit := fit.advance tame (advances_give session (.issue name shape .real) trivial)
    ⟨rfl, rfl, rfl, rfl, rfl⟩
  have declare : (Graph.Command.declareInput (session.supply.fresh name shape).1 categories
    initial).Quiet := trivial
  exact issued.trans (idles_give declare (Nat.lt_succ_self _) tame issuedFit)

theorem idles_addCoordinate (session : Session κ) (name : String) :
    Idles session ((addCoordinate name).perform session).2 := by
  unfold addCoordinate
  rw [perform_bind, perform_get]
  simp only
  split
  · exact .refl session
  · exact ⟨⟨rfl, rfl, rfl⟩, .of_keeps rfl (.refl _), ⟨rfl, rfl, rfl⟩⟩

theorem idles_addJoint (session : Session κ) (joint : Joint κ) :
    Idles session ((addJoint joint).perform session).2 := by
  unfold addJoint
  rw [perform_bind, perform_getModel]
  simp only
  split
  · exact .refl session
  · split
    · exact .refl session
    · cases session.model.chain.add joint with
      | error error => exact .refl session
      | ok made => exact ⟨.refl _, .refl _, ⟨rfl, rfl, rfl⟩⟩

theorem idles_changeValue (session : Session κ) (symbol : Symbol) (value : Tensor κ)
    (tame : simplifier.Tame) (fit : Fit simplifier session) :
    Idles session ((changeValue symbol value).perform session).2 := by
  unfold changeValue
  rw [perform_bind, perform_getModel]
  simp only
  split
  · split
    · exact .refl session
    · exact ⟨.refl _, .refl _, ⟨rfl, rfl, rfl⟩⟩
  · have bind : (Graph.Command.bind symbol value).Quiet := trivial
    rw [onGraph_later]
    exact idles_give bind trivial tame fit

theorem idles_build (plain : session.model.graph.settings.optimize = false)
    (tame : simplifier.Tame) (fit : Fit simplifier session) :
    Idles session (build.perform session).2 := by
  obtain ⟨prepares, _⟩ := prepares_declareCoordinates tame fit
  obtain ⟨_, declares⟩ := prepares.declares
  have idles := prepares.idles tame fit
  have middleFit := prepares.fit tame fit
  have settings : (declareCoordinates.perform session).2.model.graph.settings =
      session.model.graph.settings := Graph.Leads.settings declares.leads tame fit.graph
  rw [build_eq, perform_bind]
  generalize declareCoordinates.perform session = declared at idles middleFit settings
  obtain ⟨error | done, middle⟩ := declared
  · exact idles
  simp only
  cases built : middle.model.graph.built with
  | true =>
      rw [assemble_built built]
      exact idles
  | false =>
      have fit := middleFit.graph.fit tame
      have rests := Graph.rests_build (show (graphSession middle).graph.settings.optimize = false by
        rw [← plain, ← settings]; rfl) tame fit
      have later := fit.later tame.toModest .build trivial
      rw [Graph.Command.apply, Graph.Command.action, Graph.perform_ignore] at later
      refine idles.trans ?_
      rw [perform_assemble built]
      generalize Graph.build.perform (graphSession middle) = outcome at rests later
      obtain ⟨_ | _, work⟩ := outcome <;> exact ⟨rests, later, ⟨rfl, rfl, rfl⟩⟩

/-! ### Checked loops -/

/-- Every registered loop is regular, unless it lacks numbers. -/
def AllRegular (session : Session κ) : Prop :=
  ∀ entry ∈ session.model.loops.entries, ∀ derivation artifacts,
    entry.2.progress = .registered derivation artifacts →
      derivation.RegularIn session.model.settings.loops.tolerance (graphSession session)

/-- No check has been noted with a revision that is still to come. -/
def Dated (session : Session κ) : Prop :=
  ∀ revision, session.model.checkedRevision = some revision →
    revision ≤ session.model.graph.store.revision

/-- If all loops have been checked at the present bindings, they are regular. -/
structure Watched (session : Session κ) : Prop where
  dated : Dated session
  regular : session.model.checkedRevision = some session.model.graph.store.revision →
    AllRegular session

theorem Dated.keep (dated : Dated before)
    (checked : after.model.checkedRevision = before.model.checkedRevision)
    (later : Graph.Later (graphSession before) (graphSession after)) : Dated after :=
  fun revision known => (dated revision (checked ▸ known)).trans later.revision

theorem Dated.same_revision (dated : Dated before)
    (checked : after.model.checkedRevision = before.model.checkedRevision)
    (later : Graph.Later (graphSession before) (graphSession after))
    (known : after.model.checkedRevision = some after.model.graph.store.revision) :
    after.model.graph.store.revision = before.model.graph.store.revision :=
  le_antisymm (dated _ (checked ▸ known)) later.revision

theorem KeepsLoops.allRegular (keeps : KeepsLoops before after) (regular : AllRegular before)
    (recalls : ∀ entry ∈ after.model.loops.entries, ∀ derivation artifacts,
      entry.2.progress = .registered derivation artifacts →
        derivation.Recalls (graphSession before) (graphSession after)) : AllRegular after := by
  intro entry member derivation artifacts registered
  rw [keeps.settings]
  exact (regular entry (keeps.loops ▸ member) derivation artifacts registered).recall
    (recalls entry member derivation artifacts registered)

theorem Watched.keep (watched : Watched before) (keeps : KeepsLoops before after)
    (later : Graph.Later (graphSession before) (graphSession after))
    (recalls : before.model.checkedRevision = some after.model.graph.store.revision →
      ∀ entry ∈ after.model.loops.entries, ∀ derivation artifacts,
        entry.2.progress = .registered derivation artifacts →
          derivation.Recalls (graphSession before) (graphSession after)) : Watched after where
  dated := watched.dated.keep keeps.checked later
  regular := by
    intro known
    have same := watched.dated.same_revision keeps.checked later known
    have checked := keeps.checked ▸ known
    exact keeps.allRegular (watched.regular (same ▸ checked)) (recalls checked)

theorem Fit.regular_of_registered (fit : Fit simplifier session)
    {entry : String × Loop.Descriptor κ} (member : entry ∈ session.model.loops.entries)
    {derivation : Loop.Derivation κ} {artifacts : Loop.Artifacts κ}
    (registered : entry.2.progress = .registered derivation artifacts) :
    derivation.Regular session.supply.next := by
  obtain ⟨_, _, _, _, stands, regular, _⟩ := fit.loops (fit.entered entry member)
  rw [registered, Loop.Progress.registered.injEq] at stands
  exact stands.1 ▸ regular

theorem Idles.recalls (idles : Idles before after) (tame : simplifier.Tame)
    (fit : Fit simplifier before) (laterFit : Fit simplifier after)
    (same : after.model.graph.store.revision = before.model.graph.store.revision)
    {entry : String × Loop.Descriptor κ} (member : entry ∈ after.model.loops.entries)
    {derivation : Loop.Derivation κ} {artifacts : Loop.Artifacts κ}
    (registered : entry.2.progress = .registered derivation artifacts) :
    derivation.Recalls (graphSession before) (graphSession after) :=
  (laterFit.regular_of_registered member registered).recalls idles.rests idles.later same tame
    fit.graph laterFit.graph

theorem Watched.idle (watched : Watched before) (idles : Idles before after)
    (tame : simplifier.Tame) (fit : Fit simplifier before) (laterFit : Fit simplifier after) :
    Watched after :=
  watched.keep idles.loops idles.later fun known _ member _ _ registered =>
    idles.recalls tame fit laterFit
      (le_antisymm (watched.dated _ known) idles.later.revision) member registered

theorem Idles.allRegular (idles : Idles before after) (regular : AllRegular before)
    (same : after.model.graph.store.revision = before.model.graph.store.revision)
    (tame : simplifier.Tame) (fit : Fit simplifier before) (laterFit : Fit simplifier after) :
    AllRegular after :=
  idles.loops.allRegular regular fun _ member _ _ registered =>
    idles.recalls tame fit laterFit same member registered

/-! ### Checks -/

theorem regularIn_of_verify (tame : simplifier.Tame) {work after : Graph.Session κ}
    (reachable : Graph.Reachable simplifier work) {descriptor : Loop.Descriptor κ}
    (checking : descriptor.settings.checkSingularity = true)
    {derivation : Loop.Derivation κ} {artifacts : Loop.Artifacts κ}
    (registered : descriptor.progress = .registered derivation artifacts) {limit : Nat}
    (regular : derivation.Regular limit)
    (verified : descriptor.verify.perform work = (.ok ⟨⟩, after)) :
    derivation.RegularIn descriptor.settings.tolerance work := by
  unfold Loop.Descriptor.verify at verified
  simp only [checking, registered] at verified
  exact Loop.regularIn_of_check tame reachable verified regular.sized

theorem recalls_of_evaluates (tame : simplifier.Tame) {work after : Graph.Session κ}
    (evaluates : ReflTransGen Graph.Evaluates work after)
    (reachable : Graph.Reachable simplifier work)
    (laterReachable : Graph.Reachable simplifier after) {derivation : Loop.Derivation κ}
    {limit : Nat} (regular : derivation.Regular limit) : derivation.Recalls work after :=
  regular.recalls (Graph.rests_of_evaluates evaluates) (Graph.later_of_evaluates evaluates)
    (Graph.peers_of_evaluates evaluates).twin.store.revision tame reachable laterReachable

theorem regularIn_of_forM_verify (tame : simplifier.Tame)
    {entries : List (String × Loop.Descriptor κ)} {work after : Graph.Session κ}
    (reachable : Graph.Reachable simplifier work)
    (verified : (entries.forM fun entry => entry.2.verify).perform work = (.ok ⟨⟩, after))
    {entry : String × Loop.Descriptor κ} (member : entry ∈ entries)
    (checking : entry.2.settings.checkSingularity = true)
    {derivation : Loop.Derivation κ} {artifacts : Loop.Artifacts κ}
    (registered : entry.2.progress = .registered derivation artifacts) {limit : Nat}
    (regular : derivation.Regular limit) :
    derivation.RegularIn entry.2.settings.tolerance after := by
  induction entries generalizing work with
  | nil => cases member
  | cons head tail ih =>
      have whole := evaluates_forM_verify (head :: tail) work
      have serves := serves_forM_verify (head :: tail) work
      rw [verified] at whole serves
      obtain ⟨_, middle, first, rest⟩ := Loop.Action.bind_eq_ok.mp verified
      rcases List.mem_cons.mp member with rfl | among
      · exact (regularIn_of_verify tame reachable checking registered regular first).recall
          (recalls_of_evaluates tame whole reachable (serves.reachable reachable) regular)
      · have served := Loop.serves_verify head.2 work
        rw [first] at served
        exact ih (served.reachable reachable) rest among

theorem Fit.settings_eq (fit : Fit simplifier session)
    {entry : String × Loop.Descriptor κ} (member : entry ∈ session.model.loops.entries) :
    entry.2.settings = session.model.settings.loops :=
  (fit.loops (fit.entered entry member)).settings_eq

theorem Verified.watched (verified : Verified before after) (watched : Watched before)
    (checking : before.model.settings.loops.checkSingularity = true) (tame : simplifier.Tame)
    (fit : Fit simplifier before) : Watched after ∧ AllRegular after := by
  suffices regular : AllRegular after from
    ⟨⟨fun revision known => ((Option.some.inj (known.symm.trans verified.checked.1)).le),
      fun _ => regular⟩, regular⟩
  cases verified with
  | known same => exact watched.regular same
  | found checks =>
      intro entry member derivation artifacts registered
      have settings := fit.settings_eq member
      have regular := regularIn_of_forM_verify tame fit.graph checks.verified member
        (settings ▸ checking) registered (fit.regular_of_registered member registered)
      exact settings ▸ regular

theorem watched_verifyLoops (checking : session.model.settings.loops.checkSingularity = true)
    (tame : simplifier.Tame) (fit : Fit simplifier session) (watched : Watched session) :
    let checked := verifyLoops.perform session
    Fit simplifier checked.2 ∧ Watched checked.2 ∧
      (checked.1 = .ok ⟨⟩ → AllRegular checked.2) := by
  by_cases due : session.model.checkedRevision = some session.model.graph.store.revision
  · rw [verifyLoops_known due]
    exact ⟨fit, watched, fun _ => watched.regular due⟩
  · have evaluates := evaluates_forM_verify session.model.loops.entries (graphSession session)
    have serves := serves_forM_verify session.model.loops.entries (graphSession session)
    rw [verifyLoops_due due]
    rcases ran : (session.model.loops.entries.forM fun entry => entry.2.verify).perform
      (graphSession session) with ⟨error | done, work⟩ <;> rw [ran] at evaluates serves
    · have laterFit := Steps.fit (steps_work serves.works) tame fit
      exact ⟨laterFit, watched.idle (idles_of_evaluates evaluates) tame fit laterFit, nofun⟩
    · have verified : Verified session (session.markChecked work) := .found ⟨due, ran⟩
      obtain ⟨still, regular⟩ := verified.watched watched checking tame fit
      have accrues : Accrues session (session.markChecked work) := accrues_of_works serves.works
      exact ⟨fit.advance tame accrues.advances ⟨rfl, rfl, rfl, rfl, rfl⟩, still, fun _ => regular⟩

/-- A query leaves it so that all loops are regular that have been checked at the present bindings,
and is answered only where all loops are regular. -/
theorem watched_query {query : Graph.Action κ α}
    (evaluates : ∀ work, ReflTransGen Graph.Evaluates work (query.perform work).2)
    (works : ∀ work, Graph.Works work (query.perform work).2)
    (checking : session.model.settings.loops.checkSingularity = true) (tame : simplifier.Tame)
    (fit : Fit simplifier session) (watched : Watched session) :
    let asked := (do declareCoordinates; verifyLoops; onGraph query : Action κ α).perform session
    Watched asked.2 ∧ ∀ value, asked.1 = .ok value → AllRegular asked.2 := by
  have prepares := (prepares_declareCoordinates tame fit).1
  simp only
  rw [perform_bind]
  generalize declareCoordinates.perform session = declared at prepares
  obtain ⟨error | done, middle⟩ := declared
  · exact ⟨watched.idle (prepares.idles tame fit) tame fit (prepares.fit tame fit), nofun⟩
  have middleFit : Fit simplifier middle := prepares.fit tame fit
  have idles : Idles session middle := prepares.idles tame fit
  have verified := watched_verifyLoops (idles.loops.settings ▸ checking) tame middleFit
    (watched.idle idles tame fit middleFit)
  simp only
  rw [perform_bind]
  generalize verifyLoops.perform middle = checked at verified
  obtain ⟨error | done, next⟩ := checked <;>
    obtain ⟨nextFit, nextWatched, regular⟩ := verified
  · exact ⟨nextWatched, nofun⟩
  have queried : Idles next (next.withGraph (query.perform (graphSession next)).2) :=
    idles_of_evaluates (evaluates _)
  have askedFit : Fit simplifier (next.withGraph (query.perform (graphSession next)).2) :=
    Steps.fit (steps_work (works _)) tame nextFit
  have same := (Graph.peers_of_evaluates (evaluates (graphSession next))).twin.store.revision
  simp only
  rw [onGraph_later]
  exact ⟨nextWatched.idle queried tame nextFit askedFit,
    fun _ _ => queried.allRegular (regular rfl) same tame nextFit askedFit⟩

/-! ### Sessions in which symbols are defined -/

abbrev Conserves (before after : Session κ) : Prop :=
  Graph.Leads (fun _ command => command.Conserves) (graphSession before) (graphSession after)

theorem conserves_give {command : Graph.Command κ} (conserves : command.Conserves)
    (admissible : command.Admissible session.supply) :
    Conserves session (session.give command) := .single _ admissible conserves

theorem conserves_bind {action : Action κ α} {β : Type} {next : α → Action κ β}
    (first : Conserves session (action.perform session).2)
    (rest : ∀ value later, action.perform session = (.ok value, later) →
      Conserves later ((next value).perform later).2) :
    Conserves session ((action >>= next).perform session).2 := by
  rw [perform_bind]
  split <;> rename_i ran <;> rw [ran] at first
  · exact first.trans (rest _ _ ran)
  · exact first

theorem conserves_define (name : String) {value : Tensor κ} (categories : CategorySet)
    (regular : value.Regular session.supply.next) :
    Conserves session ((define name value categories).perform session).2 := by
  have defines : Conserves session (session.give (.define name value categories)) :=
    conserves_give trivial regular
  rw [Session.give, Graph.Command.apply, Graph.Command.action, Graph.perform_ignore] at defines
  rwa [define, onGraph_later]

theorem conserves_reduceDynamics {coordinates : List Coordinate} {motion : Motion κ}
    (regular : motion.Regular session.supply.next) (tame : simplifier.Tame)
    (fit : Fit simplifier session) :
    Conserves session ((reduceDynamics coordinates motion).perform session).2 := by
  unfold reduceDynamics
  rw [perform_bind, perform_getModel]
  simp only
  split
  · exact .start
  · rename_i made
    have reduced := fit.reducedMotion regular made
    have issued {middle : Session κ} {value : Tensor κ} (conserves : Conserves session middle)
        (regular : value.Regular session.supply.next) : value.Regular middle.supply.next :=
      regular.mono (conserves.supply_le tame fit.graph)
    have mass := conserves_define "M_star" (.only .variable) reduced.mass
    refine conserves_bind mass fun _ first ran => ?_
    rw [ran] at mass
    have bias := conserves_define "h_star" (.only .variable) (issued mass reduced.bias)
    refine conserves_bind bias fun _ second ran => ?_
    rw [ran] at bias
    exact conserves_bind
      (conserves_define "f_star" (.only .variable) (issued (mass.trans bias) reduced.forces))
        fun _ _ _ => .start

/-! ### Commands -/

variable [ScalarText κ]

theorem Move.dated (move : Move before after) (tame : simplifier.Tame) (fit : Fit simplifier before)
    (dated : Dated before) : Dated after := by
  have later := (move.advances tame fit).later tame fit.graph
  cases move with
  | step step => exact dated.keep (step.keepsLoops tame fit).checked later
  | close => exact dated.keep rfl later
  | check checks =>
      have verified : Verified before (before.markChecked _) := .found checks
      exact fun revision known => (Option.some.inj (known.symm.trans verified.checked.1)).le

theorem Moves.dated (moves : Moves before after) (tame : simplifier.Tame)
    (fit : Fit simplifier before) (dated : Dated before) : Dated after := by
  induction moves with
  | refl => exact dated
  | tail earlier last ih => exact last.dated tame (Moves.fit earlier tame fit) ih

theorem Reachable.dated (reachable : Reachable simplifier session) (tame : simplifier.Tame) :
    Dated session := by
  induction reachable with
  | start supply made =>
      obtain ⟨rfl, _⟩ := new_ok made
      exact fun _ known => by cases known
  | step command earlier admissible _ ih =>
      have fit := ReachableBy.fit earlier tame
      rcases command.moves tame fit admissible with moves | ⟨kept, middle, _, moves, same⟩
      · exact moves.dated tame fit ih
      · rw [same]
        have middleFit := moves.fit tame fit
        exact (moves.dated tame fit ih).keep rfl
          ((middleFit.graph.fit tame).later tame.toModest (.reduce kept) trivial)

theorem Moves.settings (moves : Moves before after) (tame : simplifier.Tame)
    (fit : Fit simplifier before) : after.model.settings = before.model.settings := by
  induction moves with
  | refl => rfl
  | tail earlier last ih =>
      refine Eq.trans ?_ ih
      cases last with
      | step step => exact (step.keepsLoops tame (Moves.fit earlier tame fit)).settings
      | close | check => rfl

theorem Command.settings (command : Command κ) (tame : simplifier.Tame)
    (fit : Fit simplifier session) (admissible : command.Admissible session.supply) :
    (command.apply session).model.settings = session.model.settings := by
  rcases command.moves tame fit admissible with moves | ⟨kept, middle, _, moves, same⟩
  · exact moves.settings tame fit
  · exact same ▸ moves.settings tame fit

theorem Command.Quiet.watched {command : Command κ} (quiet : command.Quiet)
    (checking : session.model.settings.loops.checkSingularity = true) (tame : simplifier.Tame)
    (fit : Fit simplifier session) (admissible : command.Admissible session.supply)
    (watched : Watched session) : Watched (command.apply session) := by
  have laterFit := command.fit tame fit admissible
  have idle (idles : Idles session (command.apply session)) : Watched (command.apply session) :=
    watched.idle idles tame fit laterFit
  rw [Command.apply] at idle ⊢
  cases command with
  | register | define | close | project | build | generate | reduce => exact quiet.elim
  | issue name shape domain => exact idle ⟨⟨rfl, rfl, rfl⟩, .of_keeps rfl (.refl _), ⟨rfl, rfl, rfl⟩⟩
  | parameter name value =>
      refine idle ?_
      rw [Command.action, ignore_later, Model.parameter, input_later]
      exact idles_input session name value.shape (.only .parameter) value tame fit
  | input name shape categories =>
      refine idle ?_
      rw [Command.action, ignore_later, Model.input, input_later]
      exact idles_input session name shape categories none tame fit
  | coordinate name =>
      refine idle ?_
      rw [Command.action, ignore_later]
      exact idles_addCoordinate session name
  | joint joint =>
      refine idle ?_
      rw [Command.action, ignore_later]
      exact idles_addJoint session joint
  | change symbol value => exact idle (idles_changeValue session symbol value tame fit)
  | query symbol =>
      rw [Command.action, ignore_later]
      exact (watched_query (fun work => Graph.valueOf_evaluates work symbol) (works_valueOf symbol)
        checking tame fit watched).1
  | queryNumbers symbol =>
      rw [Command.action, ignore_later]
      exact (watched_query (fun work => Graph.numbersOf_evaluates work symbol)
        (works_numbersOf symbol) checking tame fit watched).1

theorem Closes.regularIn {request : Loop.Request κ} {descriptor : Loop.Descriptor κ}
    {artifacts : Loop.Artifacts κ} (closes : Closes session request descriptor artifacts)
    (checking : session.model.settings.loops.checkSingularity = true) (tame : simplifier.Tame)
    (fit : Fit simplifier session) {derivation : Loop.Derivation κ} {own : Loop.Artifacts κ}
    (registered : (descriptor.close (graphSession session)).descriptor.progress =
      .registered derivation own) :
    derivation.RegularIn session.model.settings.loops.tolerance (graphSession session) := by
  obtain ⟨_, enters⟩ := closes.enters
  rw [enters.registered, Loop.Progress.registered.injEq] at registered
  obtain ⟨rfl, _⟩ := registered
  have regular := closes.regular_derive fit enters.derived
  have settings : descriptor.derive.2.settings = session.model.settings.loops := by
    rw [Loop.settings_derive, Loop.Descriptor.eq_of_new closes.made]
  have inserted := enters.inserted
  unfold Loop.Descriptor.insert at inserted
  rw [settings] at inserted
  simp only [checking, if_true] at inserted
  obtain ⟨_, middle, checked, _⟩ := Loop.Action.bind_eq_ok.mp inserted
  exact Loop.regularIn_of_check tame fit.graph checked regular.sized

theorem Closes.watched {request : Loop.Request κ} {descriptor : Loop.Descriptor κ}
    {artifacts : Loop.Artifacts κ} (closes : Closes session request descriptor artifacts)
    (checking : session.model.settings.loops.checkSingularity = true) (tame : simplifier.Tame)
    (fit : Fit simplifier session) (watched : Watched session)
    (recalls : session.model.checkedRevision = some
        (descriptor.close (graphSession session)).session.graph.store.revision →
      ∀ entry ∈ (session.enclose (descriptor.close (graphSession session))
          artifacts).model.loops.entries, ∀ derivation own,
        entry.2.progress = .registered derivation own → derivation.Recalls (graphSession session)
          (descriptor.close (graphSession session)).session) :
    Watched (session.enclose (descriptor.close (graphSession session)) artifacts) := by
  have later : Graph.Later (graphSession session) (graphSession
      (session.enclose (descriptor.close (graphSession session)) artifacts)) :=
    Graph.Leads.later (closes.serves fit) tame fit.graph
  have checked : (session.enclose (descriptor.close (graphSession session))
      artifacts).model.checkedRevision = session.model.checkedRevision := rfl
  refine ⟨watched.dated.keep checked later, fun known => ?_⟩
  have same := watched.dated.same_revision checked later known
  intro entry member derivation own registered
  refine Loop.Derivation.RegularIn.recall ?_ (recalls known entry member derivation own registered)
  rcases Table.mem_insertInto member with rfl | old
  · exact closes.regularIn checking tame fit registered
  · exact watched.regular (same ▸ known) entry old derivation own registered

/-! ### Runs -/

/-- If all loops have been checked at the bindings at which the command ends, nothing that a check
reads gets numbers by the command that it has not had when the command began. -/
def Undisturbing (session : Session κ) (command : Command κ) : Prop :=
  session.model.checkedRevision = some (command.apply session).model.graph.store.revision →
    ∀ entry ∈ (command.apply session).model.loops.entries, ∀ derivation artifacts,
      entry.2.progress = .registered derivation artifacts →
        derivation.Recalls (graphSession (command.eve session))
          (graphSession (command.apply session))

/-- The command defines nothing, or does not disturb what has been checked. -/
def Harmless (session : Session κ) (command : Command κ) : Prop :=
  command.Quiet ∨ Undisturbing session command

theorem Undisturbing.watched {command : Command κ} (undisturbing : Undisturbing session command)
    (loud : ¬command.Quiet) (checking : session.model.settings.loops.checkSingularity = true)
    (tame : simplifier.Tame) (fit : Fit simplifier session)
    (admissible : command.Admissible session.supply) (watched : Watched session) :
    Watched (command.apply session) := by
  have prepares := command.prepares tame fit
  have idles := prepares.idles tame fit
  have eveFit := prepares.fit tame fit
  have eveWatched := watched.idle idles tame fit eveFit
  have goes := command.goes tame fit admissible
  unfold Undisturbing at undisturbing
  generalize command.apply session = later at goes undisturbing
  cases goes with
  | steps steps =>
      exact eveWatched.keep (steps.keepsLoops tame eveFit) (steps.later tame eveFit)
        fun known => undisturbing (idles.loops.checked ▸ known)
  | close eve closes =>
      subst eve
      exact closes.watched (idles.loops.settings ▸ checking) tame eveFit eveWatched
        fun known => undisturbing (idles.loops.checked ▸ known)
  | query quiet => exact absurd quiet loud
  | @reduce kept middle steps =>
      have keeps := steps.keepsLoops tame fit
      have middleFit := Steps.fit steps tame fit
      have reduced := (middleFit.graph.fit tame).later tame.toModest (.reduce kept) trivial
      exact watched.keep (keeps.trans ⟨rfl, rfl, rfl⟩) ((steps.later tame fit).trans reduced)
        undisturbing

/-- The checks of registered loops read nothing but what is known to the graph, down to the inputs. -/
def Grounded (session later : Session κ) : Prop :=
  ∀ entry ∈ later.model.loops.entries, ∀ derivation artifacts,
    entry.2.progress = .registered derivation artifacts →
      ∀ symbol ∈ derivation.parameters, session.model.graph.Supported symbol

/-- Commands that define symbols and build nothing. -/
def Command.Adds : Command κ → Prop
  | .register .. | .define .. | .close _ | .project .. => True
  | _ => False

theorem Command.Adds.conserves {command : Command κ} (adds : command.Adds) (tame : simplifier.Tame)
    (fit : Fit simplifier session) (admissible : command.Admissible session.supply) :
    Conserves (command.eve session) (command.apply session) := by
  rw [Command.apply]
  cases command with
  | register name symbol value categories =>
      rw [Command.action, ignore_later, registerExpression, onGraph_later]
      have given : Conserves session (session.give (.register name symbol value categories)) :=
        conserves_give trivial admissible
      rwa [Session.give, Graph.Command.apply, Graph.Command.action, Graph.perform_ignore] at given
  | define name value categories =>
      rw [Command.action, ignore_later]
      exact conserves_define name categories admissible
  | project coordinates motion =>
      rw [Command.action, ignore_later]
      exact conserves_reduceDynamics admissible tame fit
  | close request =>
      rw [Command.action, ignore_later, registerLoop_eq, perform_bind, Command.eve]
      have arranges := arrangeLoop_arranges session request
      have prepares := arranges.prepares tame fit
      generalize (arrangeLoop request).perform session = outcome at arranges prepares
      obtain ⟨error | descriptor, middle⟩ := outcome
      · exact .start
      have middleFit : Fit simplifier middle := prepares.fit tame fit
      have still := admissible.mono ((prepares.steps.advances tame fit).supply_le tame fit.graph)
      cases arranges with
      | made _ _ _ _ _ made =>
          have serves : Graph.Serves (graphSession middle)
              (descriptor.close (graphSession middle)).session := Loop.serves_close
            fun _ derived => Loop.Descriptor.regular_derive middleFit.chain still made derived
          have conserves : Graph.Leads (fun _ command => command.Conserves) (graphSession middle)
              (descriptor.close (graphSession middle)).session :=
            serves.mono fun _ command serves => by
              cases command <;> first | exact serves.elim | trivial
          simp only [perform_closeLoop]
          cases (descriptor.close (graphSession middle)).outcome <;> exact conserves
  | _ => exact adds.elim

theorem undisturbing_of_grounded {command : Command κ} (adds : command.Adds)
    (tame : simplifier.Tame) (reachable : Reachable simplifier session)
    (admissible : command.Admissible session.supply)
    (grounded : Grounded (command.eve session) (command.apply session)) :
    Undisturbing session command := by
  intro checked entry member derivation artifacts registered symbol read entries known
  have fit := reachable.fit tame
  have prepares := command.prepares tame fit
  have eveFit := prepares.fit tame fit
  have conserves := adds.conserves tame fit admissible
  have earlier := (prepares.idles tame fit).later
  have later := conserves.later tame eveFit.graph
  have regular := (command.fit tame fit admissible).regular_of_registered member registered
  -- the note is no later than the session, so that nothing is bound in between
  have same : (command.apply session).model.graph.store.revision =
      (command.eve session).model.graph.store.revision :=
    le_antisymm ((reachable.dated tame _ checked).trans earlier.revision) later.revision
  exact (grounded entry member derivation artifacts registered symbol read).numbers? conserves same
    tame eveFit.graph (regular.sized symbol read) known

omit [ScalarText κ] in
/-- This is so where all reads are bound, as they are after a build, and the checks read what has a
value of its own. -/
theorem grounded_of_bound {later : Session κ} (tame : simplifier.Tame) (fit : Fit simplifier session)
    (bound : session.model.graph.Bound)
    (known : ∀ entry ∈ later.model.loops.entries, ∀ derivation artifacts,
      entry.2.progress = .registered derivation artifacts →
        ∀ symbol ∈ derivation.parameters, session.model.graph.Known symbol) :
    Grounded session later :=
  fun entry member derivation artifacts registered symbol read =>
    .of_bound (fit.graph.fit tame).valid.toLawful bound
      (known entry member derivation artifacts registered symbol read)

theorem undisturbing_build (plain : session.model.graph.settings.optimize = false)
    (tame : simplifier.Tame) (reachable : Reachable simplifier session) :
    Undisturbing session .build ∧ ∀ output, Undisturbing session (.generate output) := by
  have fit := reachable.fit tame
  have idles := idles_build plain tame fit
  have recalls : session.model.checkedRevision =
        some (build.perform session).2.model.graph.store.revision →
      ∀ entry ∈ (build.perform session).2.model.loops.entries, ∀ derivation artifacts,
        entry.2.progress = .registered derivation artifacts → derivation.Recalls
          (graphSession session) (graphSession (build.perform session).2) :=
    fun checked _ member _ _ registered => idles.recalls tame fit
      (Steps.fit (steps_build tame fit) tame fit) (le_antisymm (reachable.dated tame _ checked) idles.later.revision) member registered
  have applied : (Command.build : Command κ).apply session = (build.perform session).2 := by
    rw [Command.apply, Command.action, ignore_later]
  have generated (output : CategorySet) :
      (Command.generate output : Command κ).apply session = (build.perform session).2 := by
    rw [Command.apply, Command.action, ignore_later, perform_generate]
  unfold Undisturbing
  exact ⟨by rwa [applied], fun output => by rwa [generated]⟩

theorem LeadsBy.watched {first : Session κ} (leads : LeadsBy Harmless first session)
    (checking : first.model.settings.loops.checkSingularity = true) (tame : simplifier.Tame)
    (fit : Fit simplifier first) (watched : Watched first) :
    Fit simplifier session ∧ session.model.settings = first.model.settings ∧ Watched session := by
  induction leads with
  | start => exact ⟨fit, rfl, watched⟩
  | @step session command earlier admissible harmless ih =>
      obtain ⟨fit, settings, watched⟩ := ih
      refine ⟨command.fit tame fit admissible,
        (command.settings tame fit admissible).trans settings, ?_⟩
      by_cases quiet : command.Quiet
      · exact quiet.watched (settings ▸ checking) tame fit admissible watched
      · exact (harmless.resolve_left quiet).watched quiet (settings ▸ checking) tame fit admissible
          watched

/-- Where singular configurations are looked for, values and numbers are answered at regular ones
only: every registered loop that has numbers for what its check reads has finite positions, and a
determinant further from zero than the tolerance. This is so from any session in which a check is
due, such as a new one, as long as nothing that has been checked is disturbed. -/
theorem answered_regular (tame : simplifier.Tame) (reachable : Reachable simplifier session)
    (checking : session.model.settings.loops.checkSingularity = true)
    (due : session.model.checkedRevision ≠ some session.model.graph.store.revision)
    {later answered : Session κ} (leads : LeadsBy Harmless session later) {symbol : Symbol}
    (asked : (∃ value, (valueOf symbol).perform later = (.ok value, answered)) ∨
      ∃ numbers, (numbersOf symbol).perform later = (.ok numbers, answered)) :
    AllRegular answered := by
  have watched : Watched session := ⟨reachable.dated tame, fun known => absurd known due⟩
  obtain ⟨fit, settings, watched⟩ := leads.watched checking tame (reachable.fit tame) watched
  have checking := settings ▸ checking
  rcases asked with ⟨value, ran⟩ | ⟨numbers, ran⟩
  · have queried : let asked := (valueOf symbol).perform later
        Watched asked.2 ∧ ∀ value, asked.1 = .ok value → AllRegular asked.2 :=
      watched_query (fun work => Graph.valueOf_evaluates work symbol) (works_valueOf symbol)
        checking tame fit watched
    rw [ran] at queried
    exact queried.2 value rfl
  · have queried : let asked := (numbersOf symbol).perform later
        Watched asked.2 ∧ ∀ numbers, asked.1 = .ok numbers → AllRegular asked.2 :=
      watched_query (fun work => Graph.numbersOf_evaluates work symbol) (works_numbersOf symbol)
        checking tame fit watched
    rw [ran] at queried
    exact queried.2 numbers rfl

/-! ### A driven output -/

namespace Driven

open Mechanism.Expr Guarded
open Mechanism.Loop.Sample (along)
open FixedFrame (u v)

theorem product_units : product [num (1 : RealNumber), num 1, num 1] = num (1 : RealNumber) := by
  have value : (1 * 1 * 1 * 1 : RealNumber) = ⟨1⟩ := by
    change (⟨1 * 1 * 1 * 1⟩ : RealNumber) = ⟨1⟩
    norm_num
  rw [product, fuelFor, productWith]
  change (if Scalar.isZero (1 * 1 * 1 * 1 : RealNumber) then zero else
    ofFactors (1 * 1 * 1 * 1 : RealNumber) []) = _
  rw [ofFactors, value, isZero_mk]
  simp only [one_ne_zero, decide_false, Bool.false_eq_true, if_false]
  exact number_mk 1

theorem sum_unit : sum [num (1 : RealNumber)] = num (1 : RealNumber) := by
  have value : (0 + 1 : RealNumber) = ⟨1⟩ := zero_add_mk 1
  rw [sum, fuelFor, sumWith]
  change ofTerms ([] ++ if Scalar.isZero (0 + 1 : RealNumber) then [] else [number (0 + 1)]) = _
  rw [value, isZero_mk]
  simp only [one_ne_zero, decide_false, Bool.false_eq_true, if_false, List.nil_append]
  exact number_mk 1

theorem determinant_one : ∃ evaluated, Tensor.ofNumbers .scalar [(1 : RealNumber)] = .ok evaluated ∧
    evaluated.determinant = .ok (.num (1 : RealNumber)) := by
  have unit : number (1 : RealNumber) = num 1 := number_mk 1
  have nonzero : Scalar.isZero (1 : RealNumber) = false := by
    change Scalar.isZero (⟨1⟩ : RealNumber) = false
    simp
  refine ⟨.ofExpr (num 1), ?_, ?_⟩
  · rw [Tensor.ofNumbers, List.map_singleton, unit]
    rfl
  · have entry : (Tensor.ofExpr (num (1 : RealNumber))).support.entry 0 0 = some (num 1) := by
      change (some (if Scalar.isZero (1 : RealNumber) then none else some (num 1))).join = _
      rw [nonzero]
      rfl
    rw [Tensor.determinant_eq]
    change Except.ok (Tensor.minor (Tensor.ofExpr (num (1 : RealNumber))).support.entry [0] [0]) = _
    rw [Tensor.minor, Tensor.alternately, entry]
    change Except.ok (sum [product [number 1, num 1, num 1]]) = _
    rw [unit, product_units, sum_unit]

noncomputable def angle : RealNumber := ⟨1 + 1⟩

/-- The crank is held back at an angle before it becomes an input. -/
noncomputable def held : Session RealNumber :=
  (Command.change u.position (.ofExpr (num angle))).apply FixedFrame.linkage

noncomputable def inputs : Table Symbol CategorySet :=
  ⟨[(u.position, .only .state), (u.velocity, .only .state),
    (u.acceleration, .only .derivativeOfState)]⟩

/-- The crank has become an input, with the angle for its value. -/
noncomputable def declared : Session RealNumber where
  model := { ofSettings .standard Simplifier.keep with
    graph := { Graph.ofSettings .standard Simplifier.keep with
      inputs := inputs
      built := false
      store := ⟨⟨[(u.position, .ofExpr (num angle))]⟩, ∅, 1, 0⟩ }
    chain := ⟨[FixedFrame.crank, FixedFrame.output]⟩
    coordinates := ⟨[(u.name, u), (v.name, v)]⟩ }
  supply := ⟨7⟩

noncomputable def position : Expr RealNumber := guard u.atom (.call .exp (.atom u.atom))

noncomputable def driven : Loop.Request RealNumber :=
  ⟨"driven", .explicitJoint position, ⟨"a", some ⟨0⟩, along 0⟩, ⟨"b", some ⟨1⟩, along 0⟩, [⟨0⟩], [⟨1⟩]⟩

noncomputable def geometry : Loop.Geometry RealNumber := Loop.Problem.coupled [u] v position

theorem dependent_eq {derivation : Loop.Derivation RealNumber}
    (same : derivation.geometry = geometry) (sound : derivation.Sound) :
    derivation.jacobians.dependent = .ofExpr one := by
  have still : zero = (call .exp (atom u.atom) : Expr RealNumber).derivative v.atom := by
    have apart : u.atom ≠ v.atom := by decide
    rw [derivative_eq]
    simp only [children, List.map_cons, List.map_nil, derivative_atom, if_neg apart, rate,
      isZero_zero, if_true]
  have made := sound.jacobians_eq_ok.2
  rw [same] at made
  have entries : derivation.jacobians.dependent =
      ⟨Shape.ofDimensions 1 1, [(atom v.atom - position : Expr RealNumber).derivative v.atom]⟩ :=
    (Except.ok.inj made).symm
  rw [entries, position, derivative_following still]
  rfl

theorem parameters_eq {derivation : Loop.Derivation RealNumber}
    (same : derivation.geometry = geometry) (sound : derivation.Sound) :
    derivation.parameters = [u.position] := by
  rw [Loop.Derivation.parameters, same, dependent_eq same sound]
  have solved : geometry.solution.flatMap Expr.symbols = [u.position] := by
    with_unfolding_all decide
  have differentiated : (Tensor.ofExpr (one : Expr RealNumber)).symbols = [] := by
    with_unfolding_all decide
  rw [solved, differentiated]
  decide

noncomputable def numbers : Loop.Numbers RealNumber :=
  (∅ : Loop.Numbers RealNumber).insert u.position [angle]

theorem position_evaluates :
    ∃ place : RealNumber, position.evaluate numbers.assignment = some place := by
  have crank : (atom u.atom : Expr RealNumber).evaluate numbers.assignment = some angle := by
    rw [Expr.evaluate_eq]
    rfl
  have rest : (zero : Expr RealNumber).evaluate numbers.assignment = some 0 := by
    rw [Expr.evaluate_eq]
    rfl
  have rises : (call .exp (atom u.atom) : Expr RealNumber).evaluate numbers.assignment =
      Scalar.apply .exp angle := by
    rw [Expr.evaluate_eq]
    simp only [children, List.map_cons, List.map_nil, crank]
    rfl
  rw [position, Guarded.guard, Expr.evaluate_eq]
  simp only [children, List.map_cons, List.map_nil, crank, rest, rises, valueAt,
    Option.bind_eq_bind, Option.bind_some]
  split
  · exact ⟨0, rfl⟩
  · have raised : Elementary.realApply .exp angle.value = some (Real.exp angle.value) :=
      if_pos trivial
    exact ⟨_, congrArg (Option.map RealNumber.mk) raised⟩

theorem determinantAt_one (numbers : Loop.Numbers RealNumber) :
    Loop.determinantAt numbers (.ofExpr one) = .ok (some (1 : RealNumber)) := by
  obtain ⟨evaluated, made, determinant⟩ := determinant_one
  have entries : (Tensor.ofExpr (one : Expr RealNumber)).evaluate numbers.assignment = some [1] := by
    change [(one : Expr RealNumber)].mapM (Expr.evaluate numbers.assignment) = _
    rw [List.mapM_cons, Expr.evaluate_eq]
    rfl
  rw [Loop.determinantAt, entries]
  change (Tensor.ofNumbers .scalar [(1 : RealNumber)] >>= fun evaluated =>
    evaluated.determinant >>= fun value => pure value.asNumber?) = _
  rw [made]
  change (evaluated.determinant >>= fun value => pure value.asNumber?) = _
  rw [determinant]
  rfl

theorem configurationAt_numbers {derivation : Loop.Derivation RealNumber}
    (same : derivation.geometry = geometry) (sound : derivation.Sound) :
    ∃ coordinates, derivation.configurationAt numbers = .ok ⟨coordinates, some (1 : RealNumber)⟩ := by
  obtain ⟨place, solved⟩ := position_evaluates
  have places : geometry.solution.map (Expr.evaluate numbers.assignment) = [some place] := by
    change [position.evaluate numbers.assignment] = _
    rw [solved]
  have finite : ([some place].all fun value => value.any Scalar.isFinite) = true := rfl
  simp only [Loop.Derivation.configurationAt, same, places, finite, if_true,
    dependent_eq same sound, determinantAt_one]
  exact ⟨_, rfl⟩

/-- The crank is an input that is bound to the angle. -/
structure Turned (session : Graph.Session RealNumber) : Prop where
  input : session.graph.isInput u.position = true
  bound : session.graph.store.binding? u.position = some (.ofExpr (num angle))

section

variable {session : Graph.Session RealNumber} (turned : Turned session)

include turned

theorem Turned.perform_valueOf :
    (Graph.valueOf u.position).perform session = (.ok (.ofExpr (num angle)), session) := by
  rw [Graph.perform_valueOf, Graph.Action.perform_valueWith_input _ turned.input, turned.bound]
  rfl

theorem Turned.perform_numbersOf :
    (Graph.numbersOf u.position).perform session = (.ok (some [angle]), session) := by
  rw [Graph.numbersOf, Graph.Action.perform_bind, turned.perform_valueOf]
  rfl

theorem Turned.numbers? : Graph.numbers? session u.position = some [angle] := by
  rw [Graph.numbers?, Graph.answer, turned.perform_valueOf]
  rfl

theorem Turned.passes (name : String) {derivation : Loop.Derivation RealNumber}
    (same : derivation.geometry = geometry) (sound : derivation.Sound) :
    (Loop.checkRegularity name .standard derivation).perform session = (.ok ⟨⟩, session) := by
  obtain ⟨coordinates, configured⟩ := configurationAt_numbers same sound
  have admitted : (Loop.Settings.standard : Loop.Settings RealNumber).admits (some 1) = true :=
    decide_eq_true (by norm_num : 1 / ((Nat.pow 10 10 : ℕ) : ℤ) < |(1 : ℝ)|)
  have found : (Loop.numbersOf [u.position] ∅).run session = (some numbers, session) := by
    rw [Loop.run_numbersOf_numbers turned.perform_numbersOf]
    rfl
  unfold Loop.checkRegularity
  rw [parameters_eq same sound]
  refine Loop.Action.bind_eq_ok.mpr ⟨some numbers, session, ?_, ?_⟩
  · change (Except.ok ((Loop.numbersOf [u.position] ∅).run session).1,
      ((Loop.numbersOf [u.position] ∅).run session).2) = _
    rw [found]
  refine Loop.Action.bind_eq_ok.mpr
    ⟨_, session, Loop.Action.ofAlgebra_eq_ok.mpr ⟨configured, rfl⟩, ?_⟩
  simp only [admitted]
  rfl

end

section

variable {session : Session RealNumber} (turned : Turned (graphSession session))

include turned

theorem Turned.isInput : session.model.graph.isInput u.position = true := turned.input

theorem Turned.enclose (descriptor : Loop.Descriptor RealNumber)
    (artifacts : Loop.Artifacts RealNumber) :
    Turned (graphSession (session.enclose (descriptor.close (graphSession session)) artifacts)) := by
  obtain ⟨_, adds⟩ := descriptor.extends_close (graphSession session)
  constructor
  · change Graph.isInput (descriptor.close (graphSession session)).session.graph _ = true
    rw [Graph.isInput, adds.inputs]
    exact turned.input
  · change Graph.Store.binding? (descriptor.close (graphSession session)).session.graph.store _ = _
    rw [Graph.Store.binding?, adds.store.bindings]
    exact turned.bound

/-- Where the note of the last check is good no more, all loops are checked, and that is noted. -/
theorem Turned.answers (ready : session.model.Ready)
    (due : session.model.checkedRevision ≠ some session.model.graph.store.revision)
    (checked : (session.model.loops.entries.forM fun entry => entry.2.verify).perform
      (graphSession session) = (.ok ⟨⟩, graphSession session)) :
    (valueOf u.position).perform session =
      (.ok (.ofExpr (num angle)), session.markChecked (graphSession session)) := by
  have known : (Graph.valueOf u.position).perform
      (graphSession (session.markChecked (graphSession session))) =
        (.ok (.ofExpr (num angle)), graphSession session) :=
    turned.perform_valueOf
  rw [valueOf, perform_bind, declareCoordinates_ready ready]
  simp only
  rw [perform_bind, verifyLoops_due due, checked]
  simp only
  rw [perform_onGraph, known]
  rfl

theorem Turned.answers_checked (ready : session.model.Ready)
    (known : session.model.checkedRevision = some session.model.graph.store.revision) :
    (valueOf u.position).perform session = (.ok (.ofExpr (num angle)), session) := by
  rw [valueOf, perform_bind, declareCoordinates_ready ready]
  simp only
  rw [perform_bind, verifyLoops_known known]
  simp only
  rw [perform_onGraph, turned.perform_valueOf]
  rfl

end

theorem regular : driven.Regular held.supply.next where
  frameA := Loop.Sample.regular_along _ _
  frameB := Loop.Sample.regular_along _ _
  expression := by
    rintro _ ⟨⟩ atom occurs
    obtain rfl : atom = u.atom := by
      simpa [position, Guarded.guard, occurrences, zero] using occurs
    exact ⟨Nat.zero_lt_one, (by decide : 1 < 7)⟩

noncomputable def descriptor : Loop.Descriptor RealNumber :=
  ⟨⟨declared.model.chain, driven⟩, .standard, .unresolved⟩

theorem arranged : (arrangeLoop driven).perform held = (.ok descriptor, declared) := by
  have made (chain : Chain RealNumber) : Loop.Descriptor.new driven chain .standard =
      .ok ⟨⟨chain, driven⟩, .standard, .unresolved⟩ := by
    rw [Loop.Descriptor.new, standard_regular]
    rfl
  have ran : ([u].forM declareDriver).perform held = (.ok ⟨⟩, declared) := rfl
  have new : held.model.loops.contains driven.name = false := by decide
  have driving : (jointCoordinates driven.independent).perform held = (.ok [u], held) := rfl
  have following : (jointCoordinates driven.dependent).perform held = (.ok [v], held) := rfl
  rw [perform_arrangeLoop new driving following rfl ran]
  change (ofLoop (Loop.Descriptor.new driven declared.model.chain .standard)).perform declared = _
  rw [made]
  rfl

theorem solved : descriptor.problem.solve = .ok geometry := by
  have apart : position.symbols.contains v.position = false := by
    with_unfolding_all decide
  change (if position.symbols.contains v.position then _ else _) = _
  rw [apart, if_neg Bool.false_ne_true]
  rfl

theorem turned_declared : Turned (graphSession declared) := by
  constructor
  · decide
  · rfl

theorem vacant {symbol : Symbol} (apart : ∀ entry ∈ inputs.entries, entry.1 ≠ symbol) :
    declared.model.graph.Vacant symbol := by
  refine ⟨rfl, ?_⟩
  have missing : inputs.entries.find? (fun entry => entry.1 = symbol) = none := by
    rw [List.find?_eq_none]
    exact fun entry member same => apart entry member (of_decide_eq_true same)
  have here : declared.model.graph.isInput symbol =
      ((inputs.entries.find? fun entry => entry.1 = symbol).map (·.2)).isSome := rfl
  rw [here, missing]
  rfl

theorem room : Loop.Room (graphSession declared) (Coordinate.allSymbols geometry.dependent) where
  indexed := nofun
  fresh := by
    intro symbol fresh
    refine vacant fun entry member same => ?_
    have old : ∀ entry ∈ inputs.entries, entry.1.number < 7 := by decide
    exact absurd (old entry member) (not_lt.mpr (same ▸ fresh))
  vacant := by
    intro symbol member
    refine vacant fun entry among => ?_
    revert entry
    revert symbol
    decide
  issued := by decide

theorem closes : ∃ artifacts, (descriptor.close (graphSession declared)).outcome = .ok artifacts :=
  Loop.Descriptor.close_passes (fun _ same sound _ => turned_declared.passes _ same sound) solved
    ⟨rfl, rfl⟩ rfl (by decide) room (by decide) (by decide)

theorem registers : ∃ artifacts,
    (registerLoop driven).perform held =
      (.ok artifacts, declared.enclose (descriptor.close (graphSession declared)) artifacts) ∧
    artifacts.dependent = [v] ∧ ∃ derivation : Loop.Derivation RealNumber,
      derivation.geometry = geometry ∧ derivation.Sound ∧
        (descriptor.close (graphSession declared)).descriptor.progress =
          .registered derivation artifacts := by
  obtain ⟨artifacts, outcome⟩ := closes
  have consistent := (Loop.Descriptor.Reached.new descriptor.problem .standard).consistent
  obtain ⟨derivation, enters⟩ := Loop.enters_of_close consistent rfl outcome
  have follows := enters.follows
  have same : derivation.geometry = geometry :=
    Except.ok.inj (follows.solved.symm.trans solved)
  obtain ⟨other, again, made⟩ := (Loop.Descriptor.solves_close consistent
    (Loop.Descriptor.Reached.new descriptor.problem .standard).solves (graphSession declared)).1
      artifacts outcome
  obtain rfl : other = geometry := Except.ok.inj (again.symm.trans solved)
  refine ⟨artifacts, ?_, made.dependent, derivation, same, follows.sound, enters.registered⟩
  rw [registerLoop_eq, perform_bind, arranged]
  simp only [perform_closeLoop, outcome]

/-- The linkage with its output driven by the crank. -/
noncomputable def closed : Session RealNumber := (Command.close driven).apply held

theorem closed_eq : ∃ artifacts,
    closed = declared.enclose (descriptor.close (graphSession declared)) artifacts ∧
      artifacts.dependent = [v] ∧ ∃ derivation : Loop.Derivation RealNumber,
        derivation.geometry = geometry ∧ derivation.Sound ∧
          (descriptor.close (graphSession declared)).descriptor.progress =
            .registered derivation artifacts := by
  obtain ⟨artifacts, ran, rest⟩ := registers
  refine ⟨artifacts, ?_, rest⟩
  rw [closed, Command.apply, Command.action, ignore_later, ran]

theorem turned : Turned (graphSession closed) := by
  obtain ⟨artifacts, same, _⟩ := closed_eq
  rw [same]
  exact turned_declared.enclose descriptor artifacts

theorem ready : closed.model.Ready := by
  obtain ⟨artifacts, same, dependent, _⟩ := closed_eq
  have all : closed.model.allCoordinates = [u, v] := by
    rw [same]
    rfl
  have follows : closed.model.isClosed v = true := by
    rw [same]
    change (artifacts.dependent.foldl (fun closedBy coordinate => closedBy.insert coordinate.name _)
      (∅ : Table String String)).contains v.name = true
    rw [dependent]
    rfl
  intro coordinate member
  obtain ⟨among, free⟩ := List.mem_filter.mp member
  rw [all, List.mem_pair] at among
  rcases among with rfl | rfl
  · exact turned.isInput
  · rw [follows] at free
    cases free

theorem entered : ∃ loop derivation artifacts,
    closed.model.loops.entries = [(loop.name, loop)] ∧ loop.settings = .standard ∧
      loop.progress = .registered derivation artifacts ∧
        derivation.geometry = geometry ∧ derivation.Sound := by
  obtain ⟨artifacts, same, _, derivation, own, sound, registered⟩ := closed_eq
  have consistent := (Loop.Descriptor.Reached.new descriptor.problem .standard).consistent
  obtain ⟨_, outcome⟩ := closes
  obtain ⟨_, enters⟩ := Loop.enters_of_close consistent rfl outcome
  refine ⟨_, derivation, artifacts, ?_, enters.settings, registered, own, sound⟩
  rw [same]
  rfl

/-- The session after the first question, in which the check of the loop has been noted. -/
noncomputable def asked : Session RealNumber := (Command.query u.position).apply closed

theorem answers : (valueOf u.position).perform closed = (.ok (.ofExpr (num angle)), asked) ∧
    asked = closed.markChecked (graphSession closed) := by
  obtain ⟨loop, derivation, artifacts, entries, settings, registered, own, sound⟩ := entered
  have due : closed.model.checkedRevision ≠ some closed.model.graph.store.revision := by
    obtain ⟨artifacts, same, _⟩ := closed_eq
    rw [same]
    exact nofun
  have passed : loop.verify.perform (graphSession closed) = (.ok ⟨⟩, graphSession closed) := by
    unfold Loop.Descriptor.verify
    rw [registered, settings]
    exact turned.passes loop.name own sound
  have checked : (closed.model.loops.entries.forM fun entry => entry.2.verify).perform
      (graphSession closed) = (.ok ⟨⟩, graphSession closed) := by
    rw [entries, List.forM, Loop.Action.perform_bind, passed]
    rfl
  have answered := turned.answers ready due checked
  have same : asked = closed.markChecked (graphSession closed) := by
    rw [asked, Command.apply, Command.action, ignore_later, answered]
  exact ⟨same ▸ answered, same⟩

theorem turned_asked : Turned (graphSession asked) := by
  rw [answers.2, graphSession_markChecked]
  exact turned

theorem checked_asked :
    asked.model.checkedRevision = some asked.model.graph.store.revision := by
  rw [answers.2, checkedRevision_markChecked]

theorem ready_asked : asked.model.Ready := by
  rw [answers.2]
  exact ready.markChecked

theorem answers_again : (valueOf u.position).perform asked = (.ok (.ofExpr (num angle)), asked) :=
  turned_asked.answers_checked ready_asked checked_asked

end Driven

/-- The loop is checked when the crank is asked for first, at the angle that the crank has been
given. That is noted, and when the crank is asked for again nothing is checked any more. -/
theorem driven_answered :
    (valueOf FixedFrame.u.position).perform Driven.closed =
      (.ok (.ofExpr (.num Driven.angle)), Driven.asked) ∧
    Driven.asked.model.checkedRevision = some Driven.asked.model.graph.store.revision ∧
    (valueOf FixedFrame.u.position).perform Driven.asked =
      (.ok (.ofExpr (.num Driven.angle)), Driven.asked) ∧
    ∃ entry ∈ Driven.asked.model.loops.entries, ∃ derivation artifacts,
      entry.2.progress = .registered derivation artifacts ∧
        derivation.parameters = [FixedFrame.u.position] ∧
          Graph.numbers? (graphSession Driven.asked) FixedFrame.u.position = some [Driven.angle] ∧
            derivation.RegularAt Driven.asked.model.settings.loops.tolerance
              (Graph.numbers? (graphSession Driven.asked)) := by
  obtain ⟨answers, same⟩ := Driven.answers
  obtain ⟨loop, derivation, artifacts, entries, _, registered, own, sound⟩ := Driven.entered
  have member : (loop.name, loop) ∈ Driven.asked.model.loops.entries := by
    rw [same, loops_markChecked, entries]
    exact List.mem_singleton_self _
  have turned := Driven.turned_asked
  have parameters := Driven.parameters_eq own sound
  have held : LeadsBy Harmless FixedFrame.linkage Driven.held :=
    .step (.change FixedFrame.u.position (.ofExpr (.num Driven.angle))) .start trivial (.inl trivial)
  have closed : LeadsBy Harmless FixedFrame.linkage Driven.closed :=
    .step (.close Driven.driven) held Driven.regular (.inr fun known => nomatch known)
  have leads : LeadsBy Harmless FixedFrame.linkage Driven.asked :=
    .step (.query FixedFrame.u.position) closed trivial (.inl trivial)
  have regular := answered_regular Simplifier.keep_tame FixedFrame.reachable rfl nofun leads
    (.inl ⟨_, Driven.answers_again⟩)
  refine ⟨answers, Driven.checked_asked, Driven.answers_again, _, member, derivation, artifacts,
    registered, parameters, turned.numbers?,
    regular _ member derivation artifacts registered fun symbol read => ?_⟩
  rw [parameters, List.mem_singleton] at read
  exact ⟨_, read ▸ turned.numbers?⟩

end Mechanism.Model
