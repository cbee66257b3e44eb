import Mechanism.Proofs.Loop.Attempts
import Mechanism.Proofs.Model.Reachability

/-!
How the loops of a model drive each other. A loop is driven by inputs and by coordinates that
earlier loops determine, so that following the drivers of a coordinate comes to an end.
-/

namespace Mechanism

/-! ### Tables in the order of their keys -/

namespace Table

variable {α β : Type} [DecidableEq α]

theorem insertInto_new {key : α} {value : β} {entries : List (α × β)}
    (new : ∀ entry ∈ entries, entry.1 ≠ key) :
    insertInto key value entries = entries ++ [(key, value)] := by
  induction entries with
  | nil => rfl
  | cons head tail ih =>
      rw [List.forall_mem_cons] at new
      rw [insertInto, if_neg new.1, ih new.2]
      rfl

theorem keys_insert {table : Table α β} {key : α} (value : β) (new : table.contains key = false) :
    (table.insert key value).keys = table.keys ++ [key] := by
  have missing : table.find? key = none := by simpa [contains] using new
  have entries : ∀ entry ∈ table.entries, entry.1 ≠ key := fun entry member same =>
    mem_keys.mp (same ▸ List.mem_map_of_mem member) missing
  rw [keys, insert, insertInto_new entries, List.map_append]
  rfl

theorem mem_of_find? {table : Table α β} {key : α} {value : β}
    (found : table.find? key = some value) : (key, value) ∈ table.entries := by
  rw [find?, Option.map_eq_some_iff] at found
  obtain ⟨entry, here, rfl⟩ := found
  have same : entry.1 = key := by simpa using List.find?_some here
  exact same ▸ List.mem_of_find?_eq_some here

end Table

theorem countP_lt {α : Type} {narrow wide : α → Bool} {items : List α} {item : α}
    (implies : ∀ item, narrow item = true → wide item = true) (member : item ∈ items)
    (inside : wide item = true) (outside : narrow item = false) :
    items.countP narrow < items.countP wide := by
  obtain ⟨before, after, rfl⟩ := List.append_of_mem member
  have first : before.countP narrow ≤ before.countP wide :=
    List.countP_mono_left fun item _ => implies item
  have second : after.countP narrow ≤ after.countP wide :=
    List.countP_mono_left fun item _ => implies item
  simp only [List.countP_append, List.countP_cons, inside, outside]
  simp only [if_true, Bool.false_eq_true, if_false]
  omega

/-! ### Positions that a loop defines -/

namespace Loop

variable {κ : Type} [Scalar κ] {session later : Graph.Session κ}

theorem noInput_of_define {symbol : Symbol} {value : Tensor κ} {done : Unit}
    (ran : (define symbol value).perform session = (.ok done, later)) :
    session.graph.isInput symbol = false ∧ later.graph.inputs = session.graph.inputs := by
  obtain ⟨graph, added, rfl⟩ := define_eq_ok.mp ran
  refine ⟨?_, ?_⟩
  · unfold Graph.addEquation at added
    simp only at added
    split at added
    · cases added
    split at added
    · cases added
    split at added
    · cases added
    · simpa using ‹¬session.graph.isInput symbol = true›
  · rcases Graph.addEquation_ok added with ⟨_, rfl⟩ | ⟨_, _, _, _, rfl⟩ <;> rfl

theorem noInput_of_forM {items : List (Coordinate × Expr κ)} {done : PUnit}
    (ran : (items.forM fun item => define item.1.position (.ofExpr item.2)).perform session =
      (.ok done, later)) : ∀ item ∈ items, session.graph.isInput item.1.position = false := by
  induction items generalizing session with
  | nil => exact List.forall_mem_nil _
  | cons head tail ih =>
      rw [List.forM, Action.bind_eq_ok] at ran
      obtain ⟨_, middle, defined, rest⟩ := ran
      obtain ⟨noInput, same⟩ := noInput_of_define defined
      refine List.forall_mem_cons.mpr ⟨noInput, fun item member => ?_⟩
      rw [Graph.isInput, ← same]
      exact ih rest item member

theorem named_of_defineNew {name : String} {rows columns : Nat} {value : Tensor κ}
    {symbol : Symbol}
    (ran : (defineNew name rows columns value).perform session = (.ok symbol, later)) :
    symbol.name = name ∧ symbol.shape = Shape.ofDimensions rows columns := by
  simp only [defineNew, Action.bind_eq_ok, Action.onGraph_eq_ok, Action.pure_eq_ok] at ran
  obtain ⟨_, _, issued, _, _, _, rfl, rfl⟩ := ran
  rw [Graph.Action.perform_freshSymbol] at issued
  cases issued
  exact ⟨rfl, rfl⟩

/-- What the artifacts of a registration are about, how the symbols are named that relate the rates,
and which positions it has found free. -/
theorem register_eq_ok {name : String} {derivation : Derivation κ} {artifacts : Artifacts κ}
    (ran : (register name derivation).perform session = (.ok artifacts, later)) :
    artifacts.independent = derivation.geometry.independent ∧
      artifacts.dependent = derivation.geometry.dependent ∧
        (artifacts.bvu.name = name ++ "_Bvu" ∧ artifacts.bvu.shape = Shape.ofDimensions
          derivation.geometry.dependent.length derivation.geometry.independent.length) ∧
        (artifacts.bPrime.name = name ++ "_b_prime" ∧ artifacts.bPrime.shape =
          Shape.ofDimensions derivation.geometry.dependent.length 1) ∧
        ∀ item ∈ derivation.geometry.dependent.zip derivation.geometry.solution,
          session.graph.isInput item.1.position = false := by
  unfold register at ran
  simp only [Action.bind_eq_ok, Action.ofAlgebra_eq_ok, Action.pure_eq_ok] at ran
  obtain ⟨_, first, positions, ju, second, madeJu, jv, third, madeJv, inverse, _, ⟨inverted, rfl⟩,
    jvInverse, fourth, madeInverse, ratio, _, ⟨divided, rfl⟩, bvu, fifth, madeRatio, followed, _,
    ⟨follows, rfl⟩, _, sixth, velocities, drift, seventh, madeDrift, compensation, _,
    ⟨compensated, rfl⟩, bPrime, eighth, madePrime, accelerated, _, ⟨accelerates, rfl⟩, total, _,
    ⟨added, rfl⟩, _, last, accelerations, rfl, rfl⟩ := ran
  exact ⟨rfl, rfl, named_of_defineNew madeRatio, named_of_defineNew madePrime,
    noInput_of_forM positions⟩

end Loop

namespace Model

open Mechanism.Model.Action

variable {κ : Type} [Scalar κ] {model : Model κ} {simplifier : Simplifier κ}
  {session before after : Session κ}

/-! ### Layers of loops -/

theorem Fit.eq_of_position (fit : Fit simplifier session) {first second : Coordinate}
    (known : session.model.coordinates.find? first.name = some first)
    (other : session.model.coordinates.find? second.name = some second)
    (same : first.position = second.position) : first = second := by
  by_contra differs
  have names : first.name ≠ second.name := fun name =>
    differs (Option.some.inj (known.symm.trans (name ▸ other)))
  exact fit.apart names known other first.position (by simp [Coordinate.symbols])
    (by simp [Coordinate.symbols, same])

def Precedes (model : Model κ) (earlier loop : String) : Prop :=
  model.loops.keys.idxOf earlier < model.loops.keys.idxOf loop

/-- A coordinate that may drive a loop: it belongs to the model, and it is an input, or an earlier
loop determines it. -/
structure Driver (model : Model κ) (loop : String) (coordinate : Coordinate) : Prop where
  known : model.coordinates.find? coordinate.name = some coordinate
  role : (model.closedBy.find? coordinate.name = none ∧
      model.graph.isInput coordinate.position = true) ∨
    ∃ earlier, model.closedBy.find? coordinate.name = some earlier ∧ model.Precedes earlier loop

/-- Each loop is driven by inputs and by coordinates that earlier loops determine. -/
structure Layered (model : Model κ) : Prop where
  loops : ∀ loop artifacts, model.artifacts? loop = some artifacts → loop ∈ model.loops.keys
  closed : ∀ name loop, model.closedBy.find? name = some loop →
    ∃ artifacts, model.artifacts? loop = some artifacts ∧
      name ∈ artifacts.dependent.map Coordinate.name
  drivers : ∀ loop artifacts, model.artifacts? loop = some artifacts →
    ∀ coordinate ∈ artifacts.independent, model.Driver loop coordinate

theorem find?_foldl_insert (followers : List Coordinate) (loop name : String)
    (closedBy : Table String String) :
    (followers.foldl (fun closedBy coordinate => closedBy.insert coordinate.name loop)
      closedBy).find? name =
      if name ∈ followers.map Coordinate.name then some loop else closedBy.find? name := by
  induction followers generalizing closedBy with
  | nil => rfl
  | cons head tail ih =>
      rw [List.foldl_cons, ih, Table.find?_insert, List.map_cons]
      by_cases later : name ∈ tail.map Coordinate.name
      · simp [later]
      · by_cases here : head.name = name
        · simp [here]
        · simp [later, here, Ne.symm here]

/-- The layers of a model stay while nothing but its graph is taken further and coordinates are
added. -/
theorem Layered.mono (layered : before.model.Layered) (loops : after.model.loops = before.model.loops)
    (closedBy : after.model.closedBy = before.model.closedBy)
    (coordinates : ∀ name coordinate, before.model.coordinates.find? name = some coordinate →
      after.model.coordinates.find? name = some coordinate)
    (later : Graph.Later (graphSession before) (graphSession after)) : after.model.Layered := by
  have artifacts (loop : String) : after.model.artifacts? loop = before.model.artifacts? loop := by
    rw [artifacts?, artifacts?, loops]
  refine ⟨fun loop found known => ?_, fun name loop known => ?_, fun loop found known => ?_⟩
  · rw [artifacts] at known
    rw [loops]
    exact layered.loops loop found known
  · rw [closedBy] at known
    rw [artifacts]
    exact layered.closed name loop known
  · rw [artifacts] at known
    intro coordinate member
    obtain ⟨belongs, role⟩ := layered.drivers loop found known coordinate member
    refine ⟨coordinates _ _ belongs, role.imp ?_ ?_⟩
    · rintro ⟨free, input⟩
      exact ⟨closedBy ▸ free, later.inputs _ input⟩
    · rintro ⟨earlier, determined, precedes⟩
      exact ⟨earlier, closedBy ▸ determined, by rwa [Precedes, loops]⟩

theorem layered_ofSettings (settings : Settings κ) : (ofSettings settings simplifier).Layered :=
  ⟨fun _ _ known => absurd known.symm (Option.some_ne_none _),
    fun _ _ known => absurd known.symm (Option.some_ne_none _),
    fun _ _ known => absurd known.symm (Option.some_ne_none _)⟩

theorem Step.layered (step : Step before after) (tame : simplifier.Tame)
    (fit : Fit simplifier before) (layered : before.model.Layered) : after.model.Layered := by
  have later := (step.advances tame fit).later tame fit.graph
  cases step with
  | work | input | hold | build | project | joint =>
      exact layered.mono rfl rfl (fun _ _ known => known) later
  | declare known =>
      have parts := (declareCoordinate_declares (fun symbol member =>
        (fit.symbols known symbol member).2) tame fit).parts
      refine layered.mono parts.loops parts.closedBy (fun _ _ found => ?_) later
      rw [parts.coordinates, found]
  | @coordinate name new =>
      refine layered.mono rfl rfl (fun other coordinate known => ?_) later
      change (before.model.coordinates.insert _ _).find? other = _
      rw [Table.find?_insert, if_neg, known]
      rintro rfl
      simp [Table.contains, known] at new

/-! ### Following the drivers of a coordinate -/

/-- How many determined coordinates there are up to the loop of the coordinate. -/
def depth (model : Model κ) (coordinate : Coordinate) : Nat :=
  match model.closedBy.find? coordinate.name with
  | none => 0
  | some loop => model.closedBy.entries.countP fun entry =>
      model.loops.keys.idxOf entry.2 ≤ model.loops.keys.idxOf loop

theorem depth_le (model : Model κ) (coordinate : Coordinate) :
    model.depth coordinate ≤ model.closedBy.size := by
  unfold depth
  split
  · exact Nat.zero_le _
  · exact List.countP_le_length

theorem Driver.depth_lt {loop : String} {coordinate driver : Coordinate}
    (drives : model.Driver loop driver) (closed : model.closedBy.find? coordinate.name = some loop) :
    model.depth driver < model.depth coordinate := by
  have member := Table.mem_of_find? closed
  rcases drives.role with ⟨free, _⟩ | ⟨earlier, determined, precedes⟩
  · rw [depth, depth, free, closed]
    exact List.countP_pos_iff.mpr ⟨_, member, by simp⟩
  · rw [depth, depth, determined, closed]
    refine countP_lt (fun entry inside => ?_) member (by simp) (by simpa using show _ < _ from precedes)
    exact decide_eq_true ((of_decide_eq_true inside).trans precedes.le)

theorem depth_pos {coordinate : Coordinate} {loop : String}
    (closed : model.closedBy.find? coordinate.name = some loop) : 0 < model.depth coordinate := by
  rw [depth, closed]
  exact List.countP_pos_iff.mpr ⟨_, Table.mem_of_find? closed, by simp⟩

theorem bind_ne_error {ε α β : Type} {first : Except ε α} {next : α → Except ε β} {error : ε}
    (head : first ≠ .error error) (rest : ∀ value, next value ≠ .error error) :
    first >>= next ≠ .error error := by
  cases first with
  | error other =>
      rintro ⟨⟩
      exact head rfl
  | ok value => exact rest value

theorem foldlM_ne_error {ε α β : Type} {next : β → α → Except ε β} {items : List α} {error : ε}
    (each : ∀ state, ∀ item ∈ items, next state item ≠ .error error) (start : β) :
    items.foldlM next start ≠ .error error := by
  induction items generalizing start with
  | nil => exact nofun
  | cons head tail ih =>
      rw [List.foldlM_cons]
      exact bind_ne_error (each start head List.mem_cons_self) fun state =>
        ih (fun state item member => each state item (.tail _ member)) state

theorem mapError_ne_error {ε ε' α : Type} {result : Except ε α} {change : ε → ε'} {error : ε'}
    (differs : ∀ other, change other ≠ error) : result.mapError change ≠ .error error := by
  cases result with
  | ok value => exact nofun
  | error other =>
      rintro ⟨⟩
      exact differs other rfl

/-- The recursion through the loops comes to an end: it goes no deeper than there are coordinates
that loops determine. -/
theorem Layered.closureRow_ne (layered : model.Layered) (independent : List Coordinate) {fuel : Nat}
    {coordinate : Coordinate} (bound : model.depth coordinate ≤ fuel) (loop : String) :
    model.closureRow independent fuel coordinate ≠ .error (.dynamics (.notRegistered loop)) := by
  induction fuel generalizing coordinate with
  | zero =>
      unfold closureRow
      split
      · split <;> rintro ⟨⟩
      · rename_i closed
        exact absurd bound (not_le.mpr (depth_pos closed))
  | succ fuel ih =>
      unfold closureRow
      split
      · split <;> rintro ⟨⟩
      · rename_i owner closed
        obtain ⟨artifacts, known, _⟩ := layered.closed _ _ closed
        rw [known]
        simp only
        split
        · rintro ⟨⟩
        · have differs (error : AlgebraError) :
              (ModelError.algebra error : ModelError κ) ≠ .dynamics (.notRegistered loop) := by
            rintro ⟨⟩
          refine bind_ne_error (mapError_ne_error differs) fun offset => foldlM_ne_error ?_ _
          rintro row ⟨driver, index⟩ member
          have drives := layered.drivers _ _ known driver (List.fst_mem_of_mem_zipIdx member)
          have shallower := Nat.le_of_lt_succ ((drives.depth_lt closed).trans_le bound)
          refine bind_ne_error (mapError_ne_error differs) fun ratio =>
            bind_ne_error (ih shallower) fun _ => ?_
          rintro ⟨⟩

/-! ### Loops that are closed one after the other -/

variable [ScalarText κ] {request : Loop.Request κ} {descriptor : Loop.Descriptor κ}
  {artifacts : Loop.Artifacts κ}

theorem Closes.links (closes : Closes session request descriptor artifacts)
    (fit : Fit simplifier session) (tame : simplifier.Tame) :
    (∀ coordinate ∈ artifacts.independent,
      session.model.MovesOneOf request.independent coordinate) ∧
    ∀ coordinate ∈ artifacts.dependent,
      session.model.MovesOneOf request.dependent coordinate ∧
        session.model.graph.isInput coordinate.position = false := by
  have same := Loop.Descriptor.eq_of_new closes.made
  have reached := Loop.Descriptor.reached_new closes.made
  obtain ⟨derivation, middle, follows, queried, ran⟩ :=
    Loop.Descriptor.close_eq_ok reached.consistent (by rw [same]; rfl) (fit.graph.fit tame).valid
      closes.closed
  obtain ⟨independent, dependent, _, _, free⟩ := Loop.register_eq_ok ran
  have problem : descriptor.problem = ⟨session.model.chain, request⟩ := by rw [same]
  rw [problem] at follows
  obtain ⟨_, listing⟩ := Loop.Problem.reads_solve follows.solved
  have fits := follows.fits fun joint member => (fit.joints joint member).2.1
  rw [independent, dependent]
  refine ⟨listing.listed.1, fun coordinate member => ⟨listing.listed.2 coordinate member, ?_⟩⟩
  obtain ⟨place, bound, rfl⟩ := List.mem_iff_getElem.mp member
  have within : place < (derivation.geometry.dependent.zip derivation.geometry.solution).length := by
    rwa [List.length_zip, fits.solution, min_self]
  have paired := free _ (List.getElem_mem within)
  rwa [List.getElem_zip, queried.graph] at paired

theorem Closes.notMem_dependent (closes : Closes session request descriptor artifacts)
    (fit : Fit simplifier session) (tame : simplifier.Tame) {coordinate : Coordinate}
    (known : session.model.coordinates.find? coordinate.name = some coordinate)
    (role : session.model.HasRole coordinate) :
    coordinate.name ∉ artifacts.dependent.map Coordinate.name := by
  intro member
  obtain ⟨follower, among, same⟩ := List.mem_map.mp member
  obtain ⟨moves, noInput⟩ := (closes.links fit tame).2 follower among
  have followerKnown := fit.moved moves
  rw [same, known, Option.some.injEq] at followerKnown
  subst followerKnown
  obtain ⟨id, listed, joint, found, rfl⟩ := moves
  rcases role with closed | input
  · exact Bool.false_ne_true ((closes.followers id listed joint found).symm.trans closed)
  · exact Bool.false_ne_true (noInput.symm.trans input)

theorem Closes.artifacts?_enclose (closes : Closes session request descriptor artifacts)
    (fit : Fit simplifier session) (loop : String) :
    (session.enclose (descriptor.close (graphSession session)) artifacts).model.artifacts? loop =
      if loop = request.name then some artifacts else session.model.artifacts? loop := by
  obtain ⟨name_eq, _, derivation, made, registered, _⟩ := closes.settled fit
  obtain ⟨_, enters⟩ := closes.enters
  have same := registered.symm.trans enters.registered
  cases same
  change (session.model.loops.insert _ _).find? loop >>= _ = (if _ then _ else _ >>= _)
  rw [Table.find?_insert, name_eq]
  by_cases here : loop = request.name
  · rw [if_pos here.symm, if_pos here]
    change (descriptor.close (graphSession session)).descriptor.artifacts? = _
    rw [Loop.Descriptor.artifacts?, registered]
  · rw [if_neg (Ne.symm here), if_neg here]

theorem Closes.find?_closedBy (closes : Closes session request descriptor artifacts)
    (fit : Fit simplifier session) (name : String) :
    (session.enclose (descriptor.close (graphSession session)) artifacts).model.closedBy.find? name =
      if name ∈ artifacts.dependent.map Coordinate.name then some request.name
      else session.model.closedBy.find? name := by
  rw [← (closes.settled fit).name_eq]
  exact find?_foldl_insert artifacts.dependent _ name session.model.closedBy

theorem Closes.notMem_keys (closes : Closes session request descriptor artifacts) :
    request.name ∉ session.model.loops.keys := fun member =>
  Table.mem_keys.mp member (by simpa [Table.contains] using closes.new)

theorem Closes.keys_enclose (closes : Closes session request descriptor artifacts)
    (fit : Fit simplifier session) :
    (session.enclose (descriptor.close (graphSession session)) artifacts).model.loops.keys =
      session.model.loops.keys ++ [request.name] := by
  change (session.model.loops.insert _ _).keys = _
  rw [(closes.settled fit).name_eq, Table.keys_insert _ closes.new]

/-- What has driven a loop before still does, since none of it is determined anew. -/
theorem Closes.driver (closes : Closes session request descriptor artifacts)
    (fit : Fit simplifier session) (tame : simplifier.Tame) {loop : String} {coordinate : Coordinate}
    (member : loop ∈ session.model.loops.keys) (drives : session.model.Driver loop coordinate) :
    (session.enclose (descriptor.close (graphSession session)) artifacts).model.Driver loop
      coordinate := by
  have later := ((Move.close closes).advances tame fit).later tame fit.graph
  have untouched := closes.notMem_dependent fit tame drives.known (by
    rcases drives.role with ⟨_, input⟩ | ⟨earlier, determined, _⟩
    · exact .inr input
    · exact .inl (by rw [isClosed, Table.contains, determined]; rfl))
  refine ⟨drives.known, ?_⟩
  rw [closes.find?_closedBy fit, if_neg untouched]
  refine drives.role.imp (And.imp_right (later.inputs _)) ?_
  rintro ⟨earlier, determined, precedes⟩
  refine ⟨earlier, determined, ?_⟩
  have first : earlier ∈ session.model.loops.keys :=
    List.idxOf_lt_length_iff.mp (precedes.trans_le List.idxOf_le_length)
  rwa [Precedes, closes.keys_enclose fit, List.idxOf_append_of_mem first,
    List.idxOf_append_of_mem member]

/-- The loop that is closed is driven by inputs, and by what the loops before it determine. -/
theorem Closes.drives (closes : Closes session request descriptor artifacts)
    (fit : Fit simplifier session) (tame : simplifier.Tame) (layered : session.model.Layered)
    {coordinate : Coordinate} (member : coordinate ∈ artifacts.independent) :
    (session.enclose (descriptor.close (graphSession session)) artifacts).model.Driver request.name
      coordinate := by
  have later := ((Move.close closes).advances tame fit).later tame fit.graph
  have moves := (closes.links fit tame).1 coordinate member
  have belongs := fit.moved moves
  obtain ⟨id, listed, joint, found, rfl⟩ := moves
  have role := closes.drivers id listed joint found
  refine ⟨belongs, ?_⟩
  rw [closes.find?_closedBy fit, if_neg (closes.notMem_dependent fit tame belongs role)]
  cases determined : session.model.closedBy.find? joint.coordinate.name with
  | none =>
      refine .inl ⟨rfl, later.inputs _ (role.resolve_left ?_)⟩
      rw [isClosed, Table.contains, determined]
      exact Bool.false_ne_true
  | some earlier =>
      obtain ⟨_, known, _⟩ := layered.closed _ _ determined
      have first := layered.loops _ _ known
      refine .inr ⟨earlier, rfl, ?_⟩
      rw [Precedes, closes.keys_enclose fit, List.idxOf_append_of_mem first,
        List.idxOf_append_of_notMem closes.notMem_keys]
      exact (List.idxOf_lt_length_iff.mpr first).trans_le (Nat.le_add_right _ _)

theorem Closes.layered (closes : Closes session request descriptor artifacts)
    (fit : Fit simplifier session) (tame : simplifier.Tame) (layered : session.model.Layered) :
    (session.enclose (descriptor.close (graphSession session)) artifacts).model.Layered := by
  have known_of := closes.artifacts?_enclose fit
  refine ⟨fun loop found known => ?_, fun name loop known => ?_, fun loop found known => ?_⟩
  · rw [known_of] at known
    rw [closes.keys_enclose fit, List.mem_append, List.mem_singleton]
    split at known
    · exact .inr ‹_›
    · exact .inl (layered.loops loop found known)
  · rw [closes.find?_closedBy fit] at known
    split at known
    · rename_i member
      cases known
      exact ⟨artifacts, by rw [known_of, if_pos rfl], member⟩
    · obtain ⟨found, known, member⟩ := layered.closed name loop known
      have old : loop ≠ request.name := by
        rintro rfl
        exact closes.notMem_keys (layered.loops _ _ known)
      exact ⟨found, by rw [known_of, if_neg old, known], member⟩
  · rw [known_of] at known
    intro coordinate member
    split at known
    · rename_i same
      cases known
      exact same ▸ closes.drives fit tame layered member
    · exact closes.driver fit tame (layered.loops loop found known)
        (layered.drivers loop found known coordinate member)

theorem Move.layered (move : Move before after) (tame : simplifier.Tame)
    (fit : Fit simplifier before) (layered : before.model.Layered) : after.model.Layered := by
  have later := (move.advances tame fit).later tame fit.graph
  cases move with
  | step step => exact step.layered tame fit layered
  | close closes => exact closes.layered fit tame layered
  | check => exact layered.mono rfl rfl (fun _ _ known => known) later

theorem Moves.layered (moves : Moves before after) (tame : simplifier.Tame)
    (fit : Fit simplifier before) (layered : before.model.Layered) : after.model.Layered := by
  induction moves with
  | refl => exact layered
  | tail earlier last ih => exact last.layered tame (Moves.fit earlier tame fit) ih

theorem ReachableBy.layered {allowed : Command κ → Prop}
    (reachable : ReachableBy allowed simplifier session) (tame : simplifier.Tame) :
    session.model.Layered := by
  induction reachable with
  | start supply made =>
      obtain ⟨rfl, _⟩ := new_ok made
      exact layered_ofSettings _
  | step command earlier admissible _ ih =>
      have fit := earlier.fit tame
      rcases command.moves tame fit admissible with moves | ⟨kept, middle, _, moves, same⟩
      · exact moves.layered tame fit ih
      · have advances := advances_give middle (.reduce kept) trivial
        rw [same]
        exact (moves.layered tame fit ih).mono rfl rfl (fun _ _ known => known)
          (advances.later tame (moves.fit tame fit).graph)

/-! ### A loop that another loop drives -/

namespace Coupled

open Mechanism.Loop.Sample (along regular_along)

def u : Coordinate := (Coordinate.fresh ⟨3⟩ "u").1

def v : Coordinate := (Coordinate.fresh ⟨6⟩ "v").1

def w : Coordinate := (Coordinate.fresh ⟨9⟩ "w").1

noncomputable def moved (name : String) (coordinate : Coordinate) : Joint RealNumber :=
  ⟨name, .revolute .z, coordinate, none, along 1⟩

noncomputable def settings : Settings RealNumber :=
  ⟨.standard, { Loop.Settings.standard with checkSingularity := false }⟩

noncomputable def linkage : Session RealNumber :=
  (Command.joint (moved "cam" w)).apply ((Command.joint (moved "rocker" v)).apply
    ((Command.joint (moved "crank" u)).apply ((Command.coordinate "w").apply
      ((Command.coordinate "v").apply ((Command.coordinate "u").apply
        ((Command.input "h" (.vector 2) (.only .parameter)).apply
          ((Command.input "M" (.matrix 2 2) (.only .parameter)).apply
            ⟨ofSettings settings Simplifier.keep, ⟨1⟩⟩)))))))

noncomputable def first : Loop.Request RealNumber :=
  ⟨"first", .explicitJoint (.atom u.atom), ⟨"a", some ⟨0⟩, along 0⟩, ⟨"b", some ⟨1⟩, along 0⟩,
    [⟨0⟩], [⟨1⟩]⟩

noncomputable def second : Loop.Request RealNumber :=
  ⟨"second", .explicitJoint (.call .sin (.atom v.atom)), ⟨"b", some ⟨1⟩, along 0⟩,
    ⟨"c", some ⟨2⟩, along 0⟩, [⟨1⟩], [⟨2⟩]⟩

theorem regular_settings : settings.loops.fault? = none := standard_regular

theorem new_settings : new settings (Simplifier.keep : Simplifier RealNumber) =
    .ok (ofSettings settings Simplifier.keep) := by
  have graph : settings.graph.fault? = none := rfl
  have valid : settings.fault? = none := by
    rw [Settings.fault?, graph, regular_settings]
  rw [new, valid]

theorem reachable_linkage : Reachable Simplifier.keep linkage :=
  .step _ (.step _ (.step _ (.step _ (.step _ (.step _ (.step _ (.step _ (.start ⟨1⟩ new_settings)
    trivial trivial) trivial trivial) trivial trivial) trivial trivial) trivial trivial)
      (regular_along _ _) trivial) (regular_along _ _) trivial)
        (regular_along _ _) trivial

noncomputable def declared : Session RealNumber := (([u].forM declareDriver).perform linkage).2

theorem declares : ([u].forM declareDriver).perform linkage = (.ok ⟨⟩, declared) := rfl

theorem new_first (chain : Chain RealNumber) : Loop.Descriptor.new first chain settings.loops =
    .ok ⟨⟨chain, first⟩, settings.loops, .unresolved⟩ := by
  rw [Loop.Descriptor.new, regular_settings]
  rfl

theorem new_second (chain : Chain RealNumber) : Loop.Descriptor.new second chain settings.loops =
    .ok ⟨⟨chain, second⟩, settings.loops, .unresolved⟩ := by
  rw [Loop.Descriptor.new, regular_settings]
  rfl

theorem solved_first : (⟨linkage.model.chain, first⟩ : Loop.Problem RealNumber).solve =
    .ok (Loop.Problem.coupled [u] v (.atom u.atom)) := by
  have apart : (Expr.atom u.atom : Expr RealNumber).symbols.contains v.position = false := by
    with_unfolding_all decide
  change (if (Expr.atom u.atom : Expr RealNumber).symbols.contains v.position then _ else _) = _
  rw [apart, if_neg Bool.false_ne_true]
  rfl

noncomputable def loopOf (session : Session RealNumber) (request : Loop.Request RealNumber) :
    Loop.Descriptor RealNumber :=
  ⟨⟨session.model.chain, request⟩, settings.loops, .unresolved⟩

/-- What a loop of this name has put between two coordinates. -/
structure Links (loop : String) (driver follower : Coordinate)
    (artifacts : Loop.Artifacts RealNumber) : Prop where
  independent : artifacts.independent = [driver]
  dependent : artifacts.dependent = [follower]
  bvu : artifacts.bvu.name = loop ++ "_Bvu" ∧ artifacts.bvu.shape = .scalar
  bPrime : artifacts.bPrime.name = loop ++ "_b_prime" ∧ artifacts.bPrime.shape = .scalar

section

variable {session later : Session RealNumber} {request : Loop.Request RealNumber}
  {driver follower : Coordinate} {value : Expr RealNumber}

theorem consistent : (loopOf later request).Consistent :=
  (Loop.Descriptor.Reached.new ⟨later.model.chain, request⟩ settings.loops).consistent

/-- A loop over a coordinate of which nothing is known is closed, and the model knows of it then. -/
theorem registers (fit : Fit Simplifier.keep later)
    (arranged : (arrangeLoop request).perform session = (.ok (loopOf later request), later))
    (solved : (loopOf later request).problem.solve =
      .ok (Loop.Problem.coupled [driver] follower value))
    (vacant : ∀ symbol ∈ follower.symbols, later.model.graph.Vacant symbol)
    (issued : ∀ symbol ∈ follower.symbols, symbol.number < later.supply.next)
    (distinct : follower.symbols.Nodup)
    (scalar : ∀ symbol ∈ follower.symbols, symbol.shape = .scalar) :
    ∃ artifacts after, (registerLoop request).perform session = (.ok artifacts, after) ∧
      after = later.enclose ((loopOf later request).close (graphSession later)) artifacts ∧
      Links request.name driver follower artifacts ∧
      after.model.closedBy = later.model.closedBy.insert follower.name request.name ∧
      ∃ entered : Loop.Descriptor RealNumber, entered.artifacts? = some artifacts ∧
        after.model.loops = later.model.loops.insert request.name entered := by
  have valid := (fit.graph.fit Simplifier.keep_tame).valid
  obtain ⟨artifacts, outcome⟩ : ∃ artifacts,
      ((loopOf later request).close (graphSession later)).outcome = .ok artifacts :=
    Loop.Descriptor.close_succeeds rfl solved ⟨rfl, rfl⟩ rfl (by decide : 1 ≤ Tensor.largestSquare)
      (Loop.room_of_valid valid vacant issued) distinct scalar
  obtain ⟨derivation, middle, follows, _, ran⟩ :=
    Loop.Descriptor.close_eq_ok consistent rfl valid outcome
  obtain ⟨independent, dependent, bvu, bPrime, _⟩ := Loop.register_eq_ok ran
  have same := Except.ok.inj (follows.solved.symm.trans solved)
  rw [same] at independent dependent bvu bPrime
  obtain ⟨_, enters⟩ := Loop.enters_of_close consistent rfl outcome
  have name : ((loopOf later request).close (graphSession later)).descriptor.name =
    request.name := enters.name
  refine ⟨artifacts, _, ?_, rfl, ⟨independent, dependent, bvu, bPrime⟩, ?_,
    ((loopOf later request).close (graphSession later)).descriptor, ?_, ?_⟩
  · rw [registerLoop_eq, perform_bind, arranged]
    simp only [perform_closeLoop, outcome]
  · change artifacts.dependent.foldl _ later.model.closedBy = _
    rw [dependent, name]
    rfl
  · rw [Loop.Descriptor.artifacts?, enters.registered]
  · exact congrArg (later.model.loops.insert · _) name

theorem vacant_enclose (fit : Fit Simplifier.keep later)
    (solved : (loopOf later request).problem.solve =
      .ok (Loop.Problem.coupled [driver] follower value)) {symbol : Symbol}
    (vacant : later.model.graph.Vacant symbol) (issued : symbol.number < later.supply.next)
    (apart : symbol ∉ follower.symbols) (artifacts : Loop.Artifacts RealNumber) :
    let after := later.enclose ((loopOf later request).close (graphSession later)) artifacts
    after.model.graph.Vacant symbol ∧ symbol.number < after.supply.next := by
  have room := Loop.room_of_valid (fit.graph.fit Simplifier.keep_tame).valid
    (List.forall_mem_singleton.mpr vacant) (List.forall_mem_singleton.mpr issued)
  refine ((Loop.lasting_vacant symbol).close (fun derivation derived other member same => ?_)
    ⟨room.indexed, vacant, issued⟩).2
  have follows := (Loop.Descriptor.derives_derive consistent).follows derivation derived
  rw [Except.ok.inj (follows.solved.symm.trans solved)] at member
  exact apart (same ▸ member)

end

theorem arranged_first : (arrangeLoop first).perform linkage =
    (.ok (loopOf declared first), declared) := by
  have driving : (jointCoordinates first.independent).perform linkage = (.ok [u], linkage) := rfl
  have following : (jointCoordinates first.dependent).perform linkage = (.ok [v], linkage) := rfl
  rw [perform_arrangeLoop (by decide) driving following rfl declares]
  change (ofLoop (Loop.Descriptor.new first linkage.model.chain settings.loops)).perform
    declared = _
  rw [new_first]
  rfl

theorem fit_linkage : Fit Simplifier.keep linkage := reachable_linkage.fit Simplifier.keep_tame

theorem fit_declared : Fit Simplifier.keep declared :=
  (prepares_declareDrivers (fun _ member => List.mem_singleton.mp member ▸ rfl)
    Simplifier.keep_tame fit_linkage).1.fit Simplifier.keep_tame fit_linkage

noncomputable def inputs : Table Symbol CategorySet :=
  ⟨[(⟨1, "M", .matrix 2 2, .real⟩, .only .parameter),
    (⟨2, "h", .vector 2, .real⟩, .only .parameter), (u.position, .only .state),
    (u.velocity, .only .state), (u.acceleration, .only .derivativeOfState)]⟩

theorem graph_eq : declared.model.graph =
    { Graph.ofSettings .standard Simplifier.keep with inputs := inputs, built := false } := rfl

theorem tidy_declared : declared.model.graph.Tidy := by
  rw [graph_eq]
  exact ⟨nofun, fun _ => rfl⟩

theorem vacant_declared {symbol : Symbol} (late : 6 ≤ symbol.number) :
    declared.model.graph.Vacant symbol := by
  rw [graph_eq]
  refine ⟨rfl, ?_⟩
  have missing : inputs.entries.find? (fun entry => entry.1 = symbol) = none := by
    rw [List.find?_eq_none]
    intro entry member same
    have early : ∀ entry ∈ inputs.entries, entry.1.number < 6 := by decide
    exact absurd (of_decide_eq_true same ▸ early entry member) (not_lt.mpr late)
  rw [Graph.isInput, Table.contains, Table.find?, missing]
  rfl

noncomputable def half : Session RealNumber := (Command.close first).apply linkage

theorem half_eq : ∃ artifacts, Links "first" u v artifacts ∧
    half = declared.enclose ((loopOf declared first).close (graphSession declared)) artifacts ∧
    half.model.closedBy = ⟨[("v", "first")]⟩ ∧
    ∃ entered : Loop.Descriptor RealNumber, entered.artifacts? = some artifacts ∧
      half.model.loops = ⟨[("first", entered)]⟩ := by
  have late : ∀ symbol ∈ v.symbols, 6 ≤ symbol.number := by decide
  obtain ⟨artifacts, after, registered, same, links, closedBy, entered, known, loops⟩ :=
    registers fit_declared arranged_first solved_first
      (fun symbol member => vacant_declared (late symbol member)) (by decide) (by decide) (by decide)
  have here : half = after := by
    rw [half, Command.apply, Command.action, ignore_later, registered]
  rw [here]
  exact ⟨artifacts, links, same, closedBy, entered, known, loops⟩

theorem regular_first : first.Regular linkage.supply.next where
  frameA := regular_along _ _
  frameB := regular_along _ _
  expression := by
    rintro _ ⟨⟩ atom occurs
    obtain rfl := List.mem_singleton.mp occurs
    exact ⟨Nat.zero_lt_one, (by decide : 3 < 12)⟩

theorem reachable_half : Reachable Simplifier.keep half :=
  .step (.close first) reachable_linkage regular_first trivial

theorem fit_half : Fit Simplifier.keep half := reachable_half.fit Simplifier.keep_tame

theorem vacant_half : ∀ symbol ∈ w.symbols,
    half.model.graph.Vacant symbol ∧ symbol.number < half.supply.next := by
  obtain ⟨artifacts, _, same, _⟩ := half_eq
  rw [same]
  intro symbol member
  have places : 9 ≤ symbol.number ∧ symbol.number < 12 ∧ symbol ∉ v.symbols := by
    revert symbol
    decide
  exact vacant_enclose fit_declared solved_first (vacant_declared (le_trans (by decide) places.1))
    places.2.1 places.2.2 artifacts

theorem supply_half : 12 ≤ half.supply.next := (vacant_half w.acceleration (by decide)).2

theorem chain_half : half.model.chain = linkage.model.chain := by
  obtain ⟨_, _, same, _⟩ := half_eq
  rw [same]
  rfl

theorem arranged_second : (arrangeLoop second).perform half =
    (.ok (loopOf half second), half) := by
  have free := (vacant_half w.position (List.mem_cons_self ..)).1.noInput
  obtain ⟨artifacts, _, same, closedBy, entered, _, loops⟩ := half_eq
  have own : half.model.settings.loops = settings.loops := by
    rw [same]
    rfl
  have new : half.model.loops.contains second.name = false := by
    rw [loops]
    rfl
  have driving : (jointCoordinates second.independent).perform half = (.ok [v], half) := by
    rw [jointCoordinates, perform_bind, perform_getModel]
    simp only [chain_half]
    rfl
  have following : (jointCoordinates second.dependent).perform half = (.ok [w], half) := by
    rw [jointCoordinates, perform_bind, perform_getModel]
    simp only [chain_half]
    rfl
  have noConflict : half.model.conflict? w = none := by
    rw [conflict?, closedBy, free]
    rfl
  have checked : ([w].forM checkFollower).perform half = (.ok ⟨⟩, half) := by
    rw [List.forM, perform_bind, checkFollower, perform_bind, perform_getModel]
    simp only [noConflict]
    rfl
  have follows : half.model.isClosed v = true := by
    rw [isClosed, closedBy]
    rfl
  have ran : ([v].forM declareDriver).perform half = (.ok ⟨⟩, half) := by
    rw [List.forM, perform_bind, declareDriver, perform_bind, perform_getModel]
    simp only [follows]
    rfl
  rw [perform_arrangeLoop new driving following checked ran, own, new_second]
  rfl

theorem solved_second : (loopOf half second).problem.solve =
    .ok (Loop.Problem.coupled [v] w (.call .sin (.atom v.atom))) := by
  have apart : (Expr.call .sin (.atom v.atom) : Expr RealNumber).symbols.contains w.position =
      false := by
    with_unfolding_all decide
  rw [loopOf, chain_half]
  change (if (Expr.call .sin (.atom v.atom) : Expr RealNumber).symbols.contains w.position then _
    else _) = _
  rw [apart, if_neg Bool.false_ne_true]
  rfl

/-- The crank drives the rocker, and the rocker the cam. -/
noncomputable def closed : Session RealNumber := (Command.close second).apply half

theorem regular_second : second.Regular half.supply.next where
  frameA := regular_along _ _
  frameB := regular_along _ _
  expression := by
    rintro _ ⟨⟩ atom occurs
    obtain rfl := List.mem_singleton.mp occurs
    exact ⟨Nat.zero_lt_one, (by decide : 6 < 12).trans_le supply_half⟩

theorem reachable_closed : Reachable Simplifier.keep closed :=
  .step (.close second) reachable_half regular_second trivial

theorem tidy_enclose {session : Session RealNumber} (tidy : session.model.graph.Tidy)
    (request : Loop.Request RealNumber) (artifacts : Loop.Artifacts RealNumber) :
    (session.enclose ((loopOf session request).close (graphSession session))
      artifacts).model.graph.Tidy :=
  ((Loop.lasting_tidy session.model.graph.inputs).close (fun _ _ _ _ => trivial) ⟨tidy, rfl⟩).1

theorem closed_eq : ∃ one other, Links "first" u v one ∧ Links "second" v w other ∧
    closed.model.closedBy = ⟨[("v", "first"), ("w", "second")]⟩ ∧
    closed.model.artifacts? "first" = some one ∧ closed.model.artifacts? "second" = some other ∧
    closed.model.coordinates = linkage.model.coordinates ∧ closed.model.dynamics = none ∧
    closed.model.graph.Tidy ∧ 12 ≤ closed.supply.next := by
  obtain ⟨one, links, same, closedBy, entered, known, loops⟩ := half_eq
  obtain ⟨other, after, registered, next, linked, closing, added, last, table⟩ :=
    registers fit_half arranged_second solved_second
      (fun symbol member => (vacant_half symbol member).1)
      (fun symbol member => (vacant_half symbol member).2) (by decide) (by decide)
  have here : closed = after := by
    rw [closed, Command.apply, Command.action, ignore_later, registered]
  rw [closedBy] at closing
  rw [loops] at table
  refine ⟨one, other, links, linked, here ▸ closing, ?_, ?_, ?_, ?_, ?_, ?_⟩
  · rw [here, artifacts?, table]
    exact known
  · rw [here, artifacts?, table]
    exact last
  · rw [here, next, same]
    rfl
  · rw [here, next, same]
    rfl
  · rw [here, next]
    refine tidy_enclose ?_ _ _
    rw [same]
    exact tidy_enclose tidy_declared _ _
  · rw [here, next]
    exact supply_half.trans ((loopOf half second).extends_close (graphSession half)).1

end Coupled

end Model

end Mechanism
