import Mechanism.Proofs.Loop.Progress
import Mechanism.Proofs.Tensor.Determinant

/-!
What is accepted. A derivation whose dependent coordinates are new to the graph is registered, so
that a loop over new coordinates is closed.
-/

namespace Mechanism

variable {κ : Type} [Scalar κ]

namespace Tensor

/-- The tensor has the dimensions, and an entry for every place. -/
structure Sized (rows columns : Nat) (tensor : Tensor κ) : Prop where
  shape_eq : tensor.shape = Shape.ofDimensions rows columns
  length_eq : tensor.entries.length = rows * columns

variable {m n k : Nat} {left right : Tensor κ}

theorem sized_ofSymbol {symbol : Symbol} (shape : symbol.shape = Shape.ofDimensions m n) :
    (ofSymbol symbol : Tensor κ).Sized m n := by
  refine ⟨shape, ?_⟩
  rw [length_ofSymbol, shape, Shape.size_ofDimensions]

theorem sized_ofColumn (entries : List (Expr κ)) : (ofColumn entries).Sized entries.length 1 :=
  ⟨rfl, (Nat.mul_one _).symm⟩

theorem Sized.map (sized : left.Sized m n) (change : Expr κ → Expr κ) :
    (left.map change).Sized m n :=
  ⟨sized.shape_eq, by rw [Tensor.map, List.length_map, sized.length_eq]⟩

theorem Sized.add (first : left.Sized m n) (second : right.Sized m n) :
    ∃ sum, left.add right = .ok sum ∧ sum.Sized m n := by
  refine ⟨⟨left.shape, List.zipWith (· + ·) left.entries right.entries⟩, ?_, first.shape_eq, ?_⟩
  · rw [Tensor.add, zipWith, if_pos (first.shape_eq.trans second.shape_eq.symm)]
  · rw [List.length_zipWith, first.length_eq, second.length_eq, Nat.min_self]

theorem Sized.transpose (sized : left.Sized m n) : left.transpose.Sized n m := by
  have rows : left.rows = m := by rw [Tensor.rows, sized.shape_eq, Shape.rows_ofDimensions]
  have columns : left.columns = n := by
    rw [Tensor.columns, sized.shape_eq, Shape.columns_ofDimensions]
  refine ⟨?_, ?_⟩
  · rw [Tensor.transpose, shape_build, rows, columns]
  · rw [Tensor.transpose, length_build, rows, columns]

theorem Sized.matmul (first : left.Sized m k) (second : right.Sized k n) :
    ∃ product, left.matmul right = .ok product ∧ product.Sized m n := by
  unfold Tensor.matmul
  split
  · rename_i scalar
    obtain ⟨rfl, rfl⟩ := Shape.ofDimensions_eq_scalar.mp (first.shape_eq ▸ eq_of_beq scalar)
    exact ⟨_, rfl, second.map _⟩
  split
  · rename_i _ scalar
    obtain ⟨rfl, rfl⟩ := Shape.ofDimensions_eq_scalar.mp (second.shape_eq ▸ eq_of_beq scalar)
    exact ⟨_, rfl, first.map _⟩
  have rows : left.rows = m := by rw [Tensor.rows, first.shape_eq, Shape.rows_ofDimensions]
  have inner : left.columns = k := by rw [Tensor.columns, first.shape_eq, Shape.columns_ofDimensions]
  have middle : right.rows = k := by rw [Tensor.rows, second.shape_eq, Shape.rows_ofDimensions]
  have columns : right.columns = n := by
    rw [Tensor.columns, second.shape_eq, Shape.columns_ofDimensions]
  rw [if_neg (by rw [inner, middle, ne_eq, not_not])]
  refine ⟨_, rfl, ?_, ?_⟩
  · rw [multiply, shape_build, rows, columns]
  · rw [multiply, length_build, rows, columns]

theorem Sized.entryAt (sized : left.Sized m 1) {index : Nat} (bound : index < m) :
    ∃ entry, left.entryAt index = .ok entry := by
  have inside : index < left.entries.length := by rwa [sized.length_eq, Nat.mul_one]
  refine ⟨left.entries[index], entryAt_eq_ok.mpr ⟨?_, List.getElem?_eq_getElem inside⟩⟩
  rwa [sized.shape_eq, Shape.size_ofDimensions, Nat.mul_one]

variable (κ) in
/-- A square of unknowns can be inverted, unless it is too large. -/
def InvertsUnknowns : Prop :=
  ∀ (symbol : Symbol) (size : Nat), symbol.shape = Shape.ofDimensions size size →
    size ≤ largestSquare → ∃ inverse, (ofSymbol symbol : Tensor κ).inverse = .ok inverse

theorem shape_inverse {inverse : Tensor κ} (inverted : left.inverse = .ok inverse)
    (rows : left.rows = m) : inverse.shape = Shape.ofDimensions m m := by
  rw [inverse_eq_ok inverted rows, shape_build]

theorem invertsUnknowns [Exact κ] : InvertsUnknowns κ := by
  intro symbol m shape bound
  have rows : (ofSymbol symbol : Tensor κ).rows = m :=
    (congrArg Shape.rows shape).trans (Shape.rows_ofDimensions m m)
  have columns : (ofSymbol symbol : Tensor κ).columns = m :=
    (congrArg Shape.columns shape).trans (Shape.columns_ofDimensions m m)
  have square : squareSize .inverse (ofSymbol symbol : Tensor κ) = .ok m := by
    rw [squareSize, rows, columns, if_neg (by simp), if_neg (by omega)]
  let unit : Environment := fun _ index => some (if index / m = index % m then 1 else 0)
  have holds : (ofSymbol symbol : Tensor κ).Holds unit.read (1 : Matrix (Fin m) (Fin m) ℝ) := by
    refine holds_ofSymbol shape fun row column => congrArg some ?_
    have quotient : (row * m + column) / m = row.val := by
      rw [Nat.mul_comm, Nat.mul_add_div row.pos, Nat.div_eq_of_lt column.isLt, Nat.add_zero]
    have remainder : (row * m + column) % m = column.val := by
      rw [Nat.mul_comm, Nat.mul_add_mod, Nat.mod_eq_of_lt column.isLt]
    rw [quotient, remainder, Matrix.one_apply]
    exact if_congr Fin.ext_iff.symm rfl rfl
  have one := holds.takes_determinant
  rw [Matrix.det_one] at one
  have regular : (minor (ofSymbol symbol : Tensor κ).support.entry (List.range m)
      (List.range m)).isZero = false := by
    rw [← Bool.not_eq_true]
    exact fun zero => one_ne_zero (one.unique (Expr.isZero_takes zero))
  cases made : (ofSymbol symbol : Tensor κ).inverse with
  | ok inverse => exact ⟨inverse, rfl⟩
  | error error => simp [inverse_eq, square, regular, pure, Except.pure, bind, Except.bind] at made

end Tensor

namespace Graph

/-- The symbols that have ever been defined, in the order of registration. -/
def registered (graph : Graph κ) : List Symbol := graph.nodes.map Node.symbol

variable {graph after : Graph κ} {symbol other : Symbol} {value : Tensor κ} {name : String}
  {categories : CategorySet}

structure Vacant (graph : Graph κ) (symbol : Symbol) : Prop where
  undefined : graph.isDefined symbol = false
  noInput : graph.isInput symbol = false

def Indexed (graph : Graph κ) : Prop :=
  ∀ symbol index, graph.definitions.find? symbol = some index → index < graph.nodes.length

theorem Indexed.nodeOf?_appendNode (indexed : graph.Indexed) {node : Node κ}
    (differs : node.symbol ≠ other) : (graph.appendNode node).nodeOf? other = graph.nodeOf? other := by
  rw [nodeOf?_eq, nodeOf?_eq, find?_definitions_appendNode, if_neg differs]
  cases found : graph.definitions.find? other with
  | none => rfl
  | some index =>
      have bound := indexed other index found
      rw [Option.bind_some, Option.bind_some, node?, node?, Graph.appendNode,
        List.getElem?_append_left bound]

theorem Indexed.vacant_entered (indexed : graph.Indexed) {node : Node κ}
    (differs : node.symbol ≠ other) (vacant : graph.Vacant other) :
    ((graph.entered node).invalidate symbol).Vacant other := by
  suffices undefined : (graph.appendNode node).isDefined other = false from
    ⟨undefined, vacant.noInput⟩
  rw [isDefined_eq, indexed.nodeOf?_appendNode differs, ← isDefined_eq, vacant.undefined]

theorem Indexed.appendNode (indexed : graph.Indexed) (node : Node κ) :
    (graph.appendNode node).Indexed := by
  intro symbol index found
  have length : (graph.appendNode node).nodes.length = graph.nodes.length + 1 := by
    simp [Graph.appendNode]
  rw [find?_definitions_appendNode] at found
  split at found
  · cases found
    omega
  · have bound := indexed symbol index found
    omega

theorem addEquation_vacant (nonempty : categories.isEmpty = false)
    (shape : value.shape = symbol.shape) (vacant : graph.Vacant symbol) :
    ∃ node : Node κ, node.symbol = symbol ∧ node.removed = false ∧
      addEquation name symbol value categories graph =
        .ok ((graph.entered node).invalidate symbol) := by
  have missing : graph.nodeOf? symbol = none := by
    have undefined := vacant.undefined
    rwa [isDefined_eq, Option.isSome_eq_false_iff, Option.isNone_iff_eq_none] at undefined
  refine ⟨Node.ofEquation ⟨name, symbol, graph.resolveAliases value, categories⟩ value, rfl, rfl, ?_⟩
  rw [nodeOf?] at missing
  unfold addEquation
  rw [if_neg (by simp [nonempty]), if_neg (by simp [shape_resolveAliases, shape]),
    if_neg (by simp [vacant.noInput]), missing]
  rfl

end Graph

namespace Loop

def Succeeds {α : Type} (action : Action κ α) (session : Graph.Session κ)
    (property : α → Graph.Session κ → Prop) : Prop :=
  ∃ value later, action.perform session = (.ok value, later) ∧ property value later

namespace Succeeds

variable {α β : Type} {action : Action κ β} {next : β → Action κ α} {session : Graph.Session κ}
  {property : α → Graph.Session κ → Prop}

theorem bind {known : β → Graph.Session κ → Prop} (first : Succeeds action session known)
    (rest : ∀ value later, known value later → Succeeds (next value) later property) :
    Succeeds (action >>= next) session property := by
  obtain ⟨value, middle, ran, holds⟩ := first
  obtain ⟨result, later, final, done⟩ := rest value middle holds
  exact ⟨result, later, Action.bind_eq_ok.mpr ⟨value, middle, ran, final⟩, done⟩

theorem pure {value : α} (holds : property value session) :
    Succeeds (Pure.pure value : Action κ α) session property :=
  ⟨value, session, Action.pure_eq_ok.mpr ⟨rfl, rfl⟩, holds⟩

theorem mono {action : Action κ α} {weaker : α → Graph.Session κ → Prop}
    (succeeds : Succeeds action session property)
    (le : ∀ value later, property value later → weaker value later) :
    Succeeds action session weaker := by
  obtain ⟨value, later, ran, holds⟩ := succeeds
  exact ⟨value, later, ran, le value later holds⟩

theorem ofAlgebra {result : Except AlgebraError α} {value : α} (made : result = .ok value) :
    Succeeds (Action.ofAlgebra result : Action κ α) session
      fun found later => value = found ∧ session = later :=
  ⟨value, session, Action.ofAlgebra_eq_ok.mpr ⟨made, rfl⟩, rfl, rfl⟩

end Succeeds

/-- The given symbols, which have been issued, and all that will be issued can be defined. -/
structure Room (session : Graph.Session κ) (symbols : List Symbol) : Prop where
  indexed : session.graph.Indexed
  fresh : ∀ symbol : Symbol, session.supply.next ≤ symbol.number → session.graph.Vacant symbol
  vacant : ∀ symbol ∈ symbols, session.graph.Vacant symbol
  issued : ∀ symbol ∈ symbols, symbol.number < session.supply.next

/-- The symbols are defined one after the other, and nothing else is. -/
def Adds (symbols : List Symbol) (before after : Graph.Session κ) : Prop :=
  after.graph.registered = before.graph.registered ++ symbols

theorem Adds.refl (session : Graph.Session κ) : Adds [] session session :=
  (List.append_nil _).symm

theorem Adds.trans {first second : List Symbol} {before middle after : Graph.Session κ}
    (left : Adds first before middle) (right : Adds second middle after) :
    Adds (first ++ second) before after := by
  rw [Adds, right, left, List.append_assoc]

variable {session : Graph.Session κ} {symbol : Symbol} {symbols : List Symbol} {value : Tensor κ}

theorem Room.define (room : Room session (symbol :: symbols)) (distinct : symbol ∉ symbols)
    (shape : value.shape = symbol.shape) :
    Succeeds (define symbol value) session
      fun _ later => Room later symbols ∧ Adds [symbol] session later := by
  obtain ⟨node, same, _, added⟩ := Graph.addEquation_vacant
    (by decide : (CategorySet.only .loopInternal).isEmpty = false) shape
    (room.vacant symbol List.mem_cons_self)
  refine ⟨(), _, define_eq_ok.mpr ⟨_, added, rfl⟩, ⟨?_, ?_, ?_, ?_⟩, ?_⟩
  · exact room.indexed.appendNode node
  · intro other fresh
    have issued := room.issued symbol List.mem_cons_self
    have differs : node.symbol ≠ other := by
      rintro rfl
      exact absurd (same ▸ issued) (not_lt.mpr fresh)
    exact room.indexed.vacant_entered differs (room.fresh other fresh)
  · intro other member
    have differs : node.symbol ≠ other := by
      rintro rfl
      exact distinct (same ▸ member)
    exact room.indexed.vacant_entered differs (room.vacant other (List.mem_cons_of_mem _ member))
  · exact fun other member => room.issued other (List.mem_cons_of_mem _ member)
  · rw [Adds, ← same]
    exact List.map_append

theorem Room.defineNew (room : Room session symbols) {rows columns : Nat}
    (shape : value.shape = Shape.ofDimensions rows columns) (name : String) :
    Succeeds (defineNew name rows columns value) session fun symbol later =>
      Room later symbols ∧ symbol.shape = Shape.ofDimensions rows columns ∧
        Adds [symbol] session later := by
  have issue : Succeeds (Action.onGraph
      (Graph.Action.freshSymbol name (Shape.ofDimensions rows columns)) : Action κ Symbol) session
      fun symbol later => Room later (symbol :: symbols) ∧ symbol ∉ symbols ∧
        symbol.shape = Shape.ofDimensions rows columns ∧ later.graph = session.graph := by
    refine ⟨_, _, Action.onGraph_eq_ok.mpr (Graph.Action.perform_freshSymbol session name _),
      ⟨room.indexed, ?_, ?_, ?_⟩, ?_, rfl, rfl⟩
    · exact fun other fresh => room.fresh other ((Nat.le_succ _).trans fresh)
    · exact List.forall_mem_cons.mpr ⟨room.fresh _ le_rfl, room.vacant⟩
    · exact List.forall_mem_cons.mpr ⟨Nat.lt_succ_self _, fun other member =>
        (room.issued other member).trans (Nat.lt_succ_self _)⟩
    · exact fun member => lt_irrefl _ (room.issued _ member)
  refine issue.bind fun symbol later ⟨room, distinct, same, graph⟩ => ?_
  exact (room.define distinct (shape.trans same.symm)).bind fun _ later ⟨room, adds⟩ =>
    .pure ⟨room, same, by rwa [Adds, graph] at adds⟩

theorem Room.defineEach {column : Tensor κ} {rest : List Symbol} (start : Nat)
    (room : Room session (symbols ++ rest)) (distinct : (symbols ++ rest).Nodup)
    (scalar : ∀ symbol ∈ symbols, symbol.shape = .scalar)
    (present : ∀ index < symbols.length, ∃ entry, column.entryAt (start + index) = .ok entry) :
    Succeeds ((symbols.zipIdx start).forM fun (symbol, index) => do
      Loop.define symbol (.ofExpr (← Action.ofAlgebra (column.entryAt index)))) session
        fun _ later => Room later rest ∧ Adds symbols session later := by
  induction symbols generalizing start session with
  | nil => exact .pure ⟨room, .refl session⟩
  | cons head tail ih =>
      rw [List.cons_append, List.nodup_cons] at distinct
      rw [List.forall_mem_cons] at scalar
      obtain ⟨entry, found⟩ := present 0 (Nat.zero_lt_succ _)
      rw [List.zipIdx_cons, List.forM]
      have defined : Succeeds (do Loop.define head (.ofExpr (← Action.ofAlgebra
          (column.entryAt start)))) session
            fun _ later => Room later (tail ++ rest) ∧ Adds [head] session later := by
        refine (Succeeds.ofAlgebra found).bind ?_
        rintro _ _ ⟨rfl, rfl⟩
        have shape : (Tensor.ofExpr entry).shape = head.shape := scalar.1.symm
        exact room.define distinct.1 shape
      refine defined.bind ?_
      rintro _ later ⟨room, first⟩
      refine (ih (start + 1) room distinct.2 scalar.2 fun index bound => ?_).mono ?_
      · rw [Nat.add_right_comm, Nat.add_assoc]
        exact present (index + 1) (Nat.succ_lt_succ bound)
      · rintro _ _ ⟨room, others⟩
        exact ⟨room, first.trans others⟩

theorem Room.definePositions {items : List (Coordinate × Expr κ)} {rest : List Symbol}
    (room : Room session (items.map (fun item => item.1.position) ++ rest))
    (distinct : (items.map (fun item => item.1.position) ++ rest).Nodup)
    (scalar : ∀ item ∈ items, item.1.position.shape = .scalar) :
    Succeeds (items.forM fun item => Loop.define item.1.position (.ofExpr item.2)) session
      fun _ later => Room later rest ∧
        Adds (items.map fun item => item.1.position) session later := by
  induction items generalizing session with
  | nil => exact .pure ⟨room, .refl session⟩
  | cons head tail ih =>
      rw [List.map_cons, List.cons_append, List.nodup_cons] at distinct
      rw [List.forall_mem_cons] at scalar
      rw [List.forM]
      refine (room.define distinct.1 scalar.1.symm).bind ?_
      rintro _ later ⟨room, first⟩
      refine (ih room distinct.2 scalar.2).mono ?_
      rintro _ _ ⟨room, others⟩
      exact ⟨room, first.trans others⟩

/-- The dimensions of what is to be registered fit the coordinates, of which some follow. -/
structure Derivation.Fits (derivation : Derivation κ) : Prop where
  solution : derivation.geometry.solution.length = derivation.geometry.dependent.length
  small : derivation.geometry.dependent.length ≤ Tensor.largestSquare
  independent : derivation.jacobians.independent.shape = Shape.ofDimensions
    derivation.geometry.dependent.length derivation.geometry.independent.length
  dependent : derivation.jacobians.dependent.shape = Shape.ofDimensions
    derivation.geometry.dependent.length derivation.geometry.dependent.length
  drift : derivation.drift.shape = Shape.ofDimensions derivation.geometry.dependent.length 1

/-- All that a registration defines, in the order of registration. -/
def Artifacts.definitions (artifacts : Artifacts κ) : List Symbol :=
  artifacts.positions ++ [artifacts.ju, artifacts.jv, artifacts.jvInverse, artifacts.bvu] ++
    artifacts.dependent.map Coordinate.velocity ++ [artifacts.drift, artifacts.bPrime] ++
      artifacts.dependent.map Coordinate.acceleration

open Tensor in
theorem register_succeeds (inverts : InvertsUnknowns κ) {derivation : Derivation κ}
    (fits : derivation.Fits)
    (room : Room session (Coordinate.allSymbols derivation.geometry.dependent))
    (distinct : (Coordinate.allSymbols derivation.geometry.dependent).Nodup)
    (scalar : ∀ symbol ∈ Coordinate.allSymbols derivation.geometry.dependent,
      symbol.shape = .scalar) (name : String) :
    Succeeds (register name derivation) session
      fun artifacts later => Adds artifacts.definitions session later := by
  obtain ⟨solution, small, independent, dependent, drift⟩ := fits
  unfold register
  generalize derivation.geometry = geometry at *
  have zipped : (geometry.dependent.zip geometry.solution).map (fun item => item.1.position) =
      geometry.dependent.map Coordinate.position := by
    rw [show (fun item : Coordinate × Expr κ => item.1.position) =
      Coordinate.position ∘ Prod.fst from rfl, ← List.map_map, List.map_fst_zip solution.ge]
  rw [Coordinate.allSymbols, List.append_assoc] at room distinct
  simp only [Coordinate.allSymbols, List.mem_append, or_imp, forall_and] at scalar
  obtain ⟨⟨positions, velocities⟩, accelerations⟩ := scalar
  have rates := distinct.of_append_right
  refine (Room.definePositions (zipped ▸ room) (zipped ▸ distinct) fun item member =>
    positions _ (List.mem_map_of_mem (List.of_mem_zip member).1)).bind ?_
  rintro _ first ⟨room, one⟩
  refine (room.defineNew independent _).bind ?_
  rintro ju second ⟨room, juShape, two⟩
  refine (room.defineNew dependent _).bind ?_
  rintro jv third ⟨room, jvShape, three⟩
  obtain ⟨inverse, inverted⟩ := inverts jv _ jvShape small
  have inverseShape := shape_inverse inverted
    ((congrArg Shape.rows jvShape).trans (Shape.rows_ofDimensions _ _))
  refine (Succeeds.ofAlgebra inverted).bind ?_
  rintro _ _ ⟨rfl, rfl⟩
  refine (room.defineNew inverseShape _).bind ?_
  rintro jvInverse fourth ⟨room, shape, four⟩
  obtain ⟨ratio, divided, ratioSized⟩ :=
    (sized_ofSymbol (κ := κ) shape).matmul (sized_ofSymbol juShape)
  refine (Succeeds.ofAlgebra divided).bind ?_
  rintro _ _ ⟨rfl, rfl⟩
  refine (room.defineNew (ratioSized.map _).shape_eq _).bind ?_
  rintro bvu fifth ⟨room, bvuShape, five⟩
  have drivers (rate : Coordinate → Expr κ) :
      (ofColumn (geometry.independent.map rate)).Sized geometry.independent.length 1 := by
    simpa using sized_ofColumn (geometry.independent.map rate)
  obtain ⟨followed, follows, followedSized⟩ :=
    (sized_ofSymbol (κ := κ) bvuShape).matmul (drivers Coordinate.velocityExpr)
  refine (Succeeds.ofAlgebra follows).bind ?_
  rintro _ _ ⟨rfl, rfl⟩
  refine (room.defineEach 0 rates velocities fun index bound => ?_).bind ?_
  · rw [List.length_map] at bound
    exact (Nat.zero_add index).symm ▸ followedSized.entryAt bound
  rintro _ sixth ⟨room, six⟩
  refine (room.defineNew drift _).bind ?_
  rintro drift seventh ⟨room, driftShape, seven⟩
  obtain ⟨compensation, compensated, compensationSized⟩ :=
    (sized_ofSymbol (κ := κ) shape).matmul (sized_ofSymbol driftShape)
  refine (Succeeds.ofAlgebra compensated).bind ?_
  rintro _ _ ⟨rfl, rfl⟩
  refine (room.defineNew (compensationSized.map _).shape_eq _).bind ?_
  rintro bPrime eighth ⟨room, primeShape, eight⟩
  obtain ⟨driven, drives, drivenSized⟩ :=
    (sized_ofSymbol (κ := κ) bvuShape).matmul (drivers Coordinate.accelerationExpr)
  refine (Succeeds.ofAlgebra drives).bind ?_
  rintro _ _ ⟨rfl, rfl⟩
  obtain ⟨total, added, totalSized⟩ := drivenSized.add (sized_ofSymbol primeShape)
  refine (Succeeds.ofAlgebra added).bind ?_
  rintro _ _ ⟨rfl, rfl⟩
  rw [← List.append_nil (geometry.dependent.map Coordinate.acceleration)] at room rates
  refine (room.defineEach 0 rates.of_append_right accelerations fun index bound => ?_).bind ?_
  · rw [List.length_map] at bound
    exact (Nat.zero_add index).symm ▸ totalSized.entryAt bound
  · rintro _ _ ⟨_, nine⟩
    refine .pure ?_
    have all := (((one.trans (two.trans (three.trans (four.trans five)))).trans six).trans
      (seven.trans eight)).trans nine
    rwa [zipped] at all

open Tensor in
theorem Geometry.derives {geometry : Geometry κ}
    (column : geometry.constraint.Sized geometry.dependent.length 1)
    (solution : geometry.solution.length = geometry.dependent.length)
    (small : geometry.dependent.length ≤ largestSquare) :
    ∃ derivation : Derivation κ, derivation.geometry = geometry ∧ derivation.Sound ∧
      derivation.Fits := by
  have isColumn (tensor : Tensor κ) {height : Nat} (sized : tensor.Sized height 1) :
      tensor.shape.isColumn = true := by
    rw [Shape.isColumn, sized.shape_eq, Shape.columns_ofDimensions]
    rfl
  have jacobian (tensor : Tensor κ) {height : Nat} (sized : tensor.Sized height 1)
      (unknowns : List Atom) : ∃ jacobian, tensor.jacobian unknowns = .ok jacobian ∧
        jacobian.Sized height unknowns.length := by
    have height_eq := sized.length_eq
    rw [Nat.mul_one] at height_eq
    refine ⟨_, if_pos (isColumn tensor sized), ?_, ?_⟩
    · rw [Tensor.length, height_eq]
    · simp [List.length_flatMap, height_eq]
  obtain ⟨driving, madeDriving, drivingSized⟩ :=
    jacobian _ column (geometry.independent.map Coordinate.atom)
  obtain ⟨following, madeFollowing, followingSized⟩ :=
    jacobian _ column (geometry.dependent.map Coordinate.atom)
  obtain ⟨whole, madeWhole, wholeSized⟩ :=
    jacobian _ column ((geometry.independent ++ geometry.dependent).map Coordinate.atom)
  have velocities := sized_ofColumn (κ := κ)
    ((geometry.independent ++ geometry.dependent).map Coordinate.velocityExpr)
  rw [List.length_map] at velocities wholeSized drivingSized followingSized
  obtain ⟨rate, madeRate, rateSized⟩ := wholeSized.matmul velocities
  obtain ⟨again, madeAgain, againSized⟩ :=
    jacobian _ rateSized ((geometry.independent ++ geometry.dependent).map Coordinate.atom)
  rw [List.length_map] at againSized
  obtain ⟨drift, madeDrift, driftSized⟩ := againSized.matmul velocities
  refine ⟨⟨geometry, ⟨driving, following⟩, drift⟩, rfl, ⟨?_, ?_⟩, ?_⟩
  · exact bind_eq_ok.mpr ⟨driving, madeDriving, bind_eq_ok.mpr ⟨following, madeFollowing, rfl⟩⟩
  · exact bind_eq_ok.mpr ⟨whole, madeWhole, bind_eq_ok.mpr ⟨rate, madeRate,
      bind_eq_ok.mpr ⟨again, madeAgain, madeDrift⟩⟩⟩
  · exact ⟨solution, small, drivingSized.shape_eq, followingSized.shape_eq, driftSized.shape_eq⟩

theorem Descriptor.close_passes [Exact κ] {problem : Problem κ} {settings : Settings κ}
    {geometry : Geometry κ} (passes : ∀ derivation : Derivation κ, derivation.geometry = geometry →
      derivation.Sound → settings.checkSingularity = true →
        (checkRegularity problem.request.name settings derivation).perform session =
          (.ok ⟨⟩, session))
    (solved : problem.solve = .ok geometry)
    (column : geometry.constraint.Sized geometry.dependent.length 1)
    (solution : geometry.solution.length = geometry.dependent.length)
    (small : geometry.dependent.length ≤ Tensor.largestSquare)
    (room : Room session (Coordinate.allSymbols geometry.dependent))
    (distinct : (Coordinate.allSymbols geometry.dependent).Nodup)
    (scalar : ∀ symbol ∈ Coordinate.allSymbols geometry.dependent, symbol.shape = .scalar) :
    ∃ artifacts, ((⟨problem, settings, .unresolved⟩ : Descriptor κ).close session).outcome =
      .ok artifacts := by
  obtain ⟨derivation, rfl, sound, fits⟩ := Geometry.derives column solution small
  obtain ⟨artifacts, later, ran, _⟩ :=
    register_succeeds Tensor.invertsUnknowns fits room distinct scalar problem.request.name
  have derived : (⟨problem, settings, .unresolved⟩ : Descriptor κ).derive =
      (.ok derivation, ⟨problem, settings, .linearizedTwice derivation⟩) := by
    simp only [derive, solved, enter, linearizeOnce, sound.jacobians, linearizeTwice, sound.drift]
  have inserted : ((⟨problem, settings, .linearizedTwice derivation⟩ : Descriptor κ).insert
      derivation).run.run session = (.ok artifacts, later) := by
    unfold insert
    split
    · exact Action.bind_eq_ok.mpr ⟨⟨⟩, session, passes derivation rfl sound ‹_›, ran⟩
    · exact ran
  refine ⟨artifacts, ?_⟩
  simp only [close, derived, inserted]

theorem Descriptor.close_succeeds [Exact κ] {problem : Problem κ} {settings : Settings κ}
    (unchecked : settings.checkSingularity = false) {geometry : Geometry κ}
    (solved : problem.solve = .ok geometry)
    (column : geometry.constraint.Sized geometry.dependent.length 1)
    (solution : geometry.solution.length = geometry.dependent.length)
    (small : geometry.dependent.length ≤ Tensor.largestSquare)
    (room : Room session (Coordinate.allSymbols geometry.dependent))
    (distinct : (Coordinate.allSymbols geometry.dependent).Nodup)
    (scalar : ∀ symbol ∈ Coordinate.allSymbols geometry.dependent, symbol.shape = .scalar) :
    ∃ artifacts, ((⟨problem, settings, .unresolved⟩ : Descriptor κ).close session).outcome =
      .ok artifacts :=
  close_passes (fun _ _ _ checked => by rw [unchecked] at checked; cases checked) solved column
    solution small room distinct scalar

end Loop

end Mechanism
