import Mechanism.Proofs.Numbering.Document

/-!
What a program has at hand: the symbols, expressions, tensors, chains, loops, graphs and models that it
has made, in one list. What is made is put at the end, and is named by its place from then on. The
numbers of symbols can be moved throughout without any call telling.
-/

namespace Mechanism

namespace Script

variable {κ : Type} [Scalar κ]

inductive Item (κ : Type) [Scalar κ] where
  | symbol (symbol : Symbol)
  | expr (expr : Expr κ)
  | tensor (tensor : Tensor κ)
  | coordinate (coordinate : Coordinate)
  | chain (chain : Chain κ)
  | loop (descriptor : Loop.Descriptor κ)
  | graph (graph : Graph κ)
  | model (model : Model κ)

namespace Item

def symbol? : Item κ → Option Symbol
  | .symbol found => some found
  | _ => none

def expr? : Item κ → Option (Expr κ)
  | .expr found => some found
  | _ => none

def atom? (item : Item κ) : Option Atom := item.expr? >>= Expr.asAtom?

def tensor? : Item κ → Option (Tensor κ)
  | .tensor found => some found
  | _ => none

def coordinate? : Item κ → Option Coordinate
  | .coordinate found => some found
  | _ => none

def chain? : Item κ → Option (Chain κ)
  | .chain found => some found
  | _ => none

def loop? : Item κ → Option (Loop.Descriptor κ)
  | .loop found => some found
  | _ => none

def graph? : Item κ → Option (Graph κ)
  | .graph found => some found
  | _ => none

def model? : Item κ → Option (Model κ)
  | .model found => some found
  | _ => none

def reply [ScalarText κ] : Item κ → Reply κ
  | .symbol found => ⟨found.toJson, []⟩
  | .expr found => found.reply
  | .tensor found => found.reply
  | .coordinate found => ⟨.text found.name, []⟩
  | .chain found => found.reply
  | .loop found => ⟨found.describe, []⟩
  | .graph found => ⟨found.describe, []⟩
  | .model found => ⟨found.describe, found.chain.reply.numbers⟩

def Fair : Item κ → Prop
  | .graph found => found.simplifier.Blind
  | .model found => found.graph.simplifier.Blind
  | _ => True

instance : Numbered (Item κ) := ⟨fun offset item =>
  match item with
  | .symbol found => .symbol (shift offset found)
  | .expr found => .expr (shift offset found)
  | .tensor found => .tensor (shift offset found)
  | .coordinate found => .coordinate (shift offset found)
  | .chain found => .chain (shift offset found)
  | .loop found => .loop (shift offset found)
  | .graph found => .graph (shift offset found)
  | .model found => .model (shift offset found)⟩

section Moved

variable (offset : Nat) (item : Item κ)

theorem symbol?_shift : (shift offset item).symbol? = item.symbol?.map (shift offset) := by
  cases item <;> rfl

theorem expr?_shift : (shift offset item).expr? = item.expr?.map (shift offset) := by
  cases item <;> rfl

theorem atom?_shift : (shift offset item).atom? = item.atom?.map (shift offset) := by
  rw [atom?, expr?_shift, atom?]
  cases item.expr? <;> simp

theorem tensor?_shift : (shift offset item).tensor? = item.tensor?.map (shift offset) := by
  cases item <;> rfl

theorem coordinate?_shift :
    (shift offset item).coordinate? = item.coordinate?.map (shift offset) := by
  cases item <;> rfl

theorem chain?_shift : (shift offset item).chain? = item.chain?.map (shift offset) := by
  cases item <;> rfl

theorem loop?_shift : (shift offset item).loop? = item.loop?.map (shift offset) := by
  cases item <;> rfl

theorem graph?_shift : (shift offset item).graph? = item.graph?.map (shift offset) := by
  cases item <;> rfl

theorem model?_shift : (shift offset item).model? = item.model?.map (shift offset) := by
  cases item <;> rfl

theorem reply_shift [ScalarText κ] : (shift offset item).reply = item.reply := by
  cases item with
  | symbol found => rfl
  | expr found => exact Expr.reply_shift offset found
  | tensor found => exact Tensor.reply_shift offset found
  | coordinate found => rfl
  | chain found => exact Chain.reply_shift offset found
  | loop found => exact congrArg (Reply.mk · []) (Loop.Descriptor.describe_shift offset found)
  | graph found => exact congrArg (Reply.mk · []) (Graph.describe_shift offset found)
  | model found =>
      change Reply.mk (shift offset found).describe (shift offset found).chain.reply.numbers = _
      simp [reply]

end Moved

theorem fair_of_graph? {item : Item κ} {graph : Graph κ} (found : item.graph? = some graph)
    (fair : item.Fair) : graph.simplifier.Blind := by
  cases item <;> simp_all [graph?, Fair]

theorem fair_of_model? {item : Item κ} {model : Model κ} (found : item.model? = some model)
    (fair : item.Fair) : model.graph.simplifier.Blind := by
  cases item <;> simp_all [model?, Fair]

end Item

structure Stock (κ : Type) [Scalar κ] where
  supply : SymbolSupply
  items : List (Item κ)

instance : Working (Stock κ) where
  shift offset stock := ⟨shift offset stock.supply, stock.items.map (shift offset)⟩
  Blind stock := ∀ item ∈ stock.items, item.Fair

abbrev Handle := Nat

abbrev Desk (κ : Type) [Scalar κ] := ExceptT Refusal (StateM (Stock κ))

namespace Desk

variable {α ε : Type}

/-- The item at a place, if it is of the kind that is needed. -/
def pick (read : Item κ → Option α) (handle : Handle) : Desk κ α := do
  let stock ← get
  match stock.items[handle]? >>= read with
  | some found => return found
  | none => throw ⟨"BadInput", ""⟩

def pickAll (read : Item κ → Option α) (handles : List Handle) : Desk κ (List α) :=
  handles.mapM (pick read)

def keepAll (items : List (Item κ)) : Desk κ Unit :=
  modify fun stock => { stock with items := stock.items ++ items }

def keepSymbols (symbols : List Symbol) : Desk κ Unit := keepAll (symbols.map .symbol)

def keep [ScalarText κ] (item : Item κ) : Desk κ (Reply κ) := do
  keepAll [item]
  return item.reply

def draw (issue : SymbolSupply → α × SymbolSupply) : Desk κ α :=
  modifyGet fun stock => ((issue stock.supply).1, { stock with supply := (issue stock.supply).2 })

def put (handle : Handle) (item : Item κ) : Desk κ Unit :=
  modify fun stock => { stock with items := stock.items.set handle item }

def orRefuse (refusal : ε → Refusal) : Except ε α → Desk κ α
  | .ok value => return value
  | .error error => throw (refusal error)

def ofAlgebra (outcome : Except AlgebraError α) : Desk κ α := orRefuse Refusal.ofAlgebra outcome

def ofChain [ScalarText κ] (outcome : Except ChainError α) : Desk κ α :=
  orRefuse (fun error => Refusal.ofLoop (κ := κ) (.chain error)) outcome

/-- Work on an item is over: what has changed is kept, also when the work fails. -/
def settle (refusal : ε → Refusal) (handle : Handle) (item : Item κ) (supply : SymbolSupply)
    (outcome : Except ε α) : Desk κ α := do
  modify fun stock => ⟨supply, stock.items.set handle item⟩
  orRefuse refusal outcome

def workOn (refusal : ε → Refusal) (handle : Handle)
    (action : ExceptT ε (StateM (Graph.Session κ)) α) : Desk κ α := do
  let graph ← pick Item.graph? handle
  let stock ← get
  let (outcome, work) := action.run.run ⟨graph, stock.supply⟩
  settle refusal handle (.graph work.graph) work.supply outcome

def onGraph [ScalarText κ] (handle : Handle) (action : Graph.Action κ α) : Desk κ α :=
  workOn Refusal.ofGraph handle action

def onModel [ScalarText κ] (handle : Handle) (action : Model.Action κ α) : Desk κ α := do
  let model ← pick Item.model? handle
  let stock ← get
  let (outcome, work) := action.run.run ⟨model, stock.supply⟩
  settle Refusal.ofModel handle (.model work.model) work.supply outcome

end Desk

namespace Desk

variable {α β ε : Type} [Numbered α] [Numbered β] {offset : Nat}

omit [Numbered α] in
theorem outcomeOf_pick (read : Item κ → Option α) (handle : Handle) (stock : Stock κ) :
    outcomeOf (pick read handle) stock =
      ((match stock.items[handle]? >>= read with
        | some found => .ok found
        | none => .error ⟨"BadInput", ""⟩), stock) := by
  change outcomeOf (match stock.items[handle]? >>= read with
    | some found => _
    | none => _) stock = _
  cases stock.items[handle]? >>= read <;> rfl

theorem pick_bind {read : Item κ → Option α}
    (same : ∀ item, read (shift offset item) = (read item).map (shift offset)) (handle : Handle)
    {next next' : α → Desk κ β}
    (rest : ∀ item found, item.Fair → read item = some found →
      Conforms offset (next' (shift offset found)) (next found)) :
    Conforms offset (pick read handle >>= next') (pick read handle >>= next) := by
  intro stock blind
  have items : (shift offset stock).items[handle]? = stock.items[handle]?.map (shift offset) :=
    List.getElem?_map
  simp only [outcomeOf_bind, outcomeOf_pick, items]
  cases here : stock.items[handle]? with
  | none => exact ⟨rfl, blind⟩
  | some item =>
      simp only [Option.map_some, Option.bind_eq_bind, Option.bind_some, same]
      cases found : read item with
      | none => exact ⟨rfl, blind⟩
      | some found' =>
          exact rest item found' (blind item (List.mem_of_getElem? here)) found stock blind

theorem pick_conforms {read : Item κ → Option α}
    (same : ∀ item, read (shift offset item) = (read item).map (shift offset)) (handle : Handle) :
    Conforms offset (pick read handle : Desk κ α) (pick read handle) := by
  have picked : Conforms offset (pick read handle >>= pure : Desk κ α) (pick read handle >>= pure) :=
    pick_bind same handle fun _ found _ _ => .pure found
  rwa [bind_pure] at picked

section Kinds

variable (handle : Handle)

theorem symbol_conforms :
    Conforms offset (pick Item.symbol? handle : Desk κ _) (pick Item.symbol? handle) :=
  pick_conforms (Item.symbol?_shift offset) handle

theorem expr_conforms :
    Conforms offset (pick Item.expr? handle : Desk κ _) (pick Item.expr? handle) :=
  pick_conforms (Item.expr?_shift offset) handle

theorem atom_conforms :
    Conforms offset (pick Item.atom? handle : Desk κ _) (pick Item.atom? handle) :=
  pick_conforms (Item.atom?_shift offset) handle

theorem tensor_conforms :
    Conforms offset (pick Item.tensor? handle : Desk κ _) (pick Item.tensor? handle) :=
  pick_conforms (Item.tensor?_shift offset) handle

theorem coordinate_conforms :
    Conforms offset (pick Item.coordinate? handle : Desk κ _) (pick Item.coordinate? handle) :=
  pick_conforms (Item.coordinate?_shift offset) handle

theorem chain_conforms :
    Conforms offset (pick Item.chain? handle : Desk κ _) (pick Item.chain? handle) :=
  pick_conforms (Item.chain?_shift offset) handle

theorem loop_conforms :
    Conforms offset (pick Item.loop? handle : Desk κ _) (pick Item.loop? handle) :=
  pick_conforms (Item.loop?_shift offset) handle

theorem graph_conforms :
    Conforms offset (pick Item.graph? handle : Desk κ _) (pick Item.graph? handle) :=
  pick_conforms (Item.graph?_shift offset) handle

theorem model_conforms :
    Conforms offset (pick Item.model? handle : Desk κ _) (pick Item.model? handle) :=
  pick_conforms (Item.model?_shift offset) handle

end Kinds

theorem pickAll_conforms {read : Item κ → Option α}
    (same : ∀ item, read (shift offset item) = (read item).map (shift offset))
    (handles : List Handle) :
    Conforms offset (pickAll read handles : Desk κ (List α)) (pickAll read handles) :=
  .mapM_moved handles fun handle _ => pick_conforms same handle

theorem keepAll_conforms {items : List (Item κ)} (fair : ∀ item ∈ items, item.Fair) :
    Conforms offset (keepAll (items.map (shift offset))) (keepAll items) := by
  refine .modify (fun stock => ?_) fun stock blind item member => ?_
  · exact congrArg (Stock.mk _) (List.map_append ..).symm
  · exact (List.mem_append.mp member).elim (blind item) (fair item)

theorem keepSymbols_conforms (symbols : List Symbol) :
    Conforms offset (keepSymbols (symbols.map (shift offset)) : Desk κ _) (keepSymbols symbols) := by
  have moved : (symbols.map (shift offset)).map (Item.symbol (κ := κ)) =
      (symbols.map .symbol).map (shift offset) := by
    rw [List.map_map, List.map_map]
    rfl
  unfold keepSymbols
  rw [moved]
  refine keepAll_conforms fun item member => ?_
  obtain ⟨symbol, _, rfl⟩ := List.mem_map.mp member
  trivial

theorem keep_conforms [ScalarText κ] {item : Item κ} (fair : item.Fair) :
    Conforms offset (keep (shift offset item)) (keep item) := by
  have single : ∀ other ∈ [item], other.Fair := by simpa using fair
  refine (keepAll_conforms single).bind fun _ => ?_
  rw [Item.reply_shift]
  exact .answer _

theorem draw_conforms {issue : SymbolSupply → α × SymbolSupply}
    (same : ∀ supply, issue (shift offset supply) = shift offset (issue supply)) :
    Conforms offset (draw issue : Desk κ α) (draw issue) := by
  refine fun stock blind => ⟨?_, blind⟩
  change (Except.ok (issue (shift offset stock.supply)).1,
    (⟨(issue (shift offset stock.supply)).2, (shift offset stock).items⟩ : Stock κ)) = _
  rw [same]
  rfl

theorem keepSymbol_conforms [ScalarText κ] (symbol : Symbol) :
    Conforms offset (keep (.symbol (shift offset symbol)) : Desk κ _) (keep (.symbol symbol)) := by
  have fair : (Item.symbol symbol : Item κ).Fair := trivial
  exact keep_conforms fair

theorem keepTensor_conforms [ScalarText κ] (tensor : Tensor κ) :
    Conforms offset (keep (.tensor (shift offset tensor))) (keep (.tensor tensor)) := by
  have fair : (Item.tensor tensor).Fair := trivial
  exact keep_conforms fair

theorem blind_set {stock : Stock κ} (blind : Blind stock) (supply : SymbolSupply) {item : Item κ}
    (fair : item.Fair) (handle : Handle) :
    Blind (⟨supply, stock.items.set handle item⟩ : Stock κ) :=
  fun other member => (List.mem_or_eq_of_mem_set member).elim (blind other) (· ▸ fair)

theorem set_shift (stock : Stock κ) (supply : SymbolSupply) (item : Item κ) (handle : Handle) :
    (⟨shift offset supply, (shift offset stock).items.set handle (shift offset item)⟩ : Stock κ) =
      shift offset ⟨supply, stock.items.set handle item⟩ :=
  congrArg (Stock.mk _) List.map_set.symm

theorem put_conforms {item : Item κ} (fair : item.Fair) (handle : Handle) :
    Conforms offset (put handle (shift offset item)) (put handle item) :=
  .modify (fun stock => set_shift stock stock.supply item handle)
    fun stock blind => blind_set blind stock.supply fair handle

theorem orRefuse_conforms [Numbered ε] {refusal : ε → Refusal}
    (same : ∀ error, refusal (shift offset error) = refusal error) {outcome outcome' : Except ε α}
    (moved : outcome' = shift offset outcome) :
    Conforms offset (orRefuse refusal outcome' : Desk κ α) (orRefuse refusal outcome) := by
  subst moved
  cases outcome with
  | ok value => exact .pure value
  | error error =>
      change Conforms offset (throw (refusal (shift offset error))) (throw (refusal error))
      rw [same]
      exact Conforms.throw (refusal error)

theorem ofAlgebra_conforms {outcome outcome' : Except AlgebraError α}
    (moved : outcome' = shift offset outcome) :
    Conforms offset (ofAlgebra outcome' : Desk κ α) (ofAlgebra outcome) :=
  orRefuse_conforms (fun _ => rfl) moved

theorem ofChain_conforms [ScalarText κ] {outcome outcome' : Except ChainError α}
    (moved : outcome' = shift offset outcome) :
    Conforms offset (ofChain outcome' : Desk κ α) (ofChain outcome) :=
  orRefuse_conforms (fun _ => rfl) moved

theorem settle_conforms [Numbered ε] {refusal : ε → Refusal}
    (same : ∀ error, refusal (shift offset error) = refusal error) (handle : Handle)
    {item : Item κ} (fair : item.Fair) (supply : SymbolSupply) (outcome : Except ε α) :
    Conforms offset
      (settle refusal handle (shift offset item) (shift offset supply) (shift offset outcome))
      (settle refusal handle item supply outcome) := by
  have stored : Conforms offset
      (modify fun stock => ⟨shift offset supply, stock.items.set handle (shift offset item)⟩ :
        Desk κ PUnit)
      (modify fun stock => ⟨supply, stock.items.set handle item⟩) :=
    .modify (fun stock => set_shift stock supply item handle)
      fun stock blind => blind_set blind supply fair handle
  exact stored.bind fun _ => orRefuse_conforms same rfl

theorem workOn_conforms [Numbered ε] {refusal : ε → Refusal}
    (same : ∀ error, refusal (shift offset error) = refusal error) (handle : Handle)
    {action action' : ExceptT ε (StateM (Graph.Session κ)) α}
    (conforms : Conforms offset action' action) :
    Conforms offset (workOn refusal handle action') (workOn refusal handle action) := by
  refine pick_bind (Item.graph?_shift offset) handle fun item graph fair found => ?_
  refine .get_bind fun stock blind => ?_
  have working : Blind (⟨graph, stock.supply⟩ : Graph.Session κ) := Item.fair_of_graph? found fair
  obtain ⟨outcome, later⟩ := conforms ⟨graph, stock.supply⟩ working
  change Conforms offset
    (match outcomeOf action' (shift offset ⟨graph, stock.supply⟩) with
      | (outcome, work) => settle refusal handle (.graph work.graph) work.supply outcome)
    (match outcomeOf action ⟨graph, stock.supply⟩ with
      | (outcome, work) => settle refusal handle (.graph work.graph) work.supply outcome)
  rw [outcome]
  have kept : (Item.graph (outcomeOf action ⟨graph, stock.supply⟩).2.graph).Fair := later
  exact settle_conforms same handle kept _ _

theorem onGraph_conforms [ScalarText κ] (handle : Handle) {action action' : Graph.Action κ α}
    (conforms : Conforms offset action' action) :
    Conforms offset (onGraph handle action') (onGraph handle action) :=
  workOn_conforms (Refusal.ofGraph_shift offset) handle conforms

theorem onModel_conforms [ScalarText κ] (handle : Handle) {action action' : Model.Action κ α}
    (conforms : Conforms offset action' action) :
    Conforms offset (onModel handle action') (onModel handle action) := by
  refine pick_bind (Item.model?_shift offset) handle fun item model fair found => ?_
  refine .get_bind fun stock blind => ?_
  have working : Blind (⟨model, stock.supply⟩ : Model.Session κ) := Item.fair_of_model? found fair
  obtain ⟨outcome, later⟩ := conforms ⟨model, stock.supply⟩ working
  change Conforms offset
    (match outcomeOf action' (shift offset ⟨model, stock.supply⟩) with
      | (outcome, work) => settle Refusal.ofModel handle (.model work.model) work.supply outcome)
    (match outcomeOf action ⟨model, stock.supply⟩ with
      | (outcome, work) => settle Refusal.ofModel handle (.model work.model) work.supply outcome)
  rw [outcome]
  have kept : (Item.model (outcomeOf action ⟨model, stock.supply⟩).2.model).Fair := later
  exact settle_conforms (Refusal.ofModel_shift offset) handle kept _ _

end Desk

end Script

end Mechanism
