import Mechanism.Proofs.Model.Reachability
import Mechanism.Proofs.Script.Calls

/-!
Scripts: programs that make symbols, expressions, tensors, chains, loops, graphs and models by calls,
and choose each call by what they have been told before. They are told all but the numbers of
symbols. Whatever a script does, it is told the same from whichever number symbols are counted.
-/

namespace Mechanism

namespace Script

variable {κ : Type} [Scalar κ] {offset : Nat}

open Desk

inductive Call (κ : Type) [Scalar κ] where
  | symbol (name : String) (shape : Shape) (domain : Domain)
  | expr (formula : Formula κ)
  | tensor (figure : Figure κ)
  | ask (question : Question κ)
  | symbols (expr : Handle)
  | alias (tensor : Handle)
  | coordinate (name : String)
  | chain
  | onChain (chain : Handle) (call : ChainCall κ)
  | graph (settings : Graph.Settings) (simplifier : FairSimplifier κ)
  | onGraph (graph : Handle) (call : GraphCall)
  | loop (chain : Handle) (request : RequestForm κ) (settings : Loop.Settings κ)
  | close (loop graph : Handle)
  | verify (loop graph : Handle)
  | model (settings : Model.Settings κ) (simplifier : FairSimplifier κ)
  | onModel (model : Handle) (call : ModelCall κ)

def Call.perform [ScalarText κ] : Call κ → Desk κ (Reply κ)
  | symbol name shape domain => do
    keep (.symbol (← draw fun supply => supply.fresh name shape domain))
  | expr formula => do keep (.expr (← formula.make))
  | tensor figure => do keep (.tensor (← figure.make))
  | ask question => question.answer
  | symbols operand => do
    let expr ← pick Item.expr? operand
    keepSymbols expr.symbols
    return ⟨Symbol.namesJson expr.symbols, []⟩
  | .alias operand => do
    match (← pick Item.tensor? operand).aliasTarget? with
    | none => return done
    | some target => keep (.symbol target)
  | coordinate name => do keepCoordinate (← draw fun supply => Coordinate.fresh supply name)
  | chain => keep (.chain .empty)
  | .onChain target call => call.perform target
  | graph settings simplifier => do
    keep (.graph (← orRefuse Refusal.ofGraph (Graph.new settings simplifier.val)))
  | .onGraph target call => call.perform target
  | loop target request settings => do
    let request ← request.make
    let chain ← pick Item.chain? target
    keep (.loop (← orRefuse Refusal.ofLoop (Loop.Descriptor.new request chain settings)))
  | .close closing target => Desk.close closing target
  | verify closed target => do
    let descriptor ← pick Item.loop? closed
    workOn Refusal.ofLoop target descriptor.verify
    return done
  | model settings simplifier => do
    keep (.model (← orRefuse Refusal.ofModel (Model.new settings simplifier.val)))
  | .onModel target call => call.perform target

theorem Desk.keepNew_conforms [ScalarText κ] {α ε : Type} (refusal : ε → Refusal) (item : α → Item κ)
    {outcome : Except ε α}
    (fresh : ∀ made, outcome = .ok made → (item made).Fair ∧ shift offset (item made) = item made) :
    Conforms offset (orRefuse refusal outcome >>= fun made => keep (item made))
      (orRefuse refusal outcome >>= fun made => keep (item made)) := by
  cases outcome with
  | error error => exact fun _ blind => ⟨rfl, blind⟩
  | ok made =>
      obtain ⟨fair, same⟩ := fresh made rfl
      have kept : Conforms offset (keep (shift offset (item made))) (keep (item made)) :=
        keep_conforms fair
      rwa [same] at kept

theorem Call.perform_conforms [ScalarText κ] (call : Call κ) :
    Conforms offset call.perform call.perform := by
  cases call with
  | symbol name shape domain =>
      refine (draw_conforms fun supply => ?_).bind keepSymbol_conforms
      exact SymbolSupply.fresh_shift offset supply name shape domain
  | expr formula =>
      refine formula.make_conforms.bind fun expr => ?_
      have fair : (Item.expr expr).Fair := trivial
      exact keep_conforms fair
  | tensor figure => exact figure.make_conforms.bind keepTensor_conforms
  | ask question => exact question.answer_conforms
  | symbols operand =>
      refine (expr_conforms operand).bind fun expr => ?_
      rw [Expr.symbols_shift]
      exact (keepSymbols_conforms expr.symbols).bind fun _ => .returns (by simp)
  | «alias» operand =>
      refine (tensor_conforms operand).bind fun tensor => ?_
      rw [Tensor.aliasTarget?_shift]
      cases tensor.aliasTarget? with
      | none => exact .answer done
      | some target => exact keepSymbol_conforms target
  | coordinate name =>
      refine (draw_conforms fun supply => ?_).bind keepCoordinate_conforms
      exact Coordinate.fresh_shift offset supply name
  | chain =>
      have fair : (Item.chain .empty : Item κ).Fair := trivial
      exact keep_conforms fair
  | onChain chain call => exact call.perform_conforms chain
  | graph settings simplifier =>
      refine keepNew_conforms Refusal.ofGraph .graph fun graph made => ?_
      obtain rfl := Graph.new_ok made
      exact ⟨simplifier.property, rfl⟩
  | onGraph graph call => exact call.perform_conforms graph
  | loop chain request settings =>
      refine request.make_conforms.bind fun request => (chain_conforms chain).bind fun chain => ?_
      refine (orRefuse_conforms (Refusal.ofLoop_shift offset)
        (Loop.Descriptor.new_shift request chain settings)).bind fun descriptor => ?_
      have fair : (Item.loop descriptor).Fair := trivial
      exact keep_conforms fair
  | close loop graph => exact Desk.close_conforms loop graph
  | verify loop graph =>
      refine (loop_conforms loop).bind fun descriptor => ?_
      exact (workOn_conforms (Refusal.ofLoop_shift offset) graph
        descriptor.verify_conforms).bind fun _ => .answer done
  | model settings simplifier =>
      refine keepNew_conforms Refusal.ofModel .model fun model made => ?_
      obtain ⟨rfl, _⟩ := Model.new_ok made
      exact ⟨simplifier.property, rfl⟩
  | onModel model call => exact call.perform_conforms model

abbrev Outcome (κ : Type) := Except Refusal (Reply κ)

end Script

/-- A script that stops, or makes a call and goes on by what it is told. -/
inductive Script (κ : Type) [Scalar κ] where
  | stop
  | call (call : Script.Call κ) (next : Script.Outcome κ → Script κ)

namespace Script

variable {κ : Type} [Scalar κ] [ScalarText κ]

/-- All that a script is told. -/
def run : Script κ → Stock κ → List (Outcome κ)
  | stop, _ => []
  | call made next, stock =>
    let (told, later) := outcomeOf made.perform stock
    told :: run (next told) later

theorem run_shift (offset : Nat) (script : Script κ) {stock : Stock κ} (blind : Blind stock) :
    script.run (shift offset stock) = script.run stock := by
  -- after each call the two stocks again differ by the numbers alone, and the outcome told is one
  induction script generalizing stock with
  | stop => rfl
  | call made next ih =>
      have conforms : Conforms offset made.perform made.perform := made.perform_conforms
      obtain ⟨outcome, later⟩ := conforms stock blind
      simp only [run, outcome]
      generalize outcomeOf made.perform stock = answer at later ⊢
      obtain ⟨told, stock⟩ := answer
      simp only [shift_pair, shift_plain, id_eq]
      rw [ih told later]

/-- From whichever number symbols are counted, a script is told the same. -/
theorem run_unnumbered (script : Script κ) (one other : SymbolSupply) :
    script.run ⟨one, []⟩ = script.run ⟨other, []⟩ := by
  have fromZero : ∀ supply : SymbolSupply, script.run ⟨supply, []⟩ = script.run ⟨⟨0⟩, []⟩ := by
    intro ⟨next⟩
    have blind : Blind (⟨⟨0⟩, []⟩ : Stock κ) := fun item member => nomatch member
    have moved : shift next (⟨⟨0⟩, []⟩ : Stock κ) = ⟨⟨next⟩, []⟩ :=
      congrArg (fun number => Stock.mk ⟨number⟩ []) (Nat.zero_add next)
    rw [← moved, run_shift next script blind]
  rw [fromZero one, fromZero other]

example : ((.call (.symbol "q" .scalar .real) fun _ => .call (.symbol "q" .scalar .real) fun _ =>
    .call (.ask (.sameSymbol 0 1)) fun _ => .stop : Script κ).run ⟨.start, []⟩).getLast? =
      some (.ok (truth false)) := by
  rfl

end Script

end Mechanism
