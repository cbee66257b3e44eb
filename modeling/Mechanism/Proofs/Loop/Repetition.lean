import Mechanism.Proofs.Graph.Repetition
import Mechanism.Proofs.Loop.Running

/-!
What is done for a loop twice. Neither the check of a loop nor its registration depends on what the
graph has answered before.
-/

namespace Mechanism.Loop

open Mechanism.Graph (Peers SanePeers)

variable {κ α : Type} [Scalar κ]

theorem agrees_onGraph {pre post : Graph.Session κ → Graph.Session κ → Prop}
    {action : Graph.Action κ α} (agrees : Agrees pre post action) :
    Agrees pre post (Action.onGraph action) := by
  intro one other related
  obtain ⟨same, later⟩ := agrees one other related
  change ((Action.onGraph action).perform other).1 = ((Action.onGraph action).perform one).1 ∧
    post ((Action.onGraph action).perform one).2 ((Action.onGraph action).perform other).2
  rw [Action.perform_onGraph, Action.perform_onGraph]
  change (action.perform other).1 = (action.perform one).1 at same
  change post (action.perform one).2 (action.perform other).2 at later
  generalize action.perform one = left at same later
  generalize action.perform other = right at same later
  obtain ⟨result, _⟩ := left
  obtain ⟨otherResult, _⟩ := right
  obtain rfl : result = otherResult := same.symm
  cases result <;> exact ⟨rfl, later⟩

theorem agrees_ofAlgebra {pre : Graph.Session κ → Graph.Session κ → Prop}
    (result : Except AlgebraError α) : Agrees pre pre (Action.ofAlgebra result : Action κ α) := by
  cases result with
  | ok value => exact .pure value
  | error error => exact .throw _

theorem agrees_define (symbol : Symbol) (value : Tensor κ) :
    Agrees Peers Peers (define symbol value : Action κ Unit) :=
  (agrees_onGraph (Graph.agrees_register _ _ _ _)).andThen fun _ => .pure _

theorem agrees_defineNew (name : String) (rows columns : Nat) (value : Tensor κ) :
    Agrees Peers Peers (defineNew name rows columns value : Action κ Symbol) :=
  (agrees_onGraph (Graph.agrees_freshSymbol _ _)).andThen fun _ =>
    (agrees_define _ _).andThen fun _ => .pure _

theorem agrees_defineEach (column : Tensor κ) (symbols : List Symbol) :
    Agrees Peers Peers (defineEach column symbols : Action κ Unit) :=
  .forM fun _ => (agrees_ofAlgebra _).andThen fun _ => agrees_define _ _

theorem agrees_register (name : String) (derivation : Derivation κ) :
    Agrees Peers Peers (register name derivation) := by
  unfold register
  refine (Agrees.forM fun _ => agrees_define _ _).andThen fun _ => ?_
  refine (agrees_defineNew _ _ _ _).andThen fun _ => (agrees_defineNew _ _ _ _).andThen fun _ => ?_
  refine (agrees_ofAlgebra _).andThen fun _ => (agrees_defineNew _ _ _ _).andThen fun _ => ?_
  refine (agrees_ofAlgebra _).andThen fun _ => (agrees_defineNew _ _ _ _).andThen fun _ => ?_
  refine (agrees_ofAlgebra _).andThen fun _ => (agrees_defineEach _ _).andThen fun _ => ?_
  refine (agrees_defineNew _ _ _ _).andThen fun _ => (agrees_ofAlgebra _).andThen fun _ => ?_
  refine (agrees_defineNew _ _ _ _).andThen fun _ => (agrees_ofAlgebra _).andThen fun _ => ?_
  exact (agrees_ofAlgebra _).andThen fun _ => (agrees_defineEach _ _).andThen fun _ => .pure _

theorem agrees_numbersOf (symbols : List Symbol) (known : Numbers κ) :
    Agrees SanePeers SanePeers (numbersOf symbols known : Action κ (Option (Numbers κ))) := by
  induction symbols generalizing known with
  | nil => exact .pure _
  | cons symbol rest ih =>
      intro one other peers
      obtain ⟨same, later⟩ := Graph.agrees_numbersOf symbol one other peers
      change (Except.ok ((numbersOf (symbol :: rest) known).run other).1 :
          Except (LoopError κ) (Option (Numbers κ))) =
            .ok ((numbersOf (symbol :: rest) known).run one).1 ∧
          SanePeers ((numbersOf (symbol :: rest) known).run one).2
            ((numbersOf (symbol :: rest) known).run other).2
      rcases left : (Graph.numbersOf symbol).perform one with ⟨result, first⟩
      rcases right : (Graph.numbersOf symbol).perform other with ⟨otherResult, second⟩
      change ((Graph.numbersOf symbol).perform other).1 = ((Graph.numbersOf symbol).perform one).1
        at same
      change SanePeers ((Graph.numbersOf symbol).perform one).2
        ((Graph.numbersOf symbol).perform other).2 at later
      rw [left, right] at same later
      obtain rfl : result = otherResult := same.symm
      obtain _ | _ | entries := result
      · rw [run_numbersOf_error left, run_numbersOf_error right]
        exact ⟨rfl, later⟩
      · rw [run_numbersOf_none left, run_numbersOf_none right]
        exact ⟨rfl, later⟩
      · rw [run_numbersOf_numbers left, run_numbersOf_numbers right]
        exact ih (known.insert symbol entries) first second later

theorem agrees_checkRegularity (name : String) (settings : Settings κ) (derivation : Derivation κ) :
    Agrees SanePeers SanePeers (checkRegularity name settings derivation) := by
  unfold checkRegularity
  refine (agrees_numbersOf _ _).andThen fun found => ?_
  split
  · exact .pure _
  · refine (agrees_ofAlgebra _).andThen fun _ => ?_
    split
    · exact .throw _
    · exact .pure _

namespace Descriptor

theorem agrees_verify (descriptor : Descriptor κ) :
    Agrees SanePeers SanePeers descriptor.verify := by
  unfold verify
  split
  · exact agrees_checkRegularity _ _ _
  · exact .pure _

theorem agrees_insert (descriptor : Descriptor κ) (derivation : Derivation κ) :
    Agrees SanePeers Peers (descriptor.insert derivation) := by
  have weaker (one other : Graph.Session κ) (peers : SanePeers one other) : Peers one other :=
    peers.toPeers
  unfold insert
  split
  · exact (agrees_checkRegularity _ _ _).bind
      (fun _ => (agrees_register _ _).mono weaker fun _ _ peers => peers) weaker
  · exact (agrees_register _ _).mono weaker fun _ _ peers => peers

theorem close_peers {one other : Graph.Session κ} (peers : SanePeers one other)
    (descriptor : Descriptor κ) :
    (descriptor.close other).outcome = (descriptor.close one).outcome ∧
      (descriptor.close other).descriptor = (descriptor.close one).descriptor ∧
        Peers (descriptor.close one).session (descriptor.close other).session := by
  unfold close
  split
  · exact ⟨rfl, rfl, peers.toPeers⟩
  · split
    · exact ⟨rfl, rfl, peers.toPeers⟩
    · rename_i derivation later derived
      obtain ⟨same, peers⟩ := agrees_insert later derivation one other peers
      generalize (later.insert derivation).run.run one = left at same peers
      generalize (later.insert derivation).run.run other = right at same peers
      obtain ⟨result, first⟩ := left
      obtain ⟨otherResult, second⟩ := right
      obtain rfl : result = otherResult := same.symm
      cases result <;> exact ⟨rfl, rfl, peers⟩

end Descriptor

end Mechanism.Loop
