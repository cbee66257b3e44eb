import Mechanism.Document.Equations
import Mechanism.Document.Settings
import Mechanism.Json.Reader
import Mechanism.Json.Writer
import Mechanism.Model.Dynamics
import Mechanism.Model.Equations
import Mechanism.Proofs.Exact
import Mechanism.Proofs.Expr.Uses
import Mechanism.Proofs.Expr.Meaning
import Mechanism.Proofs.Expr.Soundness
import Mechanism.Proofs.Expr.Substitution
import Mechanism.Proofs.Calculus
import Mechanism.Proofs.Expr.Derivative
import Mechanism.Proofs.Search
import Mechanism.Proofs.Graph.Lawful
import Mechanism.Proofs.Graph.Queries
import Mechanism.Proofs.Graph.Levels
import Mechanism.Proofs.Graph.Evaluation
import Mechanism.Proofs.Graph.Registration
import Mechanism.Proofs.Graph.Reduction
import Mechanism.Proofs.Graph.Unfolding
import Mechanism.Proofs.Simplifier
import Mechanism.Proofs.Graph.Rewriting
import Mechanism.Proofs.Graph.Sharing
import Mechanism.Proofs.Graph.Hoisting
import Mechanism.Proofs.Graph.Naming
import Mechanism.Proofs.Graph.Inlining
import Mechanism.Proofs.Graph.Renaming
import Mechanism.Proofs.Graph.Removal
import Mechanism.Proofs.Graph.Building
import Mechanism.Proofs.Graph.Edits
import Mechanism.Proofs.Graph.Reachability
import Mechanism.Proofs.Graph.Consistency
import Mechanism.Proofs.Graph.Redefinition
import Mechanism.Proofs.Graph.Answers
import Mechanism.Proofs.Graph.Buildability
import Mechanism.Proofs.Graph.Extraction
import Mechanism.Proofs.Graph.Resolution
import Mechanism.Proofs.Graph.Founded
import Mechanism.Proofs.Graph.Aliases
import Mechanism.Proofs.Graph.Definitions
import Mechanism.Proofs.Graph.Roles
import Mechanism.Proofs.Graph.SharedWork
import Mechanism.Proofs.Loop.Circles
import Mechanism.Proofs.Loop.Sliders
import Mechanism.Proofs.Loop.Legs
import Mechanism.Proofs.Expr.Reads
import Mechanism.Proofs.Expr.Smooth
import Mechanism.Proofs.Expr.Smoothness
import Mechanism.Proofs.Loop.Equations
import Mechanism.Proofs.Loop.Progress
import Mechanism.Proofs.Loop.Acceptance
import Mechanism.Proofs.Loop.Values
import Mechanism.Proofs.Loop.Persistence
import Mechanism.Proofs.Expr.Arrangement
import Mechanism.Proofs.Expr.Guarded
import Mechanism.Proofs.Loop.Rates
import Mechanism.Proofs.Chain.Kinematics
import Mechanism.Proofs.Chain.Paths
import Mechanism.Proofs.Loop.Reads
import Mechanism.Proofs.Loop.Completeness
import Mechanism.Proofs.Loop.Space
import Mechanism.Proofs.Loop.Running
import Mechanism.Proofs.Model.Session
import Mechanism.Proofs.Graph.Footing
import Mechanism.Proofs.Graph.Revisions
import Mechanism.Proofs.Loop.Regularity
import Mechanism.Proofs.Model.Runs
import Mechanism.Proofs.Model.Dynamics
import Mechanism.Proofs.Loop.Attempts
import Mechanism.Proofs.Loop.Stages
import Mechanism.Proofs.Loop.Base
import Mechanism.Proofs.Loop.Mirror
import Mechanism.Proofs.Model.Reachability
import Mechanism.Proofs.Graph.Repetition
import Mechanism.Proofs.Loop.Repetition
import Mechanism.Proofs.Model.Inputs
import Mechanism.Proofs.Model.Repetition
import Mechanism.Proofs.Model.Refusals
import Mechanism.Proofs.Graph.Survival
import Mechanism.Proofs.Model.Generation
import Mechanism.Proofs.Model.Regularity
import Mechanism.Proofs.Graph.Failures
import Mechanism.Proofs.Graph.Restriction
import Mechanism.Proofs.Expr.Constructed
import Mechanism.Proofs.Model.Projection
import Mechanism.Proofs.Numbering.Document
import Mechanism.Proofs.Script.Runs
import Mechanism.Proofs.Tensor.Determinant
import Mechanism.Proofs.Expr.Commutation
import Mechanism.Proofs.Graph.Numbers
import Mechanism.Proofs.Expr.Finiteness
import Mechanism.Proofs.Finality
import Mechanism.Proofs.Graph.Termination
import Mechanism.Proofs.Graph.Minimality
import Mechanism.Proofs.Expr.Effort
import Mechanism.Proofs.Graph.Economy
import Mechanism.Loop.Structure
import Mechanism.Proofs.Text.Writing
import Mechanism.Proofs.Expr.Calls
import Mechanism.Proofs.Expr.Tidy
import Mechanism.Proofs.Tensor.Shapes
