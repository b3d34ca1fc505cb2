import Relspec.Main
import Relspec.Proofs.Arithmetic.NormalForm
import Relspec.Proofs.Contract.Clauses
import Relspec.Proofs.Contract.Denotation
import Relspec.Proofs.Contract.Dropping
import Relspec.Proofs.Diagnostic.EditDistance
import Relspec.Proofs.Formula.Substitution
import Relspec.Proofs.Relational.BitWidth
import Relspec.Proofs.Relational.Skolem
import Relspec.Proofs.Relational.TwoStates
import Relspec.Proofs.Run.Accounting
import Relspec.Proofs.Run.Closed
import Relspec.Proofs.Run.Protocol
import Relspec.Proofs.Run.Query
import Relspec.Proofs.Settings.Scopes
import Relspec.Proofs.Source.Climbing
import Relspec.Proofs.Source.Counting
import Relspec.Proofs.Source.Fields
import Relspec.Proofs.Source.Pieces
import Relspec.Proofs.Source.Progress
import Relspec.Proofs.Spec.Calls
import Relspec.Proofs.Spec.Capture
import Relspec.Proofs.Spec.SingleAssignment
import Relspec.Relational.Printer
