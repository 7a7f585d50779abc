import MiniPascal.Command.Workspace
import MiniPascal.Main
import MiniPascal.Proofs.Command.Delivery
import MiniPascal.Proofs.Folding.Comparison
import MiniPascal.Proofs.Folding.Exact
import MiniPascal.Proofs.Folding.Execution
import MiniPascal.Proofs.Folding.Literal
import MiniPascal.Proofs.Folding.Typing
import MiniPascal.Proofs.Ir.Rounds
import MiniPascal.Proofs.Ir.Stopping
import MiniPascal.Proofs.Lowering.Capacity
import MiniPascal.Proofs.Lowering.Extends
import MiniPascal.Proofs.Lowering.Flow
import MiniPascal.Proofs.Lowering.Formats
import MiniPascal.Proofs.Lowering.Isolation
import MiniPascal.Proofs.Lowering.Linking
import MiniPascal.Proofs.Lowering.Numbers
import MiniPascal.Proofs.Lowering.Shape
import MiniPascal.Proofs.Lowering.WellTyped
import MiniPascal.Proofs.Machine.Elimination
import MiniPascal.Proofs.Phrase.Compound
import MiniPascal.Proofs.Phrase.Subscript
import MiniPascal.Proofs.Printing.Literal
import MiniPascal.Proofs.Printing.Quoted
import MiniPascal.Proofs.Printing.Statement
import MiniPascal.Proofs.Reading.Forwards
import MiniPascal.Proofs.Reading.Identifiers
import MiniPascal.Proofs.Reading.Numeral
import MiniPascal.Proofs.Reading.Parameters
import MiniPascal.Proofs.Reading.Parts
import MiniPascal.Proofs.Reading.Resolution
import MiniPascal.Proofs.Recoding.Case
import MiniPascal.Proofs.Recoding.Layout
import MiniPascal.Proofs.Scope.Nesting
import MiniPascal.Proofs.Scope.Ordered
import MiniPascal.Proofs.Semantics.Counting
import MiniPascal.Proofs.Semantics.Evaluation
import MiniPascal.Proofs.Semantics.Indexing
import MiniPascal.Proofs.Semantics.Program
import MiniPascal.Proofs.Session.Restoring
import MiniPascal.Proofs.Source.Caret
import MiniPascal.Proofs.Token.Counters
import MiniPascal.Proofs.Token.Separators
import MiniPascal.Proofs.Trace.Termination
