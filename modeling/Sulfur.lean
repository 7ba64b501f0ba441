import Sulfur.Semantic.Acceptance
import Sulfur.Ir.Hint
import Sulfur.Ir.Width
import Sulfur.Ir.Control
import Sulfur.Ir.Evaluation
import Sulfur.Ir.TopLevel
import Sulfur.Ir.Literal
import Sulfur.Semantic.Assignment
import Sulfur.Semantic.Imports
import Sulfur.Ir.Boolean
import Sulfur.Ir.Closed
import Sulfur.Codegen.Linkage
import Sulfur.Codegen.Format
import Sulfur.Ir.Parts
import Sulfur.Frontend.Parser.Coverage
import Sulfur.Ir.Immutable
import Sulfur.Ir.Return
import Sulfur.Frontend.Partition
import Sulfur.Semantic.Spelling
import Sulfur.Frontend.Preprocessor
import Sulfur.Frontend.Parser.Termination
import Sulfur.Semantic.Mangling
import Sulfur.Stdlib.Arith
import Sulfur.Stdlib.Power
import Sulfur.Codegen.Frame
import Sulfur.Codegen.Selection
import Sulfur.Ir.Labels
import Sulfur.Module.Names
import Sulfur.Codegen.Symbols
import Sulfur.Semantic.Reimport
import Sulfur.Semantic.History
import Sulfur.Semantic.Prefix
import Sulfur.Semantic.Balance
import Sulfur.Semantic.Closest
import Sulfur.Utils.Allocation
import Sulfur.Semantic.Constant
import Sulfur.Semantic.Evaluator
import Sulfur.Semantic.Exact
import Sulfur.Semantic.Judged
import Sulfur.Semantic.Symmetry
import Sulfur.Ir.Constant
import Sulfur.Ir.Judgement
import Sulfur.Codegen.Execution
import Sulfur.Codegen.Operands
import Sulfur.Codegen.Sizes
