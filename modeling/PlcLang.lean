import PlcLang.Main
import PlcLang.Proofs.Shape
import PlcLang.Proofs.Typing.Rules
import PlcLang.Proofs.Binders
import PlcLang.Proofs.Evaluation.Acyclic
import PlcLang.Proofs.Evaluation.Binary
import PlcLang.Proofs.Evaluation.Block
import PlcLang.Proofs.Evaluation.Comparison
import PlcLang.Proofs.Evaluation.Constants
import PlcLang.Proofs.Evaluation.Defensive
import PlcLang.Proofs.Evaluation.Depth
import PlcLang.Proofs.Evaluation.Expression
import PlcLang.Proofs.Evaluation.Items
import PlcLang.Proofs.Evaluation.Program
import PlcLang.Proofs.Evaluation.Range
import PlcLang.Proofs.Evaluation.Resolution
import PlcLang.Proofs.Evaluation.Returned
import PlcLang.Proofs.Evaluation.Termination
import PlcLang.Proofs.Grammar.Complete.Expression
import PlcLang.Proofs.Grammar.Complete.Program
import PlcLang.Proofs.Grammar.Faithful
import PlcLang.Proofs.Grammar.Names
import PlcLang.Proofs.Grammar.Numerals
import PlcLang.Proofs.Grammar.Parsed
import PlcLang.Proofs.Grammar.RoundTrip
import PlcLang.Proofs.NestedLaws
import PlcLang.Proofs.Evaluation.Paired
import PlcLang.Proofs.Evaluation.Simulation
import PlcLang.Proofs.Evaluation.Arithmetic
import PlcLang.Proofs.Evaluation.Permuted
import PlcLang.Proofs.Evaluation.Trimmed
import PlcLang.Proofs.Evaluation.Zero
import PlcLang.Proofs.Grammar.Escapes
import PlcLang.Proofs.Grammar.Places
import PlcLang.Proofs.Blame
