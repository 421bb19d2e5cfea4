import RuleLogic.Compiler
import RuleLogic.Proofs.Compiler.Batch
import RuleLogic.Proofs.Compiler.Comparison
import RuleLogic.Proofs.Compiler.Counted
import RuleLogic.Proofs.Compiler.Currying
import RuleLogic.Proofs.Compiler.Fault
import RuleLogic.Proofs.Compiler.Limit
import RuleLogic.Proofs.Compiler.Outline
import RuleLogic.Proofs.Compiler.Provenance
import RuleLogic.Proofs.Compiler.TextLimit
import RuleLogic.Proofs.Display.Rule
import RuleLogic.Proofs.History
import RuleLogic.Proofs.Wire.Canonical
import RuleLogic.Proofs.Wire.Fault
