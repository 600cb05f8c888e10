import ContractLinker.Main
import ContractLinker.Proofs.Project.Integrity
import ContractLinker.Proofs.Report.Conformance
import ContractLinker.Proofs.Yul.Parsing
import ContractLinker.Proofs.Assembly.Auxdata
import ContractLinker.Proofs.Report.Auxdata
import ContractLinker.Proofs.Project.IntermediateCode
import ContractLinker.Proofs.CommandLine.Outcome
import ContractLinker.Proofs.Report.Extension
import ContractLinker.Proofs.Report.Relinking
import ContractLinker.Proofs.Assembly.References
import ContractLinker.Proofs.Keccak.Blocks
import ContractLinker.Proofs.Yul.Capture
import ContractLinker.Proofs.Yul.Dependencies
import ContractLinker.Proofs.Yul.Forgetting
import ContractLinker.Proofs.Yul.Respacing
import ContractLinker.Proofs.Yul.Contexts
import ContractLinker.Proofs.Yul.Failures
import ContractLinker.Proofs.Yul.Reached
import ContractLinker.Proofs.Yul.FirstFault
import ContractLinker.Proofs.Yul.Peeking
import ContractLinker.Proofs.Ast.Findings
import ContractLinker.Proofs.Report.Merging
import ContractLinker.Proofs.Json.Rendering
import ContractLinker.Proofs.Project.Libraries
import ContractLinker.Proofs.Project.Precedence
import ContractLinker.Proofs.Project.Dumps
import ContractLinker.Proofs.Ast.Locations
