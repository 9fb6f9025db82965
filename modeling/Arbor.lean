import Arbor.Main
import Arbor.Proofs.Bytecode.Callers
import Arbor.Proofs.Bytecode.Emitting
import Arbor.Proofs.Bytecode.Reuse
import Arbor.Proofs.Capability.Serving
import Arbor.Proofs.Compilation.Denial
import Arbor.Proofs.Compilation.Hoisting
import Arbor.Proofs.Compilation.Jumps
import Arbor.Proofs.Compilation.Reloading
import Arbor.Proofs.Compilation.Resolution
import Arbor.Proofs.Evaluation.Bookkeeping
import Arbor.Proofs.Evaluation.CallLog
import Arbor.Proofs.Evaluation.Closures
import Arbor.Proofs.Evaluation.Formatting
import Arbor.Proofs.Evaluation.ImportOutcomes
import Arbor.Proofs.Evaluation.Isolation
import Arbor.Proofs.Evaluation.Loading
import Arbor.Proofs.Evaluation.Nesting
import Arbor.Proofs.Evaluation.Polling
import Arbor.Proofs.Evaluation.Transparency
import Arbor.Proofs.Node.Acceptance
import Arbor.Proofs.Node.Bare
import Arbor.Proofs.Node.Spans
import Arbor.Proofs.Operator.Equality
import Arbor.Proofs.Patch.Addressing
import Arbor.Proofs.Patch.Targets
import Arbor.Proofs.Recorder.Artifact
import Arbor.Proofs.Text.Parts
import Arbor.Proofs.Validation.Diligence
import Arbor.Proofs.Validation.Identity
import Arbor.Proofs.Validation.Imported
import Arbor.Proofs.Validation.Progress
import Arbor.Proofs.Validation.Undenied
import Arbor.Proofs.Validation.Vagueness
