import VeriScript.Main
import VeriScript.Proofs.Term.RoundTrip
import VeriScript.Proofs.Ty.RoundTrip
import VeriScript.Proofs.Goal.Specification
import VeriScript.Proofs.Typing.Completeness
import VeriScript.Proofs.Typing.Soundness
import VeriScript.Proofs.Session.Safety
import VeriScript.Proofs.Run.Directory
import VeriScript.Proofs.Typing.Capture
import VeriScript.Proofs.Session.Aliases
import VeriScript.Proofs.Typing.Saturation
import VeriScript.Proofs.Term.NormalForm
import VeriScript.Proofs.Session.Destructuring
import VeriScript.Proofs.Goal.Closing
import VeriScript.Proofs.Run.Operators
import VeriScript.Proofs.Run.InlineTerms
import VeriScript.Proofs.Run.UnusedRecursion
import VeriScript.Proofs.Value.Equivalence
import VeriScript.Proofs.Reading.SingleStatement
import VeriScript.Proofs.Value.Strings
import VeriScript.Proofs.Term.CoqMeaning
