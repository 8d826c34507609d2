import Inquiry.Builder
import Inquiry.Derivation.Json
import Inquiry.Derivation.Text
import Inquiry.Json.Text
import Inquiry.Proofs.Arithmetic
import Inquiry.Proofs.Derivation.Lossless
import Inquiry.Proofs.Derivation.Rendering
import Inquiry.Proofs.Heap.Descent
import Inquiry.Proofs.Pass.Globals
import Inquiry.Proofs.Pass.Bindings
import Inquiry.Proofs.Pass.Dependence
import Inquiry.Proofs.Pass.Nesting
import Inquiry.Proofs.Pass.Places
import Inquiry.Proofs.Pass.Selection
import Inquiry.Proofs.Session.Asking
import Inquiry.Proofs.Session.Discovery
import Inquiry.Proofs.Session.Gas
import Inquiry.Proofs.Session.Kinds
import Inquiry.Proofs.Session.Notification
import Inquiry.Proofs.Session.Refusal
import Inquiry.Proofs.Session.Renumbering
import Inquiry.Proofs.Session.Safety
import Inquiry.Proofs.Session.Scoping
import Inquiry.Proofs.Session.Tracing
import Inquiry.Proofs.Value.RoundTrip
