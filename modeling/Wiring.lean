import Wiring.Main
import Wiring.Proofs.Traversal
import Wiring.Proofs.Circles
import Wiring.Proofs.Expansions
import Wiring.Proofs.Trimming
import Wiring.Proofs.Settings.BareNames
import Wiring.Proofs.Graph.Circularity
import Wiring.Proofs.Graph.Description
import Wiring.Proofs.Graph.Expansion
import Wiring.Proofs.Graph.Agreement
import Wiring.Proofs.Graph.Needs
import Wiring.Proofs.Graph.Requirements
import Wiring.Proofs.Graph.Execution
import Wiring.Proofs.Graph.Meaning
import Wiring.Proofs.Graph.Clashes
import Wiring.Proofs.Peeling.Turns
import Wiring.Proofs.Peeling.Entries
import Wiring.Proofs.Peeling.Least
import Wiring.Proofs.Hierarchy.Declarations
import Wiring.Proofs.Hierarchy.Circularity
import Wiring.Proofs.Hierarchy.Queries
import Wiring.Proofs.Assembly.Inheritance
import Wiring.Proofs.Assembly.Suppression
import Wiring.Proofs.Assembly.References
import Wiring.Proofs.Assembly.Ordering
import Wiring.Proofs.Assembly.Composition
import Wiring.Proofs.Assembly.Conformance
import Wiring.Proofs.Assembly.Precedence
import Wiring.Proofs.Assembly.DeclarationOrder
import Wiring.Proofs.Assembly.Interception
import Wiring.Proofs.Assembly.Sharing
import Wiring.Proofs.Assembly.ResolverNames
import Wiring.Proofs.Assembly.Agreement
import Wiring.Proofs.Assembly.Reordering
import Wiring.Proofs.Layout.Sections
import Wiring.Proofs.Assembly.Leaf
import Wiring.Proofs.Signature.Text
import Wiring.Proofs.Assembly.Texts
import Wiring.Proofs.Layout.Form
import Wiring.Proofs.Layout.Readback
import Wiring.Proofs.Manifest.Document
