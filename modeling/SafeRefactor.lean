import SafeRefactor.Member.AccessName
import SafeRefactor.Member.Usage
import SafeRefactor.Program.Discovery
import SafeRefactor.Program.Session
import SafeRefactor.Proofs.Boundary
import SafeRefactor.Proofs.WayOut
import SafeRefactor.Region.Extraction
import SafeRefactor.Tree.Numbering
import SafeRefactor.Proofs.Acceptance
import SafeRefactor.Proofs.Environment
import SafeRefactor.Proofs.Receiver
import SafeRefactor.Proofs.AlwaysAssigned
import SafeRefactor.Proofs.LiveOut
import SafeRefactor.Proofs.Locality
import SafeRefactor.Proofs.Totality
import SafeRefactor.Proofs.SafeDelete
import SafeRefactor.Proofs.Strategies
import SafeRefactor.Proofs.Cancellation
import SafeRefactor.Proofs.Reporting
import SafeRefactor.Proofs.InsertionOrder
import SafeRefactor.Proofs.ParameterScope
import SafeRefactor.Proofs.LexicalScope
import SafeRefactor.Proofs.Completeness
import SafeRefactor.Proofs.Nesting
import SafeRefactor.Proofs.Containment
import SafeRefactor.Proofs.Variables
import SafeRefactor.Proofs.WholeBody
import SafeRefactor.Proofs.Descent
import SafeRefactor.Proofs.SelectionRange
import SafeRefactor.Proofs.SelectionCover
import SafeRefactor.Proofs.LoopCarried
import SafeRefactor.Proofs.Enclosure
import SafeRefactor.Proofs.LoopExit
import SafeRefactor.Proofs.Suspension
import SafeRefactor.Proofs.Inheritance
import SafeRefactor.Proofs.MemberUse
import SafeRefactor.Proofs.PathMap
import SafeRefactor.Proofs.Growth
import SafeRefactor.Proofs.RelativeImport
import SafeRefactor.Proofs.FieldSpan
import SafeRefactor.Proofs.ArithmeticType
import SafeRefactor.Proofs.GeneratedName
import SafeRefactor.Proofs.Monotony
import SafeRefactor.Proofs.FirstDeclaration
