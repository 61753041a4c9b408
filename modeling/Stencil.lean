import Stencil.Document
import Stencil.Expr.Parser
import Stencil.Node.Agreement
import Stencil.Proofs.DefinitionsAsImport
import Stencil.Proofs.History
import Stencil.Proofs.NamespacedImport
import Stencil.Proofs.NormalForm
import Stencil.Proofs.ParserGrammar
import Stencil.Proofs.PlainResolution
import Stencil.Proofs.StyleEntries
import Stencil.Proofs.FlatNamespace
import Stencil.Proofs.References
import Stencil.Proofs.Phases
import Stencil.Proofs.Edits
import Stencil.Proofs.Locality
import Stencil.Proofs.Requests
import Stencil.Proofs.DepthLimit
import Stencil.Proofs.CycleGuard
import Stencil.Proofs.Hygiene
import Stencil.Proofs.Reexpansion
import Stencil.Proofs.PrintedExpressions
import Stencil.Proofs.IndexedLookup
import Stencil.Proofs.Tokenization
import Stencil.Proofs.Diagnostics
import Stencil.Proofs.PrimaryNames
import Stencil.Proofs.ListedOnce
import Stencil.Proofs.AmbiguousText
import Stencil.Proofs.ReportedCycles
import Stencil.Proofs.DependencyCycles
import Stencil.Proofs.AskedProperties
import Stencil.Proofs.SpecializationOrder
import Stencil.Proofs.StylePrecedence
import Stencil.Proofs.StyleOverrides
import Stencil.Proofs.RuleOwners
import Stencil.Proofs.SelectorText
import Stencil.Proofs.ErrorPositions
import Stencil.Proofs.BodyKinds
import Stencil.Proofs.DepthFirst
import Stencil.Proofs.GuardedLookups
import Stencil.Proofs.Insertions
import Stencil.Proofs.NumberText
