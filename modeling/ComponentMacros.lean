import ComponentMacros.Edit
import ComponentMacros.Macro
import ComponentMacros.Options
import ComponentMacros.Scope
import ComponentMacros.UsageError
import ComponentMacros.Text.Identifier
import ComponentMacros.Text.Escape
import ComponentMacros.Keyword
import ComponentMacros.Token
import ComponentMacros.Tree
import ComponentMacros.Grammar.Basic
import ComponentMacros.Grammar.Name
import ComponentMacros.Grammar.Modifier
import ComponentMacros.Grammar.Pattern
import ComponentMacros.Grammar.Type
import ComponentMacros.Grammar.Target
import ComponentMacros.Grammar.Function
import ComponentMacros.Grammar.Literal
import ComponentMacros.Grammar.Markup
import ComponentMacros.Grammar.Class
import ComponentMacros.Grammar.Expression
import ComponentMacros.Grammar.Declaration
import ComponentMacros.Grammar.Module
import ComponentMacros.Grammar.Statement
import ComponentMacros.Grammar.Export
import ComponentMacros.Grammar.Program
import ComponentMacros.Usage.Collect
import ComponentMacros.Transform
import ComponentMacros.Proofs.Boundary
import ComponentMacros.Proofs.Layout
import ComponentMacros.Proofs.SitePath
import ComponentMacros.Proofs.Cut
import ComponentMacros.Proofs.Recorded
import ComponentMacros.Proofs.RenderLog
import ComponentMacros.Proofs.Collision
import ComponentMacros.Proofs.Completion
import ComponentMacros.Proofs.Coverage
import ComponentMacros.Proofs.Inert
import ComponentMacros.Proofs.Survival
import ComponentMacros.Proofs.Deal
import ComponentMacros.Proofs.Ledger
import ComponentMacros.Proofs.Position
import ComponentMacros.Proofs.Misuse
import ComponentMacros.Proofs.LookAhead
import ComponentMacros.Proofs.ScopeChain
import ComponentMacros.Proofs.Scoping
import ComponentMacros.Proofs.Arrangement
import ComponentMacros.Proofs.Walk
import ComponentMacros.Proofs.Host
import ComponentMacros.Proofs.Locality
import ComponentMacros.Proofs.Reading
import ComponentMacros.Proofs.Placement
import ComponentMacros.Proofs.Unwrapping
import ComponentMacros.Proofs.TokenEnd
import ComponentMacros.Proofs.Operands
import ComponentMacros.Proofs.Listing
import ComponentMacros.Proofs.Erasure
import ComponentMacros.Proofs.FunctionScope
import ComponentMacros.Proofs.Capture
import ComponentMacros.Proofs.Gap
import ComponentMacros.Proofs.Members
import ComponentMacros.Proofs.Slots
import ComponentMacros.Proofs.Removal
import ComponentMacros.Proofs.Insertion
import ComponentMacros.Proofs.Parameters
import ComponentMacros.Proofs.RenderFunction
import ComponentMacros.Proofs.LeadingFactory
import ComponentMacros.Proofs.Mixin
import ComponentMacros.Proofs.Merging
import ComponentMacros.Proofs.Inlining
import ComponentMacros.Proofs.Quotation
import ComponentMacros.Proofs.PropList
import ComponentMacros.Proofs.ImportRemoval
import ComponentMacros.Proofs.Idempotence
import ComponentMacros.Proofs.Commutation
import ComponentMacros.Proofs.LineColumn
import ComponentMacros.Proofs.SiteOrder
import ComponentMacros.Proofs.Naming
import ComponentMacros.Proofs.NamedDefinition
import ComponentMacros.Proofs.Conservation
import ComponentMacros.Proofs.Lookup
import ComponentMacros.Proofs.ScopeQueries
import ComponentMacros.Proofs.TypeTree
import ComponentMacros.Proofs.FunctionalShorthand
