import Scoping.Lexicon.Shared
import Scoping.Scope.Stack
import Scoping.Table.History
import Scoping.Table.Outline
import Scoping.Proofs.Termination
import Scoping.Proofs.Dispatch
import Scoping.Proofs.FieldBlocks
import Scoping.Proofs.SlotOrigins
import Scoping.Proofs.Membership
import Scoping.Proofs.Waiting
import Scoping.Proofs.Search
import Scoping.Proofs.Reordering
import Scoping.Proofs.Canonical
import Scoping.Proofs.WrittenOnce
import Scoping.Proofs.Unrelated
import Scoping.Proofs.Reparenting
import Scoping.Proofs.Storage
import Scoping.Proofs.TypeHistory
import Scoping.Proofs.TypeText
import Scoping.Proofs.FlagTraversal
import Scoping.Proofs.Inward
import Scoping.Proofs.OwnTypes
import Scoping.Proofs.Admission
import Scoping.Proofs.Merging
import Scoping.Proofs.Overriding
import Scoping.Proofs.Payload
import Scoping.Proofs.Questions
import Scoping.Proofs.Answered
import Scoping.Proofs.SelfExtension
import Scoping.Proofs.SlotSequence
import Scoping.Proofs.LayoutChoice
import Scoping.Proofs.Descendants
import Scoping.Proofs.AliasChains
import Scoping.Proofs.Builtins
import Scoping.Proofs.Qualified
import Scoping.Proofs.Rendering
import Scoping.Proofs.Interning
import Scoping.Proofs.ActiveScopes
import Scoping.Proofs.PlainLexicons
