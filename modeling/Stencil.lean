import Stencil.CommandSet
import Stencil.Evaluation
import Stencil.Outline
import Stencil.Render
import Stencil.Store.Consistent
import Stencil.Proofs.CellUpdate
import Stencil.Proofs.LinkOrder
import Stencil.Proofs.SiblingChain
import Stencil.Proofs.ChainSplice
import Stencil.Proofs.Destruction
import Stencil.Proofs.BodyReplacement
import Stencil.Proofs.PlantedForest
import Stencil.Proofs.Planting
import Stencil.Proofs.ScanBounds
import Stencil.Proofs.LevelBounds
import Stencil.Proofs.OutlineReading
import Stencil.Proofs.LevelLayout
import Stencil.Proofs.BodyWorklist
import Stencil.Proofs.Spelling
import Stencil.Proofs.Accounting
import Stencil.Proofs.TreeCalls
import Stencil.Proofs.ScanLoops
import Stencil.Proofs.ReadingEnds
import Stencil.Proofs.SoundStore
import Stencil.Proofs.ParsedTree
import Stencil.Proofs.Editing
import Stencil.Proofs.Ownership
import Stencil.Proofs.Burial
import Stencil.Proofs.CacheMirror
import Stencil.Proofs.CacheUpkeep
import Stencil.Proofs.CommandMeaning
import Stencil.Proofs.Rendering
import Stencil.Proofs.Documents
import Stencil.Proofs.Escaping
import Stencil.Proofs.SpelledReading
import Stencil.Proofs.EscapedText
import Stencil.Proofs.EscapedBeside
import Stencil.Proofs.InertText
import Stencil.Proofs.StandingRelease
import Stencil.Proofs.ChainCustody
import Stencil.Proofs.TakenChains
import Stencil.Proofs.EvaluationStages
import Stencil.Proofs.ActionEffects
import Stencil.Proofs.Bookkeeping
import Stencil.Proofs.TrimmedChains
import Stencil.Proofs.ShedValues
import Stencil.Proofs.RootedChains
import Stencil.Proofs.RootedEvaluation
import Stencil.Proofs.PinnedWalk
import Stencil.Proofs.StretchedSource
import Stencil.Proofs.StretchedReading
import Stencil.Proofs.EquivalentParses
import Stencil.Proofs.JoinedSources
import Stencil.Proofs.TameScripts
import Stencil.Proofs.NestingBound
import Stencil.Proofs.BoundedEvaluation
import Stencil.Proofs.SufficientFuel
import Stencil.Proofs.UntouchedRegion
import Stencil.Proofs.AlikeChains
import Stencil.Proofs.DocumentSeam
import Stencil.Proofs.DocumentWalk
import Stencil.Proofs.JoinedDocuments
import Stencil.Proofs.Refusals
import Stencil.Proofs.SeparateValues
import Stencil.Proofs.UncheckedStore
import Stencil.Proofs.AbreastEvaluations
import Stencil.Proofs.UncheckedEvaluation
import Stencil.Proofs.UncheckedSessions
import Stencil.Proofs.AvoidedCommands
import Stencil.Proofs.CommandSetChoice
import Stencil.Proofs.ExpandingNames
import Stencil.Proofs.StoredChain
import Stencil.Proofs.FailureCauses
import Stencil.Proofs.BalancedBodies
import Stencil.Proofs.FailurePlaces
import Stencil.Proofs.WholeChains
import Stencil.Proofs.RearrangedChains
import Stencil.Proofs.ListSplices
import Stencil.Proofs.ExactDestruction
import Stencil.Proofs.MapGrammar
import Stencil.Proofs.EncodedProperties
import Stencil.Proofs.UndoneEscapes
import Stencil.Proofs.ReplacedBodies
import Stencil.Proofs.SparedDocuments
import Stencil.Proofs.ConfinedEdits
import Stencil.Proofs.SecludedSessions
import Stencil.Proofs.CopyTurns
import Stencil.Proofs.FaithfulCopies
import Stencil.Proofs.FirstPlaces
