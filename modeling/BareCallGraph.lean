import BareCallGraph.Analysis.Analyzer
import BareCallGraph.CallGraph.Json
import BareCallGraph.CommandLine.Run
import BareCallGraph.Main
import BareCallGraph.Proofs.BareCalls
import BareCallGraph.Proofs.GraphSets
import BareCallGraph.Proofs.Definitions
import BareCallGraph.Proofs.Outcomes
import BareCallGraph.Proofs.Passes
import BareCallGraph.Proofs.DeclarativeGraph
import BareCallGraph.Proofs.EdgeIntegrity
import BareCallGraph.Proofs.FailureLaw
import BareCallGraph.Proofs.Schedules
import BareCallGraph.Proofs.TextBytes
import BareCallGraph.Proofs.Locations
import BareCallGraph.Proofs.Walks
import BareCallGraph.Proofs.WalkOrder
import BareCallGraph.Proofs.DiscoveredFiles
import BareCallGraph.Proofs.PathWinners
import BareCallGraph.Proofs.FollowedLinks
import BareCallGraph.Proofs.JsonRoundTrip
import BareCallGraph.Proofs.DotText
import BareCallGraph.Proofs.PrunedWalks
import BareCallGraph.Proofs.JsonDocuments
import BareCallGraph.Proofs.CatalogueItems
import BareCallGraph.Proofs.TableStates
import BareCallGraph.Proofs.StackLinks
import BareCallGraph.Proofs.ReadingSoundness
import BareCallGraph.Proofs.FunctionNames
import BareCallGraph.Proofs.TextLines
import BareCallGraph.Proofs.QualifiedNames
import BareCallGraph.Proofs.AddedModules
import BareCallGraph.Proofs.ParserCalls
import BareCallGraph.Proofs.BindingHistory
import BareCallGraph.Proofs.EditedFunctions
import BareCallGraph.Proofs.WrittenFiles
import BareCallGraph.Proofs.CommandOutput
import BareCallGraph.Proofs.LinkLimit
import BareCallGraph.Proofs.RootSpellings
import BareCallGraph.Proofs.Preorder
import BareCallGraph.Proofs.Places
import BareCallGraph.Proofs.FirstFault
import BareCallGraph.Proofs.Extras
import BareCallGraph.Proofs.Parentheses
import BareCallGraph.Proofs.GraphAdditions
import BareCallGraph.Proofs.ModuleNames
import BareCallGraph.Proofs.RuleMarks
import BareCallGraph.Proofs.ShownTrees
import BareCallGraph.Proofs.DefinitionShapes
import BareCallGraph.Proofs.NameTokens
import BareCallGraph.Proofs.CallAttribution
import BareCallGraph.Proofs.LinkTrails
import BareCallGraph.Proofs.ExcludedLinks
import BareCallGraph.Proofs.UndiscoveredFiles
