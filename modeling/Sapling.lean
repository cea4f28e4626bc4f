import Sapling.CommandLine.Run
import Sapling.Main
import Sapling.Proofs.Grammar
import Sapling.Proofs.ParseSteps
import Sapling.Proofs.ExpressionSound
import Sapling.Proofs.ProgramSound
import Sapling.Proofs.ExpressionComplete
import Sapling.Proofs.ProgramComplete
import Sapling.Proofs.LexerTokens
import Sapling.Proofs.Printable
import Sapling.Proofs.PrintedTokens
import Sapling.Proofs.Yield
import Sapling.Proofs.EqualTrees
import Sapling.Proofs.PrintedParse
import Sapling.Proofs.RoundTrip
import Sapling.Proofs.AssignmentOperands
import Sapling.Proofs.Grouping
import Sapling.Proofs.Derivation
import Sapling.Proofs.DerivedPhrases
import Sapling.Proofs.NestingLimit
import Sapling.Proofs.ViablePrefix
import Sapling.Proofs.DepthThreshold
import Sapling.Proofs.InStep
import Sapling.Proofs.EarliestErrors
import Sapling.Proofs.PathNesting
import Sapling.Proofs.DeepestPaths
import Sapling.Proofs.LexerSteps
import Sapling.Scanner
import Sapling.Proofs.ScannerSteps
import Sapling.Proofs.MaximalMunch
import Sapling.Proofs.WrittenTokens
import Sapling.Proofs.ScannerRun
import Sapling.Proofs.ProgramInStep
import Sapling.Proofs.PhraseExtension
import Sapling.Proofs.JoinedTexts
import Sapling.Proofs.JoinedPrograms
import Sapling.Parser
import Sapling.Node.Visitor
import Sapling.Proofs.TokenStreams
import Sapling.Proofs.ParserFetches
import Sapling.Proofs.AlikeStreams
import Sapling.Proofs.ParseCalls
import Sapling.Proofs.EndingCalls
import Sapling.Proofs.ParserRuns
import Sapling.Proofs.ReplayedTokens
import Sapling.Proofs.RestoredDepth
import Sapling.Proofs.NodePaths
import Sapling.Proofs.WalkRecords
import Sapling.Proofs.OutlineWalk
import Sapling.Proofs.PaneRows
import Sapling.Proofs.ErrorLines
import Sapling.Proofs.ViewerSteps
import Sapling.Proofs.ScrollCounters
import Sapling.Proofs.PaneSeparation
import Sapling.Proofs.ErrorPlaces
import Sapling.Proofs.PrecedenceClimbing
import Sapling.Proofs.ParameterLists
import Sapling.Proofs.StrictParameters
import Sapling.Proofs.RefusedParameters
import Sapling.Proofs.CommandRuns
import Sapling.Proofs.LexicalNodes
import Sapling.Proofs.OutlineTrees
import Sapling.Proofs.CensusCounts
import Sapling.Proofs.ExchangedNodes
import Sapling.Proofs.ExpressionPlaces
import Sapling.Proofs.JsonNumbers
import Sapling.Proofs.JsonTexts
import Sapling.Proofs.JsonPrograms
import Sapling.Proofs.FittedText
import Sapling.Proofs.HighlightedText
import Sapling.Proofs.SourceWindow
import Sapling.Proofs.HighlightedTokens
import Sapling.Proofs.ListedTokens
import Sapling.Proofs.OutlineText
