import Chomsky.Binarization
import Chomsky.CharSet
import Chomsky.CommandLine.Arguments
import Chomsky.CommandLine.Directory
import Chomsky.CommandLine.Run
import Chomsky.Config
import Chomsky.Config.Json
import Chomsky.Deduplication
import Chomsky.Derivation
import Chomsky.Error
import Chomsky.Event
import Chomsky.Generating
import Chomsky.Grammar
import Chomsky.Grammar.Builder
import Chomsky.Grammar.Json
import Chomsky.Grammar.Parser
import Chomsky.Grammar.Printer
import Chomsky.Grammar.Reader
import Chomsky.Json.Number
import Chomsky.Json.Printer
import Chomsky.Json.Scanner
import Chomsky.Json.Skim
import Chomsky.Main
import Chomsky.NameSupply
import Chomsky.NullElimination
import Chomsky.Pass
import Chomsky.Registry
import Chomsky.Rule
import Chomsky.Saturation
import Chomsky.Symbol
import Chomsky.Text.Alphabetic
import Chomsky.Text.Bytes
import Chomsky.Text.Lines
import Chomsky.Text.Quoted
import Chomsky.Text.Visible
import Chomsky.UnitElimination
import Chomsky.UsefulSymbols
import Chomsky.Proofs.Generating
import Chomsky.Proofs.Binarization
import Chomsky.Proofs.NullElimination
import Chomsky.Proofs.UnitElimination
import Chomsky.Proofs.UsefulSymbols
import Chomsky.Proofs.Unfolding
import Chomsky.Proofs.Normalization
import Chomsky.Proofs.PassOrder
import Chomsky.Proofs.Renaming
import Chomsky.Proofs.RuleOrder
import Chomsky.Proofs.Rewriting
import Chomsky.Proofs.Renormalization
import Chomsky.Proofs.Lines
import Chomsky.Proofs.LineGrammar
import Chomsky.Proofs.PrintedGrammar
import Chomsky.Proofs.Bytes
import Chomsky.Proofs.ReadBytes
import Chomsky.Proofs.InPlace
import Chomsky.Proofs.WellFormedness
import Chomsky.Proofs.Construction
import Chomsky.Proofs.NameCalls
import Chomsky.Proofs.Resumption
import Chomsky.Proofs.Interchange
import Chomsky.Proofs.Deduplication
import Chomsky.Proofs.NamePlaces
import Chomsky.Proofs.NameRequests
import Chomsky.Proofs.WrittenRules
import Chomsky.Proofs.Undoing
import Chomsky.Proofs.RuleCount
import Chomsky.Proofs.RepeatedRules
import Chomsky.Proofs.Pruning
import Chomsky.Proofs.Deletions
import Chomsky.Proofs.Loops
import Chomsky.Proofs.Nullability
import Chomsky.Proofs.UnitClosure
import Chomsky.Proofs.InheritedRules
import Chomsky.Proofs.Building
import Chomsky.Proofs.Entries
import Chomsky.Proofs.PassTrees
import Chomsky.Proofs.ChainNames
import Chomsky.Proofs.Lookups
import Chomsky.Proofs.Sorting
import Chomsky.Proofs.SortedOutput
import Chomsky.Proofs.JsonSyntax
import Chomsky.Proofs.JsonScanning
import Chomsky.Proofs.JsonDecoding
import Chomsky.Proofs.RenderedGrammar
import Chomsky.Proofs.Skimming
import Chomsky.Proofs.ConfigTexts
