import ProcessGraph.Main
import ProcessGraph.Session.Run
import ProcessGraph.Proofs.Formula.Parsing
import ProcessGraph.Proofs.Graph.Registration
import ProcessGraph.Proofs.Graph.ResolvedReferences
import ProcessGraph.Proofs.Client.UndoneBlocks
import ProcessGraph.Proofs.Client.RepeatedDocuments
import ProcessGraph.Proofs.Graph.FormulaGraphs
import ProcessGraph.Proofs.Client.FormulaArguments
import ProcessGraph.Proofs.Formula.LeftmostErrors
import ProcessGraph.Proofs.Formula.Suggestions
import ProcessGraph.Proofs.Formula.IncompleteFormulas
import ProcessGraph.Proofs.Graph.FailedCallbacks
import ProcessGraph.Proofs.Graph.SharedElements
import ProcessGraph.Proofs.Graph.ElementKeys
import ProcessGraph.Proofs.Formula.RoundTrip
import ProcessGraph.Proofs.Graph.OperatorCalls
import ProcessGraph.Proofs.Graph.FormulaDeclarations
import ProcessGraph.Proofs.Graph.FormulaNodes
import ProcessGraph.Proofs.Graph.FormulaNumbers
import ProcessGraph.Proofs.Graph.OutdatedDeclarations
import ProcessGraph.Proofs.Graph.BoundArguments
import ProcessGraph.Proofs.Graph.FailedCalls
import ProcessGraph.Proofs.Graph.FormulaParameters
import ProcessGraph.Proofs.Graph.ReachedParameters
import ProcessGraph.Proofs.Graph.MergedDeclarations
import ProcessGraph.Proofs.Graph.ForeignNodes
import ProcessGraph.Proofs.Formula.Peeking
import ProcessGraph.Proofs.Formula.LexicalFaults
import ProcessGraph.Proofs.Graph.UniqueResults
import ProcessGraph.Proofs.Graph.CallbackProtocol
import ProcessGraph.Proofs.Graph.Shortcuts
import ProcessGraph.Proofs.Catalog.OrderedMap
import ProcessGraph.Proofs.CommandLine.Support
import ProcessGraph.Proofs.Graph.IssuedIds
import ProcessGraph.Proofs.Log.Configuration
import ProcessGraph.Proofs.Graph.NodeReferences
import ProcessGraph.Proofs.Graph.FailedDocuments
