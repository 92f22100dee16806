import SsaFlow.Handle
import SsaFlow.HandleMap
import SsaFlow.Text.Unseen
import SsaFlow.Text.Quoted
import SsaFlow.Instruction
import SsaFlow.Error
import SsaFlow.Table
import SsaFlow.BitSet
import SsaFlow.FlowGraph
import SsaFlow.FlowGraph.Order
import SsaFlow.Procedure
import SsaFlow.Procedure.Build
import SsaFlow.Procedure.Names
import SsaFlow.Procedure.Listing
import SsaFlow.Program
import SsaFlow.Text.Token
import SsaFlow.Text.Tree
import SsaFlow.Text.Parser
import SsaFlow.Text.Lower
import SsaFlow.Text.Parse
import SsaFlow.Dataflow.Problem
import SsaFlow.Dataflow.Solve
import SsaFlow.Dataflow.GenKill
import SsaFlow.Liveness.PhiInputs
import SsaFlow.Liveness.Domain
import SsaFlow.Liveness.Transfer
import SsaFlow.Liveness.Analysis
import SsaFlow.Liveness.Annotate
import SsaFlow.Recipe
import SsaFlow.Command
import SsaFlow.Main
import SsaFlow.Proofs.Recording
import SsaFlow.Proofs.Tables
import SsaFlow.Proofs.Worklist
import SsaFlow.Proofs.Fixpoint
import SsaFlow.Proofs.LeastSolution
import SsaFlow.Proofs.BitSets
import SsaFlow.Proofs.Domains
import SsaFlow.Proofs.PhiTables
import SsaFlow.Proofs.LiveTransfer
import SsaFlow.Proofs.LiveRuns
import SsaFlow.Proofs.LiveEquations
import SsaFlow.Proofs.PathLiveness
import SsaFlow.Proofs.StableResults
import SsaFlow.Proofs.EdgeLiveness
import SsaFlow.Proofs.CheckedResults
import SsaFlow.Proofs.BlockOrders
import SsaFlow.Proofs.LoopFree
import SsaFlow.Proofs.VisitCounts
import SsaFlow.Proofs.RisingRuns
import SsaFlow.Proofs.GenKillRuns
import SsaFlow.Proofs.GrowingSets
import SsaFlow.Proofs.Failures
import SsaFlow.Proofs.Lowering
import SsaFlow.Proofs.ResolvedGraphs
import SsaFlow.Proofs.Grammar
import SsaFlow.Proofs.Parsing
import SsaFlow.Proofs.LoweredGraphs
import SsaFlow.Proofs.Lexing
import SsaFlow.Proofs.RoundTrip
import SsaFlow.Proofs.SetRefinement
import SsaFlow.Proofs.Building
import SsaFlow.Proofs.Recipes
import SsaFlow.Proofs.PrintedNames
import SsaFlow.Proofs.PrintedTrees
import SsaFlow.Proofs.Relisting
import SsaFlow.Proofs.ErasedRuns
import SsaFlow.Proofs.PhiIsolation
import SsaFlow.Proofs.StaleInputs
import SsaFlow.Proofs.MarkedInputs
import SsaFlow.Proofs.InstructionChains
import SsaFlow.Proofs.WellFormedTrees
import SsaFlow.Proofs.RecomputedEdges
import SsaFlow.Proofs.WellFormedProcedures
import SsaFlow.Proofs.AnnotatedListings
import SsaFlow.Proofs.Derivations
import SsaFlow.Proofs.Postorders
import SsaFlow.Proofs.Members
import SsaFlow.Proofs.Numbering
import SsaFlow.Proofs.EndedBlocks
import SsaFlow.Proofs.PrintedLabels
import SsaFlow.Proofs.RecursiveSearch
import SsaFlow.Proofs.SeedOrders
import SsaFlow.Proofs.FixedTransfers
import SsaFlow.Proofs.LongestMatches
import SsaFlow.Proofs.TokenLines
