import MatrixChain.Main
import MatrixChain.Intake.RawArray
import MatrixChain.Node
import MatrixChain.Proofs.Fold
import MatrixChain.Proofs.CheapestBracketing
import MatrixChain.Proofs.Association
import MatrixChain.Proofs.Run
import MatrixChain.Proofs.Skeleton
import MatrixChain.Proofs.Arrangement
import MatrixChain.Proofs.ChildFold
import MatrixChain.Proofs.Construction
import MatrixChain.Proofs.MatrixAlgebra
import MatrixChain.Proofs.NormalForm
import MatrixChain.Proofs.LeftmostBracketing
import MatrixChain.Proofs.RunRecords
import MatrixChain.Proofs.Levels
import MatrixChain.Proofs.Session
import MatrixChain.Proofs.Store
import MatrixChain.Proofs.Pool
import MatrixChain.Proofs.Strategies
import MatrixChain.Proofs.ShapeInvariant
import MatrixChain.Proofs.Reconstruction
import MatrixChain.Proofs.InfixGrammar
import MatrixChain.Proofs.InfixNotation
import MatrixChain.Proofs.EqualArrangement
import MatrixChain.Proofs.BracketedNotation
import MatrixChain.Proofs.FirstFault
import MatrixChain.Proofs.StoredMatrices
import MatrixChain.Proofs.ReportedFault
import MatrixChain.Proofs.CallLog
import MatrixChain.Proofs.PoolLog
import MatrixChain.Proofs.Workload
import MatrixChain.Proofs.ChainFlaw
import MatrixChain.Proofs.Rebuilding
import MatrixChain.Proofs.UnknownNodes
import MatrixChain.Proofs.Renderings
import MatrixChain.Proofs.Parentheses
import MatrixChain.Proofs.LeftDeepCost
import MatrixChain.Proofs.CostLaws
import MatrixChain.Proofs.Columns
import MatrixChain.Proofs.PrintedTable
import MatrixChain.Proofs.Noting
import MatrixChain.Proofs.Rounds
import MatrixChain.Proofs.FoldCalls
import MatrixChain.Proofs.Schedule
import MatrixChain.Proofs.ShownText
import MatrixChain.Proofs.Report
import MatrixChain.Proofs.Response
