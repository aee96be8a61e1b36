import CodeMotion.Func.Dot
import CodeMotion.Workspace
import CodeMotion.Random.Function
import CodeMotion.Proofs.Flow
import CodeMotion.Proofs.Change
import CodeMotion.Proofs.Reachability
import CodeMotion.Proofs.Graph
import CodeMotion.Proofs.Catalog
import CodeMotion.Proofs.Numbering
import CodeMotion.Proofs.Exposure
import CodeMotion.Proofs.Delay
import CodeMotion.Proofs.Analysis
import CodeMotion.Proofs.Deletion
import CodeMotion.Proofs.Dominance
import CodeMotion.Proofs.Verified
import CodeMotion.Proofs.Edits
import CodeMotion.Proofs.Plan
import CodeMotion.Proofs.Insertion
import CodeMotion.Proofs.Rewiring
import CodeMotion.Proofs.Removal
import CodeMotion.Proofs.Splicing
import CodeMotion.Proofs.Rebuilding
import CodeMotion.Proofs.Moved
import CodeMotion.Proofs.Trails
import CodeMotion.Proofs.CopyPaths
import CodeMotion.Proofs.Supply
import CodeMotion.Proofs.Addresses
import CodeMotion.Proofs.SingleCopy
import CodeMotion.Proofs.WellFormed
import CodeMotion.Proofs.Optimize
import CodeMotion.Proofs.Effects
import CodeMotion.Proofs.Keeping
import CodeMotion.Proofs.Crossing
import CodeMotion.Proofs.Meaning
import CodeMotion.Proofs.Placements
import CodeMotion.Proofs.Optimality
import CodeMotion.Proofs.Computations
import CodeMotion.Func.Search
import CodeMotion.Func.Forest
import CodeMotion.Proofs.SearchTree
import CodeMotion.Proofs.Semidominators
import CodeMotion.Proofs.DepthFirstSearch
import CodeMotion.Proofs.Charts
import CodeMotion.Proofs.DefBeforeUse
import CodeMotion.Proofs.MeetOverPaths
import CodeMotion.Proofs.Keys
import CodeMotion.Proofs.Alike
import CodeMotion.Proofs.Correspondence
import CodeMotion.Proofs.BlockOrder
import CodeMotion.Proofs.DeadCode
import CodeMotion.Proofs.Anticipation
import CodeMotion.Proofs.Postponement
import CodeMotion.Proofs.Safety
import CodeMotion.Proofs.Counters
import CodeMotion.Proofs.Subdivision
import CodeMotion.Proofs.Operands
import CodeMotion.Proofs.Reporting
import CodeMotion.Proofs.Footprint
import CodeMotion.Proofs.Preservation
import CodeMotion.Proofs.LocalSets
import CodeMotion.Proofs.FinishOrder
import CodeMotion.Proofs.Merges
import CodeMotion.Proofs.Building
import CodeMotion.Proofs.Generation
import CodeMotion.Proofs.RandomFunctions
import CodeMotion.Proofs.Termination
import CodeMotion.Proofs.ModuleRuns
import CodeMotion.Proofs.Consistency
import CodeMotion.Proofs.DefinitionOrder
import CodeMotion.Proofs.FirstOccurrences
import CodeMotion.Proofs.Queueing
import CodeMotion.Proofs.Literals
