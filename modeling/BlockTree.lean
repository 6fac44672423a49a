import BlockTree.Arena
import BlockTree.Exposition
import BlockTree.Main
import BlockTree.Mining
import BlockTree.Outage
import BlockTree.Pool
import BlockTree.Proofs.Contract
import BlockTree.Proofs.NodeContract
import BlockTree.Proofs.Transitions
import BlockTree.Spending
import BlockTree.Proofs.Submission
import BlockTree.Proofs.History
import BlockTree.Proofs.Codec
import BlockTree.Proofs.Keys
import BlockTree.Proofs.Shelving
import BlockTree.Proofs.Batches
import BlockTree.Proofs.Caching
import BlockTree.Proofs.Observation
import BlockTree.Proofs.ChainInvariant
import BlockTree.Proofs.BestTip
import BlockTree.Proofs.Retry
import BlockTree.Proofs.SpendCheck
import BlockTree.Proofs.DoubleSpend
import BlockTree.Proofs.Delivery
import BlockTree.Proofs.Replies
import BlockTree.Proofs.Rooting
import BlockTree.Proofs.ArrivalOrder
import BlockTree.Proofs.Following
import BlockTree.Proofs.BranchChanges
import BlockTree.Proofs.FirstChange
import BlockTree.Proofs.Convergence
import BlockTree.Proofs.BranchGrowth
import BlockTree.Proofs.Restarts
import BlockTree.Proofs.Trails
import BlockTree.Proofs.Agreement
import BlockTree.Proofs.Divergence
import BlockTree.Proofs.Preimages
import BlockTree.Proofs.MerkleBinding
import BlockTree.Proofs.Commitment
import BlockTree.Proofs.OrphanPool
import BlockTree.Proofs.Places
import BlockTree.Proofs.Pooling
import BlockTree.Proofs.Serving
import BlockTree.Proofs.Finality
import BlockTree.Proofs.Copies
import BlockTree.Proofs.Indexes
import BlockTree.Proofs.Handles
import BlockTree.Proofs.Audience
import BlockTree.Proofs.Conservation
import BlockTree.Proofs.Completion
import BlockTree.Proofs.Parting
import BlockTree.Proofs.Ascent
import BlockTree.Proofs.ClaimSearch
import BlockTree.Proofs.Funding
import BlockTree.Proofs.Atomicity
import BlockTree.Proofs.Refusals
import BlockTree.Proofs.Gauges
import BlockTree.Proofs.RecordPrefixes
import BlockTree.Proofs.ImportRuns
import BlockTree.Proofs.Spelling
import BlockTree.Proofs.Difficulty
import BlockTree.Proofs.Catalogue
import BlockTree.Proofs.OrphanWalk
import BlockTree.Proofs.JsonText
import BlockTree.Proofs.BlockFiles
