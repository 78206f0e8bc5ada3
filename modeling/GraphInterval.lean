import GraphInterval.Iterate
import GraphInterval.Fault
import GraphInterval.SparseSet
import GraphInterval.Trail
import GraphInterval.Partition
import GraphInterval.TiedHeap
import GraphInterval.Scalar.Double
import GraphInterval.Graph.Guarded
import GraphInterval.Event
import GraphInterval.Domain.Bounds
import GraphInterval.Domain.Values
import GraphInterval.GraphVar.Guarded
import GraphInterval.Propagation
import GraphInterval.Transitivity
import GraphInterval.Degree
import GraphInterval.Connectivity
import GraphInterval.Channel
import GraphInterval.Statistics
import GraphInterval.Session
import GraphInterval.Tour.Relaxation
import GraphInterval.Scalar.Exact
import GraphInterval.Proofs.Tree.Forest
import GraphInterval.Proofs.Tree.Spanning
import GraphInterval.Proofs.Tree.Minimal
import GraphInterval.Proofs.Tree.OneTree
import GraphInterval.Proofs.Tree.Rooted
import GraphInterval.Proofs.Tree.Contraction
import GraphInterval.Proofs.Table
import GraphInterval.Proofs.Scalar.Lawful
import GraphInterval.Proofs.OneTree.Basic
import GraphInterval.Proofs.OneTree.Designated
import GraphInterval.Proofs.OneTree.Kruskal
import GraphInterval.Proofs.OneTree.Paths
import GraphInterval.Proofs.OneTree.Replacement
import GraphInterval.Proofs.Chain
import GraphInterval.Proofs.Partition
import GraphInterval.Proofs.SparseSet
import GraphInterval.Proofs.Graph.Basic
import GraphInterval.Proofs.Graph.Compare
import GraphInterval.Proofs.Attempt
import GraphInterval.Proofs.GraphVar.Basic
import GraphInterval.Proofs.GraphVar.Mutation
import GraphInterval.Proofs.GraphVar.Restriction
import GraphInterval.Proofs.GraphVar.Reachable
import GraphInterval.Proofs.GraphVar.Backtracking
import GraphInterval.Proofs.Transitivity.Closure
import GraphInterval.Proofs.Transitivity.Filter
import GraphInterval.Proofs.Transitivity.Exact
import GraphInterval.Proofs.Transitivity.Incremental
import GraphInterval.Proofs.OneTree.Marginals
import GraphInterval.Proofs.OneTree.Sensitivity
import GraphInterval.Proofs.OneTree.Sized
import GraphInterval.Proofs.OneTree.Minimum
import GraphInterval.Proofs.TiedHeap.Entries
import GraphInterval.Proofs.TiedHeap.Map
import GraphInterval.Proofs.Scalar.Double
import GraphInterval.Proofs.OneTree.Prim
import GraphInterval.Proofs.OneTree.Conflict
import GraphInterval.Proofs.Tour.Cycle
import GraphInterval.Proofs.Tour.Penalties
import GraphInterval.Proofs.Tour.Iteration
import GraphInterval.Proofs.Tour.Soundness
import GraphInterval.Proofs.Connectivity.Component
import GraphInterval.Proofs.Connectivity.Search
import GraphInterval.Proofs.Connectivity.Exact
import GraphInterval.Proofs.Degree.Filter
import GraphInterval.Proofs.Session.Contract
import GraphInterval.Proofs.Session.Confluence
import GraphInterval.Proofs.Session.Notification
import GraphInterval.Proofs.Channel.Pass
import GraphInterval.Proofs.Channel.Solutions
import GraphInterval.Proofs.Degree.Exact
import GraphInterval.Proofs.Session.Entailment
import GraphInterval.Proofs.TiedHeap.Keys
import GraphInterval.Proofs.OneTree.Complete
import GraphInterval.Proofs.OneTree.Spanned
import GraphInterval.Proofs.OneTree.Termination
import GraphInterval.Proofs.Tour.Support
import GraphInterval.Proofs.Tour.HeldKarp
import GraphInterval.Proofs.Tour.Regular
import GraphInterval.Proofs.Tour.Ascent
import GraphInterval.Proofs.Tour.Optimal
import GraphInterval.Proofs.Tour.Termination
import GraphInterval.Proofs.Tour.Balance
import GraphInterval.Proofs.Event
import GraphInterval.Proofs.GraphVar.Log
import GraphInterval.Proofs.TiedHeap.Stale
import GraphInterval.Proofs.Lockstep
import GraphInterval.Proofs.Reuse.Propagators
import GraphInterval.Proofs.Reuse.Prim
import GraphInterval.Proofs.Reuse.Kruskal
import GraphInterval.Proofs.Reuse.Prune
import GraphInterval.Proofs.Reuse.Independence
import GraphInterval.Proofs.OneTree.Agreement
import GraphInterval.Proofs.TiedHeap.Refinement
import GraphInterval.Proofs.OneTree.Decisions
import GraphInterval.Proofs.OneTree.Selection
import GraphInterval.Proofs.OneTree.Pruning
import GraphInterval.Proofs.OneTree.Stability
import GraphInterval.Proofs.Graph.History
import GraphInterval.Proofs.OneTree.Loops
import GraphInterval.Proofs.GraphVar.Unconstrained
import GraphInterval.Proofs.GraphVar.Instantiation
import GraphInterval.Proofs.GraphVar.Commutation
import GraphInterval.Proofs.Trail
import GraphInterval.Proofs.Domain.Checkpointed
import GraphInterval.Proofs.Domain.Exact
import GraphInterval.Proofs.Run
import GraphInterval.Proofs.Partition.Generated
import GraphInterval.Proofs.SparseSet.Enumeration
import GraphInterval.Proofs.Transitivity.Termination
import GraphInterval.Proofs.GraphVar.Gains
import GraphInterval.Proofs.Tally
import GraphInterval.Proofs.Tour.Tally
import GraphInterval.Proofs.Session.Tally
import GraphInterval.Proofs.Trail.Segments
import GraphInterval.Proofs.Partition.Ranks
import GraphInterval.Proofs.Tree.Path
import GraphInterval.Proofs.OneTree.PathMaxima
import GraphInterval.Proofs.OneTree.CheapestCover
