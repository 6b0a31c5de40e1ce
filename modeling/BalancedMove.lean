import BalancedMove.Construction
import BalancedMove.Pairs.Random
import BalancedMove.Stopwatch
import BalancedMove.Store.Check
import BalancedMove.Proofs.Arena.Fields
import BalancedMove.Proofs.Sequence
import BalancedMove.Store.Cursor
import BalancedMove.Proofs.Arena.ListView
import BalancedMove.Proofs.Arena.Shape
import BalancedMove.Proofs.Arena.TreeView
import BalancedMove.Proofs.Arena.Rebalance
import BalancedMove.Proofs.Arena.Insert
import BalancedMove.Proofs.Arena.TreeOrder
import BalancedMove.Proofs.Arena.Build
import BalancedMove.Proofs.Store.Operations
import BalancedMove.Proofs.Balance.Oracle
import BalancedMove.Proofs.Store.Sound
import BalancedMove.Proofs.Balance.Split
import BalancedMove.Proofs.Balance.Cascade
import BalancedMove.Proofs.Balance.Sweep
import BalancedMove.Proofs.Pairs.Valid
import BalancedMove.Proofs.Store.Whole
import BalancedMove.Proofs.Balance.Alone
import BalancedMove.Proofs.MoveTable.InDegree
import BalancedMove.Proofs.MoveTable.OfStore
import BalancedMove.Proofs.Balance.Bound
import BalancedMove.Proofs.Balance.Growth
import BalancedMove.Proofs.MoveTable.Map
import BalancedMove.Proofs.Balance.Preservation
import BalancedMove.Proofs.Pairs.Verdict
import BalancedMove.Proofs.Balance.Total
import BalancedMove.Proofs.Parallel.Ranges
import BalancedMove.Proofs.Pairs.Refines
import BalancedMove.Proofs.Parallel.Pieces
import BalancedMove.Proofs.Parallel.Channel
import BalancedMove.Proofs.Parallel.Worker
import BalancedMove.Proofs.Parallel.Rounds
import BalancedMove.Proofs.Parallel.Assignment
import BalancedMove.Proofs.Parallel.Start
import BalancedMove.Proofs.Parallel.Union
import BalancedMove.Proofs.Parallel.Finished
import BalancedMove.Proofs.Parallel.Counts
import BalancedMove.Proofs.Parallel.Balance
import BalancedMove.Proofs.Parallel.Joining
import BalancedMove.Proofs.MoveTable.OfPairs
import BalancedMove.Proofs.Parallel.Bound
import BalancedMove.Proofs.Parallel.Exchange
import BalancedMove.Proofs.Parallel.Course
import BalancedMove.Proofs.Parallel.Schedule
import BalancedMove.Proofs.Parallel.Lockstep
import BalancedMove.Proofs.Parallel.Duration
import BalancedMove.Proofs.Parallel.Safety
import BalancedMove.Proofs.Parallel.Total
import BalancedMove.Proofs.Memory
import BalancedMove.Proofs.Parallel.Preservation
import BalancedMove.Proofs.Parallel.Growth
import BalancedMove.Proofs.Parallel.Undoing
import BalancedMove.Proofs.Parallel.Unsplit
import BalancedMove.Proofs.MoveTable.Rows
import BalancedMove.Proofs.Balance.Routing
import BalancedMove.Proofs.Parallel.Single
import BalancedMove.Proofs.MoveTable.Steps
import BalancedMove.Proofs.Pairs.Lengths
import BalancedMove.Proofs.Store.Bounded
import BalancedMove.Proofs.Parallel.Widths
import BalancedMove.Proofs.Arena.SharedLists
import BalancedMove.Proofs.Arena.InsertByKey
import BalancedMove.Proofs.Arena.SharedTrees
import BalancedMove.Proofs.Arena.OrderStatistics
import BalancedMove.Proofs.Store.Added
import BalancedMove.Proofs.Arena.Membership
import BalancedMove.Proofs.Store.Membership
import BalancedMove.Proofs.Parallel.Marks
import BalancedMove.Proofs.Parallel.Boundaries
import BalancedMove.Proofs.Balance.Light
import BalancedMove.Proofs.Balance.SplitPoint
import BalancedMove.Proofs.Random.Draws
import BalancedMove.Proofs.Pairs.Random
import BalancedMove.Proofs.Balance.Settling
import BalancedMove.Proofs.Arena.Heights
