import CppPerf.Actors.PhilosophersProgress
import CppPerf.Arrays.MergeStonesLayers
import CppPerf.Arrays.MergeStonesLeast
import CppPerf.Arrays.MountainArray
import CppPerf.Arrays.SubarraysWithSumCount
import CppPerf.Booking.ReservationSystem
import CppPerf.Booking.ScheduleCapacity
import CppPerf.Buffer.DynBuffer
import CppPerf.Buffer.DynBufferAdmission
import CppPerf.Buffer.DynBufferCopy
import CppPerf.Buffer.DynBufferFifo
import CppPerf.Buffer.DynBufferRefusal
import CppPerf.Buffer.DynMsg
import CppPerf.Buffer.DynMsgQueue
import CppPerf.Buffer.DynMsgReadBack
import CppPerf.Buffer.DynMsgWorld
import CppPerf.Counters.RequestCounter
import CppPerf.Counting.BrickWallCount
import CppPerf.Counting.CoinChange
import CppPerf.Counting.DecodeWays
import CppPerf.Counting.DoubledPairs
import CppPerf.Counting.HeavyHitter
import CppPerf.Feed.AtomicSet
import CppPerf.Feed.AtomicSetAgree
import CppPerf.Feed.TwitterFeed
import CppPerf.Games.MineSweeperCascade
import CppPerf.Games.MineSweeperCounts
import CppPerf.Games.MineSweeperSetupSquare
import CppPerf.Games.TicTacToe
import CppPerf.Graphs.ComponentSize
import CppPerf.Graphs.CycleFinderSums
import CppPerf.Graphs.GraphPath
import CppPerf.Graphs.ShortestReach
import CppPerf.Graphs.UnionFindCount
import CppPerf.Graphs.UnionFindDepth
import CppPerf.Graphs.UnionFindMap
import CppPerf.HashTable.Basic
import CppPerf.HashTable.Bucket
import CppPerf.HashTable.BucketRefinement
import CppPerf.HashTable.BucketUpdate
import CppPerf.HashTable.Chained
import CppPerf.HashTable.ChainedErase
import CppPerf.HashTable.ChainedLoops
import CppPerf.HashTable.ChainedRefinement
import CppPerf.HashTable.ChainedStatistics
import CppPerf.HashTable.DesignHashRefinement
import CppPerf.HashTable.Probing
import CppPerf.HashTable.ProbingRefinement
import CppPerf.Interpreters.BoolExpr
import CppPerf.Interpreters.BraceExpansion
import CppPerf.Interpreters.Calculator2Value
import CppPerf.Interpreters.CalculatorValue
import CppPerf.Interpreters.WordMachine
import CppPerf.Knapsack.LastStoneWeight
import CppPerf.Knapsack.TallestBillboard
import CppPerf.Lists.Cycle
import CppPerf.Lists.MergeTwoLists
import CppPerf.Lists.MyLinkedList
import CppPerf.Market.OrderTiersDepth
import CppPerf.Market.RegionalBook
import CppPerf.Memory.Flat
import CppPerf.Memory.IntervalPool
import CppPerf.Memory.LinkedList
import CppPerf.Numbers.EulerPhi
import CppPerf.Numbers.LargeIntBasic
import CppPerf.Numbers.LargeIntDigits
import CppPerf.Numbers.LargeIntFast
import CppPerf.Numbers.MillerRabin
import CppPerf.Numbers.PowerLarge
import CppPerf.Numbers.RepeatingDecimals
import CppPerf.Numbers.RightTriangles
import CppPerf.Numbers.RussianPeasant
import CppPerf.Ownership.SharedPtrRelease
import CppPerf.Ownership.SharedPtrRuns
import CppPerf.Pool.TaskChainingLost
import CppPerf.Pool.ThreadPool
import CppPerf.Prices.GetInt64PriceLoss
import CppPerf.Prices.Int64ToPriceKeeps
import CppPerf.Queue.CircularQueue
import CppPerf.Queue.DataBatchingAccounting
import CppPerf.Queue.MemoryRecyclerCounts
import CppPerf.Queue.MyCircularDeque
import CppPerf.Queue.SListEx
import CppPerf.Queue.SlistRPopAll
import CppPerf.Queue.SlistRPopFront
import CppPerf.Random.FlipMatrix
import CppPerf.Random.RandomizedSet
import CppPerf.Registry.PhoneRegistry
import CppPerf.Selection.BitSearch
import CppPerf.Selection.NthSmallest
import CppPerf.Semantics.GameTree
import CppPerf.Semantics.OpenAddressing
import CppPerf.Semantics.PopStack
import CppPerf.Semantics.Run
import CppPerf.Semantics.SetHistory
import CppPerf.Semantics.Vec
import CppPerf.Sequences.MonotoneStack
import CppPerf.Sequences.NestedIterator
import CppPerf.Sequences.PoisonousPlants
import CppPerf.Sequences.PrisonCells
import CppPerf.Sequences.QueryDesigns
import CppPerf.Sequences.ReverseStringIf
import CppPerf.Sequences.StackDesigns
import CppPerf.Storage.SimplifiedStorage
import CppPerf.Storage.FixedAllocator
import CppPerf.Storage.SimplifiedStorageConserved
import CppPerf.Storage.VectorSmallOp
import CppPerf.Strings.CanTransform
import CppPerf.Strings.DecodeAtIndex
import CppPerf.Strings.LongestDup
import CppPerf.Strings.MinDistance
import CppPerf.Strings.Supersequence
import CppPerf.Text.Base64
import CppPerf.Text.FileToken
import CppPerf.Text.Ftoa
import CppPerf.Text.ItoaDecimal
import CppPerf.Text.MiniParser
import CppPerf.Trees.CBTInserter
import CppPerf.Trees.Codec
import CppPerf.Trees.QuadTree
import CppPerf.Trees.ValidBST
import CppPerf.Tries.BinaryTrie
import CppPerf.Tries.DictTrie
import CppPerf.Tries.MapSum
import CppPerf.Tries.Trie
