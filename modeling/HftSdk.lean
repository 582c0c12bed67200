import HftSdk.Lib.SortedMap
import HftSdk.Lib.MapRelation
import HftSdk.Lib.Sweep
import HftSdk.Lib.PriorityList
import HftSdk.Lib.Index
import HftSdk.Lib.Defaults
import HftSdk.Lib.Run
import HftSdk.Lib.SlidingWindow
import HftSdk.Lib.SequenceCounter
import HftSdk.Lib.LinkedStack
import HftSdk.Lib.OrderStatistic
import HftSdk.Lib.FirstMatch
import HftSdk.Lib.WeightedMean
import HftSdk.Common.Types
import HftSdk.Common.MachineInt
import HftSdk.Orderbook.L3OrderBook
import HftSdk.Orderbook.Matching
import HftSdk.Orderbook.Ladder
import HftSdk.Orderbook.Refinement
import HftSdk.Orderbook.Invariants
import HftSdk.Orderbook.Greedy
import HftSdk.Orderbook.History
import HftSdk.Orderbook.Priority
import HftSdk.Orderbook.Reports
import HftSdk.Orderbook.CancelReplace
import HftSdk.Orderbook.Levels
import HftSdk.Orderbook.QueuePositions
import HftSdk.Orderbook.ImmediateOrCancel
import HftSdk.Orderbook.Mirror
import HftSdk.Orderbook.Feeds
import HftSdk.Orderbook.RollingStatistics
import HftSdk.Orderbook.TopOfBook
import HftSdk.Orderbook.MachineBook
import HftSdk.Orderbook.MachineTopOfBook
import HftSdk.Orderbook.MachineSums
import HftSdk.Orderbook.MachineReports
import HftSdk.Risk.RiskEngine
import HftSdk.Risk.PositionLimit
import HftSdk.Risk.RiskView
import HftSdk.Risk.RateWindow
import HftSdk.Risk.MachinePositions
import HftSdk.Concurrency.HPRingBuffer
import HftSdk.Concurrency.TryCalls
import HftSdk.Concurrency.Observers
import HftSdk.Concurrency.MemoryPool
import HftSdk.Concurrency.PoolCalls
import HftSdk.Market.OrderBook
import HftSdk.Market.BookEquivalence
import HftSdk.Market.RestingOrders
import HftSdk.Market.CancelById
import HftSdk.Market.TradeEngine
import HftSdk.Market.Attribution
import HftSdk.Market.Pnl
import HftSdk.Market.NetPositions
import HftSdk.Market.MatchingEngine
import HftSdk.Market.Dispatch
import HftSdk.Market.RiskGate
import HftSdk.Market.Sessions
import HftSdk.Market.CancelRouting
import HftSdk.Market.LiveRoutes
import HftSdk.Market.Rejections
import HftSdk.Market.MachineEngine
import HftSdk.Market.MarketData
import HftSdk.Market.Ledgers
import HftSdk.Market.SelfTrade
import HftSdk.Market.Statistics
import HftSdk.Market.MarketDataEngine
import HftSdk.Market.Conservation
import HftSdk.Market.Throttle
import HftSdk.Market.ExecutionStream
import HftSdk.Market.LastFill
import HftSdk.Metrics.LatencyHistogram
import HftSdk.Metrics.BenchmarkP99
import HftSdk.Metrics.ScopeTimer
import HftSdk.Latency.LatencyModel
import HftSdk.Market.DropCopy
import HftSdk.Orderbook.BestExecution
import HftSdk.Orderbook.TimeOrder
import HftSdk.Common.Clock
import HftSdk.Market.Replay
import HftSdk.Risk.TraderIsolation
import HftSdk.Market.SymbolIsolation
import HftSdk.Concurrency.PoolProgress
import HftSdk.Concurrency.RingProgress
import HftSdk.Common.Symbol
import HftSdk.Market.Positions
import HftSdk.Metrics.Telemetry
import HftSdk.Orderbook.OpenBook
import HftSdk.Orderbook.Snapshot
import HftSdk.Orderbook.IdleOrders
import HftSdk.Orderbook.Relabelling
import HftSdk.Market.TradeStream
import HftSdk.Lib.Spacing
import HftSdk.Market.UpdateRate
import HftSdk.Market.FeedThreads
import HftSdk.Market.PublisherThread
import HftSdk.Market.FeedProgress
