import MarginGuard.Source.Waterfall
import MarginGuard.Guarantees.ConcurrentOpen
import MarginGuard.Guarantees.ConcurrentRemoval
import MarginGuard.Guarantees.ConcurrentFunding
import MarginGuard.Guarantees.InsuranceLedger
import MarginGuard.Guarantees.Rejection
import MarginGuard.Guarantees.Sweep
import MarginGuard.Guarantees.SweepOrder
import MarginGuard.Guarantees.Conservation
import MarginGuard.Guarantees.EventLog
import MarginGuard.Foundation.SetIndex
import MarginGuard.Foundation.Simulation
import MarginGuard.Source.MemoryStore
import MarginGuard.Foundation.TokenBucket
import MarginGuard.Guarantees.StoreRefinement
import MarginGuard.Source.Limiter
import MarginGuard.Guarantees.MarketStream
import MarginGuard.Guarantees.RateLimit
import MarginGuard.Guarantees.FundingBalance
import MarginGuard.Guarantees.MatchedPair
import MarginGuard.Source.Decisions
import MarginGuard.Guarantees.LargerSeed
import MarginGuard.Source.Faults
import MarginGuard.Guarantees.ResumedSweep
import MarginGuard.Guarantees.PortFailure
import MarginGuard.Guarantees.SweepReport
import MarginGuard.Foundation.Isolation
import MarginGuard.Source.Parts
import MarginGuard.Guarantees.MarketIsolation
import MarginGuard.Guarantees.BreakerHistory
import MarginGuard.Guarantees.TrialRequests
import MarginGuard.Foundation.Truncation
import MarginGuard.Source.Advice
import MarginGuard.Source.Ratios
import MarginGuard.Guarantees.MarginRatio
import MarginGuard.Guarantees.AdvisorTier
import MarginGuard.Guarantees.LiquidationRegion
import MarginGuard.Guarantees.OpeningMargin
import MarginGuard.Guarantees.ExactMargin
import MarginGuard.Foundation.Decimal
import MarginGuard.Source.PgCodec
import MarginGuard.Guarantees.RowCodec
import MarginGuard.Source.LlmAdvisor
import MarginGuard.Guarantees.Narration
import MarginGuard.Guarantees.LiquidationMark
import MarginGuard.Guarantees.RetryBound
import MarginGuard.Guarantees.MoneyText
import MarginGuard.Foundation.Implementation
import MarginGuard.Source.Node
import MarginGuard.Guarantees.NodeRefinement
import MarginGuard.Guarantees.NodeIngest
import MarginGuard.Foundation.Broadcast
import MarginGuard.Guarantees.LiveFeed
import MarginGuard.Guarantees.FeedMirror
import MarginGuard.Guarantees.PgStoreRefinement
import MarginGuard.Foundation.Contract
import MarginGuard.Guarantees.PostgresEngine
import MarginGuard.Guarantees.UnreadableRow
import MarginGuard.Foundation.Json
import MarginGuard.Guarantees.Counters
import MarginGuard.Guarantees.WireFormat
import MarginGuard.Foundation.Mixing
import MarginGuard.Source.Oracle
import MarginGuard.Guarantees.OracleWalk
import MarginGuard.Foundation.Fallible
import MarginGuard.Source.Simulate
import MarginGuard.Guarantees.SimulationReport
import MarginGuard.Foundation.Observation
import MarginGuard.Source.Api
import MarginGuard.Guarantees.ApiService
import MarginGuard.Foundation.Serialization
import MarginGuard.Guarantees.MarketSerialization
import MarginGuard.Guarantees.QueryCompleteness
import MarginGuard.Foundation.Budget
import MarginGuard.Guarantees.WaitFreedom
import MarginGuard.Foundation.ObservedImplementation
import MarginGuard.Source.ApiNode
import MarginGuard.Guarantees.NodeRequests
