import EtradePipeline.Book.Ledger
import EtradePipeline.Orders.Exclusive
import EtradePipeline.Orders.Lifecycle
import EtradePipeline.Orders.Limit
import EtradePipeline.Orders.MetricsTotals
import EtradePipeline.Orders.OpenLimit
import EtradePipeline.Queue.Accesses
import EtradePipeline.Queue.WholeCalls
import EtradePipeline.Receiver.Agreement
import EtradePipeline.Receiver.Shutdown
import EtradePipeline.Book.Soundness
import EtradePipeline.Feed.Frame
import EtradePipeline.Feed.Isolation
import EtradePipeline.Gateway.Backend
import EtradePipeline.Kit.Framing
import EtradePipeline.Gateway.Client
import EtradePipeline.Gateway.Framing
import EtradePipeline.Gateway.Answers
import EtradePipeline.Gateway.Grammar
import EtradePipeline.Receiver.Fields
import EtradePipeline.Receiver.Grammar
import EtradePipeline.Receiver.Printed
import EtradePipeline.Replay.Sender
import EtradePipeline.Replay.RoundTrip
import EtradePipeline.Kit.Json.Objects
import EtradePipeline.Receiver.RecordJson
import EtradePipeline.Kit.Cursor
import EtradePipeline.Receiver.WritevAll
import EtradePipeline.Book.Greedy
import EtradePipeline.Orders.RiskPolicy
import EtradePipeline.Kit.Components
import EtradePipeline.Book.Symbols
import EtradePipeline.Feed.AskSide
import EtradePipeline.Receiver.Accounting
import EtradePipeline.Gateway.Correlation
import EtradePipeline.Gateway.Refusals
import EtradePipeline.Replay.Encoders
import EtradePipeline.Replay.Buffers
import EtradePipeline.Service.LastLines
import EtradePipeline.Kit.Interpolation
import EtradePipeline.Service.Percentile
import EtradePipeline.Service.LatencyStats
import EtradePipeline.Service.Metrics
import EtradePipeline.Kit.Tokens
import EtradePipeline.Replay.Integers
import EtradePipeline.Gateway.Snapshots
import EtradePipeline.Engine.Exchanges
import EtradePipeline.Feed.Backing
import EtradePipeline.Engine.Effects
import EtradePipeline.Engine.Delivery
import EtradePipeline.Kit.Json.Balance
import EtradePipeline.Kit.Json.Torn
import EtradePipeline.Service.RecordFile
import EtradePipeline.Service.RecordMetrics
import EtradePipeline.Engine.Stopping
import EtradePipeline.Engine.Exit
import EtradePipeline.Service.Analysis
import EtradePipeline.Service.BenchmarkRun
import EtradePipeline.Kit.LengthFramed
import EtradePipeline.Receiver.MetricsPage
import EtradePipeline.Engine.Monitoring
import EtradePipeline.Engine.Responses
import EtradePipeline.Engine.TestFlow
import EtradePipeline.Engine.OrderClient
import EtradePipeline.Kit.BigEndian
import EtradePipeline.Kit.Csv
import EtradePipeline.Kit.Ranks
import EtradePipeline.Latency.Statistics
import EtradePipeline.Replay.Lines
