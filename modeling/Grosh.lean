import Grosh.Enrichment
import Grosh.Lib.AtLeastOnce
import Grosh.EnrichmentConsumer
import Grosh.Lib.Transition
import Grosh.UnitOfWork
import Grosh.PairLinks
import Grosh.Normalization
import Grosh.Redelivery
import Grosh.ArrivalOrder
import Grosh.Reprocess
import Grosh.ReprocessRestore
import Grosh.ReprocessLoss
import Grosh.Staging
import Grosh.StagingGate
import Grosh.StagingDelivery
import Grosh.HistoricalRates
import Grosh.FreshRate
import Grosh.Lib.ReadCommitted
import Grosh.PolledConcurrency
import Grosh.RefreshTokens
import Grosh.CatchUp
import Grosh.AcceptedTransactions
import Grosh.ReplayRoundTrip
import Grosh.Lib.SessionLock
import Grosh.ReprocessJobs
import Grosh.ReprocessPods
import Grosh.ReprocessTrigger
import Grosh.CandidateOrder
import Grosh.UserMirror
import Grosh.ReplayLedger
import Grosh.ReprocessConverges
import Grosh.Lib.TransactionLog
import Grosh.LogoutAll
import Grosh.AccessTokens
import Grosh.Linking
import Grosh.LinkedAccounts
import Grosh.LinkingConcurrency
import Grosh.WebhookRotation
import Grosh.WebhookUrl
import Grosh.ReprocessQuota
import Grosh.Lib.Base64
import Grosh.Lib.Isoformat
import Grosh.Lib.Keyset
import Grosh.Cursor
import Grosh.Pagination
import Grosh.Lib.DecimalFloat
import Grosh.Conversion
import Grosh.PoisonEvents
import Grosh.DecisionSpec
import Grosh.PairSymmetry
import Grosh.Lib.FirstHit
import Grosh.PathOptimality
import Grosh.Pipeline
import Grosh.PipelineDelivery
import Grosh.Lib.RoundingError
import Grosh.ConversionRounding
import Grosh.PollTolerance
import Grosh.Lib.RecursiveQuery
import Grosh.SourceChain
import Grosh.TransferBlock
import Grosh.BackfillWindows
import Grosh.Lib.PartialMap
import Grosh.Lib.GroupBy
import Grosh.Aggregates
import Grosh.Lib.Stopwatch
import Grosh.MissingTopic
import Grosh.ReplayPublisher
import Grosh.Reregistration
import Grosh.NbuRates
import Grosh.RepeatedPolls
import Grosh.IngestedPayloads
import Grosh.ManualAccounts
import Grosh.ClusterJobs
import Grosh.UserLife
import Grosh.RowOwners
import Grosh.RatesAt
