import LogLake.Theorems.BatchJobs
import LogLake.Theorems.BloomStorage
import LogLake.Theorems.CacheKeys
import LogLake.Theorems.CacheOrder
import LogLake.Theorems.CommittedSweep
import LogLake.Theorems.ConsumerDelivery
import LogLake.Theorems.CoverageChain
import LogLake.Theorems.CoverageReroot
import LogLake.Theorems.CycleSettlement
import LogLake.Theorems.DimCounts
import LogLake.Theorems.ExactTimeBounds
import LogLake.Theorems.ExactlyOnceDrain
import LogLake.Theorems.FailureIsolation
import LogLake.Theorems.FastPathCoherence
import LogLake.Theorems.IndexSelection
import LogLake.Theorems.IngestAcks
import LogLake.Theorems.LazyAdmission
import LogLake.Theorems.MirrorAnnouncement
import LogLake.Theorems.MirrorReconciliation
import LogLake.Theorems.MirrorRetention
import LogLake.Theorems.MirrorRouting
import LogLake.Theorems.OrphanCollection
import LogLake.Theorems.OrphanDisposition
import LogLake.Theorems.OverlapDepth
import LogLake.Theorems.PartialRecovery
import LogLake.Theorems.PredicatePushdown
import LogLake.Theorems.PromotedColumns
import LogLake.Theorems.ProofCompaction
import LogLake.Theorems.RateBudget
import LogLake.Theorems.RawPruning
import LogLake.Theorems.ReadOwnCommit
import LogLake.Theorems.RowAccounting
import LogLake.Theorems.ScanTiling
import LogLake.Theorems.SegmentLifecycle
import LogLake.Theorems.ShardIsolation
import LogLake.Theorems.SidePublication
import LogLake.Theorems.SketchBounds
import LogLake.Theorems.Subscription
import LogLake.Theorems.Tier1Counts
import LogLake.Theorems.Truncation
import LogLake.Theorems.UnreadableBase
import LogLake.Theorems.WindowedCounts
