import VeriNode.Proofs.Broadcaster
import VeriNode.Proofs.Penalty
import VeriNode.Proofs.NodeStatus
import VeriNode.Proofs.PoolStore
import VeriNode.Proofs.Sequencer
import VeriNode.Proofs.Scores
import VeriNode.Proofs.Executor
import VeriNode.Proofs.RewardLedger
import VeriNode.Proofs.AuditRecovery
import VeriNode.Proofs.Hmac
import VeriNode.Proofs.DriftRollback
import VeriNode.Proofs.LostNotifications
import VeriNode.Proofs.MigrationOrder
import VeriNode.Proofs.AcmeRotation
import VeriNode.Proofs.PayloadAad
import VeriNode.Proofs.SlashingSequencer
import VeriNode.Proofs.DeadLetterRetry
import VeriNode.Proofs.Uptime
import VeriNode.Proofs.ConfigAudit
import VeriNode.Proofs.ConcurrentRenewals
import VeriNode.Proofs.CacheLayer
import VeriNode.Proofs.Validator
import VeriNode.Proofs.EnvironmentAgreement
import VeriNode.Proofs.DriftStorage
import VeriNode.Proofs.Allocations
import VeriNode.Proofs.Withdrawal
import VeriNode.Proofs.PhantomDrift
import VeriNode.Proofs.AlertLeaks
import VeriNode.Proofs.DriftPaths
import VeriNode.Proofs.RollbackOnce
import VeriNode.Proofs.ExactPrecedence
import VeriNode.Proofs.PathSubscriptions
import VeriNode.Proofs.RateLimiter
import VeriNode.Proofs.EndpointPatterns
import VeriNode.Proofs.Mtls
import VeriNode.Proofs.MtlsManager
import VeriNode.Proofs.PollLoop
import VeriNode.Proofs.MemoryOnly
import VeriNode.Proofs.FlagDependencies
import VeriNode.Proofs.BatchRecursion
import VeriNode.Proofs.ConcurrentRotations
import VeriNode.Proofs.IdempotentSenders
import VeriNode.Proofs.Transactions
import VeriNode.Proofs.PoolIsolation
import VeriNode.Proofs.SequencerMetrics
import VeriNode.Proofs.StateArchival
import VeriNode.Proofs.SustainedLag
import VeriNode.Proofs.PreflightAnalyzer
import VeriNode.Proofs.BurnRate
import VeriNode.Proofs.Planner
import VeriNode.Proofs.MultiRegion
import VeriNode.Proofs.CertificateReloader
import VeriNode.Proofs.Dns01
import VeriNode.Proofs.Heartbeats
import VeriNode.Proofs.RunbookAutomation
import VeriNode.Proofs.HttpMetrics
import VeriNode.Proofs.AdaptivePool
import VeriNode.Proofs.Paths
import VeriNode.Proofs.NonceWindow
import VeriNode.Proofs.Edm
import VeriNode.Proofs.StoredBaselines
import VeriNode.Proofs.PoolLock
import VeriNode.Proofs.Simulation
