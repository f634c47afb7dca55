import Swazz.StepSystem
import Swazz.ListIndex
import Swazz.DepthBounded
import Swazz.Validation
import Swazz.DeliveryTracker
import Swazz.DeliveryPersistence
import Swazz.RbacStore
import Swazz.RbacService
import Swazz.RbacGrants
import Swazz.RbacOutranks
import Swazz.ScanRows
import Swazz.AbsorbingFold
import Swazz.PairMap
import Swazz.FindingsQueue
import Swazz.FindingsQueueSteps
import Swazz.FindingsQueueOrder
import Swazz.Roster
import Swazz.RunnerState
import Swazz.RunnerHandlers
import Swazz.RunnerRoster
import Swazz.RunnerAgreement
import Swazz.RunnerOwnership
import Swazz.ScanEnds
import Swazz.ContiguousPrefix
import Swazz.FuzzRun
import Swazz.FuzzCheckpoint
import Swazz.AtomicCalls
import Swazz.RbacCalls
import Swazz.RbacOwners
import Swazz.RbacEffects
import Swazz.RbacCache
import Swazz.RbacRevocation
import Swazz.AuthCalls
import Swazz.AuthSingleUse
import Swazz.AddressBlocks
import Swazz.BlockedAddresses
import Swazz.BlockListAgreement
import Swazz.NetAddress
import Swazz.GuardedDial
import Swazz.TrustedProxy
import Swazz.TrustedProxyTargets
import Swazz.BoundedMap
import Swazz.OobStore
import Swazz.OobAccounting
import Swazz.Debounce
import Swazz.Scheduler
import Swazz.ScheduledMinutes
import Swazz.UnicodeCase
import Swazz.ConfigForRunner
import Swazz.SharedRunnerGuard
import Swazz.SequentialPicks
import Swazz.Generator
import Swazz.FuzzIterations
import Swazz.ResumedPayloads
import Swazz.TurnTaking
import Swazz.LoginCalls
import Swazz.RequestRate
import Swazz.LoginLockout
import Swazz.ApiKeys
import Swazz.ApiKeyRotation
import Swazz.FloatText
import Swazz.InfiniteRun
import Swazz.Mcp
import Swazz.McpCalls
import Swazz.McpReturns
import Swazz.LegacyRoles
import Swazz.LegacyOwners
import Swazz.ScanDeletion
import Swazz.AccountCleanup
import Swazz.CleanupRaces
import Swazz.ProjectDeletion
import Swazz.DeletedAccess
import Swazz.ScanWriters
import Swazz.ScanOrphans
import Swazz.ProjectSchedule
import Swazz.ScheduleRaces
import Swazz.InvitationCalls
import Swazz.InvitationOutcome
import Swazz.LicenseTokens
import Swazz.LicenseText
import Swazz.LicenseAgreement
import Swazz.LicenseCalls
import Swazz.LicenseChanges
import Swazz.KeyStorage
import Swazz.StoredKeys
import Swazz.Sniffer
import Swazz.SnifferKept
import Swazz.GraphqlText
import Swazz.Graphql
import Swazz.GraphqlRules
import Swazz.GraphqlPrinting
import Swazz.GraphqlOperations
import Swazz.JsonTokens
import Swazz.EventStream
import Swazz.McpStreams
import Swazz.McpStreamReaders
import Swazz.Utf8
import Swazz.GoUrl
import Swazz.GoUrlWriting
import Swazz.BitGroups
import Swazz.Totp
import Swazz.Base32Exact
import Swazz.Prefilter
import Swazz.PrefilterExact
import Swazz.ClassFold
import Swazz.Triage
import Swazz.TriageGroups
import Swazz.MaliciousIterations
import Swazz.PathForest
import Swazz.TargetFields
import Swazz.SchemaResolver
import Swazz.SchemaBudget
import Swazz.SchemaMemo
import Swazz.MonotoneDefinitions
import Swazz.SetVariables
import Swazz.SetVariablesResult
import Swazz.RunnerMessages
import Swazz.RunnerMessagesShown
import Swazz.Retention
import Swazz.RetentionBounds
import Swazz.EventQueue
import Swazz.EventQueueDelivery
import Swazz.Fingerprint
import Swazz.FingerprintOrders
import Swazz.Masking
import Swazz.GlobAgreement
import Swazz.Classifying
import Swazz.CollectorExact
import Swazz.CrlfHeaders
import Swazz.JsonComments
import Swazz.JsonCommentsExact
import Swazz.Regexes
import Swazz.AnchoredSearch
import Swazz.AnchoredSearchExact
import Swazz.SignatureGuards
import Swazz.SignatureGuardsExact
import Swazz.EditDistance
import Swazz.Similarity
import Swazz.Limiter
import Swazz.Subscribers
import Swazz.BinarySearch
import Swazz.DeliveryLog
import Swazz.DeliveryLogSound
import Swazz.StatsPipe
import Swazz.StatsPipeSound
import Swazz.StatsPipeClose
import Swazz.Base64Url
import Swazz.KeysetPaging
import Swazz.ScanPages
import Swazz.EntryMap
import Swazz.GoUrlPaths
import Swazz.SendRequest
import Swazz.SendRequestRetry
import Swazz.Reauth
import Swazz.Differential
import Swazz.DifferentialBlind
import Swazz.BolaHarvest
import Swazz.BolaHarvestBounds
import Swazz.BolaTargets
import Swazz.PointerTrees
import Swazz.SchemaHeap
import Swazz.SchemaPrune
import Swazz.ExprGrammar
import Swazz.RunSummary
import Swazz.OffsetPaging
import Swazz.RecoveryPhrase
import Swazz.ResultQuery
import Swazz.PauseWaits
import Swazz.Lexing
import Swazz.SqlTokens
import Swazz.SplitSql
import Swazz.SqlStatements
import Swazz.ResultWriter
import Swazz.ResultWriterRuns
import Swazz.FollowRun
import Swazz.FollowRunOnce
import Swazz.HeldScans
import Swazz.GoSlices
import Swazz.ExprParser
import Swazz.ExprCalls
import Swazz.ExprCrashes
import Swazz.OutboxOrder
import Swazz.McpOrigin
