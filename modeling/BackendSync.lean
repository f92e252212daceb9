import BackendSync.Path.Relative
import BackendSync.Path.Set
import BackendSync.Path.Map
import BackendSync.Diff.Run
import BackendSync.Watch.Registry
import BackendSync.Cache
import BackendSync.Glob.Basic
import BackendSync.MatchSet
import BackendSync.Allowlist
import BackendSync.Membership
import BackendSync.Toml.Document
import BackendSync.Config.Document
import BackendSync.Session.World
import BackendSync.Proofs.EditReplay
import BackendSync.Proofs.BringingUp
import BackendSync.Proofs.StepEffects
import BackendSync.Proofs.Content
import BackendSync.Proofs.OpenFiles
import BackendSync.Proofs.Recency
import BackendSync.Proofs.Bookkeeping
import BackendSync.Proofs.SyncMode
import BackendSync.Proofs.Counting
import BackendSync.Proofs.ResolveTrace
import BackendSync.Proofs.OpenResults
import BackendSync.Proofs.Contradiction
import BackendSync.Proofs.Admission
import BackendSync.Proofs.Repeating
import BackendSync.Proofs.Fallback
import BackendSync.Proofs.CacheTraffic
import BackendSync.Proofs.TrieNodes
import BackendSync.Proofs.AllowlistSpelling
import BackendSync.Proofs.RequestOrder
import BackendSync.Proofs.AlikeSessions
import BackendSync.Proofs.Registering
import BackendSync.Proofs.WatchLedger
import BackendSync.Proofs.WatchHandles
import BackendSync.Proofs.WatchMap
import BackendSync.Proofs.DirectoryWatches
import BackendSync.Proofs.ByteOrder
import BackendSync.Proofs.TrieRuns
import BackendSync.Proofs.TriePaths
import BackendSync.Proofs.TrieLookup
import BackendSync.Proofs.WatchReplay
import BackendSync.Proofs.SentExtensions
import BackendSync.Proofs.RunAlignment
import BackendSync.Proofs.TouchedCharacters
import BackendSync.Proofs.SeparatorBound
import BackendSync.Proofs.Wildcards
import BackendSync.Proofs.Construction
import BackendSync.Proofs.MatchSetRuns
import BackendSync.Proofs.PathJoining
