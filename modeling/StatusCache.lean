import StatusCache.Backend.Fixed
import StatusCache.Config.File
import StatusCache.Storage.Changes
import StatusCache.Storage.Upkeep
import StatusCache.Workspace
import StatusCache.Proofs.Arrangement
import StatusCache.Proofs.Descent
import StatusCache.Proofs.Escape
import StatusCache.Proofs.Lookup.Again
import StatusCache.Proofs.Lookup.Deferred
import StatusCache.Proofs.Lookup.Inheritance
import StatusCache.Proofs.Lookup.OwnStatus
import StatusCache.Proofs.Persisted.Grammar
import StatusCache.Proofs.Persisted.Reading
import StatusCache.Proofs.Queue.Accounting
import StatusCache.Proofs.Queue.FetchJob
import StatusCache.Proofs.Storage.Asking
import StatusCache.Proofs.Storage.Buckets
import StatusCache.Proofs.Storage.Canonical
import StatusCache.Proofs.Storage.Children
import StatusCache.Proofs.Storage.Delivery
import StatusCache.Proofs.Storage.Failure
import StatusCache.Proofs.Storage.Fetching
import StatusCache.Proofs.Storage.Forgetting
import StatusCache.Proofs.Storage.Hierarchy
import StatusCache.Proofs.Storage.NodeUrl
import StatusCache.Proofs.Storage.Outcome
import StatusCache.Proofs.Storage.Persistence
import StatusCache.Proofs.Storage.RefreshOrder
import StatusCache.Proofs.Storage.Reported
import StatusCache.Proofs.Storage.Uncached
import StatusCache.Proofs.Storage.UrlStatus
import StatusCache.Proofs.Storage.Watching
import StatusCache.Proofs.Topmost
import StatusCache.Proofs.Workspace
