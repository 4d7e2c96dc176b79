import ObjectCache.Client.Script
import ObjectCache.Log
import ObjectCache.Proofs.Cache.BlockGenerations
import ObjectCache.Proofs.Cache.BucketGenerations
import ObjectCache.Proofs.Cache.Budget
import ObjectCache.Proofs.Cache.Counters
import ObjectCache.Proofs.Cache.Expiry
import ObjectCache.Proofs.Cache.Inclusion
import ObjectCache.Proofs.Cache.Isolation
import ObjectCache.Proofs.Cache.LastUse
import ObjectCache.Proofs.Cache.Recency
import ObjectCache.Proofs.Cache.Touches
import ObjectCache.Proofs.Client.Coherence
import ObjectCache.Proofs.Client.Contiguity
import ObjectCache.Proofs.Client.FetchPlan
import ObjectCache.Proofs.Client.Freshness
import ObjectCache.Proofs.Client.Overlap
import ObjectCache.Proofs.Client.Transparency
import ObjectCache.Proofs.Client.Turns
import ObjectCache.Proofs.Listing.Documents
import ObjectCache.Proofs.Settings.Layers
import ObjectCache.Proofs.Signing.Bytes
import ObjectCache.Proofs.Signing.Canonical
import ObjectCache.Proofs.Signing.Fields
import ObjectCache.Proofs.Signing.KeyReuse
import ObjectCache.Proofs.Signing.Keys
import ObjectCache.Proofs.Signing.ObjectKeys
import ObjectCache.Proofs.Signing.ObjectUrl
import ObjectCache.Proofs.Signing.Paths
import ObjectCache.Proofs.Signing.Presigned
import ObjectCache.Proofs.Signing.RequestText
import ObjectCache.Proofs.Signing.Resigning
import ObjectCache.Proofs.Signing.Verification
import ObjectCache.Proofs.Store.ListingQueries
import ObjectCache.Proofs.Store.RangeReplies
import ObjectCache.Proofs.Store.RetryPolicy
import ObjectCache.Proofs.Url.Host
import ObjectCache.Proofs.Url.Network
import ObjectCache.Proofs.Url.Parse
import ObjectCache.Proofs.Url.Segments
import ObjectCache.Session
