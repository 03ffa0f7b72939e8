import LimyeDB.Wal.Async
import LimyeDB.Collection.Upsert
import LimyeDB.Collection.Durable
import LimyeDB.Graph.Nearest
import LimyeDB.Graph.Range
import LimyeDB.Graph.Saved
import LimyeDB.Graph.File
import LimyeDB.Graph.Discover
import LimyeDB.Hybrid.Scroll
import LimyeDB.Hybrid.Events
import LimyeDB.Hybrid.Panics
import LimyeDB.Hybrid.Cached
import LimyeDB.Hybrid.Ranking
import LimyeDB.Payload.Parse
import LimyeDB.Payload.Qdrant
import LimyeDB.Payload.Index
import LimyeDB.Point.Encoding
import LimyeDB.Storage.Vectors
import LimyeDB.Server.Names
import LimyeDB.Server.Restore
import LimyeDB.Server.Snapshots
import LimyeDB.Api.ApiKeys
import LimyeDB.Api.RateLimiter
import LimyeDB.Api.Grpc
import LimyeDB.Cdc.Webhooks
import LimyeDB.Cluster.Replication
import LimyeDB.Cluster.Recovery
import LimyeDB.Cluster.Transport
import LimyeDB.Cluster.Members
import LimyeDB.Cluster.Gossip
import LimyeDB.Backup.Paths
import LimyeDB.Ingestion.Engine
import LimyeDB.Collection.Sharded
import LimyeDB.Collection.Facets
import LimyeDB.Geo
import LimyeDB.Realtime
import LimyeDB.Relock
