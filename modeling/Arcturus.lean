import Arcturus.PendingData
import Arcturus.CarouselLatency
import Arcturus.CarouselCapacity
import Arcturus.OneWanSelection
import Arcturus.ControlPlaneView
import Arcturus.DeadLinks
import Arcturus.PacketDirection
import Arcturus.SnapshotOrders
import Arcturus.LostOrigins
import Arcturus.TunnelClosing
import Arcturus.TunnelDelivery
import Arcturus.ListenerConsistency
import Arcturus.ShardDispatch
import Arcturus.PooledRequests
import Arcturus.InvalidReadings
import Arcturus.LastRouting
import Arcturus.AccessLog
import Arcturus.ParsedBytes
import Arcturus.IPOverrides
import Arcturus.RateLimiter
import Arcturus.ProcessCPU
import Arcturus.OneWanBacktracking
import Arcturus.CarouselBacktracking
import Arcturus.PooledBuffers
import Arcturus.SettledMessages
import Arcturus.ReportSafety
import Arcturus.ConnectionAges
import Arcturus.EwmaHistory
import Arcturus.LoadPercentiles
import Arcturus.PathExistence
import Arcturus.DeadlineHeap
import Arcturus.AggregatorRuns
import Arcturus.MiddleRoutes
import Arcturus.ClientSessions
import Arcturus.RequestOrigins
