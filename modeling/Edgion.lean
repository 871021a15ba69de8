import Edgion.Hostname.Resolution
import Edgion.ConfSync.Wakeup
import Edgion.ConfSync.ListWatch
import Edgion.Dsl.Simulation
import Edgion.Runtime.TlsLookup
import Edgion.Http.LoadOrder
import Edgion.Lb.WeightedSelector
import Edgion.HostMatch.HashHistory
import Edgion.GatewayApi.Handler
import Edgion.GatewayApi.Conflicts
import Edgion.Lb.MinMetric
import Edgion.Controller.Cascade
import Edgion.Controller.Publication
import Edgion.GatewayApi.Revalidation.Routes
import Edgion.GatewayApi.Following.Drained
import Edgion.Lb.Fallback
import Edgion.Health.StatusStore
import Edgion.Tcp.Handles
import Edgion.GatewayApi.TlsPorts
import Edgion.Grpc.Hostnames
import Edgion.Grpc.MatchEngine
import Edgion.Http.ListenerCheck
import Edgion.Http.RateLimit
import Edgion.IpRadix.RealIp
import Edgion.Http.PathRewrite
import Edgion.Common.Parts
import Edgion.ConfSync.Replay
import Edgion.HostMatch.Agreement
import Edgion.Http.RequestRestriction
import Edgion.Controller.LeaderElection
import Edgion.RadixTree.MatchAll
import Edgion.Http.HmacAuth
import Edgion.Http.OpenidConnect
