import Cachebox.Engine.Safety
import Cachebox.Engine.Lease
import Cachebox.Engine.Cleanup
import Cachebox.Engine.Eviction
import Cachebox.Sharded.Limits
import Cachebox.Sharded.Invalidation
import Cachebox.Sharded.Transparent
import Cachebox.Sharded.FailedWrites
import Cachebox.Sharded.Cost
import Cachebox.Sharded.Budget
import Cachebox.Sharded.StaleRoutes
import Cachebox.Protocol.Request
import Cachebox.Protocol.Response
import Cachebox.Protocol.Lossless
import Cachebox.Protocol.Reserve
import Cachebox.Client.Alignment
import Cachebox.Client.Ai
import Cachebox.Python.Client
import Cachebox.Server.Writer
import Cachebox.Python.ArgumentKeys
import Cachebox.Sharded.ConcurrentSafety
import Cachebox.Python.AsyncPool
import Cachebox.Client.Session
import Cachebox.Server.Progress
import Cachebox.Client.Memoize
import Cachebox.Server.Backpressure
import Cachebox.Server.Metrics
import Cachebox.Server.Config
import Cachebox.Client.AiKeys
