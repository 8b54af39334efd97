import Splash.Agent.Conservation
import Splash.Agent.Executor
import Splash.Agent.Match
import Splash.Agent.Settlement
import Splash.Cardano.PoolRuns
import Splash.Cardano.Stable
import Splash.Cardano.Aggregation
import Splash.ChainSync.AtomicFlow
import Splash.ChainSync.Crash
import Splash.ChainSync.Mempool
import Splash.Concurrent.BufferedWithin
import Splash.Data.Resolver
import Splash.Dao.Epochs
import Splash.Dao.Forecast
import Splash.Dao.Selection
import Splash.EventSink.GraduationRuns
import Splash.LpIndexer.Emissions
import Splash.LiquidityBook.Clock
import Splash.LpIndexer.ForkRuns
import Splash.LpIndexer.Keys
import Splash.Rewards.Batches
import Splash.Rewards.FundingRuns
import Splash.Rewards.Harvests
import Splash.Rewards.Designation
import Splash.Rewards.Predictions
import Splash.Rewards.QueueRuns
import Splash.Tracker.Tracking
