import ItchIngestion.Levels.Refinement
import ItchIngestion.Levels.Notification
import ItchIngestion.Levels.Agreement
import ItchIngestion.Levels.HeapLevels
import ItchIngestion.Levels.ArrayLevelsV2
import ItchIngestion.Levels.MapLevels
import ItchIngestion.Levels.HybridVectorMap
import ItchIngestion.Book.ValidFeed
import ItchIngestion.Book.Ledger
import ItchIngestion.Book.Collision
import ItchIngestion.Book.SingleStartOrderBook
import ItchIngestion.Book.Commutation
import ItchIngestion.Parser.Confinement
import ItchIngestion.Parser.UnknownTypes
import ItchIngestion.Parser.ZeroFrames
import ItchIngestion.Engine.TopOfBook
import ItchIngestion.Engine.Isolation
import ItchIngestion.Engine.Stop
import ItchIngestion.Engine.Ingestor
import ItchIngestion.Queue.Overrun
import ItchIngestion.Queue.BoundedFIFO
import ItchIngestion.Book.Residues
import ItchIngestion.Book.Undo
import ItchIngestion.Parser.Layouts
import ItchIngestion.Parser.Termination
import ItchIngestion.Levels.DropIn
import ItchIngestion.Levels.Limits
import ItchIngestion.Levels.HeapLevelsCustomMap
import ItchIngestion.Book.ZeroOrder
import ItchIngestion.Engine.AfterStop
import ItchIngestion.Queue.WaitFree
import ItchIngestion.Queue.Lifetime
import ItchIngestion.Book.StrategyQueue
import ItchIngestion.Engine.Interleaving
import ItchIngestion.Engine.Shutdown
import ItchIngestion.Engine.Wire
import ItchIngestion.Engine.MarketView
import ItchIngestion.Engine.HighWater
import ItchIngestion.Engine.Percentile
import ItchIngestion.Engine.Statistics
import ItchIngestion.Engine.Benchmark
import ItchIngestion.Engine.Feed
