import LiquidityMigration.Wal.FilteredOpen
import LiquidityMigration.Wal.RotationFailure
import LiquidityMigration.Portfolio.StorageGrowth
import LiquidityMigration.Risk.MarginHolds
import LiquidityMigration.Risk.Reassessment
import LiquidityMigration.Risk.ThroughFlat
import LiquidityMigration.Risk.WithinLimits
import LiquidityMigration.Venue.LighterIndex
import LiquidityMigration.MarketData.PublishedBook
import LiquidityMigration.Venue.Lighter.Points
import LiquidityMigration.Orders.OptimalPrice
import LiquidityMigration.Orders.StoredRatio
import LiquidityMigration.Execution.ExecutionIds
import LiquidityMigration.Ledger.Restart
import LiquidityMigration.Ledger.TerminalCache
import LiquidityMigration.Portfolio.AllocationReplay
import LiquidityMigration.Portfolio.Emergencies
import LiquidityMigration.Identity.Permanence
import LiquidityMigration.Execution.Checkpoint
import LiquidityMigration.Risk.ExposureHull
import LiquidityMigration.Worker.Apply
