import LiquidityMigration.Identity.Registry
import LiquidityMigration.Signal.Source

/- The configuration of the signal worker: what of it decides which history the worker
   keeps, when it decides and under which names it publishes. What only the feature
   arithmetic reads is left to that arithmetic.

   Clocks are milliseconds and stand for `i64` values as integers. Where the source
   saturates, the exact sum or difference is on the same side of every clock it is
   compared with. -/
namespace LiquidityMigration.Worker
open Checks Identity Signal

def schemaVersion : Nat := 1

def hourMs : Int := 3600000

def dayMs : Int := 86400000

inductive WorkerErrorCategory where
  | config
  | input
  | state
  | network
  | io
  | json
  deriving DecidableEq

structure WorkerError where
  category : WorkerErrorCategory
  message : String
  deriving DecidableEq

def WorkerError.ofConfig (message : String) : WorkerError := ⟨.config, message⟩

def WorkerError.ofInput (message : String) : WorkerError := ⟨.input, message⟩

def WorkerError.ofState (message : String) : WorkerError := ⟨.state, message⟩

inductive PublicVenueKind where
  | bybit
  | mexc
  | hyperliquid
  deriving DecidableEq, Inhabited

def PublicVenueKind.settleCoin : PublicVenueKind → String
  | .bybit => "USDT"
  | .mexc => "USDT"
  | .hyperliquid => "USDC"

structure LongFeatureConfig where
  excludeSymbols : List String
  regimeSymbol : String
  (dailyMinHourlyBars coldStartLookbackDays : Nat)
  deriving DecidableEq, Inhabited

structure CarryFeatureConfig where
  persistenceWindowSettlements : Option Nat
  (momentumLookbackHours advWindowHours returnLookbackHours volWindowHours volReturnLagHours trailWindowHours : Int)
  (trailChangeLookbackHours turnGrowthLookbackHours whaleChangeLookbackHours whaleFreshnessHours : Int)
  whaleFeedDays : Nat
  (decisionPhaseMs decisionKlineLagMs : Int)
  (minimumReplayDays minimumDecisionSymbols : Nat)
  minimumFundingCoverage : Rat
  presettlementWindowMs : Int
  deriving DecidableEq, Inhabited

structure SignalRouting where
  (source longSleeve carrySleeve : String)
  deriving DecidableEq, Inhabited

structure LlmGateConfig where
  triggerMaxAgeMs : Int
  minScore : Rat
  deriving DecidableEq, Inhabited

/-- The fingerprints of a configuration. Those of the files it was read from are only
ever compared as a whole. -/
structure ConfigIdentity where
  files : List String
  (longDecisionFingerprint carryDecisionFingerprint : String)
  deriving DecidableEq, Inhabited

/-- The three hashes are those `source_history_hash` and `state_part_hash` take of the
public source, the LONG block and the CARRY block. -/
structure SignalWorkerConfig where
  long : LongFeatureConfig
  carry : CarryFeatureConfig
  routing : SignalRouting
  publicVenue : PublicVenueKind
  markMaxAgeMs : Int
  environment : String
  llmGate : LlmGateConfig
  identity : ConfigIdentity
  (longDestination carryDestination : StrategyId)
  (sourceHistoryHash longPartHash carryPartHash : String)
  deriving DecidableEq, Inhabited

variable (config : SignalWorkerConfig)

def SignalWorkerConfig.settleCoin : String := config.publicVenue.settleCoin

def sourceHistoryPaddingHours : Int := 48

/-- The longest lookback of a CARRY feature. -/
def carryKlineFeatureHistoryHours (carry : CarryFeatureConfig) : Int :=
  let volatility := carry.volWindowHours + carry.volReturnLagHours
  let trail := carry.trailChangeLookbackHours + carry.trailWindowHours
  let turnover := carry.turnGrowthLookbackHours + carry.advWindowHours
  max carry.momentumLookbackHours (max carry.returnLookbackHours (max volatility (max trail turnover)))

/-- The replay window on top of it. -/
def carrySourceHistoryHours (carry : CarryFeatureConfig) : Int :=
  carry.minimumReplayDays * 24 + carryKlineFeatureHistoryHours carry + sourceHistoryPaddingHours

def requiredCarryHistoryHours : Int := carrySourceHistoryHours config.carry

def requiredLongHistoryHours : Int := config.long.coldStartLookbackDays * 24 + 48

/-- Hours of whale ratios a CARRY feature reaches back to, with a day to spare. -/
def whaleHistoryHours : Int :=
  config.carry.whaleChangeLookbackHours + config.carry.whaleFreshnessHours + 24

def carryInstrumentHours : Int :=
  max (requiredCarryHistoryHours config) (config.carry.whaleFeedDays * 24)

/-- The decision of the day that is due at a clock, which is the
day before's until `lag` has passed. -/
def carryDecisionAt (observed phase lag : Int) : Option Int :=
  let decision := observed - observed % dayMs + phase
  let due := if observed < decision + lag then decision - dayMs else decision
  if 0 < due then some due else none

def realms : List String := ["demo", "mainnet", "mexc", "hyperliquid"]

def IsRealm (value : String) : Prop := value ∈ realms
  deriving Decidable

def blank (value : String) : Prop := value.toList.all Venue.Hyperliquid.isWhitespace = true
  deriving Decidable

def replaySourceGeneration : String := "00000000000000000000000000000000"

def signalSourceBytesMax : Nat := 256

/-- The name of a lane before the engine has granted an epoch. -/
def outputSource (base generation : String) (lane : SignalLane) : Except WorkerError String := do
  let source := if generation = replaySourceGeneration then base ++ "." ++ lane.name
    else base ++ ".g" ++ generation ++ "." ++ lane.name
  require (source.utf8ByteSize ≤ signalSourceBytesMax)
    (.ofConfig ("signal source namespace is " ++ toString source.utf8ByteSize ++ " bytes; maximum is 256"))
  .ok source

/-- Its name in a granted epoch. -/
def managedOutputSource (producer generation : String) (epoch : U64) (lane : SignalLane) : Except WorkerError String :=
  (ManagedSignalSource.encode ⟨producer, epoch, generation, lane⟩).mapError .ofState

def laneSource (generation : String) (epoch : Option U64) (lane : SignalLane) : Except WorkerError String :=
  match epoch with
  | some epoch => managedOutputSource config.routing.source generation epoch lane
  | none => outputSource config.routing.source generation lane

/-- A set of symbols, as a `BTreeSet` lists it. -/
def symbolSet (symbols : List String) : List String := symbols.dedup.insertionSort (· ≤ ·)

end LiquidityMigration.Worker
