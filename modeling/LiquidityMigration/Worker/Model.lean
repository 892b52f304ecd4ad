import LiquidityMigration.Lib.Dict
import LiquidityMigration.Lib.Spans
import LiquidityMigration.Worker.Config

/- The data of the signal worker: the rows it collects, the events that bring them, the observations it publishes and
   the state it checkpoints. An event carries its rows decoded: a batch with a row that does not decode is refused
   whole, and such a row of a venue-wide list is left out. Prices are the finite binary64 values as rationals. -/
namespace LiquidityMigration.Worker
open Identity Signal

structure HourlyKline where
  symbol : String
  (openTsMs availableAtMs : Int)
  (open_ high low close volumeBase turnoverQuote : Rat)
  deriving DecidableEq, Inhabited

structure SettledFunding where
  symbol : String
  (settlementTsMs availableAtMs : Int)
  rate : Rat
  fundingIntervalMin : Int
  deriving DecidableEq

structure BinanceWhaleObservation where
  symbol : String
  (dayEndMs availableAtMs : Int)
  longShortRatio : Option Rat
  deriving DecidableEq

abbrev KlineSeries := Dict Int HourlyKline
abbrev FundingSeries := Dict Int SettledFunding
abbrev WhaleSeries := Dict Int BinanceWhaleObservation
abbrev KlineHistory := Dict String KlineSeries
abbrev FundingHistory := Dict String FundingSeries
abbrev WhaleHistory := Dict String WhaleSeries

/-- Fetched completely from `lo` up to `hi`: `checked_from_ms`, `checked_through_ms`. -/
abbrev CoverageInterval := Span Int

/-- One source's coverage, in both of its representations. -/
structure Coverage where
  (checkedFrom checkedThrough : Dict String Int)
  intervals : Dict String (List CoverageInterval)
  deriving DecidableEq, Inhabited

instance : EmptyCollection Coverage := ⟨⟨∅, ∅, ∅⟩⟩

/-- What of an instrument row decides whether it trades. -/
structure InstrumentObservation where
  symbol : String
  (observedTsMs availableAtMs : Int)
  (status settleCoin : Option String)
  (launchTimeMs deliveryTimeMs : Option Int)
  isPrelisting : Bool
  deriving DecidableEq

structure InstrumentTradingInterval where
  tradingFromMs : Int
  tradingThroughMs : Option Int
  deriving DecidableEq

/-- `quotes` are the price and size fields that share the row's own clock. -/
structure TickerObservation where
  symbol : String
  (observedTsMs availableAtMs : Int)
  (markObservedTsMs fundingObservedTsMs scheduleObservedTsMs : Option Int)
  quotes : List (Option Rat)
  (markPrice fundingRate : Option Rat)
  nextFundingTimeMs : Option Int
  deriving DecidableEq

structure UniverseIdentity where
  (environment endpoint : String)
  (snapshotTsMs availableAtMs : Int)
  (artifactSha256 fileSha256 : String)
  (symbols longSymbols carrySymbols : List String)
  deriving DecidableEq, Inhabited

def universeIsResolved (universe_ : UniverseIdentity) : Prop := 0 < universe_.snapshotTsMs ∧ universe_.symbols ≠ []
  deriving Decidable

def sameMembership (left right : UniverseIdentity) : Prop :=
  left.symbols = right.symbols ∧ left.longSymbols = right.longSymbols ∧ left.carrySymbols = right.carrySymbols
  deriving Decidable

structure KlineWire where
  openTsMs : Int
  (open_ high low close volumeBase turnoverQuote : Rat)
  deriving DecidableEq

structure FundingWire where
  settlementTsMs : Int
  rate : Rat
  intervalHours : Option Int
  deriving DecidableEq

structure InstrumentWire where
  symbol : String
  (status settleCoin : Option String)
  (launchTime deliveryTime : Option Int)
  isPreListing : Bool
  deriving DecidableEq

/-- A field of the three that carry a clock of their own is `some none` where it is there
but empty. -/
structure TickerWire where
  symbol : String
  (markObservedTsMs fundingObservedTsMs scheduleObservedTsMs : Option Int)
  quotes : List (Option Rat)
  (markPrice fundingRate : Option (Option Rat))
  nextFundingTime : Option (Option Int)
  deriving DecidableEq

structure WhaleWire where
  symbol : String
  dayEndMs : Int
  longShortRatio : Option Rat
  deriving DecidableEq

structure SourceCoverage where
  symbol : String
  (checkedFromMs checkedThroughMs : Int)
  replaceCoverage : Bool
  deriving DecidableEq

structure LlmGateCandidate where
  symbol : String
  score : Rat
  band : String
  triggerTsMs : Int
  (triggerPrice atrPct : Rat)
  (sigmaDaily30d turnoverRank : Option Rat)
  triggerWindowH : Option Int
  deriving DecidableEq

structure BootstrapCoverage where
  (completedAtMs klineEndMs fundingEndMs whaleEndMs : Int)
  (sourceContractSha256 longFeatureSha256 carryFeatureSha256 : String)
  deriving DecidableEq

/-- What a fetched batch says besides its rows. -/
structure HistoryBatch (ρ : Type) where
  symbol : String
  availableAtMs : Int
  (checkedFromMs checkedThroughMs : Option Int)
  replaceCoverage : Bool
  rows : List ρ
  deriving DecidableEq

inductive WireBody where
  | bybitKlineBatch (batch : HistoryBatch KlineWire)
  | bybitFundingBatch (batch : HistoryBatch FundingWire) (emitLifecycle : Bool)
  | bybitInstrumentSnapshot (observedTsMs availableAtMs : Int) (rows : List InstrumentWire)
  | bybitTickerSnapshot (observedTsMs availableAtMs : Int) (rows : List TickerWire)
  | binanceWhaleBatch (availableAtMs : Int) (coverage : List SourceCoverage) (rows : List WhaleWire)
  | universeSnapshot (universe_ : UniverseIdentity)
  | llmGateCandidates (observedTsMs availableAtMs decisionTsMs validUntilMs : Int) (rows : List LlmGateCandidate)
  | bootstrapComplete (coverage : BootstrapCoverage)
  | watermark (observedTsMs : Int)
  | longWatermark (observedTsMs dataThroughMs : Int) (gapSymbols : List String)
  | carryWatermark (observedTsMs dataThroughMs : Int) (gapSymbols : List String)
  | carryScorerCatchupWatermark (observedTsMs decisionThroughMs : Int) (gapSymbols : List String)
  deriving DecidableEq

structure WireEvent where
  schemaVersion : Nat
  sequence : U64
  body : WireBody
  deriving DecidableEq

inductive OutputKind where
  | longFeatureBatch
  | carryFeatureBatch
  | carryScorerCatchup
  | marketSnapshot
  | fundingUpdate
  | llmGateCandidates
  | readiness
  deriving DecidableEq

/-- `figures` are the numbers the feature arithmetic puts into a row. -/
structure LongFeatureRow where
  symbol : String
  figures : List (Option Rat)
  deriving DecidableEq

structure CarryFeatureRow where
  symbol : String
  barTsMs : Int
  (byFunding trailFund24h crowdPersistence : Option Rat)
  figures : List (Option Rat)
  deriving DecidableEq

structure MarketMark where
  symbol : String
  observedTsMs : Int
  markPx : Rat
  deriving DecidableEq

structure PresettlementPublicObservation where
  symbol : String
  (observedTsMs settlementTsMs : Int)
  runningRate : Rat
  markPx : Option Rat
  deriving DecidableEq

structure DataRejection where
  (symbol reason : String)
  firstMissingTsMs : Option Int
  deriving DecidableEq

structure Readiness where
  (longReady carryReady universeReady : Bool)
  reason : String
  (longFeatureTsMs carryFeatureTsMs : Option Int)
  rejectedSymbols : List DataRejection
  deriving DecidableEq

inductive ObservationPayload where
  | longFeatureBatch (decisionTsMs featureTsMs : Int) (rows : List LongFeatureRow) (marks : List MarketMark)
      (coldStartFallbackCount : Nat) (rejections : List DataRejection)
  | carryFeatureBatch (decisionTsMs : Int) (rows upcomingRows : List CarryFeatureRow)
      (settledFunding : List SettledFunding) (presettlement : List PresettlementPublicObservation)
      (marks : List MarketMark) (rejections : List DataRejection)
  | carryScorerCatchup (decisionTsMs : Int) (rows : List CarryFeatureRow) (rejections : List DataRejection)
  | marketSnapshot (expiresAtMs : Int) (tickers : List TickerObservation) (marks : List MarketMark)
      (presettlement : List PresettlementPublicObservation)
  | fundingUpdate (decisionTsMs : Int) (settledFunding : List SettledFunding)
  | llmGateCandidates (decisionTsMs validUntilMs : Int) (btcRv30 : Option Rat) (rows : List LlmGateCandidate)
  | readiness (readiness : Readiness)
  deriving DecidableEq

structure SignalPayloadEnvelope where
  config : ConfigIdentity
  universe_ : UniverseIdentity
  payload : ObservationPayload
  deriving DecidableEq

inductive Feed where
  | quote
  | ticker
  deriving DecidableEq

structure Subscription where
  symbol : String
  feed : Feed
  deriving DecidableEq

/-- A published observation, without the two hashes taken of all of it. -/
structure NormalizedObservation where
  decisionFingerprint : String
  destination : StrategyId
  source : String
  sequence : U64
  (observedWallTsMs availableWallTsMs : Int)
  subscriptions : List Subscription
  payload : SignalPayloadEnvelope
  deriving DecidableEq

structure WorkerDestinationSleeves where
  (long carry : SleeveKey)
  deriving DecidableEq

structure WorkerSignalLifecycle where
  epoch : Option U64
  sealed : Bool
  deriving DecidableEq

structure WorkerState where
  destinationSleeves : Option WorkerDestinationSleeves
  schemaVersion : Nat
  config : ConfigIdentity
  sourceGeneration : String
  signalLifecycle : Option WorkerSignalLifecycle
  (sourceContractSha256 longFeatureSha256 carryFeatureSha256 : String)
  (longDestination carryDestination : StrategyId)
  universe_ : UniverseIdentity
  (lastInputSequence longOutputSequence carryOutputSequence : U64)
  lastObservedTsMs : Int
  (lastLongFeatureTsMs lastLongOutputAvailableAtMs pendingLongRefreshFeatureTsMs : Option Int)
  longSkippedGenerationCount : Nat
  (lastLongSkippedFirstTsMs lastLongSkippedLastTsMs lastCarryDecisionTsMs lastCarryOutputAvailableAtMs : Option Int)
  (lastCarryScorerTsMs lastCarryUpcomingTsMs : Option Int)
  bootstrapCoverage : Option BootstrapCoverage
  klines : KlineHistory
  klineCoverage : Coverage
  funding : FundingHistory
  fundingCoverage : Coverage
  whales : WhaleHistory
  whaleCoverage : Coverage
  instruments : Dict String InstrumentObservation
  instrumentTradingIntervals : Dict String (List InstrumentTradingInterval)
  instrumentStatusUnknownSinceMs : Dict String Int
  tickers : Dict String TickerObservation
  deriving DecidableEq, Inhabited

/-- The state after a step, and what the step publishes. -/
abbrev Published := WorkerState × List NormalizedObservation

/-- A worker. The settle coin of the source's record is that of its configuration. -/
structure SignalWorker where
  config : SignalWorkerConfig
  state : WorkerState
  suppressedOutputKinds : List OutputKind
  routingVerificationRequired : Bool
  deriving DecidableEq

end LiquidityMigration.Worker
