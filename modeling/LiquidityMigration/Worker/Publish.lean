import LiquidityMigration.Worker.Prune

/- What the worker publishes. Every observation takes the next number of its lane; at a
   watermark the worker publishes at most one batch a lane, in a catch-up one CARRY batch
   a day, and otherwise says how ready it is. -/
namespace LiquidityMigration.Worker
open Checks Signal

def maxSignalSubscriptions : Nat := 512

def maxSignalObservationBytes : Nat := 16 * 1024 * 1024

def maxCarryScorerCatchupDays : Nat := 7

variable (figures : Figures) (config : SignalWorkerConfig) (suppressed : List OutputKind) (state : WorkerState)
  (symbols : List String)

def SignalWorkerConfig.laneDestination : SignalLane → StrategyId
  | .long => config.longDestination
  | .carry => config.carryDestination

def SignalWorkerConfig.laneFingerprint : SignalLane → String
  | .long => config.identity.longDecisionFingerprint
  | .carry => config.identity.carryDecisionFingerprint

/-- `make_observation_in_epoch`. -/
def makeObservation (universe_ : UniverseIdentity)
    (generation : String) (epoch : Option U64) (lane : SignalLane) (sequence : U64) (observed available : Int)
    (payload : ObservationPayload) (subscriptions : List Subscription) : Except WorkerError NormalizedObservation := do
  require (0 < observed ∧ observed ≤ available)
    (.ofState "signal availability must be at or after a positive observation time")
  let envelope : SignalPayloadEnvelope := ⟨config.identity, universe_, payload⟩
  require (figures.payloadBytes envelope ≤ maxSignalObservationBytes)
    (.ofState "normalized signal payload exceeds 16777216 bytes")
  let source ← laneSource config generation epoch lane
  .ok ⟨config.laneFingerprint lane, config.laneDestination lane, source, sequence, observed, available, subscriptions,
    envelope⟩

def WorkerState.laneSequence : SignalLane → U64
  | .long => state.longOutputSequence
  | .carry => state.carryOutputSequence

def WorkerState.withLaneSequence (lane : SignalLane) (sequence : U64) : WorkerState :=
  match lane with
  | .long => { state with longOutputSequence := sequence }
  | .carry => { state with carryOutputSequence := sequence }

def WorkerState.epoch : Option U64 := state.signalLifecycle.bind WorkerSignalLifecycle.epoch

def sequenceExhausted : SignalLane → WorkerError
  | .long => .ofState "LONG output sequence exhausted"
  | .carry => .ofState "CARRY output sequence exhausted"

/-- `long_observation` and `carry_observation`: the next observation of a lane. -/
def laneObservation (lane : SignalLane)
    (observed available : Int) (payload : ObservationPayload) (subscriptions : List Subscription) :
    Except WorkerError (WorkerState × NormalizedObservation) := do
  let sequence ← orError (state.laneSequence lane).checkedSucc (sequenceExhausted lane)
  let observation ← makeObservation figures config state.universe_ state.sourceGeneration state.epoch lane sequence
    observed available payload subscriptions
  .ok (state.withLaneSequence lane sequence, observation)

def marketSubscriptions : Except WorkerError (List Subscription) := do
  let unique := symbolSet symbols
  require (unique.length * 2 ≤ maxSignalSubscriptions)
    (.ofConfig ("signal universe requests " ++ toString (unique.length * 2) ++
      " quote/ticker subscriptions; maximum is 512"))
  .ok (unique.flatMap (fun symbol => [⟨symbol, .quote⟩, ⟨symbol, .ticker⟩]))

def isTradingInstrument (symbol : String) : Bool :=
  (state.instruments.find? symbol).any fun row => instrumentIsTrading row config.settleCoin

def wasTradingInstrumentAt (symbol : String) (decisionTsMs : Int) : Bool :=
  if (state.instrumentStatusUnknownSinceMs.find? symbol).any (fun since => since ≤ decisionTsMs) then false
  else (state.instrumentTradingIntervals.find? symbol).any (fun intervals => intervals.any (fun interval =>
    decide (interval.tradingFromMs ≤ decisionTsMs) &&
      interval.tradingThroughMs.all (fun through => decisionTsMs < through)))

def isFresh (clock observedTsMs : Int) : Bool :=
  decide (clock ≤ observedTsMs ∧ observedTsMs - clock ≤ config.markMaxAgeMs)

def freshMark (row : TickerObservation) (observedTsMs : Int) : Option Rat :=
  row.markPrice.filter fun _ => isFresh config (row.markObservedTsMs.getD row.observedTsMs) observedTsMs

/-- The funding a ticker announces, where rate and schedule are fresh and it settles
within the configured window. -/
def presettlementOf (row : TickerObservation) (observedTsMs : Int) : Option PresettlementPublicObservation := do
  let fundingClock := row.fundingObservedTsMs.getD row.observedTsMs
  let scheduleClock := row.scheduleObservedTsMs.getD row.observedTsMs
  let settlement ← row.nextFundingTimeMs.filter fun _ => isFresh config scheduleClock observedTsMs
  let rate ← row.fundingRate.filter fun _ => isFresh config fundingClock observedTsMs
  if 0 ≤ settlement - observedTsMs ∧ settlement - observedTsMs ≤ config.carry.presettlementWindowMs then
    some ⟨row.symbol, min fundingClock scheduleClock, settlement, rate, freshMark config row observedTsMs⟩
  else none

def publicMarketRows (rows : List TickerObservation)
    (observedTsMs : Int) : List MarketMark × List PresettlementPublicObservation :=
  let rows := rows.filter fun row => row.symbol ∈ state.universe_.carrySymbols
  (sortedBy MarketMark.symbol (rows.filterMap (fun row => (freshMark config row observedTsMs).map
      (fun mark => ⟨row.symbol, row.markObservedTsMs.getD row.observedTsMs, mark⟩))),
    sortedBy PresettlementPublicObservation.symbol
      (rows.filterMap (fun row => presettlementOf config row observedTsMs)))

def currentMarks (observedTsMs : Int) : List MarketMark :=
  symbols.filterMap (fun symbol => do
    let ticker ← state.tickers.find? symbol
    let clock := ticker.markObservedTsMs.getD ticker.observedTsMs
    if ticker.availableAtMs ≤ observedTsMs ∧ observedTsMs - clock ≤ config.markMaxAgeMs then
      ticker.markPrice.map (fun mark => ⟨symbol, clock, mark⟩)
    else none)

def fundingBetween (previous : Option Int) (decisionTsMs : Int) : List SettledFunding :=
  let lower := previous.getD (decisionTsMs - dayMs)
  let owned := state.funding.entries.filter fun entry => entry.1 ∈ state.universe_.carrySymbols
  let rows := owned.flatMap (fun entry => (entry.2.entries.filter
    (fun row => lower < row.1 ∧ row.1 ≤ decisionTsMs)).map Prod.snd)
  sortedBy (fun row => toLex (row.settlementTsMs, row.symbol)) rows

/-- Whether a cursor stands before a clock; one that was never set does. -/
def isBefore (cursor : Option Int) (clock : Int) : Bool := cursor.all fun last => last < clock

def addSkipped (skipped : Int) : Nat :=
  min (state.longSkippedGenerationCount + skipped.toNat) (2 ^ 64 - 1)

def recordLongFastForward (featureTsMs : Int) : WorkerState :=
  match state.lastLongFeatureTsMs with
  | none => state
  | some last =>
    let skipped := Int.tdiv (featureTsMs - last) dayMs - 1
    if skipped ≤ 0 then state
    else { state with
      longSkippedGenerationCount := addSkipped state skipped
      lastLongSkippedFirstTsMs := some (last + dayMs)
      lastLongSkippedLastTsMs := some (featureTsMs - dayMs) }

def recordLongSkippedRange (first last : Int) : WorkerState :=
  if first ≤ 0 ∨ last < first ∨ first % dayMs ≠ 0 ∨ last % dayMs ≠ 0 then state
  else
    let counted := { state with longSkippedGenerationCount := addSkipped state (Int.tdiv (last - first) dayMs + 1) }
    if state.lastLongSkippedLastTsMs.any (fun prior => prior + dayMs = first) then
      { counted with lastLongSkippedLastTsMs := some last }
    else { counted with lastLongSkippedFirstTsMs := some first, lastLongSkippedLastTsMs := some last }

/-- A batch that is held back: its day is noted, to be published when there is room. -/
def suppressLong (featureTsMs : Int) : WorkerState :=
  let noted := match state.lastLongFeatureTsMs with
    | some prior => recordLongSkippedRange state prior (featureTsMs - dayMs)
    | none => state
  { noted with lastLongFeatureTsMs := some featureTsMs, pendingLongRefreshFeatureTsMs := some featureTsMs }

variable (long : LongFeatureBuild) (dataThrough : Int) (carry : CarryFeatureBuild)

def emitLong (featureTsMs available : Int) : Except WorkerError Published := do
  let noted := if isBefore state.lastLongFeatureTsMs featureTsMs then recordLongFastForward state featureTsMs else state
  let subscriptions ← marketSubscriptions (long.rows.map LongFeatureRow.symbol)
  let published ← laneObservation figures config noted .long available available
    (.longFeatureBatch available featureTsMs long.rows (currentMarks config state state.universe_.longSymbols available)
      long.fallbackCount long.rejections) subscriptions
  .ok ({ published.1 with
    lastLongFeatureTsMs := some featureTsMs
    lastLongOutputAvailableAtMs := some available
    pendingLongRefreshFeatureTsMs := none }, [published.2])

def publishLong (available : Int) : Except WorkerError Published :=
  match long.featureTsMs with
  | none => .ok (state, [])
  | some featureTsMs =>
    let currentIsNew := isBefore state.lastLongFeatureTsMs featureTsMs
    if (currentIsNew || decide (state.pendingLongRefreshFeatureTsMs = some featureTsMs)) && !long.rows.isEmpty then
      if OutputKind.longFeatureBatch ∈ suppressed then
        .ok (if currentIsNew then suppressLong state featureTsMs else state, [])
      else emitLong figures config state long featureTsMs available
    else .ok (state, [])

/-- `carry_scorer_catchup`: a batch for the scorer alone. -/
def emitCatchup (decisionTsMs available : Int) (rows : List CarryFeatureRow) (rejections : List DataRejection) :
    Except WorkerError Published := do
  let published ← laneObservation figures config state .carry available available
    (.carryScorerCatchup decisionTsMs rows rejections) []
  .ok ({ published.1 with lastCarryScorerTsMs := some decisionTsMs }, [published.2])

/-- The rows of the next day's decision, where it can be built in full already. -/
def upcomingRows (active : List String) (upcomingTsMs dataThrough available : Int) : List CarryFeatureRow :=
  if upcomingTsMs ≤ dataThrough ∧ isBefore state.lastCarryUpcomingTsMs upcomingTsMs = true then
    let upcoming := buildCarryFeaturesAt figures state.klines state.funding state.whales active upcomingTsMs available
      config.carry
    if upcoming.rejections = [] ∧ upcoming.rows.length = active.length ∧ config.carry.minimumFundingCoverage ≤
        carryFundingCoverage figures upcoming.rows upcomingTsMs active.length
          config.carry.persistenceWindowSettlements.isSome then upcoming.rows
    else []
  else []

def emitCarry (rows upcoming : List CarryFeatureRow) (decisionTsMs available : Int) :
    Except WorkerError Published := do
  let currentIsNew := isBefore state.lastCarryDecisionTsMs decisionTsMs
  let settled := if currentIsNew then fundingBetween state state.lastCarryDecisionTsMs decisionTsMs else []
  let tickers := (state.tickers.entries.map Prod.snd).filter
    fun row => row.symbol ∈ state.universe_.carrySymbols
  let accepted := (carry.rows.filter (fun row => row.barTsMs = decisionTsMs)).map CarryFeatureRow.symbol
  let subscriptions ← marketSubscriptions accepted
  let published ← laneObservation figures config state .carry available available
    (.carryFeatureBatch decisionTsMs rows upcoming settled (publicMarketRows config state tickers available).2
      (currentMarks config state state.universe_.carrySymbols available) carry.rejections) subscriptions
  .ok ({ published.1 with
    lastCarryDecisionTsMs := if currentIsNew then some decisionTsMs else state.lastCarryDecisionTsMs
    lastCarryScorerTsMs := if currentIsNew then some decisionTsMs else state.lastCarryScorerTsMs
    lastCarryOutputAvailableAtMs := if currentIsNew then some available else state.lastCarryOutputAvailableAtMs
    lastCarryUpcomingTsMs := if upcoming = [] then state.lastCarryUpcomingTsMs else some (decisionTsMs + dayMs) },
    [published.2])

def publishCarry (active : List String) (dataThrough available : Int) : Except WorkerError Published :=
  match carry.decisionTsMs with
  | none => .ok (state, [])
  | some decisionTsMs =>
    let currentIsNew := isBefore state.lastCarryDecisionTsMs decisionTsMs
    let upcoming := upcomingRows figures config state active (decisionTsMs + dayMs) dataThrough available
    if (currentIsNew || !upcoming.isEmpty) && !carry.rows.isEmpty then
      let rows := buildCarryReplayRows figures state.klines state.funding state.whales active decisionTsMs available
        config.carry
      if OutputKind.carryFeatureBatch ∈ suppressed then
        if currentIsNew && isBefore (carryCursor state) decisionTsMs then
          emitCatchup figures config state decisionTsMs available rows carry.rejections
        else .ok (state, [])
      else emitCarry figures config state carry rows upcoming decisionTsMs available
    else .ok (state, [])

def validateGapSymbols (universe_ : List String) (sleeve : String) : Except WorkerError Unit :=
  require ((∀ symbol ∈ symbols, symbol ∈ universe_) ∧ symbols.Nodup)
    (.ofInput (sleeve ++ " source-gap symbols are not an exclusive universe subset"))

def gapRejections : List DataRejection :=
  symbols.map fun symbol => ⟨symbol, "source_gap_unchecked_through", some (dataThrough - hourMs)⟩

def notTrading : List DataRejection :=
  symbols.map fun symbol => ⟨symbol, "instrument_not_trading", none⟩

/-- The LONG batch of a watermark: built for the symbols without a gap that trade. -/
def longAtWatermark (gaps : List String) : LongFeatureBuild :=
  let covered := state.universe_.longSymbols.filter fun symbol => symbol ∉ gaps
  let active := covered.filter fun symbol => isTradingInstrument config state symbol
  let idle := covered.filter fun symbol => !isTradingInstrument config state symbol
  let included := fun symbol => decide (symbol ∉ config.long.excludeSymbols)
  let long := buildLongFeatures figures state.klines active dataThrough config.long
  { long with rejections := sortedBy DataRejection.symbol (long.rejections ++
      gapRejections (gaps.filter included) dataThrough ++ notTrading (idle.filter included)) }

variable (gaps : List String) (available : Int)

def activeCarry : List String :=
  (state.universe_.carrySymbols.filter (fun symbol => symbol ∉ gaps)).filter
    fun symbol => isTradingInstrument config state symbol

/-- The decision that is due at a watermark, by its clock and by its data. -/
def decisionAtWatermark : Int :=
  min ((carryDecisionAt available config.carry.decisionPhaseMs config.carry.decisionKlineLagMs).getD 0)
    ((carryDecisionAt dataThrough config.carry.decisionPhaseMs 0).getD 0)

/-- The CARRY batch of a watermark; without enough funding it has no rows. -/
def carryAtWatermark (gaps : List String) : CarryFeatureBuild :=
  let active := activeCarry config state gaps
  let idle := (state.universe_.carrySymbols.filter (fun symbol => symbol ∉ gaps)).filter
    fun symbol => !isTradingInstrument config state symbol
  let carry := buildCarryFeaturesAt figures state.klines state.funding state.whales active
    (decisionAtWatermark config dataThrough available) available config.carry
  let thin := carry.decisionTsMs.any (fun decision => carryFundingCoverage figures carry.rows decision
    active.length config.carry.persistenceWindowSettlements.isSome < config.carry.minimumFundingCoverage)
  { carry with
    rows := if thin then [] else carry.rows
    rejections := sortedBy DataRejection.symbol
      (carry.rejections ++ gapRejections gaps dataThrough ++ notTrading idle) }

def readinessOf : Readiness :=
  let longReady := long.featureTsMs.isSome && !long.rows.isEmpty
  let coverage := if carry.rows = [] then 0 else
    figures.quotient (carry.rows.filter (fun row => row.byFunding.isSome)).length carry.rows.length
  let carryReady := decide (config.carry.minimumDecisionSymbols ≤ carry.rows.length ∧
    config.carry.minimumFundingCoverage ≤ coverage)
  { longReady := longReady
    carryReady := carryReady
    universeReady := decide (universeIsResolved state.universe_)
    reason := if longReady && carryReady then "ready_no_new_decision" else "cold_start_or_gap"
    longFeatureTsMs := long.featureTsMs
    carryFeatureTsMs := carry.decisionTsMs
    rejectedSymbols := sortedBy (fun row => toLex (row.symbol, row.reason)) (long.rejections ++ carry.rejections) }

def publishReadiness (readiness : Readiness) (published : List NormalizedObservation)
    (dataThrough available : Int) : Except WorkerError Published :=
  if published = [] ∧ OutputKind.readiness ∉ suppressed then do
    let said ← laneObservation figures config state .carry dataThrough available (.readiness readiness) []
    .ok (said.1, [said.2])
  else .ok (state, [])

def longHalf (includeLong : Bool) : Except WorkerError Published :=
  if includeLong then publishLong figures config suppressed state long available else .ok (state, [])

def buildAtWatermark (includeLong includeCarry : Bool)
    (longGaps carryGaps : List String) : Except WorkerError Published := do
  validateGapSymbols longGaps state.universe_.longSymbols "LONG"
  validateGapSymbols carryGaps state.universe_.carrySymbols "CARRY"
  let long := longAtWatermark figures config state dataThrough longGaps
  let afterLong ← longHalf figures config suppressed state long available includeLong
  if includeCarry then
    let carry := carryAtWatermark figures config afterLong.1 dataThrough available carryGaps
    let afterCarry ← publishCarry figures config suppressed afterLong.1 carry (activeCarry config state carryGaps)
      dataThrough available
    let published := afterLong.2 ++ afterCarry.2
    let said ← publishReadiness figures config suppressed afterCarry.1 (readinessOf figures config state long carry)
      published dataThrough available
    .ok (said.1, published ++ said.2)
  else .ok afterLong

/-- The CARRY symbols without a gap that were trading at a decision, or were not. -/
def catchupSymbols (decisionTsMs : Int) (trading : Bool) : List String :=
  (state.universe_.carrySymbols.filter (fun symbol => symbol ∉ gaps)).filter
    fun symbol => wasTradingInstrumentAt state symbol decisionTsMs == trading

def catchupBuild (decisionTsMs available : Int) : CarryFeatureBuild :=
  let build := buildCarryFeaturesAt figures state.klines state.funding state.whales
    (catchupSymbols state gaps decisionTsMs true) decisionTsMs available config.carry
  { build with rejections := sortedBy DataRejection.symbol (build.rejections ++ gapRejections gaps decisionTsMs ++
      notTrading (catchupSymbols state gaps decisionTsMs false)) }

def catchupUsable (decisionTsMs available : Int) : Prop :=
  let build := catchupBuild figures config state gaps decisionTsMs available
  build.decisionTsMs = some decisionTsMs ∧ build.rows ≠ [] ∧ config.carry.minimumFundingCoverage ≤
    carryFundingCoverage figures build.rows decisionTsMs (catchupSymbols state gaps decisionTsMs true).length
      config.carry.persistenceWindowSettlements.isSome

instance (figures : Figures) (config : SignalWorkerConfig) (state : WorkerState) (gaps : List String)
    (decisionTsMs available : Int) : Decidable (catchupUsable figures config state gaps decisionTsMs available) :=
  inferInstanceAs (Decidable (_ ∧ _ ∧ _))

/-- The loop of `build_carry_scorer_catchup`, day after day until one cannot be built. -/
def catchupLoop (figures : Figures) (config : SignalWorkerConfig) (gaps : List String) (through available : Int) :
    Nat → WorkerState → Int → Except WorkerError Published
  | 0, state, _ => .ok (state, [])
  | rounds + 1, state, decisionTsMs =>
    if decisionTsMs ≤ through ∧ catchupUsable figures config state gaps decisionTsMs available then do
      let build := catchupBuild figures config state gaps decisionTsMs available
      let emitted ← emitCatchup figures config state decisionTsMs available build.rows build.rejections
      let rest ← catchupLoop figures config gaps through available rounds emitted.1 (decisionTsMs + dayMs)
      .ok (rest.1, emitted.2 ++ rest.2)
    else .ok (state, [])

def buildCarryScorerCatchup
    (through available : Int) (gaps : List String) : Except WorkerError Published := do
  validateGapSymbols gaps state.universe_.carrySymbols "CARRY"
  let cursor ← orError (carryCursor state) (.ofState "CARRY scorer catch-up requires a seeded producer cursor")
  let first := cursor + dayMs
  require (through ≤ first + (maxCarryScorerCatchupDays - 1) * dayMs)
    (.ofInput "CARRY scorer catch-up exceeds the bounded daily chunk")
  catchupLoop figures config gaps through available maxCarryScorerCatchupDays state first

end LiquidityMigration.Worker
