import LiquidityMigration.Worker.Publish

/- The worker takes one event after the other. Each kind of event has its handler; an
   event that is refused changes nothing. Every handler that adds to the history ends by
   pruning it at the worker's own clock, except that of a ticker snapshot, which moves the
   clock alone (`applyTickers`). -/
namespace LiquidityMigration.Worker
open Checks Signal

section Merge
open HistoryRow

variable {ρ : Type} [HistoryRow ρ]

/-- One row put into the history of its symbol, and noted if it is new. -/
def mergeOne (acc : Dict String (Dict Int ρ) × List ρ) (row : ρ) :
    Except WorkerError (Dict String (Dict Int ρ) × List ρ) := do
  let merged ← mergeRow ((acc.1.find? (symbol row)).getD ∅) row
  .ok (acc.1.insert (symbol row) merged.1, if merged.2 then acc.2 ++ [row] else acc.2)

/-- The rows of a batch put into the history, and which of them are new. -/
def mergeRows (history : Dict String (Dict Int ρ)) (rows : List ρ) :
    Except WorkerError (Dict String (Dict Int ρ) × List ρ) :=
  rows.foldlM mergeOne (history, [])

end Merge

variable (figures : Figures) (config : SignalWorkerConfig) (suppressed : List OutputKind) (state : WorkerState)
  (universe_ : UniverseIdentity)

/-- The end of a handler: the clock moves to when its data was available, and what is too
old by then is forgotten. -/
def observeAndPrune (availableAtMs : Int) : WorkerState :=
  let observed := { state with lastObservedTsMs := max state.lastObservedTsMs availableAtMs }
  prune config observed observed.lastObservedTsMs

/-- A replacement revokes coverage even if its frontier is absent. -/
def revokeIf (replace : Bool) (c : Coverage) (symbol : String) : Coverage := if replace then c.revoke symbol else c

def applyKlineBatch (batch : HistoryBatch KlineWire) : Except WorkerError WorkerState := do
  let rows ← normalizeKlineRows batch.symbol batch.availableAtMs batch.rows
  let merged ← mergeRows state.klines rows
  let coverage ← Coverage.merge "kline" (revokeIf batch.replaceCoverage state.klineCoverage batch.symbol) batch.symbol
    batch.checkedFromMs batch.checkedThroughMs batch.availableAtMs batch.replaceCoverage
  .ok (observeAndPrune config { state with klines := merged.1, klineCoverage := coverage } batch.availableAtMs)

def fundingUpdate (inserted : List SettledFunding) (availableAtMs : Int) (emitLifecycle : Bool) :
    Except WorkerError Published :=
  match state.lastCarryDecisionTsMs with
  | none => .ok (state, [])
  | some decisionTsMs =>
    let rows := if emitLifecycle then inserted.filter
      (fun row => decisionTsMs < row.settlementTsMs ∧ row.settlementTsMs ≤ availableAtMs) else []
    match (rows.map SettledFunding.settlementTsMs).max? with
    | none => .ok (state, [])
    | some observed => do
      let said ← laneObservation figures config state .carry observed availableAtMs (.fundingUpdate decisionTsMs rows)
          []
      .ok (said.1, [said.2])

def applyFundingBatch (batch : HistoryBatch FundingWire) (emitLifecycle : Bool) : Except WorkerError Published := do
  let rows ← normalizeFundingRows batch.symbol batch.availableAtMs batch.rows
  let merged ← mergeRows state.funding rows
  let said ← fundingUpdate figures config { state with funding := merged.1 } merged.2 batch.availableAtMs emitLifecycle
  let coverage ← Coverage.merge "funding" said.1.fundingCoverage batch.symbol batch.checkedFromMs batch.checkedThroughMs
    batch.availableAtMs batch.replaceCoverage
  .ok (observeAndPrune config { said.1 with fundingCoverage := coverage } batch.availableAtMs, said.2)

def mergeWhaleCoverage (availableAtMs : Int) (c : Coverage) (item : SourceCoverage) : Except WorkerError Coverage :=
  Coverage.merge "whale" c item.symbol (some item.checkedFromMs) (some item.checkedThroughMs) availableAtMs
    item.replaceCoverage

def applyWhales (availableAtMs : Int)
    (coverage : List SourceCoverage) (rows : List WhaleWire) : Except WorkerError WorkerState := do
  let rows ← normalizeWhales availableAtMs rows
  let merged ← mergeRows state.whales rows
  let covered ← coverage.foldlM (mergeWhaleCoverage availableAtMs) state.whaleCoverage
  .ok (observeAndPrune config { state with whales := merged.1, whaleCoverage := covered } availableAtMs)

def instrumentTable (rows : List InstrumentObservation) : Dict String InstrumentObservation :=
  rows.foldl (fun d row => d.insert row.symbol row) ∅

def snapshotTable (rows : List InstrumentObservation) : Dict String InstrumentObservation :=
  instrumentTable (rows.filter (fun row => row.symbol ∈ ownedMarketSymbols config state))

def applyInstruments (observedTsMs availableAtMs : Int) (rows : List InstrumentWire) :
    Except WorkerError WorkerState := do
  let allowed := ownedMarketSymbols config state
  let normalized ← normalizeInstruments observedTsMs availableAtMs rows
  let next := snapshotTable config state normalized
  let histories ← updateInstrumentTradingIntervals state.instrumentTradingIntervals state.instruments next allowed
    observedTsMs config.settleCoin
  .ok (observeAndPrune config { state with
    instrumentTradingIntervals := histories
    instrumentStatusUnknownSinceMs :=
      updateUnknownSince state.instrumentStatusUnknownSinceMs next allowed observedTsMs config.settleCoin
    instruments := updateInstruments state.instruments next allowed observedTsMs availableAtMs } availableAtMs)

/-- Whether a field of a ticker that comes in replaces the one that is there. -/
def replacesField (incoming existing : Option Int) : Bool :=
  incoming.any fun clock => existing.all (fun prior => prior ≤ clock)

/-- `merge_ticker_observation`. -/
def mergeTicker (tickers : Dict String TickerObservation) (incoming : TickerObservation) :
    Dict String TickerObservation :=
  match tickers.find? incoming.symbol with
  | none => tickers.insert incoming.symbol incoming
  | some existing =>
    let quoted := if existing.observedTsMs ≤ incoming.observedTsMs then
      { existing with quotes := incoming.quotes, observedTsMs := incoming.observedTsMs } else existing
    let marked := if replacesField incoming.markObservedTsMs existing.markObservedTsMs then
      { quoted with markPrice := incoming.markPrice, markObservedTsMs := incoming.markObservedTsMs } else quoted
    let funded := if replacesField incoming.fundingObservedTsMs existing.fundingObservedTsMs then
      { marked with fundingRate := incoming.fundingRate, fundingObservedTsMs := incoming.fundingObservedTsMs }
    else marked
    let scheduled := if replacesField incoming.scheduleObservedTsMs existing.scheduleObservedTsMs then
      { funded with nextFundingTimeMs := incoming.nextFundingTimeMs
                    scheduleObservedTsMs := incoming.scheduleObservedTsMs } else funded
    tickers.insert incoming.symbol
      { scheduled with availableAtMs := max existing.availableAtMs incoming.availableAtMs }

def snapshotClock (tickers : List TickerObservation) (observedTsMs availableAtMs : Int) : Int :=
  min ((tickers.flatMap (fun row => [some row.observedTsMs, row.markObservedTsMs, row.fundingObservedTsMs,
    row.scheduleObservedTsMs].reduceOption)).foldl max observedTsMs) availableAtMs

/-- What a ticker snapshot says of the markets it touched, unless it is stale already. -/
def marketSnapshot (tickers : List TickerObservation) (observedTsMs availableAtMs : Int) :
    Except WorkerError Published :=
  let clock := snapshotClock tickers observedTsMs availableAtMs
  let market := publicMarketRows config state tickers clock
  let clocks := market.1.map MarketMark.observedTsMs ++ market.2.map PresettlementPublicObservation.observedTsMs
  let expires := clocks.min?.getD clock + config.markMaxAgeMs
  if clocks ≠ [] ∧ OutputKind.marketSnapshot ∉ suppressed ∧ availableAtMs ≤ expires then do
    let said ← laneObservation figures config state .carry clock availableAtMs
      (.marketSnapshot expires tickers market.1 market.2) []
    .ok (said.1, [said.2])
  else .ok (state, [])

/-- `apply_tickers`. Nothing is forgotten here. -/
def applyTickers (observedTsMs availableAtMs : Int) (rows : List TickerWire) : Except WorkerError Published := do
  let owned := rows.filter fun row => row.symbol ∈ ownedMarketSymbols config state
  let normalized ← normalizeTickers observedTsMs availableAtMs owned
  let tickers := normalized.foldl mergeTicker state.tickers
  let touched := symbolSet (normalized.map TickerObservation.symbol)
  let carryTickers := (touched.filter (fun symbol => symbol ∈ state.universe_.carrySymbols)).filterMap
    fun symbol => tickers.find? symbol
  let said ← marketSnapshot figures config suppressed { state with tickers := tickers } carryTickers observedTsMs
    availableAtMs
  .ok ({ said.1 with lastObservedTsMs := max said.1.lastObservedTsMs availableAtMs }, said.2)

def applyUniverse : Except WorkerError WorkerState := do
  let validated ← validateUniverse universe_ universe_.availableAtMs
  require (validated.environment = config.environment) (.ofInput "universe event environment disagrees with config")
  let entered := { state with universe_ := validated }
  if sameMembership state.universe_ validated then .ok entered
  else
    let owned := retainOwnedTickers config entered
    .ok (if 0 < owned.lastObservedTsMs then prune config owned owned.lastObservedTsMs else owned)

def gateUsable (gate : LlmGateConfig) (row : LlmGateCandidate) (availableAtMs : Int) : Prop :=
  gate.minScore ≤ row.score ∧ (row.band = "core" ∨ row.band = "wide") ∧ 0 < row.triggerTsMs ∧
    row.triggerTsMs ≤ availableAtMs ∧ availableAtMs - row.triggerTsMs ≤ gate.triggerMaxAgeMs ∧ 0 < row.triggerPrice ∧
    0 < row.atrPct ∧ row.atrPct < 1 ∧ row.sigmaDaily30d.all (fun value => 0 ≤ value) = true ∧
    row.turnoverRank.all (fun value => 1 ≤ value) = true ∧
    row.triggerWindowH.all (fun value => 0 < value) = true
  deriving Decidable

/-- One candidate: the symbols seen so far, and the candidates let through. -/
def gateOne (tradable : List String) (availableAtMs : Int)
    (acc : List String × List LlmGateCandidate) (row : LlmGateCandidate) :
    Except WorkerError (List String × List LlmGateCandidate) := do
  let symbol ← normalizedSymbol row.symbol
  .ok (if symbol ∉ tradable ∨ symbol ∈ acc.1 then acc
    else (symbol :: acc.1, if gateUsable config.llmGate row availableAtMs then acc.2 ++ [{ row with symbol := symbol }]
      else acc.2))

def publishGate (accepted : List LlmGateCandidate) (observedTsMs availableAtMs decisionTsMs validUntilMs : Int) :
    Except WorkerError Published :=
  if OutputKind.llmGateCandidates ∈ suppressed then .ok (state, [])
  else do
    let subscriptions ← marketSubscriptions (accepted.map LlmGateCandidate.symbol)
    let btcRv := currentBtcRv30 figures state.klines availableAtMs config.long
    let said ← laneObservation figures config state .long observedTsMs availableAtMs
      (.llmGateCandidates decisionTsMs validUntilMs btcRv accepted) subscriptions
    .ok (said.1, [said.2])

def applyGateCandidates (observedTsMs availableAtMs decisionTsMs validUntilMs : Int) (rows : List LlmGateCandidate) :
    Except WorkerError Published := do
  require (0 < observedTsMs ∧ observedTsMs ≤ availableAtMs ∧ 0 < decisionTsMs ∧ decisionTsMs < validUntilMs)
    (.ofInput "LLM gate publication clock is invalid")
  let accepted ← rows.foldlM (gateOne config state.universe_.symbols availableAtMs) ([], [])
  publishGate figures config suppressed state (sortedBy LlmGateCandidate.symbol accepted.2) observedTsMs availableAtMs
    decisionTsMs validUntilMs

def applyBootstrap (coverage : BootstrapCoverage) : Except WorkerError WorkerState := do
  require (0 < coverage.completedAtMs ∧ 0 < coverage.klineEndMs ∧ coverage.klineEndMs % hourMs = 0 ∧
      coverage.klineEndMs ≤ coverage.completedAtMs ∧ 0 < coverage.fundingEndMs ∧
      coverage.fundingEndMs ≤ coverage.completedAtMs ∧ 0 < coverage.whaleEndMs ∧
      coverage.whaleEndMs ≤ coverage.completedAtMs ∧ coverage.sourceContractSha256 = state.sourceContractSha256 ∧
      coverage.longFeatureSha256 = state.longFeatureSha256 ∧ coverage.carryFeatureSha256 = state.carryFeatureSha256)
    (.ofInput "cold-bootstrap coverage marker is invalid")
  .ok { state with bootstrapCoverage := some coverage }

def applyWatermark
    (observedTsMs dataThroughMs : Int) (includeLong includeCarry : Bool) (longGaps carryGaps : List String) :
    Except WorkerError Published := do
  require (0 < observedTsMs ∧ 0 < dataThroughMs ∧ dataThroughMs ≤ observedTsMs ∧ state.lastObservedTsMs ≤ observedTsMs)
    (.ofInput "watermark moved backwards")
  let built ← buildAtWatermark figures config suppressed { state with lastObservedTsMs := observedTsMs } dataThroughMs
    observedTsMs includeLong includeCarry longGaps carryGaps
  .ok (prune config built.1 observedTsMs, built.2)

def applyCatchup (observedTsMs decisionThroughMs : Int) (gaps : List String) : Except WorkerError Published := do
  require (0 < observedTsMs ∧ 0 < decisionThroughMs ∧ decisionThroughMs ≤ observedTsMs ∧
      state.lastObservedTsMs ≤ observedTsMs)
    (.ofInput "CARRY catch-up watermark moved backwards")
  let built ← buildCarryScorerCatchup figures config { state with lastObservedTsMs := observedTsMs } decisionThroughMs
    observedTsMs gaps
  .ok (prune config built.1 observedTsMs, built.2)

def silently (after : Except WorkerError WorkerState) : Except WorkerError Published :=
  after.map fun state => (state, [])

def applyBody : WireBody → Except WorkerError Published
  | .bybitKlineBatch batch => silently (applyKlineBatch config state batch)
  | .bybitFundingBatch batch emitLifecycle => applyFundingBatch figures config state batch emitLifecycle
  | .bybitInstrumentSnapshot observed available rows => silently (applyInstruments config state observed available rows)
  | .bybitTickerSnapshot observed available rows => applyTickers figures config suppressed state observed available rows
  | .binanceWhaleBatch available coverage rows => silently (applyWhales config state available coverage rows)
  | .universeSnapshot universe_ => silently (applyUniverse config state universe_)
  | .llmGateCandidates observed available decision validUntil rows =>
    applyGateCandidates figures config suppressed state observed available decision validUntil rows
  | .bootstrapComplete coverage => silently (applyBootstrap state coverage)
  | .watermark observed => applyWatermark figures config suppressed state observed observed true true [] []
  | .longWatermark observed dataThrough gaps =>
    applyWatermark figures config suppressed state observed dataThrough true false gaps []
  | .carryWatermark observed dataThrough gaps =>
    applyWatermark figures config suppressed state observed dataThrough false true [] gaps
  | .carryScorerCatchupWatermark observed through gaps => applyCatchup figures config state observed through gaps

def WireBody.isUniverseSnapshot : WireBody → Bool
  | .universeSnapshot _ => true
  | _ => false

def SignalWorker.apply (worker : SignalWorker) (event : WireEvent) :
    Except WorkerError (SignalWorker × List NormalizedObservation) := do
  require (worker.routingVerificationRequired = false)
    (.ofState "signal routing awaits the engine identity registry")
  require (event.schemaVersion = schemaVersion)
    (.ofInput ("wire schema " ++ toString event.schemaVersion ++ " is unsupported"))
  let expected ← orError worker.state.lastInputSequence.checkedSucc (.ofState "input sequence exhausted")
  require (event.sequence = expected)
    (.ofInput ("wire sequence gap: expected " ++ toString expected.val ++ ", got " ++ toString event.sequence.val))
  require (universeIsResolved worker.state.universe_ ∨ event.body.isUniverseSnapshot = true)
    (.ofInput "universe is unresolved; the first input must be a universe snapshot")
  let after ← applyBody figures worker.config worker.suppressedOutputKinds worker.state event.body
  .ok ({ worker with state := { after.1 with lastInputSequence := event.sequence } }, after.2)

/-- An event, with the kinds of output that are held back while it is taken. -/
structure Input where
  suppressed : List OutputKind
  event : WireEvent
  deriving DecidableEq

def SignalWorker.take (worker : SignalWorker) (input : Input) :
    Except WorkerError (SignalWorker × List NormalizedObservation) :=
  { worker with suppressedOutputKinds := input.suppressed }.apply figures input.event

/-- One event after the other, with everything published on the way. -/
def SignalWorker.run (figures : Figures) (worker : SignalWorker) :
    List Input → Except WorkerError (SignalWorker × List NormalizedObservation)
  | [] => .ok (worker, [])
  | input :: rest => do
    let first ← worker.take figures input
    let others ← first.1.run figures rest
    .ok (others.1, first.2 ++ others.2)

/-- Published to the scorer: the days after a cursor, one observation a day, under the next numbers of the lane. -/
inductive CatchesUp : Int → Nat → List NormalizedObservation → Int → Nat → Prop where
  | done {c : Int} {n : Nat} : CatchesUp c n [] c n
  | day {c c' : Int} {n n' : Nat} {o : NormalizedObservation} {os : List NormalizedObservation}
      {rows : List CarryFeatureRow} {rejections : List DataRejection} :
    o.payload.payload = .carryScorerCatchup (c + dayMs) rows rejections → o.sequence.val = n + 1 →
    CatchesUp (c + dayMs) (n + 1) os c' n' → CatchesUp c n (o :: os) c' n'

variable {c c' through available : Int} {n n' : Nat} {os published : List NormalizedObservation}

theorem CatchesUp.append {c'' : Int} {n'' : Nat} (h : CatchesUp c n os c' n')
    (h' : CatchesUp c' n' published c'' n'') : CatchesUp c n (os ++ published) c'' n'' := by
  induction h with
  | done => exact h'
  | day payload number _ ih => exact .day payload number (ih h')

theorem catchupLoop_catchesUp {figures config gaps} {s : WorkerState} {r : Published}
    {rounds : Nat} (hc : carryCursor s = some c)
    (h : catchupLoop figures config gaps through available rounds s (c + dayMs) = .ok r) :
    ∃ c', carryCursor r.1 = some c' ∧ CatchesUp c s.carryOutputSequence r.2 c' r.1.carryOutputSequence := by
  induction rounds generalizing s c r with
  | zero =>
    cases h
    exact ⟨c, hc, .done⟩
  | succ rounds ih =>
    rw [catchupLoop] at h
    split at h
    · simp only [emitCatchup, laneObservation, makeObservation, ok_iff, U64.checkedSucc, U64.ofNat?_eq_some] at h
      obtain ⟨_, ⟨_, ⟨number, hnumber, o, ⟨-, -, source, -, rfl⟩, rfl⟩, rfl⟩, rest, hrest, rfl⟩ := h
      have hnext : number.val = s.carryOutputSequence.val + 1 := hnumber
      obtain ⟨c', hc', hrun⟩ := ih rfl hrest
      exact ⟨c', hc', .day rfl hnext (hnext ▸ hrun)⟩
    · cases h
      exact ⟨c, hc, .done⟩

/-- However many catch-ups follow one another, the scorer gets every day after the worker's cursor once and in order,
and the cursor ends at the last of them. -/
theorem catchups_consecutive {figures} {worker after : SignalWorker} {inputs : List Input}
    (h : worker.run figures inputs = .ok (after, published)) (hc : carryCursor worker.state = some c)
    (hcatchup : ∀ input ∈ inputs, ∃ observed through gaps,
      input.event.body = .carryScorerCatchupWatermark observed through gaps) :
    ∃ c', carryCursor after.state = some c' ∧
      CatchesUp c worker.state.carryOutputSequence published c' after.state.carryOutputSequence := by
  induction inputs generalizing worker published c with
  | nil =>
    cases h
    exact ⟨c, hc, .done⟩
  | cons input inputs ih =>
    obtain ⟨⟨observed, through, gaps, hbody⟩, hrest⟩ := List.forall_mem_cons.mp hcatchup
    obtain ⟨first, htake, ⟨_, others⟩, hothers, heq⟩ := by simpa only [SignalWorker.run, ok_iff] using h
    cases heq
    simp only [SignalWorker.take, SignalWorker.apply, hbody, applyBody, applyCatchup, buildCarryScorerCatchup,
      ok_iff] at htake
    obtain ⟨-, -, _, -, -, -, _, ⟨-, caught, ⟨-, cursor, hcursor, -, hloop⟩, rfl⟩, rfl⟩ := htake
    cases hc.symm.trans hcursor
    obtain ⟨c₁, hc₁, hfirst⟩ := catchupLoop_catchesUp hcursor hloop
    obtain ⟨c', hc', hrun⟩ := ih hothers hc₁ hrest
    exact ⟨c', hc', hfirst.append hrun⟩

/-- A worker whose scorer stands at the epoch, with the last hour of each of the three days after it. -/
def daysBehind : SignalWorker where
  config := default
  state := { (default : WorkerState) with
    universe_ := { (default : UniverseIdentity) with snapshotTsMs := 1, symbols := ["X"], carrySymbols := ["X"] }
    lastCarryScorerTsMs := some 0
    klines := (∅ : KlineHistory).insert "X" ([1, 2, 3].foldl (fun rows day =>
      rows.insert (day * dayMs - hourMs) { (default : HourlyKline) with symbol := "X" }) ∅)
    instrumentTradingIntervals := (∅ : Dict _ _).insert "X" [⟨0, none⟩] }
  suppressedOutputKinds := []
  routingVerificationRequired := false

def twoCatchups (first second : U64) : List Input :=
  [⟨[], schemaVersion, first, .carryScorerCatchupWatermark (3 * dayMs) (2 * dayMs) []⟩,
    ⟨[], schemaVersion, second, .carryScorerCatchupWatermark (3 * dayMs) (3 * dayMs) []⟩]

/-- Two catch-ups, over two days and over the third. -/
theorem catchups_consecutive_days : ∃ after o₁ o₂ o₃,
    daysBehind.run default (twoCatchups 1 2) = .ok (after, [o₁, o₂, o₃]) ∧
    ∃ c', carryCursor after.state = some c' ∧ CatchesUp 0 0 [o₁, o₂, o₃] c' after.state.carryOutputSequence := by
  have h : daysBehind.run default (twoCatchups 1 2) = .ok (_, [_, _, _]) := rfl
  exact ⟨_, _, _, _, h, catchups_consecutive h rfl (by simp [twoCatchups])⟩

end LiquidityMigration.Worker
