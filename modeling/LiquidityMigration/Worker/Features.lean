import LiquidityMigration.Worker.Normalize

/- The feature builders: which rows of the history a batch of features is built from, for
   which symbols it has a row and why not for the others. What the numbers in a row are
   is left open (`Figures`): any function of the rows the builder looks up. -/
namespace LiquidityMigration.Worker
open Checks Signal

/-- The hours of one day that count, `tsMs` the end of the day. -/
structure DailyBar where
  tsMs : Int
  rows : List HourlyKline
  deriving DecidableEq

/-- What of a CARRY row the worker looks at again, and its other numbers. -/
structure CarryFigures where
  (trailFund24h crowdPersistence : Option Rat)
  rest : List (Option Rat)
  deriving DecidableEq, Inhabited

/-- The arithmetic of a configuration: the numbers of a feature row, the ranks among the
rows of a batch, a ratio of two counts, and the length of an encoded payload. -/
structure Figures where
  long : List DailyBar → Option (List DailyBar) → Option (List DailyBar) → Int → List (Option Rat)
  rankLong : List LongFeatureRow → LongFeatureRow → List (Option Rat)
  fallbackCount : List LongFeatureRow → Nat
  btcRv30 : List DailyBar → Int → Option Rat
  carry : KlineSeries → Option FundingSeries → Option WhaleSeries → Int → Int → CarryFigures
  rankCarry : List CarryFeatureRow → CarryFeatureRow → List (Option Rat)
  quotient : Nat → Nat → Rat
  payloadBytes : SignalPayloadEnvelope → Nat
  deriving Inhabited

/-- The first hour missing between neighbours of a list of times. -/
def firstGap : List Int → Option Int
  | previous :: current :: rest =>
    if current ≠ previous + hourMs then some (previous + hourMs) else firstGap (current :: rest)
  | _ => none

def firstInternalHourlyGap (history : KlineSeries) (endTsMs lookbackHours : Int) : Option Int :=
  firstGap (history.keys.filter (fun time => endTsMs - lookbackHours * hourMs ≤ time ∧ time < endTsMs))

def firstInternalGap (history : KlineSeries) (observedTsMs : Int) (lookbackDays : Nat) : Option Int :=
  firstInternalHourlyGap history observedTsMs (lookbackDays * 24)

def dayStart (row : HourlyKline) : Int := row.openTsMs - row.openTsMs % dayMs

/-- The days with enough closed and available hours. -/
def dailyBars (history : KlineSeries) (observedTsMs : Int) (minHourlyBars : Nat) : List DailyBar :=
  let rows := (history.entries.map Prod.snd).filter
    fun row => row.availableAtMs ≤ observedTsMs ∧ row.openTsMs + hourMs ≤ observedTsMs
  let days := (rows.map dayStart).dedup.insertionSort (· ≤ ·)
  days.filterMap (fun day =>
    let group := sortedBy HourlyKline.openTsMs (rows.filter (fun row => dayStart row = day))
    if minHourlyBars ≤ group.length then some ⟨day + dayMs, group⟩ else none)

structure LongFeatureBuild where
  featureTsMs : Option Int
  rows : List LongFeatureRow
  fallbackCount : Nat
  rejections : List DataRejection
  deriving DecidableEq

variable (figures : Figures)

/-- The row of a symbol with a bar at the feature's day. -/
def longRow (symbol : String) (bars : List DailyBar) (btc eth : Option (List DailyBar))
    (featureTsMs : Int) : Option LongFeatureRow :=
  if bars.any (fun bar => bar.tsMs = featureTsMs) then some ⟨symbol, figures.long bars btc eth featureTsMs⟩
  else none

variable (klines : KlineHistory) (funding : FundingHistory)

def longBars (observedTsMs : Int) (cfg : LongFeatureConfig) (symbol : String) : Except DataRejection (List DailyBar) :=
  match klines.find? symbol with
  | none => .error ⟨symbol, "cold_start_no_klines", none⟩
  | some history =>
    match firstInternalGap history observedTsMs cfg.coldStartLookbackDays with
    | some missing => .error ⟨symbol, "hourly_kline_gap", some missing⟩
    | none => .ok (dailyBars history observedTsMs cfg.dailyMinHourlyBars)

def buildLongFeatures (symbols : List String) (observedTsMs : Int) (cfg : LongFeatureConfig) : LongFeatureBuild :=
  let current := symbols.filter fun symbol => symbol ∉ cfg.excludeSymbols
  let wanted := symbolSet (current ++ [cfg.regimeSymbol, "ETHUSDT"])
  let excluded := (symbols.filter (fun symbol => symbol ∈ cfg.excludeSymbols)).map
    fun symbol => (⟨symbol, "registered_exclusion", none⟩ : DataRejection)
  let bars := wanted.map fun symbol => (symbol, longBars klines observedTsMs cfg symbol)
  -- only a symbol that is traded is rejected by name
  let rejected := bars.filterMap (fun entry => match entry.2 with
    | .error rejection => if entry.1 ∈ current then some rejection else none
    | .ok _ => none)
  let bySymbol := bars.filterMap fun entry => entry.2.toOption.map (fun bars => (entry.1, bars))
  let featureTs := (bySymbol.filterMap (fun entry =>
    (entry.2.getLast?.map DailyBar.tsMs).filter (fun ts => ts ≤ observedTsMs))).max?
  match featureTs with
  | none => ⟨none, [], 0, excluded ++ rejected⟩
  | some featureTsMs =>
    let btc := bySymbol.lookup cfg.regimeSymbol
    let eth := bySymbol.lookup "ETHUSDT"
    let traded := bySymbol.filter fun entry => entry.1 ∈ current
    let rows := traded.filterMap fun entry => longRow figures entry.1 entry.2 btc eth featureTsMs
    let unavailable := (traded.filter (fun entry => (longRow figures entry.1 entry.2 btc eth featureTsMs).isNone)).map
      fun entry => (⟨entry.1, "feature_row_unavailable", none⟩ : DataRejection)
    ⟨some featureTsMs, rows.map (fun row => { row with figures := figures.rankLong rows row }),
      figures.fallbackCount rows, excluded ++ rejected ++ unavailable⟩

/-- The regime symbol's volatility at its latest complete day. -/
def currentBtcRv30 (observedTsMs : Int) (cfg : LongFeatureConfig) : Option Rat := do
  let history ← klines.find? cfg.regimeSymbol
  let bars := dailyBars history observedTsMs cfg.dailyMinHourlyBars
  let featureTsMs ← (bars.getLast?.map DailyBar.tsMs).filter fun ts => ts ≤ observedTsMs
  figures.btcRv30 bars featureTsMs

structure CarryFeatureBuild where
  decisionTsMs : Option Int
  rows : List CarryFeatureRow
  rejections : List DataRejection
  deriving DecidableEq

def latestFunding (rows : FundingSeries) (tsMs observedTsMs : Int) : Option SettledFunding :=
  ((rows.entries.filter (fun entry => entry.1 ≤ tsMs ∧ entry.2.availableAtMs ≤ observedTsMs)).getLast?).map
    Prod.snd

/-- There is none without the bar before the decision and the one the
momentum is taken from. -/
def carryRow (symbol : String) (history : KlineSeries) (funding : Option FundingSeries)
    (whales : Option WhaleSeries) (decisionTsMs observedTsMs : Int) (cfg : CarryFeatureConfig) :
    Option CarryFeatureRow :=
  if (history.find? (decisionTsMs - hourMs)).isSome ∧
      (history.find? (decisionTsMs - cfg.momentumLookbackHours * hourMs - hourMs)).isSome then
    let numbers := figures.carry history funding whales decisionTsMs observedTsMs
    some ⟨symbol, decisionTsMs, (funding.bind (fun rows => latestFunding rows decisionTsMs observedTsMs)).map
      SettledFunding.rate, numbers.trailFund24h, numbers.crowdPersistence, numbers.rest⟩
  else none

def neededHours (cfg : CarryFeatureConfig) : Int :=
  max (max (cfg.volWindowHours + cfg.volReturnLagHours) cfg.momentumLookbackHours)
    (cfg.turnGrowthLookbackHours + cfg.advWindowHours)

def carrySymbolRow (whales : WhaleHistory)
    (decisionTsMs observedTsMs : Int) (cfg : CarryFeatureConfig) (symbol : String) :
    Except DataRejection CarryFeatureRow :=
  match klines.find? symbol with
  | none => .error ⟨symbol, "cold_start_no_klines", none⟩
  | some history =>
    match firstInternalHourlyGap history decisionTsMs (neededHours cfg) with
    | some missing => .error ⟨symbol, "hourly_kline_gap", some missing⟩
    | none =>
      match carryRow figures symbol history (funding.find? symbol)
        (whales.find? symbol) decisionTsMs observedTsMs cfg with
      | some row => .ok row
      | none => .error ⟨symbol, "momentum_not_mature_or_decision_bar_missing", none⟩

def refusals {ε α : Type} (outcomes : List (Except ε α)) : List ε :=
  outcomes.filterMap (fun outcome => match outcome with
    | .error e => some e
    | .ok _ => none)

def buildCarryFeaturesAt (whales : WhaleHistory)
    (symbols : List String) (decisionTsMs observedTsMs : Int) (cfg : CarryFeatureConfig) : CarryFeatureBuild :=
  if decisionTsMs ≤ 0 ∨ decisionTsMs % dayMs ≠ cfg.decisionPhaseMs ∨ observedTsMs < decisionTsMs then ⟨none, [], []⟩
  else
    let outcomes := symbols.map (carrySymbolRow figures klines funding whales decisionTsMs observedTsMs cfg)
    let rows := sortedBy CarryFeatureRow.symbol (outcomes.filterMap Except.toOption)
    ⟨some decisionTsMs, rows.map (fun row => { row with figures := figures.rankCarry rows row }), refusals outcomes⟩

/-- The rows of `build_carry_replay_features`: those of the replay window's decisions. -/
def buildCarryReplayRows (whales : WhaleHistory)
    (symbols : List String) (decisionTsMs observedTsMs : Int) (cfg : CarryFeatureConfig) : List CarryFeatureRow :=
  let days := (List.range (cfg.minimumReplayDays + 1)).reverse
  sortedBy (fun row => toLex (row.symbol, row.barTsMs)) (days.flatMap (fun (daysBack : Nat) =>
    (buildCarryFeaturesAt figures klines funding whales symbols
      (decisionTsMs - daysBack * dayMs) observedTsMs cfg).rows))

def carryFundingCoverage (rows : List CarryFeatureRow) (decisionTsMs : Int) (expectedSymbols : Nat)
    (requirePersistence : Bool) : Rat :=
  if expectedSymbols = 0 then 0
  else figures.quotient ((rows.filter (fun row => decide (row.barTsMs = decisionTsMs) && row.byFunding.isSome &&
    row.trailFund24h.isSome && (!requirePersistence || row.crowdPersistence.isSome))).length) expectedSymbols

end LiquidityMigration.Worker
