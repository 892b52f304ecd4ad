import LiquidityMigration.Worker.Features
import LiquidityMigration.Worker.History
import LiquidityMigration.Worker.Instruments

/- What the worker forgets. Pruning at a clock keeps, of every owned symbol, the windows
   that the next decisions of its sleeves can look back to: for LONG they end with the
   last whole hour, for CARRY with the day of the scorer's next decision. -/
namespace LiquidityMigration.Worker
open Checks Signal

variable (config : SignalWorkerConfig) (state : WorkerState) (clock : Int)

def longOwned : List String :=
  symbolSet (state.universe_.longSymbols ++ [config.long.regimeSymbol, "ETHUSDT"])

def carryOwned : List String := symbolSet state.universe_.carrySymbols

def ownedMarketSymbols : List String :=
  symbolSet (state.universe_.longSymbols ++ state.universe_.carrySymbols ++ [config.long.regimeSymbol, "ETHUSDT"])

def retainOwnedTickers : WorkerState :=
  let allowed := ownedMarketSymbols config state
  { state with
    tickers := state.tickers.retain (fun symbol _ => symbol ∈ allowed)
    instruments := state.instruments.retain (fun symbol _ => symbol ∈ allowed)
    instrumentTradingIntervals := state.instrumentTradingIntervals.retain (fun symbol _ => symbol ∈ allowed)
    instrumentStatusUnknownSinceMs :=
      state.instrumentStatusUnknownSinceMs.retain (fun symbol _ => symbol ∈ allowed) }

def carryCursor : Option Int := state.lastCarryScorerTsMs.or state.lastCarryDecisionTsMs

def retainedThrough : Int := clock - clock % hourMs

def carryRetainedThrough : Int :=
  ((carryCursor state).map (fun last => min (last + dayMs) (retainedThrough clock))).getD (retainedThrough clock)

/-- The daily repair range stays required until the next scorer decision. -/
def carryHistoryEnd : Int :=
  ((carryCursor state).map (fun last => min last (carryRetainedThrough state clock))).getD
    (carryRetainedThrough state clock)

def klineWindows (symbol : String) : List (Span Int) :=
  (if symbol ∈ longOwned config state then
    [⟨retainedThrough clock - requiredLongHistoryHours config * hourMs, retainedThrough clock⟩] else []) ++
  (if symbol ∈ carryOwned state then
    [⟨carryHistoryEnd state clock - requiredCarryHistoryHours config * hourMs, carryRetainedThrough state clock⟩]
    else [])

def carryWindows (hours : Int) (state : WorkerState) (clock : Int) : List (Span Int) :=
  [⟨carryHistoryEnd state clock - hours * hourMs, carryRetainedThrough state clock⟩,
    ⟨retainedThrough clock - hours * hourMs, retainedThrough clock⟩]

/-- The clock from which on a symbol's trading intervals are kept. -/
def instrumentRetainedFrom (symbol : String) : Option Int :=
  ((if symbol ∈ longOwned config state then [retainedThrough clock - requiredLongHistoryHours config * hourMs]
    else []) ++
    (if symbol ∈ carryOwned state then [carryRetainedThrough state clock - carryInstrumentHours config * hourMs]
      else [])).min?

def insideKlines (windows : List (Span Int)) (timestamp : Int) : Bool :=
  windows.any fun w => w.lo ≤ timestamp ∧ timestamp < w.hi

def insideCarry (windows : List (Span Int)) (timestamp : Int) : Bool :=
  windows.any fun w => w.lo ≤ timestamp ∧ timestamp ≤ w.hi

def pruneCoverage (windows : String → List (Span Int)) (owned : List String) (c : Coverage) : Coverage :=
  (owned.foldl (Coverage.retainWindows windows) (c.retainSymbols (fun symbol => symbol ∈ owned))).dropEmpty

/-- The intervals of a symbol that reach past the clock they are kept from. -/
def pruneTrading (retainedFrom : Option Int) (intervals : List InstrumentTradingInterval) :
    List InstrumentTradingInterval :=
  match retainedFrom with
  | none => []
  | some cutoff =>
    intervals.filter fun interval => interval.tradingThroughMs.all (fun through => cutoff < through)

def prune : WorkerState :=
  let symbols := symbolSet (longOwned config state ++ carryOwned state)
  let fundingWindows := carryWindows (requiredCarryHistoryHours config) state clock
  let whaleWindows := carryWindows (whaleHistoryHours config) state clock
  { state with
    klines := (state.klines.retain (fun symbol _ => symbol ∈ symbols)).mapValues
      (fun symbol rows => rows.retain (fun timestamp _ =>
        insideKlines (klineWindows config state clock symbol) timestamp))
    klineCoverage := pruneCoverage (klineWindows config state clock) symbols state.klineCoverage
    funding := state.funding.mapValues
      (fun _ rows => rows.retain (fun timestamp _ => insideCarry fundingWindows timestamp))
    fundingCoverage := pruneCoverage (fun _ => fundingWindows) (carryOwned state) state.fundingCoverage
    whales := state.whales.mapValues (fun _ rows => rows.retain (fun timestamp _ => insideCarry whaleWindows timestamp))
    whaleCoverage := pruneCoverage (fun _ => whaleWindows) (carryOwned state) state.whaleCoverage
    instrumentTradingIntervals := (state.instrumentTradingIntervals.mapValues
      (fun symbol intervals => pruneTrading (instrumentRetainedFrom config state clock symbol) intervals)).retain
        (fun _ intervals => !intervals.isEmpty) }

end LiquidityMigration.Worker
