import LiquidityMigration.Worker.Model

/- What a fetched batch has to satisfy before its rows reach the history. A kline, funding
   or whale batch is refused whole for one bad row; of a venue-wide list the bad row is
   left out. -/
namespace LiquidityMigration.Worker
open Checks Signal

variable (symbol : String) (availableAtMs : Int)

def normalizedSymbol (value : String) : Except WorkerError String :=
  let symbol := (Text.trim Venue.Hyperliquid.isWhitespace value.toList).map Char.toUpper
  if symbol ≠ [] ∧ symbol.all Char.isAlphanum = true then .ok (String.ofList symbol)
  else .error (.ofInput ("invalid symbol " ++ value.quote))

def cleanText (value : Option String) : Option String :=
  (value.map (fun text => String.ofList (Text.trim Venue.Hyperliquid.isWhitespace text.toList))).filter
    fun text => text ≠ ""

def sortedBy {α κ : Type} [LinearOrder κ] (key : α → κ) (rows : List α) : List α :=
  rows.insertionSort fun a b => key a ≤ key b

/-- One row of `normalize_kline_rows`. -/
def normalizeKlineRow (row : KlineWire) : Except WorkerError HourlyKline := do
  require (0 < row.openTsMs ∧ row.openTsMs % hourMs = 0 ∧ row.openTsMs + hourMs ≤ availableAtMs ∧
      0 < row.open_ ∧ 0 < row.high ∧ 0 < row.low ∧ 0 < row.close ∧ max row.open_ row.close ≤ row.high ∧
      row.low ≤ min row.open_ row.close ∧ row.low ≤ row.high ∧ 0 ≤ row.volumeBase ∧ 0 ≤ row.turnoverQuote)
    (.ofInput ("invalid or not-yet-closed Bybit kline for " ++ symbol ++ " at " ++ toString row.openTsMs))
  .ok ⟨symbol, row.openTsMs, availableAtMs, row.open_, row.high, row.low, row.close, row.volumeBase, row.turnoverQuote⟩

def normalizeKlineRows (rows : List KlineWire) : Except WorkerError (List HourlyKline) := do
  let symbol ← normalizedSymbol symbol
  let out ← rows.mapM (normalizeKlineRow symbol availableAtMs)
  require (out.map HourlyKline.openTsMs).Nodup (.ofInput "duplicate kline timestamp")
  .ok (sortedBy HourlyKline.openTsMs out)

/-- One row of `normalize_funding_rows`. An interval that is not stated is eight hours. -/
def normalizeFundingRow (row : FundingWire) : Except WorkerError SettledFunding := do
  require (0 < row.settlementTsMs ∧ row.settlementTsMs ≤ availableAtMs)
    (.ofInput ("funding print for " ++ symbol ++ " is unavailable at observation time"))
  let hours := (row.intervalHours.filter (fun value => 0 < value)).getD 8
  .ok ⟨symbol, row.settlementTsMs, availableAtMs, row.rate, hours * 60⟩

def normalizeFundingRows (rows : List FundingWire) : Except WorkerError (List SettledFunding) := do
  let symbol ← normalizedSymbol symbol
  let out ← rows.mapM (normalizeFundingRow symbol availableAtMs)
  require (out.map SettledFunding.settlementTsMs).Nodup (.ofInput "duplicate funding timestamp")
  .ok (sortedBy SettledFunding.settlementTsMs out)

/-- One row of `normalize_whales`. -/
def normalizeWhale (row : WhaleWire) : Except WorkerError BinanceWhaleObservation := do
  require (0 < row.dayEndMs ∧ row.dayEndMs % dayMs = 0 ∧ row.dayEndMs ≤ availableAtMs)
    (.ofInput "whale day is not complete at availability time")
  require (row.longShortRatio.all (fun value => 0 ≤ value) = true)
    (.ofInput "negative whale long/short ratio")
  let symbol ← normalizedSymbol row.symbol
  .ok ⟨symbol, row.dayEndMs, availableAtMs, row.longShortRatio⟩

def normalizeWhales (rows : List WhaleWire) : Except WorkerError (List BinanceWhaleObservation) := do
  let out ← rows.mapM (normalizeWhale availableAtMs)
  require (out.map (fun row => (row.symbol, row.dayEndMs))).Nodup (.ofInput "duplicate whale symbol-day")
  .ok (sortedBy (fun row => toLex (row.symbol, row.dayEndMs)) out)

def validateObservationClock (observedTsMs availableAtMs : Int) : Except WorkerError Unit :=
  require (0 < observedTsMs ∧ observedTsMs ≤ availableAtMs)
    (.ofInput "available_at_ms must be at or after a positive observed_ts_ms")

def acceptedRows {α β : Type} (normalize : α → Except WorkerError β) (rows : List α) : List β :=
  rows.filterMap fun row => (normalize row).toOption

def normalizeInstrumentRow (observedTsMs availableAtMs : Int) (row : InstrumentWire) :
    Except WorkerError InstrumentObservation := do
  let symbol ← normalizedSymbol row.symbol
  .ok ⟨symbol, observedTsMs, availableAtMs, cleanText row.status, cleanText row.settleCoin, row.launchTime,
    row.deliveryTime, row.isPreListing⟩

def normalizeInstruments (observedTsMs availableAtMs : Int) (rows : List InstrumentWire) :
    Except WorkerError (List InstrumentObservation) := do
  validateObservationClock observedTsMs availableAtMs
  let out := acceptedRows (normalizeInstrumentRow observedTsMs availableAtMs) rows
  require (out.map InstrumentObservation.symbol).Nodup (.ofInput "duplicate instrument symbol")
  .ok (sortedBy InstrumentObservation.symbol out)

/-- The clock of a field that is there. -/
def tickerFieldClock (explicit : Option Int) (present : Bool) (fallback availableAtMs : Int) :
    Except WorkerError (Option Int) :=
  if present then
    let value := explicit.getD fallback
    if 0 < value ∧ value ≤ availableAtMs then .ok (some value)
    else .error (.ofInput "ticker field freshness has an invalid clock")
  else .ok none

def normalizeTickerRow (observedTsMs availableAtMs : Int) (row : TickerWire) :
    Except WorkerError TickerObservation := do
  let symbol ← normalizedSymbol row.symbol
  let mark ← tickerFieldClock row.markObservedTsMs row.markPrice.isSome observedTsMs availableAtMs
  let funding ← tickerFieldClock row.fundingObservedTsMs row.fundingRate.isSome observedTsMs availableAtMs
  let schedule ← tickerFieldClock row.scheduleObservedTsMs row.nextFundingTime.isSome observedTsMs availableAtMs
  .ok ⟨symbol, observedTsMs, availableAtMs, mark, funding, schedule, row.quotes, row.markPrice.join,
    row.fundingRate.join, row.nextFundingTime.join⟩

def normalizeTickers (observedTsMs availableAtMs : Int) (rows : List TickerWire) :
    Except WorkerError (List TickerObservation) := do
  validateObservationClock observedTsMs availableAtMs
  let out := acceptedRows (normalizeTickerRow observedTsMs availableAtMs) rows
  require (out.map TickerObservation.symbol).Nodup (.ofInput "duplicate ticker symbol")
  .ok (sortedBy TickerObservation.symbol out)

def isSha256 (value : String) : Bool :=
  decide (value.utf8ByteSize = 64) && value.toList.all fun c => c.isDigit || (decide ('a' ≤ c) && decide (c ≤ 'f'))

/-- `validate_universe`, with the clock the caller knows it by. -/
def validateUniverse (universe_ : UniverseIdentity) (observedTsMs : Int) : Except WorkerError UniverseIdentity := do
  require (0 < universe_.snapshotTsMs ∧ universe_.snapshotTsMs ≤ universe_.availableAtMs ∧
      universe_.availableAtMs ≤ observedTsMs ∧ isSha256 universe_.artifactSha256 = true ∧
      isSha256 universe_.fileSha256 = true ∧ universe_.symbols ≠ [] ∧ IsRealm universe_.environment ∧
      ¬ blank universe_.endpoint)
    (.ofInput "invalid universe identity or knowledge time")
  let symbols ← universe_.symbols.mapM normalizedSymbol
  let longSymbols ← universe_.longSymbols.mapM normalizedSymbol
  let carrySymbols ← universe_.carrySymbols.mapM normalizedSymbol
  require (longSymbols ≠ [] ∧ carrySymbols ≠ [] ∧ ∀ symbol ∈ longSymbols ++ carrySymbols, symbol ∈ symbols)
    (.ofInput "universe profile symbols are empty or outside strategy instruments")
  .ok { universe_ with symbols := symbolSet symbols, longSymbols := symbolSet longSymbols,
                       carrySymbols := symbolSet carrySymbols }

end LiquidityMigration.Worker
