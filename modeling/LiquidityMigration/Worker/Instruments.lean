import LiquidityMigration.Worker.Model

/- When an instrument traded. A snapshot of the venue's table opens an interval for an
   instrument that has begun to trade and closes the open one of an instrument that has
   stopped, or is missing from the table; from when on it has been missing is kept
   beside the intervals. Nothing holds one snapshot's clock against the last one's. -/
namespace LiquidityMigration.Worker
open Checks

variable (row : InstrumentObservation) (intervals : List InstrumentTradingInterval)

/-- A dated contract trades until its delivery. -/
def instrumentIsTrading (settleCoin : String) : Bool :=
  decide (row.status = some "Trading") && decide (row.settleCoin = some settleCoin) && !row.isPrelisting &&
    row.deliveryTimeMs.all fun clock => clock ≤ 0 ∨ row.observedTsMs < clock

/-- The last interval ends where it is open at a clock,
at a stated clock before it or there. -/
def closeActiveTradingInterval (unknownAt : Int)
    (explicitThrough : Option Int) : List InstrumentTradingInterval :=
  match intervals.getLast? with
  | none => intervals
  | some last =>
    if unknownAt < last.tradingFromMs ∨ last.tradingThroughMs.any (fun through => through ≤ unknownAt) = true then
      intervals
    else
      let through := (explicitThrough.filter
        (fun clock => last.tradingFromMs < clock ∧ clock ≤ unknownAt)).getD unknownAt
      if through ≤ last.tradingFromMs then intervals.dropLast
      else intervals.dropLast ++ [{ last with tradingThroughMs := some through }]

def historyActive (observed : Int) : Bool :=
  intervals.getLast?.any (fun last => decide (last.tradingFromMs ≤ observed) &&
    last.tradingThroughMs.all (fun through => observed < through))

/-- The interval from launch to delivery of an instrument that has been delivered. -/
def deliveredInterval (observed : Int) : Option InstrumentTradingInterval :=
  match row.launchTimeMs, row.deliveryTimeMs with
  | some launch, some delivery =>
    if 0 < launch ∧ launch < delivery ∧ delivery ≤ observed then some ⟨launch, some delivery⟩ else none
  | _, _ => none

/-- The interval of an instrument that has begun to trade: the first one goes back to its
launch. -/
def openedInterval (first : Bool) (observed : Int) : InstrumentTradingInterval :=
  let start := if first then
      (row.launchTimeMs.filter (fun clock => 0 < clock ∧ clock ≤ observed)).getD observed
    else observed
  ⟨start, row.deliveryTimeMs.filter (fun clock => start < clock)⟩

/-- One symbol of `update_instrument_trading_intervals`: `next` is its row in the
snapshot. -/
def updateIntervals (priorTrading : Bool)
    (next : Option InstrumentObservation) (observed : Int) (settleCoin : String) :
    Except WorkerError (List InstrumentTradingInterval) :=
  let active := historyActive intervals observed
  match next with
  | none => .ok (if active then closeActiveTradingInterval intervals observed none else intervals)
  | some row =>
    if instrumentIsTrading row settleCoin then
      if !priorTrading && !active then
        let opened := openedInterval row intervals.isEmpty observed
        if opened.tradingThroughMs.any (fun clock => clock ≤ observed) then
          .error (.ofInput "Trading instrument has already passed its delivery time")
        else .ok (intervals ++ [opened])
      else
        match intervals.getLast? with
        | some ⟨start, none⟩ => .ok (intervals.dropLast ++
            [⟨start, row.deliveryTimeMs.filter (fun clock => observed < clock)⟩])
        | _ => .ok intervals
    else if priorTrading || active then .ok (closeActiveTradingInterval intervals observed row.deliveryTimeMs)
    else if intervals = [] then .ok (deliveredInterval row observed).toList
    else .ok intervals

variable (histories : Dict String (List InstrumentTradingInterval)) (unknown : Dict String Int)

def updateInstrumentTradingIntervals
    (prior next : Dict String InstrumentObservation) (allowed : List String) (observed : Int) (settleCoin : String) :
    Except WorkerError (Dict String (List InstrumentTradingInterval)) := do
  let updated ← allowed.foldlM (fun d symbol => do
    let intervals ← updateIntervals ((d.find? symbol).getD [])
      ((prior.find? symbol).any (fun row => instrumentIsTrading row settleCoin)) (next.find? symbol) observed settleCoin
    .ok (d.insert symbol intervals)) histories
  .ok (updated.retain (fun _ intervals => !intervals.isEmpty))

/-- Whether a snapshot's row leaves it open what the instrument is doing. -/
def statusUnknown (next : Option InstrumentObservation) (settleCoin : String) : Bool :=
  match next with
  | none => true
  | some row => !instrumentIsTrading row settleCoin && !row.deliveryTimeMs.any fun clock => 0 < clock

/-- Since when the status of each instrument has been unknown, after a snapshot. -/
def updateUnknownSince (next : Dict String InstrumentObservation) (allowed : List String)
    (observed : Int) (settleCoin : String) : Dict String Int :=
  allowed.foldl (fun d symbol =>
    if statusUnknown (next.find? symbol) settleCoin then
      if (d.find? symbol).isSome then d else d.insert symbol observed
    else d.erase symbol) unknown

/-- An instrument that is missing from the table is kept, its status unknown. -/
def missingRow (prior : InstrumentObservation) (observed availableAt : Int) : InstrumentObservation :=
  { prior with observedTsMs := observed, availableAtMs := availableAt, status := none }

def updateInstruments (prior next : Dict String InstrumentObservation) (allowed : List String)
    (observed availableAt : Int) : Dict String InstrumentObservation :=
  allowed.foldl (fun d symbol =>
    match next.find? symbol, prior.find? symbol with
    | none, some row => d.insert symbol (missingRow row observed availableAt)
    | _, _ => d) next

end LiquidityMigration.Worker
