import LiquidityMigration.Ledger.Order
import LiquidityMigration.Lib.Tally

/- The order ledger: `tryApply` checks a record against the ledger and then applies it, expecting what was checked.
   Two indexes over the orders in flight are kept: how many open a position of a sleeve in a symbol, and at which
   stops; the source's map in a map is one key here. `trimTerminalCache` drops ended orders, oldest sent first, down
   to its limits, but only where a flag says that an order may have ended. -/
namespace LiquidityMigration.Ledger
open Numeric Checks Orders Portfolio

inductive OrderUpdate where
  | ack (clientOrderId : String)
  | reject (clientOrderId : String) (code : Int) (reason : String)
  | fill (clientOrderId : String) (qty : F64) (amounts : Option ExecutionAmounts)
  | fastFill (clientOrderId : String)
  | amended (clientOrderId : String) (px qty : F64) (exactTerms : Option ExactAmendedTerms)
  | cancelled (clientOrderId : String)
  | stopAttached
  | streamReset
  deriving DecidableEq

deriving instance DecidableEq for Orders.AmendSpec

/-- The records of the log, as far as the ledger reads them. -/
inductive Record where
  | boot
  | orderSent (entryWork : Option WorkPolicy) (request : OrderRequest) (wireNs : Nat) (arrivalMid : F64)
  | orderUpdate (update : OrderUpdate)
  | recoveredFill (clientOrderId : String) (qty : F64) (amounts : Option ExecutionAmounts)
  | amendSent (clientOrderId : String) (spec : AmendSpec)
  | amendResolved (clientOrderId : String) (effectivePx : F64) (exactEffectivePx : Option ExactNumber)
  | note (source text : String)
  | orderLineageRestored (order : OpenOrderState)
  | segmentBase (openOrders : List OpenOrderState)
  | other
  deriving DecidableEq

/-- A stop price in the order of `total_cmp`. -/
abbrev StopPrice := WithTop ℚ

abbrev OpeningKey := StrategyId ×ₗ SymbolId

abbrev StopKey := SymbolId ×ₗ Bool ×ₗ StopPrice

structure LedgerOfOrders where
  orders : Table OrderRec.id
  terminalCacheDirty : Bool
  terminalCacheLimits : Option (Nat × Nat)
  boots : Fin (2 ^ 32)
  openingSymbols : Tally OpeningKey
  openingStopLevels : Tally StopKey
  deriving DecidableEq

def LedgerOfOrders.empty : LedgerOfOrders := ⟨∅, false, none, 0, ∅, ∅⟩

def StopPrice.ofF64 : F64 → StopPrice
  | .finite v => v
  | .nonFinite => ⊤

def openingStop (request : OrderRequest) : Option StopKey :=
  if request.reduceOnly then none
  else request.stop.map (fun stop =>
    toLex (request.symbol, toLex (decide (request.side = .sell), StopPrice.ofF64 stop)))

def openingKey (request : OrderRequest) : Option OpeningKey :=
  if request.isSleeveReduction then none else some (toLex (request.strategy, request.symbol))

/-- The stop that an order keeps in the index: `in_flight().then(|| opening_stop(..)).flatten()`. -/
def OrderRec.liveStop (row : OrderRec) : Option StopKey := if row.inFlight then openingStop row.request else none

def OrderRec.liveKey (row : OrderRec) : Option OpeningKey := if row.inFlight then openingKey row.request else none

namespace LedgerOfOrders
variable (b : Binary64) (ledger : LedgerOfOrders)

def validateFillQuantities (id : String) (qty : F64) (amounts : Option ExecutionAmounts) : Except Failure Unit :=
  match ledger.orders.get? id with
  | none => .ok ()
  | some row => do
    let _ ← row.nextFill b qty amounts

def positive : F64 → Prop
  | .finite v => 0 < v
  | .nonFinite => False

instance : ∀ x : F64, Decidable (positive x)
  | .finite v => inferInstanceAs (Decidable (0 < v))
  | .nonFinite => inferInstanceAs (Decidable False)

def notNegative : F64 → Prop
  | .finite v => 0 ≤ v
  | .nonFinite => False

instance : ∀ x : F64, Decidable (notNegative x)
  | .finite v => inferInstanceAs (Decidable (0 ≤ v))
  | .nonFinite => inferInstanceAs (Decidable False)

def validateAmendment (spec : AmendSpec) : Except Failure Unit := do
  require ((∀ px ∈ spec.px, positive px) ∧ ∀ qty ∈ spec.qty, positive qty) (.refused "invalid amendment amounts")
  match spec.exactTerms with
  | none => .ok ()
  | some terms => refuseTerms (terms.validateProjection b spec)

def validateResolution (effectivePx : F64) (exactEffectivePx : Option ExactNumber) : Except Failure Unit := do
  require (positive effectivePx) (.refused "invalid effective amendment price")
  match exactEffectivePx with
  | none => .ok ()
  | some number => do
    refuseNumber (validateStorage number.value)
    refuseNumber number.validateProvenance
    let value ← refuseNumber (toF64 b.nearest number.value)
    require (F64.finite value = effectivePx) (.refused "effective amendment price disagrees with exact amount")

def validateAmended (px qty : F64) (exactTerms : Option ExactAmendedTerms) : Except Failure Unit := do
  require (positive px ∧ notNegative qty) (.refused "invalid amended order state")
  match exactTerms with
  | none => .ok ()
  | some terms => refuseTerms (terms.validateProjection b px qty)

/-- The snapshot of a resident order, with the retention stamp of the one it is compared with. -/
def residentSnapshot (row : OrderRec) (order : OpenOrderState) : Except Failure OpenOrderState := do
  let prior ← row.snapshot b 0
  match prior.terminal, order.terminal with
  | some old, some restored =>
    .ok { prior with terminal := some { old with retainedSinceMs := restored.retainedSinceMs } }
  | _, _ => .ok prior

def checkResident (order : OpenOrderState) : Except Failure Unit :=
  match ledger.orders.get? order.request.clientOrderId with
  | none => .ok ()
  | some known => do
    let prior ← residentSnapshot b known order
    require (prior = order) (.refused "reactivated order lineage changes resident canonical ownership")

/-- `validate_restored` on each row of a base, up to the first that is refused. -/
def validateBase : List OpenOrderState → Except Failure Unit
  | [] => .ok ()
  | order :: rest => do
    validateRestored b order
    validateBase rest

def validateRecordQuantities : Record → Except Failure Unit
  | .orderSent _ request _ _ => checkTerms b request
  | .amendSent _ spec => validateAmendment b spec
  | .amendResolved _ effectivePx exactEffectivePx => validateResolution b effectivePx exactEffectivePx
  | .orderUpdate (.amended _ px qty exactTerms) => validateAmended b px qty exactTerms
  | .segmentBase openOrders => validateBase b openOrders
  | .orderLineageRestored order => do
    require (order.terminal ≠ none) (.refused "reactivated order lineage is not terminal")
    ledger.checkResident b order
    validateRestored b order
  | .orderUpdate (.fill id qty amounts) => ledger.validateFillQuantities b id qty amounts
  | .recoveredFill id qty amounts => ledger.validateFillQuantities b id qty amounts
  | _ => .ok ()

def insertLiveOrder (row : OrderRec) : LedgerOfOrders :=
  let previous := ledger.orders.get? row.id
  { ledger with
    orders := ledger.orders.put row
    openingStopLevels := (ledger.openingStopLevels.removeSome (previous.bind OrderRec.liveStop)).addSome row.liveStop
    openingSymbols := (ledger.openingSymbols.removeSome (previous.bind OrderRec.liveKey)).addSome row.liveKey }

/-- A row changed in place: an order that has ended by it leaves the indexes. -/
def change (old new : OrderRec) : LedgerOfOrders :=
  let ended := old.inFlight && !new.inFlight
  { ledger with
    orders := ledger.orders.put new
    openingStopLevels :=
      if ended then ledger.openingStopLevels.removeSome (openingStop old.request) else ledger.openingStopLevels
    openingSymbols :=
      if ended then ledger.openingSymbols.removeSome (openingKey old.request) else ledger.openingSymbols }

/-- `f` on the row of an order, where there is one. -/
def onOrder (id : String) (f : OrderRec → Except Failure OrderRec) : Except Failure LedgerOfOrders :=
  match ledger.orders.get? id with
  | none => .ok ledger
  | some row => do
    let new ← f row
    .ok (ledger.change row new)

def updateId : OrderUpdate → Option String
  | .ack id => some id
  | .reject id _ _ => some id
  | .fill id _ _ => some id
  | .fastFill id => some id
  | .amended id _ _ _ => some id
  | .cancelled id => some id
  | .stopAttached => none
  | .streamReset => none

def updatedRow (update : OrderUpdate) (row : OrderRec) : Except Failure OrderRec :=
  match update with
  | .ack _ => .ok { row with acked := true }
  | .reject _ code reason =>
    .ok { row with terminalCheckpointMs := none, ending := some (.rejected code reason) }
  | .cancelled _ => .ok { row with terminalCheckpointMs := none, ending := some .cancelled }
  | .fill _ qty amounts => row.commitFill b qty amounts
  | .fastFill _ | .stopAttached | .streamReset | .amended _ _ _ _ => .ok row

def applyUpdateValidated (update : OrderUpdate) : Except Failure LedgerOfOrders :=
  match updateId update with
  | none => .ok ledger
  | some id => ledger.onOrder id (updatedRow b update)

def recoveredRow (qty : F64) (amounts : Option ExecutionAmounts) (row : OrderRec) : Except Failure OrderRec :=
  { row with acked := true }.commitFill b qty amounts

def requestedPrice (spec : AmendSpec) (requestedPx : F64) : Except Failure Exact :=
  match spec.exactTerms.bind ExactAmendTerms.limitPrice with
  | some price => .ok price
  | none => expect (fromLegacyF64 requestedPx) "validated amendment price"

/-- The row of an amendment on its way out: the range takes in the price asked for. -/
def amendedRow (spec : AmendSpec) (requestedPx : F64) (row : OrderRec) : Except Failure OrderRec :=
  match row.request.kind with
  | .market => .ok row
  | .limit _ _ =>
    if row.inFlight then do
      let requested ← requestedPrice spec requestedPx
      let low := min row.exactPriceRange.low requested
      let high := max row.exactPriceRange.high requested
      let lowPx ← expect (toF64 b.nearest low) "validated price range"
      let highPx ← expect (toF64 b.nearest high) "validated price range"
      .ok { row with
        exactPriceRange := ⟨low, high⟩
        reservationLowPx := .finite lowPx
        reservationHighPx := .finite highPx }
    else .ok row

def effectivePrice (effectivePx : F64) (exactEffectivePx : Option ExactNumber) : Except Failure Exact :=
  match exactEffectivePx with
  | some number => .ok number.value
  | none => expect (fromLegacyF64 effectivePx) "validated effective price"

def resolvedRow (effectivePx : F64) (exactEffectivePx : Option ExactNumber) (row : OrderRec) :
    Except Failure OrderRec :=
  match row.request.kind with
  | .market => .ok row
  | .limit _ tif =>
    if row.inFlight then do
      let price ← effectivePrice effectivePx exactEffectivePx
      .ok { row with
        request := { row.request with
          kind := .limit effectivePx tif
          exactTerms := row.request.exactTerms.map (fun terms => { terms with limitPrice := some price }) }
        reservationLowPx := effectivePx
        reservationHighPx := effectivePx
        exactPriceRange := ⟨price, price⟩ }
    else .ok row

def neverSentPrefix : List Char := "no send: ".toList

def isWhitespace (c : Char) : Bool :=
  [0x9, 0xA, 0xB, 0xC, 0xD, 0x20, 0x85, 0xA0, 0x1680, 0x2028, 0x2029, 0x202F, 0x205F, 0x3000].contains c.val ||
    (0x2000 ≤ c.val && c.val ≤ 0x200A)

/-- The order a note says was never sent: the first word behind the marker. -/
def neverSentId (source text : String) : Option String :=
  if source = "shadow" then
    (neverSentPrefix.isPrefixOf? text.toList).map (fun rest =>
      String.ofList ((rest.dropWhile isWhitespace).takeWhile (fun c => !isWhitespace c)))
  else none

def restoreSnapshotOrder (order : OpenOrderState) : Except Failure LedgerOfOrders := do
  let row ← restoredRow b order
  .ok (ledger.insertLiveOrder row)

def applyValidated : Record → Except Failure LedgerOfOrders
  | .boot => .ok { ledger with boots := ledger.boots + 1 }
  | .orderSent entryWork request wireNs arrivalMid => do
    let range ← requestPriceRange request
    .ok (ledger.insertLiveOrder {
      request := request
      entryWork := entryWork
      wireNs := wireNs
      acked := false
      fillQuantity := initial request
      ending := none
      terminalCheckpointMs := none
      arrivalMid := arrivalMid
      reservationLowPx := limitPx request
      reservationHighPx := limitPx request
      exactPriceRange := range })
  | .orderUpdate update => ledger.applyUpdateValidated b update
  | .recoveredFill id qty amounts => ledger.onOrder id (recoveredRow b qty amounts)
  | .amendSent id spec =>
    match spec.px with
    | none => .ok ledger
    | some requestedPx => ledger.onOrder id (amendedRow b spec requestedPx)
  | .amendResolved id effectivePx exactEffectivePx => ledger.onOrder id (resolvedRow effectivePx exactEffectivePx)
  | .note source text =>
    match neverSentId source text with
    | none => .ok ledger
    | some id => ledger.onOrder id fun row => .ok { row with ending := some .neverSent }
  | .orderLineageRestored order => ledger.restoreSnapshotOrder b order
  | .segmentBase openOrders =>
    openOrders.foldlM (fun ledger order => ledger.restoreSnapshotOrder b order)
      { ledger with orders := ∅, openingSymbols := ∅, openingStopLevels := ∅ }
  | .other => .ok ledger

/-- The kinds of record after which the cache of ended orders is looked through again. -/
def flagged : Record → Bool
  | .orderSent _ _ _ _ | .orderLineageRestored _ | .orderUpdate _ | .recoveredFill _ _ _ | .amendSent _ _
  | .amendResolved _ _ _ | .segmentBase _ => true
  | .boot | .note _ _ | .other => false

def tryApply (record : Record) : Except Failure Unit × LedgerOfOrders :=
  match ledger.validateRecordQuantities b record with
  | .error failure => (.error failure, ledger)
  | .ok () =>
    let ledger := if flagged record then { ledger with terminalCacheDirty := true } else ledger
    match ledger.applyValidated b record with
    | .error failure => (.error failure, ledger)
    | .ok applied => (.ok (), applied)

def accept (record : Record) : Except Failure LedgerOfOrders :=
  match ledger.tryApply b record with
  | (.ok (), applied) => .ok applied
  | (.error failure, _) => .error failure

def run (records : List Record) : Except Failure LedgerOfOrders :=
  records.foldlM (fun ledger record => ledger.accept b record) ledger

def snapshots (nowMs : Int) : Except Failure (List OpenOrderState) :=
  ledger.orders.rows.mapM fun row => row.snapshot b nowMs

/-- An ended order as `trim_terminal_cache` ranks it. -/
structure Terminal where
  wireNs : Nat
  id : String
  size : Nat
  deriving DecidableEq

def Terminal.NotAfter (x y : Terminal) : Prop :=
  toLex (x.wireNs, toLex (x.id, x.size)) ≤ toLex (y.wireNs, toLex (y.id, y.size))

instance : DecidableRel Terminal.NotAfter := fun x y =>
  inferInstanceAs (Decidable (toLex (x.wireNs, toLex (x.id, x.size)) ≤ toLex (y.wireNs, toLex (y.id, y.size))))

instance : Std.Total Terminal.NotAfter := ⟨fun _ _ => le_total _ _⟩

instance : IsTrans Terminal Terminal.NotAfter := ⟨fun _ _ _ => le_trans⟩

/-- The rank of a row; `size` is the length of a snapshot as JSON. -/
def terminalOf (size : OpenOrderState → Except String Nat) (row : OrderRec) : Except Failure Terminal := do
  let snapshot ← row.snapshot b 0
  let length ← (size snapshot).mapError Failure.refused
  .ok ⟨row.wireNs, row.id, length⟩

/-- The loop of `trim_terminal_cache`: what it removes, and the orders it leaves. -/
def evict (capacity byteCapacity : Nat) : List Terminal → Nat → Nat → Table OrderRec.id →
    List String × Table OrderRec.id
  | [], _, _, orders => ([], orders)
  | terminal :: rest, count, bytes, orders =>
    if count ≤ capacity ∧ bytes ≤ byteCapacity then ([], orders)
    else
      let (removed, orders) := evict capacity byteCapacity rest (count - 1) (bytes - terminal.size)
        (orders.erase terminal.id)
      (terminal.id :: removed, orders)

def trimTerminalCache (size : OpenOrderState → Except String Nat) (capacity byteCapacity : Nat) :
    Except Failure (List String × LedgerOfOrders) :=
  if ledger.terminalCacheDirty = false ∧ ledger.terminalCacheLimits = some (capacity, byteCapacity) then
    .ok ([], ledger)
  else do
    let terminals ← (ledger.orders.rows.filter (fun row => !row.inFlight)).mapM (terminalOf b size)
    let terminals := terminals.insertionSort Terminal.NotAfter
    let (removed, orders) := evict capacity byteCapacity terminals terminals.length
      (terminals.map Terminal.size).sum ledger.orders
    .ok (removed, { ledger with
      orders := orders
      terminalCacheDirty := false
      terminalCacheLimits := some (capacity, byteCapacity) })

end LedgerOfOrders
end LiquidityMigration.Ledger
