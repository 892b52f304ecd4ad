import LiquidityMigration.Execution.RoundTrip
import LiquidityMigration.Portfolio.BatchAccounting

/- The durable books of the sleeves: the inventory, the execution accounting and, for quantities an older log keeps
   as binary64 only, the readings each holding was summed from. A fill of one sleeve is prepared against both books
   and committed; an execution that may belong to several is allocated first, its slices are prepared as a batch, and
   the allocation is recorded with it. A commit checks all it was prepared against before it changes anything
   (`take_ok`, `commitPortfolioFill_ok`). -/
namespace LiquidityMigration.Portfolio
open Numeric Checks

/-- A sleeve's totals of internal settlements, in one asset. -/
structure InternalSettlementTotals where
  strategy : StrategyId
  symbol : SymbolId
  asset : AssetId
  (cashFlow realizedGross : Exact)
  unvaluedRealizedEvents : Nat
  deriving DecidableEq

structure Attribution where
  inventory : Inventory
  legacyQuantities : Dict SleeveKey Origin
  internal : Dict AssetKey InternalSettlementTotals
  accounting : ExecutionAccounting

def ownerOf (key : PositionKey) : SleeveKey := sleeveKey key.1 key.2

def signedOn (side : Side) (qty : Exact) : Exact :=
  match side with
  | .buy => qty
  | .sell => -qty

namespace Attribution

def noteLegacyReading (b : Binary64) (a : Attribution) (key : SleeveKey) (signed : Exact) : Except String Origin :=
  ((a.legacyQuantities.find? key).getD ⟨0, 0⟩).note b.nearest signed

/-- `FLAT`: the binary64 nearest to `1e-9`. -/
def flatBelow : ℚ := Execution.Lot.legacyFlat

/-- The binary64 of what a sleeve holds is under `FLAT`. -/
def isFlat (b : Binary64) (inventory : Inventory) (key : PositionKey) : Bool :=
  match inventory.position key with
  | some row =>
    -- an inventory row has a binary64, so the other branch is not met
    match toF64 b.nearest row.signedQty with
    | .ok qty => |qty| < flatBelow
    | .error _ => false
  | none => true

def settleLegacySum (b : Binary64) (a : Attribution) (key : PositionKey) (origin : Origin) : Attribution :=
  let inventory := if isFlat b a.inventory key then a.inventory.remove key else a.inventory
  { a with
    inventory := inventory
    legacyQuantities :=
      if inventory.position key = none then a.legacyQuantities.erase (ownerOf key)
      else a.legacyQuantities.insert (ownerOf key) origin }

end Attribution

structure PreparedAllocation where
  change : InventoryChange
  accounting : AccountingChange
  strategy : StrategyId
  symbol : SymbolId
  /-- The binary64 reading the fill adds to the sleeve's sum, unless the venue stated
  exact amounts. -/
  legacyInput : Option Exact

def accountingInput (fill : InventoryFill) (fee : Option AssetAmount) (realized : RealizedValue) :
    ExecutionAccountingInput where
  strategy := fill.strategy
  symbol := fill.symbol
  side := fill.side
  qty := fill.qty
  px := fill.px
  settlementAsset := fill.settlementAsset
  fee := fee
  realized := realized

namespace Attribution

variable (b : Binary64) (a : Attribution)

/-- The part that `prepare_update`, `prepare_recovered` and `apply_fill` share: the fill
against the inventory, and then against the accounting with what it realizes. -/
def prepareFill (fill : InventoryFill) (fee : Option AssetAmount)
    (legacyInput : Option Exact) : Except String PreparedAllocation := do
  let change ← a.inventory.prepareFill b.nearest fill
  let accounting ← a.accounting.prepare (accountingInput fill fee change.realized)
  .ok ⟨change, accounting, fill.strategy, fill.symbol, legacyInput⟩

/-- The sum of readings after a fill; none for a fill with exact amounts. -/
def notedInput (key : SleeveKey) : Option Exact → Except String (Option Origin)
  | some signed => (a.noteLegacyReading b key signed).map some
  | none => .ok none

/-- The tail of `commit_prepared`. -/
def settleInput (key : PositionKey) : Option Origin → Attribution
  | some origin => a.settleLegacySum b key origin
  | none =>
    if a.inventory.position key = none then { a with legacyQuantities := a.legacyQuantities.erase (ownerOf key) }
    else a

/-- The part both commits share: nothing changes before both books are checked against what was prepared. -/
def commitBooks {ρ : Type} (validated : Except String Unit) (applied : Except String (ρ × Inventory))
    (change : AccountingChange) (settle : Attribution → Attribution) : Except String Unit × Attribution :=
  match validated, a.accounting.validateChange change with
  | .error e, _ => (.error e, a)
  | .ok (), .error e => (.error e, a)
  | .ok (), .ok () =>
    match applied with
    | .error e => (.error e, a)
    | .ok (_, inventory) =>
      match a.accounting.apply change with
      | (.error e, accounting) => (.error e, { a with inventory := inventory, accounting := accounting })
      | (.ok (), accounting) => (.ok (), settle { a with inventory := inventory, accounting := accounting })

def commitPrepared (prepared : PreparedAllocation) : Except String Unit × Attribution :=
  let key := (prepared.strategy, prepared.symbol)
  match a.notedInput b (ownerOf key) prepared.legacyInput with
  | .error e => (.error e, a)
  | .ok origin =>
    a.commitBooks (a.inventory.validateChange prepared.change) (a.inventory.apply prepared.change)
      prepared.accounting fun a => a.settleInput b key origin

def take (fill : InventoryFill) (fee : Option AssetAmount) (legacyInput : Option Exact) :
    Except String Attribution := do
  let prepared ← a.prepareFill b fill fee legacyInput
  match a.commitPrepared b prepared with
  | (.error e, _) => .error e
  | (.ok (), next) => .ok next

end Attribution

structure ExecutionRef where
  clientOrderId : String
  symbol : SymbolId
  side : Side
  qty : F64
  /-- Where the quantity is not finite: whether it is positive infinity, which is more than
  any holding. -/
  infinite : Bool
  px : F64
  fee : Option F64
  amounts : Option ExecutionAmounts
  allocation : Option ExecutionAllocation
  /-- Whether the venue names it a close it started itself. -/
  (forcedClose engineNet : Bool)

namespace ExecutionRef

def legacyFee : Option F64 → Except String (Option AssetAmount)
  | none => .ok none
  | some value =>
    ((ExactNumber.ofLegacy value).map (fun amount => some ⟨.unknown, amount⟩)).mapError ExactError.toString

structure Terms where
  (quantity price : Exact)
  settlementAsset : AssetId
  fee : Option AssetAmount
  deriving DecidableEq

/-- Its exact amounts, checked against the binary64 fields, or else those fields as they
stand. -/
def terms (b : Binary64) (execution : ExecutionRef) : Except String Terms :=
  match execution.amounts with
  | some amounts => do
    (Execution.validateProjection b amounts execution.qty execution.px execution.fee).mapError ExactError.toString
    .ok ⟨amounts.quantity.value, amounts.price.value, amounts.settlementAsset, amounts.fee⟩
  | none => do
    let fee ← legacyFee execution.fee
    let quantity ← (fromLegacyF64 execution.qty).mapError ExactError.toString
    let price ← (fromLegacyF64 execution.px).mapError ExactError.toString
    .ok ⟨quantity, price, .unknown, fee⟩

/-- Charged to the net of the symbol: an order of the engine itself, or a close that the
venue started. -/
def forced (execution : ExecutionRef) : Bool :=
  execution.engineNet || (execution.clientOrderId.isEmpty && execution.forcedClose)

def exceeds (execution : ExecutionRef) (bound : ℚ) : Bool :=
  match execution.qty with
  | .finite qty => bound < qty
  | .nonFinite => execution.infinite

end ExecutionRef

structure PreparedPortfolioFill where
  allocation : ExecutionAllocation
  inventory : Inventory.BatchChange
  accounting : AccountingChange
  /-- The binary64 reading of each slice; none where the venue stated exact amounts. -/
  legacyInputs : List (StrategyId × SymbolId × Exact)

namespace Attribution

variable (b : Binary64) (a : Attribution)

/-- Each holding in the symbol on the venue's quantity grid, where its
readings have one value there. -/
def ownedOnGrid (symbol : SymbolId) (step : Exact) (strategy : StrategyId) : Option Exact :=
  (a.inventory.position (strategy, symbol)).map (fun row =>
    match a.legacyQuantities.find? (sleeveKey strategy symbol) with
    | some origin =>
      match origin.resolve b.nearest row.signedQty step with
      | .ok quantity => quantity
      | .error _ => row.signedQty
    | none => row.signedQty)

variable (owner : Option StrategyId) (execution : ExecutionRef) (terms : ExecutionRef.Terms)
  (allocation : ExecutionAllocation)

/-- An execution that has no sleeve's order, against what is owned net: true where it is
charged to nobody. -/
def beyondNet : Except String Bool :=
  if owner.isSome then .ok false
  else
    let net := a.inventory.net execution.symbol
    if net = 0 ∨ decide (0 < net) = decide (execution.side = .buy) then .ok true
    else ((toF64 b.nearest |net|).map execution.exceeds).mapError ExactError.toString

/-- The quantity grid an allocation is made on: the recorded one, or for a new allocation
the caller's, where a binary64 quantity is charged to the net and is not all of it. -/
def gridStep (quantity : Exact) (legacyStep : Option Exact) : Option Exact :=
  match execution.allocation with
  | some allocation => allocation.legacyQuantityStep
  | none =>
    if execution.amounts.isNone ∧ owner.isNone ∧ execution.forced ∧ quantity ≠ |a.inventory.net execution.symbol| then
      legacyStep
    else none

def gridQuantity (quantity : Exact) : Option Exact → Except String Exact
  | some step => do
    require (¬ (execution.amounts.isSome ∨ owner.isSome ∨ ¬ execution.forced))
      "legacy grid receipt requires a binary64 FIFO execution"
    legacyQuantity b.nearest execution.qty step
  | none => .ok quantity

def sliceFills : List InventoryFill :=
  allocation.slices.map (fun slice =>
    { strategy := slice.strategy
      symbol := execution.symbol
      side := execution.side
      qty := slice.quantity
      px := some terms.price
      stop := none
      settlementAsset := terms.settlementAsset })

/-- The slices as the accounting is told of them, with what each realizes. -/
def sliceInputs (realized : RealizedRows) : List ExecutionAccountingInput :=
  List.zipWith (fun (slice : ExecutionSlice) (row : StrategyId × SymbolId × RealizedValue) =>
    { strategy := row.1
      symbol := row.2.1
      side := execution.side
      qty := slice.quantity
      px := some terms.price
      settlementAsset := terms.settlementAsset
      fee := slice.fee
      realized := row.2.2 }) allocation.slices realized

/-- The allocation of an execution with the grid it was made on; a recorded one has to
agree. -/
def allocationOf (names : List String)
    (execution : ExecutionRef) (terms : ExecutionRef.Terms) (legacyStep : Option Exact) :
    Except String ExecutionAllocation := do
  let step := a.gridStep owner execution terms.quantity legacyStep
  let quantity ← gridQuantity b owner execution terms.quantity step
  let allocation ← allocate a.inventory owner names
    { symbol := execution.symbol
      side := execution.side
      quantity := quantity
      fee := terms.fee
      forcedClose := execution.forced
      owned := step.map (a.ownedOnGrid b execution.symbol) }
  let allocation := { allocation with legacyQuantityStep := step }
  require (execution.allocation.all (fun recorded => recorded = allocation))
    "recorded execution allocation disagrees with durable ownership"
  .ok allocation

def prepareSlices : Except String PreparedPortfolioFill := do
  let inventory ← a.inventory.prepareBatch b.nearest (sliceFills execution terms allocation)
  let accounting ← a.accounting.prepareBatch (sliceInputs execution terms allocation inventory.realized)
  .ok {
    allocation := allocation
    inventory := inventory
    accounting := accounting
    legacyInputs := match execution.amounts with
      | some _ => []
      | none => allocation.slices.map (fun slice =>
          (slice.strategy, execution.symbol, signedOn execution.side slice.quantity)) }

/-- An execution that nobody is charged for may carry no allocation. -/
def charged (e : String) : Except String (Option PreparedPortfolioFill) :=
  if execution.allocation.isSome then .error e else .ok none

def prepareExecutionAllocation (names : List String)
    (execution : ExecutionRef) (legacyStep : Option Exact) : Except String (Option PreparedPortfolioFill) :=
  if owner.isNone ∧ ¬ execution.forced then charged execution "unowned execution carries sleeve allocation"
  else do
    let nobody ← a.beyondNet b owner execution
    if nobody then charged execution "recorded forced allocation exceeds owned physical net"
    else do
      let terms ← execution.terms b
      let allocation ← a.allocationOf b owner names execution terms legacyStep
      (a.prepareSlices b execution terms allocation).map some

def notedInputs (inputs : List (StrategyId × SymbolId × Exact)) : Except String (List Origin) :=
  inputs.mapM fun input => a.noteLegacyReading b (sleeveKey input.1 input.2.1) input.2.2

/-- The tail of `commit_portfolio_fill`. -/
def settleInputs (inputs : List (StrategyId × SymbolId × Exact)) (origins : List Origin) : Attribution :=
  let settled := (inputs.zip origins).foldl
    (fun (a : Attribution) input => a.settleLegacySum b (input.1.1, input.1.2.1) input.2) a
  { settled with legacyQuantities := settled.legacyQuantities.retain (fun key _ =>
      settled.inventory.position ((ofLex key).1, (ofLex key).2) ≠ none) }

def commitPortfolioFill (prepared : PreparedPortfolioFill) : Except String Unit × Attribution :=
  match a.notedInputs b prepared.legacyInputs with
  | .error e => (.error e, a)
  | .ok origins =>
    a.commitBooks (a.inventory.validateBatch prepared.inventory) (a.inventory.applyBatch prepared.inventory)
      prepared.accounting fun a => a.settleInputs b prepared.legacyInputs origins

def executionFill (strategy : StrategyId) (execution : ExecutionRef) : Except String InventoryFill := do
  let (qty, px, asset) ← match execution.amounts with
    | some amounts => do
      (Execution.validateProjection b amounts execution.qty execution.px execution.fee).mapError ExactError.toString
      .ok (amounts.quantity.value, amounts.price.value, amounts.settlementAsset)
    | none => do
      let qty ← (fromLegacyF64 execution.qty).mapError ExactError.toString
      let px ← (fromLegacyF64 execution.px).mapError ExactError.toString
      .ok (qty, px, .unknown)
  .ok {
    strategy := strategy
    symbol := execution.symbol
    side := execution.side
    qty := qty
    px := some px
    stop := none
    settlementAsset := asset }

/-- `prepare_update`, and `prepare_recovered`. -/
def prepareUpdate (strategy : StrategyId) (execution : ExecutionRef) : Except String PreparedAllocation := do
  let fill ← executionFill b strategy execution
  let fee ← match execution.amounts with
    | some amounts => .ok amounts.fee
    | none => ExecutionRef.legacyFee execution.fee
  a.prepareFill b fill fee (if execution.amounts.isNone then some (signedOn execution.side fill.qty) else none)

def folded (out : Except String Unit × Attribution) : Except String Bool × Attribution :=
  (out.1.map (fun _ => true), out.2)

def foldRecordFill (names : List String) (execution : ExecutionRef) : Except String Bool × Attribution :=
  if execution.allocation.isSome then
    match a.prepareExecutionAllocation b owner names execution none with
    | .error e => (.error e, a)
    | .ok none => (.error "recorded allocation has no owner", a)
    | .ok (some prepared) => folded (a.commitPortfolioFill b prepared)
  else if execution.engineNet then (.error "engine net execution is missing its durable allocation", a)
  else
    match owner with
    | none => (.ok false, a)
    | some strategy =>
      match a.prepareUpdate b strategy execution with
      | .error e => (.error e, a)
      | .ok prepared => folded (a.commitPrepared b prepared)

section
variable {b : Binary64} {a a' : Attribution} {fill : InventoryFill} {fee : Option AssetAmount}
  {legacyInput : Option Exact}

theorem take_ok (h : a.take b fill fee legacyInput = .ok a') : ∃ realized inventory accounting origin,
      a.inventory.fill b.nearest fill = .ok (realized, inventory) ∧
      a.accounting.record (accountingInput fill fee realized) = .ok accounting ∧
      a.notedInput b (ownerOf fill.key) legacyInput = .ok origin ∧
      a' = { a with inventory := inventory, accounting := accounting }.settleInput b fill.key origin := by
  simp only [take, prepareFill, ok_iff] at h
  obtain ⟨prepared, ⟨change, hchange, accounting, haccounting, rfl⟩, h⟩ := h
  have hkey : change.key = fill.key ∧ a.inventory.fill b.nearest fill = a.inventory.apply change := by
    refine ⟨?_, ?_⟩
    · unfold Inventory.prepareFill at hchange
      split at hchange
      · cases hchange
      · cases hchange
        rfl
    · rw [Inventory.fill, hchange]
  unfold commitPrepared commitBooks at h
  dsimp only at h
  split at h
  · cases h
  · next next horigin =>
    split at horigin
    · cases horigin
    · next origin hnoted =>
      split at horigin
      · cases horigin
      · cases horigin
      · split at horigin
        · cases horigin
        · next realized inventory happly =>
          split at horigin
          · cases horigin
          · next accounting' hrecord =>
            cases horigin
            cases h
            have hrealized : realized = change.realized := by
              obtain ⟨_, _, heq⟩ := map_eq_ok.mp happly
              exact (congrArg Prod.fst heq).symm
            refine ⟨realized, inventory, accounting', origin, hkey.2.trans happly, ?_, hnoted, rfl⟩
            rw [hrealized, ExecutionAccounting.record, haccounting]
            simp only [bind, Except.bind, hrecord]

end

end Attribution

end LiquidityMigration.Portfolio
