import LiquidityMigration.Lib.Fifo
import LiquidityMigration.Numeric.Number
import LiquidityMigration.Portfolio.Inventory

/- Charging a venue execution to sleeves. An execution of an order belongs to the
   order's sleeve. A forced close has no order: it is served by the sleeves on the
   net side, first in the order of their durable keys, each up to its holding, and
   the fee is shared in proportion (`allocate`). The consumer of an allocation splits
   the execution by it and checks it again (`sliceUpdates`). -/
namespace LiquidityMigration.Portfolio
open Numeric Checks

inductive AllocationPolicy where
  | directOrder | emergencyNetFifo
  deriving DecidableEq

structure ExecutionSlice where
  strategy : StrategyId
  strategyKey : String
  quantity : Exact
  fee : Option AssetAmount
  deriving DecidableEq

structure ExecutionAllocation where
  policy : AllocationPolicy
  legacyQuantityStep : Option Exact
  slices : List ExecutionSlice
  deriving DecidableEq

structure AllocationInput where
  symbol : SymbolId
  side : Side
  quantity : Exact
  fee : Option AssetAmount
  forcedClose : Bool
  /-- The sleeves' holdings on the venue's own quantity grid, where the quantity was
  resolved onto it. -/
  owned : Option (StrategyId → Option Exact)

variable (inv : Inventory) (names : List String) (input : AllocationInput)

def strategyKey (strategy : StrategyId) : Except String String :=
  match names[strategy]? with
  | none => .error "allocation owner has no durable strategy key"
  | some key =>
    if key.isEmpty ∨ names.count key ≠ 1 then .error "allocation owner key is empty or ambiguous" else .ok key

/-- What each sleeve holds in the symbol: on the grid where that has a value. -/
def holdings : List (StrategyId × Exact) :=
  (inv.positionsOnSymbol input.symbol).map
    fun row => (row.strategy, (input.owned.bind (fun grid => grid row.strategy)).getD row.signedQty)

def ownedNet : Exact :=
  (holdings inv input).foldl (fun sum h => sum + h.2) 0

def Reducing : Prop :=
  ¬ (ownedNet inv input = 0 ∨ decide (0 < ownedNet inv input) = decide (input.side = .buy) ∨
    |ownedNet inv input| < input.quantity)
  deriving Decidable

abbrev Contributor := (String × StrategyId) × Exact

/-- The keys of the sleeves on the net side; the first that has none ends it. -/
def named (names : List String) : List (StrategyId × Exact) → Except String (List Contributor)
  | [] => .ok []
  | (strategy, held) :: rest =>
    match strategyKey names strategy with
    | .error e => .error e
    | .ok key => (named names rest).map fun out => ((key, strategy), held) :: out

def onNetSide : List (StrategyId × Exact) :=
  (holdings inv input).filter fun h => decide (0 < h.2) = decide (0 < ownedNet inv input)

def shareFee (fee : Option AssetAmount) (qty quantity : Exact) : Except String (Option AssetAmount) :=
  match fee with
  | none => .ok none
  | some fee =>
    match checkedDiv (fee.amount.value * qty) quantity with
    | .error e => .error e.toString
    | .ok value => (stores value).map fun _ => some ⟨fee.asset, .ofDerived value⟩

/-- The loop over the contributors: the slices, and what is left. -/
def slicesOf (quantity : Exact) (fee : Option AssetAmount) :
    List Contributor → Exact → Except String (List ExecutionSlice × Exact)
  | [], remaining => .ok ([], remaining)
  | ((key, strategy), held) :: rest, remaining =>
    if remaining = 0 then .ok ([], remaining)
    else
      let qty := min remaining |held|
      match shareFee fee qty quantity with
      | .error e => .error e
      | .ok share =>
        (slicesOf quantity fee rest (remaining - qty)).map fun out => (⟨strategy, key, qty, share⟩ :: out.1, out.2)

/-- The part of `allocate` for an execution without an order. -/
def allocateForced : Except String ExecutionAllocation :=
  if ¬ Reducing inv input then .error "forced execution does not reduce the owned physical net"
  else
    match named names (onNetSide inv input) with
    | .error e => .error e
    | .ok contributors =>
      match slicesOf input.quantity input.fee
        (contributors.insertionSort (fun a b => a.1.1 ≤ b.1.1)) input.quantity with
      | .error e => .error e
      | .ok (slices, remaining) =>
        if remaining ≠ 0 then .error "forced execution has insufficient owned contributors"
        else .ok ⟨.emergencyNetFifo, none, slices⟩

def allocate (owner : Option StrategyId) (names : List String) (input : AllocationInput) :
    Except String ExecutionAllocation :=
  if ¬ 0 < input.quantity then .error "execution allocation quantity must be positive"
  else
    match firstError (stores input.quantity ::
        input.fee.toList.map (fun fee => fee.amount.validateProvenance.mapError ExactError.toString)) with
    | .error e => .error e
    | .ok () =>
      match owner with
      | some strategy =>
        (strategyKey names strategy).map (fun key =>
          ⟨.directOrder, none, [⟨strategy, key, input.quantity, input.fee⟩]⟩)
      | none =>
        if ¬ input.forcedClose then
          .error "execution has neither an order owner nor a venue forced-close reason"
        else allocateForced inv names input

/-- The readings a legacy quantity was summed from. -/
structure Origin where
  (quantity uncertainty : Exact)

variable (f64 : Exact → Option ℚ)

def Origin.note (origin : Origin) (signed : Exact) : Except String Origin :=
  match toF64 f64 |signed| with
  | .error e => .error e.toString
  | .ok value =>
    let next : Origin := ⟨origin.quantity + signed, origin.uncertainty + ulp value * 64⟩
    (firstError [stores next.quantity, stores next.uncertainty]).map fun _ => next

def Origin.resolve (origin : Origin) (current step : Exact) : Except String Exact :=
  match ceilTo (origin.quantity - origin.uncertainty) step with
  | .error e => .error e.toString
  | .ok low =>
    match floorTo (origin.quantity + origin.uncertainty) step with
    | .error e => .error e.toString
    | .ok high =>
      if low ≠ high then .error "legacy quantity has no unique venue-grid value within 64 ULPs per input"
      else
        let corrected := current + (low - origin.quantity)
        (firstError [stores corrected, ((toF64 f64 corrected).map (fun _ => ())).mapError ExactError.toString]).map
          fun _ => corrected

def legacyQuantity (qty : F64) (step : Exact) : Except String Exact :=
  if ¬ 0 < step then .error "legacy execution quantity grid must be positive"
  else
    match fromLegacyF64 qty with
    | .error e => .error e.toString
    | .ok raw =>
      match Origin.note f64 ⟨0, 0⟩ raw with
      | .error e => .error e
      | .ok origin =>
        match origin.resolve f64 raw step with
        | .error e => .error e
        | .ok quantity =>
          if 0 < quantity then .ok quantity
          else .error "legacy execution quantity does not resolve to a positive grid value"

/-- `reconcile::fill_quantity`. -/
def physicalQuantity (qty : F64) (amounts : Option ExecutionAmounts) : Except String Exact :=
  let quantity : Except String Exact := match amounts with
    | some amounts =>
      match amounts.quantity.validateProvenance with
      | .error e => .error e.toString
      | .ok () =>
        match toF64 f64 amounts.quantity.value with
        | .error e => .error e.toString
        | .ok value =>
          if qty ≠ .finite value then .error "physical fill quantity disagrees with its exact amount"
          else .ok amounts.quantity.value
    | none => (fromLegacyF64 qty).mapError ExactError.toString
  match quantity with
  | .error e => .error e
  | .ok quantity => if 0 < quantity then .ok quantity else .error "physical fill quantity must be positive"

def fillQuantity (qty : F64) (amounts : Option ExecutionAmounts)
    (allocation : Option ExecutionAllocation) : Except String Exact :=
  match physicalQuantity f64 qty amounts with
  | .error e => .error e
  | .ok raw =>
    match allocation.bind ExecutionAllocation.legacyQuantityStep with
    | none => .ok raw
    | some step =>
      if amounts.isSome ∨ allocation.all (fun row => row.policy ≠ .emergencyNetFifo) then
        .error "legacy grid receipt requires a binary64 FIFO execution"
      else legacyQuantity f64 qty step

/-- A fill of the venue, with the fields that splitting it reads or writes. -/
structure FillUpdate where
  allocation : Option ExecutionAllocation
  amounts : Option ExecutionAmounts
  symbol : SymbolId
  side : Side
  (qty px : F64)
  fee : Option F64
  deriving DecidableEq

def expectedFee (update : FillUpdate) : Except String (Option AssetAmount) :=
  match update.amounts with
  | some amounts => .ok amounts.fee
  | none =>
    match update.fee with
    | none => .ok none
    | some value =>
      ((ExactNumber.ofLegacy value).map (fun amount => some ⟨.unknown, amount⟩)).mapError ExactError.toString

/-- The fee of a slice against the one expected: its value, where both are there and in one asset. -/
def sliceFee (expected fee : Option AssetAmount) : Except String Exact :=
  match expected, fee with
  | none, none => .ok 0
  | some expected, some fee =>
    if expected.asset = fee.asset then
      (fee.amount.validateProvenance.map (fun _ => fee.amount.value)).mapError ExactError.toString
    else .error "execution allocation changes fee availability or currency"
  | _, _ => .error "execution allocation changes fee availability or currency"

def slicePart (update : FillUpdate) (slice : ExecutionSlice) : Except String FillUpdate :=
  match toF64 f64 slice.quantity with
  | .error e => .error e.toString
  | .ok qty =>
    let fee : Except String (Option F64) := match update.fee, slice.fee with
      | some _, some fee =>
        ((toF64 f64 fee.amount.value).map (fun v => some (.finite v))).mapError ExactError.toString
      | _, _ => .ok none
    fee.map (fun fee => { update with
      allocation := none
      qty := .finite qty
      fee := fee
      amounts := update.amounts.map (fun amounts =>
        { amounts with quantity := .ofDerived slice.quantity, fee := slice.fee }) })

/-- The loop of `slice_updates`: the parts, with the sums of quantities and fees. -/
def sliceParts (f64 : Exact → Option ℚ) (update : FillUpdate) (expected : Option AssetAmount) :
    List ExecutionSlice → List StrategyId → List String → Except String (List (StrategyId × FillUpdate) × Exact × Exact)
  | [], _, _ => .ok ([], 0, 0)
  | slice :: rest, owners, keys =>
    if ¬ 0 < slice.quantity ∨ slice.strategy ∈ owners then
      .error "execution allocation has invalid or repeated owner quantity"
    else if slice.strategyKey.isEmpty ∨ slice.strategyKey ∈ keys then
      .error "execution allocation has invalid or repeated owner key"
    else
      match sliceFee expected slice.fee with
      | .error e => .error e
      | .ok fee =>
        match slicePart f64 update slice with
        | .error e => .error e
        | .ok part =>
          (sliceParts f64 update expected rest (slice.strategy :: owners) (slice.strategyKey :: keys)).map
            fun out => ((slice.strategy, part) :: out.1, slice.quantity + out.2.1, fee + out.2.2)

def sliceUpdates (update : FillUpdate) : Except String (Option (List (StrategyId × FillUpdate))) :=
  match update.allocation with
  | none => .ok none
  | some allocation =>
    match fillQuantity f64 update.qty update.amounts (some allocation) with
    | .error e => .error e
    | .ok exactQty =>
      match expectedFee update with
      | .error e => .error e
      | .ok expected =>
        match sliceParts f64 update expected allocation.slices [] [] with
        | .error e => .error e
        | .ok (parts, sum, feeSum) =>
          if sum ≠ exactQty then .error "execution allocation does not conserve venue quantity"
          else if expected.any (fun fee => fee.amount.value ≠ feeSum) then
            .error "execution allocation does not conserve venue fee"
          else .ok (some parts)

end LiquidityMigration.Portfolio
