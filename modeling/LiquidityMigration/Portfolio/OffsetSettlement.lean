import LiquidityMigration.Portfolio.CashAndCost

/- Closing offsetting sleeves against each other, at one price and without the venue. A settlement names every sleeve
   that holds the symbol and takes each to flat, balanced in each asset (`validateSettlement_ok`). It moves the
   inventory and the internal totals, never the execution accounting; its closing fills leave all else alone
   (`fillAll_closing`). -/
namespace LiquidityMigration.Portfolio
open Numeric Checks Attribution List Inventory InternalSettlementTotals

structure PortfolioOffsetSlice where
  strategy : StrategyId
  signedQuantity : Exact
  settlementAsset : AssetId
  deriving DecidableEq

/-- Internal closure of balanced virtual allocations; never a venue execution. -/
structure PortfolioOffsetSettlement where
  emergencyId : Nat
  symbol : SymbolId
  price : Exact
  settledMs : Int
  slices : List PortfolioOffsetSlice
  deriving DecidableEq

/-- The loop of `validate_settlement`: the net quantity of each asset. -/
def balanceSlices : List PortfolioOffsetSlice → Dict AssetId Exact → List StrategyId →
    Except String (Dict AssetId Exact)
  | [], byAsset, _ => .ok byAsset
  | slice :: rest, byAsset, owners => do
    stores slice.signedQuantity
    require (slice.signedQuantity ≠ 0 ∧ slice.strategy ∉ owners) "invalid internal settlement ownership"
    balanceSlices rest
      (byAsset.insert slice.settlementAsset ((byAsset.find? slice.settlementAsset).getD 0 + slice.signedQuantity))
      (slice.strategy :: owners)

variable (settlement : PortfolioOffsetSettlement)

def validateSettlement : Except String Unit := do
  require (¬ (settlement.emergencyId = 0 ∨ ¬ 0 < settlement.price ∨ settlement.slices.length < 2))
    "invalid internal settlement"
  stores settlement.price
  let byAsset ← balanceSlices settlement.slices ∅ []
  require (∀ row ∈ byAsset.entries, row.2 = 0) "internal settlement is not balanced in each asset"

def closingFill (slice : PortfolioOffsetSlice) : InventoryFill where
  strategy := slice.strategy
  symbol := settlement.symbol
  side := if 0 < slice.signedQuantity then .buy else .sell
  qty := |slice.signedQuantity|
  px := some settlement.price
  stop := none
  settlementAsset := slice.settlementAsset

/-- A slice closes what its sleeve holds, in the asset it is held in where that is known. -/
def Closes (held : PortfolioPosition) (slice : PortfolioOffsetSlice) : Prop :=
  held.signedQty + slice.signedQuantity = 0 ∧
    (held.settlementAsset = .unknown ∨ held.settlementAsset = slice.settlementAsset)
  deriving Decidable

def settlementFill (inv : Inventory) (settlement : PortfolioOffsetSettlement) (slice : PortfolioOffsetSlice) :
    Except String InventoryFill := do
  let held ← orError (inv.position (slice.strategy, settlement.symbol)) "internal settlement names an unowned position"
  require (Closes held slice) "internal settlement disagrees with durable inventory or asset"
  .ok (closingFill settlement slice)

/-- The closing fills of a settlement: every sleeve that holds the symbol has one. -/
def settlementFills (inv : Inventory) (settlement : PortfolioOffsetSettlement) :
    Except String (List InventoryFill) := do
  require ((inv.positionsOnSymbol settlement.symbol).length = settlement.slices.length)
    "internal settlement must close every remaining sleeve on the symbol"
  settlement.slices.mapM (settlementFill inv settlement)

namespace InternalSettlementTotals

def zero (strategy : StrategyId) (symbol : SymbolId) (asset : AssetId) : InternalSettlementTotals :=
  ⟨strategy, symbol, asset, 0, 0, 0⟩

/-- An event whose realized amount is not known in the asset of the row. -/
def countUnvalued (row : InternalSettlementTotals) : Except String InternalSettlementTotals :=
  if row.unvaluedRealizedEvents + 1 < 2 ^ 64 then
    .ok { row with unvaluedRealizedEvents := row.unvaluedRealizedEvents + 1 }
  else .error "internal settlement uncertainty count exhausted"

/-- The row after a slice: its cash, and the realized amount where that is in its asset. -/
def settled (row : InternalSettlementTotals) (slice : PortfolioOffsetSlice) (price : Exact) (realized : RealizedValue) :
    Except String InternalSettlementTotals :=
  let row := { row with cashFlow := row.cashFlow - slice.signedQuantity * price }
  match realized.amount with
  | some value =>
    if realized.asset = slice.settlementAsset then .ok { row with realizedGross := row.realizedGross + value }
    else if value = 0 then .ok row
    else row.countUnvalued
  | none => row.countUnvalued

end InternalSettlementTotals

structure TotalsChange where
  key : AssetKey
  prior : Option InternalSettlementTotals
  next : InternalSettlementTotals

structure PreparedInternalSettlement where
  inventory : Inventory.BatchChange
  totals : List TotalsChange

def sliceKey (slice : PortfolioOffsetSlice) : AssetKey :=
  assetKey (sleeveKey slice.strategy settlement.symbol) slice.settlementAsset

namespace Attribution

def internalRow (a : Attribution) (settlement : PortfolioOffsetSettlement) (slice : PortfolioOffsetSlice) :
    InternalSettlementTotals :=
  (a.internal.find? (sliceKey settlement slice)).getD (.zero slice.strategy settlement.symbol slice.settlementAsset)

def settleTotals (a : Attribution) (settlement : PortfolioOffsetSettlement)
    (part : PortfolioOffsetSlice × StrategyId × SymbolId × RealizedValue) : Except String TotalsChange := do
  let next ← (a.internalRow settlement part.1).settled part.1 settlement.price part.2.2.2
  firstError [stores next.cashFlow, stores next.realizedGross]
  .ok ⟨sliceKey settlement part.1, a.internal.find? (sliceKey settlement part.1), next⟩

def prepareInternalSettlement (b : Binary64) (a : Attribution) (settlement : PortfolioOffsetSettlement) :
    Except String PreparedInternalSettlement := do
  validateSettlement settlement
  let fills ← settlementFills a.inventory settlement
  let inventory ← a.inventory.prepareBatch b.nearest fills
  let totals ← (settlement.slices.zip inventory.realized).mapM (a.settleTotals settlement)
  .ok ⟨inventory, totals⟩

def commitInternalSettlement (a : Attribution) (prepared : PreparedInternalSettlement) :
    Except String Unit × Attribution :=
  match a.inventory.validateBatch prepared.inventory with
  | .error e => (.error e, a)
  | .ok () =>
    if ∃ row ∈ prepared.totals, a.internal.find? row.key ≠ row.prior then
      (.error "internal settlement was prepared against different totals", a)
    else
      match a.inventory.applyBatch prepared.inventory with
      | .error e => (.error e, a)
      | .ok (_, inventory) =>
        (.ok (), { a with
          inventory := inventory
          legacyQuantities := a.legacyQuantities.retain (fun key _ =>
            inventory.position ((ofLex key).1, (ofLex key).2) ≠ none)
          internal := a.internal.insertAll (prepared.totals.map (fun row => (row.key, row.next))) })

def settleInternally (b : Binary64) (a : Attribution) (settlement : PortfolioOffsetSettlement) :
    Except String Unit × Attribution :=
  match a.prepareInternalSettlement b settlement with
  | .error e => (.error e, a)
  | .ok prepared => a.commitInternalSettlement prepared

end Attribution

/-! ## What an accepted settlement is -/

section
variable {settlement : PortfolioOffsetSettlement} {slices : List PortfolioOffsetSlice}

def movedIn (slices : List PortfolioOffsetSlice) (asset : AssetId) : Exact :=
  ((slices.filter (fun slice => slice.settlementAsset = asset)).map PortfolioOffsetSlice.signedQuantity).sum

theorem movedIn_cons (slice : PortfolioOffsetSlice) (rest : List PortfolioOffsetSlice) (asset : AssetId) :
    movedIn (slice :: rest) asset =
      (if slice.settlementAsset = asset then slice.signedQuantity else 0) + movedIn rest asset := by
  unfold movedIn
  by_cases h : slice.settlementAsset = asset
  · simp [h]
  · simp [h]

theorem balanceSlices_ok {byAsset out : Dict AssetId Exact} {owners : List StrategyId}
    (h : balanceSlices slices byAsset owners = .ok out) :
    (∀ slice ∈ slices, slice.signedQuantity ≠ 0 ∧ slice.strategy ∉ owners) ∧
      (slices.map PortfolioOffsetSlice.strategy).Nodup ∧
      ∀ asset, (out.find? asset).getD 0 = (byAsset.find? asset).getD 0 + movedIn slices asset := by
  induction slices generalizing byAsset owners with
  | nil =>
    cases h
    simp [movedIn]
  | cons slice rest ih =>
    simp only [balanceSlices, ok_iff] at h
    obtain ⟨-, hslice, hrest⟩ := h
    obtain ⟨howners, hnodup, hsums⟩ := ih hrest
    refine ⟨?_, ?_, fun asset => ?_⟩
    · intro other hother
      rcases mem_cons.mp hother with rfl | hother
      · exact hslice
      · exact ⟨(howners other hother).1, fun hmem => (howners other hother).2 (mem_cons_of_mem _ hmem)⟩
    · rw [map_cons, nodup_cons]
      refine ⟨fun hmem => ?_, hnodup⟩
      obtain ⟨other, hother, heq⟩ := mem_map.mp hmem
      exact (howners other hother).2 (heq ▸ mem_cons_self)
    · rw [hsums asset, Dict.find?_insert, movedIn_cons]
      by_cases hasset : slice.settlementAsset = asset
      · rw [if_pos hasset, if_pos hasset, Option.getD_some, hasset]
        ring
      · rw [if_neg hasset, if_neg hasset, zero_add]

structure PortfolioOffsetSettlement.Accepted (settlement : PortfolioOffsetSettlement) : Prop where
  price : 0 < settlement.price
  two : 2 ≤ settlement.slices.length
  nonzero : ∀ slice ∈ settlement.slices, slice.signedQuantity ≠ 0
  owners : (settlement.slices.map PortfolioOffsetSlice.strategy).Nodup
  balanced : ∀ asset, movedIn settlement.slices asset = 0

theorem validateSettlement_ok (h : validateSettlement settlement = .ok ()) : settlement.Accepted := by
  simp only [validateSettlement, ok_iff, not_or, not_lt] at h
  obtain ⟨⟨-, hprice, htwo⟩, -, byAsset, hbalance, hzero⟩ := h
  obtain ⟨hslices, hnodup, hsums⟩ := balanceSlices_ok hbalance
  refine ⟨not_le.mp hprice, htwo, fun slice hslice => (hslices slice hslice).1, hnodup, fun asset => ?_⟩
  have hsum := hsums asset
  rw [Dict.find?_empty, Option.getD_none, zero_add] at hsum
  rw [← hsum]
  cases hfound : byAsset.find? asset with
  | none => rfl
  | some net => exact hzero (asset, net) (Dict.mem_entries.mpr hfound)

/-! ## The closing fills -/

variable {f64 : Exact → Option ℚ} {inv next : Inventory} {slice : PortfolioOffsetSlice} {held : PortfolioPosition}

theorem settlementFills_ok {fills : List InventoryFill} (h : settlementFills inv settlement = .ok fills) :
    (inv.positionsOnSymbol settlement.symbol).length = settlement.slices.length ∧
      fills = settlement.slices.map (closingFill settlement) ∧
      ∀ slice ∈ settlement.slices, ∃ held, inv.position (slice.strategy, settlement.symbol) = some held ∧
        Closes held slice := by
  simp only [settlementFills, ok_iff, mapM_eq_ok] at h
  obtain ⟨hlength, hfills⟩ := h
  refine ⟨hlength, ?_⟩
  clear hlength
  generalize settlement.slices = slices at hfills ⊢
  induction hfills with
  | nil => exact ⟨rfl, fun slice hslice => absurd hslice not_mem_nil⟩
  | cons hfill _ ih =>
    simp only [settlementFill, ok_iff] at hfill
    obtain ⟨held, hheld, hcloses, rfl⟩ := hfill
    refine ⟨by rw [ih.1, map_cons], ?_⟩
    rw [forall_mem_cons]
    exact ⟨⟨held, hheld, hcloses⟩, ih.2⟩

/-- What closing a position at a price comes to, where its cost is known. -/
def closingAmount (held : PortfolioPosition) (price : Exact) : Option Exact :=
  held.entryValue.map fun cost => signum held.signedQty * (|held.signedQty| * price - cost)

variable (settlement held) in
/-- The amount a slice realizes, in the asset the inventory gives it. -/
def closingRealized (slice : PortfolioOffsetSlice) :
    RealizedValue :=
  ⟨closingAmount held settlement.price, joinedAsset held (closingFill settlement slice)⟩

variable (settlement slice) in
theorem delta_closingFill :
    (closingFill settlement slice).delta = slice.signedQuantity := by
  unfold InventoryFill.delta closingFill
  dsimp only
  split
  · next h =>
    split at h
    · next hpos => exact abs_of_pos hpos
    · cases h
  · next h =>
    split at h
    · cases h
    · next hneg => rw [abs_of_nonpos (not_lt.mp hneg), neg_neg]

theorem nextPosition_closing {out : Option PortfolioPosition × RealizedValue} (hq : held.signedQty ≠ 0)
    (hcloses : Closes held slice) (h : nextPosition (some held) (closingFill settlement slice) = .ok out) :
    out = (none, closingRealized settlement held slice) := by
  have hdelta := delta_closingFill settlement slice
  have hopposite : slice.signedQuantity = -held.signedQty := (neg_eq_of_add_eq_zero_right hcloses.1).symm
  have hqty : (closingFill settlement slice).qty = |held.signedQty| := by
    show |slice.signedQuantity| = _
    rw [hopposite, abs_neg]
  have hsign : ¬ signum held.signedQty = signum (-held.signedQty) := by
    rw [signum_eq_signum hq (neg_ne_zero.mpr hq), mul_neg, Left.neg_pos_iff, not_lt]
    exact mul_self_nonneg _
  have habs : |held.signedQty| ≠ 0 := abs_ne_zero.mpr hq
  unfold nextPosition at h
  dsimp only at h
  split at h
  · cases h
  · cases h
    rw [hdelta, hopposite, add_neg_cancel, if_pos rfl]
    unfold closingRealized closingAmount heldTerms
    simp only [hdelta, hopposite, hsign, hqty, if_false, lt_irrefl, if_true, min_self]
    have hamount : Option.map₂ (fun cost price =>
        if 0 < held.signedQty then |held.signedQty| * price - cost else -(|held.signedQty| * price - cost))
          (held.entryValue.map (fun value => value * |held.signedQty| / |held.signedQty|))
          (closingFill settlement slice).px =
        held.entryValue.map (fun cost => signum held.signedQty * (|held.signedQty| * settlement.price - cost)) := by
      cases held.entryValue with
      | none => rfl
      | some cost =>
        have hcancel : cost * |held.signedQty| / |held.signedQty| = cost := by field_simp
        simp only [Option.map_some, hcancel, closingFill, Option.map₂_some_some, Option.some.injEq]
        rcases lt_or_gt_of_ne hq with hneg | hpos
        · simp [signum, hneg, not_lt.mpr hneg.le]
        · simp [signum, hpos]
    rw [hamount]

theorem fill_closing {realized : RealizedValue} (hheld : inv.position (slice.strategy, settlement.symbol) = some held)
    (hcloses : Closes held slice) (h : inv.fill f64 (closingFill settlement slice) = .ok (realized, next)) :
    realized = closingRealized settlement held slice ∧ next.position (slice.strategy, settlement.symbol) = none ∧
      ∀ key, key ≠ (slice.strategy, settlement.symbol) → next.position key = inv.position key := by
  obtain ⟨row, hcheck, hrow, hothers⟩ := fill_ok h
  obtain ⟨-, -, hnext, -⟩ := checkFill_ok.mp hcheck
  have hkey : (closingFill settlement slice).key = (slice.strategy, settlement.symbol) := rfl
  rw [hkey] at hrow hnext hothers
  rw [hheld] at hnext
  have hout := nextPosition_closing (inv.rows_ok _ held hheld).2.qty hcloses hnext
  obtain ⟨hnone, hrealized⟩ := Prod.mk.inj hout
  exact ⟨hrealized, hrow.trans hnone, hothers⟩

/-- **The closing fills one after another**, by induction on the slices: each finds its own
row as it was, since no two slices have one owner. -/
theorem fillAll_closing {realized : RealizedRows}
    (hnodup : (slices.map PortfolioOffsetSlice.strategy).Nodup)
    (hheld : ∀ slice ∈ slices, ∃ held, inv.position (slice.strategy, settlement.symbol) = some held ∧ Closes held slice)
    (h : inv.fillAll f64 (slices.map (closingFill settlement)) = .ok (realized, next)) :
    (∀ slice ∈ slices, next.position (slice.strategy, settlement.symbol) = none) ∧
      (∀ key : PositionKey, (∀ slice ∈ slices, key ≠ (slice.strategy, settlement.symbol)) →
        next.position key = inv.position key) ∧
      realized.length = slices.length ∧
      ∀ part ∈ slices.zip realized, ∃ held, inv.position (part.1.strategy, settlement.symbol) = some held ∧
        Closes held part.1 ∧ part.2.2.2 = closingRealized settlement held part.1 := by
  induction slices generalizing inv realized with
  | nil =>
    cases h
    exact ⟨fun slice hslice => absurd hslice not_mem_nil, fun _ _ => rfl, rfl,
      fun part hpart => absurd hpart not_mem_nil⟩
  | cons slice rest ih =>
    rw [map_cons, nodup_cons] at hnodup
    rw [forall_mem_cons] at hheld
    obtain ⟨⟨held, hposition, hcloses⟩, hrest⟩ := hheld
    rw [map_cons, fillAll] at h
    split at h
    · cases h
    · next value mid hfill =>
      obtain ⟨⟨later, last⟩, hlater, heq⟩ := map_eq_ok.mp h
      obtain ⟨rfl, rfl⟩ := Prod.mk.inj heq
      obtain ⟨hvalue, hflat, hothers⟩ := fill_closing hposition hcloses hfill
      -- the slices behind this one belong to other sleeves
      have hother : ∀ other ∈ rest, (other.strategy, settlement.symbol) ≠ (slice.strategy, settlement.symbol) := by
        intro other hmem heq
        have hsame : other.strategy = slice.strategy := congrArg Prod.fst heq
        exact hnodup.1 (hsame ▸ mem_map_of_mem hmem)
      have hkept : ∀ other ∈ rest, mid.position (other.strategy, settlement.symbol) =
          inv.position (other.strategy, settlement.symbol) := fun other hmem => hothers _ (hother other hmem)
      have hheld : ∀ other ∈ rest, ∃ held, mid.position (other.strategy, settlement.symbol) = some held ∧
          Closes held other := by
        intro other hmem
        rw [hkept other hmem]
        exact hrest other hmem
      obtain ⟨hnone, hsame, hlength, hrealized⟩ := ih hnodup.2 hheld hlater
      refine ⟨?_, ?_, by rw [length_cons, length_cons, hlength], ?_⟩
      · rw [forall_mem_cons]
        refine ⟨?_, hnone⟩
        rw [hsame _ (fun other hmem => (hother other hmem).symm)]
        exact hflat
      · intro key hkey
        rw [forall_mem_cons] at hkey
        rw [hsame key hkey.2]
        exact hothers key hkey.1
      · rw [zip_cons_cons, forall_mem_cons]
        refine ⟨⟨held, hposition, hcloses, hvalue⟩, fun part hpart => ?_⟩
        rw [← hkept part.1 (of_mem_zip hpart).1]
        exact hrealized part hpart

/-- The sleeves a settlement names are all that hold the symbol: they are as many, and no
sleeve is named twice. -/
theorem named_of_held (hlength : (inv.positionsOnSymbol settlement.symbol).length = slices.length)
    (hnodup : (slices.map PortfolioOffsetSlice.strategy).Nodup)
    (hheld : ∀ slice ∈ slices, ∃ held, inv.position (slice.strategy, settlement.symbol) = some held ∧ Closes held slice)
    {strategy : StrategyId} {row : PortfolioPosition} (hrow : inv.position (strategy, settlement.symbol) = some row) :
    ∃ slice ∈ slices, slice.strategy = strategy := by
  have hsub : slices.map PortfolioOffsetSlice.strategy ⊆
      (inv.positionsOnSymbol settlement.symbol).map PortfolioPosition.strategy := by
    intro s hs
    obtain ⟨slice, hslice, rfl⟩ := mem_map.mp hs
    obtain ⟨held, hposition, -⟩ := hheld slice hslice
    have hkey := (inv.rows_ok _ held hposition).1
    have hstrategy : held.strategy = slice.strategy := congrArg Prod.fst hkey
    refine mem_map.mpr ⟨held, mem_positionsOnSymbol.mpr ?_, hstrategy⟩
    rw [hstrategy]
    exact hposition
  have hperm := (subperm_of_subset hnodup hsub).perm_of_length_le (by simp [hlength])
  have hkey := (inv.rows_ok _ row hrow).1
  have hstrategy : row.strategy = strategy := congrArg Prod.fst hkey
  have hmem : strategy ∈ (inv.positionsOnSymbol settlement.symbol).map PortfolioPosition.strategy := by
    refine mem_map.mpr ⟨row, mem_positionsOnSymbol.mpr ?_, hstrategy⟩
    rw [hstrategy]
    exact hrow
  exact mem_map.mp (hperm.mem_iff.mpr hmem)

/-! ## The totals -/

/-- What a slice does to its sleeve's totals: the cash of the closing, and the realized
amount where the position is held at a known cost in the asset of the slice. What it closes
otherwise is counted, unless it comes to nothing. -/
structure SettledRow (price : Exact) (held : PortfolioPosition) (slice : PortfolioOffsetSlice)
    (before after : InternalSettlementTotals) : Prop where
  cash : after.cashFlow = before.cashFlow - slice.signedQuantity * price
  realized : held.settlementAsset = slice.settlementAsset → ∀ cost, held.entryValue = some cost →
    after.realizedGross = before.realizedGross + signum held.signedQty * (|held.signedQty| * price - cost)
  unvalued : held.settlementAsset ≠ slice.settlementAsset ∨ held.entryValue = none →
    after.realizedGross = before.realizedGross
  counted : after.unvaluedRealizedEvents = before.unvaluedRealizedEvents +
    match closingAmount held price with
    | some value => if held.settlementAsset = slice.settlementAsset ∨ value = 0 then 0 else 1
    | none => 1

theorem countUnvalued_ok {row out : InternalSettlementTotals} (h : row.countUnvalued = .ok out) :
    out = { row with unvaluedRealizedEvents := row.unvaluedRealizedEvents + 1 } := by
  unfold countUnvalued at h
  split at h
  · cases h
    rfl
  · cases h

theorem settled_closing {before after : InternalSettlementTotals} (hcloses : Closes held slice)
    (h : before.settled slice settlement.price (closingRealized settlement held slice) = .ok after) :
    SettledRow settlement.price held slice before after := by
  -- the inventory joins the two assets: they are one, or the position's is not known
  have hasset : joinedAsset held (closingFill settlement slice) = slice.settlementAsset ↔
      held.settlementAsset = slice.settlementAsset := by
    unfold joinedAsset closingFill
    dsimp only
    split
    · next heq => exact ⟨fun _ => heq, fun _ => rfl⟩
    · next hne =>
      have hunknown := hcloses.2.resolve_right hne
      refine ⟨fun heq => ?_, fun heq => absurd heq hne⟩
      rw [hunknown, heq]
  have hamount : closingAmount held settlement.price =
      held.entryValue.map (fun cost => signum held.signedQty * (|held.signedQty| * settlement.price - cost)) := rfl
  unfold settled closingRealized at h
  simp only [hasset] at h
  cases hcost : held.entryValue with
  | none =>
    have hnone : closingAmount held settlement.price = none := by rw [hamount, hcost, Option.map_none]
    rw [hnone] at h
    obtain rfl := countUnvalued_ok h
    exact ⟨rfl, fun _ cost hc => (by rw [hcost] at hc; cases hc), fun _ => rfl, by rw [hnone]⟩
  | some cost =>
    have hsome : closingAmount held settlement.price =
        some (signum held.signedQty * (|held.signedQty| * settlement.price - cost)) := by
      rw [hamount, hcost, Option.map_some]
    rw [hsome] at h
    dsimp only at h
    split at h
    · next heq =>
      cases h
      refine ⟨rfl, fun _ cost' hc => ?_, fun hun => ?_, ?_⟩
      · rw [hcost] at hc
        cases hc
        rfl
      · rcases hun with hne | hnone
        · exact absurd heq hne
        · rw [hcost] at hnone
          cases hnone
      · rw [hsome]
        simp [heq]
    · next hne =>
      split at h
      · next hzero =>
        cases h
        refine ⟨rfl, fun heq => absurd heq hne, fun _ => rfl, ?_⟩
        rw [hsome]
        simp [hzero]
      · next hzero =>
        obtain rfl := countUnvalued_ok h
        refine ⟨rfl, fun heq => absurd heq hne, fun _ => rfl, ?_⟩
        rw [hsome]
        simp only [hne, hzero, or_self, if_false]

/-! ## The whole settlement -/

variable {b : Binary64} {a a' : Attribution}

theorem settleInternally_error {e : String} (h : a.settleInternally b settlement = (.error e, a')) : a' = a := by
  unfold settleInternally at h
  split at h
  · exact (congrArg Prod.snd h).symm
  · unfold commitInternalSettlement at h
    split at h
    · exact (congrArg Prod.snd h).symm
    · split at h
      · exact (congrArg Prod.snd h).symm
      · split at h
        · exact (congrArg Prod.snd h).symm
        · cases h

theorem settleInternally_ok (h : a.settleInternally b settlement = (.ok (), a')) :
    validateSettlement settlement = .ok () ∧ (∃ fills, settlementFills a.inventory settlement = .ok fills) ∧
      a'.accounting = a.accounting ∧
      ∃ realized totals,
        a.inventory.fillAll b.nearest (settlement.slices.map (closingFill settlement)) = .ok (realized, a'.inventory) ∧
        (settlement.slices.zip realized).mapM (a.settleTotals settlement) = .ok totals ∧
        a'.internal = a.internal.insertAll (totals.map (fun row => (row.key, row.next))) := by
  unfold settleInternally at h
  split at h
  · cases h
  · next prepared hprepared =>
    simp only [prepareInternalSettlement, ok_iff] at hprepared
    obtain ⟨hvalid, fills, hfills, inventory, hinventory, totals, htotals, rfl⟩ := hprepared
    obtain ⟨⟨realized, next⟩, hall, rfl⟩ := map_eq_ok.mp hinventory
    rw [(settlementFills_ok hfills).2.1] at hall
    unfold commitInternalSettlement at h
    split at h
    · cases h
    · split at h
      · cases h
      · split at h
        · cases h
        · next happly =>
          obtain ⟨_, _, heq⟩ := map_eq_ok.mp happly
          obtain ⟨-, rfl⟩ := Prod.mk.inj heq
          cases h
          exact ⟨hvalid, ⟨fills, hfills⟩, rfl, realized, totals, hall, htotals, rfl⟩

theorem sliceKey_inj {slice other : PortfolioOffsetSlice} (h : sliceKey settlement slice = sliceKey settlement other) :
    slice.strategy = other.strategy := by
  have howner := (assetKey_inj.mp h).1
  rw [sleeveKey, sleeveKey, toLex_inj] at howner
  exact congrArg Prod.fst howner

theorem settled_totals {realized : RealizedRows} {totals : List TotalsChange}
    (hnodup : (settlement.slices.map PortfolioOffsetSlice.strategy).Nodup)
    (hlength : realized.length = settlement.slices.length)
    (h : (settlement.slices.zip realized).mapM (a.settleTotals settlement) = .ok totals)
    (hinternal : a'.internal = a.internal.insertAll (totals.map (fun row => (row.key, row.next)))) :
    (∀ key, (∀ slice ∈ settlement.slices, key ≠ sliceKey settlement slice) →
      a'.internal.find? key = a.internal.find? key) ∧
    ∀ part ∈ settlement.slices.zip realized,
      (a.internalRow settlement part.1).settled part.1 settlement.price part.2.2.2 =
        .ok (a'.internalRow settlement part.1) := by
  have hkeys : (totals.map (fun row => (row.key, row.next))).map Prod.fst =
      settlement.slices.map (sliceKey settlement) := by
    rw [map_map]
    have hstep : ∀ part row, a.settleTotals settlement part = .ok row → row.key = sliceKey settlement part.1 := by
      intro part row hrow
      simp only [settleTotals, ok_iff] at hrow
      obtain ⟨next, -, -, rfl⟩ := hrow
      rfl
    calc totals.map TotalsChange.key
        = (settlement.slices.zip realized).map (fun part => sliceKey settlement part.1) := map_mapM hstep h
      _ = ((settlement.slices.zip realized).map Prod.fst).map (sliceKey settlement) := by rw [map_map]; rfl
      _ = settlement.slices.map (sliceKey settlement) := by rw [map_fst_zip hlength.ge]
  have hunique : ((totals.map (fun row => (row.key, row.next))).map Prod.fst).Nodup := by
    rw [hkeys]
    have hinj : ∀ slice ∈ settlement.slices, ∀ other ∈ settlement.slices,
        sliceKey settlement slice = sliceKey settlement other → slice = other := by
      intro slice hslice other hother heq
      exact inj_on_of_nodup_map hnodup hslice hother (sliceKey_inj heq)
    exact (nodup_map_iff_inj_on (List.Nodup.of_map _ hnodup)).mpr hinj
  refine ⟨fun key hkey => ?_, fun part hpart => ?_⟩
  · rw [hinternal, Dict.find?_insertAll_of_not_mem]
    rw [hkeys]
    intro hmem
    obtain ⟨slice, hslice, heq⟩ := mem_map.mp hmem
    exact hkey slice hslice heq.symm
  · obtain ⟨row, hrow, hsettle⟩ := exists_of_mapM h hpart
    simp only [settleTotals, ok_iff] at hsettle
    obtain ⟨next, hnext, -, rfl⟩ := hsettle
    have hfound : a'.internal.find? (sliceKey settlement part.1) = some next := by
      rw [hinternal]
      exact Dict.find?_insertAll_of_mem hunique (mem_map.mpr ⟨_, hrow, rfl⟩)
    rw [hnext, internalRow, hfound, Option.getD_some]

theorem settleInternally_again (hvalid : validateSettlement settlement = .ok ())
    (hflat : ∀ strategy, a.inventory.position (strategy, settlement.symbol) = none) :
    a.settleInternally b settlement =
      (.error "internal settlement must close every remaining sleeve on the symbol", a) := by
  have hnone : a.inventory.positionsOnSymbol settlement.symbol = [] := by
    apply eq_nil_iff_forall_not_mem.mpr
    intro row hrow
    have hposition := mem_positionsOnSymbol.mp hrow
    rw [hflat] at hposition
    cases hposition
  have htwo := (validateSettlement_ok hvalid).two
  have hrefused : settlementFills a.inventory settlement =
      .error "internal settlement must close every remaining sleeve on the symbol" := by
    rw [settlementFills, hnone, bind_eq_error]
    refine .inl (require_eq_error.mpr ⟨?_, rfl⟩)
    rw [length_nil]
    omega
  unfold settleInternally prepareInternalSettlement
  rw [hvalid, hrefused]
  rfl

end

/-- **Offset settlement is a transfer between sleeves.** A refused settlement changes nothing. After an
accepted one no sleeve holds the symbol and all else stands; the sleeves' cash moves by amounts that add
up to nothing in each asset, their totals as closing at the price does (`SettledRow`); and the same
settlement is refused from then on. -/
theorem offset_settlement_transfers (b : Binary64) (a : Attribution) (settlement : PortfolioOffsetSettlement) :
    (∀ e a', a.settleInternally b settlement = (.error e, a') → a' = a) ∧
    ∀ a', a.settleInternally b settlement = (.ok (), a') →
      (∀ strategy, a'.inventory.position (strategy, settlement.symbol) = none) ∧
      (∀ key : PositionKey, key.2 ≠ settlement.symbol →
        a'.inventory.position key = a.inventory.position key) ∧
      a'.accounting = a.accounting ∧
      (∀ key, (∀ slice ∈ settlement.slices, key ≠ sliceKey settlement slice) →
        a'.internal.find? key = a.internal.find? key) ∧
      (∀ asset, ((settlement.slices.filter (fun slice => slice.settlementAsset = asset)).map (fun slice =>
        (a'.internalRow settlement slice).cashFlow - (a.internalRow settlement slice).cashFlow)).sum = 0) ∧
      (∀ slice ∈ settlement.slices, ∃ held, a.inventory.position (slice.strategy, settlement.symbol) = some held ∧
        SettledRow settlement.price held slice (a.internalRow settlement slice) (a'.internalRow settlement slice)) ∧
      a'.settleInternally b settlement =
        (.error "internal settlement must close every remaining sleeve on the symbol", a') := by
  refine ⟨fun e a' h => settleInternally_error h, fun a' h => ?_⟩
  obtain ⟨hvalid, ⟨fills, hfills⟩, haccounting, realized, totals, hall, htotals, hinternal⟩ := settleInternally_ok h
  have haccepted := validateSettlement_ok hvalid
  obtain ⟨hlength, -, hheld⟩ := settlementFills_ok hfills
  obtain ⟨hclosed, hothers, hcount, hrealized⟩ := fillAll_closing haccepted.owners hheld hall
  obtain ⟨hkept, hrows⟩ := settled_totals haccepted.owners hcount htotals hinternal
  have hflat : ∀ strategy, a'.inventory.position (strategy, settlement.symbol) = none := by
    intro strategy
    cases hrow : a.inventory.position (strategy, settlement.symbol) with
    | some row =>
      obtain ⟨slice, hslice, rfl⟩ := named_of_held hlength haccepted.owners hheld hrow
      exact hclosed slice hslice
    | none =>
      rw [← hrow]
      apply hothers
      intro slice hslice heq
      obtain ⟨held, hposition, -⟩ := hheld slice hslice
      rw [← heq, hrow] at hposition
      cases hposition
  have hsettled : ∀ slice ∈ settlement.slices, ∃ held,
      a.inventory.position (slice.strategy, settlement.symbol) = some held ∧
        SettledRow settlement.price held slice (a.internalRow settlement slice) (a'.internalRow settlement slice) := by
    intro slice hslice
    have hmem : slice ∈ (settlement.slices.zip realized).map Prod.fst := by
      rw [map_fst_zip hcount.ge]
      exact hslice
    obtain ⟨part, hpart, rfl⟩ := mem_map.mp hmem
    obtain ⟨held, hposition, hcloses, hvalue⟩ := hrealized part hpart
    have hrow := hrows part hpart
    rw [hvalue] at hrow
    exact ⟨held, hposition, settled_closing hcloses hrow⟩
  refine ⟨hflat, fun key hkey => ?_, haccounting, hkept, fun asset => ?_, hsettled, settleInternally_again hvalid hflat⟩
  · apply hothers
    intro slice _ heq
    exact hkey (congrArg Prod.snd heq)
  · -- the cash of a slice is its quantity at the price, and the quantities balance
    have hcash : ∀ slice ∈ settlement.slices.filter (fun slice => slice.settlementAsset = asset),
        (a'.internalRow settlement slice).cashFlow - (a.internalRow settlement slice).cashFlow =
          -settlement.price * slice.signedQuantity := by
      intro slice hslice
      obtain ⟨held, -, hrow⟩ := hsettled slice (mem_filter.mp hslice).1
      rw [hrow.cash]
      ring
    rw [map_congr_left hcash, sum_map_mul_left]
    have hbalanced := haccepted.balanced asset
    unfold movedIn at hbalanced
    rw [hbalanced, mul_zero]

/-! ## A position in no known asset -/

def unitFill (strategy : StrategyId) (side : Side) (asset : AssetId) : InventoryFill :=
  { strategy, symbol := 0, side, qty := 1, px := some 10, stop := none, settlementAsset := asset }

/-- One sleeve long of a unit and one short of it, both in one asset. -/
def offsetting (asset : AssetId) : Attribution :=
  { Attribution.fresh with inventory := (Inventory.empty.afterFill Binary64.nearestEven.nearest
      (unitFill 0 .buy asset)).afterFill Binary64.nearestEven.nearest (unitFill 1 .sell asset) }

def closedAtTwelve : PortfolioOffsetSettlement where
  emergencyId := 1
  symbol := 0
  price := 12
  settledMs := 0
  slices := [⟨0, -1, .named "USDT"⟩, ⟨1, 1, .named "USDT"⟩]

theorem offset_settlement_usdt :
    ∃ a', (offsetting (.named "USDT")).settleInternally Binary64.nearestEven closedAtTwelve = (.ok (), a') ∧
      (∀ strategy, a'.inventory.position (strategy, 0) = none) ∧
      a'.settleInternally Binary64.nearestEven closedAtTwelve =
        (.error "internal settlement must close every remaining sleeve on the symbol", a') := by
  have hok : ((offsetting (.named "USDT")).settleInternally Binary64.nearestEven closedAtTwelve).1 = .ok () := by
    decide +kernel
  obtain ⟨hflat, -, -, -, -, -, hagain⟩ :=
    (offset_settlement_transfers Binary64.nearestEven (offsetting (.named "USDT")) closedAtTwelve).2 _
      (Prod.ext hok rfl)
  exact ⟨_, Prod.ext hok rfl, hflat, hagain⟩

/-- Bought at 10 and closed at 12, the long sleeve makes 2. Held in no known asset, the
settlement is accepted all the same, and none of it is booked: an event is counted. -/
theorem unknown_asset_realizes_nothing :
    ((offsetting .unknown).settleInternally Binary64.nearestEven closedAtTwelve).1 = .ok () ∧
      ((offsetting .unknown).inventory.position (0, 0)).bind (fun held => closingAmount held 12) = some 2 ∧
      (((offsetting .unknown).settleInternally Binary64.nearestEven closedAtTwelve).2.internalRow closedAtTwelve
        ⟨0, -1, .named "USDT"⟩) = ⟨0, 0, .named "USDT", 12, 0, 1⟩ := by
  decide +kernel

end LiquidityMigration.Portfolio
