import LiquidityMigration.Portfolio.OffsetSettlement

/- The inventory across a restart: a rotation writes its rows, and the next boot reads them back and checks each row
   and the sums of every symbol again. A `Readable` inventory is read back as it was (`restore_of_readable`), and
   fills, batches and settlements keep it readable (`Readable.run`), since they check as the reader does. A tightened
   stop is not asked for its binary64, so one beyond its range makes the next boot refuse the books
   (`stop_out_of_range`). -/
namespace LiquidityMigration.Portfolio
open Numeric Checks Binary64 Inventory List PortfolioPosition

/-- What a rotation states of the portfolio, as far as the inventory reads it. -/
structure PortfolioState where
  schemaVersion : Nat
  positions : List PortfolioPosition

namespace Inventory

def snapshot (inv : Inventory) : PortfolioState := ⟨2, inv.rows⟩

def withRow (inv : Inventory) (row : PortfolioPosition) (hvalid : row.Valid) : Inventory where
  positions := inv.positions.insert row.key row
  rows_ok := by
    intro key other hother
    by_cases hkey : key = row.key
    · subst hkey
      rw [AList.lookup_insert] at hother
      cases hother
      exact ⟨rfl, hvalid⟩
    · rw [AList.lookup_insert_ne hkey] at hother
      exact inv.rows_ok key other hother

def addTotals (totals : Dict SymbolId (Exact × Exact)) (row : PortfolioPosition) : Dict SymbolId (Exact × Exact) :=
  let sums := (totals.find? row.symbol).getD (0, 0)
  totals.insert row.symbol (sums.1 + row.signedQty, sums.2 + |row.signedQty|)

def restoreRow (f64 : Exact → Option ℚ) (s : Inventory × Dict SymbolId (Exact × Exact)) (row : PortfolioPosition) :
    Except String (Inventory × Dict SymbolId (Exact × Exact)) :=
  match h : validatePosition f64 row with
  | .error e => .error e
  | .ok () =>
    if (s.1.position row.key).isSome then .error "duplicate portfolio inventory owner"
    else .ok (s.1.withRow row (validatePosition_ok.mp h).1, addTotals s.2 row)

def restore (f64 : Exact → Option ℚ) (state : PortfolioState) : Except String Inventory := do
  require (state.schemaVersion = 1 ∨ state.schemaVersion = 2) "unsupported portfolio inventory schema"
  let (inv, totals) ← state.positions.foldlM (restoreRow f64) (empty, ∅)
  firstError (totals.entries.flatMap (fun row => [validateQuantity f64 row.2.1, validateQuantity f64 row.2.2]))
  .ok inv

def validateSleeveStopExact (inv : Inventory) (key : PositionKey) (side : Side) (trigger : Exact) :
    Except String Unit := do
  stores trigger
  require (0 < trigger) "sleeve stop is not positive"
  let held ← orError (inv.position key) "sleeve stop has no owned position"
  require (decide (0 < held.signedQty) = decide (side = .buy)) "sleeve stop has the wrong position direction"

def setSleeveStopExact (inv : Inventory) (key : PositionKey) (side : Side) (trigger : Exact) :
    Except String Inventory := do
  inv.validateSleeveStopExact key side trigger
  .ok (inv.tightenStop key side trigger)

end Inventory

inductive InventoryStep where
  | fill (fill : InventoryFill)
  | batch (fills : List InventoryFill)
  | settle (settlement : PortfolioOffsetSettlement)
  | setStop (key : PositionKey) (side : Side) (trigger : Exact)
  /-- The stop an order came with: tightened without a check (`remember_order_stop`). -/
  | rememberStop (key : PositionKey) (side : Side) (stop : Exact)

namespace Inventory

def runBatch (f64 : Exact → Option ℚ) (inv : Inventory) (fills : List InventoryFill) : Except String Inventory := do
  let change ← inv.prepareBatch f64 fills
  (inv.applyBatch change).map Prod.snd

def step (f64 : Exact → Option ℚ) (inv : Inventory) : InventoryStep → Except String Inventory
  | .fill fill => (inv.fill f64 fill).map Prod.snd
  | .batch fills => inv.runBatch f64 fills
  | .settle settlement => do
    validateSettlement settlement
    let fills ← settlementFills inv settlement
    inv.runBatch f64 fills
  | .setStop key side trigger => inv.setSleeveStopExact key side trigger
  | .rememberStop key side stop => .ok (inv.tightenStop key side stop)

end Inventory

/-- The stop of a step has a binary64, and one that comes with an order can be stored. -/
def InventoryStep.StopProjects (f64 : Exact → Option ℚ) : InventoryStep → Prop
  | .setStop _ _ trigger => Representable f64 trigger
  | .rememberStop _ _ stop => Representable f64 stop ∧ Stored stop
  | _ => True

/-- Every row, and the sums of every symbol that is held, pass the checks of the reader. -/
structure Readable (f64 : Exact → Option ℚ) (inv : Inventory) : Prop where
  row : ∀ key row, inv.position key = some row → validatePosition f64 row = .ok ()
  sums : ∀ key row, inv.position key = some row →
    validateQuantity f64 (inv.net key.2) = .ok () ∧ validateQuantity f64 (inv.gross key.2) = .ok ()

section
variable {f64 : Exact → Option ℚ} {inv next : Inventory}

/-- A key with its quantity, for each sleeve that holds the symbol. -/
def heldQuantities (inv : Inventory) (symbol : SymbolId) : List (StrategyId × Exact) :=
  (inv.positionsOnSymbol symbol).map fun row => (row.strategy, row.signedQty)

theorem mem_heldQuantities {symbol : SymbolId} {strategy : StrategyId} {qty : Exact} :
    (strategy, qty) ∈ heldQuantities inv symbol ↔
      (inv.position (strategy, symbol)).map PortfolioPosition.signedQty = some qty := by
  simp only [heldQuantities, mem_map, Prod.mk.injEq, Option.map_eq_some_iff, mem_positionsOnSymbol]
  constructor
  · intro h
    obtain ⟨row, hrow, rfl, rfl⟩ := h
    exact ⟨row, hrow, rfl⟩
  · intro h
    obtain ⟨row, hrow, rfl⟩ := h
    have hstrategy : row.strategy = strategy := congrArg Prod.fst (inv.rows_ok _ row hrow).1
    exact ⟨row, by rw [hstrategy]; exact hrow, hstrategy, rfl⟩

theorem heldQuantities_nodup (inv : Inventory) (symbol : SymbolId) : (heldQuantities inv symbol).Nodup := by
  have h := inv.strategies_nodup symbol
  rw [show (inv.positionsOnSymbol symbol).map strategy =
    (heldQuantities inv symbol).map Prod.fst by rw [heldQuantities, map_map]; rfl] at h
  exact List.Nodup.of_map _ h

theorem sums_congr {symbol : SymbolId} (h : ∀ strategy, (next.position (strategy, symbol)).map
      PortfolioPosition.signedQty = (inv.position (strategy, symbol)).map PortfolioPosition.signedQty) :
    next.net symbol = inv.net symbol ∧ next.gross symbol = inv.gross symbol := by
  have hperm : (heldQuantities next symbol).Perm (heldQuantities inv symbol) := by
    apply (perm_ext_iff_of_nodup (heldQuantities_nodup next symbol) (heldQuantities_nodup inv symbol)).mpr
    intro row
    obtain ⟨strategy, qty⟩ := row
    rw [mem_heldQuantities, mem_heldQuantities, h strategy]
  have hnet : ∀ inv : Inventory, inv.net symbol = ((heldQuantities inv symbol).map Prod.snd).sum := by
    intro inv
    rw [net_eq_sum, heldQuantities, map_map]
    rfl
  have hgross : ∀ inv : Inventory, inv.gross symbol = ((heldQuantities inv symbol).map (fun row => |row.2|)).sum := by
    intro inv
    rw [gross_eq_sum, heldQuantities, map_map]
    rfl
  rw [hnet, hnet, hgross, hgross]
  exact ⟨(hperm.map _).sum_eq, (hperm.map _).sum_eq⟩

theorem readable_empty : Readable f64 Inventory.empty := by
  refine ⟨fun key row h => ?_, fun key row h => ?_⟩
  · cases h
  · cases h

section
variable (hr : Readable f64 inv)
include hr

theorem Readable.fill {fill : InventoryFill} {realized : RealizedValue}
    (h : inv.fill f64 fill = .ok (realized, next)) : Readable f64 next := by
  obtain ⟨row, hcheck, hrow, hothers⟩ := fill_ok h
  obtain ⟨-, -, -, hacc⟩ := checkFill_ok.mp hcheck
  obtain ⟨hnet, hgross⟩ := sums_fill h
  rw [hrow] at hnet hgross
  refine ⟨fun key held hheld => ?_, fun key held hheld => ?_⟩
  · by_cases hkey : key = fill.key
    · rw [hkey, hrow] at hheld
      have hnext := hacc.next
      rw [hheld] at hnext
      exact hnext
    · rw [hothers key hkey] at hheld
      exact hr.row key held hheld
  · by_cases hsymbol : key.2 = fill.symbol
    · rw [hsymbol, hnet, hgross, validateQuantity_ok, validateQuantity_ok]
      exact ⟨hacc.net, hacc.gross⟩
    · have hne : ∀ strategy, (strategy, key.2) ≠ fill.key := by
        intro strategy heq
        exact hsymbol (congrArg Prod.snd heq)
      have hsums : next.net key.2 = inv.net key.2 ∧ next.gross key.2 = inv.gross key.2 := by
        apply sums_congr
        intro strategy
        rw [hothers _ (hne strategy)]
      rw [hsums.1, hsums.2]
      rw [hothers key (hne key.1)] at hheld
      exact hr.sums key held hheld

theorem Readable.fillAll {fills : List InventoryFill} {realized : RealizedRows}
    (h : inv.fillAll f64 fills = .ok (realized, next)) : Readable f64 next := by
  induction fills generalizing inv realized with
  | nil =>
    cases h
    exact hr
  | cons fill rest ih =>
    rw [fillAll] at h
    split at h
    · cases h
    · next value mid hfill =>
      obtain ⟨⟨later, last⟩, hlater, heq⟩ := map_eq_ok.mp h
      obtain ⟨-, rfl⟩ := Prod.mk.inj heq
      exact ih (hr.fill hfill) hlater

theorem Readable.runBatch {fills : List InventoryFill} (h : inv.runBatch f64 fills = .ok next) : Readable f64 next := by
  simp only [Inventory.runBatch, bind_eq_ok] at h
  obtain ⟨change, hchange, happly⟩ := h
  obtain ⟨⟨realized, last⟩, hall, rfl⟩ := map_eq_ok.mp hchange
  obtain ⟨out, hout, rfl⟩ := map_eq_ok.mp happly
  obtain ⟨_, _, rfl⟩ := map_eq_ok.mp hout
  exact hr.fillAll hall

theorem Readable.tightenStop {stop : Exact} (key : PositionKey) (side : Side)
    (hstored : Stored stop) (hstop : Representable f64 stop) : Readable f64 (inv.tightenStop key side stop) := by
  have hqty : ∀ other, ((inv.tightenStop key side stop).position other).map signedQty =
      (inv.position other).map signedQty := by
    intro other
    rcases inv.tightenStop_cases key other side stop with hsame | ⟨row, hrow, -, hnew⟩
    · rw [hsame]
    · rw [hnew, hrow]
      rfl
  refine ⟨fun other row hrow => ?_, fun other row hrow => ?_⟩
  · rcases inv.tightenStop_cases key other side stop with hsame | ⟨held, hheld, hpos, hnew⟩
    · rw [hsame] at hrow
      exact hr.row other row hrow
    · rw [hnew] at hrow
      cases hrow
      obtain ⟨hvalid, hqty, hentry, hstops⟩ := validatePosition_ok.mp (hr.row other held hheld)
      refine validatePosition_ok.mpr ⟨⟨hvalid.qty, hvalid.entry, joinStop_pos hvalid.stop hpos⟩, hqty, hentry, ?_⟩
      intro s hs
      rcases joinStop_eq hs with hold | hnew
      · exact hstops s hold
      · cases hnew
        exact ⟨hstored, hstop⟩
  · obtain ⟨hnet, hgross⟩ := sums_congr (fun strategy => hqty (strategy, other.2))
    rw [hnet, hgross]
    have hheld : ∃ held, inv.position other = some held := by
      have h := hqty other
      rw [hrow, Option.map_some] at h
      obtain ⟨held, hheld, -⟩ := Option.map_eq_some_iff.mp h.symm
      exact ⟨held, hheld⟩
    obtain ⟨held, hheld⟩ := hheld
    exact hr.sums other held hheld

theorem Readable.step {step : InventoryStep} (hstop : step.StopProjects f64)
    (h : inv.step f64 step = .ok next) : Readable f64 next := by
  cases step with
  | fill fill =>
    obtain ⟨⟨realized, _⟩, hfill, rfl⟩ := map_eq_ok.mp h
    exact hr.fill hfill
  | batch fills => exact hr.runBatch h
  | settle settlement =>
    simp only [Inventory.step, ok_iff] at h
    obtain ⟨-, fills, -, hbatch⟩ := h
    exact hr.runBatch hbatch
  | setStop key side trigger =>
    simp only [Inventory.step, Inventory.setSleeveStopExact, Inventory.validateSleeveStopExact, ok_iff, stores_ok] at h
    obtain ⟨⟨hstored, -⟩, rfl⟩ := h
    exact hr.tightenStop key side hstored hstop
  | rememberStop key side stop =>
    cases h
    exact hr.tightenStop key side hstop.2 hstop.1

theorem Readable.run {steps : List InventoryStep} (hstops : ∀ step ∈ steps, step.StopProjects f64)
    (h : steps.foldlM (Inventory.step f64) inv = .ok next) : Readable f64 next := by
  induction steps generalizing inv with
  | nil =>
    cases h
    exact hr
  | cons step rest ih =>
    rw [foldlM_cons, bind_eq_ok] at h
    obtain ⟨mid, hmid, hrest⟩ := h
    rw [forall_mem_cons] at hstops
    exact ih (hr.step hstops.1 hmid) hstops.2 hrest

end

theorem position_withRow {row : PortfolioPosition} (hvalid : row.Valid) (key : PositionKey) :
    (inv.withRow row hvalid).position key = if key = row.key then some row else inv.position key := by
  unfold withRow position
  split
  · next h => rw [h, AList.lookup_insert]
  · next h => exact AList.lookup_insert_ne h

def sumsOf (rows : List PortfolioPosition) (symbol : SymbolId) : Exact × Exact :=
  (((rows.filter (fun row => row.symbol = symbol)).map PortfolioPosition.signedQty).sum,
    ((rows.filter (fun row => row.symbol = symbol)).map (fun row => |row.signedQty|)).sum)

theorem sumsOf_cons (row : PortfolioPosition) (rest : List PortfolioPosition) (symbol : SymbolId) :
    sumsOf (row :: rest) symbol =
      if row.symbol = symbol then (row.signedQty, |row.signedQty|) + sumsOf rest symbol else sumsOf rest symbol := by
  unfold sumsOf
  by_cases h : row.symbol = symbol
  · simp [h]
  · simp [h]

def sumsAt (totals : Dict SymbolId (Exact × Exact)) (symbol : SymbolId) : Exact × Exact :=
  (totals.find? symbol).getD (0, 0)

theorem sumsAt_addTotals (totals : Dict SymbolId (Exact × Exact)) (row : PortfolioPosition) (symbol : SymbolId) :
    sumsAt (Inventory.addTotals totals row) symbol =
      if row.symbol = symbol then sumsAt totals symbol + (row.signedQty, |row.signedQty|)
      else sumsAt totals symbol := by
  rw [sumsAt, addTotals, Dict.find?_insert]
  split
  · next h =>
    rw [Option.getD_some, h]
    rfl
  · rfl

/-- **The rows of a snapshot, read one after another**: each under its own key, and the
sums of every symbol with them. -/
theorem restoreRows_ok {rows : List PortfolioPosition} (inv : Inventory) (totals : Dict SymbolId (Exact × Exact))
    (hvalid : ∀ row ∈ rows, validatePosition f64 row = .ok ()) (hnodup : (rows.map PortfolioPosition.key).Nodup)
    (hfresh : ∀ row ∈ rows, inv.position row.key = none) :
    ∃ inv' totals', rows.foldlM (Inventory.restoreRow f64) (inv, totals) = .ok (inv', totals') ∧
      (∀ row ∈ rows, inv'.position row.key = some row) ∧
      (∀ key, key ∉ rows.map PortfolioPosition.key → inv'.position key = inv.position key) ∧
      (∀ symbol, sumsAt totals' symbol = sumsAt totals symbol + sumsOf rows symbol) ∧
      ∀ symbol, totals'.find? symbol ≠ none → totals.find? symbol ≠ none ∨ ∃ row ∈ rows, row.symbol = symbol := by
  induction rows generalizing inv totals with
  | nil =>
    refine ⟨inv, totals, rfl, fun row hrow => absurd hrow not_mem_nil, fun _ _ => rfl, fun symbol => ?_,
      fun symbol h => .inl h⟩
    show _ = _ + ((0, 0) : Exact × Exact)
    rw [Prod.mk_zero_zero, add_zero]
  | cons row rest ih =>
    rw [forall_mem_cons] at hvalid hfresh
    rw [map_cons, nodup_cons] at hnodup
    have hnext : ∀ other ∈ rest, (inv.withRow row (validatePosition_ok.mp hvalid.1).1).position other.key = none := by
      intro other hother
      have hne : other.key ≠ row.key := fun heq => hnodup.1 (heq ▸ mem_map_of_mem hother)
      rw [position_withRow, if_neg hne]
      exact hfresh.2 other hother
    obtain ⟨inv', totals', hrun, hrows, hothers, hsums, hkeys⟩ :=
      ih (inv.withRow row (validatePosition_ok.mp hvalid.1).1) (addTotals totals row) hvalid.2 hnodup.2 hnext
    refine ⟨inv', totals', ?_, ?_, fun key hkey => ?_, fun symbol => ?_, fun symbol h => ?_⟩
    · have hrow : restoreRow f64 (inv, totals) row =
          .ok (inv.withRow row (validatePosition_ok.mp hvalid.1).1, addTotals totals row) := by
        unfold restoreRow
        split
        · next e he => cases hvalid.1.symm.trans he
        · rw [hfresh.1]
          rfl
      rw [foldlM_cons, hrow]
      exact hrun
    · rw [forall_mem_cons]
      refine ⟨?_, hrows⟩
      rw [hothers row.key hnodup.1, position_withRow, if_pos rfl]
    · rw [map_cons, mem_cons, not_or] at hkey
      rw [hothers key hkey.2, position_withRow, if_neg hkey.1]
    · rw [hsums symbol, sumsAt_addTotals, sumsOf_cons]
      split
      · rw [add_assoc]
      · rfl
    · by_cases hsymbol : row.symbol = symbol
      · exact .inr ⟨row, mem_cons_self, hsymbol⟩
      · rcases hkeys symbol h with hfound | ⟨other, hother, heq⟩
        · rw [addTotals, Dict.find?_insert_ne hsymbol] at hfound
          exact .inl hfound
        · exact .inr ⟨other, mem_cons_of_mem _ hother, heq⟩

/-- **A readable inventory is read back as it was.** -/
theorem restore_of_readable (hr : Readable f64 inv) :
    ∃ restored, Inventory.restore f64 inv.snapshot = .ok restored ∧
      ∀ key, restored.position key = inv.position key := by
  have hvalid : ∀ row ∈ inv.rows, validatePosition f64 row = .ok () :=
    fun row hrow => hr.row row.key row (position_of_mem_rows hrow)
  obtain ⟨restored, totals, hrun, hrows, hothers, hsums, hkeys⟩ :=
    restoreRows_ok empty ∅ hvalid inv.rows_keys_nodup (fun _ _ => rfl)
  have hchecks : firstError (totals.entries.flatMap (fun row =>
      [validateQuantity f64 row.2.1, validateQuantity f64 row.2.2])) = .ok () := by
    apply firstError_eq_ok.mpr
    intro c hc
    obtain ⟨⟨symbol, sums⟩, hentry, hc⟩ := mem_flatMap.mp hc
    have hfound := Dict.mem_entries.mp hentry
    -- a symbol with sums has a row, and its sums are those of the inventory
    have hheld : ∃ row ∈ inv.rows, row.symbol = symbol := by
      apply (hkeys symbol (by rw [hfound]; exact Option.some_ne_none _)).resolve_left
      exact fun h => h rfl
    obtain ⟨row, hrow, rfl⟩ := hheld
    have hsum : sums = (inv.net row.symbol, inv.gross row.symbol) := by
      have h := hsums row.symbol
      rw [sumsAt, hfound, Option.getD_some] at h
      rw [h, net_eq_sum, gross_eq_sum]
      exact zero_add _
    obtain ⟨hnet, hgross⟩ := hr.sums row.key row (position_of_mem_rows hrow)
    rw [hsum] at hc
    rcases mem_pair.mp hc with rfl | rfl
    · exact hnet
    · exact hgross
  refine ⟨restored, ?_, fun key => ?_⟩
  · unfold restore snapshot
    dsimp only
    rw [hrun, require]
    simp only [bind, Except.bind, or_true, if_true, hchecks]
  · by_cases hkey : key ∈ inv.rows.map PortfolioPosition.key
    · obtain ⟨row, hrow, rfl⟩ := mem_map.mp hkey
      rw [hrows row hrow, position_of_mem_rows hrow]
    · rw [hothers key hkey]
      cases hposition : inv.position key with
      | none => rfl
      | some row =>
        have hmem := mem_map_of_mem (f := PortfolioPosition.key) (mem_rows_of_position hposition)
        rw [(inv.rows_ok key row hposition).1] at hmem
        exact absurd hmem hkey

end

/-- **Snapshots are read back.** From an empty inventory, after any fills, batches,
settlements and stops whose stops have a binary64, the reader accepts what the inventory
writes and comes to the same positions. -/
theorem snapshot_restores (f64 : Exact → Option ℚ) (steps : List InventoryStep) (inv : Inventory)
    (hrun : steps.foldlM (Inventory.step f64) Inventory.empty = .ok inv)
    (hstops : ∀ step ∈ steps, step.StopProjects f64) :
    ∃ restored, Inventory.restore f64 inv.snapshot = .ok restored ∧ ∀ key, restored.position key = inv.position key :=
  restore_of_readable (readable_empty.run hstops hrun)

def shortWithStop (trigger : Exact) : List InventoryStep :=
  [.fill (unitFill 0 .sell (.named "USDT")), .setStop (0, 0) .sell trigger]

theorem snapshot_restores_short : ∃ inv restored,
    (shortWithStop 15).foldlM (Inventory.step Binary64.nearestEven.nearest) Inventory.empty = .ok inv ∧
      Inventory.restore Binary64.nearestEven.nearest inv.snapshot = .ok restored ∧
      ∀ key, restored.position key = inv.position key := by
  obtain ⟨inv, hrun⟩ := exists_of_isOk (show ((shortWithStop 15).foldlM (step nearestEven.nearest)
    empty).isOk = true by decide +kernel)
  have hstop : Representable nearestEven.nearest 15 :=
    exists_of_isOk (show (toF64 nearestEven.nearest 15).isOk = true by decide +kernel)
  have hstops : ∀ step ∈ shortWithStop 15, step.StopProjects nearestEven.nearest := by
    intro step hstep
    rcases mem_pair.mp hstep with rfl | rfl
    · trivial
    · exact hstop
  obtain ⟨restored, hrestored, hsame⟩ :=
    snapshot_restores nearestEven.nearest (shortWithStop 15) inv hrun hstops
  exact ⟨inv, restored, hrun, hrestored, hsame⟩

/-- A stop of `10 ^ 309` is set for the short unit, and its snapshot is refused. -/
theorem stop_out_of_range :
    ((shortWithStop (10 ^ 309)).foldlM (Inventory.step Binary64.nearestEven.nearest) Inventory.empty).isOk = true ∧
      (((shortWithStop (10 ^ 309)).foldlM (Inventory.step Binary64.nearestEven.nearest) Inventory.empty).bind
        (fun inv => (Inventory.restore Binary64.nearestEven.nearest inv.snapshot).map (fun _ => ()))) =
        .error ("portfolio stop projection: " ++ ExactError.representationRange.toString) := by
  decide +kernel

end LiquidityMigration.Portfolio
