import LiquidityMigration.Ledger.Fills

/- The range of prices an order is reserved for. A row states its price in the kind and the terms of its request, the
   exact range and the binary64 of its ends; `Reserved` relates the four. An amendment on its way widens the range
   (`Within`), a resolution closes it on one price.

   A resolution may give an exact price to an order without terms, and a snapshot an exact range from zero beside a
   positive limit. `PriceStated` says that a record is neither, and then every row is reserved
   (`amend_uncertainty_reserved`). -/
namespace LiquidityMigration.Ledger
open Numeric Checks Orders Portfolio LedgerOfOrders Binary64

/-- The four places where a row states its price agree. -/
structure OrderRec.Reserved (b : Binary64) (row : OrderRec) : Prop where
  low : row.exactPriceRange.low ≤ requestPrice row.request
  high : requestPrice row.request ≤ row.exactPriceRange.high
  lowPx : Projects b row.exactPriceRange.low row.reservationLowPx
  highPx : Projects b row.exactPriceRange.high row.reservationHighPx

/-- What a fill, an update or a note leaves of a row: everything that states its price. -/
structure SamePrices (old new : OrderRec) : Prop where
  request : new.request = old.request
  range : new.exactPriceRange = old.exactPriceRange
  low : new.reservationLowPx = old.reservationLowPx
  high : new.reservationHighPx = old.reservationHighPx

namespace SamePrices
variable {b : Binary64} {old new : OrderRec}

theorem commitFill {qty : F64} {amounts : Option ExecutionAmounts} (h : old.commitFill b qty amounts = .ok new) :
    SamePrices old new := by
  obtain ⟨frontier, done, _, rfl⟩ := commitFill_eq_ok h
  exact ⟨rfl, rfl, rfl, rfl⟩

theorem updatedRow {update : OrderUpdate} (h : LedgerOfOrders.updatedRow b update old = .ok new) :
    SamePrices old new := by
  unfold LedgerOfOrders.updatedRow at h
  split at h
  case h_4 => exact commitFill h
  all_goals
    injection h with h
    subst h
    exact ⟨rfl, rfl, rfl, rfl⟩

theorem recoveredRow {qty : F64} {amounts : Option ExecutionAmounts}
    (h : LedgerOfOrders.recoveredRow b qty amounts old = .ok new) : SamePrices old new := by
  have hfill := commitFill h
  exact ⟨hfill.request, hfill.range, hfill.low, hfill.high⟩

theorem reserved (h : SamePrices old new) (hold : old.Reserved b) : new.Reserved b := by
  refine ⟨?_, ?_, ?_, ?_⟩
  · rw [h.range, h.request]
    exact hold.low
  · rw [h.range, h.request]
    exact hold.high
  · rw [h.range, h.low]
    exact hold.lowPx
  · rw [h.range, h.high]
    exact hold.highPx

end SamePrices

/-- A range that starts at zero belongs to an order without a positive limit. -/
def OpenOrderState.LowStated (order : OpenOrderState) : Prop :=
  ∀ range ∈ order.exactPriceRange, range.low = 0 → limitPx order.request = .finite 0

def LedgerOfOrders.PriceStated (ledger : LedgerOfOrders) : Record → Prop
  | .amendResolved id effectivePx exactEffectivePx =>
    ∀ row ∈ ledger.orders.get? id, row.inFlight = true → limitOf row.request.kind ≠ none →
      row.request.exactTerms = none → ∀ number ∈ exactEffectivePx, F64.finite number.value = effectivePx
  | .segmentBase openOrders => ∀ order ∈ openOrders, order.LowStated
  | .orderLineageRestored order => order.LowStated
  | _ => True

section restored
variable {b : Binary64} {order : OpenOrderState} {row new : OrderRec}

theorem Projects.zero {x : Exact} (h : Projects b x (.finite 0)) : x = 0 := by
  obtain ⟨v, hv, heq⟩ := h
  injection heq with heq
  exact (toF64_eq_ok.mp hv).2 heq.symm

theorem positiveOr_eq {v : ℚ} {fallback : F64} (hv : 0 ≤ v) (hzero : v = 0 → fallback = .finite 0) :
    positiveOr (.finite v) fallback = .finite v := by
  rcases hv.lt_or_eq with hpos | rfl
  · simp only [positiveOr, if_pos hpos]
  · simp only [positiveOr, lt_irrefl, if_false]
    exact hzero rfl

/-- The binary64 ends that a snapshot is restored with project its range. -/
theorem restoredRow_projects (hb : b.Lawful) (hdoubles : OrderDoubles b order) (hstated : order.LowStated)
    (hvalid : validateRestored b order = .ok ()) (hrow : restoredRow b order = .ok new) :
    Projects b new.exactPriceRange.low new.reservationLowPx ∧
      Projects b new.exactPriceRange.high new.reservationHighPx := by
  simp only [restoredRow, ok_iff] at hrow
  obtain ⟨range, hrange, rfl⟩ := hrow
  obtain ⟨⟨low, hlow, hlowNonneg⟩, ⟨high, hhigh, hhighNonneg⟩, _⟩ := validateRestored_eq_ok.mp hvalid
  have hholds := restoredRange_holds hvalid hrange
  rcases restoredRange_projects hb hdoubles hvalid hrange with ⟨hexact, hlowPx, hhighPx⟩ | ⟨_, hlowPx, hhighPx⟩
  · rw [hlow] at hlowPx
    rw [hhigh] at hhighPx
    refine ⟨?_, ?_⟩
    · rw [hlow, positiveOr_eq hlowNonneg]
      · exact hlowPx
      · intro hzero
        exact hstated range hexact ((hzero ▸ hlowPx).zero)
    · rw [hhigh, positiveOr_eq hhighNonneg]
      · exact hhighPx
      · intro hzero
        -- the range is then the one price zero
        have hlowZero : range.low = 0 :=
          le_antisymm ((hholds.low.trans hholds.high).trans (hzero ▸ hhighPx).zero.le) hholds.nonneg
        exact hstated range hexact hlowZero
  · exact ⟨hlowPx, hhighPx⟩

theorem reserved_restored (hb : b.Lawful) (hdoubles : OrderDoubles b order) (hstated : order.LowStated)
    (hvalid : validateRestored b order = .ok ()) (hrow : restoredRow b order = .ok new) : new.Reserved b := by
  obtain ⟨hlowPx, hhighPx⟩ := restoredRow_projects hb hdoubles hstated hvalid hrow
  simp only [restoredRow, ok_iff] at hrow
  obtain ⟨range, hrange, rfl⟩ := hrow
  have hholds := restoredRange_holds hvalid hrange
  exact ⟨hholds.low, hholds.high, hlowPx, hhighPx⟩

theorem requestPrice_resolved (request : OrderRequest) (tif : TimeInForce) {effectivePx : F64}
    {exactEffectivePx : Option ExactNumber} {price : Exact}
    (hprice : LedgerOfOrders.validateResolution b effectivePx exactEffectivePx = .ok ())
    (heffective : LedgerOfOrders.effectivePrice effectivePx exactEffectivePx = .ok price)
    (hstated : request.exactTerms = none → ∀ number ∈ exactEffectivePx, F64.finite number.value = effectivePx) :
    requestPrice { request with
      kind := .limit effectivePx tif
      exactTerms := request.exactTerms.map (fun terms => { terms with limitPrice := some price }) } = price := by
  cases hterms : request.exactTerms with
  | some terms => simp [requestPrice]
  | none =>
    simp only [validateResolution, ok_iff] at hprice
    obtain ⟨v, rfl, hv⟩ := positive_eq hprice.1
    have hvalue : price = v := by
      cases hexact : exactEffectivePx with
      | none =>
        rw [hexact] at heffective
        injection heffective with heffective
        exact heffective.symm
      | some number =>
        rw [hexact] at heffective
        injection heffective with heffective
        have hstatedAt := hstated hterms number hexact
        injection hstatedAt with hstatedAt
        rw [← heffective, hstatedAt]
    simp [requestPrice, limitValue, hv, hvalue]

theorem RowStep.reserved {ledger : LedgerOfOrders} {record : Record} {id : String} (hb : b.Lawful)
    (hdoubles : record.Doubles b) (hstated : ledger.PriceStated record)
    (h : RowStep b record (ledger.orders.get? id) new)
    (hold : ∀ row ∈ ledger.orders.get? id, row.Reserved b) : new.Reserved b := by
  generalize hrow : ledger.orders.get? id = old at h hold
  cases h with
  | same _ => exact hold _ rfl
  | sent hterms =>
    have hprice := requestPrice_projects hb hdoubles (checkTerms_eq_ok.mp hterms)
    exact ⟨le_refl _, le_refl _, hprice, hprice⟩
  | updated _ hupdated => exact (SamePrices.updatedRow hupdated).reserved (hold _ rfl)
  | recovered hrecovered => exact (SamePrices.recoveredRow hrecovered).reserved (hold _ rfl)
  | amended _ _ hamended =>
    have hreserved := hold _ rfl
    rcases amendedRow_eq_ok hamended with ⟨rfl, _⟩ | ⟨_, _, _, _, _, _, hlow, hhigh, rfl⟩
    · exact hreserved
    · exact ⟨(min_le_left _ _).trans hreserved.low, hreserved.high.trans (le_max_left _ _), ⟨_, hlow, rfl⟩,
        ⟨_, hhigh, rfl⟩⟩
  | @resolved effectivePx exactEffectivePx old new hprice hresolved =>
    rcases resolvedRow_eq_ok hresolved with ⟨rfl, _⟩ | ⟨px, tif, price, hlive, hkind, heffective, rfl⟩
    · exact hold _ rfl
    · obtain ⟨price', hprice', hprojects, _⟩ := effectivePrice_spec hb hprice hdoubles
      rw [heffective] at hprice'
      injection hprice' with hprice'
      subst hprice'
      have hlimit : limitOf old.request.kind ≠ none := by simp [hkind, limitOf]
      have hknown : old ∈ ledger.orders.get? old.id := by rw [id_of_get? hrow, hrow]; rfl
      have hrequest := requestPrice_resolved old.request tif hprice heffective (hstated old hknown hlive hlimit)
      exact ⟨hrequest.ge, hrequest.le, hprojects, hprojects⟩
  | neverSent _ => exact ⟨(hold _ rfl).low, (hold _ rfl).high, (hold _ rfl).lowPx, (hold _ rfl).highPx⟩
  | restated hmem hvalid hrestored => exact reserved_restored hb (hdoubles _ hmem) (hstated _ hmem) hvalid hrestored
  | lineage _ _ hvalid hrestored => exact reserved_restored hb hdoubles hstated hvalid hrestored

end restored

/-- A range that lies within another. -/
structure ExactPriceRange.Within (inner outer : ExactPriceRange) : Prop where
  low : outer.low ≤ inner.low
  high : inner.high ≤ outer.high

namespace ExactPriceRange.Within
variable {x y z : ExactPriceRange}

theorem refl (x : ExactPriceRange) : x.Within x := ⟨le_refl _, le_refl _⟩

theorem trans (hxy : x.Within y) (hyz : y.Within z) : x.Within z := ⟨hyz.low.trans hxy.low, hxy.high.trans hyz.high⟩

end ExactPriceRange.Within

/-- A record of an order's life that resolves none of its amendments. -/
structure OrderRec.Widened (old new : OrderRec) : Prop where
  request : new.request = old.request
  range : old.exactPriceRange.Within new.exactPriceRange
  live : new.inFlight = true → old.inFlight = true

namespace LedgerOfOrders
variable {b : Binary64} {ledger ledger' : LedgerOfOrders} {record : Record} {row new : OrderRec} {id : String}

theorem widened_of_same (hprices : SamePrices row new) (hplace : KeepsPlace row new) : row.Widened new := by
  refine ⟨hprices.request, ?_, ?_⟩
  · rw [hprices.range]
    exact .refl _
  · rw [Indexed.inFlight_eq, Indexed.inFlight_eq]
    intro hlive
    cases hended : row.ending.isSome with
    | false => rfl
    | true =>
      rw [hplace.ended hended] at hlive
      cases hlive

theorem widened_of_restated {order : OpenOrderState} (hrestates : Restates b row order)
    (hrestored : restoredRow b order = .ok new) : row.Widened new := by
  rw [hrestates.restoredRow_eq] at hrestored
  injection hrestored with hrestored
  subst hrestored
  exact ⟨rfl, .refl _, fun hlive => hlive⟩

theorem widened_step (hrow : ledger.orders.get? id = some row) (hnew : new.id = id) (hkeeps : Keeps b id ledger record)
    (hunresolved : ∀ px exact, record ≠ .amendResolved id px exact) (hstep : RowStep b record (some row) new) :
    row.Widened new := by
  obtain rfl := id_of_get? hrow
  cases hstep with
  | same _ => exact ⟨rfl, .refl _, fun hlive => hlive⟩
  | sent _ => exact absurd hnew hkeeps
  | updated _ hupdated => exact widened_of_same (SamePrices.updatedRow hupdated) (KeepsPlace.updatedRow hupdated)
  | recovered hrecovered =>
    exact widened_of_same (SamePrices.recoveredRow hrecovered) (KeepsPlace.recoveredRow hrecovered)
  | amended _ _ hamended =>
    rcases amendedRow_eq_ok hamended with ⟨rfl, _⟩ | ⟨_, _, _, _, _, _, _, _, rfl⟩
    · exact ⟨rfl, .refl _, fun hlive => hlive⟩
    · exact ⟨rfl, ⟨min_le_left _ _, le_max_left _ _⟩, fun hlive => hlive⟩
  | resolved _ _ => exact absurd rfl (hunresolved _ _)
  | neverSent _ => exact ⟨rfl, .refl _, fun hlive => absurd hlive (by simp [OrderRec.inFlight])⟩
  | restated hmem _ hrestored =>
    exact widened_of_restated (hkeeps.restates hrow hmem ((id_of_restoredRow hrestored).symm.trans hnew)) hrestored
  | lineage _ hresident _ hrestored =>
    exact widened_of_restated (Restates.of_resident (hresident row rfl)) hrestored

theorem amended_step {spec : AmendSpec} {px : F64} {requested : Exact} (hlive : row.inFlight = true)
    (hlimit : limitOf row.request.kind ≠ none) (hpx : spec.px = some px)
    (hrequested : requestedPrice spec px = .ok requested) (hrecord : record = .amendSent row.id spec)
    (hstep : RowStep b record (some row) new) :
    new.exactPriceRange.low ≤ requested ∧ requested ≤ new.exactPriceRange.high := by
  cases hstep with
  | same hleaves =>
    subst hrecord
    exact absurd rfl (hleaves (by simp [hpx]))
  | amended _ hpx' hamended =>
    injection hrecord with _ hspec
    subst hspec
    rw [hpx] at hpx'
    injection hpx' with hpx'
    subst hpx'
    rcases amendedRow_eq_ok hamended with ⟨_, hended | hmarket⟩ | ⟨requested', _, _, _, _, hrequested', _, _, rfl⟩
    · rw [hlive] at hended
      cases hended
    · exact absurd hmarket hlimit
    · rw [hrequested] at hrequested'
      injection hrequested' with hrequested'
      subst hrequested'
      exact ⟨min_le_right _ _, le_max_right _ _⟩
  | _ => cases hrecord

/-- Over a stretch of an order's life without a resolution, the range widens, and takes in every price asked for. -/
theorem widened_run {records : List Record} (hrow : ledger.orders.get? id = some row)
    (hkeeps : Along b (Keeps b id) ledger records) (hunresolved : ∀ px exact, .amendResolved id px exact ∉ records)
    (hrun : ledger.run b records = .ok ledger') (hnew : ledger'.orders.get? id = some new) :
    row.Widened new ∧ ∀ spec px requested, .amendSent id spec ∈ records → spec.px = some px →
      requestedPrice spec px = .ok requested → new.inFlight = true → limitOf new.request.kind ≠ none →
      new.exactPriceRange.low ≤ requested ∧ requested ≤ new.exactPriceRange.high := by
  induction records generalizing ledger row with
  | nil =>
    injection hrun with hrun
    subst hrun
    rw [hrow] at hnew
    injection hnew with hnew
    subst hnew
    exact ⟨⟨rfl, .refl _, fun hlive => hlive⟩, fun spec px requested hmem => absurd hmem List.not_mem_nil⟩
  | cons record records ih =>
    obtain ⟨next, hnext, hrest⟩ := run_cons.mp hrun
    obtain ⟨mid, hmid⟩ := accept_keeps hkeeps.1 hnext ⟨row, hrow⟩
    have hstep := accept_row hnext hmid
    rw [hrow] at hstep
    have hfirst := widened_step hrow (id_of_get? hmid) hkeeps.1
      (fun px exact heq => hunresolved px exact (heq ▸ List.mem_cons_self)) hstep
    obtain ⟨hlater, hasked⟩ := ih hmid (hkeeps.2 next hnext)
      (fun px exact hmem => hunresolved px exact (List.mem_cons_of_mem _ hmem)) hrest
    refine ⟨⟨hlater.request.trans hfirst.request, hfirst.range.trans hlater.range,
      fun hlive => hfirst.live (hlater.live hlive)⟩, ?_⟩
    intro spec px requested hmem hpx hrequested hlive hlimit
    rcases List.mem_cons.mp hmem with rfl | hmem
    · -- the range after this amendment lies within the last one
      obtain rfl := id_of_get? hrow
      have hasked := amended_step (hfirst.live (hlater.live hlive))
        (by rwa [← hfirst.request, ← hlater.request]) hpx hrequested rfl hstep
      exact ⟨hlater.range.low.trans hasked.1, hasked.2.trans hlater.range.high⟩
    · exact hasked spec px requested hmem hpx hrequested hlive hlimit

variable (b ledger) in
def Reserved : Prop := ∀ row ∈ ledger.orders, row.Reserved b

theorem Reserved.accept (hb : b.Lawful) (hdoubles : record.Doubles b) (hstated : ledger.PriceStated record)
    (hr : ledger.Reserved b) (h : ledger.accept b record = .ok ledger') : ledger'.Reserved b := by
  intro new hnew
  refine RowStep.reserved hb hdoubles hstated (accept_row h (Table.get?_of_mem hnew)) ?_
  intro row hrow
  exact hr row (Table.get?_eq_some.mp hrow).1

theorem Reserved.run {records : List Record} (hb : b.Lawful) (hdoubles : ∀ record ∈ records, record.Doubles b)
    (hstated : Along b PriceStated ledger records) (hr : ledger.Reserved b) (h : ledger.run b records = .ok ledger') :
    ledger'.Reserved b :=
  ((Along.of_forall (fun record hmem _ => hdoubles record hmem)).and hstated).invariant
    (fun hr hrecord haccept => hr.accept hb hrecord.1 hrecord.2 haccept) hr h

/-- **Over records that state each price once, no amendment is under-reserved.** The range of a limit
order in flight holds the price of its request, with the binary64 of its ends, and while nothing is
resolved it only widens and holds every price an amendment has asked for. -/
theorem amend_uncertainty_reserved (hb : b.Lawful) {records : List Record}
    (hdoubles : ∀ record ∈ records, record.Doubles b) (hstated : Along b PriceStated LedgerOfOrders.empty records)
    (hrun : LedgerOfOrders.empty.run b records = .ok ledger) :
    (∀ row ∈ ledger.orders, row.inFlight = true → limitOf row.request.kind ≠ none →
      row.exactPriceRange.low ≤ requestPrice row.request ∧ requestPrice row.request ≤ row.exactPriceRange.high) ∧
    (∀ row ∈ ledger.orders, Projects b row.exactPriceRange.low row.reservationLowPx ∧
      Projects b row.exactPriceRange.high row.reservationHighPx) ∧
    ∀ before after mid id row new, records = before ++ after → LedgerOfOrders.empty.run b before = .ok mid →
      mid.orders.get? id = some row → Along b (Keeps b id) mid after →
      (∀ px exact, .amendResolved id px exact ∉ after) → ledger.orders.get? id = some new →
      row.exactPriceRange.Within new.exactPriceRange ∧
      ∀ spec px requested, .amendSent id spec ∈ after → spec.px = some px → requestedPrice spec px = .ok requested →
        new.inFlight = true → limitOf new.request.kind ≠ none →
        new.exactPriceRange.low ≤ requested ∧ requested ≤ new.exactPriceRange.high := by
  have hreserved : ledger.Reserved b :=
    Reserved.run hb hdoubles hstated (fun row hrow => absurd hrow (by simp [empty])) hrun
  refine ⟨?_, ?_, ?_⟩
  · intro row hrow _ _
    exact ⟨(hreserved row hrow).low, (hreserved row hrow).high⟩
  · intro row hrow
    exact ⟨(hreserved row hrow).lowPx, (hreserved row hrow).highPx⟩
  · intro before after mid id row new hsplit hbefore hrow hkeeps hunresolved hnew
    subst hsplit
    obtain ⟨mid', hmid', hafter⟩ := run_append.mp hrun
    rw [hbefore] at hmid'
    injection hmid' with hmid'
    subst hmid'
    obtain ⟨hwidened, hasked⟩ := widened_run hrow hkeeps hunresolved hafter hnew
    exact ⟨hwidened.range, hasked⟩

def limitOrder (px : ℚ) : OrderRequest where
  exactTerms := none
  sleeveEffect := none
  side := .buy
  qty := .finite 1
  kind := .limit (.finite px) .gtc
  stop := none
  clientOrderId := "a"
  strategy := 0
  symbol := 0
  reduceOnly := false
  closePosition := false

def tenth : ℚ := 3602879701896397 / 36028797018963968

def amendedTwice : List Record :=
  [.orderSent none (limitOrder 2) 7 (.finite 3), .amendSent "a" ⟨some (.finite 3), none, none⟩,
    .amendSent "a" ⟨some (.finite 1), none, none⟩]

def reservedAt (px : ℚ) (range : ExactPriceRange) (lowPx highPx : F64) : LedgerOfOrders :=
  { LedgerOfOrders.empty with
    orders := (∅ : Table OrderRec.id).put { freshRow none (limitOrder px) 7 (.finite 3) with
      exactPriceRange := range
      reservationLowPx := lowPx
      reservationHighPx := highPx }
    terminalCacheDirty := true
    openingSymbols := Tally.add ∅ (toLex (0, 0)) }

theorem amendedTwice_doubles : ∀ record ∈ amendedTwice, record.Doubles Binary64.nearestEven := by
  simp only [amendedTwice, List.forall_mem_cons, Record.Doubles, PriceIsDouble, limitOrder, limitOf,
    Option.mem_some_iff,
    forall_eq', Binary64.IsDouble]
  exact ⟨by decide +kernel, by decide +kernel, by decide +kernel, by simp⟩

theorem amend_uncertainty_reserved_twice :
    LedgerOfOrders.empty.run Binary64.nearestEven amendedTwice = .ok (reservedAt 2 ⟨1, 3⟩ (.finite 1) (.finite 3)) ∧
      ∀ row ∈ (reservedAt 2 ⟨1, 3⟩ (.finite 1) (.finite 3)).orders, row.inFlight = true →
        limitOf row.request.kind ≠ none → row.exactPriceRange.low ≤ requestPrice row.request ∧
          requestPrice row.request ≤ row.exactPriceRange.high := by
  have hrun : empty.run nearestEven amendedTwice =
      .ok (reservedAt 2 ⟨1, 3⟩ (.finite 1) (.finite 3)) := by decide +kernel
  have hstated : Along nearestEven PriceStated empty amendedTwice :=
    ⟨trivial, fun _ _ => ⟨trivial, fun _ _ => ⟨trivial, fun _ _ => trivial⟩⟩⟩
  exact ⟨hrun, (amend_uncertainty_reserved nearestEven_lawful amendedTwice_doubles hstated hrun).1⟩

/-- A resolution at exactly a tenth, of an order that can only state the binary64 above it. -/
theorem resolved_price_not_reserved : LedgerOfOrders.empty.run Binary64.nearestEven
        [.orderSent none (limitOrder tenth) 7 (.finite 3),
          .amendResolved "a" (.finite tenth) (some ⟨1 / 10, .venueDecimal⟩)] =
      .ok (reservedAt tenth ⟨1 / 10, 1 / 10⟩ (.finite tenth) (.finite tenth)) ∧
    ∃ row ∈ (reservedAt tenth ⟨1 / 10, 1 / 10⟩ (.finite tenth) (.finite tenth)).orders.rows,
      row.inFlight = true ∧ limitOf row.request.kind ≠ none ∧ row.exactPriceRange.high < requestPrice row.request := by
  decide +kernel

end LedgerOfOrders
end LiquidityMigration.Ledger
