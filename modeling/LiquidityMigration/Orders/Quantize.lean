import LiquidityMigration.Orders.Terms

/- What quantization does to an order. A rounding moves a quantity down, a buy's limit down and a sell's up, and a
   stop towards the reference; what comes out lies on the grid of its own step (`OnGrid`). The checks before the wire
   hold because a price on its own grid is a fixed point of the rounding, whichever side it was rounded for
   (`OnGrid.quantizePrice`). -/
namespace LiquidityMigration.Orders
open Numeric Checks Portfolio Risk ExactOrderTerms

variable {x step q value p : Exact} {side : Side} {spec : ExactInstrumentSpec} {policy : QuantityPolicy}
  {b : Binary64} {terms : ExactOrderTerms} {amendment : AmendSpec}

theorem isMultipleOf_eq_true : isMultipleOf x step = .ok true ↔ 0 < step ∧ ∃ k : ℤ, x = k * step := by
  unfold isMultipleOf
  by_cases hstep : 0 < step
  · rw [if_pos hstep]
    simp only [Except.ok.injEq, decide_eq_true_eq, hstep, true_and]
    constructor
    · intro hden
      refine ⟨(x / step).num, ?_⟩
      rw [← (div_eq_iff hstep.ne'), Rat.coe_int_num_of_den_eq_one hden]
    · rintro ⟨k, rfl⟩
      rw [mul_div_assoc, div_self hstep.ne', mul_one]
      exact Rat.den_intCast k
  · rw [if_neg hstep]
    simp [hstep]

theorem floorTo_eq_ok : floorTo x step = .ok q ↔ 0 < step ∧ q = ⌊x / step⌋ * step := by
  unfold floorTo
  split
  · next h => simp [h, eq_comm]
  · next h => simp [h]

theorem ceilTo_eq_ok : ceilTo x step = .ok q ↔ 0 < step ∧ q = ⌈x / step⌉ * step := by
  unfold ceilTo
  split
  · next h => simp [h, eq_comm]
  · next h => simp [h]

theorem floorTo_le (h : floorTo x step = .ok q) : q ≤ x := by
  obtain ⟨hstep, rfl⟩ := floorTo_eq_ok.mp h
  exact (le_div_iff₀ hstep).mp (Int.floor_le (x / step))

theorem le_ceilTo (h : ceilTo x step = .ok q) : x ≤ q := by
  obtain ⟨hstep, rfl⟩ := ceilTo_eq_ok.mp h
  exact (div_le_iff₀ hstep).mp (Int.le_ceil (x / step))

theorem floorTo_isMultipleOf (h : floorTo x step = .ok q) : isMultipleOf q step = .ok true := by
  obtain ⟨hstep, rfl⟩ := floorTo_eq_ok.mp h
  exact isMultipleOf_eq_true.mpr ⟨hstep, _, rfl⟩

theorem floorTo_of_multiple (h : isMultipleOf x step = .ok true) : floorTo x step = .ok x := by
  obtain ⟨hstep, k, rfl⟩ := isMultipleOf_eq_true.mp h
  apply floorTo_eq_ok.mpr
  refine ⟨hstep, ?_⟩
  rw [mul_div_assoc, div_self hstep.ne', mul_one, Int.floor_intCast]

/-- At most the requested price for a buy, at least it for a sell. -/
def NoWorse (side : Side) (price requested : Exact) : Prop :=
  match side with
  | .buy => price ≤ requested
  | .sell => requested ≤ price

theorem snap_noWorse (h : snap value side step = .ok p) : NoWorse side p value := by
  cases side with
  | buy => exact floorTo_le h
  | sell => exact le_ceilTo h

/-- A price on the grid that its own magnitude asks for, within the venue's bounds. -/
structure OnGrid (spec : ExactInstrumentSpec) (p : Exact) : Prop where
  wire : ∃ text, decimalWire p = .ok text
  multiple : ∃ step, priceStep p spec = .ok step ∧ isMultipleOf p step = .ok true
  bounds : checkBounds p spec.minPrice spec.maxPrice "price bounds" = .ok ()

theorem quantizePrice_eq_ok : quantizePrice value side spec = .ok p ↔
      (∃ step, priceStep value spec = .ok step ∧ snap value side step = .ok p) ∧ OnGrid spec p := by
  simp only [quantizePrice, numeric, ok_iff]
  constructor
  · rintro ⟨step, hstep, snapped, hsnap, text, hwire, final, hfinal, onGrid, hmultiple, rfl, hbounds, hp⟩
    cases hp
    exact ⟨⟨step, hstep, hsnap⟩, ⟨text, hwire⟩, ⟨final, hfinal, hmultiple⟩, hbounds⟩
  · rintro ⟨⟨step, hstep, hsnap⟩, ⟨text, hwire⟩, ⟨final, hfinal, hmultiple⟩, hbounds⟩
    exact ⟨step, hstep, p, hsnap, text, hwire, final, hfinal, true, hmultiple, rfl, hbounds, rfl⟩

theorem quantizePrice_noWorse (h : quantizePrice value side spec = .ok p) : NoWorse side p value := by
  obtain ⟨⟨step, -, hsnap⟩, -⟩ := quantizePrice_eq_ok.mp h
  exact snap_noWorse hsnap

theorem quantizePrice_onGrid (h : quantizePrice value side spec = .ok p) : OnGrid spec p :=
  (quantizePrice_eq_ok.mp h).2

/-- The step of a price on the grid is the step it has been checked against, so the
rounding finds nothing to do. -/
theorem OnGrid.quantizePrice (h : OnGrid spec p) : quantizePrice p .buy spec = .ok p := by
  obtain ⟨step, hstep, hmultiple⟩ := h.multiple
  exact quantizePrice_eq_ok.mpr ⟨⟨step, hstep, floorTo_of_multiple hmultiple⟩, h⟩

theorem checkPriceGrid_of_onGrid (what : String) (h : OnGrid spec p) : checkPriceGrid spec what p = .ok () := by
  simp only [checkPriceGrid, ok_iff]
  exact ⟨p, h.quantizePrice, rfl⟩

theorem orderQuantity_ok {input quantity : Exact} {kind : OrderKind}
    (h : orderQuantity spec input kind policy = .ok quantity) :
    quantity ≤ input ∧ (policy ≠ .closeEntirePosition → checkQuantityGrid spec kind quantity = .ok ()) := by
  cases policy with
  | closeEntirePosition =>
    -- the whole position goes out as it is, on whatever grid
    refine ⟨?_, fun hpolicy => absurd rfl hpolicy⟩
    unfold orderQuantity at h
    split at h
    · split at h
      · cases h; exact le_refl _
      · cases h; exact le_refl _
      · cases h
    · next hnormal => cases hnormal
  | normal =>
    simp only [orderQuantity, numeric, ok_iff] at h
    obtain ⟨step, hstep, snapped, hfloor, text, hwire, hbounds, hquantity⟩ := h
    cases hquantity
    refine ⟨floorTo_le hfloor, fun _ => ?_⟩
    simp only [checkQuantityGrid, numeric, ok_iff]
    exact ⟨step, hstep, true, floorTo_isMultipleOf hfloor, rfl, hbounds⟩

theorem orderLimit_ok {requested limit : Option Exact} (h : orderLimit spec side requested = .ok limit) :
    Option.Rel (NoWorse side) limit requested ∧ ∀ p ∈ limit, OnGrid spec p := by
  cases requested with
  | none =>
    cases h
    exact ⟨.none, by simp⟩
  | some price =>
    simp only [orderLimit, map_eq_ok] at h
    obtain ⟨snapped, hsnapped, rfl⟩ := h
    refine ⟨.some (quantizePrice_noWorse hsnapped), ?_⟩
    intro p hp
    cases hp
    exact quantizePrice_onGrid hsnapped

/-- What a stop keeps of what was asked: no farther from the reference, and on the side
of the reference and of the limit from which it protects. -/
structure StopKept (side : Side) (limit : Option Exact) (reference trigger requested : Exact) : Prop where
  near : |reference - trigger| ≤ |reference - requested|
  reference : ¬ crosses side trigger reference
  limit : ∀ p ∈ limit, ¬ crosses side trigger p

/-- Rounded for the other side, a stop moves towards the reference; that it has not
reached it is checked. -/
theorem stop_near {reference trigger requested : Exact} (hworse : NoWorse (flipped side) trigger requested)
    (hcrosses : ¬ crosses side trigger reference) : |reference - trigger| ≤ |reference - requested| := by
  cases side with
  | buy =>
    have hbelow : trigger < reference := not_le.mp hcrosses
    have hup : requested ≤ trigger := hworse
    calc |reference - trigger| = reference - trigger := abs_of_pos (sub_pos.mpr hbelow)
      _ ≤ reference - requested := sub_le_sub_left hup reference
      _ ≤ |reference - requested| := le_abs_self _
  | sell =>
    have habove : reference < trigger := not_le.mp hcrosses
    have hdown : trigger ≤ requested := hworse
    calc |reference - trigger| = trigger - reference := abs_sub_comm reference trigger ▸ abs_of_pos (sub_pos.mpr habove)
      _ ≤ requested - reference := sub_le_sub_right hdown reference
      _ ≤ |requested - reference| := le_abs_self _
      _ = |reference - requested| := abs_sub_comm requested reference

/-- The stop of an order that asks for one at `stopPx`. -/
def StopFor (b : Binary64) (side : Side) (prices : Option IntentPrices) (limit reference : Option Exact)
    (trigger : Exact) (stopPx : F64) : Prop :=
  ∃ requested current, requestedStop b stopPx prices = .ok requested ∧ reference = some current ∧
    StopKept side limit current trigger requested

theorem orderStop_ok {prices : Option IntentPrices} {limit reference trigger : Option Exact} {stop : Option F64}
    (h : orderStop b spec side prices limit reference stop = .ok trigger) :
    Option.Rel (StopFor b side prices limit reference) trigger stop ∧ ∀ p ∈ trigger, OnGrid spec p := by
  cases stop with
  | none =>
    cases h
    exact ⟨.none, by simp⟩
  | some stopPx =>
    simp only [orderStop, ok_iff] at h
    obtain ⟨requested, hrequested, snapped, hsnapped, current, hcurrent, hcrosses, htrigger⟩ := h
    cases htrigger
    obtain ⟨hreference, hlimit⟩ := not_or.mp hcrosses
    have hkept : StopKept side limit current snapped requested := by
      refine ⟨stop_near (quantizePrice_noWorse hsnapped) hreference, hreference, ?_⟩
      intro p hp hcross
      cases hp
      exact hlimit (decide_eq_true hcross)
    refine ⟨.some ⟨requested, current, hrequested, hcurrent, hkept⟩, ?_⟩
    intro p hp
    cases hp
    exact quantizePrice_onGrid hsnapped

theorem checkPrices_ok {ps : List Exact} (what : String) (h : ∀ p ∈ ps, OnGrid spec p) :
    firstError (ps.map (checkPriceGrid spec what)) = .ok () := by
  apply firstError_eq_ok.mpr
  intro c hc
  obtain ⟨p, hp, rfl⟩ := List.mem_map.mp hc
  exact checkPriceGrid_of_onGrid what (h p hp)

theorem ExactOrderTerms.validateWireGrid_eq_ok {kind : OrderKind} : terms.validateWireGrid b spec kind policy = .ok () ↔
      terms.validateStorage b = .ok () ∧
        (policy ≠ .closeEntirePosition → checkQuantityGrid spec kind terms.quantity = .ok ()) ∧
          firstError ((terms.limitPrice.toList ++ terms.stopTriggerPrice.toList ++
            terms.physicalStopTriggerPrice.toList).map (checkPriceGrid spec "price grid")) = .ok () := by
  simp only [validateWireGrid, ok_iff, unlessClosing_eq_ok]

/-- What the terms of an order keep of the order that was asked for. -/
structure Kept (b : Binary64) (side : Side) (inputQty : Exact) (requested reference : Option Exact)
    (prices : Option IntentPrices) (stop : Option F64) (terms : ExactOrderTerms) : Prop where
  quantity : terms.quantity ≤ inputQty
  limit : Option.Rel (NoWorse side) terms.limitPrice requested
  stop : Option.Rel (StopFor b side prices terms.limitPrice reference) terms.stopTriggerPrice stop
  physical : terms.physicalStopTriggerPrice = terms.stopTriggerPrice

theorem quantizeWithExactPrices_ok {inputQty : Exact}
    {inputPolicy : OrderInputPolicy} {prices : Option IntentPrices} {kind : OrderKind} {stop referencePx : Option F64}
    (h : quantizeWithExactPrices b spec side inputQty inputPolicy prices kind stop referencePx policy = .ok terms) :
    (∃ requested reference, requestedLimit b kind prices = .ok requested ∧
      orderReference b referencePx = .ok reference ∧ Kept b side inputQty requested reference prices stop terms) ∧
    terms.validateWireGrid b spec kind policy = .ok () := by
  simp only [quantizeWithExactPrices, numeric, ok_iff] at h
  obtain ⟨-, quantity, hquantity, requested, hrequested, limit, hlimit, reference, hreference, -, trigger, htrigger,
    hstorage, hterms⟩ := h
  cases hterms
  obtain ⟨hless, hgrid⟩ := orderQuantity_ok hquantity
  obtain ⟨hnoWorse, hlimitGrid⟩ := orderLimit_ok hlimit
  obtain ⟨hstop, hstopGrid⟩ := orderStop_ok htrigger
  refine ⟨⟨requested, reference, hrequested, hreference, hless, hnoWorse, hstop, rfl⟩, ?_⟩
  apply validateWireGrid_eq_ok.mpr
  refine ⟨hstorage, hgrid, checkPrices_ok _ ?_⟩
  intro p hp
  simp only [List.mem_append, Option.mem_toList] at hp
  obtain (hp | hp) | hp := hp
  · exact hlimitGrid p hp
  · exact hstopGrid p hp
  · exact hstopGrid p hp

theorem checkBounds_field {min max : Option Exact} {field : String} (field' : String)
    (h : checkBounds value min max field = .ok ()) : checkBounds value min max field' = .ok () := by
  simp only [checkBounds, ok_iff] at h ⊢
  exact h

theorem ExactOrderTerms.wire_of_validateStorage
    (h : terms.validateStorage b = .ok ()) : ∃ text, decimalWire terms.quantity = .ok text := by
  simp only [validateStorage, projection, map_eq_ok, bind_eq_ok] at h
  obtain ⟨_, ⟨quantity, hquantity, -⟩, -⟩ := h
  simp only [project, bind_eq_ok] at hquantity
  obtain ⟨text, hwire, -⟩ := hquantity
  exact ⟨text, hwire⟩

theorem amendQuantityGrid_of_order {px : F64}
    {tif : TimeInForce} (h : terms.validateWireGrid b spec (.limit px tif) .normal = .ok ()) :
    ExactAmendTerms.checkQuantityGrid spec terms.quantity = .ok () := by
  obtain ⟨hstorage, hgrid, -⟩ := validateWireGrid_eq_ok.mp h
  obtain ⟨text, hwire⟩ := wire_of_validateStorage hstorage
  have hnormal := hgrid (by decide)
  simp only [checkQuantityGrid, quantityRules, numeric, ok_iff]
    at hnormal
  obtain ⟨step, hstep, onGrid, hmultiple, htrue, hbounds⟩ := hnormal
  simp only [ExactAmendTerms.checkQuantityGrid, numeric, ok_iff]
  exact ⟨text, hwire, step, hstep, onGrid, hmultiple, htrue, checkBounds_field _ hbounds⟩

def AmendedQuantity (b : Binary64) (amendment : AmendSpec) (quantity : Exact) (qty : F64) : Prop :=
  ∃ requested, amendRequestedQty b amendment qty = .ok requested ∧ quantity ≤ requested

def AmendedPrice (b : Binary64) (side : Side) (amendment : AmendSpec) (price : Exact) (px : F64) : Prop :=
  ∃ requested, amendRequestedPx b amendment px = .ok requested ∧ NoWorse side price requested

theorem amendQuantity_ok {quantity : Option Exact} (h : amendQuantity b spec amendment = .ok quantity) :
    Option.Rel (AmendedQuantity b amendment) quantity amendment.qty := by
  unfold amendQuantity at h
  split at h
  · next hnone =>
    cases h
    rw [hnone]
    exact .none
  · next qty hsome =>
    simp only [numeric, ok_iff] at h
    obtain ⟨requested, hrequested, step, -, snapped, hsnapped, hquantity⟩ := h
    cases hquantity
    rw [hsome]
    exact .some ⟨requested, hrequested, floorTo_le hsnapped⟩

theorem amendPrice_ok {price : Option Exact} (h : amendPrice b spec side amendment = .ok price) :
    Option.Rel (AmendedPrice b side amendment) price amendment.px ∧ ∀ p ∈ price, OnGrid spec p := by
  unfold amendPrice at h
  split at h
  · next hnone =>
    cases h
    rw [hnone]
    exact ⟨.none, by simp⟩
  · next px hsome =>
    simp only [bind_eq_ok] at h
    obtain ⟨requested, hrequested, snapped, hsnapped, hprice⟩ := h
    cases hprice
    rw [hsome]
    refine ⟨.some ⟨requested, hrequested, quantizePrice_noWorse hsnapped⟩, ?_⟩
    intro p hp
    cases hp
    exact quantizePrice_onGrid hsnapped

theorem quantizeAmend_ok {current : OrderRequest} {referencePx : Option F64} {terms : ExactAmendTerms}
    (h : quantizeAmend b spec current amendment referencePx = .ok terms) :
    Option.Rel (AmendedQuantity b amendment) terms.quantity amendment.qty ∧
      Option.Rel (AmendedPrice b current.side amendment) terms.limitPrice amendment.px ∧
        terms.validateWireGrid spec = .ok () := by
  simp only [quantizeAmend, bind_eq_ok, exists_unit, require_eq_ok] at h
  obtain ⟨-, px, hpx, -, -, quantity, hquantity, price, hprice, whole, hwhole, wholePrice, -, hgrid, -, -, hterms⟩ := h
  obtain rfl := Except.ok.inj hterms
  obtain ⟨hnoWorse, hpriceGrid⟩ := amendPrice_ok hprice
  refine ⟨amendQuantity_ok hquantity, hnoWorse, ?_⟩
  simp only [ExactAmendTerms.validateWireGrid, bind_eq_ok, exists_unit, checkEach_eq_ok]
  constructor
  · -- the amended quantity is the whole quantity of the order that was checked
    intro q hq
    obtain rfl : quantity = some q := hq
    obtain rfl : q = whole := Except.ok.inj hwhole
    cases hkind : current.kind with
    | market =>
      rw [hkind] at hpx
      cases hpx
    | limit limitPx tif =>
      rw [hkind] at hgrid
      have hamend := amendQuantityGrid_of_order hgrid
      exact hamend
  · intro p hp
    exact checkPriceGrid_of_onGrid _ (hpriceGrid p hp)

/-- Quantization never worsens an order: the quantity is at most the requested one, a buy's limit at
most and a sell's at least the requested price, the stop no farther from the reference than requested
and strictly on its protective side, and the terms pass `validate_wire_grid`. An amendment's terms do
likewise. -/
theorem quantization_keeps_order (b : Binary64) (spec : ExactInstrumentSpec) :
    (∀ side inputQty inputPolicy prices kind stop referencePx policy terms,
      quantizeWithExactPrices b spec side inputQty inputPolicy prices kind stop referencePx policy = .ok terms →
      (∃ requested reference, requestedLimit b kind prices = .ok requested ∧
        orderReference b referencePx = .ok reference ∧ Kept b side inputQty requested reference prices stop terms) ∧
      terms.validateWireGrid b spec kind policy = .ok ()) ∧
    ∀ current amendment referencePx terms, quantizeAmend b spec current amendment referencePx = .ok terms →
      Option.Rel (AmendedQuantity b amendment) terms.quantity amendment.qty ∧
        Option.Rel (AmendedPrice b current.side amendment) terms.limitPrice amendment.px ∧
          terms.validateWireGrid spec = .ok () := by
  constructor
  · intro side inputQty inputPolicy prices kind stop referencePx policy terms h
    exact quantizeWithExactPrices_ok h
  · intro current amendment referencePx terms h
    exact quantizeAmend_ok h

/-- Five significant figures, at most two decimals, lots of a tenth. -/
def figures : ExactInstrumentSpec where
  tickSize := none
  minPrice := none
  maxPrice := none
  pricePrecision := .significantFigures 5 2 true
  qtyStep := some (1 / 10)
  minQty := some (1 / 10)
  marketQtyStep := none
  marketMinQty := none
  maxQty := none
  maxMarketQty := none
  minNotional := some 10

/-- A buy of 1.25 at 1234.567 with a stop at 1200.01, while the market is at 1240. -/
def bought : ExactOrderTerms where
  quantity := 6 / 5
  limitPrice := some (2469 / 2)
  stopTriggerPrice := some (12001 / 10)
  physicalStopTriggerPrice := some (12001 / 10)
  inputPolicy := .strategyShortestDecimal

/-- The order at the venue, and an amendment of it to 1.15 at 1235.678. -/
def resting : OrderRequest where
  exactTerms := some bought
  sleeveEffect := none
  side := .buy
  qty := .finite (6 / 5)
  kind := .limit (.finite (2469 / 2)) .gtc
  stop := some (.finite (12001 / 10))

def repriced : AmendSpec where
  px := some (.finite (1235678 / 1000))
  qty := some (.finite (115 / 100))
  exactTerms := none

def amended : ExactAmendTerms where
  quantity := some (11 / 10)
  limitPrice := some (6178 / 5)
  inputPolicy := .strategyShortestDecimal

theorem bought_of_request : quantizeWithExactPrices .unrounded figures .buy (5 / 4) .strategyShortestDecimal none
    (.limit (.finite (1234567 / 1000)) .gtc) (some (.finite (120001 / 100))) (some (.finite 1240)) .normal =
      .ok bought := by decide +kernel

theorem amended_of_repriced : quantizeAmend .unrounded figures resting repriced (some (.finite 1240)) =
    .ok amended := by
  decide +kernel

theorem quantization_keeps_order_bought : (bought.quantity ≤ 5 / 4 ∧
      bought.validateWireGrid .unrounded figures (.limit (.finite (1234567 / 1000)) .gtc) .normal = .ok ()) ∧
    amended.validateWireGrid figures = .ok () := by
  obtain ⟨⟨_, _, -, -, hkept⟩, hgrid⟩ :=
      (quantization_keeps_order .unrounded figures).1 _ _ _ _ _ _ _ _ _ bought_of_request
  exact ⟨⟨hkept.quantity, hgrid⟩, ((quantization_keeps_order .unrounded figures).2 _ _ _ _ amended_of_repriced).2.2⟩

end LiquidityMigration.Orders
