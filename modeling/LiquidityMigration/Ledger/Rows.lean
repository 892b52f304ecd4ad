import LiquidityMigration.Ledger.Apply

/- What each operation on a row does, read off its definition once. The prices of a request and of a range are total
   (`requestPriceRange_eq`); what the checks accept is stated of the row or of the snapshot (`checkTerms_eq_ok`,
   `validateRestored_eq_ok`, `nextFill_exact`). `KeepsPlace` is what every change in place has in common: the row
   stays under its id, keeps what the indexes read, and stays ended once ended. -/
namespace LiquidityMigration.Ledger
open Numeric Checks Orders Portfolio ExactOrderTerms LedgerOfOrders OrderRec Option

/-- The amounts a venue can be sent: positive finite decimals that can be stored. -/
def Wire (x : Exact) : Prop := Stored x ∧ 0 < x ∧ isDecimal x = true

theorem decimalWire_iff {x : Exact} : (∃ text, decimalWire x = .ok text) ↔ Wire x := by
  simp only [decimalWire, numeric, ok_iff, validateStorage_ok, Wire]
  rw [← toDecimalString_isSome, isSome_iff_exists]
  refine ⟨?_, ?_⟩
  · intro h
    obtain ⟨text, hstored, hpos, htext⟩ := h
    exact ⟨hstored, hpos, text, htext⟩
  · intro h
    obtain ⟨hstored, hpos, text, htext⟩ := h
    exact ⟨text, hstored, hpos, htext⟩

def Projects (b : Binary64) (x : Exact) (px : F64) : Prop := ∃ v, toF64 b.nearest x = .ok v ∧ px = .finite v

/-- An exact amount beside its projection, both there or neither. -/
def Matches (b : Binary64) : Option Exact → Option F64 → Prop
  | none, none => True
  | some x, some px => Wire x ∧ Projects b x px
  | _, _ => False

variable {b : Binary64}

theorem project_eq_ok {x v : Exact} : ExactOrderTerms.project b x = .ok v ↔ Wire x ∧ toF64 b.nearest x = .ok v := by
  simp only [project, numeric, ok_iff, ← decimalWire_iff]
  refine ⟨?_, ?_⟩
  · intro h
    obtain ⟨text, htext, hv⟩ := h
    exact ⟨⟨text, htext⟩, hv⟩
  · intro h
    obtain ⟨⟨text, htext⟩, hv⟩ := h
    exact ⟨text, htext, hv⟩

theorem projectAll_matches {o : Option Exact} {px : Option F64} :
    (∃ v, ExactOrderTerms.projectAll b o = .ok v ∧ v.map F64.finite = px) ↔ Matches b o px := by
  cases o with
  | none =>
    cases px with
    | none => simp [projectAll, Matches]
    | some px => simp [projectAll, Matches]
  | some x =>
    simp only [projectAll, map_eq_ok, project_eq_ok]
    cases px with
    | none =>
      simp only [Matches, iff_false]
      intro h
      obtain ⟨v, ⟨w, _, rfl⟩, hv⟩ := h
      cases hv
    | some px =>
      simp only [Matches, Projects]
      refine ⟨?_, ?_⟩
      · intro h
        obtain ⟨v, ⟨w, ⟨hwire, hw⟩, rfl⟩, hv⟩ := h
        injection hv with hv
        exact ⟨hwire, w, hw, hv.symm⟩
      · intro h
        obtain ⟨hwire, w, hw, rfl⟩ := h
        exact ⟨some w, ⟨w, ⟨hwire, hw⟩, rfl⟩, rfl⟩

def limitOf : OrderKind → Option F64
  | .market => none
  | .limit px _ => some px

/-- The terms agree with the binary64 fields of the order they belong to. -/
structure TermsMatch (b : Binary64) (terms : ExactOrderTerms) (request : Orders.OrderRequest) : Prop where
  quantity : Matches b (some terms.quantity) (some request.qty)
  limit : Matches b terms.limitPrice (limitOf request.kind)
  sleeveStop : Matches b terms.stopTriggerPrice request.sleeveStop
  physicalStop : Matches b terms.physicalStopTriggerPrice request.stop

theorem validateProjection_eq_ok {terms : ExactOrderTerms} {request : Orders.OrderRequest} :
    terms.validateProjection b request = .ok () ↔ TermsMatch b terms request := by
  simp only [ExactOrderTerms.validateProjection, ExactOrderTerms.projection, bind_eq_ok, require_eq_ok]
  refine ⟨?_, ?_⟩
  · intro h
    obtain ⟨⟨q, l, s, p⟩, ⟨q', hq, l', hl, s', hs, p', hp, heq⟩, hqty, hlim, hstop, hphys⟩ := h
    injection heq with heq
    obtain ⟨rfl, rfl, rfl, rfl⟩ : q' = q ∧ l' = l ∧ s' = s ∧ p' = p := by simpa using heq
    obtain ⟨hwire, hv⟩ := project_eq_ok.mp hq
    exact ⟨⟨hwire, q', hv, hqty.symm⟩, projectAll_matches.mp ⟨l', hl, hlim⟩, projectAll_matches.mp ⟨s', hs, hstop⟩,
      projectAll_matches.mp ⟨p', hp, hphys⟩⟩
  · intro h
    obtain ⟨hwire, q, hq, hqty⟩ := h.quantity
    obtain ⟨l, hl, hlim⟩ := projectAll_matches.mpr h.limit
    obtain ⟨s, hs, hstop⟩ := projectAll_matches.mpr h.sleeveStop
    obtain ⟨p, hp, hphys⟩ := projectAll_matches.mpr h.physicalStop
    exact ⟨(q, l, s, p), ⟨q, project_eq_ok.mpr ⟨hwire, hq⟩, l, hl, s, hs, p, hp, rfl⟩, hqty.symm, hlim, hstop, hphys⟩

variable {request : OrderRequest}

theorem checkTerms_eq_ok :
    checkTerms b request = .ok () ↔ ∀ terms ∈ request.exactTerms, TermsMatch b terms request.toOrderRequest := by
  unfold checkTerms
  split
  · next h => simp [h]
  · next terms h => simp [h, validateProjection_eq_ok]

def limitValue (request : OrderRequest) : ℚ :=
  match request.kind with
  | .limit (.finite px) _ => if 0 < px then px else 0
  | _ => 0

theorem limitPx_eq (request : OrderRequest) : limitPx request = .finite (limitValue request) := by
  unfold limitPx limitValue
  cases request.kind with
  | market => rfl
  | limit px tif =>
    cases px with
    | nonFinite => rfl
    | finite px =>
      dsimp only
      split <;> rfl

theorem limitValue_nonneg (request : OrderRequest) : 0 ≤ limitValue request := by
  unfold limitValue
  split
  · split
    · next h => exact h.le
    · exact le_refl _
  · exact le_refl _

/-- The exact price an order asks for: that of its terms, or of its binary64. -/
def requestPrice (request : OrderRequest) : Exact :=
  (request.exactTerms.bind ExactOrderTerms.limitPrice).getD (limitValue request)

theorem requestPriceRange_eq (request : OrderRequest) :
    requestPriceRange request = .ok ⟨requestPrice request, requestPrice request⟩ := by
  unfold requestPriceRange requestPrice
  rw [limitPx_eq]
  cases request.exactTerms.bind limitPrice with
  | none => rfl
  | some price => rfl

def PriceIsDouble (b : Binary64) (request : OrderRequest) : Prop := ∀ px ∈ limitOf request.kind, b.IsDouble px

theorem limitValue_isNumber (hb : b.Lawful) (h : PriceIsDouble b request) : b.IsNumber (limitValue request) := by
  unfold limitValue
  split
  · next px tif hkind =>
    split
    · exact h (.finite px) (by rw [hkind]; rfl)
    · exact hb.zero
  · exact hb.zero

theorem requestPrice_projects (hb : b.Lawful) (hdouble : PriceIsDouble b request)
    (hterms : ∀ terms ∈ request.exactTerms, TermsMatch b terms request.toOrderRequest) :
    Projects b (requestPrice request) (limitPx request) := by
  rw [limitPx_eq]
  cases hexact : request.exactTerms with
  | none =>
    have hprice : requestPrice request = limitValue request := by simp [requestPrice, hexact]
    rw [hprice]
    exact ⟨_, (limitValue_isNumber hb hdouble).toF64, rfl⟩
  | some terms =>
    have hlimit := (hterms terms hexact).limit
    cases hkind : request.kind with
    | market =>
      rw [hkind] at hlimit
      cases hterm : terms.limitPrice with
      | some price =>
        rw [hterm] at hlimit
        exact hlimit.elim
      | none =>
        have hprice : requestPrice request = 0 := by simp [requestPrice, hexact, hterm, limitValue, hkind]
        have hvalue : limitValue request = 0 := by simp [limitValue, hkind]
        rw [hprice, hvalue]
        exact ⟨0, hb.zero.toF64, rfl⟩
    | limit px tif =>
      rw [hkind] at hlimit
      cases hterm : terms.limitPrice with
      | none =>
        rw [hterm] at hlimit
        exact hlimit.elim
      | some price =>
        rw [hterm] at hlimit
        obtain ⟨⟨_, hpos, _⟩, v, hv, rfl⟩ := hlimit
        have hprice : requestPrice request = price := by simp [requestPrice, hexact, hterm]
        have hvpos : 0 < v := (hb.pos_iff hv).mpr hpos
        have hvalue : limitValue request = v := by simp [limitValue, hkind, hvpos]
        rw [hprice, hvalue]
        exact ⟨v, hv, rfl⟩

theorem requestPrice_stored (hb : b.Lawful) (hdouble : PriceIsDouble b request)
    (hterms : ∀ terms ∈ request.exactTerms, TermsMatch b terms request.toOrderRequest) :
    Stored (requestPrice request) ∧ 0 ≤ requestPrice request := by
  unfold requestPrice
  cases hexact : request.exactTerms with
  | none => exact ⟨hb.stored (limitValue_isNumber hb hdouble), limitValue_nonneg request⟩
  | some terms =>
    cases hterm : terms.limitPrice with
    | none => simpa [hterm] using ⟨hb.stored (limitValue_isNumber hb hdouble), limitValue_nonneg request⟩
    | some price =>
      have hlimit := (hterms terms hexact).limit
      rw [hterm] at hlimit
      cases hkind : limitOf request.kind with
      | none =>
        rw [hkind] at hlimit
        exact hlimit.elim
      | some px =>
        rw [hkind] at hlimit
        simpa [hterm] using ⟨hlimit.1.1, hlimit.1.2.1.le⟩

/-- A count of fills that can be read: it has a binary64 and, where it is exact, stays within the order, which has
    ended where it is the whole order. -/
structure FrontierSound (b : Binary64) (terms : Option ExactOrderTerms) (ended : Bool) (frontier : OrderFillQuantity) :
    Prop where
  reads : ∃ v, projection b frontier = .ok v
  within : ∀ quantity, frontier = .exact quantity →
    ∃ t, terms = some t ∧ quantity ≤ t.quantity ∧ (quantity = t.quantity → ended = true) ∧
      ∃ v, toF64 b.nearest (t.quantity - quantity) = .ok v

section fills
variable {b : Binary64} {row : OrderRec} {qty : F64} {amounts : Option ExecutionAmounts} {frontier : OrderFillQuantity}
  {done : Bool}

theorem nextFill_eq_ok (h : row.nextFill b qty amounts = .ok (frontier, done)) :
    ∃ q filled, qty = .finite q ∧ 0 < q ∧ row.nextFrontier b q amounts = .ok frontier ∧
      projection b frontier = .ok filled ∧ row.isDone b filled frontier = .ok done := by
  unfold nextFill at h
  split at h
  · cases h
  · next q =>
    simp only [bind_eq_ok, exists_unit, require_eq_ok] at h
    obtain ⟨hpos, frontier', hfrontier, filled, hfilled, done', hdone, heq⟩ := h
    injection heq with heq
    obtain ⟨rfl, rfl⟩ : frontier' = frontier ∧ done' = done := by simpa using heq
    exact ⟨q, filled, rfl, hpos, hfrontier, hfilled, hdone⟩

theorem exactFrontier_eq_ok {quantity : Exact} {q : ℚ} {a : ExecutionAmounts}
    (h : row.exactFrontier b quantity q a = .ok frontier) :
    ∃ terms, row.request.exactTerms = some terms ∧ frontier = .exact (quantity + a.quantity.value) ∧
      0 < a.quantity.value ∧ quantity + a.quantity.value ≤ terms.quantity ∧
      ∃ v, toF64 b.nearest (terms.quantity - (quantity + a.quantity.value)) = .ok v := by
  simp only [exactFrontier, bind_eq_ok, exists_unit, refuseNumber_eq_ok, require_eq_ok, orError_eq_ok] at h
  obtain ⟨_, value, _, ⟨_, hpos⟩, terms, hterms, hle, v, hv, heq⟩ := h
  injection heq with heq
  exact ⟨terms, hterms, heq.symm, hpos, hle, v, hv⟩

theorem nextFill_exact {quantity : Exact} {a : ExecutionAmounts} (hrow : row.fillQuantity = .exact quantity)
    (h : row.nextFill b qty (some a) = .ok (frontier, done)) :
    ∃ terms, row.request.exactTerms = some terms ∧ frontier = .exact (quantity + a.quantity.value) ∧
      0 < a.quantity.value ∧ quantity + a.quantity.value ≤ terms.quantity ∧
      (done = true ↔ quantity + a.quantity.value = terms.quantity) := by
  obtain ⟨q, filled, _, _, hfrontier, _, hdone⟩ := nextFill_eq_ok h
  simp only [nextFrontier, hrow] at hfrontier
  obtain ⟨terms, hterms, rfl, hpos, hle, _⟩ := exactFrontier_eq_ok hfrontier
  simp only [isDone, hterms, bind_eq_ok, orError_eq_ok, some.injEq] at hdone
  obtain ⟨terms', rfl, heq⟩ := hdone
  injection heq with heq
  exact ⟨terms, hterms, rfl, hpos, hle, by rw [← heq, decide_eq_true_eq]⟩

theorem nextFill_sound (h : row.nextFill b qty amounts = .ok (frontier, done)) :
    FrontierSound b row.request.exactTerms (done || row.ending.isSome) frontier := by
  obtain ⟨q, filled, _, _, hfrontier, hfilled, hdone⟩ := nextFill_eq_ok h
  refine ⟨⟨filled, hfilled⟩, ?_⟩
  intro quantity hquantity
  subst hquantity
  unfold nextFrontier at hfrontier
  split at hfrontier
  · next quantity' a _ =>
    obtain ⟨terms, hterms, heq, _, hle, hleft⟩ := exactFrontier_eq_ok hfrontier
    injection heq with heq
    subst heq
    simp only [isDone, hterms, bind_eq_ok, orError_eq_ok, some.injEq] at hdone
    obtain ⟨terms', rfl, heq⟩ := hdone
    injection heq with heq
    refine ⟨terms, hterms, hle, ?_, hleft⟩
    intro hall
    rw [← heq, decide_eq_true hall, Bool.true_or]
  · simp only [bind_eq_ok] at hfrontier
    obtain ⟨_, _, heq⟩ := hfrontier
    cases heq

theorem commitFill_eq_ok {new : OrderRec} (h : row.commitFill b qty amounts = .ok new) :
    ∃ frontier done, row.nextFill b qty amounts = .ok (frontier, done) ∧ new = { row with
        fillQuantity := frontier
        terminalCheckpointMs := none
        ending := if done then some .filled else row.ending } := by
  simp only [commitFill, bind_eq_ok, expect_eq_ok] at h
  obtain ⟨⟨frontier, done⟩, hnext, heq⟩ := h
  injection heq with heq
  exact ⟨frontier, done, hnext, heq.symm⟩

theorem commitFill_of_nextFill (h : row.nextFill b qty amounts = .ok (frontier, done)) :
    ∃ new, row.commitFill b qty amounts = .ok new := by
  unfold commitFill
  rw [h]
  exact ⟨_, rfl⟩

theorem isSome_ending_commit (done : Bool) (ending : Option OrderEnding) :
    (if done then some OrderEnding.filled else ending).isSome = (done || ending.isSome) := by
  cases done <;> rfl

end fills

section snapshots
variable {b : Binary64} {order : OpenOrderState} {row : OrderRec}

theorem checkReservation_eq_ok {px : F64} : checkReservation px = .ok () ↔ ∃ v, px = .finite v ∧ 0 ≤ v := by
  cases px with
  | nonFinite => simp [checkReservation]
  | finite v => simp [checkReservation]

theorem checkProjections_eq_ok : checkProjections b order = .ok () ↔ ∀ range ∈ order.exactPriceRange,
      Projects b range.low order.reservationLowPx ∧ Projects b range.high order.reservationHighPx := by
  unfold checkProjections
  split
  · next h => simp [h]
  · next range h =>
    simp only [ok_iff, refuseNumber_eq_ok, h, mem_some_iff, forall_eq', Projects]
    refine ⟨?_, ?_⟩
    · intro hok
      obtain ⟨low, hlow, hlowPx, high, hhigh, hhighPx⟩ := hok
      exact ⟨⟨low, hlow, hlowPx.symm⟩, high, hhigh, hhighPx.symm⟩
    · intro hok
      obtain ⟨⟨low, hlow, hlowPx⟩, high, hhigh, hhighPx⟩ := hok
      exact ⟨low, hlow, hlowPx.symm, high, hhigh, hhighPx.symm⟩

theorem checkFrontier_eq_ok : checkFrontier b order = .ok () ↔
      FrontierSound b order.request.exactTerms order.terminal.isSome (restore order) ∧
        ∃ filled, projection b (restore order) = .ok filled ∧ order.filledQty = .finite filled := by
  unfold checkFrontier
  simp only [ok_iff]
  refine ⟨?_, ?_⟩
  · intro h
    obtain ⟨filled, hfilled, hqty, hfrontier⟩ := h
    refine ⟨⟨⟨filled, hfilled⟩, ?_⟩, filled, hfilled, hqty.symm⟩
    intro quantity hquantity
    rw [hquantity] at hfrontier
    simp only [ok_iff, refuseNumber_eq_ok] at hfrontier
    obtain ⟨terms, hterms, hopen, v, hv, _⟩ := hfrontier
    obtain ⟨hle, hended⟩ := not_or.mp hopen
    refine ⟨terms, hterms, not_lt.mp hle, ?_, v, hv⟩
    intro hall
    exact isSome_iff_ne_none.mpr fun hnone => hended ⟨hall, hnone⟩
  · intro h
    obtain ⟨hsound, filled, hfilled, hqty⟩ := h
    refine ⟨filled, hfilled, hqty.symm, ?_⟩
    cases hfrontier : restore order with
    | legacyBinary64 quantity => rfl
    | exact quantity =>
      obtain ⟨terms, hterms, hle, hended, v, hv⟩ := hsound.within quantity hfrontier
      simp only [ok_iff, refuseNumber_eq_ok]
      refine ⟨terms, hterms, not_or.mpr ⟨not_lt.mpr hle, ?_⟩, v, hv, rfl⟩
      intro hopen
      exact isSome_iff_ne_none.mp (hended hopen.1) hopen.2

/-- The range holds the price the order asks for, and both ends can be stored. -/
structure RangeHolds (range : ExactPriceRange) (price : Exact) : Prop where
  lowStored : Stored range.low
  highStored : Stored range.high
  nonneg : 0 ≤ range.low
  low : range.low ≤ price
  high : price ≤ range.high

theorem checkRange_eq_ok : checkRange b order = .ok () ↔ ∃ range, restoredPriceRange b order = .ok range ∧
      RangeHolds range (requestPrice order.request) := by
  simp only [checkRange, ok_iff, refuseNumber_eq_ok, requestPriceRange_eq, exists_eq_left', validateStorage_ok,
    not_or, not_lt]
  refine ⟨?_, ?_⟩
  · intro h
    obtain ⟨range, hrange, hlow, hhigh, ⟨hnonneg, _⟩, hle, hge⟩ := h
    exact ⟨range, hrange, hlow, hhigh, hnonneg, hle, hge⟩
  · intro h
    obtain ⟨range, hrange, hlow, hhigh, hnonneg, hle, hge⟩ := h
    exact ⟨range, hrange, hlow, hhigh, ⟨hnonneg, hle.trans hge⟩, hle, hge⟩

theorem validateRestored_eq_ok : validateRestored b order = .ok () ↔
      (∃ low, order.reservationLowPx = .finite low ∧ 0 ≤ low) ∧
      (∃ high, order.reservationHighPx = .finite high ∧ 0 ≤ high) ∧
      (∃ range, restoredPriceRange b order = .ok range ∧ RangeHolds range (requestPrice order.request)) ∧
      (∀ range ∈ order.exactPriceRange,
        Projects b range.low order.reservationLowPx ∧ Projects b range.high order.reservationHighPx) ∧
      (∀ terms ∈ order.request.exactTerms, TermsMatch b terms order.request.toOrderRequest) ∧
      FrontierSound b order.request.exactTerms order.terminal.isSome (restore order) ∧
      ∃ filled, projection b (restore order) = .ok filled ∧ order.filledQty = .finite filled := by
  simp only [validateRestored, ok_iff, checkReservation_eq_ok, checkRange_eq_ok, checkProjections_eq_ok,
    checkTerms_eq_ok, checkFrontier_eq_ok]

theorem restoredRange_holds {range : ExactPriceRange} (hvalid : validateRestored b order = .ok ())
    (hrange : restoredPriceRange b order = .ok range) : RangeHolds range (requestPrice order.request) := by
  obtain ⟨_, _, ⟨checked, hchecked, hholds⟩, _⟩ := validateRestored_eq_ok.mp hvalid
  rw [hrange] at hchecked
  injection hchecked with hchecked
  rw [hchecked]
  exact hholds

theorem restoredEnd_eq {v : ℚ} {canonical : Exact} : restoredEnd b (.finite v) canonical =
      .ok (if v ≤ 0 ∨ toF64 b.nearest canonical = .ok v then canonical else v) := by
  unfold restoredEnd
  dsimp only
  split <;> rfl

/-- The snapshot restates the row, its retention stamp aside. -/
structure Restates (b : Binary64) (row : OrderRec) (order : OpenOrderState) : Prop where
  request : order.request = row.request
  entryWork : order.entryWork = row.entryWork
  wireNs : order.wireNs = row.wireNs
  arrivalMid : order.arrivalMid = row.arrivalMid
  acked : order.acked = row.acked
  filled : ∃ filled, projection b row.fillQuantity = .ok filled ∧ order.filledQty = .finite filled
  fillQuantity : order.fillQuantity = some row.fillQuantity
  low : order.reservationLowPx = row.reservationLowPx
  high : order.reservationHighPx = row.reservationHighPx
  range : order.exactPriceRange = some row.exactPriceRange
  ending : order.terminal.map TerminalOrderState.ending = row.ending

theorem Restates.of_snapshot {nowMs : Int} (h : row.snapshot b nowMs = .ok order) : Restates b row order := by
  simp only [snapshot, filledQty, ok_iff, expect_eq_ok] at h
  obtain ⟨filled, hfilled, rfl⟩ := h
  refine ⟨rfl, rfl, rfl, rfl, rfl, ⟨filled, hfilled, rfl⟩, rfl, rfl, rfl, rfl, ?_⟩
  cases row.ending <;> rfl

/-- A reactivated order that is accepted over a resident one restates it. -/
theorem Restates.of_resident (h : LedgerOfOrders.residentSnapshot b row order = .ok order) : Restates b row order := by
  simp only [residentSnapshot, bind_eq_ok] at h
  obtain ⟨prior, hprior, h⟩ := h
  have hrestates := of_snapshot hprior
  split at h
  · next old restored hold hrestored =>
    injection h with h
    have hending := hrestates.ending
    rw [hold] at hending
    rw [← h]
    exact ⟨hrestates.request, hrestates.entryWork, hrestates.wireNs, hrestates.arrivalMid, hrestates.acked,
      hrestates.filled, hrestates.fillQuantity, hrestates.low, hrestates.high, hrestates.range, hending⟩
  · injection h with h
    exact h ▸ hrestates

theorem Restates.restoredRow_eq (h : Restates b row order) : restoredRow b order = .ok { row with
      terminalCheckpointMs := order.terminal.map TerminalOrderState.retainedSinceMs
      reservationLowPx := positiveOr row.reservationLowPx (limitPx row.request)
      reservationHighPx := positiveOr row.reservationHighPx (limitPx row.request) } := by
  simp only [restoredRow, restoredPriceRange, restore, h.range, h.request, h.entryWork, h.wireNs, h.arrivalMid, h.acked,
    h.fillQuantity, h.low, h.high, h.ending, getD_some, bind, Except.bind]

end snapshots

/-- What a change in place keeps: the id, what the indexes read, and that the order has ended. -/
structure KeepsPlace (old new : OrderRec) : Prop where
  id : new.id = old.id
  stop : openingStop new.request = openingStop old.request
  key : openingKey new.request = openingKey old.request
  ended : old.ending.isSome = true → new.ending.isSome = true

namespace KeepsPlace
variable {b : Binary64} {old new : OrderRec}

theorem of_request (hrequest : new.request = old.request)
    (hended : old.ending.isSome = true → new.ending.isSome = true) : KeepsPlace old new := by
  refine ⟨?_, ?_, ?_, hended⟩
  · unfold OrderRec.id
    rw [hrequest]
  · rw [hrequest]
  · rw [hrequest]

theorem refl (old : OrderRec) : KeepsPlace old old := of_request rfl fun h => h

theorem commitFill {qty : F64} {amounts : Option ExecutionAmounts} (h : old.commitFill b qty amounts = .ok new) :
    KeepsPlace old new := by
  obtain ⟨frontier, done, _, rfl⟩ := commitFill_eq_ok h
  refine of_request rfl ?_
  intro hended
  rw [isSome_ending_commit, hended, Bool.or_true]

theorem updatedRow {update : OrderUpdate} (h : LedgerOfOrders.updatedRow b update old = .ok new) :
    KeepsPlace old new := by
  unfold LedgerOfOrders.updatedRow at h
  split at h
  · injection h with h
    exact h ▸ of_request rfl fun h => h
  · injection h with h
    exact h ▸ of_request rfl fun _ => rfl
  · injection h with h
    exact h ▸ of_request rfl fun _ => rfl
  · exact commitFill h
  all_goals
    injection h with h
    exact h ▸ refl old

theorem recoveredRow {qty : F64} {amounts : Option ExecutionAmounts}
    (h : LedgerOfOrders.recoveredRow b qty amounts old = .ok new) : KeepsPlace old new := by
  have hfill := commitFill h
  exact ⟨hfill.id, hfill.stop, hfill.key, hfill.ended⟩

theorem neverSent
    (h : (.ok { old with ending := some .neverSent } : Except Failure OrderRec) = .ok new) : KeepsPlace old new := by
  injection h with h
  exact h ▸ of_request rfl fun _ => rfl

end KeepsPlace

section amendments
variable {b : Binary64} {old new : OrderRec} {spec : AmendSpec} {requestedPx effectivePx : F64}
  {exactEffectivePx : Option ExactNumber}

theorem amendedRow_eq_ok (h : LedgerOfOrders.amendedRow b spec requestedPx old = .ok new) :
    (new = old ∧ (old.inFlight = false ∨ limitOf old.request.kind = none)) ∨
      ∃ requested lowPx highPx, old.inFlight = true ∧ limitOf old.request.kind ≠ none ∧
        LedgerOfOrders.requestedPrice spec requestedPx = .ok requested ∧
        toF64 b.nearest (min old.exactPriceRange.low requested) = .ok lowPx ∧
        toF64 b.nearest (max old.exactPriceRange.high requested) = .ok highPx ∧
        new = { old with
          exactPriceRange := ⟨min old.exactPriceRange.low requested, max old.exactPriceRange.high requested⟩
          reservationLowPx := .finite lowPx
          reservationHighPx := .finite highPx } := by
  unfold amendedRow at h
  split at h
  · next hkind =>
    injection h with h
    exact .inl ⟨h.symm, .inr (by rw [hkind]; rfl)⟩
  · next px tif hkind =>
    split at h
    · next hlive =>
      simp only [bind_eq_ok, expect_eq_ok] at h
      obtain ⟨requested, hrequested, lowPx, hlow, highPx, hhigh, heq⟩ := h
      injection heq with heq
      exact .inr ⟨requested, lowPx, highPx, hlive, by rw [hkind]; simp [limitOf], hrequested, hlow, hhigh, heq.symm⟩
    · next hended =>
      injection h with h
      exact .inl ⟨h.symm, .inl (by simpa using hended)⟩

theorem resolvedRow_eq_ok (h : LedgerOfOrders.resolvedRow effectivePx exactEffectivePx old = .ok new) :
    (new = old ∧ (old.inFlight = false ∨ limitOf old.request.kind = none)) ∨
      ∃ px tif price, old.inFlight = true ∧ old.request.kind = .limit px tif ∧
        LedgerOfOrders.effectivePrice effectivePx exactEffectivePx = .ok price ∧
        new = { old with
          request := { old.request with
            kind := .limit effectivePx tif
            exactTerms := old.request.exactTerms.map (fun terms => { terms with limitPrice := some price }) }
          reservationLowPx := effectivePx
          reservationHighPx := effectivePx
          exactPriceRange := ⟨price, price⟩ } := by
  unfold resolvedRow at h
  split at h
  · next hkind =>
    injection h with h
    exact .inl ⟨h.symm, .inr (by rw [hkind]; rfl)⟩
  · next px tif hkind =>
    split at h
    · next hlive =>
      simp only [bind_eq_ok] at h
      obtain ⟨price, hprice, heq⟩ := h
      injection heq with heq
      exact .inr ⟨px, tif, price, hlive, hkind, hprice, heq.symm⟩
    · next hended =>
      injection h with h
      exact .inl ⟨h.symm, .inl (by simpa using hended)⟩

theorem KeepsPlace.amendedRow (h : LedgerOfOrders.amendedRow b spec requestedPx old = .ok new) :
    KeepsPlace old new := by
  rcases amendedRow_eq_ok h with ⟨rfl, _⟩ | ⟨_, _, _, _, _, _, _, _, rfl⟩
  · exact KeepsPlace.refl _
  · exact KeepsPlace.of_request rfl fun h => h

theorem KeepsPlace.resolvedRow (h : LedgerOfOrders.resolvedRow effectivePx exactEffectivePx old = .ok new) :
    KeepsPlace old new := by
  rcases resolvedRow_eq_ok h with ⟨rfl, _⟩ | ⟨_, _, _, _, _, _, rfl⟩
  · exact KeepsPlace.refl _
  · exact ⟨rfl, rfl, rfl, fun h => h⟩

end amendments

end LiquidityMigration.Ledger
