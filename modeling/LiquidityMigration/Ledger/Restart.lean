import LiquidityMigration.Ledger.Amends

/- A ledger taken down to a segment base and read back. A row comes back as it was, its retention stamp aside, when
   its prices agree (`Reserved`), its count of fills can be read (`Readable`), and its range and terms can be stored
   and sent (`Canonical`). Each `Restatable` record keeps the three. Such a row's snapshot is accepted
   (`Restates.validateRestored`), and `restoreAll_eq` is what a base makes of an empty ledger. -/
namespace LiquidityMigration.Ledger
open Numeric Checks Orders Portfolio Binary64 LedgerOfOrders List

/-- What a base checks of a row, beyond that its prices agree and its fills can be read. -/
structure OrderRec.Canonical (b : Binary64) (row : OrderRec) : Prop where
  lowStored : Stored row.exactPriceRange.low
  highStored : Stored row.exactPriceRange.high
  nonneg : 0 ≤ row.exactPriceRange.low
  lowStated : row.exactPriceRange.low = 0 → limitPx row.request = .finite 0
  terms : ∀ terms ∈ row.request.exactTerms, TermsMatch b terms row.request.toOrderRequest

def LedgerOfOrders.Restatable (ledger : LedgerOfOrders) : Record → Prop
  | .amendResolved id effectivePx exactEffectivePx =>
    ∀ row ∈ ledger.orders.get? id, row.inFlight = true → limitOf row.request.kind ≠ none →
      ∀ number ∈ exactEffectivePx,
        if row.request.exactTerms = none then F64.finite number.value = effectivePx else isDecimal number.value = true
  | .segmentBase openOrders => ∀ order ∈ openOrders, order.LowStated
  | .orderLineageRestored order => order.LowStated
  | _ => True

theorem LedgerOfOrders.Restatable.priceStated {ledger : LedgerOfOrders} {record : Record}
    (h : ledger.Restatable record) : ledger.PriceStated record := by
  cases record with
  | amendResolved id effectivePx exactEffectivePx =>
    intro row hrow hlive hlimit hterms number hnumber
    have hstated := h row hrow hlive hlimit number hnumber
    rwa [if_pos hterms] at hstated
  | segmentBase openOrders => exact h
  | orderLineageRestored order => exact h
  | _ => trivial

section canonical
variable {b : Binary64} {order : OpenOrderState} {old new : OrderRec}

theorem SamePrices.canonical (h : SamePrices old new) (hold : old.Canonical b) : new.Canonical b := by
  refine ⟨?_, ?_, ?_, ?_, ?_⟩
  · rw [h.range]
    exact hold.lowStored
  · rw [h.range]
    exact hold.highStored
  · rw [h.range]
    exact hold.nonneg
  · rw [h.range, h.request]
    exact hold.lowStated
  · rw [h.request]
    exact hold.terms

theorem Projects.limit_zero {x : Exact} {px : F64} (hb : b.Lawful) (h : Projects b x px) (hx : x = 0) :
    px = .finite 0 := by
  obtain ⟨v, hv, rfl⟩ := h
  rw [hx, hb.zero.toF64] at hv
  injection hv with hv
  rw [hv]

theorem positiveOr_zero {value fallback : F64} (h : positiveOr value fallback = .finite 0) : fallback = .finite 0 := by
  cases value with
  | nonFinite => exact h
  | finite v =>
    by_cases hv : 0 < v
    · simp only [positiveOr, if_pos hv] at h
      injection h with h
      exact absurd h hv.ne'
    · simpa only [positiveOr, if_neg hv] using h

section
variable (hb : b.Lawful)
include hb

theorem canonical_fresh {entryWork : Option WorkPolicy} {request : OrderRequest} {wireNs : Nat} {arrivalMid : F64}
    (hdouble : PriceIsDouble b request) (hterms : checkTerms b request = .ok ()) :
    (freshRow entryWork request wireNs arrivalMid).Canonical b := by
  have hmatch := checkTerms_eq_ok.mp hterms
  obtain ⟨hstored, hnonneg⟩ := requestPrice_stored hb hdouble hmatch
  exact ⟨hstored, hstored, hnonneg, (requestPrice_projects hb hdouble hmatch).limit_zero hb, hmatch⟩

theorem canonical_restored (hdoubles : OrderDoubles b order) (hstated : order.LowStated)
    (hvalid : validateRestored b order = .ok ()) (hrow : restoredRow b order = .ok new) : new.Canonical b := by
  obtain ⟨hlowPx, _⟩ := restoredRow_projects hb hdoubles hstated hvalid hrow
  simp only [restoredRow, ok_iff] at hrow
  obtain ⟨range, hrange, rfl⟩ := hrow
  obtain ⟨_, _, _, _, hterms, _⟩ := validateRestored_eq_ok.mp hvalid
  have hholds := restoredRange_holds hvalid hrange
  exact ⟨hholds.lowStored, hholds.highStored, hholds.nonneg, fun hzero => positiveOr_zero (hlowPx.limit_zero hb hzero),
    hterms⟩

theorem canonical_amended {spec : AmendSpec} {px : F64} (hdouble : b.IsDouble px)
    (hspec : LedgerOfOrders.validateAmendment b spec = .ok ()) (hpx : spec.px = some px) (hold : old.Canonical b)
    (hrow : LedgerOfOrders.amendedRow b spec px old = .ok new) : new.Canonical b := by
  rcases amendedRow_eq_ok hrow with ⟨rfl, _⟩ | ⟨requested, _, _, _, _, hrequested, _, _, rfl⟩
  · exact hold
  · obtain ⟨requested', hrequested', _, hstored, hpos⟩ := requestedPrice_spec hb hspec hpx hdouble
    rw [hrequested] at hrequested'
    injection hrequested' with hrequested'
    subst hrequested'
    refine ⟨?_, ?_, le_min hold.nonneg hpos.le, ?_, hold.terms⟩
    · exact min_rec' Stored hold.lowStored hstored
    · exact max_rec' Stored hold.highStored hstored
    · intro hzero
      rcases min_choice old.exactPriceRange.low requested with h | h
      · exact hold.lowStated (h ▸ hzero)
      · exact absurd (h ▸ hzero : requested = 0) hpos.ne'

theorem wire_effective {effectivePx : F64} {exactEffectivePx : Option ExactNumber} {price : Exact}
    (hdouble : b.IsDouble effectivePx)
    (hprice : LedgerOfOrders.validateResolution b effectivePx exactEffectivePx = .ok ())
    (heffective : LedgerOfOrders.effectivePrice effectivePx exactEffectivePx = .ok price)
    (hdecimal : ∀ number ∈ exactEffectivePx, isDecimal number.value = true) :
    Wire price ∧ Projects b price effectivePx := by
  obtain ⟨price', hprice', hprojects, hstored, hpos⟩ := effectivePrice_spec hb hprice hdouble
  rw [heffective] at hprice'
  injection hprice' with hprice'
  subst hprice'
  refine ⟨⟨hstored, hpos, ?_⟩, hprojects⟩
  cases hexact : exactEffectivePx with
  | some number =>
    rw [hexact] at heffective
    injection heffective with heffective
    exact heffective ▸ hdecimal number hexact
  | none =>
    -- a binary64 is a decimal
    simp only [validateResolution, ok_iff] at hprice
    obtain ⟨v, rfl, _⟩ := positive_eq hprice.1
    rw [hexact] at heffective
    injection heffective with heffective
    obtain ⟨k, hk⟩ := hb.dyadic hdouble
    exact heffective ▸ isDecimal_iff.mpr ⟨k, 0, by simpa using hk⟩

theorem canonical_resolved {effectivePx : F64} {exactEffectivePx : Option ExactNumber}
    (hdouble : b.IsDouble effectivePx)
    (hprice : LedgerOfOrders.validateResolution b effectivePx exactEffectivePx = .ok ()) (hold : old.Canonical b)
    (hdecimal : old.inFlight = true → limitOf old.request.kind ≠ none → old.request.exactTerms ≠ none →
      ∀ number ∈ exactEffectivePx, isDecimal number.value = true)
    (hrow : LedgerOfOrders.resolvedRow effectivePx exactEffectivePx old = .ok new) : new.Canonical b := by
  rcases resolvedRow_eq_ok hrow with ⟨rfl, _⟩ | ⟨px, tif, price, hlive, hkind, heffective, rfl⟩
  · exact hold
  · obtain ⟨price', hprice', _, hstored, hpos⟩ := effectivePrice_spec hb hprice hdouble
    rw [heffective] at hprice'
    injection hprice' with hprice'
    subst hprice'
    refine ⟨hstored, hstored, hpos.le, fun hzero => absurd hzero hpos.ne', ?_⟩
    intro terms hterms
    obtain ⟨before, hbefore, rfl⟩ := Option.map_eq_some_iff.mp hterms
    have hmatch := hold.terms before hbefore
    have hlimit := wire_effective hb hdouble hprice heffective
      (hdecimal hlive (by simp [hkind, limitOf]) (by simp [hbefore]))
    exact ⟨hmatch.quantity, hlimit, hmatch.sleeveStop, hmatch.physicalStop⟩

theorem RowStep.canonical {ledger : LedgerOfOrders} {record : Record} {id : String}
    (hdoubles : record.Doubles b) (hmeets : ledger.Restatable record) (h : RowStep b record (ledger.orders.get? id) new)
    (hold : ∀ row ∈ ledger.orders.get? id, row.Canonical b) : new.Canonical b := by
  generalize hrow : ledger.orders.get? id = row at h hold
  cases h with
  | same _ => exact hold _ rfl
  | sent hterms => exact canonical_fresh hb hdoubles hterms
  | updated _ hupdated => exact (SamePrices.updatedRow hupdated).canonical (hold _ rfl)
  | recovered hrecovered => exact (SamePrices.recoveredRow hrecovered).canonical (hold _ rfl)
  | amended hspec hpx hamended => exact canonical_amended hb (hdoubles _ hpx) hspec hpx (hold _ rfl) hamended
  | @resolved effectivePx exactEffectivePx row new hprice hresolved =>
    refine canonical_resolved hb hdoubles hprice (hold _ rfl) ?_ hresolved
    intro hlive hlimit hterms number hnumber
    have hknown : row ∈ ledger.orders.get? row.id := by rw [id_of_get? hrow, hrow]; rfl
    have hdecimal := hmeets row hknown hlive hlimit number hnumber
    rwa [if_neg hterms] at hdecimal
  | @neverSent source text row _ =>
    have hsame : SamePrices row { row with ending := some .neverSent } := ⟨rfl, rfl, rfl, rfl⟩
    exact hsame.canonical (hold _ rfl)
  | restated hmem hvalid hrestored => exact canonical_restored hb (hdoubles _ hmem) (hmeets _ hmem) hvalid hrestored
  | lineage _ _ hvalid hrestored => exact canonical_restored hb hdoubles hmeets hvalid hrestored

end

end canonical

/-- Everything a base checks of a row. -/
structure OrderRec.Restorable (b : Binary64) (row : OrderRec) : Prop where
  readable : row.Readable b
  reserved : row.Reserved b
  canonical : row.Canonical b

/-- The row as a base of the time `nowMs` restates it: one that has ended is given a retention stamp. -/
def OrderRec.restamped (nowMs : Int) (row : OrderRec) : OrderRec :=
  { row with terminalCheckpointMs := row.ending.map (fun _ => row.terminalCheckpointMs.getD nowMs) }

section restated
variable {b : Binary64} {row : OrderRec} {order : OpenOrderState}

theorem Projects.nonneg {x : Exact} {px : F64} (hb : b.Lawful) (h : Projects b x px) (hx : 0 ≤ x) :
    ∃ v, px = .finite v ∧ 0 ≤ v := by
  obtain ⟨v, hv, rfl⟩ := h
  exact ⟨v, rfl, hb.nonneg hv hx⟩

theorem OrderRec.Restorable.range_nonneg (h : row.Restorable b) :
    0 ≤ row.exactPriceRange.high := (h.canonical.nonneg.trans h.reserved.low).trans h.reserved.high

theorem Restates.validateRestored (hb : b.Lawful) (h : row.Restorable b) (hrestates : Restates b row order) :
    Ledger.validateRestored b order = .ok () := by
  have hrestore : restore order = row.fillQuantity := by simp [restore, hrestates.fillQuantity]
  have hterminal : order.terminal.isSome = row.ending.isSome := by rw [← hrestates.ending, Option.isSome_map]
  apply validateRestored_eq_ok.mpr
  rw [hrestore, hrestates.low, hrestates.high, hrestates.request, hterminal]
  refine ⟨h.reserved.lowPx.nonneg hb h.canonical.nonneg, h.reserved.highPx.nonneg hb h.range_nonneg, ?_, ?_,
    h.canonical.terms, h.readable.frontier, hrestates.filled⟩
  · refine ⟨row.exactPriceRange, by simp [restoredPriceRange, hrestates.range], ?_⟩
    exact ⟨h.canonical.lowStored, h.canonical.highStored, h.canonical.nonneg, h.reserved.low, h.reserved.high⟩
  · intro range hrange
    rw [hrestates.range] at hrange
    injection hrange with hrange
    exact hrange ▸ ⟨h.reserved.lowPx, h.reserved.highPx⟩

variable {nowMs : Int}

theorem restoredRow_snapshot (hb : b.Lawful) (h : row.Restorable b)
    (hsnapshot : row.snapshot b nowMs = .ok order) : restoredRow b order = .ok (row.restamped nowMs) := by
  obtain ⟨low, hlow, hlowNonneg⟩ := h.reserved.lowPx.nonneg hb h.canonical.nonneg
  obtain ⟨high, hhigh, hhighNonneg⟩ := h.reserved.highPx.nonneg hb h.range_nonneg
  have hlowPx := h.reserved.lowPx
  have hhighPx := h.reserved.highPx
  rw [hlow] at hlowPx
  rw [hhigh] at hhighPx
  have hlowKept : positiveOr row.reservationLowPx (limitPx row.request) = row.reservationLowPx := by
    rw [hlow]
    apply positiveOr_eq hlowNonneg
    intro hzero
    exact h.canonical.lowStated (hzero ▸ hlowPx).zero
  have hhighKept : positiveOr row.reservationHighPx (limitPx row.request) = row.reservationHighPx := by
    rw [hhigh]
    apply positiveOr_eq hhighNonneg
    intro hzero
    apply h.canonical.lowStated
    exact le_antisymm ((h.reserved.low.trans h.reserved.high).trans (hzero ▸ hhighPx).zero.le) h.canonical.nonneg
  have hstamp : order.terminal.map TerminalOrderState.retainedSinceMs =
      row.ending.map (fun _ => row.terminalCheckpointMs.getD nowMs) := by
    simp only [OrderRec.snapshot, ok_iff] at hsnapshot
    obtain ⟨filled, _, rfl⟩ := hsnapshot
    cases row.ending <;> rfl
  rw [(Restates.of_snapshot hsnapshot).restoredRow_eq, hlowKept, hhighKept, hstamp]
  rfl

end restated

namespace LedgerOfOrders
variable {b : Binary64} {ledger ledger' : LedgerOfOrders} {record : Record}

variable (b ledger) in
def Restorable : Prop := ∀ row ∈ ledger.orders, row.Restorable b

theorem Restorable.accept (hb : b.Lawful) (hdoubles : record.Doubles b) (hmeets : ledger.Restatable record)
    (hr : ledger.Restorable b) (h : ledger.accept b record = .ok ledger') : ledger'.Restorable b := by
  intro new hnew
  have hstep := accept_row h (Table.get?_of_mem hnew)
  have hold : ∀ row ∈ ledger.orders.get? new.id, row.Restorable b :=
    fun row hrow => hr row (Table.get?_eq_some.mp hrow).1
  exact ⟨hstep.readable hb hdoubles (fun row hrow => (hold row hrow).readable),
    hstep.reserved hb hdoubles hmeets.priceStated (fun row hrow => (hold row hrow).reserved),
    hstep.canonical hb hdoubles hmeets (fun row hrow => (hold row hrow).canonical)⟩

theorem Restorable.run {records : List Record} (hb : b.Lawful) (hdoubles : ∀ record ∈ records, record.Doubles b)
    (hmeets : Along b Restatable ledger records) (hr : ledger.Restorable b) (h : ledger.run b records = .ok ledger') :
    ledger'.Restorable b :=
  ((Along.of_forall (fun record hmem _ => hdoubles record hmem)).and hmeets).invariant
    (fun hr hrecord haccept => hr.accept hb hrecord.1 hrecord.2 haccept) hr h

theorem restoreAll_eq {base : List OpenOrderState} {rows : List OrderRec}
    (h : List.Forall₂ (fun order row => restoredRow b order = .ok row) base rows) :
    base.foldlM (fun ledger order => ledger.restoreSnapshotOrder b order) ledger =
      .ok (rows.foldl insertLiveOrder ledger) := by
  induction h generalizing ledger with
  | nil => rfl
  | cons hrow _ ih =>
    rw [foldlM_cons, restoreSnapshotOrder, hrow]
    exact ih

theorem orders_foldl_insert (rows : List OrderRec) :
    (rows.foldl insertLiveOrder ledger).orders = ledger.orders.putAll rows := by
  induction rows generalizing ledger with
  | nil => rfl
  | cons row rows ih => exact ih

theorem snapshots_total (hr : ledger.Restorable b) (nowMs : Int) : ∃ base, ledger.snapshots b nowMs = .ok base := by
  have hrows : ∀ rows : List OrderRec, (∀ row ∈ rows, row.Restorable b) →
      ∃ base, List.Forall₂ (fun row order => row.snapshot b nowMs = .ok order) rows base := by
    intro rows
    induction rows with
    | nil => exact fun _ => ⟨[], .nil⟩
    | cons row rows ih =>
      intro hall
      obtain ⟨order, horder⟩ := snapshot_of_readable (hall row mem_cons_self).readable nowMs
      obtain ⟨base, hbase⟩ := ih fun r hmem => hall r (mem_cons_of_mem _ hmem)
      exact ⟨order :: base, .cons horder hbase⟩
  obtain ⟨base, hbase⟩ := hrows ledger.orders.rows hr
  exact ⟨base, mapM_eq_ok.mpr hbase⟩

theorem accept_snapshots (hb : b.Lawful) (hr : ledger.Restorable b) {nowMs : Int} {base : List OpenOrderState}
    (hbase : ledger.snapshots b nowMs = .ok base) :
    ∃ restored, LedgerOfOrders.empty.tryApply b (.segmentBase base) = (.ok (), restored) ∧
      restored.orders.rows = ledger.orders.rows.map (OrderRec.restamped nowMs) := by
  have hpairs : List.Forall₂ (fun order row => validateRestored b order = .ok () ∧
      restoredRow b order = .ok (row.restamped nowMs)) base ledger.orders.rows := by
    have hrows := (forall₂_and_left _ _).mpr ⟨hr, mapM_eq_ok.mp hbase⟩
    refine hrows.flip.imp ?_
    intro order row hrow
    exact ⟨(Restates.of_snapshot hrow.2).validateRestored hb hrow.1, restoredRow_snapshot hb hrow.1 hrow.2⟩
  obtain ⟨hvalid, hrestored⟩ := (forall₂_and_left _ _).mp hpairs
  refine ⟨_, tryApply_eq_ok.mpr (accept_eq_ok.mpr ⟨validateBase_eq_ok.mpr hvalid,
    restoreAll_eq (forall₂_map_right_iff.mpr hrestored)⟩), ?_⟩
  -- the rows put into an empty table are those of the ledger's table, restamped
  have htable := (ledger.orders.update (OrderRec.restamped nowMs) (fun _ => rfl)).putAll_rows
  rw [orders_foldl_insert]
  exact congrArg Table.rows htable

theorem indexed_restamped {nowMs : Int} (hi : ledger.Indexed) (hi' : ledger'.Indexed)
    (hrows : ledger'.orders.rows = ledger.orders.rows.map (OrderRec.restamped nowMs)) :
    ledger'.openingSymbols = ledger.openingSymbols ∧ ledger'.openingStopLevels = ledger.openingStopLevels := by
  refine ⟨Tally.ext_count ?_, Tally.ext_count ?_⟩
  · intro k
    rw [hi'.symbols k, hi.symbols k, hrows, filterMap_map]
    rfl
  · intro k
    rw [hi'.stops k, hi.stops k, hrows, filterMap_map]
    rfl

/-- **A ledger comes back from its own base.** After any records that leave every row restatable, the base that
    restates every order is accepted by an empty ledger and rebuilds the orders, their retention stamps aside, and both
    indexes. -/
theorem restart_equivalence (hb : b.Lawful) {records : List Record} (hdoubles : ∀ record ∈ records, record.Doubles b)
    (hmeets : Along b Restatable LedgerOfOrders.empty records)
    (hrun : LedgerOfOrders.empty.run b records = .ok ledger) (nowMs : Int) :
    ∃ base restored, ledger.snapshots b nowMs = .ok base ∧
      LedgerOfOrders.empty.tryApply b (.segmentBase base) = (.ok (), restored) ∧
      restored.orders.rows = ledger.orders.rows.map (OrderRec.restamped nowMs) ∧
      restored.openingSymbols = ledger.openingSymbols ∧ restored.openingStopLevels = ledger.openingStopLevels := by
  have hr : ledger.Restorable b :=
    Restorable.run hb hdoubles hmeets (fun row hrow => absurd hrow (by simp [empty])) hrun
  obtain ⟨base, hbase⟩ := snapshots_total hr nowMs
  obtain ⟨restored, happly, hrows⟩ := accept_snapshots hb hr hbase
  have hrestored : restored.Indexed := Indexed.empty.accept (tryApply_eq_ok.mp happly)
  exact ⟨base, restored, hbase, happly, hrows, indexed_restamped (Indexed.empty.run hrun) hrestored hrows⟩

theorem restart_equivalence_twice :
    LedgerOfOrders.empty.run Binary64.nearestEven amendedTwice = .ok (reservedAt 2 ⟨1, 3⟩ (.finite 1) (.finite 3)) ∧
      ∃ base restored, (reservedAt 2 ⟨1, 3⟩ (.finite 1) (.finite 3)).snapshots Binary64.nearestEven 5 = .ok base ∧
        LedgerOfOrders.empty.tryApply Binary64.nearestEven (.segmentBase base) = (.ok (), restored) := by
  have hrun : empty.run nearestEven amendedTwice =
      .ok (reservedAt 2 ⟨1, 3⟩ (.finite 1) (.finite 3)) := by decide +kernel
  have hmeets : Along nearestEven Restatable empty amendedTwice :=
    ⟨trivial, fun _ _ => ⟨trivial, fun _ _ => ⟨trivial, fun _ _ => trivial⟩⟩⟩
  obtain ⟨base, restored, hbase, happly, _⟩ :=
    restart_equivalence nearestEven_lawful amendedTwice_doubles hmeets hrun 5
  exact ⟨hrun, base, restored, hbase, happly⟩

/-- The base of a ledger with an order that was resolved at exactly a tenth and has no terms to state it. -/
theorem own_base_refused : LedgerOfOrders.empty.run Binary64.nearestEven
        [.orderSent none (limitOrder tenth) 7 (.finite 3),
          .amendResolved "a" (.finite tenth) (some ⟨1 / 10, .venueDecimal⟩)] =
      .ok (reservedAt tenth ⟨1 / 10, 1 / 10⟩ (.finite tenth) (.finite tenth)) ∧
    ∃ base, (reservedAt tenth ⟨1 / 10, 1 / 10⟩ (.finite tenth) (.finite tenth)).snapshots Binary64.nearestEven 0 =
      .ok base ∧
      (LedgerOfOrders.empty.tryApply Binary64.nearestEven (.segmentBase base)).1 =
        .error (.refused "reservation price range excludes the current request") := by
  refine ⟨by decide +kernel, [⟨limitOrder tenth, none, 7, .finite 3, false, .finite 0,
    some (.legacyBinary64 (.finite 0)),
    .finite tenth, .finite tenth, some ⟨1 / 10, 1 / 10⟩, none⟩], by decide +kernel, by decide +kernel⟩

end LedgerOfOrders
end LiquidityMigration.Ledger
