import LiquidityMigration.Ledger.Steps

/- The application of a record never meets a broken expectation: that a resident row's count of fills and both ends
   of its range have a binary64 (`OrderRec.Readable`) holds however the row came about (`RowStep.readable`), and the
   rest the check of the record has made sure of. So `tryApply` applies a record or refuses it with a text and the
   ledger as it was (`tryApply_refused`). -/
namespace LiquidityMigration.Ledger
open Numeric Checks Orders Portfolio LedgerOfOrders OrderRec

structure OrderDoubles (b : Binary64) (order : OpenOrderState) : Prop where
  price : PriceIsDouble b order.request
  low : b.IsDouble order.reservationLowPx
  high : b.IsDouble order.reservationHighPx

/-- The binary64 prices of a record are doubles, as the fields they stand in are. -/
def Record.Doubles (b : Binary64) : Record → Prop
  | .orderSent _ request _ _ => PriceIsDouble b request
  | .amendSent _ spec => ∀ px ∈ spec.px, b.IsDouble px
  | .amendResolved _ effectivePx _ => b.IsDouble effectivePx
  | .orderLineageRestored order => OrderDoubles b order
  | .segmentBase openOrders => ∀ order ∈ openOrders, OrderDoubles b order
  | _ => True

section prices
variable {b : Binary64} {px : F64}

theorem positive_eq (h : LedgerOfOrders.positive px) : ∃ v, px = .finite v ∧ 0 < v := by
  cases px with
  | finite v => exact ⟨v, rfl, h⟩
  | nonFinite => exact h.elim

theorem requestedPrice_spec {spec : AmendSpec} (hb : b.Lawful)
    (hspec : LedgerOfOrders.validateAmendment b spec = .ok ()) (hpx : spec.px = some px) (hdouble : b.IsDouble px) :
    ∃ requested, LedgerOfOrders.requestedPrice spec px = .ok requested ∧ Projects b requested px ∧
      Stored requested ∧ 0 < requested := by
  simp only [validateAmendment, ok_iff] at hspec
  obtain ⟨⟨hpos, _⟩, hterms⟩ := hspec
  obtain ⟨v, rfl, hv⟩ := positive_eq (hpos px hpx)
  unfold requestedPrice
  cases hexact : spec.exactTerms with
  | none => exact ⟨v, rfl, ⟨v, Binary64.IsNumber.toF64 hdouble, rfl⟩, hb.stored hdouble, hv⟩
  | some terms =>
    rw [hexact] at hterms
    simp only [refuseTerms_eq_ok, ExactAmendTerms.validateProjection, ok_iff] at hterms
    obtain ⟨_, quantity, _, limit, hlimit, _, hmatch⟩ := hterms
    have hlimitMatches := projectAll_matches.mp ⟨limit, hlimit, hmatch⟩
    rw [hpx] at hlimitMatches
    cases hprice : terms.limitPrice with
    | none =>
      rw [hprice] at hlimitMatches
      exact hlimitMatches.elim
    | some price =>
      rw [hprice] at hlimitMatches
      refine ⟨price, by simp [hprice], hlimitMatches.2, hlimitMatches.1.1, hlimitMatches.1.2.1⟩

theorem effectivePrice_spec {exactPx : Option ExactNumber} (hb : b.Lawful)
    (hprice : LedgerOfOrders.validateResolution b px exactPx = .ok ()) (hdouble : b.IsDouble px) :
    ∃ price, LedgerOfOrders.effectivePrice px exactPx = .ok price ∧ Projects b price px ∧ Stored price ∧ 0 < price := by
  simp only [validateResolution, ok_iff] at hprice
  obtain ⟨hpos, hexact⟩ := hprice
  obtain ⟨v, rfl, hv⟩ := positive_eq hpos
  unfold effectivePrice
  cases exactPx with
  | none => exact ⟨v, rfl, ⟨v, Binary64.IsNumber.toF64 hdouble, rfl⟩, hb.stored hdouble, hv⟩
  | some number =>
    simp only [ok_iff, refuseNumber_eq_ok, validateStorage_ok] at hexact
    obtain ⟨hstored, _, w, hw, heq⟩ := hexact
    injection heq with heq
    subst heq
    exact ⟨number.value, rfl, ⟨w, hw, rfl⟩, hstored, (hb.pos_iff hw).mp hv⟩

theorem restoredEnd_projects {request : OrderRequest} {v : ℚ} {price : Exact} (hv : b.IsNumber v)
    (hrequest : Projects b (requestPrice request) (limitPx request))
    (h : restoredEnd b (.finite v) (requestPrice request) = .ok price) :
    Projects b price (positiveOr (.finite v) (limitPx request)) := by
  rw [restoredEnd_eq] at h
  injection h with h
  subst h
  by_cases hpos : 0 < v
  · simp only [positiveOr, if_pos hpos]
    split
    · next hcanonical => exact ⟨v, hcanonical.resolve_left (not_le.mpr hpos), rfl⟩
    · exact ⟨v, hv.toF64, rfl⟩
  · simp only [positiveOr, if_neg hpos, if_pos (Or.inl (not_lt.mp hpos) : v ≤ 0 ∨ _)]
    exact hrequest

variable {order : OpenOrderState}

theorem restoredRange_projects {range : ExactPriceRange} (hb : b.Lawful)
    (hdoubles : OrderDoubles b order) (hvalid : validateRestored b order = .ok ())
    (hrange : restoredPriceRange b order = .ok range) :
    (order.exactPriceRange = some range ∧ Projects b range.low order.reservationLowPx ∧
        Projects b range.high order.reservationHighPx) ∨
      (order.exactPriceRange = none ∧ Projects b range.low (positiveOr order.reservationLowPx (limitPx order.request)) ∧
        Projects b range.high (positiveOr order.reservationHighPx (limitPx order.request))) := by
  obtain ⟨⟨low, hlow, _⟩, ⟨high, hhigh, _⟩, _, hprojects, hterms, _⟩ := validateRestored_eq_ok.mp hvalid
  cases hexact : order.exactPriceRange with
  | some stated =>
    simp only [restoredPriceRange, hexact] at hrange
    injection hrange with hrange
    subst hrange
    exact .inl ⟨rfl, hprojects stated hexact⟩
  | none =>
    simp only [restoredPriceRange, hexact, requestPriceRange_eq, ok_iff, exists_eq_left'] at hrange
    obtain ⟨lowPrice, hlowPrice, highPrice, hhighPrice, rfl⟩ := hrange
    have hrequest := requestPrice_projects hb hdoubles.price hterms
    have hlowDouble := hdoubles.low
    have hhighDouble := hdoubles.high
    rw [hlow] at hlowPrice hlowDouble ⊢
    rw [hhigh] at hhighPrice hhighDouble ⊢
    exact .inr ⟨rfl, restoredEnd_projects hlowDouble hrequest hlowPrice,
      restoredEnd_projects hhighDouble hrequest hhighPrice⟩

end prices

variable {b : Binary64}

theorem FrontierSound.mono {terms : Option ExactOrderTerms} {ended ended' : Bool}
    {frontier : OrderFillQuantity} (h : FrontierSound b terms ended frontier) (hended : ended = true → ended' = true) :
    FrontierSound b terms ended' frontier := by
  refine ⟨h.reads, ?_⟩
  intro quantity hquantity
  obtain ⟨t, ht, hle, hall, hleft⟩ := h.within quantity hquantity
  exact ⟨t, ht, hle, fun heq => hended (hall heq), hleft⟩

theorem FrontierSound.initial {request : OrderRequest} (hb : b.Lawful)
    (hterms : ∀ terms ∈ request.exactTerms, TermsMatch b terms request.toOrderRequest) :
    FrontierSound b request.exactTerms false (initial request) := by
  unfold Ledger.initial
  cases hexact : request.exactTerms with
  | none =>
    refine ⟨⟨0, by simp [projection, require, bind, Except.bind]⟩, ?_⟩
    intro quantity hquantity
    cases hquantity
  | some terms =>
    obtain ⟨hwire, v, hv, _⟩ := (hterms terms hexact).quantity
    refine ⟨⟨0, ?_⟩, ?_⟩
    · simp [projection, validateStorage_ok.mpr (hb.stored hb.zero), hb.zero.toF64, refuseNumber, require, bind,
        Except.bind, Except.mapError]
    · intro quantity hquantity
      injection hquantity with hquantity
      subst hquantity
      refine ⟨terms, rfl, hwire.2.1.le, ?_, v, by rwa [sub_zero]⟩
      intro hall
      exact absurd hall hwire.2.1.ne

/-- What the application of a record expects of a resident row. -/
structure OrderRec.Readable (b : Binary64) (row : OrderRec) : Prop where
  low : ∃ v, toF64 b.nearest row.exactPriceRange.low = .ok v
  high : ∃ v, toF64 b.nearest row.exactPriceRange.high = .ok v
  frontier : FrontierSound b row.request.exactTerms row.ending.isSome row.fillQuantity

theorem Projects.toF64 {b : Binary64} {x : Exact} {px : F64} (h : Projects b x px) :
    ∃ v, toF64 b.nearest x = .ok v := by
  obtain ⟨v, hv, _⟩ := h
  exact ⟨v, hv⟩

section readable
variable {b : Binary64} {row new : OrderRec}

theorem OrderRec.Readable.commitFill {qty : F64} {amounts : Option ExecutionAmounts} (h : row.Readable b)
    (hfill : row.commitFill b qty amounts = .ok new) : new.Readable b := by
  obtain ⟨frontier, done, hnext, rfl⟩ := commitFill_eq_ok hfill
  refine ⟨h.low, h.high, ?_⟩
  simp only [isSome_ending_commit]
  exact nextFill_sound hnext

theorem OrderRec.Readable.updatedRow {update : OrderUpdate} (h : row.Readable b)
    (hrow : LedgerOfOrders.updatedRow b update row = .ok new) : new.Readable b := by
  unfold LedgerOfOrders.updatedRow at hrow
  split at hrow
  · injection hrow with hrow
    exact hrow ▸ ⟨h.low, h.high, h.frontier⟩
  · injection hrow with hrow
    exact hrow ▸ ⟨h.low, h.high, h.frontier.mono (fun _ => rfl)⟩
  · injection hrow with hrow
    exact hrow ▸ ⟨h.low, h.high, h.frontier.mono (fun _ => rfl)⟩
  · exact h.commitFill hrow
  all_goals
    injection hrow with hrow
    exact hrow ▸ h

theorem readable_restored {order : OpenOrderState} (hb : b.Lawful) (hdoubles : OrderDoubles b order)
    (hvalid : validateRestored b order = .ok ()) (hrow : restoredRow b order = .ok new) : new.Readable b := by
  simp only [restoredRow, ok_iff] at hrow
  obtain ⟨range, hrange, rfl⟩ := hrow
  obtain ⟨_, _, _, _, _, hfrontier, _⟩ := validateRestored_eq_ok.mp hvalid
  have hended : FrontierSound b order.request.exactTerms (order.terminal.map TerminalOrderState.ending).isSome
      (restore order) := by simpa using hfrontier
  rcases restoredRange_projects hb hdoubles hvalid hrange with ⟨_, hlow, hhigh⟩ | ⟨_, hlow, hhigh⟩
  · exact ⟨hlow.toF64, hhigh.toF64, hended⟩
  · exact ⟨hlow.toF64, hhigh.toF64, hended⟩

theorem RowStep.readable {record : Record} {old : Option OrderRec} (hb : b.Lawful) (hdoubles : record.Doubles b)
    (h : RowStep b record old new) (hold : ∀ row ∈ old, row.Readable b) : new.Readable b := by
  cases h with
  | same _ => exact hold _ rfl
  | sent hterms =>
    have hmatch := checkTerms_eq_ok.mp hterms
    have hprice := (requestPrice_projects hb hdoubles hmatch).toF64
    exact ⟨hprice, hprice, FrontierSound.initial hb hmatch⟩
  | updated _ hrow => exact (hold _ rfl).updatedRow hrow
  | @recovered qty amounts row new hrow =>
    have hacked : ({ row with acked := true } : OrderRec).Readable b :=
      ⟨(hold _ rfl).low, (hold _ rfl).high, (hold _ rfl).frontier⟩
    exact hacked.commitFill hrow
  | amended _ _ hrow =>
    rcases amendedRow_eq_ok hrow with ⟨rfl, _⟩ | ⟨_, _, _, _, _, _, hlow, hhigh, rfl⟩
    · exact hold _ rfl
    · exact ⟨⟨_, hlow⟩, ⟨_, hhigh⟩, (hold _ rfl).frontier⟩
  | resolved hprice hrow =>
    rcases resolvedRow_eq_ok hrow with ⟨rfl, _⟩ | ⟨_, _, price, _, _, heffective, rfl⟩
    · exact hold _ rfl
    · obtain ⟨price', hprice', hprojects, _⟩ := effectivePrice_spec hb hprice hdoubles
      rw [heffective] at hprice'
      injection hprice' with hprice'
      subst hprice'
      refine ⟨hprojects.toF64, hprojects.toF64, (hold _ rfl).frontier.reads, ?_⟩
      intro quantity hquantity
      obtain ⟨t, ht, hle, hall, hleft⟩ := (hold _ rfl).frontier.within quantity hquantity
      refine ⟨{ t with limitPrice := some price }, ?_, hle, hall, hleft⟩
      simp only [ht, Option.map_some]
  | neverSent _ => exact ⟨(hold _ rfl).low, (hold _ rfl).high, (hold _ rfl).frontier.mono (fun _ => rfl)⟩
  | restated hmem hvalid hrow => exact readable_restored hb (hdoubles _ hmem) hvalid hrow
  | lineage _ _ hvalid hrow => exact readable_restored hb hdoubles hvalid hrow

end readable

namespace LedgerOfOrders

def Readable (b : Binary64) (ledger : LedgerOfOrders) : Prop := ∀ row ∈ ledger.orders, row.Readable b

section run
variable {b : Binary64} {ledger ledger' : LedgerOfOrders} {record : Record}

theorem Readable.accept (hb : b.Lawful) (hdoubles : record.Doubles b) (hr : ledger.Readable b)
    (h : ledger.accept b record = .ok ledger') : ledger'.Readable b := by
  intro new hnew
  refine RowStep.readable hb hdoubles (accept_row h (Table.get?_of_mem hnew)) ?_
  intro row hrow
  exact hr row (Table.get?_eq_some.mp hrow).1

theorem Readable.run {records : List Record} (hb : b.Lawful) (hdoubles : ∀ record ∈ records, record.Doubles b)
    (hr : ledger.Readable b) (h : ledger.run b records = .ok ledger') : ledger'.Readable b := by
  have halong : Along b (fun _ record => record.Doubles b) ledger records :=
    Along.of_forall fun record hmem _ => hdoubles record hmem
  exact halong.invariant (fun hr hdouble haccept => hr.accept hb hdouble haccept) hr h

theorem readable_empty (b : Binary64) : LedgerOfOrders.empty.Readable b := fun row hrow => absurd hrow (by simp [empty])

end run

def NoPanic {α : Type} (x : Except Failure α) : Prop := ∀ text, x ≠ .error (.panic text)

section noPanic
variable {α β : Type} {b : Binary64}

theorem NoPanic.bind {x : Except Failure α} {f : α → Except Failure β} (hx : NoPanic x)
    (hf : ∀ a, x = .ok a → NoPanic (f a)) : NoPanic (x >>= f) := by
  intro text h
  rcases bind_eq_error.mp h with h | ⟨a, ha, h⟩
  · exact hx text h
  · exact hf a ha text h

theorem noPanic_ok (a : α) : NoPanic (.ok a : Except Failure α) := by
  intro text h
  cases h

theorem noPanic_require {p : Prop} [Decidable p] (text : String) : NoPanic (require p (Failure.refused text)) := by
  intro text' h
  cases (require_eq_error.mp h).2

theorem noPanic_orError {o : Option α} (text : String) : NoPanic (orError o (Failure.refused text)) := by
  intro text' h
  cases (orError_eq_error.mp h).2

theorem noPanic_refuseNumber (x : Except ExactError α) : NoPanic (refuseNumber x) := by
  intro text h
  cases x <;> cases h

theorem noPanic_refuseTerms (x : Except OrderLegalityError α) : NoPanic (refuseTerms x) := by
  intro text h
  cases x <;> cases h

theorem noPanic_refused (text : String) : NoPanic (.error (.refused text) : Except Failure α) := by
  intro text' h
  cases h

theorem noPanic_projection (frontier : OrderFillQuantity) : NoPanic (projection b frontier) := by
  unfold projection
  split
  · exact (noPanic_refuseNumber _).bind (fun _ _ => (noPanic_refuseNumber _).bind
      (fun _ _ => (noPanic_require _).bind (fun _ _ => noPanic_ok _)))
  · exact (noPanic_require _).bind fun _ _ => noPanic_ok _
  · exact noPanic_refused _

theorem noPanic_nextFill (row : OrderRec) (qty : F64) (amounts : Option ExecutionAmounts) :
    NoPanic (row.nextFill b qty amounts) := by
  unfold nextFill
  split
  · exact noPanic_refused _
  · refine (noPanic_require _).bind (fun _ _ => NoPanic.bind ?_ (fun frontier _ => (noPanic_projection _).bind
      (fun filled _ => NoPanic.bind ?_ (fun _ _ => noPanic_ok _))))
    · unfold nextFrontier
      split
      · unfold exactFrontier
        exact (noPanic_refuseNumber _).bind (fun _ _ => (noPanic_refuseNumber _).bind (fun _ _ =>
          (noPanic_require _).bind (fun _ _ => (noPanic_orError _).bind (fun _ _ => (noPanic_require _).bind
            (fun _ _ => (noPanic_refuseNumber _).bind (fun _ _ => noPanic_ok _))))))
      · exact (noPanic_projection _).bind fun _ _ => noPanic_ok _
    · unfold isDone
      split
      · exact (noPanic_orError _).bind fun _ _ => noPanic_ok _
      · split <;> exact noPanic_ok _

theorem noPanic_checkTerms (request : OrderRequest) : NoPanic (checkTerms b request) := by
  unfold checkTerms
  split
  · exact noPanic_ok _
  · exact noPanic_refuseTerms _

theorem restoredPriceRange_total {order : OpenOrderState} {low high : ℚ}
    (hlow : order.reservationLowPx = .finite low)
    (hhigh : order.reservationHighPx = .finite high) : ∃ range, restoredPriceRange b order = .ok range := by
  unfold restoredPriceRange
  split
  · exact ⟨_, rfl⟩
  · rw [requestPriceRange_eq, hlow, hhigh]
    simp only [restoredEnd_eq]
    exact ⟨_, rfl⟩

theorem noPanic_validateRestored (order : OpenOrderState) : NoPanic (validateRestored b order) := by
  have hreservation : ∀ px, NoPanic (checkReservation px) := by
    intro px
    unfold checkReservation
    split
    · exact noPanic_require _
    · exact noPanic_refused _
  unfold validateRestored
  refine (hreservation _).bind (fun _ hlow => (hreservation _).bind (fun _ hhigh => NoPanic.bind ?_ (fun _ _ =>
    NoPanic.bind ?_ (fun _ _ => (noPanic_checkTerms _).bind (fun _ _ => ?_)))))
  · obtain ⟨low, hlowPx, _⟩ := checkReservation_eq_ok.mp hlow
    obtain ⟨high, hhighPx, _⟩ := checkReservation_eq_ok.mp hhigh
    obtain ⟨range, hrange⟩ := @restoredPriceRange_total b order low high hlowPx hhighPx
    unfold checkRange
    rw [hrange, requestPriceRange_eq]
    exact (noPanic_ok _).bind (fun _ _ => (noPanic_refuseNumber _).bind (fun _ _ => (noPanic_refuseNumber _).bind
      (fun _ _ => (noPanic_require _).bind (fun _ _ => (noPanic_ok _).bind (fun _ _ => noPanic_require _)))))
  · unfold checkProjections
    split
    · exact noPanic_ok _
    · exact (noPanic_refuseNumber _).bind (fun _ _ => (noPanic_require _).bind (fun _ _ =>
        (noPanic_refuseNumber _).bind (fun _ _ => noPanic_require _)))
  · unfold checkFrontier
    refine (noPanic_projection _).bind fun _ _ => (noPanic_require _).bind (fun _ _ => ?_)
    split
    · exact noPanic_ok _
    · exact (noPanic_orError _).bind (fun _ _ => (noPanic_require _).bind (fun _ _ =>
        (noPanic_refuseNumber _).bind (fun _ _ => noPanic_ok _)))

end noPanic

section expectations
variable {b : Binary64} {ledger : LedgerOfOrders} {record : Record} {row : OrderRec}

theorem snapshot_of_readable (h : row.Readable b) (nowMs : Int) : ∃ order, row.snapshot b nowMs = .ok order := by
  obtain ⟨v, hv⟩ := h.frontier.reads
  unfold snapshot filledQty
  rw [hv]
  exact ⟨_, rfl⟩

theorem noPanic_validateFillQuantities (id : String) (qty : F64) (amounts : Option ExecutionAmounts) :
    NoPanic (ledger.validateFillQuantities b id qty amounts) := by
  unfold validateFillQuantities
  split
  · exact noPanic_ok _
  · exact (noPanic_nextFill _ _ _).bind fun _ _ => noPanic_ok _

theorem noPanic_checkResident (hr : ledger.Readable b) (order : OpenOrderState) :
    NoPanic (ledger.checkResident b order) := by
  unfold checkResident
  split
  · exact noPanic_ok _
  · next known hknown =>
    refine NoPanic.bind ?_ fun _ _ => noPanic_require _
    obtain ⟨prior, hprior⟩ := snapshot_of_readable (hr known (Table.get?_eq_some.mp hknown).1) 0
    unfold residentSnapshot
    rw [hprior]
    refine (noPanic_ok _).bind fun _ _ => ?_
    split <;> exact noPanic_ok _

theorem noPanic_validateBase (orders : List OpenOrderState) : NoPanic (validateBase b orders) := by
  induction orders with
  | nil => exact noPanic_ok _
  | cons order orders ih => exact (noPanic_validateRestored order).bind fun _ _ => ih

theorem noPanic_validate (hr : ledger.Readable b) (record : Record) :
    NoPanic (ledger.validateRecordQuantities b record) := by
  unfold validateRecordQuantities
  split
  · exact noPanic_checkTerms _
  · unfold validateAmendment
    refine (noPanic_require _).bind fun _ _ => ?_
    split
    · exact noPanic_ok _
    · exact noPanic_refuseTerms _
  · unfold validateResolution
    refine (noPanic_require _).bind fun _ _ => ?_
    split
    · exact noPanic_ok _
    · exact (noPanic_refuseNumber _).bind (fun _ _ => (noPanic_refuseNumber _).bind (fun _ _ =>
        (noPanic_refuseNumber _).bind (fun _ _ => noPanic_require _)))
  · unfold validateAmended
    refine (noPanic_require _).bind fun _ _ => ?_
    split
    · exact noPanic_ok _
    · exact noPanic_refuseTerms _
  · exact noPanic_validateBase _
  · exact (noPanic_require _).bind (fun _ _ => (noPanic_checkResident hr _).bind
      (fun _ _ => noPanic_validateRestored _))
  · exact noPanic_validateFillQuantities _ _ _
  · exact noPanic_validateFillQuantities _ _ _
  · exact noPanic_ok _

variable {id : String}

theorem onOrder_total {f : OrderRec → Except Failure OrderRec}
    (h : ∀ row ∈ ledger.orders.get? id, ∃ new, f row = .ok new) : ∃ ledger', ledger.onOrder id f = .ok ledger' := by
  unfold onOrder
  split
  · exact ⟨_, rfl⟩
  · next row hrow =>
    obtain ⟨new, hnew⟩ := h row hrow
    rw [hnew]
    exact ⟨_, rfl⟩

theorem nextFill_of_valid {qty : F64} {amounts : Option ExecutionAmounts}
    (h : ledger.validateFillQuantities b id qty amounts = .ok ())
    (hrow : row ∈ ledger.orders.get? id) : ∃ frontier done, row.nextFill b qty amounts = .ok (frontier, done) := by
  unfold validateFillQuantities at h
  rw [hrow] at h
  simp only [bind_eq_ok] at h
  obtain ⟨⟨frontier, done⟩, hnext, _⟩ := h
  exact ⟨frontier, done, hnext⟩

theorem toF64_min {x y : Exact} (hx : ∃ v, toF64 b.nearest x = .ok v) (hy : ∃ v, toF64 b.nearest y = .ok v) :
    ∃ v, toF64 b.nearest (min x y) = .ok v := by
  rcases min_choice x y with h | h
  · rwa [h]
  · rwa [h]

theorem toF64_max {x y : Exact} (hx : ∃ v, toF64 b.nearest x = .ok v) (hy : ∃ v, toF64 b.nearest y = .ok v) :
    ∃ v, toF64 b.nearest (max x y) = .ok v := by
  rcases max_choice x y with h | h
  · rwa [h]
  · rwa [h]

theorem amendedRow_total {spec : AmendSpec} {px : F64} (hb : b.Lawful)
    (hspec : validateAmendment b spec = .ok ()) (hpx : spec.px = some px) (hdouble : b.IsDouble px)
    (hrow : row.Readable b) : ∃ new, amendedRow b spec px row = .ok new := by
  obtain ⟨requested, hrequested, hprojects, _⟩ := requestedPrice_spec hb hspec hpx hdouble
  obtain ⟨lowPx, hlow⟩ := toF64_min hrow.low hprojects.toF64
  obtain ⟨highPx, hhigh⟩ := toF64_max hrow.high hprojects.toF64
  unfold amendedRow
  split
  · exact ⟨_, rfl⟩
  · split
    · simp only [hrequested, hlow, hhigh, bind, Except.bind, expect, Except.mapError]
      exact ⟨_, rfl⟩
    · exact ⟨_, rfl⟩

theorem resolvedRow_total {exactPx : Option ExactNumber} (row : OrderRec) (hb : b.Lawful)
    (hprice : validateResolution b px exactPx = .ok ()) (hdouble : b.IsDouble px) :
    ∃ new, resolvedRow px exactPx row = .ok new := by
  obtain ⟨price, hprice, _⟩ := effectivePrice_spec hb hprice hdouble
  unfold resolvedRow
  split
  · exact ⟨_, rfl⟩
  · split
    · rw [hprice]
      exact ⟨_, rfl⟩
    · exact ⟨_, rfl⟩

theorem restoreSnapshotOrder_total (hvalid : validateRestored b order = .ok ()) :
    ∃ ledger', ledger.restoreSnapshotOrder b order = .ok ledger' := by
  obtain ⟨_, _, ⟨range, hrange, _⟩, _⟩ := validateRestored_eq_ok.mp hvalid
  unfold restoreSnapshotOrder restoredRow
  rw [hrange]
  exact ⟨_, rfl⟩

theorem restoreAll_total {orders : List OpenOrderState} (h : ∀ order ∈ orders, validateRestored b order = .ok ()) :
    ∃ ledger', orders.foldlM (fun ledger order => ledger.restoreSnapshotOrder b order) ledger = .ok ledger' := by
  induction orders generalizing ledger with
  | nil => exact ⟨ledger, rfl⟩
  | cons order orders ih =>
    obtain ⟨next, hnext⟩ := @restoreSnapshotOrder_total b ledger order (h order List.mem_cons_self)
    obtain ⟨ledger', hrest⟩ := @ih next fun o ho => h o (List.mem_cons_of_mem _ ho)
    exact ⟨ledger', by rw [List.foldlM_cons, bind_eq_ok]; exact ⟨next, hnext, hrest⟩⟩

theorem updatedRow_total {update : OrderUpdate}
    (hvalid : ledger.validateRecordQuantities b (.orderUpdate update) = .ok ())
    (hid : updateId update = some id) (hrow : row ∈ ledger.orders.get? id) :
    ∃ new, updatedRow b update row = .ok new := by
  unfold updatedRow
  split
  · exact ⟨_, rfl⟩
  · exact ⟨_, rfl⟩
  · exact ⟨_, rfl⟩
  · next k qty amounts =>
    injection hid with hid
    subst hid
    obtain ⟨frontier, done, hnext⟩ := nextFill_of_valid hvalid hrow
    exact commitFill_of_nextFill hnext
  all_goals exact ⟨_, rfl⟩

theorem applyValidated_of_valid (hb : b.Lawful) (hr : ledger.Readable b) (hdoubles : record.Doubles b)
    (hvalid : ledger.validateRecordQuantities b record = .ok ()) :
    ∃ ledger', (ledger.flag record).applyValidated b record = .ok ledger' := by
  have hreadable : ∀ {id row}, row ∈ ledger.orders.get? id → row.Readable b := by
    intro id row hrow
    exact hr row (Table.get?_eq_some.mp hrow).1
  cases record with
  | boot => exact ⟨_, rfl⟩
  | other => exact ⟨_, rfl⟩
  | orderSent entryWork request wireNs arrivalMid =>
    simp only [applyValidated, requestPriceRange_eq]
    exact ⟨_, rfl⟩
  | orderUpdate update =>
    simp only [applyValidated, applyUpdateValidated]
    split
    · exact ⟨_, rfl⟩
    · next id hid =>
      refine onOrder_total fun row hrow => updatedRow_total hvalid hid ?_
      rwa [flag_orders] at hrow
  | recoveredFill id qty amounts =>
    refine onOrder_total fun row hrow => ?_
    rw [flag_orders] at hrow
    obtain ⟨frontier, done, hnext⟩ := nextFill_of_valid hvalid hrow
    exact @commitFill_of_nextFill b { row with acked := true } qty amounts frontier done hnext
  | amendSent id spec =>
    simp only [applyValidated]
    split
    · exact ⟨_, rfl⟩
    · next px hpx =>
      refine onOrder_total fun row hrow => ?_
      rw [flag_orders] at hrow
      exact amendedRow_total hb hvalid hpx (hdoubles px hpx) (hreadable hrow)
  | amendResolved id px exactPx =>
    exact onOrder_total fun row _ => resolvedRow_total row hb hvalid hdoubles
  | note source text =>
    simp only [applyValidated]
    split
    · exact ⟨_, rfl⟩
    · exact onOrder_total fun row _ => ⟨_, rfl⟩
  | orderLineageRestored order =>
    simp only [validateRecordQuantities, ok_iff] at hvalid
    exact restoreSnapshotOrder_total hvalid.2.2
  | segmentBase openOrders => exact restoreAll_total (validateBase_eq_ok.mp hvalid)

theorem tryApply_refused {failure : Failure} (hb : b.Lawful) (hr : ledger.Readable b) (hdoubles : record.Doubles b)
    (h : (ledger.tryApply b record).1 = .error failure) :
    (∃ text, failure = .refused text) ∧ (ledger.tryApply b record).2 = ledger := by
  unfold tryApply at h ⊢
  cases hvalid : ledger.validateRecordQuantities b record with
  | error failure' =>
    rw [hvalid] at h
    injection h with h
    subst h
    refine ⟨?_, rfl⟩
    cases failure' with
    | refused text => exact ⟨text, rfl⟩
    | panic text => exact absurd hvalid (noPanic_validate hr record text)
  | ok u =>
    obtain ⟨ledger', hledger'⟩ := applyValidated_of_valid hb hr hdoubles hvalid
    unfold flag at hledger'
    rw [hvalid] at h
    simp only [hledger'] at h
    cases h

end expectations

end LedgerOfOrders
end LiquidityMigration.Ledger
