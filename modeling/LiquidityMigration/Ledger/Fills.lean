import LiquidityMigration.Ledger.Readable

/- The life of one order in the log, from its send on: it is not sent again under its id, and a base restates it as
   it stands (`Keeps`). Then it stays in the ledger and its row changes only in the ways of `RowStep`. Sent with
   exact terms and filled with exact amounts only, it counts them exactly (`Tracked`), and the fill that makes it
   whole, and none before, ends it (`exact_fill_frontier`). A base that states the order as it was before a fill is
   accepted all the same, and the fill is not counted any more (`base_forgets_fill`). -/
namespace LiquidityMigration.Ledger
open Numeric Checks Orders Portfolio Binary64

namespace LedgerOfOrders

/-- A record that goes on with the life of the order `id`. -/
def Keeps (b : Binary64) (id : String) (ledger : LedgerOfOrders) : Record → Prop
  | .orderSent _ request _ _ => request.clientOrderId ≠ id
  | .segmentBase openOrders =>
    (∃ order ∈ openOrders, order.request.clientOrderId = id) ∧
      ∀ order ∈ openOrders, order.request.clientOrderId = id →
        ∃ row nowMs, ledger.orders.get? id = some row ∧ row.snapshot b nowMs = .ok order
  | _ => True

section life
variable {b : Binary64} {ledger ledger' : LedgerOfOrders} {record : Record} {row new : OrderRec} {id : String}

theorem insertLiveOrder_present (k : String) (h : ∃ row, ledger.orders.get? k = some row) :
    ∃ row, (ledger.insertLiveOrder new).orders.get? k = some row := by
  simp only [insertLiveOrder, Table.get?_put]
  split
  · exact ⟨_, rfl⟩
  · exact h

theorem onOrder_present {f : OrderRec → Except Failure OrderRec} {k : String} (h : ledger.onOrder k f = .ok ledger')
    (hrow : ∃ row, ledger.orders.get? id = some row) : ∃ row, ledger'.orders.get? id = some row := by
  rcases onOrder_eq_ok h with ⟨_, rfl⟩ | ⟨row, new, _, _, rfl⟩
  · exact hrow
  · simp only [change, Table.get?_put]
    split
    · exact ⟨_, rfl⟩
    · exact hrow

theorem restoreAll_present {orders : List OpenOrderState}
    (h : orders.foldlM (fun ledger order => ledger.restoreSnapshotOrder b order) ledger = .ok ledger')
    (hrow : (∃ row, ledger.orders.get? id = some row) ∨ ∃ order ∈ orders, order.request.clientOrderId = id) :
    ∃ row, ledger'.orders.get? id = some row := by
  induction orders generalizing ledger with
  | nil =>
    injection h with h
    exact h ▸ hrow.resolve_right (by simp)
  | cons order orders ih =>
    rw [List.foldlM_cons, bind_eq_ok] at h
    obtain ⟨next, hnext, hrest⟩ := h
    obtain ⟨row, hrestored, rfl⟩ := restoreSnapshotOrder_eq_ok hnext
    apply ih hrest
    rcases hrow with hrow | ⟨order', hmem, hid⟩
    · exact .inl (insertLiveOrder_present id hrow)
    · rcases List.mem_cons.mp hmem with rfl | hmem
      · refine .inl ⟨row, ?_⟩
        simp only [insertLiveOrder, Table.get?_put]
        rw [if_pos (by rw [id_of_restoredRow hrestored, hid])]
      · exact .inr ⟨order', hmem, hid⟩

theorem accept_keeps (hkeeps : Keeps b id ledger record) (h : ledger.accept b record = .ok ledger')
    (hrow : ∃ row, ledger.orders.get? id = some row) : ∃ row, ledger'.orders.get? id = some row := by
  have hflag : ∃ row, (ledger.flag record).orders.get? id = some row := by rwa [flag_orders]
  rcases applyValidated_cases (accept_eq_ok.mp h).2 with ⟨boots, rfl⟩ | ⟨k, f, -, hon⟩ | ⟨row, rfl⟩ |
    ⟨orders, rfl, hall⟩
  · exact hflag
  · exact onOrder_present hon hflag
  · exact insertLiveOrder_present id hflag
  · exact restoreAll_present hall (.inr hkeeps.1)

theorem Keeps.restates {openOrders : List OpenOrderState} {order : OpenOrderState}
    (hkeeps : Keeps b id ledger (.segmentBase openOrders)) (hrow : ledger.orders.get? id = some row)
    (hmem : order ∈ openOrders) (hid : order.request.clientOrderId = id) : Restates b row order := by
  obtain ⟨row', nowMs, hrow', hsnapshot⟩ := hkeeps.2 order hmem hid
  rw [hrow] at hrow'
  injection hrow' with hrow'
  exact Restates.of_snapshot (hrow' ▸ hsnapshot)

end life

variable (id : String)

/-- The amounts of a fill of the order `id`, where the record is one. -/
def fillOf : Record → Option (Option ExecutionAmounts)
  | .orderUpdate (.fill k _ amounts) => if k = id then some amounts else none
  | .recoveredFill k _ amounts => if k = id then some amounts else none
  | _ => none

/-- The exact quantity that a record fills of the order `id`. -/
def fillValue (record : Record) : Exact :=
  match fillOf id record with
  | some (some amounts) => amounts.quantity.value
  | _ => 0

def filled (records : List Record) : Exact := (records.map (fillValue id)).sum

@[simp] theorem filled_nil : filled id [] = 0 := rfl

theorem filled_cons (record : Record) (records : List Record) :
    filled id (record :: records) = fillValue id record + filled id records := by
  simp [filled]

theorem filled_append (records more : List Record) :
    filled id (records ++ more) = filled id records + filled id more := by
  simp [filled]

/-- The row of an order sent for `quantity` that counts its fills exactly. -/
structure Tracked (quantity filled : Exact) (row : OrderRec) : Prop where
  frontier : row.fillQuantity = .exact filled
  terms : ∃ terms, row.request.exactTerms = some terms ∧ terms.quantity = quantity
  within : filled ≤ quantity
  ended : row.ending = some .filled → filled = quantity

namespace Tracked
variable {b : Binary64} {ledger ledger' : LedgerOfOrders} {record : Record} {row new : OrderRec} {id : String}
  {quantity sum : Exact}

theorem commitFill {qty : F64} {amounts : ExecutionAmounts} (h : Tracked quantity sum row)
    (hfill : row.commitFill b qty (some amounts) = .ok new) :
    Tracked quantity (sum + amounts.quantity.value) new ∧
      (sum + amounts.quantity.value = quantity → new.ending = some .filled) := by
  obtain ⟨frontier, done, hnext, rfl⟩ := commitFill_eq_ok hfill
  obtain ⟨terms, hterms, rfl, hpos, hle, hdone⟩ := nextFill_exact h.frontier hnext
  obtain ⟨terms', hterms', hquantity⟩ := h.terms
  rw [hterms] at hterms'
  injection hterms' with hterms'
  subst hterms'
  rw [hquantity] at hle hdone
  refine ⟨⟨rfl, ⟨terms, hterms, hquantity⟩, hle, ?_⟩, ?_⟩
  · intro hended
    cases done with
    | true => exact hdone.mp rfl
    | false =>
      -- an order that had ended as filled takes no further fill
      have hwhole := h.ended hended
      exact absurd hle (not_le.mpr (by linarith))
  · intro hall
    simp [hdone.mpr hall]

theorem other (h : Tracked quantity sum row) (hfrontier : new.fillQuantity = row.fillQuantity)
    (hterms : new.request.exactTerms = row.request.exactTerms)
    (hended : new.ending = some .filled → row.ending = some .filled) : Tracked quantity sum new :=
  ⟨hfrontier ▸ h.frontier, hterms ▸ h.terms, h.within, fun hfilled => h.ended (hended hfilled)⟩

theorem restated {order : OpenOrderState} (h : Tracked quantity sum row) (hrestates : Restates b row order)
    (hrow : restoredRow b order = .ok new) : Tracked quantity sum new := by
  rw [hrestates.restoredRow_eq] at hrow
  injection hrow with hrow
  rw [← hrow]
  exact h.other rfl rfl fun h => h

theorem of_no_fill (h : Tracked quantity sum new) (hnone : fillOf id record = none) :
    Tracked quantity (sum + fillValue id record) new ∧
      (fillOf id record ≠ none → sum + fillValue id record = quantity → new.ending = some .filled) := by
  have hvalue : fillValue id record = 0 := by
    unfold fillValue
    rw [hnone]
  rw [hvalue, add_zero]
  exact ⟨h, fun hfill => absurd hnone hfill⟩

theorem of_fill {amounts : ExecutionAmounts} (hvalue : fillOf id record = some (some amounts))
    (h : Tracked quantity (sum + amounts.quantity.value) new ∧
      (sum + amounts.quantity.value = quantity → new.ending = some .filled)) :
    Tracked quantity (sum + fillValue id record) new ∧
      (fillOf id record ≠ none → sum + fillValue id record = quantity → new.ending = some .filled) := by
  have hfill : fillValue id record = amounts.quantity.value := by
    unfold fillValue
    rw [hvalue]
  rw [hfill]
  exact ⟨h.1, fun _ => h.2⟩

theorem fillOf_of_leaves (h : record.Leaves id) : fillOf id record = none := by
  cases record with
  | orderUpdate update =>
    cases update with
    | fill k qty amounts => simpa [Record.Leaves, updateId, fillOf] using h
    | _ => rfl
  | recoveredFill k qty amounts => simpa [Record.Leaves, fillOf] using h
  | _ => rfl

section
variable (h : Tracked quantity sum row)
include h

theorem step (hid : row.id = id) (hnewId : new.id = id)
    (hrow : ledger.orders.get? id = some row) (hkeeps : Keeps b id ledger record)
    (hexact : ∀ amounts, fillOf id record = some amounts → amounts ≠ none)
    (hstep : RowStep b record (some row) new) :
    Tracked quantity (sum + fillValue id record) new ∧
      (fillOf id record ≠ none → sum + fillValue id record = quantity → new.ending = some .filled) := by
  subst hid
  cases hstep with
  | same hleaves => exact h.of_no_fill (fillOf_of_leaves hleaves)
  | sent _ => exact absurd hnewId hkeeps
  | @updated update row new hid hupdated =>
    unfold updatedRow at hupdated
    split at hupdated
    case h_4 k qty amounts =>
      injection hid with hid
      have hfill : fillOf row.id (.orderUpdate (.fill k qty amounts)) = some amounts := by simp [fillOf, hid]
      cases amounts with
      | none => exact absurd rfl (hexact none hfill)
      | some amounts => exact of_fill hfill (h.commitFill hupdated)
    all_goals
      injection hupdated with hupdated
      rw [← hupdated]
      refine of_no_fill (h.other rfl rfl ?_) rfl
      intro hended
      first | exact hended | cases hended
  | @recovered qty amounts row new hrecovered =>
    have hfill : fillOf row.id (.recoveredFill row.id qty amounts) = some amounts := by simp [fillOf]
    cases amounts with
    | none => exact absurd rfl (hexact none hfill)
    | some amounts =>
      have hacked : Tracked quantity sum { row with acked := true } := h.other rfl rfl fun h => h
      exact of_fill hfill (hacked.commitFill hrecovered)
  | amended _ _ hamended =>
    refine of_no_fill ?_ rfl
    rcases amendedRow_eq_ok hamended with ⟨rfl, _⟩ | ⟨_, _, _, _, _, _, _, _, rfl⟩
    · exact h
    · exact h.other rfl rfl fun h => h
  | resolved _ hresolved =>
    refine of_no_fill ?_ rfl
    rcases resolvedRow_eq_ok hresolved with ⟨rfl, _⟩ | ⟨_, _, price, _, _, _, rfl⟩
    · exact h
    · obtain ⟨terms, hterms, hquantity⟩ := h.terms
      refine ⟨h.frontier, ⟨{ terms with limitPrice := some price }, ?_, hquantity⟩, h.within, h.ended⟩
      simp only [hterms, Option.map_some]
  | neverSent _ =>
    refine of_no_fill (h.other rfl rfl ?_) rfl
    intro hended
    cases hended
  | restated hmem _ hrestored =>
    refine of_no_fill (h.restated (hkeeps.restates hrow hmem ?_) hrestored) rfl
    rw [← id_of_restoredRow hrestored, hnewId]
  | lineage _ hresident _ hrestored =>
    exact of_no_fill (h.restated (Restates.of_resident (hresident row rfl)) hrestored) rfl

theorem run {records : List Record} (hrow : ledger.orders.get? id = some row)
    (hkeeps : Along b (Keeps b id) ledger records)
    (hexact : ∀ record ∈ records, ∀ amounts, fillOf id record = some amounts → amounts ≠ none)
    (hrun : ledger.run b records = .ok ledger') :
    ∃ new, ledger'.orders.get? id = some new ∧ Tracked quantity (sum + filled id records) new := by
  induction records generalizing ledger row sum with
  | nil =>
    injection hrun with hrun
    subst hrun
    exact ⟨row, hrow, by rwa [filled_nil, add_zero]⟩
  | cons record records ih =>
    obtain ⟨next, hnext, hrest⟩ := run_cons.mp hrun
    obtain ⟨row', hrow'⟩ := accept_keeps hkeeps.1 hnext ⟨row, hrow⟩
    have hstep := accept_row hnext hrow'
    rw [hrow] at hstep
    obtain ⟨htracked, _⟩ := h.step (id_of_get? hrow) (id_of_get? hrow') hrow hkeeps.1
      (hexact record List.mem_cons_self) hstep
    obtain ⟨new, hnew, hall⟩ := ih htracked hrow' (hkeeps.2 next hnext)
      (fun r hr => hexact r (List.mem_cons_of_mem _ hr)) hrest
    exact ⟨new, hnew, by rwa [filled_cons, ← add_assoc]⟩

theorem run_last {records : List Record} (hrow : ledger.orders.get? id = some row)
    (hkeeps : Along b (Keeps b id) ledger (records ++ [record]))
    (hexact : ∀ r ∈ records ++ [record], ∀ amounts, fillOf id r = some amounts → amounts ≠ none)
    (hrun : ledger.run b (records ++ [record]) = .ok ledger') (hnew : ledger'.orders.get? id = some new)
    (hfill : fillOf id record ≠ none) (hall : sum + filled id (records ++ [record]) = quantity) :
    new.ending = some .filled := by
  obtain ⟨next, hfirst, hlast⟩ := run_append.mp hrun
  obtain ⟨hkeepsFirst, hkeepsLast⟩ := hkeeps.append hfirst
  obtain ⟨row', hrow', htracked⟩ := h.run hrow hkeepsFirst
    (fun r hr => hexact r (List.mem_append_left _ hr)) hfirst
  obtain ⟨last, haccept, hnil⟩ := run_cons.mp hlast
  injection hnil with hnil
  subst hnil
  have hstep := accept_row haccept hnew
  rw [hrow'] at hstep
  refine (htracked.step (id_of_get? hrow') (id_of_get? hnew) hrow' hkeepsLast.1
    (hexact record (by simp)) hstep).2 hfill ?_
  rw [← hall, filled_append, filled_cons, filled_nil, add_zero, add_assoc]

theorem remainingExact : ∃ remaining, row.remainingExact b = .ok remaining ∧ sum + remaining = quantity := by
  obtain ⟨terms, hterms, hquantity⟩ := h.terms
  refine ⟨max (terms.quantity - sum) 0, ?_, ?_⟩
  · simp [OrderRec.remainingExact, h.frontier, hterms, orError, bind, Except.bind]
  · rw [hquantity, max_eq_left (sub_nonneg.mpr h.within)]
    ring

end

end Tracked

section frontier
variable {b : Binary64} {ledger : LedgerOfOrders}

theorem tracked_fresh {entryWork : Option WorkPolicy} {request : OrderRequest} {wireNs : Nat} {arrivalMid : F64}
    {terms : ExactOrderTerms} (hterms : request.exactTerms = some terms) (hcheck : checkTerms b request = .ok ()) :
    Tracked terms.quantity 0 (freshRow entryWork request wireNs arrivalMid) := by
  obtain ⟨hwire, _⟩ := (checkTerms_eq_ok.mp hcheck terms hterms).quantity
  refine ⟨?_, ⟨terms, hterms, rfl⟩, hwire.2.1.le, ?_⟩
  · simp [freshRow, initial, hterms]
  · intro hended
    cases hended

/-- An order sent with exact terms, whose fills all carry exact amounts, has filled the sum of them,
which is not above what was asked for; it is ended as filled by the fill that reaches the whole, and not
before. And whatever record comes next, it is applied, or refused with the ledger as it was. -/
theorem exact_fill_frontier (hb : b.Lawful) {records : List Record} (hdoubles : ∀ record ∈ records, record.Doubles b)
    (hrun : LedgerOfOrders.empty.run b records = .ok ledger) :
    (∀ before after entryWork request wireNs arrivalMid terms,
      records = before ++ .orderSent entryWork request wireNs arrivalMid :: after →
      request.exactTerms = some terms →
      (∀ sent, LedgerOfOrders.empty.run b (before ++ [.orderSent entryWork request wireNs arrivalMid]) = .ok sent →
        Along b (Keeps b request.clientOrderId) sent after) →
      (∀ record ∈ after, ∀ amounts, fillOf request.clientOrderId record = some amounts → amounts ≠ none) →
      ∃ row, ledger.orders.get? request.clientOrderId = some row ∧
        row.fillQuantity = .exact (filled request.clientOrderId after) ∧
        filled request.clientOrderId after ≤ terms.quantity ∧
        (∃ remaining, row.remainingExact b = .ok remaining ∧
          filled request.clientOrderId after + remaining = terms.quantity) ∧
        (row.ending = some .filled → filled request.clientOrderId after = terms.quantity) ∧
        ∀ earlier last, after = earlier ++ [last] → fillOf request.clientOrderId last ≠ none →
          filled request.clientOrderId after = terms.quantity → row.ending = some .filled) ∧
      ∀ record failure, record.Doubles b → (ledger.tryApply b record).1 = .error failure →
        (∃ text, failure = .refused text) ∧ (ledger.tryApply b record).2 = ledger := by
  refine ⟨?_, ?_⟩
  · intro before after entryWork request wireNs arrivalMid terms hrecords hterms hkeeps hexact
    subst hrecords
    obtain ⟨prior, hbefore, hrest⟩ := run_append.mp hrun
    obtain ⟨sent, hsent, hafter⟩ := run_cons.mp hrest
    have hsentRun : LedgerOfOrders.empty.run b (before ++ [.orderSent entryWork request wireNs arrivalMid]) =
        .ok sent :=
      run_append.mpr ⟨prior, hbefore, run_cons.mpr ⟨sent, hsent, run_nil⟩⟩
    obtain ⟨hcheck, happly⟩ := accept_eq_ok.mp hsent
    have hfresh : sent.orders.get? request.clientOrderId = some (freshRow entryWork request wireNs arrivalMid) := by
      simp only [applyValidated, requestPriceRange_eq, ok_iff, exists_eq_left'] at happly
      subst happly
      simp only [insertLiveOrder, Table.get?_put]
      exact if_pos rfl
    have htracked := @tracked_fresh b entryWork request wireNs arrivalMid terms hterms hcheck
    obtain ⟨row, hrow, hrowTracked⟩ := htracked.run hfresh (hkeeps sent hsentRun) hexact hafter
    rw [zero_add] at hrowTracked
    refine ⟨row, hrow, hrowTracked.frontier, hrowTracked.within, hrowTracked.remainingExact, hrowTracked.ended, ?_⟩
    intro earlier last hsplit hfill hall
    subst hsplit
    exact htracked.run_last hfresh (hkeeps sent hsentRun) hexact hafter hrow hfill (by rw [zero_add, hall])
  · intro record failure hdouble hrefused
    exact tryApply_refused hb ((readable_empty b).run hb hdoubles hrun) hdouble hrefused

end frontier

def marketOrder : OrderRequest where
  exactTerms := some ⟨2, none, none, none, .canonicalPortfolio⟩
  sleeveEffect := none
  side := .buy
  qty := .finite 2
  kind := .market
  stop := none
  clientOrderId := "a"
  strategy := 0
  symbol := 0
  reduceOnly := false
  closePosition := false

def halfFill : Record := .orderUpdate
    (.fill "a" (.finite 1) (some ⟨.unknown, ⟨1, .venueDecimal⟩, ⟨3, .venueDecimal⟩, none⟩))

def halves : List Record := [.orderSent none marketOrder 7 (.finite 3), halfFill, halfFill]

theorem exact_fill_frontier_halves : ∃ ledger row, LedgerOfOrders.empty.run Binary64.nearestEven halves = .ok ledger ∧
      ledger.orders.get? "a" = some row ∧ row.fillQuantity = .exact 2 ∧ row.ending = some .filled := by
  obtain ⟨ledger, hrun⟩ := exists_of_isOk
    (by decide +kernel : (LedgerOfOrders.empty.run nearestEven halves).isOk = true)
  have hdoubles : ∀ record ∈ halves, record.Doubles nearestEven := by
    simp [halves, halfFill, marketOrder, Record.Doubles, PriceIsDouble, limitOf]
  have hkeeps : ∀ sent, Along nearestEven (Keeps nearestEven "a") sent [halfFill, halfFill] :=
    fun sent => ⟨trivial, fun next _ => ⟨trivial, fun last _ => trivial⟩⟩
  have hexact : ∀ record ∈ [halfFill, halfFill], ∀ amounts, fillOf "a" record = some amounts → amounts ≠ none := by
    simp [halfFill, fillOf]
  have hsum : filled "a" [halfFill, halfFill] = 2 := by decide +kernel
  obtain ⟨row, hrow, hfilled, _, _, _, hended⟩ := (exact_fill_frontier nearestEven_lawful hdoubles hrun).1
    [] [halfFill, halfFill] none marketOrder 7 (.finite 3) _ rfl rfl (fun sent _ => hkeeps sent) hexact
  refine ⟨ledger, row, hrun, hrow, hsum ▸ hfilled, ?_⟩
  exact hended [halfFill] halfFill rfl (by simp [halfFill, fillOf, marketOrder]) hsum

/-- The order as it stood when it was sent. -/
def unfilled : OpenOrderState where
  request := marketOrder
  entryWork := none
  wireNs := 7
  arrivalMid := .finite 3
  acked := false
  filledQty := .finite 0
  fillQuantity := some (.exact 0)
  reservationLowPx := .finite 0
  reservationHighPx := .finite 0
  exactPriceRange := some ⟨0, 0⟩
  terminal := none

def staleBase : List Record := [.orderSent none marketOrder 7 (.finite 3), halfFill, .segmentBase [unfilled]]

/-- One filled, and a base that restates the order unfilled: the ledger has nothing filled. -/
theorem base_forgets_fill : ∃ ledger row, LedgerOfOrders.empty.run nearestEven staleBase = .ok ledger ∧
    ledger.orders.get? "a" = some row ∧ row.fillQuantity = .exact 0 ∧ row.ending = none ∧ filled "a" staleBase = 1 := by
  obtain ⟨ledger, hrun⟩ := exists_of_isOk
    (by decide +kernel : (LedgerOfOrders.empty.run nearestEven staleBase).isOk = true)
  have hfound : ((LedgerOfOrders.empty.run nearestEven staleBase).toOption.bind (fun l => l.orders.get? "a")).map
      (fun row => (row.fillQuantity, row.ending)) = some (.exact 0, none) := by decide +kernel
  rw [hrun] at hfound
  obtain ⟨row, hrow, heq⟩ := Option.map_eq_some_iff.mp hfound
  obtain ⟨hfilled, hended⟩ := Prod.mk.inj heq
  exact ⟨ledger, row, hrun, hrow, hfilled, hended, by decide +kernel⟩

end LedgerOfOrders
end LiquidityMigration.Ledger
