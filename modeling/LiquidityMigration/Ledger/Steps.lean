import LiquidityMigration.Ledger.Rows

/- One accepted record, from two sides. `RowStep` says what it may make of one order's row, and every row after it
   comes about in one of these ways (`accept_row`). `Indexed` says that the two indexes count the orders in flight: a
   row put in takes its predecessor's place (`Indexed.insertLiveOrder`), a change in place keeps it or gives it up
   (`Indexed.change`). -/
namespace LiquidityMigration.Ledger
open Numeric Checks Orders Portfolio OrderRec List Except

def freshRow (entryWork : Option WorkPolicy) (request : OrderRequest) (wireNs : Nat) (arrivalMid : F64) : OrderRec where
  request := request
  entryWork := entryWork
  wireNs := wireNs
  acked := false
  fillQuantity := initial request
  ending := none
  terminalCheckpointMs := none
  arrivalMid := arrivalMid
  reservationLowPx := limitPx request
  reservationHighPx := limitPx request
  exactPriceRange := ⟨requestPrice request, requestPrice request⟩

open LedgerOfOrders in
def Record.Leaves (id : String) : Record → Prop
  | .boot | .other => True
  | .orderSent _ request _ _ => request.clientOrderId ≠ id
  | .orderUpdate update => updateId update ≠ some id
  | .recoveredFill k _ _ => k ≠ id
  | .amendSent k spec => spec.px ≠ none → k ≠ id
  | .amendResolved k _ _ => k ≠ id
  | .note source text => neverSentId source text ≠ some id
  | .orderLineageRestored order => order.request.clientOrderId ≠ id
  | .segmentBase _ => False

open LedgerOfOrders in
/-- What a record may make of a row, from what stood under its id before. -/
inductive RowStep (b : Binary64) : Record → Option OrderRec → OrderRec → Prop where
  | same {record row} (hleaves : record.Leaves row.id) : RowStep b record (some row) row
  | sent {entryWork request wireNs arrivalMid old} (hterms : checkTerms b request = .ok ()) :
      RowStep b (.orderSent entryWork request wireNs arrivalMid) old (freshRow entryWork request wireNs arrivalMid)
  | updated {update row new} (hid : updateId update = some row.id) (hrow : updatedRow b update row = .ok new) :
      RowStep b (.orderUpdate update) (some row) new
  | recovered {qty amounts row new} (hrow : recoveredRow b qty amounts row = .ok new) :
      RowStep b (.recoveredFill row.id qty amounts) (some row) new
  | amended {spec requestedPx row new} (hspec : validateAmendment b spec = .ok ()) (hpx : spec.px = some requestedPx)
      (hrow : amendedRow b spec requestedPx row = .ok new) : RowStep b (.amendSent row.id spec) (some row) new
  | resolved {effectivePx exactEffectivePx row new}
      (hprice : validateResolution b effectivePx exactEffectivePx = .ok ())
      (hrow : resolvedRow effectivePx exactEffectivePx row = .ok new) :
      RowStep b (.amendResolved row.id effectivePx exactEffectivePx) (some row) new
  | neverSent {source text row} (hid : neverSentId source text = some row.id) :
      RowStep b (.note source text) (some row) { row with ending := some .neverSent }
  | restated {openOrders old order new} (hmem : order ∈ openOrders) (hvalid : validateRestored b order = .ok ())
      (hrow : restoredRow b order = .ok new) : RowStep b (.segmentBase openOrders) old new
  | lineage {old order new} (hterminal : order.terminal ≠ none)
      (hresident : ∀ known ∈ old, residentSnapshot b known order = .ok order)
      (hvalid : validateRestored b order = .ok ()) (hrow : restoredRow b order = .ok new) :
      RowStep b (.orderLineageRestored order) old new

namespace LedgerOfOrders

def flag (ledger : LedgerOfOrders) (record : Record) : LedgerOfOrders :=
  if flagged record then { ledger with terminalCacheDirty := true } else ledger

section steps
variable {b : Binary64} {ledger ledger' : LedgerOfOrders} {record : Record} {row new : OrderRec} {id : String}

@[simp] theorem flag_orders : (ledger.flag record).orders = ledger.orders := by
  unfold flag
  split <;> rfl

@[simp] theorem flag_openingSymbols : (ledger.flag record).openingSymbols = ledger.openingSymbols := by
  unfold flag
  split <;> rfl

@[simp] theorem flag_openingStopLevels : (ledger.flag record).openingStopLevels = ledger.openingStopLevels := by
  unfold flag
  split <;> rfl

theorem accept_eq_ok : ledger.accept b record = .ok ledger' ↔
      ledger.validateRecordQuantities b record = .ok () ∧
        (ledger.flag record).applyValidated b record = .ok ledger' := by
  unfold accept tryApply flag
  cases hvalid : ledger.validateRecordQuantities b record with
  | error failure => simp
  | ok u =>
    dsimp only
    cases happly : (if flagged record then { ledger with terminalCacheDirty := true } else ledger).applyValidated b
        record with
    | error failure => simp
    | ok applied => simp

theorem tryApply_eq_ok : ledger.tryApply b record = (.ok (), ledger') ↔ ledger.accept b record = .ok ledger' := by
  unfold accept
  cases h : ledger.tryApply b record with
  | mk answer left =>
    cases answer with
    | error failure => simp
    | ok u => simp

variable {f : OrderRec → Except Failure OrderRec}

theorem onOrder_eq_ok (h : ledger.onOrder id f = .ok ledger') : (ledger.orders.get? id = none ∧ ledger' = ledger) ∨
      ∃ row new, ledger.orders.get? id = some row ∧ f row = .ok new ∧ ledger' = ledger.change row new := by
  unfold onOrder at h
  split at h
  · next hnone =>
    injection h with h
    exact .inl ⟨hnone, h.symm⟩
  · next row hrow =>
    rw [bind_eq_ok] at h
    obtain ⟨new, hnew, heq⟩ := h
    injection heq with heq
    exact .inr ⟨row, new, hrow, hnew, heq.symm⟩

theorem id_of_get? (h : ledger.orders.get? id = some row) : row.id = id := (Table.get?_eq_some.mp h).2

variable {k : String}

theorem onOrder_row (h : ledger.onOrder id f = .ok ledger')
    (hplace : ∀ {row new}, f row = .ok new → KeepsPlace row new) (hnew : ledger'.orders.get? k = some new) :
    (id ≠ k ∧ ledger.orders.get? k = some new) ∨ k = id ∧ ∃ row, ledger.orders.get? id = some row ∧
      f row = .ok new := by
  rcases onOrder_eq_ok h with ⟨hnone, rfl⟩ | ⟨row, new', hrow, hf, rfl⟩
  · refine .inl ⟨?_, hnew⟩
    intro hk
    rw [← hk, hnone] at hnew
    cases hnew
  · simp only [change, Table.get?_put] at hnew
    split at hnew
    · next hk =>
      injection hnew with hnew
      subst hnew
      rw [(hplace hf).id, id_of_get? hrow] at hk
      exact .inr ⟨hk.symm, row, hrow, hf⟩
    · next hk =>
      rw [(hplace hf).id, id_of_get? hrow] at hk
      exact .inl ⟨hk, hnew⟩

variable {order : OpenOrderState} {records : List Record} {P : LedgerOfOrders → Record → Prop}

theorem restoreSnapshotOrder_eq_ok (h : ledger.restoreSnapshotOrder b order = .ok ledger') :
    ∃ row, restoredRow b order = .ok row ∧ ledger' = ledger.insertLiveOrder row := by
  simp only [restoreSnapshotOrder, bind_eq_ok] at h
  obtain ⟨row, hrow, heq⟩ := h
  injection heq with heq
  exact ⟨row, hrow, heq.symm⟩

theorem insertLiveOrder_row (h : (ledger.insertLiveOrder row).orders.get? k = some new) :
    (row.id ≠ k ∧ ledger.orders.get? k = some new) ∨ new = row ∧ row.id = k := by
  simp only [insertLiveOrder, Table.get?_put] at h
  split at h
  · next hk =>
    injection h with h
    exact .inr ⟨h.symm, hk⟩
  · next hk => exact .inl ⟨hk, h⟩

theorem restoreAll_row {orders : List OpenOrderState}
    (h : orders.foldlM (fun ledger order => ledger.restoreSnapshotOrder b order) ledger = .ok ledger')
    (hnew : ledger'.orders.get? k = some new) :
    ledger.orders.get? k = some new ∨ ∃ order ∈ orders, restoredRow b order = .ok new := by
  induction orders generalizing ledger with
  | nil =>
    injection h with h
    exact .inl (h ▸ hnew)
  | cons order orders ih =>
    rw [foldlM_cons, bind_eq_ok] at h
    obtain ⟨next, hnext, hrest⟩ := h
    obtain ⟨row, hrow, rfl⟩ := restoreSnapshotOrder_eq_ok hnext
    rcases ih hrest with hold | ⟨order', hmem, hrow'⟩
    · rcases insertLiveOrder_row hold with ⟨_, hold⟩ | ⟨rfl, _⟩
      · exact .inl hold
      · exact .inr ⟨order, mem_cons_self, hrow⟩
    · exact .inr ⟨order', mem_cons_of_mem _ hmem, hrow'⟩

theorem validateBase_eq_ok {orders : List OpenOrderState} :
    validateBase b orders = .ok () ↔ ∀ order ∈ orders, validateRestored b order = .ok () := by
  induction orders with
  | nil => simp [validateBase]
  | cons order orders ih => simp [validateBase, bind_eq_ok, exists_unit, ih]

theorem checkResident_eq_ok : ledger.checkResident b order = .ok () ↔
      ∀ known ∈ ledger.orders.get? order.request.clientOrderId, residentSnapshot b known order = .ok order := by
  unfold checkResident
  split
  · next h => simp [h]
  · next known h =>
    simp only [ok_iff, h, Option.mem_some_iff, forall_eq']
    refine ⟨?_, fun hsame => ⟨order, hsame, rfl⟩⟩
    intro hsame
    obtain ⟨prior, hprior, rfl⟩ := hsame
    exact hprior

theorem id_of_restoredRow (h : restoredRow b order = .ok row) : row.id = order.request.clientOrderId := by
  simp only [restoredRow, ok_iff] at h
  obtain ⟨range, _, rfl⟩ := h
  rfl

/-- What applying a record does: nothing but count a boot, work on one order, put a row in, or start over. -/
theorem applyValidated_cases (h : ledger.applyValidated b record = .ok ledger') :
    (∃ boots, ledger' = { ledger with boots := boots }) ∨
    (∃ k f, (∀ {row new}, f row = .ok new → KeepsPlace row new) ∧ ledger.onOrder k f = .ok ledger') ∨
    (∃ row, ledger' = ledger.insertLiveOrder row) ∨
    ∃ orders : List OpenOrderState, record = .segmentBase orders ∧
      orders.foldlM (fun ledger order => ledger.restoreSnapshotOrder b order)
        { ledger with orders := ∅, openingSymbols := ∅, openingStopLevels := ∅ } = .ok ledger' := by
  cases record with
  | boot => exact .inl ⟨_, (ok.inj h).symm⟩
  | other => exact .inl ⟨_, (ok.inj h).symm⟩
  | orderSent entryWork request wireNs arrivalMid =>
    simp only [applyValidated, ok_iff] at h
    obtain ⟨range, _, rfl⟩ := h
    exact .inr (.inr (.inl ⟨_, rfl⟩))
  | orderUpdate update =>
    simp only [applyValidated, applyUpdateValidated] at h
    split at h
    · exact .inl ⟨_, (ok.inj h).symm⟩
    · exact .inr (.inl ⟨_, _, KeepsPlace.updatedRow, h⟩)
  | recoveredFill k qty amounts => exact .inr (.inl ⟨_, _, KeepsPlace.recoveredRow, h⟩)
  | amendSent k spec =>
    simp only [applyValidated] at h
    split at h
    · exact .inl ⟨_, (ok.inj h).symm⟩
    · exact .inr (.inl ⟨_, _, KeepsPlace.amendedRow, h⟩)
  | amendResolved k px exact => exact .inr (.inl ⟨_, _, KeepsPlace.resolvedRow, h⟩)
  | note source text =>
    simp only [applyValidated] at h
    split at h
    · exact .inl ⟨_, (ok.inj h).symm⟩
    · exact .inr (.inl ⟨_, _, KeepsPlace.neverSent, h⟩)
  | orderLineageRestored order =>
    obtain ⟨row, _, rfl⟩ := restoreSnapshotOrder_eq_ok h
    exact .inr (.inr (.inl ⟨row, rfl⟩))
  | segmentBase openOrders => exact .inr (.inr (.inr ⟨openOrders, rfl, h⟩))

/-- Every row of the ledger after a record comes about in one of the ways of `RowStep`. -/
theorem accept_row (h : ledger.accept b record = .ok ledger') (hnew : ledger'.orders.get? id = some new) :
    RowStep b record (ledger.orders.get? id) new := by
  obtain ⟨hvalid, happly⟩ := accept_eq_ok.mp h
  -- a row that the record leaves alone
  have hsame : record.Leaves id → (ledger.flag record).orders.get? id = some new →
      RowStep b record (ledger.orders.get? id) new := by
    intro hleaves hrow
    rw [flag_orders] at hrow
    rw [hrow]
    exact .same (by rwa [id_of_get? hrow])
  have hkept : record.Leaves id → .ok (ledger.flag record) = (.ok ledger' : Except Failure _) →
      RowStep b record (ledger.orders.get? id) new := by
    intro hleaves hflag
    cases hflag
    exact hsame hleaves hnew
  -- a row of the order the record names
  have hnamed : ∀ {k f}, (ledger.flag record).onOrder k f = .ok ledger' → (∀ {row new}, f row = .ok new →
      KeepsPlace row new) → (k ≠ id → record.Leaves id) → (∀ row, row.id = k → f row = .ok new →
      RowStep b record (some row) new) → RowStep b record (ledger.orders.get? id) new := by
    intro k f happly hplace hleaves hstep
    rcases onOrder_row happly hplace hnew with ⟨hid, hrow⟩ | ⟨rfl, row, hrow, hf⟩
    · exact hsame (hleaves hid) hrow
    · rw [flag_orders] at hrow
      rw [hrow]
      exact hstep row (id_of_get? hrow) hf
  cases record with
  | boot =>
    cases happly
    exact hsame trivial hnew
  | other => exact hkept trivial happly
  | orderSent entryWork request wireNs arrivalMid =>
    simp only [applyValidated, requestPriceRange_eq, ok_iff, exists_eq_left'] at happly
    subst happly
    rcases insertLiveOrder_row hnew with ⟨hid, hrow⟩ | ⟨rfl, _⟩
    · exact hsame hid hrow
    · exact .sent hvalid
  | orderUpdate update =>
    simp only [applyValidated, applyUpdateValidated] at happly
    split at happly
    · next hnone => exact hkept (by simp [Record.Leaves, hnone]) happly
    · next k hk =>
      refine hnamed happly KeepsPlace.updatedRow (by simp [Record.Leaves, hk]) ?_
      exact fun row hid hf => .updated (by rw [hk, hid]) hf
  | recoveredFill k qty amounts =>
    refine hnamed happly KeepsPlace.recoveredRow (fun hid => hid) ?_
    rintro row rfl hf
    exact .recovered hf
  | amendSent k spec =>
    simp only [applyValidated] at happly
    split at happly
    · next hnone => exact hkept (fun hpx => absurd hnone hpx) happly
    · next px hpx =>
      refine hnamed happly KeepsPlace.amendedRow (fun hid _ => hid) ?_
      rintro row rfl hf
      exact .amended hvalid hpx hf
  | amendResolved k px exact =>
    refine hnamed happly KeepsPlace.resolvedRow (fun hid => hid) ?_
    rintro row rfl hf
    exact .resolved hvalid hf
  | note source text =>
    simp only [applyValidated] at happly
    split at happly
    · next hnone => exact hkept (by simp [Record.Leaves, hnone]) happly
    · next k hk =>
      refine hnamed happly KeepsPlace.neverSent (by simp [Record.Leaves, hk]) ?_
      intro row hid hf
      cases hf
      exact .neverSent (by rw [hk, hid])
  | orderLineageRestored order =>
    simp only [validateRecordQuantities, ok_iff, checkResident_eq_ok] at hvalid
    obtain ⟨row, hrow, rfl⟩ := restoreSnapshotOrder_eq_ok happly
    rcases insertLiveOrder_row hnew with ⟨hid, hold⟩ | ⟨rfl, hid⟩
    · rw [id_of_restoredRow hrow] at hid
      exact hsame hid hold
    · rw [id_of_restoredRow hrow] at hid
      subst hid
      exact .lineage hvalid.1 hvalid.2.1 hvalid.2.2 hrow
  | segmentBase openOrders =>
    rcases restoreAll_row happly hnew with hold | ⟨order, hmem, hrow⟩
    · exact absurd hold (by simp [Table.get?_eq_some])
    · exact .restated hmem (validateBase_eq_ok.mp hvalid order hmem) hrow

theorem run_nil : ledger.run b [] = .ok ledger := rfl

theorem run_cons : ledger.run b (record :: records) = .ok ledger' ↔
      ∃ next, ledger.accept b record = .ok next ∧ next.run b records = .ok ledger' := by
  unfold run
  rw [foldlM_cons, bind_eq_ok]

theorem run_append {more : List Record} : ledger.run b (records ++ more) = .ok ledger' ↔
      ∃ next, ledger.run b records = .ok next ∧ next.run b more = .ok ledger' := by
  unfold run
  rw [foldlM_append, bind_eq_ok]

/-- `P` holds of every record of a run and the ledger it meets. -/
def Along (b : Binary64) (P : LedgerOfOrders → Record → Prop) : LedgerOfOrders → List Record → Prop
  | _, [] => True
  | ledger, record :: records =>
    P ledger record ∧ ∀ next, ledger.accept b record = .ok next → Along b P next records

theorem Along.of_forall (h : ∀ record ∈ records, ∀ ledger, P ledger record) : Along b P ledger records := by
  induction records generalizing ledger with
  | nil => trivial
  | cons record records ih =>
    exact ⟨h record mem_cons_self ledger, fun next _ => ih (fun r hr => h r (mem_cons_of_mem _ hr))⟩

theorem Along.and {Q : LedgerOfOrders → Record → Prop} (hp : Along b P ledger records)
    (hq : Along b Q ledger records) :
    Along b (fun ledger record => P ledger record ∧ Q ledger record) ledger records := by
  induction records generalizing ledger with
  | nil => trivial
  | cons record records ih => exact ⟨⟨hp.1, hq.1⟩, fun next hnext => ih (hp.2 next hnext) (hq.2 next hnext)⟩

theorem Along.append {more : List Record}
    (h : Along b P ledger (records ++ more)) (hrun : ledger.run b records = .ok ledger') :
    Along b P ledger records ∧ Along b P ledger' more := by
  induction records generalizing ledger with
  | nil =>
    injection hrun with hrun
    exact ⟨trivial, hrun ▸ h⟩
  | cons record records ih =>
    obtain ⟨next, hnext, hrest⟩ := run_cons.mp hrun
    refine ⟨⟨h.1, ?_⟩, (ih (h.2 next hnext) hrest).2⟩
    intro next' hnext'
    rw [hnext] at hnext'
    injection hnext' with hnext'
    exact hnext' ▸ (ih (h.2 next hnext) hrest).1

theorem Along.invariant {I : LedgerOfOrders → Prop}
    (hstep : ∀ {ledger record next}, I ledger → P ledger record → ledger.accept b record = .ok next → I next)
    (h : Along b P ledger records) (hi : I ledger) (hrun : ledger.run b records = .ok ledger') : I ledger' := by
  induction records generalizing ledger with
  | nil =>
    injection hrun with hrun
    exact hrun ▸ hi
  | cons record records ih =>
    obtain ⟨next, hnext, hrest⟩ := run_cons.mp hrun
    exact ih (h.2 next hnext) (hstep hi h.1 hnext) hrest

end steps

/-- The indexes count the orders in flight. -/
structure Indexed (ledger : LedgerOfOrders) : Prop where
  symbols : Tally.Counts OrderRec.liveKey ledger.orders ledger.openingSymbols
  stops : Tally.Counts OrderRec.liveStop ledger.orders ledger.openingStopLevels

namespace Indexed
variable {b : Binary64} {ledger ledger' : LedgerOfOrders} {record : Record} {row old new : OrderRec} {id : String}

theorem insertLiveOrder (h : ledger.Indexed) (row : OrderRec) : (ledger.insertLiveOrder row).Indexed := by
  unfold LedgerOfOrders.insertLiveOrder
  cases hold : ledger.orders.get? row.id with
  | none => exact ⟨h.symbols.put_new hold, h.stops.put_new hold⟩
  | some old => exact ⟨h.symbols.replace hold, h.stops.replace hold⟩

theorem inFlight_eq (row : OrderRec) : row.inFlight = !row.ending.isSome := by
  unfold inFlight
  cases row.ending <;> rfl

theorem change (h : ledger.Indexed) (hold : ledger.orders.get? id = some old) (hplace : KeepsPlace old new) :
    (ledger.change old new).Indexed := by
  have hget : ledger.orders.get? new.id = some old := by
    rw [hplace.id, id_of_get? hold]
    exact hold
  cases holdLive : old.inFlight with
  | true =>
    cases hnewLive : new.inFlight with
    | true =>
      refine ⟨?_, ?_⟩
      · simpa [LedgerOfOrders.change, holdLive, hnewLive] using
          h.symbols.replace_same hget (by simp [liveKey, holdLive, hnewLive, hplace.key])
      · simpa [LedgerOfOrders.change, holdLive, hnewLive] using
          h.stops.replace_same hget (by simp [liveStop, holdLive, hnewLive, hplace.stop])
    | false =>
      refine ⟨?_, ?_⟩
      · simpa [LedgerOfOrders.change, holdLive, hnewLive, liveKey, Tally.addSome] using h.symbols.replace hget
      · simpa [LedgerOfOrders.change, holdLive, hnewLive, liveStop, Tally.addSome] using h.stops.replace hget
  | false =>
    have hnewLive : new.inFlight = false := by
      rw [inFlight_eq] at holdLive ⊢
      rw [hplace.ended (by simpa using holdLive)]
      rfl
    refine ⟨?_, ?_⟩
    · simpa [LedgerOfOrders.change, holdLive] using
        h.symbols.replace_same hget (by simp [liveKey, holdLive, hnewLive])
    · simpa [LedgerOfOrders.change, holdLive] using
        h.stops.replace_same hget (by simp [liveStop, holdLive, hnewLive])

theorem onOrder {f : OrderRec → Except Failure OrderRec} (hi : ledger.Indexed)
    (h : ledger.onOrder id f = .ok ledger') (hplace : ∀ {row new}, f row = .ok new → KeepsPlace row new) :
    ledger'.Indexed := by
  rcases onOrder_eq_ok h with ⟨_, rfl⟩ | ⟨row, new, hrow, hf, rfl⟩
  · exact hi
  · exact hi.change hrow (hplace hf)

theorem flag (h : ledger.Indexed) (record : Record) : (ledger.flag record).Indexed :=
  ⟨by simpa using h.symbols, by simpa using h.stops⟩

theorem restoreSnapshotOrder {order : OpenOrderState} (hi : ledger.Indexed)
    (h : ledger.restoreSnapshotOrder b order = .ok ledger') : ledger'.Indexed := by
  obtain ⟨row, _, rfl⟩ := restoreSnapshotOrder_eq_ok h
  exact hi.insertLiveOrder row

theorem of_empty {orders : Table OrderRec.id} {symbols : Tally OpeningKey} {stops : Tally StopKey}
    (horders : orders = ∅) (hsymbols : symbols = ∅) (hstops : stops = ∅) {dirty : Bool} {limits : Option (Nat × Nat)}
    {boots : Fin (2 ^ 32)} : Indexed ⟨orders, dirty, limits, boots, symbols, stops⟩ := by
  subst horders hsymbols hstops
  exact ⟨fun k => rfl, fun k => rfl⟩

theorem applyValidated (hi : ledger.Indexed) (h : ledger.applyValidated b record = .ok ledger') : ledger'.Indexed := by
  rcases applyValidated_cases h with ⟨boots, rfl⟩ | ⟨k, f, hplace, hon⟩ | ⟨row, rfl⟩ | ⟨orders, -, hall⟩
  · exact ⟨hi.symbols, hi.stops⟩
  · exact hi.onOrder hon hplace
  · exact hi.insertLiveOrder row
  · exact foldlM_invariant restoreSnapshotOrder (of_empty rfl rfl rfl) hall

theorem accept (hi : ledger.Indexed) (h : ledger.accept b record = .ok ledger') : ledger'.Indexed :=
  (hi.flag record).applyValidated (accept_eq_ok.mp h).2

theorem run {records : List Record} (hi : ledger.Indexed) (h : ledger.run b records = .ok ledger') :
    ledger'.Indexed := foldlM_invariant accept hi h

theorem empty : Indexed LedgerOfOrders.empty := of_empty rfl rfl rfl

end Indexed

end LedgerOfOrders
end LiquidityMigration.Ledger
