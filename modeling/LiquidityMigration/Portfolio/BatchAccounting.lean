import LiquidityMigration.Portfolio.Accounting

/- Many executions accounted at once (`ExecutionAccounting::prepare_batch`): before each input the rows it can touch
   are fetched into a copy, and at the end the rows that came out different are kept. One round runs in step with the
   books, since the fetched rows cover all that a preparation reads and writes (`Staged.Mirrors.stage`). -/
namespace LiquidityMigration.Portfolio
open Numeric Checks ExecutionAccounting List

/-- The partial copy of the books a batch runs in. -/
structure Staged where
  balances : Overlay AssetKey AssetExecutionTotals
  unvalued : Overlay SleeveKey UnvaluedExecutionTotals

namespace Staged

instance : EmptyCollection Staged := ⟨⟨∅, ∅⟩⟩

def books (s : Staged) : ExecutionAccounting := ⟨s.balances.copy, s.unvalued.copy, true⟩

def withBooks (s : Staged) (books : ExecutionAccounting) : Staged where
  balances := { s.balances with copy := books.balances }
  unvalued := { s.unvalued with copy := books.unvalued }

def fetch (acc : ExecutionAccounting) (s : Staged) (input : ExecutionAccountingInput) : Staged where
  balances := s.balances.fetchAll acc.balances (input.assets.map (assetKey input.owner))
  unvalued := s.unvalued.fetch acc.unvalued input.owner

def change (s : Staged) : AccountingChange where
  balances := s.balances.changes.map fun row => ⟨row.1, row.2.1, row.2.2⟩
  unvalued := s.unvalued.changes.map fun row => ⟨row.1, row.2.1, row.2.2⟩

end Staged

namespace ExecutionAccounting

variable (acc : ExecutionAccounting) (inputs : List ExecutionAccountingInput)

def stage (s : Staged) (input : ExecutionAccountingInput) : Except String Staged := do
  let s := s.fetch acc input
  let books ← s.books.record input
  .ok (s.withBooks books)

def prepareBatch : Except String AccountingChange := do
  let s ← inputs.foldlM acc.stage ∅
  .ok s.change

/-- A batch prepared and applied, with the books it leaves behind. -/
def recordBatch : Except String Unit × ExecutionAccounting :=
  match acc.prepareBatch inputs with
  | .error e => (.error e, acc)
  | .ok change => acc.apply change

def recordAll : Except String ExecutionAccounting := inputs.foldlM record acc

end ExecutionAccounting

section
variable {acc cur cur' : ExecutionAccounting} {s s' : Staged} {input : ExecutionAccountingInput}
  {inputs : List ExecutionAccountingInput}

variable (acc cur s) in
/-- The copy is in step with `cur`, the books as the inputs so far would have left them. -/
structure Staged.Mirrors : Prop where
  balances : s.balances.Mirrors acc.balances cur.balances
  unvalued : s.unvalued.Mirrors acc.unvalued cur.unvalued
  complete : cur.completeFromStart = acc.completeFromStart

theorem Staged.mirrors_empty : Staged.Mirrors acc acc ∅ := ⟨Overlay.mirrors_empty, Overlay.mirrors_empty, rfl⟩

theorem Staged.Mirrors.fetch (h : s.Mirrors acc cur) : (s.fetch acc input).Mirrors acc cur :=
  ⟨h.balances.fetchAll _, h.unvalued.fetch _, h.complete⟩

theorem Staged.fetched_balances {asset : AssetId} (h : asset ∈ input.assets) :
    (s.fetch acc input).balances.Fetched (assetKey input.owner asset) :=
  Overlay.fetched_fetchAll (mem_map.mpr ⟨asset, h, rfl⟩)

theorem Staged.fetched_unvalued : (s.fetch acc input).unvalued.Fetched input.owner := Overlay.fetched_fetch_self

theorem Staged.Mirrors.agree (h : s.Mirrors acc cur) :
    ExecutionAccounting.Agree (s.fetch acc input).books cur input where
  balances := fun _ hasset => h.fetch.balances.find?_eq (Staged.fetched_balances hasset)
  unvalued := h.fetch.unvalued.find?_eq Staged.fetched_unvalued

variable {change : AccountingChange}

section
variable (h : s.Mirrors acc cur)
include h

theorem Staged.Mirrors.put (hbalances : ∀ row ∈ change.balances, s.balances.Fetched row.key)
    (hunvalued : ∀ row ∈ change.unvalued, s.unvalued.Fetched row.key) :
    (s.withBooks (s.books.put change)).Mirrors acc (cur.put change) := by
  refine ⟨h.balances.insertAll (fun row hrow => ?_), h.unvalued.insertAll (fun row hrow => ?_), h.complete⟩
  · obtain ⟨change, hmem, rfl⟩ := mem_map.mp hrow
    exact hbalances change hmem
  · obtain ⟨change, hmem, rfl⟩ := mem_map.mp hrow
    exact hunvalued change hmem

/-- **One round.** A round of the batch is refused as the input alone is, and where it
goes through the copy is in step again. -/
theorem Staged.Mirrors.stage (input : ExecutionAccountingInput) :
    (∀ e, acc.stage s input = .error e ↔ cur.record input = .error e) ∧
      ∀ s', acc.stage s input = .ok s' → ∃ cur', cur.record input = .ok cur' ∧ s'.Mirrors acc cur' := by
  have hprepare : (s.fetch acc input).books.prepare input = cur.prepare input := h.agree.prepare
  rw [ExecutionAccounting.stage, ExecutionAccounting.record_eq, ExecutionAccounting.record_eq, hprepare]
  cases hchange : cur.prepare input with
  | error e =>
    refine ⟨fun e' => ?_, fun s' hs' => ?_⟩
    · simp [bind, Except.bind, Except.map]
    · cases hs'
  | ok change =>
    refine ⟨fun e' => ?_, fun s' hs' => ?_⟩
    · simp [bind, Except.bind, Except.map]
    · cases hs'
      refine ⟨cur.put change, rfl, h.fetch.put (fun row hrow => ?_) (fun row hrow => ?_)⟩
      · obtain ⟨asset, hasset, hkey⟩ := (prepare_keys hchange).1 row hrow
        exact hkey ▸ Staged.fetched_balances hasset
      · exact (prepare_keys hchange).2 row hrow ▸ Staged.fetched_unvalued

/-- **All rounds**, by induction on the inputs. -/
theorem Staged.Mirrors.foldlM : (∀ e, inputs.foldlM acc.stage s = .error e ↔ cur.recordAll inputs = .error e) ∧
      ∀ s', inputs.foldlM acc.stage s = .ok s' → ∃ cur', cur.recordAll inputs = .ok cur' ∧ s'.Mirrors acc cur' := by
  induction inputs generalizing s cur with
  | nil =>
    refine ⟨fun e => ⟨fun hc => (by cases hc), fun hc => (by cases hc)⟩, fun s' hs' => ?_⟩
    cases hs'
    exact ⟨cur, rfl, h⟩
  | cons input rest ih =>
    obtain ⟨herror, hok⟩ := h.stage input
    rw [recordAll, foldlM_cons, foldlM_cons]
    cases hstage : acc.stage s input with
    | error e =>
      rw [(herror e).mp hstage]
      refine ⟨fun e' => ?_, fun s' hs' => ?_⟩
      · simp [bind, Except.bind]
      · cases hs'
    | ok mid =>
      obtain ⟨cur', hrecord, hmid⟩ := hok mid hstage
      rw [hrecord]
      exact ih hmid

/-- The rows of a batch, put into the books it was prepared on, give the books of its
inputs one by one. -/
theorem Staged.Mirrors.put_change : acc.put s.change = cur := by
  have hbalances : acc.balances.insertAll (s.change.balances.map (fun row => (row.key, row.next))) = cur.balances := by
    rw [Staged.change, map_map]
    exact h.balances.insertAll_changes
  have hunvalued : acc.unvalued.insertAll (s.change.unvalued.map (fun row => (row.key, row.next))) = cur.unvalued := by
    rw [Staged.change, map_map]
    exact h.unvalued.insertAll_changes
  rw [ExecutionAccounting.put, hbalances, hunvalued, ← h.complete]

end

/-- A row that the books `acc` and `books` have differently is in `later` no longer what
it was in `acc`. -/
def ExecutionAccounting.MovedOn (acc books later : ExecutionAccounting) : Prop :=
  (∃ key, books.balances.find? key ≠ acc.balances.find? key ∧ later.balances.find? key ≠ acc.balances.find? key) ∨
    ∃ key, books.unvalued.find? key ≠ acc.unvalued.find? key ∧ later.unvalued.find? key ≠ acc.unvalued.find? key

theorem Staged.Mirrors.current_change {later : ExecutionAccounting} (h : s.Mirrors acc cur) :
    later.Current s.change ↔ ¬ acc.MovedOn cur later := by
  have hbalances := h.balances.current_changes later.balances
  have hunvalued := h.unvalued.current_changes later.unvalued
  rw [ExecutionAccounting.Current, Staged.change, forall_mem_map, forall_mem_map, ExecutionAccounting.MovedOn,
    hbalances, hunvalued]
  push Not
  rfl

theorem ExecutionAccounting.apply_of_current (h : acc.Current change) :
    acc.apply change = (.ok (), acc.put change) := by
  have hvalid : acc.validateChange change = .ok () := require_eq_ok.mpr h
  rw [apply, hvalid]

theorem ExecutionAccounting.apply_of_not_current (h : ¬ acc.Current change) :
    acc.apply change = (.error "stale prepared execution accounting change", acc) := by
  have hvalid : acc.validateChange change = .error "stale prepared execution accounting change" :=
    require_eq_error.mpr ⟨h, rfl⟩
  rw [apply, hvalid]

theorem prepareBatch_ok (h : acc.prepareBatch inputs = .ok change) :
    ∃ s cur, acc.recordAll inputs = .ok cur ∧ Staged.Mirrors acc cur s ∧ change = s.change := by
  simp only [prepareBatch, ok_iff] at h
  obtain ⟨s, hs, rfl⟩ := h
  obtain ⟨cur, hcur, hmirrors⟩ := Staged.mirrors_empty.foldlM.2 s hs
  exact ⟨s, cur, hcur, hmirrors, rfl⟩

theorem current_prepareBatch (h : acc.prepareBatch inputs = .ok change) : acc.Current change := by
  obtain ⟨s, cur, -, hmirrors, rfl⟩ := prepareBatch_ok h
  apply hmirrors.current_change.mpr
  intro hmoved
  rcases hmoved with ⟨_, _, hne⟩ | ⟨_, _, hne⟩
  · exact hne rfl
  · exact hne rfl

theorem prepareBatch_error {e : String} : acc.prepareBatch inputs = .error e ↔ acc.recordAll inputs = .error e := by
  rw [← Staged.mirrors_empty.foldlM.1 e, prepareBatch]
  cases inputs.foldlM acc.stage ∅ with
  | error e' => simp [bind, Except.bind]
  | ok s => simp [bind, Except.bind]

/-- **Batch accounting is sequential accounting.** A batch answers as its inputs one by one do and
leaves the same books, or the books as they were. Applied later, it is refused, and changes nothing,
exactly when some row it changes is no longer what it was. -/
theorem batch_accounting_sequential (acc : ExecutionAccounting) (inputs : List ExecutionAccountingInput) :
    (acc.recordBatch inputs = match acc.recordAll inputs with
      | .ok books => (.ok (), books)
      | .error e => (.error e, acc)) ∧
    (∀ change, acc.prepareBatch inputs = .ok change → ∃ books, acc.recordAll inputs = .ok books ∧
      ∀ later : ExecutionAccounting,
        (acc.MovedOn books later → later.apply change = (.error "stale prepared execution accounting change", later)) ∧
        (¬ acc.MovedOn books later → later.apply change = (.ok (), later.put change))) ∧
    ∀ (later : ExecutionAccounting) (change : AccountingChange) (e : String),
      (later.apply change).1 = .error e → (later.apply change).2 = later := by
  refine ⟨?_, ?_, ?_⟩
  · rw [recordBatch]
    cases hbatch : acc.prepareBatch inputs with
    | error e => rw [prepareBatch_error.mp hbatch]
    | ok change =>
      obtain ⟨s, cur, hcur, hmirrors, rfl⟩ := prepareBatch_ok hbatch
      dsimp only
      rw [apply_of_current (current_prepareBatch hbatch), hmirrors.put_change, hcur]
  · intro change hbatch
    obtain ⟨s, cur, hcur, hmirrors, rfl⟩ := prepareBatch_ok hbatch
    refine ⟨cur, hcur, fun later => ⟨fun hmoved => ?_, fun hstill => ?_⟩⟩
    · apply apply_of_not_current
      exact fun hcurrent => hmirrors.current_change.mp hcurrent hmoved
    · exact apply_of_current (hmirrors.current_change.mpr hstill)
  · intro later change e h
    by_cases hcurrent : later.Current change
    · rw [apply_of_current hcurrent] at h
      cases h
    · rw [apply_of_not_current hcurrent]

end

def bnbFees (fees : Exact) : ExecutionAccounting where
  balances := (∅ : Dict AssetKey AssetExecutionTotals).insert (assetKey (sleeveKey 0 0) (.named "BNB"))
    { strategy := 0, symbol := 0, asset := .named "BNB", executionCashFlow := 0, fees := fees, realizedGross := 0 }
  unvalued := ∅
  completeFromStart := true

def freeOfFees : ExecutionAccountingInput where
  strategy := 0
  symbol := 0
  side := .buy
  qty := 1
  px := some 10
  settlementAsset := .named "USDT"
  fee := some ⟨.named "BNB", ⟨0, .venueDecimal⟩⟩
  realized := ⟨some 0, .named "USDT"⟩

/-- The purchase posts to the BNB row: prepared alone it is refused once that row has
changed. Prepared as a batch it is not, since it leaves the row as it was. -/
theorem unchanged_touch_unchecked :
    (bnbFees 2).balances.find? (assetKey (sleeveKey 0 0) (.named "BNB")) ≠
        (bnbFees 1).balances.find? (assetKey (sleeveKey 0 0) (.named "BNB")) ∧
      ((bnbFees 1).prepare freeOfFees).map (fun change => change.balances.map BalanceChange.key) =
        .ok [assetKey (sleeveKey 0 0) (.named "BNB"), assetKey (sleeveKey 0 0) (.named "USDT")] ∧
      ((bnbFees 1).prepare freeOfFees).map (fun change => ((bnbFees 2).apply change).1) =
        .ok (.error "stale prepared execution accounting change") ∧
      ((bnbFees 1).prepareBatch [freeOfFees]).map (fun change => ((bnbFees 2).apply change).1) = .ok (.ok ()) := by
  decide +kernel

end LiquidityMigration.Portfolio
