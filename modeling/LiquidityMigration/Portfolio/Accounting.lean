import LiquidityMigration.Lib.Overlay
import LiquidityMigration.Numeric.Number
import LiquidityMigration.Portfolio.Inventory

/- What the executions of a sleeve come to: cash flow, fees and realized amounts in each named asset, and a count of
   executions of unknown value. `prepare` drafts the rows an execution touches from the books' own; `apply` refuses
   where the books have moved past. A preparation reads and writes only the rows of the assets its input names and
   the owner's count (`Agree.prepare`, `prepare_keys`), and adds to each what the input states (`draft_posts`,
   `row_record`). -/

namespace LiquidityMigration.Numeric

/-- Where an asset stands among the others: by name, the unknown one last. -/
def AssetId.rank : AssetId → WithTop String
  | .named name => (name : WithTop String)
  | .unknown => ⊤

theorem AssetId.rank_injective : Function.Injective AssetId.rank := by
  intro a c h
  cases a with
  | named x =>
    cases c with
    | named y => rw [WithTop.coe_inj.mp h]
    | unknown => cases h
  | unknown =>
    cases c with
    | named y => cases h
    | unknown => rfl

instance : LinearOrder AssetId := LinearOrder.lift' AssetId.rank AssetId.rank_injective

end LiquidityMigration.Numeric

namespace LiquidityMigration.Portfolio
open Numeric Checks List

abbrev SleeveKey := StrategyId ×ₗ SymbolId

abbrev AssetKey := SleeveKey ×ₗ AssetId

def sleeveKey (strategy : StrategyId) (symbol : SymbolId) : SleeveKey := toLex (strategy, symbol)

def assetKey (owner : SleeveKey) (asset : AssetId) : AssetKey := toLex (owner, asset)

theorem assetKey_inj {owner owner' : SleeveKey} {asset asset' : AssetId} :
    assetKey owner asset = assetKey owner' asset' ↔ owner = owner' ∧ asset = asset' := by
  rw [assetKey, assetKey, toLex_inj, Prod.mk.injEq]

structure AssetExecutionTotals where
  strategy : StrategyId
  symbol : SymbolId
  asset : AssetId
  /-- Sell consideration positive; buy consideration negative. -/
  executionCashFlow : Exact
  /-- Costs positive; rebates negative, in this asset only. -/
  (fees realizedGross : Exact)
  deriving DecidableEq

open AssetExecutionTotals

def AssetExecutionTotals.zero (owner : SleeveKey) (asset : AssetId) : AssetExecutionTotals where
  strategy := (ofLex owner).1
  symbol := (ofLex owner).2
  asset := asset
  executionCashFlow := 0
  fees := 0
  realizedGross := 0

/-- How many executions of a sleeve had no value to account. -/
structure UnvaluedExecutionTotals where
  strategy : StrategyId
  symbol : SymbolId
  (executionCashFlowEvents feeEvents realizedEvents : Nat)
  legacyPrefix : Bool
  deriving DecidableEq

def UnvaluedExecutionTotals.empty (owner : SleeveKey) : UnvaluedExecutionTotals where
  strategy := (ofLex owner).1
  symbol := (ofLex owner).2
  executionCashFlowEvents := 0
  feeEvents := 0
  realizedEvents := 0
  legacyPrefix := false

structure ExecutionAccounting where
  balances : Dict AssetKey AssetExecutionTotals
  unvalued : Dict SleeveKey UnvaluedExecutionTotals
  completeFromStart : Bool
  deriving DecidableEq

def ExecutionAccounting.default : ExecutionAccounting := ⟨∅, ∅, true⟩

structure ExecutionAccountingInput where
  strategy : StrategyId
  symbol : SymbolId
  side : Side
  qty : Exact
  px : Option Exact
  settlementAsset : AssetId
  fee : Option AssetAmount
  realized : RealizedValue
  deriving DecidableEq

def ExecutionAccountingInput.owner (input : ExecutionAccountingInput) : SleeveKey :=
  sleeveKey input.strategy input.symbol

def ExecutionAccountingInput.assets (input : ExecutionAccountingInput) : List AssetId :=
  ([input.settlementAsset, input.realized.asset] ++ (input.fee.map AssetAmount.asset).toList).filter
    fun asset => asset ≠ .unknown

structure BalanceChange where
  key : AssetKey
  prior : Option AssetExecutionTotals
  next : AssetExecutionTotals
  deriving DecidableEq

structure UnvaluedChange where
  key : SleeveKey
  prior : Option UnvaluedExecutionTotals
  next : UnvaluedExecutionTotals
  deriving DecidableEq

structure AccountingChange where
  balances : List BalanceChange
  unvalued : List UnvaluedChange
  deriving DecidableEq

def validateAsset : AssetId → Except String Unit
  | .named name => require (name ≠ "") "asset accounting requires an explicit currency"
  | .unknown => .error "asset accounting requires an explicit currency"

def validateBalance (row : AssetExecutionTotals) : Except String Unit :=
  firstError [validateAsset row.asset, stores row.executionCashFlow, stores row.fees, stores row.realizedGross]

/-- `increment`, on a counter of 64 bits. -/
def increment (value : Nat) : Except String Nat :=
  if value + 1 < 2 ^ 64 then .ok (value + 1) else .error "unvalued execution counter overflow"

def unvaluedEmpty (row : UnvaluedExecutionTotals) : Bool :=
  row.executionCashFlowEvents = 0 ∧ row.feeEvents = 0 ∧ row.realizedEvents = 0 ∧ row.legacyPrefix = false

/-- The rows an execution touches, by asset, and its owner's count. -/
structure Draft where
  touched : Dict AssetId AssetExecutionTotals
  unvalued : UnvaluedExecutionTotals

def Draft.Within (assets : List AssetId) (d : Draft) : Prop :=
  ∀ asset row, d.touched.find? asset = some row → asset ∈ assets

namespace ExecutionAccounting

variable (acc : ExecutionAccounting) (input : ExecutionAccountingInput) (change : AccountingChange)
  (owner : SleeveKey)

def row (asset : AssetId) : AssetExecutionTotals :=
  (acc.balances.find? (assetKey owner asset)).getD (.zero owner asset)

/-- The touched row of an asset, taken from the books the first time, with a
change made to it. -/
def balance (asset : AssetId)
    (change : AssetExecutionTotals → AssetExecutionTotals) (draft : Draft) : Except String Draft := do
  validateAsset asset
  .ok { draft with touched :=
    draft.touched.insert asset (change ((draft.touched.find? asset).getD (acc.row owner asset))) }

/-- The cash of an execution: the consideration of a sale comes in, that of a purchase goes out. -/
def cashOf (side : Side) (value : Exact) : Exact := if side = .sell then value else -value

def countEvent (count : UnvaluedExecutionTotals → Except String UnvaluedExecutionTotals) (draft : Draft) :
    Except String Draft := do
  let unvalued ← count draft.unvalued
  .ok { draft with unvalued := unvalued }

/-- An amount posted in its asset; one that is missing, or that is in no known asset and
not zero, is counted. -/
def postAmount (amount : Option Exact) (asset : AssetId)
    (add : Exact → AssetExecutionTotals → AssetExecutionTotals)
    (count : UnvaluedExecutionTotals → Except String UnvaluedExecutionTotals) (draft : Draft) : Except String Draft :=
  match amount, asset with
  | some value, .named name => acc.balance owner (.named name) (add value) draft
  | some value, .unknown => if value ≠ 0 then countEvent count draft else .ok draft
  | none, _ => countEvent count draft

/-- The cash of the execution. Without a price or a named asset it is counted. -/
def postCash (draft : Draft) : Except String Draft :=
  match input.settlementAsset, input.px with
  | .named name, some price =>
    acc.balance input.owner (.named name) (fun row =>
      { row with executionCashFlow := row.executionCashFlow + cashOf input.side (input.qty * price) }) draft
  | _, _ => countEvent (fun row => do
      let events ← increment row.executionCashFlowEvents
      .ok { row with executionCashFlowEvents := events }) draft

def postFee (draft : Draft) : Except String Draft := do
  firstError (input.fee.toList.flatMap (fun fee =>
    [fee.amount.validateProvenance.mapError ExactError.toString, stores fee.amount.value]))
  acc.postAmount input.owner (input.fee.map (fun fee => fee.amount.value))
    ((input.fee.map AssetAmount.asset).getD .unknown)
    (fun value row => { row with fees := row.fees + value })
    (fun row => do
      let events ← increment row.feeEvents
      .ok { row with feeEvents := events }) draft

def postRealized (draft : Draft) : Except String Draft := do
  firstError (input.realized.amount.toList.map stores)
  acc.postAmount input.owner input.realized.amount input.realized.asset
    (fun value row => { row with realizedGross := row.realizedGross + value })
    (fun row => do
      let events ← increment row.realizedEvents
      .ok { row with realizedEvents := events }) draft

def validateInput : Except String Unit := do
  require (0 < input.qty ∧ input.px.all (fun price => 0 < price)) "invalid execution accounting quantity or price"
  firstError (stores input.qty :: input.px.toList.map stores)

def count : UnvaluedExecutionTotals :=
  (acc.unvalued.find? owner).getD (.empty owner)

def draft (acc : ExecutionAccounting) (input : ExecutionAccountingInput) : Except String Draft := do
  validateInput input
  let draft ← acc.postCash input ⟨∅, acc.count input.owner⟩
  let draft ← acc.postFee input draft
  acc.postRealized input draft

def changeOf (draft : Draft) : AccountingChange where
  balances := draft.touched.entries.map (fun row =>
    { key := assetKey owner row.1, prior := acc.balances.find? (assetKey owner row.1), next := row.2 })
  unvalued :=
    if some draft.unvalued ≠ acc.unvalued.find? owner ∧ ¬ unvaluedEmpty draft.unvalued then
      [{ key := owner, prior := acc.unvalued.find? owner, next := draft.unvalued }]
    else []

def prepare : Except String AccountingChange := do
  let draft ← acc.draft input
  firstError (draft.touched.entries.map (fun row => validateBalance row.2))
  .ok (acc.changeOf input.owner draft)

/-- The rows of a change are still the ones it was prepared against. -/
def Current : Prop :=
  (∀ row ∈ change.balances, acc.balances.find? row.key = row.prior) ∧
    ∀ row ∈ change.unvalued, acc.unvalued.find? row.key = row.prior
  deriving Decidable

/-- `ExecutionAccounting::validate_change`, and `validate_batch`. -/
def validateChange : Except String Unit :=
  require (acc.Current change) "stale prepared execution accounting change"

def put : ExecutionAccounting where
  balances := acc.balances.insertAll (change.balances.map (fun row => (row.key, row.next)))
  unvalued := acc.unvalued.insertAll (change.unvalued.map (fun row => (row.key, row.next)))
  completeFromStart := acc.completeFromStart

/-- `ExecutionAccounting::apply`, and `apply_batch`: the books it leaves behind come with
its answer. -/
def apply : Except String Unit × ExecutionAccounting :=
  match acc.validateChange change with
  | .error e => (.error e, acc)
  | .ok () => (.ok (), acc.put change)

def record : Except String ExecutionAccounting := do
  let change ← acc.prepare input
  match acc.apply change with
  | (.error e, _) => .error e
  | (.ok (), books) => .ok books

end ExecutionAccounting

/-! ## What an input states

The amounts an input states in an asset: these are what its preparation posts there. -/

def AssetExecutionTotals.post (row : AssetExecutionTotals) (cash fees realized : Exact) : AssetExecutionTotals :=
  { row with
    executionCashFlow := row.executionCashFlow + cash
    fees := row.fees + fees
    realizedGross := row.realizedGross + realized }

@[simp] theorem AssetExecutionTotals.post_zero (row : AssetExecutionTotals) : row.post 0 0 0 = row := by simp [post]

@[simp] theorem AssetExecutionTotals.post_post (row : AssetExecutionTotals) (c f r c' f' r' : Exact) :
    (row.post c f r).post c' f' r' = row.post (c + c') (f + f') (r + r') := by
  simp [post, add_assoc]

namespace ExecutionAccountingInput

/-- An amount of one asset, seen in another: only a known amount of a named asset counts. -/
def amountIn (amount : Option Exact) (of asset : AssetId) : Exact :=
  match amount, of with
  | some value, .named name => if .named name = asset then value else 0
  | _, _ => 0

variable (input : ExecutionAccountingInput)

def cashIn : AssetId → Exact :=
  amountIn (input.px.map (fun price => ExecutionAccounting.cashOf input.side (input.qty * price))) input.settlementAsset

def feeAsset : AssetId := (input.fee.map AssetAmount.asset).getD .unknown

def feeIn : AssetId → Exact :=
  amountIn (input.fee.map (fun fee => fee.amount.value)) input.feeAsset

def realizedIn : AssetId → Exact :=
  amountIn input.realized.amount input.realized.asset

variable {name : String} {asset : AssetId}

theorem mem_assets {input : ExecutionAccountingInput} : .named name ∈ input.assets ↔
    input.settlementAsset = .named name ∨ input.realized.asset = .named name ∨ input.feeAsset = .named name := by
  rw [assets, feeAsset]
  cases input.fee with
  | none => simp [eq_comm (a := AssetId.named name)]
  | some fee => simp [eq_comm (a := AssetId.named name)]

theorem amountIn_self {value : Exact} : amountIn (some value) (.named name) (.named name) = value :=
  if_pos rfl

theorem amountIn_ne {value : Exact} (h : .named name ≠ asset) : amountIn (some value) (.named name) asset = 0 :=
  if_neg h

theorem amountIn_none {of : AssetId} : amountIn none of asset = 0 := rfl

variable {amount : Option Exact}

theorem amountIn_unknown : amountIn amount .unknown asset = 0 := by
  cases amount <;> rfl

end ExecutionAccountingInput

namespace ExecutionAccounting

section
variable {acc acc' : ExecutionAccounting} {input : ExecutionAccountingInput} {owner : SleeveKey} {asset : AssetId}
  {d d' d'' : Draft} {change : AssetExecutionTotals → AssetExecutionTotals}

variable (acc owner d) in
def read (asset : AssetId) : AssetExecutionTotals :=
  (d.touched.find? asset).getD (acc.row owner asset)

variable (acc input) in
/-- One round of posting for an input: it touches assets the input names, and adds to
each row the amounts given for it. -/
structure Posts (cash fees realized : AssetId → Exact)
    (d d' : Draft) : Prop where
  within : d.Within input.assets → d'.Within input.assets
  read : ∀ asset, acc.read input.owner d' asset =
    (acc.read input.owner d asset).post (cash asset) (fees asset) (realized asset)

theorem Posts.trans {c f r c' f' r' : AssetId → Exact} (h : Posts acc input c f r d d')
    (h' : Posts acc input c' f' r' d' d'') :
    Posts acc input (fun a => c a + c' a) (fun a => f a + f' a) (fun a => r a + r' a) d d'' where
  within := fun hd => h'.within (h.within hd)
  read := fun asset => by rw [h'.read, h.read, post_post]

theorem Posts.refl : Posts acc input (fun _ => 0) (fun _ => 0) (fun _ => 0) d d where
  within := fun hd => hd
  read := fun _ => (post_zero _).symm

variable {count : UnvaluedExecutionTotals → Except String UnvaluedExecutionTotals} {result : AccountingChange}

theorem posts_countEvent
    (h : countEvent count d = .ok d') : Posts acc input (fun _ => 0) (fun _ => 0) (fun _ => 0) d d' := by
  simp only [countEvent, ok_iff] at h
  obtain ⟨u, -, rfl⟩ := h
  exact ⟨fun hd => hd, fun asset => (post_zero _).symm⟩

theorem posts_balance {c f r : AssetId → Exact} (hasset : asset ∈ input.assets)
    (hchange : ∀ row, change row = row.post (c asset) (f asset) (r asset))
    (hother : ∀ asset', asset ≠ asset' → c asset' = 0 ∧ f asset' = 0 ∧ r asset' = 0)
    (h : acc.balance input.owner asset change d = .ok d') : Posts acc input c f r d d' := by
  simp only [balance, ok_iff] at h
  obtain ⟨-, rfl⟩ := h
  refine ⟨fun hd asset' row hrow => ?_, fun asset' => ?_⟩
  · rw [Dict.find?_insert] at hrow
    split at hrow
    · next heq => exact heq ▸ hasset
    · exact hd asset' row hrow
  · rw [ExecutionAccounting.read, Dict.find?_insert]
    split
    · next heq =>
      subst heq
      exact hchange _
    · next hne =>
      obtain ⟨hc, hf, hr⟩ := hother asset' hne
      rw [hc, hf, hr, post_zero]
      rfl

open ExecutionAccountingInput in
theorem postCash_posts (h : acc.postCash input d = .ok d') :
    Posts acc input input.cashIn (fun _ => 0) (fun _ => 0) d d' := by
  unfold postCash at h
  split at h
  · next name price hasset hpx =>
    have hcash : input.cashIn = amountIn (some (cashOf input.side (input.qty * price))) (.named name) := by
      rw [cashIn, hpx, hasset, Option.map_some]
    rw [hcash]
    apply posts_balance (mem_assets.mpr (.inl hasset)) _ _ h
    · intro row
      simp [amountIn_self, post]
    · intro asset' hne
      simp [amountIn_ne hne]
  · next hno =>
    have hcash : input.cashIn = fun _ => 0 := by
      funext asset
      rw [cashIn]
      cases hpx : input.px with
      | none => exact amountIn_none
      | some price =>
        cases hasset : input.settlementAsset with
        | named name => exact absurd hpx (hno name price hasset)
        | unknown => exact amountIn_unknown
    rw [hcash]
    exact posts_countEvent h

open ExecutionAccountingInput in
/-- An amount is posted where it stands: `add` says to which of the three totals. -/
theorem postAmount_posts {add : Exact → AssetExecutionTotals → AssetExecutionTotals}
    {amount : Option Exact} {c f r : Exact → Exact}
    (hadd : ∀ value row, add value row = row.post (c value) (f value) (r value)) (hc : c 0 = 0) (hf : f 0 = 0)
    (hr : r 0 = 0) (hasset : ∀ name, asset = .named name → asset ∈ input.assets)
    (h : acc.postAmount input.owner amount asset add count d = .ok d') :
    Posts acc input (fun a => c (amountIn amount asset a)) (fun a => f (amountIn amount asset a))
      (fun a => r (amountIn amount asset a)) d d' := by
  unfold postAmount at h
  split at h
  · next value name =>
    apply posts_balance (hasset name rfl) _ _ h
    · intro row
      rw [amountIn_self, hadd]
    · intro asset' hne
      simp only [amountIn_ne hne]
      exact ⟨hc, hf, hr⟩
  · next value =>
    simp only [amountIn_unknown, hc, hf, hr]
    split at h
    · exact posts_countEvent h
    · cases h
      exact Posts.refl
  · simp only [amountIn_none, hc, hf, hr]
    exact posts_countEvent h

theorem postFee_posts (h : acc.postFee input d = .ok d') :
    Posts acc input (fun _ => 0) input.feeIn (fun _ => 0) d d' := by
  simp only [postFee, ok_iff] at h
  apply postAmount_posts (c := fun _ => 0) (f := fun v => v) (r := fun _ => 0) _ rfl rfl rfl _ h.2
  · intro value row
    simp [post]
  · intro name hname
    rw [hname]
    exact ExecutionAccountingInput.mem_assets.mpr (.inr (.inr hname))

theorem postRealized_posts (h : acc.postRealized input d = .ok d') :
    Posts acc input (fun _ => 0) (fun _ => 0) input.realizedIn d d' := by
  simp only [postRealized, ok_iff] at h
  apply postAmount_posts (c := fun _ => 0) (f := fun _ => 0) (r := fun v => v) _ rfl rfl rfl _ h.2
  · intro value row
    simp [post]
  · intro name hname
    rw [hname]
    exact ExecutionAccountingInput.mem_assets.mpr (.inr (.inl hname))

/-- **What a draft holds**: rows of assets the input names, each the books' own with the
stated amounts added. -/
theorem draft_posts (h : acc.draft input = .ok d) : d.Within input.assets ∧ ∀ asset, acc.read input.owner d asset =
      (acc.row input.owner asset).post (input.cashIn asset) (input.feeIn asset) (input.realizedIn asset) := by
  simp only [draft, ok_iff] at h
  obtain ⟨-, d₁, hcash, d₂, hfee, hrealized⟩ := h
  have hposts := ((postCash_posts hcash).trans (postFee_posts hfee)).trans (postRealized_posts hrealized)
  refine ⟨hposts.within (fun asset row hrow => ?_), fun asset => ?_⟩
  · cases hrow
  · rw [hposts.read]
    simp [read]

variable (acc acc' input) in
/-- Books that agree on the rows an input can touch. -/
structure Agree : Prop where
  balances : ∀ asset ∈ input.assets,
    acc.balances.find? (assetKey input.owner asset) = acc'.balances.find? (assetKey input.owner asset)
  unvalued : acc.unvalued.find? input.owner = acc'.unvalued.find? input.owner

section
variable (h : Agree acc acc' input)
include h

theorem Agree.balance (hasset : asset ∈ input.assets) :
    acc.balance input.owner asset change d = acc'.balance input.owner asset change d := by
  rw [ExecutionAccounting.balance, ExecutionAccounting.balance, row, row, h.balances asset hasset]

theorem Agree.postCash : acc.postCash input d = acc'.postCash input d := by
  unfold ExecutionAccounting.postCash
  split
  · next name price hasset hpx => exact h.balance (ExecutionAccountingInput.mem_assets.mpr (.inl hasset))
  · rfl

theorem Agree.postAmount {add : Exact → AssetExecutionTotals → AssetExecutionTotals} {amount : Option Exact}
    (hasset : ∀ name, asset = .named name → asset ∈ input.assets) :
    acc.postAmount input.owner amount asset add count d = acc'.postAmount input.owner amount asset add count d := by
  unfold ExecutionAccounting.postAmount
  split
  · next name => exact h.balance (hasset name rfl)
  · rfl
  · rfl

theorem Agree.draft : acc.draft input = acc'.draft input := by
  have hfee : ∀ d, acc.postFee input d = acc'.postFee input d := by
    intro d
    rw [postFee, postFee, h.postAmount]
    intro name hname
    rw [hname]
    exact ExecutionAccountingInput.mem_assets.mpr (.inr (.inr hname))
  have hrealized : ∀ d, acc.postRealized input d = acc'.postRealized input d := by
    intro d
    rw [postRealized, postRealized, h.postAmount]
    intro name hname
    rw [hname]
    exact ExecutionAccountingInput.mem_assets.mpr (.inr (.inl hname))
  rw [ExecutionAccounting.draft, ExecutionAccounting.draft, count, count, h.unvalued, h.postCash]
  simp only [hfee, hrealized]

/-- **A preparation reads nothing but the rows it can touch.** -/
theorem Agree.prepare : acc.prepare input = acc'.prepare input := by
  rw [ExecutionAccounting.prepare, ExecutionAccounting.prepare, h.draft]
  cases hdraft : acc'.draft input with
  | error e => rfl
  | ok d =>
    have hchange : acc.changeOf input.owner d = acc'.changeOf input.owner d := by
      rw [changeOf, changeOf, h.unvalued]
      congr 1
      apply map_congr_left
      intro row hrow
      obtain ⟨asset, next⟩ := row
      rw [h.balances asset ((draft_posts hdraft).1 asset next (Dict.mem_entries.mp hrow))]
    simp only [bind, Except.bind, hchange]

end

theorem prepare_ok (h : acc.prepare input = .ok result) :
    ∃ d, acc.draft input = .ok d ∧ (∀ asset row, d.touched.find? asset = some row → validateBalance row = .ok ()) ∧
      result = acc.changeOf input.owner d := by
  simp only [prepare, ok_iff, firstError_eq_ok, mem_map] at h
  obtain ⟨d, hd, hvalid, rfl⟩ := h
  refine ⟨d, hd, fun asset row hrow => ?_, rfl⟩
  exact hvalid _ ⟨(asset, row), Dict.mem_entries.mpr hrow, rfl⟩

theorem eq_of_mem_unvalued {owner : SleeveKey} {row} (h : row ∈ (acc.changeOf owner d).unvalued) :
    row = { key := owner, prior := acc.unvalued.find? owner, next := d.unvalued } := by
  simp only [changeOf] at h
  split at h
  · exact mem_singleton.mp h
  · cases h

theorem prepare_keys (h : acc.prepare input = .ok result) :
    (∀ row ∈ result.balances, ∃ asset ∈ input.assets, row.key = assetKey input.owner asset) ∧
      ∀ row ∈ result.unvalued, row.key = input.owner := by
  obtain ⟨d, hd, -, rfl⟩ := prepare_ok h
  refine ⟨fun row hrow => ?_, fun row hrow => ?_⟩
  · obtain ⟨⟨asset, next⟩, hentry, rfl⟩ := mem_map.mp hrow
    exact ⟨asset, (draft_posts hd).1 asset next (Dict.mem_entries.mp hentry), rfl⟩
  · rw [eq_of_mem_unvalued hrow]

theorem current_prepare (h : acc.prepare input = .ok result) : acc.Current result := by
  obtain ⟨d, hd, -, rfl⟩ := prepare_ok h
  refine ⟨fun row hrow => ?_, fun row hrow => ?_⟩
  · obtain ⟨⟨asset, next⟩, hentry, rfl⟩ := mem_map.mp hrow
    rfl
  · rw [eq_of_mem_unvalued hrow]

theorem record_eq : acc.record input = (acc.prepare input).map acc.put := by
  unfold record
  cases h : acc.prepare input with
  | error e => rfl
  | ok result =>
    have hvalid : acc.validateChange result = .ok () := require_eq_ok.mpr (current_prepare h)
    simp only [bind, Except.bind, apply, hvalid, Except.map]

/-- **An execution adds what it states to its owner's rows**, and leaves all others. -/
theorem row_record (h : acc.record input = .ok acc') (owner : SleeveKey) (asset : AssetId) : acc'.row owner asset =
      if owner = input.owner then
        (acc.row owner asset).post (input.cashIn asset) (input.feeIn asset) (input.realizedIn asset)
      else acc.row owner asset := by
  rw [record_eq, map_eq_ok] at h
  obtain ⟨result, hresult, rfl⟩ := h
  obtain ⟨d, hd, -, rfl⟩ := prepare_ok hresult
  have hkeys : ((acc.changeOf input.owner d).balances.map (fun row => (row.key, row.next))) =
      d.touched.entries.map (fun row => (assetKey input.owner row.1, row.2)) := by
    rw [changeOf, map_map]
    rfl
  have hinjective : Function.Injective (assetKey input.owner) := fun _ _ h => (assetKey_inj.mp h).2
  rw [row, put, hkeys]
  split
  · next howner =>
    subst howner
    rw [← (draft_posts hd).2 asset, read, Dict.find?_insertAll_entries hinjective, row]
    cases d.touched.find? asset <;> rfl
  · next howner =>
    have hother : ∀ named, assetKey input.owner named ≠ assetKey owner asset :=
      fun _ hkey => howner (assetKey_inj.mp hkey).1.symm
    rw [Dict.find?_insertAll_entries_of_ne hother]
    rfl

end

end ExecutionAccounting

end LiquidityMigration.Portfolio
