import LiquidityMigration.Lib.AverageCost
import LiquidityMigration.Lib.Checks
import LiquidityMigration.Numeric.Exact

/- The settled inventory of the sleeves: one row for each strategy and symbol that holds something. A fill is
   prepared with every check and then applied; a prepared change that the inventory has moved past is refused. A row
   has a nonzero quantity and, where known, a positive cost and a positive stop, and stands under its own key. The
   structure carries that, and `prepareFill` keeps it. -/
namespace LiquidityMigration.Portfolio
open Numeric Checks AList List

abbrev StrategyId := Nat

abbrev SymbolId := Nat

abbrev PositionKey := StrategyId × SymbolId

inductive Side where
  | buy | sell
  deriving DecidableEq

/-- A sleeve's settled allocation, independent of the venue's net position. -/
structure PortfolioPosition where
  strategy : StrategyId
  symbol : SymbolId
  signedQty : Exact
  /-- Absolute cost of the remaining units; unknown for quantities taken over without one. -/
  (entryValue stopPx : Option Exact)
  settlementAsset : AssetId
  deriving DecidableEq

open PortfolioPosition

def PortfolioPosition.key (row : PortfolioPosition) : PositionKey := (row.strategy, row.symbol)

/-- The signs every held row has. -/
structure PortfolioPosition.Valid (row : PortfolioPosition) : Prop where
  qty : row.signedQty ≠ 0
  entry : ∀ v, row.entryValue = some v → 0 < v
  stop : ∀ s, row.stopPx = some s → 0 < s

structure Inventory where
  positions : AList fun _ : PositionKey => PortfolioPosition
  rows_ok : ∀ key row, positions.lookup key = some row → row.key = key ∧ row.Valid

structure InventoryFill where
  strategy : StrategyId
  symbol : SymbolId
  side : Side
  qty : Exact
  (px stop : Option Exact)
  settlementAsset : AssetId

def InventoryFill.key (fill : InventoryFill) : PositionKey := (fill.strategy, fill.symbol)

structure RealizedValue where
  amount : Option Exact
  asset : AssetId
  deriving DecidableEq

abbrev RealizedRows := List (StrategyId × SymbolId × RealizedValue)

structure InventoryChange where
  key : PositionKey
  (prior next : Option PortfolioPosition)
  (priorNet priorGross : Exact)
  realized : RealizedValue
  next_ok : ∀ row, next = some row → row.key = key ∧ row.Valid

namespace Inventory

def empty : Inventory := ⟨∅, fun _ _ h => by cases h⟩

variable (inv : Inventory)

def position (key : PositionKey) : Option PortfolioPosition := inv.positions.lookup key

def rows : List PortfolioPosition :=
  (inv.positions.entries.map Sigma.snd).insertionSort
    fun a b => a.strategy < b.strategy ∨ (a.strategy = b.strategy ∧ a.symbol ≤ b.symbol)

theorem rows_perm : inv.rows.Perm (inv.positions.entries.map Sigma.snd) :=
  perm_insertionSort _ _

def positionsOnSymbol (symbol : SymbolId) : List PortfolioPosition :=
  inv.rows.filter fun row => row.symbol = symbol

def net (symbol : SymbolId) : Exact :=
  (inv.positionsOnSymbol symbol).foldl (fun qty row => qty + row.signedQty) 0

def gross (symbol : SymbolId) : Exact :=
  (inv.positionsOnSymbol symbol).foldl (fun qty row => qty + |row.signedQty|) 0

end Inventory

/-- The projection of a value, kept only as a check; a failure says what was projected. -/
def projects (what : String) (f64 : Exact → Option ℚ) (x : Exact) : Except String Unit :=
  ((toF64 f64 x).map (fun _ => ())).mapError fun e => what ++ ": " ++ e.toString

def stores (x : Exact) : Except String Unit := (validateStorage x).mapError ExactError.toString

variable (f64 : Exact → Option ℚ)

def validateQuantity (qty : Exact) : Except String Unit :=
  firstError [projects "portfolio quantity projection" f64 qty, stores qty]

def validatePrice (value : Exact) : Except String Unit :=
  firstError [projects "portfolio execution price" f64 value, stores value]

def validatePosition (row : PortfolioPosition) : Except String Unit :=
  if row.signedQty = 0 ∨ row.entryValue.any (fun v => ¬ 0 < v) ∨ row.stopPx.any (fun s => ¬ 0 < s) then
    .error "invalid portfolio inventory row"
  else firstError
    ([validateQuantity f64 row.signedQty] ++ (row.entryValue.toList ++ row.stopPx.toList).map stores ++
      -- the held quantity is not zero, so the division of `checked_div` goes through
      row.entryValue.toList.map (fun cost => projects "portfolio basis projection" f64 (cost / |row.signedQty|)) ++
      row.stopPx.toList.map (projects "portfolio stop projection" f64))

section
variable {f64 : Exact → Option ℚ} {x : Exact}

@[simp] theorem projects_ok {what : String} : projects what f64 x = .ok () ↔ Representable f64 x := by
  simp [projects, Representable]

@[simp] theorem stores_ok : stores x = .ok () ↔ Stored x := by
  simp [stores, validateStorage_ok]

@[simp] theorem validateQuantity_ok : validateQuantity f64 x = .ok () ↔ Representable f64 x ∧ Stored x := by
  simp [validateQuantity]

@[simp] theorem validatePrice_ok : validatePrice f64 x = .ok () ↔ Representable f64 x ∧ Stored x := by
  simp [validatePrice]

theorem firstError_toList {o : Option Exact} {c : Exact → Except String Unit} :
    firstError (o.toList.map c) = .ok () ↔ ∀ v, o = some v → c v = .ok () := by
  cases o <;> simp

theorem validatePosition_ok {row : PortfolioPosition} : validatePosition f64 row = .ok () ↔
    row.Valid ∧ (Representable f64 row.signedQty ∧ Stored row.signedQty) ∧
    (∀ v, row.entryValue = some v → Stored v ∧ Representable f64 (v / |row.signedQty|)) ∧
    (∀ s, row.stopPx = some s → Stored s ∧ Representable f64 s) := by
  have hsigns : ¬ (row.signedQty = 0 ∨ row.entryValue.any (fun v => ¬ 0 < v) ∨ row.stopPx.any (fun s => ¬ 0 < s)) ↔
      row.Valid := by
    constructor
    · intro h
      simp only [not_or] at h
      refine ⟨h.1, fun v hv => ?_, fun s hs => ?_⟩
      · rw [hv] at h
        simpa using h.2.1
      · rw [hs] at h
        simpa using h.2.2
    · intro h
      simp only [not_or]
      refine ⟨h.qty, ?_, ?_⟩
      · cases hv : row.entryValue with
        | none => simp
        | some v => simpa using h.entry v hv
      · cases hs : row.stopPx with
        | none => simp
        | some s => simpa using h.stop s hs
  unfold validatePosition
  split
  · next h =>
    refine ⟨fun hc => (by cases hc), fun hc => ?_⟩
    exact absurd h (hsigns.mpr hc.1)
  · next h =>
    have hvalid := hsigns.mp h
    simp only [firstError_append, firstError_cons, firstError_nil, map_append, firstError_toList,
      validateQuantity_ok, stores_ok, projects_ok, and_true, true_and, hvalid]
    grind

end

def signum (x : Exact) : Int := if 0 < x then 1 else if x < 0 then -1 else 0

def InventoryFill.delta (fill : InventoryFill) : Exact :=
  match fill.side with
  | .buy => fill.qty
  | .sell => -fill.qty

def joinStop (side : Side) : Option Exact → Option Exact → Option Exact
  | some old, some new => some (match side with | .buy => max old new | .sell => min old new)
  | some old, none => some old
  | none, value => value

theorem joinStop_pos {side : Side} {old : Option Exact} {new : Exact} (hold : ∀ s, old = some s → 0 < s)
    (hnew : 0 < new) : ∀ s, joinStop side old (some new) = some s → 0 < s := by
  intro s hs
  cases old with
  | none =>
    cases hs
    exact hnew
  | some o =>
    have ho := hold o rfl
    cases side with
    | buy => cases hs; exact lt_max_of_lt_left ho
    | sell => cases hs; exact lt_min ho hnew

/-- The asset of a position that grows, and of what a fill of it realizes. -/
def joinedAsset (held : PortfolioPosition) (fill : InventoryFill) : AssetId :=
  if held.settlementAsset = fill.settlementAsset then fill.settlementAsset else .unknown

/-- Cost, stop and asset of the position after the fill, and the amount it
realizes: the branches of `prepare_fill` for a position that is held. -/
def heldTerms (held : PortfolioPosition) (fill : InventoryFill) :
    Option Exact × Option Exact × AssetId × Option Exact :=
  let priorQty := |held.signedQty|
  if signum held.signedQty = signum fill.delta then
    let value := Option.map₂ (fun value price => value + fill.qty * price) held.entryValue fill.px
    (value, joinStop fill.side held.stopPx fill.stop, joinedAsset held fill, some 0)
  else
    let closed := min fill.qty priorQty
    let closedCost := held.entryValue.map fun value => value * closed / priorQty
    let amount := Option.map₂ (fun cost price =>
      let value := closed * price - cost
      if 0 < held.signedQty then value else -value) closedCost fill.px
    if fill.qty < priorQty then
      (Option.map₂ (fun value closed => value - closed) held.entryValue closedCost, held.stopPx,
        held.settlementAsset, amount)
    else if fill.qty = priorQty then (some 0, none, held.settlementAsset, amount)
    else (fill.px.map (fun price => (fill.qty - priorQty) * price), fill.stop, fill.settlementAsset, amount)

def assetChanged : AssetId → AssetId → Bool
  | .named old, .named new => old ≠ new
  | _, _ => false

def nextPosition (prior : Option PortfolioPosition) (fill : InventoryFill) :
    Except String (Option PortfolioPosition × RealizedValue) :=
  match prior with
  | some held =>
    if assetChanged held.settlementAsset fill.settlementAsset then
      .error "position settlement asset changed while held"
    else
      let signedQty := held.signedQty + fill.delta
      let terms := heldTerms held fill
      .ok (if signedQty = 0 then none else some
          { strategy := fill.strategy
            symbol := fill.symbol
            signedQty := signedQty
            entryValue := terms.1
            stopPx := terms.2.1
            settlementAsset := terms.2.2.1 },
        { amount := terms.2.2.2, asset := joinedAsset held fill })
  | none =>
    .ok (some
        { strategy := fill.strategy
          symbol := fill.symbol
          signedQty := fill.delta
          entryValue := fill.px.map (fun price => fill.qty * price)
          stopPx := fill.stop
          settlementAsset := fill.settlementAsset },
      { amount := some 0, asset := fill.settlementAsset })

def validateNext : Option PortfolioPosition → Except String Unit
  | some row => validatePosition f64 row
  | none => .ok ()

def quantityOf (row : Option PortfolioPosition) : Exact := (row.map PortfolioPosition.signedQty).getD 0

/-- The checks of `prepare_fill`, in order, and what it computes. -/
def checkFill (inv : Inventory) (fill : InventoryFill) : Except String (Option PortfolioPosition × RealizedValue) :=
  if ¬ 0 < fill.qty ∨ fill.px.any (fun p => ¬ 0 < p) ∨ fill.stop.any (fun s => ¬ 0 < s) then
    .error "invalid portfolio execution quantity or price"
  else
    match firstError (validateQuantity f64 fill.qty ::
        (fill.px.toList ++ fill.stop.toList).map (validatePrice f64)) with
    | .error e => .error e
    | .ok () =>
      let prior := inv.position fill.key
      match nextPosition prior fill with
      | .error e => .error e
      | .ok out =>
        (firstError
          ([validateNext f64 out.1,
            validateQuantity f64 (inv.net fill.symbol - quantityOf prior + quantityOf out.1),
            validateQuantity f64 (inv.gross fill.symbol - |quantityOf prior| + |quantityOf out.1|)] ++
            out.2.amount.toList.map stores)).map (fun _ => out)

section
variable {f64 : Exact → Option ℚ} {inv : Inventory} {fill : InventoryFill}
  {out : Option PortfolioPosition × RealizedValue}

theorem abs_delta (h : 0 < fill.qty) : |fill.delta| = fill.qty := by
  unfold InventoryFill.delta
  cases fill.side with
  | buy => exact abs_of_pos h
  | sell => rw [abs_neg, abs_of_pos h]

theorem delta_ne_zero (h : 0 < fill.qty) : fill.delta ≠ 0 := by
  apply abs_ne_zero.mp
  rw [abs_delta h]
  exact h.ne'

structure InventoryFill.Positive (fill : InventoryFill) : Prop where
  qty : 0 < fill.qty
  px : ∀ p, fill.px = some p → 0 < p
  stop : ∀ s, fill.stop = some s → 0 < s

theorem InventoryFill.positive_iff : fill.Positive ↔
    ¬ (¬ 0 < fill.qty ∨ fill.px.any (fun p => ¬ 0 < p) ∨ fill.stop.any (fun s => ¬ 0 < s)) := by
  constructor
  · intro h
    simp only [not_or, not_not]
    refine ⟨h.qty, ?_, ?_⟩
    · cases hp : fill.px with
      | none => simp
      | some p => simpa using h.px p hp
    · cases hs : fill.stop with
      | none => simp
      | some s => simpa using h.stop s hs
  · intro h
    simp only [not_or, not_not] at h
    refine ⟨h.1, fun p hp => ?_, fun s hs => ?_⟩
    · rw [hp] at h
      simpa using h.2.1
    · rw [hs] at h
      simpa using h.2.2

variable (f64 fill) in
structure InventoryFill.Bounded : Prop where
  qty : Representable f64 fill.qty ∧ Stored fill.qty
  px : ∀ p, fill.px = some p → Representable f64 p ∧ Stored p
  stop : ∀ s, fill.stop = some s → Representable f64 s ∧ Stored s

variable (f64 inv fill out) in
/-- What the outcome of a fill has to satisfy beyond the fill's own terms. -/
structure Acceptable : Prop where
  next : validateNext f64 out.1 = .ok ()
  net : Representable f64 (inv.net fill.symbol - quantityOf (inv.position fill.key) + quantityOf out.1) ∧
    Stored (inv.net fill.symbol - quantityOf (inv.position fill.key) + quantityOf out.1)
  gross : Representable f64 (inv.gross fill.symbol - |quantityOf (inv.position fill.key)| + |quantityOf out.1|) ∧
    Stored (inv.gross fill.symbol - |quantityOf (inv.position fill.key)| + |quantityOf out.1|)
  amount : ∀ v, out.2.amount = some v → Stored v

theorem checkFill_ok : checkFill f64 inv fill = .ok out ↔
    fill.Positive ∧ fill.Bounded f64 ∧ nextPosition (inv.position fill.key) fill = .ok out ∧
      Acceptable f64 inv fill out := by
  unfold checkFill
  split
  · next h =>
    refine ⟨fun hc => (by cases hc), fun hc => ?_⟩
    exact absurd h (InventoryFill.positive_iff.mp hc.1)
  · next h =>
    have hpos := InventoryFill.positive_iff.mpr h
    have hterms : firstError (validateQuantity f64 fill.qty ::
        (fill.px.toList ++ fill.stop.toList).map (validatePrice f64)) = .ok () ↔ fill.Bounded f64 := by
      simp only [firstError_cons, map_append, firstError_append, firstError_toList, validateQuantity_ok,
        validatePrice_ok]
      exact ⟨fun h => ⟨h.1, h.2.1, h.2.2⟩, fun h => ⟨h.qty, h.px, h.stop⟩⟩
    cases hc : firstError (validateQuantity f64 fill.qty ::
        (fill.px.toList ++ fill.stop.toList).map (validatePrice f64)) with
    | error e =>
      refine ⟨fun hc => (by cases hc), fun h => ?_⟩
      rw [hterms.mpr h.2.1] at hc
      cases hc
    | ok u =>
      have hb := hterms.mp hc
      dsimp only
      cases hn : nextPosition (inv.position fill.key) fill with
      | error e => exact ⟨fun hc => (by cases hc), fun h => (by cases h.2.2.1)⟩
      | ok out' =>
        have hchecks : firstError ([validateNext f64 out'.1,
            validateQuantity f64 (inv.net fill.symbol - quantityOf (inv.position fill.key) + quantityOf out'.1),
            validateQuantity f64 (inv.gross fill.symbol - |quantityOf (inv.position fill.key)| +
              |quantityOf out'.1|)] ++
            out'.2.amount.toList.map stores) = .ok () ↔ Acceptable f64 inv fill out' := by
          simp only [firstError_append, firstError_cons, firstError_nil, firstError_toList, validateQuantity_ok,
            stores_ok, and_true]
          exact ⟨fun h => ⟨h.1.1, h.1.2.1, h.1.2.2, h.2⟩, fun h => ⟨⟨h.next, h.net, h.gross⟩, h.amount⟩⟩
        constructor
        · intro hmap
          obtain ⟨_, hu, rfl⟩ := map_eq_ok.mp hmap
          exact ⟨hpos, hb, rfl, hchecks.mp hu⟩
        · intro h
          obtain ⟨-, -, heq, ha⟩ := h
          cases heq
          dsimp only
          rw [hchecks.mpr ha]
          rfl

variable {prior : Option PortfolioPosition} {row : PortfolioPosition}

theorem nextPosition_key (h : nextPosition prior fill = .ok out) (hrow : out.1 = some row) : row.key = fill.key := by
  unfold nextPosition at h
  split at h
  · split at h
    · cases h
    · cases h
      dsimp only at hrow
      split at hrow
      · cases hrow
      · cases hrow
        rfl
  · cases h
    cases hrow
    rfl

theorem nextPosition_qty (h : nextPosition prior fill = .ok out) :
    quantityOf out.1 = quantityOf prior + fill.delta := by
  unfold nextPosition at h
  split at h
  · split at h
    · cases h
    · cases h
      dsimp only
      split
      · next hz => exact hz.symm
      · rfl
  · cases h
    exact (zero_add _).symm

theorem nextPosition_ne_zero (hd : fill.delta ≠ 0)
    (h : nextPosition prior fill = .ok out) (hrow : out.1 = some row) : row.signedQty ≠ 0 := by
  unfold nextPosition at h
  split at h
  · split at h
    · cases h
    · cases h
      dsimp only at hrow
      split at hrow
      · cases hrow
      · next hz =>
        cases hrow
        exact hz
  · cases h
    cases hrow
    exact hd

theorem nextPosition_total (h : ∀ held, prior = some held → held.settlementAsset = fill.settlementAsset) :
    ∃ out, nextPosition prior fill = .ok out := by
  cases prior with
  | none => exact ⟨_, rfl⟩
  | some held =>
    have hnamed : assetChanged held.settlementAsset fill.settlementAsset = false := by
      rw [h held rfl]
      cases fill.settlementAsset <;> simp [assetChanged]
    unfold nextPosition
    simp only [hnamed, Bool.false_eq_true, if_false]
    exact ⟨_, rfl⟩

theorem joinStop_eq {side : Side} {old new : Option Exact} {s : Exact} (h : joinStop side old new = some s) :
    old = some s ∨ new = some s := by
  cases old with
  | none => exact .inr h
  | some o =>
    cases new with
    | none => exact .inl h
    | some n =>
      cases side with
      | buy =>
        cases h
        rcases max_choice o n with hm | hm
        · exact .inl (congrArg some hm.symm)
        · exact .inr (congrArg some hm.symm)
      | sell =>
        cases h
        rcases min_choice o n with hm | hm
        · exact .inl (congrArg some hm.symm)
        · exact .inr (congrArg some hm.symm)

theorem nextPosition_stop {s : Exact}
    (h : nextPosition prior fill = .ok out) (hrow : out.1 = some row) (hs : row.stopPx = some s) :
    fill.stop = some s ∨ ∃ held, prior = some held ∧ held.stopPx = some s := by
  unfold nextPosition at h
  split at h
  · next held =>
    split at h
    · cases h
    · cases h
      dsimp only at hrow
      split at hrow
      · cases hrow
      · cases hrow
        dsimp only [heldTerms] at hs
        split at hs
        · obtain hs | hs := joinStop_eq hs
          · exact .inr ⟨held, rfl, hs⟩
          · exact .inl hs
        · split at hs
          · exact .inr ⟨held, rfl, hs⟩
          · split at hs
            · cases hs
            · exact .inl hs
  · cases h
    cases hrow
    exact .inl hs

theorem checkFill_next (h : checkFill f64 inv fill = .ok out) :
    ∀ row, out.1 = some row → row.key = fill.key ∧ row.Valid := by
  obtain ⟨_, _, hnext, hacc⟩ := checkFill_ok.mp h
  intro row hrow
  refine ⟨nextPosition_key hnext hrow, ?_⟩
  have hval := hacc.next
  rw [hrow] at hval
  exact (validatePosition_ok.mp hval).1

end

namespace Inventory

variable (f64 : Exact → Option ℚ) (inv : Inventory) (change : InventoryChange)

def prepareFill (fill : InventoryFill) : Except String InventoryChange :=
  match h : checkFill f64 inv fill with
  | .error e => .error e
  | .ok out => .ok
    { key := fill.key
      prior := inv.position fill.key
      next := out.1
      priorNet := inv.net fill.symbol
      priorGross := inv.gross fill.symbol
      realized := out.2
      next_ok := checkFill_next h }

def validateChange : Except String Unit :=
  if inv.position change.key ≠ change.prior ∨ inv.net change.key.2 ≠ change.priorNet
      ∨ inv.gross change.key.2 ≠ change.priorGross then .error "stale prepared inventory change"
  else .ok ()

def put : Inventory where
  positions := match change.next with
    | some row => inv.positions.insert change.key row
    | none => inv.positions.erase change.key
  rows_ok := by
    intro key row hrow
    by_cases hk : key = change.key
    · subst hk
      split at hrow
      · next next hn =>
        rw [AList.lookup_insert] at hrow
        cases hrow
        exact change.next_ok row hn
      · rw [AList.lookup_erase] at hrow
        cases hrow
    · split at hrow
      · rw [AList.lookup_insert_ne hk] at hrow
        exact inv.rows_ok key row hrow
      · rw [AList.lookup_erase_ne hk] at hrow
        exact inv.rows_ok key row hrow

def apply : Except String (RealizedValue × Inventory) :=
  (inv.validateChange change).map fun _ => (change.realized, inv.put change)

def fill (f64 : Exact → Option ℚ) (inv : Inventory) (fill : InventoryFill) :
    Except String (RealizedValue × Inventory) :=
  match inv.prepareFill f64 fill with
  | .error e => .error e
  | .ok change => inv.apply change

def afterFill (fill : InventoryFill) : Inventory :=
  match inv.fill f64 fill with
  | .ok out => out.2
  | .error _ => inv

structure BatchChange where
  (prior next : Inventory)
  realized : RealizedRows

/-- The fills one after another, on a copy; the first that is refused ends it. -/
def fillAll (f64 : Exact → Option ℚ) (inv : Inventory) :
    List InventoryFill → Except String (RealizedRows × Inventory)
  | [] => .ok ([], inv)
  | f :: rest =>
    match inv.fill f64 f with
    | .error e => .error e
    | .ok (realized, next) =>
      (next.fillAll f64 rest).map fun out => ((f.strategy, f.symbol, realized) :: out.1, out.2)

def prepareBatch (fills : List InventoryFill) : Except String BatchChange :=
  (inv.fillAll f64 fills).map fun out => ⟨inv, out.2, out.1⟩

def validateBatch (change : BatchChange) : Except String Unit :=
  if ∀ key ∈ inv.positions.keys ++ change.prior.positions.keys, inv.position key = change.prior.position key then .ok ()
  else .error "stale prepared inventory batch"

def applyBatch (change : BatchChange) : Except String (RealizedRows × Inventory) :=
  (inv.validateBatch change).map fun _ => (change.realized, change.next)

def remove (key : PositionKey) : Inventory where
  positions := inv.positions.erase key
  rows_ok := by
    intro other row hrow
    by_cases hk : other = key
    · rw [hk, AList.lookup_erase] at hrow
      cases hrow
    · rw [AList.lookup_erase_ne hk] at hrow
      exact inv.rows_ok other row hrow

/-- A positive stop replaces a looser one of a position on that side. -/
def tightenStop (key : PositionKey) (side : Side) (stop : Exact) : Inventory where
  positions :=
    match inv.positions.lookup key with
    | some row =>
      if 0 < stop ∧ decide (0 < row.signedQty) = decide (side = .buy) then
        inv.positions.insert key { row with stopPx := joinStop side row.stopPx (some stop) }
      else inv.positions
    | none => inv.positions
  rows_ok := by
    intro other row hrow
    split at hrow
    · next held hheld =>
      split at hrow
      · next hc =>
        by_cases hk : other = key
        · subst hk
          rw [AList.lookup_insert] at hrow
          cases hrow
          obtain ⟨hkey, hvalid⟩ := inv.rows_ok _ _ hheld
          exact ⟨hkey, hvalid.qty, hvalid.entry, joinStop_pos hvalid.stop hc.1⟩
        · rw [AList.lookup_insert_ne hk] at hrow
          exact inv.rows_ok other row hrow
      · exact inv.rows_ok other row hrow
    · exact inv.rows_ok other row hrow

variable {f64 : Exact → Option ℚ} {inv : Inventory}
  {row : PortfolioPosition} {key : PositionKey} {realized : RealizedValue} {next : Inventory}

theorem position_of_mem_rows (h : row ∈ inv.rows) : inv.position row.key = some row := by
  obtain ⟨⟨key, r⟩, hentry, rfl⟩ := mem_map.mp (inv.rows_perm.mem_iff.mp h)
  have hlook : inv.positions.lookup key = some r := mem_lookup_iff.mpr hentry
  rw [(inv.rows_ok key r hlook).1]
  exact hlook

theorem mem_rows_of_position (h : inv.position key = some row) : row ∈ inv.rows := by
  apply inv.rows_perm.mem_iff.mpr
  exact mem_map.mpr ⟨⟨key, row⟩, mem_lookup_iff.mp h, rfl⟩

theorem rows_keys_nodup (inv : Inventory) : (inv.rows.map PortfolioPosition.key).Nodup := by
  apply (inv.rows_perm.map key).nodup_iff.mpr
  have hsame : (inv.positions.entries.map Sigma.snd).map key = inv.positions.entries.keys := by
    rw [map_map]
    apply map_congr_left
    intro e he
    exact (inv.rows_ok e.1 e.2 (mem_lookup_iff.mpr he)).1
  rw [hsame]
  exact inv.positions.nodupKeys

theorem mem_positionsOnSymbol {symbol : SymbolId} :
    row ∈ inv.positionsOnSymbol symbol ↔ inv.position (row.strategy, symbol) = some row := by
  simp only [positionsOnSymbol, mem_filter, decide_eq_true_eq]
  constructor
  · intro h
    rw [← h.2]
    exact position_of_mem_rows h.1
  · intro h
    exact ⟨mem_rows_of_position h, congrArg Prod.snd (inv.rows_ok _ row h).1⟩

theorem strategies_nodup (inv : Inventory) (symbol : SymbolId) :
    ((inv.positionsOnSymbol symbol).map PortfolioPosition.strategy).Nodup := by
  have hnodup : ((inv.positionsOnSymbol symbol).map PortfolioPosition.key).Nodup :=
    inv.rows_keys_nodup.sublist (filter_sublist.map _)
  rw [nodup_map_iff_inj_on (List.Nodup.of_map _ hnodup)]
  intro row hrow other hother hsame
  have hsymbol : ∀ r ∈ inv.positionsOnSymbol symbol, r.symbol = symbol := by
    intro r hr
    simpa using (mem_filter.mp hr).2
  apply inj_on_of_nodup_map hnodup hrow hother
  rw [PortfolioPosition.key, PortfolioPosition.key, hsame, hsymbol row hrow, hsymbol other hother]

theorem foldl_add_eq_sum (f : PortfolioPosition → Exact) (rows : List PortfolioPosition) (c : Exact) :
    rows.foldl (fun qty row => qty + f row) c = c + (rows.map f).sum := by
  induction rows generalizing c with
  | nil => simp
  | cons row rows ih =>
    rw [foldl_cons, ih, map_cons, sum_cons]
    ring

theorem net_eq_sum (inv : Inventory) (symbol : SymbolId) :
    inv.net symbol = ((inv.positionsOnSymbol symbol).map signedQty).sum := by
  rw [net, foldl_add_eq_sum, zero_add]

theorem gross_eq_sum (inv : Inventory) (symbol : SymbolId) :
    inv.gross symbol = ((inv.positionsOnSymbol symbol).map (fun row => |row.signedQty|)).sum := by
  rw [gross, foldl_add_eq_sum, zero_add]

variable (inv key) in
def beside : List PortfolioPosition :=
  ((inv.positions.entries.kerase key).map Sigma.snd).filter fun row => row.symbol = key.2

theorem mem_rows_of_mem_beside (h : row ∈ inv.beside key) : row ∈ inv.rows := by
  obtain ⟨e, he, hrow⟩ := mem_map.mp (mem_filter.mp h).1
  exact inv.rows_perm.mem_iff.mpr (mem_map.mpr ⟨e, (kerase_sublist _ _).subset he, hrow⟩)

variable (inv key) in
theorem sum_beside (f : PortfolioPosition → Exact) :
    ((inv.positionsOnSymbol key.2).map f).sum = ((inv.position key).map f).getD 0 + ((inv.beside key).map f).sum := by
  rw [positionsOnSymbol, ((inv.rows_perm.filter _).map f).sum_eq, beside]
  cases h : inv.position key with
  | none =>
    have hkey : key ∉ inv.positions.entries.keys := by
      intro hmem
      obtain ⟨row, hrow⟩ := Option.isSome_iff_exists.mp (lookup_isSome.mpr hmem)
      change inv.position key = some row at hrow
      rw [h] at hrow
      cases hrow
    simp [kerase_of_notMem_keys hkey]
  | some row =>
    have hsymbol : row.symbol = key.2 := by rw [← (inv.rows_ok key row h).1]; rfl
    have hmem : key ∈ inv.positions.entries.keys := lookup_isSome.mp (Option.isSome_iff_exists.mpr ⟨row, h⟩)
    obtain ⟨r, before, after, hnot, hentries, herase⟩ := exists_of_kerase hmem
    have hr : r = row := by
      have hlook : (⟨key, r⟩ : Sigma _) ∈ inv.positions.entries := by rw [hentries]; simp
      have heq : inv.position key = some r := mem_lookup_iff.mpr hlook
      rw [h] at heq
      exact (Option.some.inj heq).symm
    rw [hr] at hentries
    rw [herase, hentries]
    simp only [map_append, map_cons, filter_append, filter_cons, hsymbol, decide_true, if_true,
      sum_append, sum_cons, Option.map_some, Option.getD_some]
    ring

theorem beside_put (inv : Inventory) (change : InventoryChange) :
    (inv.put change).beside change.key = inv.beside change.key := by
  have herase : (inv.put change).positions.entries.kerase change.key = inv.positions.entries.kerase change.key := by
    have hnot := notMem_keys_kerase change.key inv.positions.nodupKeys
    unfold put
    dsimp only
    cases change.next with
    | none => exact kerase_of_notMem_keys hnot
    | some row => exact kerase_cons_eq rfl
  rw [beside, herase]
  rfl

variable (inv key) in
theorem net_beside :
    inv.net key.2 = quantityOf (inv.position key) + ((inv.beside key).map signedQty).sum := by
  rw [net_eq_sum, sum_beside inv key]
  rfl

variable (inv key) in
theorem gross_beside :
    inv.gross key.2 = |quantityOf (inv.position key)| + ((inv.beside key).map (fun row => |row.signedQty|)).sum := by
  rw [gross_eq_sum, sum_beside inv key]
  cases inv.position key with
  | none => simp [quantityOf]
  | some row => rfl

variable (inv key) in
theorem abs_net_le_gross (q : Exact) :
    |inv.net key.2 - quantityOf (inv.position key) + q| ≤ inv.gross key.2 - |quantityOf (inv.position key)| + |q| := by
  have hrest : |((inv.beside key).map signedQty).sum| ≤
      ((inv.beside key).map (fun row => |row.signedQty|)).sum := by
    have h := Multiset.abs_sum_le_sum_abs
      (s := ((inv.beside key).map signedQty : Multiset Exact))
    simpa [Function.comp_def] using h
  rw [net_beside, gross_beside, add_sub_cancel_left, add_sub_cancel_left]
  exact (abs_add_le _ _).trans (add_le_add_left hrest _)

theorem position_put (inv : Inventory) (change : InventoryChange) :
    (inv.put change).position change.key = change.next := by
  unfold put position
  dsimp only
  split
  · next h => rw [lookup_insert, h]
  · next h => rw [lookup_erase, h]

theorem position_put_ne (inv : Inventory) (change : InventoryChange)
    (hk : key ≠ change.key) : (inv.put change).position key = inv.position key := by
  unfold put position
  dsimp only
  split
  · exact lookup_insert_ne hk
  · exact lookup_erase_ne hk

variable {fill : InventoryFill}

section
variable (h : inv.fill f64 fill = .ok (realized, next))
include h

theorem fill_put :
    ∃ change, checkFill f64 inv fill = .ok (change.next, realized) ∧ change.key = fill.key ∧ next = inv.put change := by
  unfold Inventory.fill at h
  cases hp : inv.prepareFill f64 fill with
  | error e => rw [hp] at h; cases h
  | ok change =>
    rw [hp] at h
    unfold prepareFill at hp
    split at hp
    · cases hp
    · next out hout =>
      cases hp
      obtain ⟨_, _, heq⟩ := map_eq_ok.mp h
      cases heq
      exact ⟨_, hout, rfl, rfl⟩

theorem fill_ok : ∃ row, checkFill f64 inv fill = .ok (row, realized) ∧ next.position fill.key = row ∧
      ∀ key, key ≠ fill.key → next.position key = inv.position key := by
  obtain ⟨change, hcheck, hkey, rfl⟩ := fill_put h
  rw [← hkey]
  exact ⟨change.next, hcheck, position_put _ _, fun key hk => position_put_ne _ _ hk⟩

theorem sums_fill :
    next.net fill.symbol = inv.net fill.symbol - quantityOf (inv.position fill.key) +
      quantityOf (next.position fill.key) ∧
    next.gross fill.symbol =
      inv.gross fill.symbol - |quantityOf (inv.position fill.key)| + |quantityOf (next.position fill.key)| := by
  obtain ⟨change, _, hkey, rfl⟩ := fill_put h
  have hbeside := beside_put inv change
  rw [hkey] at hbeside
  rw [show fill.symbol = fill.key.2 from rfl, net_beside, net_beside, gross_beside, gross_beside, hbeside]
  constructor <;> ring

end

theorem prepareFill_of_checkFill {out : Option PortfolioPosition × RealizedValue}
    (h : checkFill f64 inv fill = .ok out) :
    ∃ change, inv.prepareFill f64 fill = .ok change ∧ change.key = fill.key ∧
      change.prior = inv.position fill.key ∧ change.priorNet = inv.net fill.symbol ∧
      change.priorGross = inv.gross fill.symbol ∧ change.realized = out.2 := by
  unfold prepareFill
  split
  · next e he => rw [h] at he; cases he
  · next out' ho =>
    rw [h] at ho
    cases ho
    exact ⟨_, rfl, rfl, rfl, rfl, rfl, rfl⟩

theorem fill_of_checkFill {out : Option PortfolioPosition × RealizedValue}
    (h : checkFill f64 inv fill = .ok out) : ∃ next, inv.fill f64 fill = .ok (out.2, next) := by
  obtain ⟨change, hp, hkey, hprior, hnet, hgross, hreal⟩ := prepareFill_of_checkFill h
  refine ⟨inv.put change, ?_⟩
  have hstale : inv.validateChange change = .ok () := by
    unfold validateChange
    rw [hkey, hprior, hnet, hgross]
    exact if_neg (by simp [InventoryFill.key])
  unfold Inventory.fill
  rw [hp]
  dsimp only
  rw [apply, hstale, ← hreal]
  rfl

theorem fillAll_positions {fills : List InventoryFill} {realized : RealizedRows}
    (h : inv.fillAll f64 fills = .ok (realized, next))
    (hkeys : (fills.map InventoryFill.key).Nodup) :
    (∀ key, key ∉ fills.map InventoryFill.key → next.position key = inv.position key) ∧
    ∀ f ∈ fills, quantityOf (next.position f.key) = quantityOf (inv.position f.key) + f.delta := by
  induction fills generalizing inv realized with
  | nil =>
    cases h
    exact ⟨fun _ _ => rfl, fun f hf => (by cases hf)⟩
  | cons f fills ih =>
    unfold fillAll at h
    cases hf : inv.fill f64 f with
    | error e =>
      rw [hf] at h
      cases h
    | ok out =>
      rw [hf] at h
      obtain ⟨rest, hrest, heq⟩ := map_eq_ok.mp h
      cases heq
      obtain ⟨row, hcheck, hrow, hothers⟩ := fill_ok hf
      obtain ⟨_, _, hnext, _⟩ := checkFill_ok.mp hcheck
      obtain ⟨hnot, hnodup⟩ := nodup_cons.mp hkeys
      obtain ⟨hsame, hadd⟩ := ih hrest hnodup
      constructor
      · intro key hkey
        simp only [map_cons, mem_cons, not_or] at hkey
        rw [hsame key hkey.2, hothers key hkey.1]
      · intro g hg
        obtain rfl | hg := mem_cons.mp hg
        · rw [hsame _ hnot, hrow]
          exact nextPosition_qty hnext
        · have hne : g.key ≠ f.key := fun hk => hnot (hk ▸ mem_map_of_mem hg)
          rw [hadd g hg, hothers g.key hne]

theorem fill_afterFill (h : (inv.fill f64 fill).map Prod.fst = .ok realized) :
    inv.fill f64 fill = .ok (realized, inv.afterFill f64 fill) := by
  obtain ⟨out, hout, rfl⟩ := map_eq_ok.mp h
  rw [afterFill, hout]

theorem tightenStop_cases (inv : Inventory) (key other : PositionKey) (side : Side) (stop : Exact) :
    (inv.tightenStop key side stop).position other = inv.position other ∨
    ∃ row, inv.position other = some row ∧ 0 < stop ∧ (inv.tightenStop key side stop).position other =
        some { row with stopPx := joinStop side row.stopPx (some stop) } := by
  unfold tightenStop position
  dsimp only
  split
  · next row hrow =>
    split
    · next hc =>
      by_cases hk : other = key
      · subst hk
        exact .inr ⟨row, hrow, hc.1, lookup_insert _⟩
      · exact .inl (lookup_insert_ne hk)
    · exact .inl rfl
  · exact .inl rfl

end Inventory

end LiquidityMigration.Portfolio
