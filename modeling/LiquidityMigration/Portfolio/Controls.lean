import LiquidityMigration.Ledger.Apply
import LiquidityMigration.Lib.Decimal
import LiquidityMigration.Portfolio.Snapshot

/- The durable portfolio controls: exits under their sleeve and symbol, emergencies under their symbol, with ids from
   one counter. An emergency resolves the orders on its symbol, closes the net position at the venue and settles what
   offsets between the sleeves. The engine sends an order of its own only for an emergency that names it.

   A record is applied in place: it is accepted for what it asks (`Accepts`), or refused and leaves the controls as
   they were (`apply_outcome`). A rotation gives the same controls back (`restate_snapshot`). -/
namespace LiquidityMigration.Portfolio
open Numeric Checks Orders

structure PortfolioExit where
  id : Nat
  strategy : StrategyId
  symbol : SymbolId
  positionSide : Side
  targetRemaining : Exact
  triggerPrice : Option Exact
  startedMs : Int
  attempt : Nat
  orderId : Option String
  deriving DecidableEq

inductive PortfolioEmergencyReason where
  | exitUnavailable | nativeClose | protectionUnavailable
  deriving DecidableEq

inductive PortfolioEmergencyPhase where
  | resolveOrders | closeNet | settleOffsets
  deriving DecidableEq

structure PortfolioEmergency where
  id : Nat
  symbol : SymbolId
  referencePrice : Exact
  reason : PortfolioEmergencyReason
  phase : PortfolioEmergencyPhase
  startedMs : Int
  attempt : Nat
  orderId : Option String
  deriving DecidableEq

structure PortfolioControlState where
  (schemaVersion nextId : Nat)
  nativePending : List (SymbolId × Exact)
  exits : List PortfolioExit
  emergencies : List PortfolioEmergency
  deriving DecidableEq

def PortfolioExit.key (exit : PortfolioExit) : SleeveKey := sleeveKey exit.strategy exit.symbol

inductive ControlRecord where
  | segmentBase (portfolioControl : PortfolioControlState) (openOrders : List Ledger.OpenOrderState)
  | orderSent (request : Ledger.OrderRequest)
  | portfolioExitChanged (state : PortfolioExit)
  | portfolioExitCompleted (id : Nat) (strategy : StrategyId) (symbol : SymbolId)
  | portfolioEmergencyChanged (state : PortfolioEmergency)
  | portfolioEmergencyCompleted (id : Nat) (symbol : SymbolId)
  | portfolioOffsetSettled (settlement : PortfolioOffsetSettlement)
  | orderFill (symbol : SymbolId) (px : F64) (amounts : Option ExecutionAmounts)
      (allocation : Option ExecutionAllocation)
  | recoveredFill (symbol : SymbolId) (px : F64) (amounts : Option ExecutionAmounts)
      (allocation : Option ExecutionAllocation)
  | other
  deriving DecidableEq

structure PortfolioControls where
  nextId : Nat
  nativePending : Dict SymbolId Exact
  exits : Table PortfolioExit.key
  emergencies : Table PortfolioEmergency.symbol
  deriving DecidableEq

def validateOrderId (orderId : Option String) (attempt : Nat) : Except String Unit :=
  require (∀ id ∈ orderId, id ≠ "" ∧ Text.byteLength id.toList ≤ 128 ∧ attempt ≠ 0) "invalid portfolio order attempt"

def validateExit (state : PortfolioExit) : Except String Unit := do
  require (¬ (state.id = 0 ∨ state.targetRemaining < 0 ∨ ∃ price ∈ state.triggerPrice, ¬ 0 < price))
    "invalid portfolio exit identity or trigger"
  stores state.targetRemaining
  firstError (state.triggerPrice.toList.map stores)
  validateOrderId state.orderId state.attempt

def validateEmergency (state : PortfolioEmergency) : Except String Unit := do
  require (¬ (state.id = 0 ∨ ¬ 0 < state.referencePrice)) "invalid portfolio emergency identity or reference"
  stores state.referencePrice
  validateOrderId state.orderId state.attempt

/-- An exit may be restated so: the same exit, with no more to do and no fewer attempts. -/
def PortfolioExit.Follows (old state : PortfolioExit) : Prop :=
  state.id = old.id ∧ state.triggerPrice = old.triggerPrice ∧ state.positionSide = old.positionSide ∧
    state.targetRemaining ≤ old.targetRemaining ∧ state.startedMs = old.startedMs ∧ old.attempt ≤ state.attempt
  deriving Decidable

def PortfolioEmergency.Follows (old state : PortfolioEmergency) : Prop :=
  state.id = old.id ∧ state.referencePrice = old.referencePrice ∧ state.reason = old.reason ∧
    state.startedMs = old.startedMs ∧ old.attempt ≤ state.attempt

instance (old state : PortfolioEmergency) : Decidable (old.Follows state) := inferInstanceAs (Decidable (_ ∧ _))

/-- The phases an emergency in phase `old` may be recorded in. -/
def PortfolioEmergencyPhase.legal : PortfolioEmergencyPhase → PortfolioEmergencyPhase → Bool
  | .resolveOrders, .closeNet => true
  | .closeNet, .settleOffsets => true
  | .settleOffsets, .resolveOrders => true
  | old, state => old = state

/-- A market order, or one that is cancelled where it does not fill at once. -/
def Immediate : OrderKind → Prop
  | .market => True
  | .limit _ tif => tif = .ioc

instance : (kind : OrderKind) → Decidable (Immediate kind)
  | .market => .isTrue trivial
  | .limit _ tif => inferInstanceAs (Decidable (tif = .ioc))

/-- The ids the engine counts within one boot. -/
def numericEngineOrderId (id : String) : Bool :=
  match id.toList.splitOn '-' with
  | [engine, epoch, counter] =>
    decide (engine = "eng".toList) && (Decimal.parse (2 ^ 64) epoch).isSome &&
      (Decimal.parse (2 ^ 32) counter).any fun counter => 0 < counter && counter < 2 ^ 18
  | _ => false

def emergencyAttemptId (emergencyId : Nat) (id : String) : Bool :=
  match ("eng-pe-" ++ toString emergencyId ++ "-").toList.isPrefixOf? id.toList with
  | some attempt => (Decimal.parse (2 ^ 32) attempt).any fun attempt => 0 < attempt
  | none => false

namespace PortfolioControls

def start : PortfolioControls := ⟨1, ∅, ∅, ∅⟩

variable (c : PortfolioControls) (state : PortfolioEmergency)

/-- `PortfolioControls::next_id`. -/
def next : Except String Nat :=
  if c.nextId = 0 ∨ c.nextId = 2 ^ 64 - 1 then .error "portfolio control ID capacity exhausted" else .ok c.nextId

def snapshot : PortfolioControlState :=
  ⟨1, c.nextId, c.nativePending.entries, c.exits.rows, c.emergencies.rows⟩

/-- The emergency of the order's symbol is closing its net position, and names this order. -/
def Owned (emergencyId : Nat) (request : Ledger.OrderRequest) : Prop :=
  ∃ state ∈ c.emergencies.get? request.symbol,
    state.id = emergencyId ∧ state.phase = .closeNet ∧ state.orderId = some request.clientOrderId

instance (c : PortfolioControls) (emergencyId : Nat) (request : Ledger.OrderRequest) :
    Decidable (c.Owned emergencyId request) :=
  decidable_of_iff ((c.emergencies.get? request.symbol).any (fun state =>
    state.id = emergencyId ∧ state.phase = .closeNet ∧ state.orderId = some request.clientOrderId) = true)
    (by simp [Owned, Option.any_eq_true])

def validateEngineOrder (b : Binary64) (c : PortfolioControls) (request : Ledger.OrderRequest) : Except String Unit :=
  match request.sleeveEffect with
  | some (.emergencyNetReduction emergencyId) => do
    require (c.Owned emergencyId request ∧ request.reduceOnly = true ∧ request.stop = none ∧ Immediate request.kind)
      "engine net order has no matching durable emergency owner"
    let terms ← orError request.exactTerms "engine net order has no exact quantity"
    (terms.validateProjection b request.toOrderRequest).mapError OrderLegalityError.toString
    require (terms.stopTriggerPrice = none ∧ terms.physicalStopTriggerPrice = none ∧ 0 < terms.quantity)
      "engine net order is not an unprotected physical reduction"
  | _ => .ok ()

/-- Controls of one kind put back one by one, each under a key and an id of its own. -/
def restateRows {κ ρ : Type} [LinearOrder κ] {key : ρ → κ} (validate : ρ → Except String Unit) (id : ρ → Nat)
    (nextId : Nat) (text : String) : List ρ → List Nat → Table key → Except String (List Nat × Table key)
  | [], ids, rows => .ok (ids, rows)
  | row :: rest, ids, rows => do
    validate row
    require (¬ (nextId ≤ id row ∨ id row ∈ ids ∨ rows.Has (key row))) text
    restateRows validate id nextId text rest (id row :: ids) (rows.put row)

/-- The obligations a native close has left, put back one by one. -/
def restatePending : List (SymbolId × Exact) → Dict SymbolId Exact → Except String (Dict SymbolId Exact)
  | [], pending => .ok pending
  | (symbol, price) :: rest, pending => do
    stores price
    require (0 < price ∧ pending.find? symbol = none) "invalid native-close obligation in rotation"
    restatePending rest (pending.insert symbol price)

/-- The check of an order that has ended: sent by the engine for an emergency that was. -/
def validateTerminalOrder (b : Binary64) (nextId : Nat) (request : Ledger.OrderRequest) : Except String Unit :=
  match request.sleeveEffect with
  | some (.emergencyNetReduction emergencyId) => do
    require (¬ (emergencyId = 0 ∨ nextId ≤ emergencyId) ∧
        (emergencyAttemptId emergencyId request.clientOrderId = true ∨
          numericEngineOrderId request.clientOrderId = true) ∧
        request.reduceOnly = true ∧ request.stop = none ∧ Immediate request.kind)
      "terminal engine net order has invalid durable lineage"
    let terms ← orError request.exactTerms "terminal engine net order has no exact terms"
    (terms.validateProjection b request.toOrderRequest).mapError OrderLegalityError.toString
  | _ => .ok ()

def validateOpenOrder (b : Binary64) (c : PortfolioControls) (nextId : Nat) (order : Ledger.OpenOrderState) :
    Except String Unit :=
  match order.terminal with
  | none => c.validateEngineOrder b order.request
  | some _ => validateTerminalOrder b nextId order.request

def restate (b : Binary64) (state : PortfolioControlState) (openOrders : List Ledger.OpenOrderState) :
    Except String PortfolioControls := do
  require (¬ (state.schemaVersion ≠ 1 ∨ state.nextId = 0)) "invalid portfolio control snapshot"
  let (ids, exits) ← restateRows validateExit PortfolioExit.id state.nextId
    "duplicate or unallocated portfolio exit in rotation" state.exits [] ∅
  let (_, emergencies) ← restateRows validateEmergency PortfolioEmergency.id state.nextId
    "duplicate or unallocated portfolio emergency in rotation" state.emergencies ids ∅
  let pending ← restatePending state.nativePending ∅
  let next : PortfolioControls := ⟨1, pending, exits, emergencies⟩
  firstError (openOrders.map (next.validateOpenOrder b state.nextId))
  .ok { next with nextId := state.nextId }

def allocate (id : Nat) : Except String Unit × PortfolioControls :=
  match c.next with
  | .error e => (.error e, c)
  | .ok next =>
    if id = next then (.ok (), { c with nextId := c.nextId + 1 })
    else (.error "portfolio control ID is not the next durable identity", c)

def applyExitChanged (state : PortfolioExit) : Except String Unit × PortfolioControls :=
  match validateExit state with
  | .error e => (.error e, c)
  | .ok () =>
    match c.exits.get? state.key with
    | some old =>
      if old.Follows state then (.ok (), { c with exits := c.exits.put state })
      else (.error "portfolio exit changed its identity or moved backward", c)
    | none =>
      match c.allocate state.id with
      | (.error e, c) => (.error e, c)
      | (.ok (), c) => (.ok (), { c with exits := c.exits.put state })

/-- An emergency's new state in its place; a native close it takes over is no longer pending. -/
def putEmergency : PortfolioControls :=
  { c with nativePending := c.nativePending.erase state.symbol, emergencies := c.emergencies.put state }

/-- An emergency recorded: a new one, or one that stands already. -/
def applyEmergencyChanged : Except String Unit × PortfolioControls :=
  match validateEmergency state with
  | .error e => (.error e, c)
  | .ok () =>
    match c.emergencies.get? state.symbol with
    | some old =>
      if old.Follows state then
        if old.phase.legal state.phase = true then (.ok (), c.putEmergency state)
        else (.error "portfolio emergency skipped order resolution", c)
      else (.error "portfolio emergency changed its identity or moved backward", c)
    | none =>
      if state.phase = .resolveOrders then
        match c.allocate state.id with
        | (.error e, c) => (.error e, c)
        | (.ok (), c) => (.ok (), c.putEmergency state)
      else (.error "portfolio emergency must start by resolving orders", c)

def validateOffsetSettled (settlement : PortfolioOffsetSettlement) : Except String Unit := do
  let emergency ← orError (c.emergencies.get? settlement.symbol) "internal settlement has no active emergency"
  require (¬ (emergency.id ≠ settlement.emergencyId ∨ emergency.phase ≠ .settleOffsets ∨
    settlement.price ≠ emergency.referencePrice)) "internal settlement overtook physical close"
  validateSettlement settlement

def executionPrice (px : F64) (amounts : Option ExecutionAmounts) : Except String Exact :=
  match amounts with
  | some amounts => .ok amounts.price.value
  | none => (fromLegacyF64 px).mapError ExactError.toString

/-- An execution shared out between the sleeves: the venue has closed a net position by itself. -/
def applyNativeClose (symbol : SymbolId) (px : F64) (amounts : Option ExecutionAmounts)
    (allocation : Option ExecutionAllocation) : Except String Unit × PortfolioControls :=
  if allocation.map ExecutionAllocation.policy = some .emergencyNetFifo then
    match executionPrice px amounts with
    | .error e => (.error e, c)
    | .ok price =>
      if c.emergencies.Has symbol ∨ (c.nativePending.find? symbol).isSome then (.ok (), c)
      else (.ok (), { c with nativePending := c.nativePending.insert symbol price })
  else (.ok (), c)

def apply (b : Binary64) (c : PortfolioControls) : ControlRecord → Except String Unit × PortfolioControls
  | .segmentBase state openOrders =>
    match restate b state openOrders with
    | .error e => (.error e, c)
    | .ok next => (.ok (), next)
  | .orderSent request => (c.validateEngineOrder b request, c)
  | .portfolioExitChanged state => c.applyExitChanged state
  | .portfolioExitCompleted id strategy symbol =>
    if (c.exits.get? (sleeveKey strategy symbol)).map PortfolioExit.id = some id then
      (.ok (), { c with exits := c.exits.erase (sleeveKey strategy symbol) })
    else (.error "portfolio exit completion has no active owner", c)
  | .portfolioEmergencyChanged state => c.applyEmergencyChanged state
  | .portfolioEmergencyCompleted id symbol =>
    if (c.emergencies.get? symbol).map PortfolioEmergency.id = some id then
      (.ok (), { c with emergencies := c.emergencies.erase symbol })
    else (.error "portfolio emergency completion has no active owner", c)
  | .portfolioOffsetSettled settlement => (c.validateOffsetSettled settlement, c)
  | .orderFill symbol px amounts allocation => c.applyNativeClose symbol px amounts allocation
  | .recoveredFill symbol px amounts allocation => c.applyNativeClose symbol px amounts allocation
  | .other => (.ok (), c)

def completed (orders : Ledger.LedgerOfOrders) (id : Option String) : Bool :=
  (id.bind orders.orders.get?).any fun order => !order.inFlight

def retireCompletedOrders (orders : Ledger.LedgerOfOrders) : PortfolioControls :=
  { c with
    exits := c.exits.update (fun exit => if completed orders exit.orderId then { exit with orderId := none } else exit)
      (fun exit => by split <;> rfl)
    emergencies := c.emergencies.update
      (fun emergency => if completed orders emergency.orderId then { emergency with orderId := none } else emergency)
      (fun emergency => by split <;> rfl) }

def retainNativeOffsets (portfolio : PortfolioState) : PortfolioControls :=
  { c with
    nativePending := c.nativePending.retain (fun symbol _ =>
      (portfolio.positions.filter (fun row => row.symbol = symbol)).any (fun row => 0 < row.signedQty) &&
        (portfolio.positions.filter (fun row => row.symbol = symbol)).any (fun row => row.signedQty < 0)) }

/-- **What each accepted record asks for, and the controls it leaves.** -/
inductive Accepts (b : Binary64) (c : PortfolioControls) : ControlRecord → PortfolioControls → Prop
  | segmentBase {state : PortfolioControlState} {openOrders : List Ledger.OpenOrderState} {next : PortfolioControls}
      (hrestate : restate b state openOrders = .ok next) : Accepts b c (.segmentBase state openOrders) next
  | orderSent {request : Ledger.OrderRequest} (hvalid : c.validateEngineOrder b request = .ok ()) :
      Accepts b c (.orderSent request) c
  | exitOpened {state : PortfolioExit} (hvalid : validateExit state = .ok ()) (hnew : c.exits.get? state.key = none)
      (hid : state.id = c.nextId) :
      Accepts b c (.portfolioExitChanged state) { c with nextId := c.nextId + 1, exits := c.exits.put state }
  | exitMoved {state old : PortfolioExit} (hvalid : validateExit state = .ok ())
      (hold : c.exits.get? state.key = some old) (hfollows : old.Follows state) :
      Accepts b c (.portfolioExitChanged state) { c with exits := c.exits.put state }
  | exitCompleted {id : Nat} {strategy : StrategyId} {symbol : SymbolId}
      (howner : (c.exits.get? (sleeveKey strategy symbol)).map PortfolioExit.id = some id) :
      Accepts b c (.portfolioExitCompleted id strategy symbol)
        { c with exits := c.exits.erase (sleeveKey strategy symbol) }
  | emergencyOpened {state : PortfolioEmergency} (hvalid : validateEmergency state = .ok ())
      (hnew : c.emergencies.get? state.symbol = none) (hphase : state.phase = .resolveOrders)
      (hid : state.id = c.nextId) :
      Accepts b c (.portfolioEmergencyChanged state) ({ c with nextId := c.nextId + 1 }.putEmergency state)
  | emergencyMoved {state old : PortfolioEmergency} (hvalid : validateEmergency state = .ok ())
      (hold : c.emergencies.get? state.symbol = some old) (hfollows : old.Follows state)
      (hlegal : old.phase.legal state.phase = true) :
      Accepts b c (.portfolioEmergencyChanged state) (c.putEmergency state)
  | emergencyCompleted {id : Nat} {symbol : SymbolId}
      (howner : (c.emergencies.get? symbol).map PortfolioEmergency.id = some id) :
      Accepts b c (.portfolioEmergencyCompleted id symbol) { c with emergencies := c.emergencies.erase symbol }
  | offsetSettled {settlement : PortfolioOffsetSettlement} (hvalid : c.validateOffsetSettled settlement = .ok ()) :
      Accepts b c (.portfolioOffsetSettled settlement) c
  | pending {record : ControlRecord} (pending : Dict SymbolId Exact)
      (hfill : (∃ symbol px amounts allocation, record = .orderFill symbol px amounts allocation) ∨
        (∃ symbol px amounts allocation, record = .recoveredFill symbol px amounts allocation) ∨ record = .other) :
      Accepts b c record { c with nativePending := pending }

variable {b : Binary64} {c c' : PortfolioControls} {record : ControlRecord}

/-- The two ways a record can go: refused, with the controls left as they were, or accepted. -/
inductive Outcome (b : Binary64) (c : PortfolioControls) (record : ControlRecord) :
    Except String Unit × PortfolioControls → Prop
  | refused (e : String) : Outcome b c record (.error e, c)
  | accepted {c' : PortfolioControls} (h : Accepts b c record c') : Outcome b c record (.ok (), c')

theorem allocate_cases (c : PortfolioControls) (id : Nat) : (∃ e, c.allocate id = (.error e, c)) ∨
      id = c.nextId ∧ c.allocate id = (.ok (), { c with nextId := c.nextId + 1 }) := by
  unfold allocate next
  split_ifs
  · exact .inl ⟨_, rfl⟩
  · by_cases hid : id = c.nextId
    · exact .inr ⟨hid, if_pos hid⟩
    · exact .inl ⟨_, if_neg hid⟩

theorem Outcome.checked {check : Except String Unit} (h : check = .ok () → Accepts b c record c) :
    Outcome b c record (check, c) := by
  cases check with
  | error e => exact .refused e
  | ok u => exact .accepted (h rfl)

theorem applyExitChanged_outcome (state : PortfolioExit) :
    Outcome b c (.portfolioExitChanged state) (c.applyExitChanged state) := by
  unfold applyExitChanged
  split
  · exact .refused _
  · next hvalid =>
    split
    · next old hold =>
      split_ifs with hfollows
      · exact .accepted (.exitMoved hvalid hold hfollows)
      · exact .refused _
    · next hnew =>
      rcases c.allocate_cases state.id with ⟨e, halloc⟩ | ⟨hid, halloc⟩
      · rw [halloc]
        exact .refused e
      · rw [halloc]
        exact .accepted (.exitOpened hvalid hnew hid)

theorem applyEmergencyChanged_outcome :
    Outcome b c (.portfolioEmergencyChanged state) (c.applyEmergencyChanged state) := by
  unfold applyEmergencyChanged
  split
  · exact .refused _
  · next hvalid =>
    split
    · next old hold =>
      split_ifs with hfollows hlegal
      · exact .accepted (.emergencyMoved hvalid hold hfollows hlegal)
      · exact .refused _
      · exact .refused _
    · next hnew =>
      split_ifs with hphase
      · rcases c.allocate_cases state.id with ⟨e, halloc⟩ | ⟨hid, halloc⟩
        · rw [halloc]
          exact .refused e
        · rw [halloc]
          exact .accepted (.emergencyOpened hvalid hnew hphase hid)
      · exact .refused _

theorem applyNativeClose_outcome (symbol : SymbolId) (px : F64) (amounts : Option ExecutionAmounts)
    (allocation : Option ExecutionAllocation)
    (hpending : ∀ pending, Accepts b c record { c with nativePending := pending }) :
    Outcome b c record (c.applyNativeClose symbol px amounts allocation) := by
  unfold applyNativeClose
  split
  · split
    · exact .refused _
    · split_ifs
      · exact .accepted (hpending c.nativePending)
      · exact .accepted (hpending _)
  · exact .accepted (hpending c.nativePending)

variable (b c record) in
/-- **A record is refused and leaves the controls as they were, or it is accepted for what it asks.** -/
theorem apply_outcome :
    Outcome b c record (c.apply b record) := by
  cases record with
  | segmentBase state openOrders =>
    rw [apply]
    split
    · exact .refused _
    · next next hrestate => exact .accepted (.segmentBase hrestate)
  | orderSent request => exact .checked .orderSent
  | portfolioExitChanged state => exact applyExitChanged_outcome state
  | portfolioExitCompleted id strategy symbol =>
    rw [apply]
    split_ifs with howner
    · exact .accepted (.exitCompleted howner)
    · exact .refused _
  | portfolioEmergencyChanged state => exact applyEmergencyChanged_outcome state
  | portfolioEmergencyCompleted id symbol =>
    rw [apply]
    split_ifs with howner
    · exact .accepted (.emergencyCompleted howner)
    · exact .refused _
  | portfolioOffsetSettled settlement => exact .checked .offsetSettled
  | orderFill symbol px amounts allocation =>
    exact applyNativeClose_outcome symbol px amounts allocation fun pending => .pending pending (.inl ⟨_, _, _, _, rfl⟩)
  | recoveredFill symbol px amounts allocation =>
    exact applyNativeClose_outcome symbol px amounts allocation
      fun pending => .pending pending (.inr (.inl ⟨_, _, _, _, rfl⟩))
  | other => exact .accepted (.pending c.nativePending (.inr (.inr rfl)))

theorem accepts_of_apply (h : c.apply b record = (.ok (), c')) : Accepts b c record c' := by
  have houtcome := apply_outcome b c record
  rw [h] at houtcome
  cases houtcome with
  | accepted haccepts => exact haccepts

theorem apply_refused {e : String} (h : c.apply b record = (.error e, c')) : c' = c := by
  have houtcome := apply_outcome b c record
  rw [h] at houtcome
  cases houtcome with
  | refused e => rfl

theorem restateRows_ok {κ ρ : Type} [LinearOrder κ] {key : ρ → κ} {validate : ρ → Except String Unit} {id : ρ → Nat}
    {nextId : Nat} {text : String} {rows : List ρ} {ids ids' : List Nat} {t t' : Table key}
    (h : restateRows validate id nextId text rows ids t = .ok (ids', t')) : t' = t.putAll rows := by
  induction rows generalizing ids t with
  | nil =>
    obtain ⟨-, rfl⟩ := Prod.mk.inj (Except.ok.inj h)
    rfl
  | cons row rows ih =>
    simp only [restateRows, ok_iff] at h
    exact ih h.2.2

theorem restatePending_ok {rows : List (SymbolId × Exact)} {pending pending' : Dict SymbolId Exact}
    (h : restatePending rows pending = .ok pending') : pending' = ⟨pending.table.putAll rows⟩ := by
  induction rows generalizing pending with
  | nil => exact (Except.ok.inj h).symm
  | cons row rows ih =>
    simp only [restatePending, ok_iff] at h
    rw [ih h.2.2]
    rfl

/-- **A rotation that states the controls as they are gives the same controls back.** -/
theorem restate_snapshot {openOrders : List Ledger.OpenOrderState} (h : restate b c.snapshot openOrders = .ok c') :
    c' = c := by
  simp only [restate, ok_iff, Prod.exists] at h
  obtain ⟨-, _, exits, hexits, _, emergencies, hemergencies, pending, hpending, -, rfl⟩ := h
  rw [restateRows_ok hexits, restateRows_ok hemergencies, restatePending_ok hpending]
  simp only [snapshot, Table.putAll_rows]
  have hpendingRows : (∅ : Dict SymbolId Exact).table.putAll c.nativePending.entries = c.nativePending.table :=
    Table.putAll_rows c.nativePending.table
  rw [hpendingRows]

end PortfolioControls

end LiquidityMigration.Portfolio
